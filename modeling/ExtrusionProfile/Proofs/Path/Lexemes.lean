import ExtrusionProfile.Proofs.Number.Literal
import ExtrusionProfile.Proofs.Path.Tokens

/-! What the tokens of a text are. They stand one behind the other, each is the command or the
longest literal that the text has at its place, and only characters that begin neither are
passed over. -/
namespace ExtrusionProfile
namespace Path

open Text

theorem upper_of_ofUpper? {c : Char} {f : Family} (h : Family.ofUpper? c = some f) :
    Command.letter ⟨f,false⟩ = c := by
  unfold Family.ofUpper? at h
  split at h <;> cases h <;> rfl

theorem ofLetter?_lower : ∀ n : Fin 26,
    (Command.ofLetter? (Char.ofNat (97+n))).all (·.letter = Char.ofNat (97+n)) := by
  decide

theorem letter_of_ofLetter? {c : Char} {k : Command} (h : Command.ofLetter? c = some k) :
    k.letter = c := by
  by_cases hl : c.isLower
  · have hc : 97 ≤ c.toNat ∧ c.toNat ≤ 122 := by
      simpa [Char.isLower,UInt32.le_iff_toNat_le] using hl
    have hn := ofLetter?_lower ⟨c.toNat-97,by omega⟩
    have he : Char.ofNat (97+(c.toNat-97)) = c := by
      rw [Nat.add_sub_cancel' hc.1,Char.ofNat_toNat]
    simpa [he,h] using hn
  · rw [Command.ofLetter?,if_neg hl] at h
    obtain ⟨f,hf,rfl⟩ := Option.map_eq_some_iff.mp h
    exact upper_of_ofUpper? hf

/-- Whether a token is what a text begins with: its letter, or the longest literal. -/
def Token.Begins (es : List Char) : Token → Prop
  | .command k _ => es.head? = some k.letter
  | .number n => Literal.IsLongest n.text es ∧ Literal.Denotes n.text n.value

/-- Whether a text begins with neither a command nor a literal. -/
def Bare (es : List Char) : Prop :=
  (∀ k : Command, es.head? ≠ some k.letter) ∧ ∀ t, Literal.IsLiteral t → ¬t <+: es

variable {o : ℕ} {cs : List Char}

theorem le_offset {a : Token} (h : a ∈ tokensFrom o cs) : o ≤ a.offset := by
  fun_induction tokensFrom o cs with
  | case1 => cases h
  | case2 o c cs k hk ih =>
    rcases List.mem_cons.mp h with rfl | h
    · exact Nat.le_refl o
    · exact (Nat.le_add_right o _).trans (ih h)
  | case3 o c cs hk t r hs _ ih =>
    rcases List.mem_cons.mp h with rfl | h
    · exact Nat.le_refl o
    · exact (Nat.le_add_right o _).trans (ih h)
  | case4 o c cs hk hs ih => exact (Nat.le_add_right o _).trans (ih h)

theorem units_pos {t : List Char} (h : t ≠ []) : 0 < units t := by
  obtain ⟨c,cs,rfl⟩ := List.exists_cons_of_ne_nil h
  exact Nat.add_pos_left (unitsOf_pos c) _

theorem tokensFrom_pairwise (o : ℕ) (cs : List Char) : (tokensFrom o cs).Pairwise
    fun a b => a.offset < b.offset ∧ a.offset+units a.text ≤ b.offset := by
  fun_induction tokensFrom o cs with
  | case1 => exact .nil
  | case2 o c cs k hk ih =>
    refine List.pairwise_cons.mpr ⟨fun b hb => ?_,ih⟩
    have hl := le_offset hb
    have hp := unitsOf_pos c
    rw [← letter_of_ofLetter? hk] at hl hp
    exact ⟨by change o < b.offset; omega,hl⟩
  | case3 o c cs hk t r hs _ ih =>
    refine List.pairwise_cons.mpr ⟨fun b hb => ?_,ih⟩
    have hl := le_offset hb
    have hp := units_pos (Literal.scan_ne_nil hs)
    exact ⟨by change o < b.offset; omega,hl⟩
  | case4 o c cs hk hs ih => exact ih

theorem tokensFrom_begins (o : ℕ) (cs : List Char) : ∀ a ∈ tokensFrom o cs,
    ∃ us es, cs = us ++ es ∧ a.offset = o+units us ∧ a.Begins es := by
  fun_induction tokensFrom o cs with
  | case1 => simp
  | case2 o c cs k hk ih =>
    intro a ha
    rcases List.mem_cons.mp ha with rfl | ha
    · exact ⟨[],c::cs,rfl,rfl,congrArg some (letter_of_ofLetter? hk).symm⟩
    · obtain ⟨us,es,rfl,ho,hb⟩ := ih a ha
      exact ⟨c::us,es,rfl,by rw [ho,units_cons,Nat.add_assoc],hb⟩
  | case3 o c cs hk t r hs _ ih =>
    intro a ha
    rcases List.mem_cons.mp ha with rfl | ha
    · have hl := Literal.isLongest_of_scan hs
      exact ⟨[],c::cs,rfl,rfl,hl,Literal.denotes_value hl.isLiteral⟩
    · obtain ⟨us,es,rfl,ho,hb⟩ := ih a ha
      refine ⟨t ++ us,es,?_,by rw [ho,units_append,Nat.add_assoc],hb⟩
      rw [List.append_assoc,Literal.scan_append hs]
  | case4 o c cs hk hs ih =>
    intro a ha
    obtain ⟨us,es,rfl,ho,hb⟩ := ih a ha
    exact ⟨c::us,es,rfl,by rw [ho,units_cons,Nat.add_assoc],hb⟩

/-- Whether a token covers a place. -/
def Token.Covers (n : ℕ) (a : Token) : Prop := a.offset ≤ n ∧ n < a.offset+units a.text

theorem bare_of_not_covered {o : ℕ} {cs us es : List Char} (he : cs = us ++ es)
    (h : ∀ a ∈ tokensFrom o cs, ¬a.Covers (o+units us)) : Bare es := by
  fun_induction tokensFrom o cs generalizing us with
  | case1 o =>
    obtain ⟨rfl,rfl⟩ := List.append_eq_nil_iff.mp he.symm
    exact ⟨by simp,fun t ht hp => Literal.ne_nil_of_isLiteral ht (List.prefix_nil.mp hp)⟩
  | case2 o c cs k hk ih =>
    cases us with
    | nil =>
      refine absurd ?_ (h (.command k o) (by simp))
      exact ⟨Nat.le_refl o,Nat.lt_add_of_pos_right (units_pos (List.cons_ne_nil _ _))⟩
    | cons d us =>
      obtain ⟨rfl,rfl⟩ := List.cons.inj he
      refine ih rfl fun a ha => ?_
      rw [Nat.add_assoc]
      exact h a (List.mem_cons_of_mem _ ha)
  | case3 o c cs hk t r hs _ ih =>
    rw [← Literal.scan_append hs] at he
    rcases List.append_eq_append_iff.mp he with ⟨v,rfl,rfl⟩ | ⟨v,rfl,rfl⟩
    · refine ih rfl fun a ha => ?_
      rw [Nat.add_assoc,← units_append]
      exact h a (List.mem_cons_of_mem _ ha)
    · cases v with
      | nil =>
        rw [List.append_nil] at ih h
        exact @ih [] rfl fun a ha => h a (List.mem_cons_of_mem _ ha)
      | cons d v =>
        refine absurd ?_ (h _ List.mem_cons_self)
        refine ⟨Nat.le_add_right o _,Nat.add_lt_add_left ?_ o⟩
        change units us < units (us ++ d::v)
        rw [units_append]
        exact Nat.lt_add_of_pos_right (units_pos (List.cons_ne_nil d v))
  | case4 o c cs hk hs ih =>
    cases us with
    | nil =>
      obtain rfl := he
      refine ⟨fun k hk' => ?_,fun t ht => Literal.not_isPrefix_of_scan hs ht⟩
      cases hk'
      rw [Command.ofLetter?_letter] at hk
      cases hk
    | cons d us =>
      obtain ⟨rfl,rfl⟩ := List.cons.inj he
      refine ih rfl fun a ha => ?_
      rw [Nat.add_assoc]
      exact h a ha

/-- The tokens of a text stand one behind the other. Each is what the text begins with at its
offset: a command by its letter, a number by the longest literal and with the nearest double
to its decimal. Where no token is, there is no command and no literal begins. -/
theorem tokens_lossless (d : List Char) :
    ((tokens d).Pairwise fun a b => a.offset < b.offset ∧ a.offset+units a.text ≤ b.offset) ∧
      (∀ a ∈ tokens d, ∃ us es, d = us ++ es ∧ a.offset = units us ∧ a.Begins es) ∧
      ∀ us es, d = us ++ es → (∀ a ∈ tokens d, ¬a.Covers (units us)) → Bare es := by
  refine ⟨tokensFrom_pairwise 0 d,fun a ha => ?_,fun us es he h => ?_⟩
  · obtain ⟨us,es,he,ho,hb⟩ := tokensFrom_begins 0 d a ha
    exact ⟨us,es,he,by rw [ho,Nat.zero_add],hb⟩
  · exact bare_of_not_covered (o:=0) he fun a ha => by rw [Nat.zero_add]; exact h a ha

example : (tokens "1e+--..5Z".toList).map Token.text = [['1'],['.','5'],['Z']] := by
  decide +kernel

end Path
end ExtrusionProfile
