import ExtrusionProfile.Number.Text
import ExtrusionProfile.Proofs.Number.Literal
import ExtrusionProfile.Proofs.Number.Shortest

/-! Written doubles. The plain form of a finite double is a literal, however it is laid out, and it is
read back as the same double; of a zero only the sign is lost. -/
namespace ExtrusionProfile
namespace NumberText

open Literal Binary64

section Digits

variable {ds : List Char}

theorem isDigit_zeros (n : ℕ) : ∀ c ∈ zeros n, c.isDigit := by
  intro c hc
  rw [List.eq_of_mem_replicate hc]
  rfl

theorem isDigit_digitsOf (n : ℕ) : ∀ c ∈ digitsOf n, c.isDigit := fun _ hc =>
  Nat.isDigit_of_mem_toDigits (by norm_num) le_rfl hc

theorem spelled_digitsOf (n : ℕ) : spelled (digitsOf n) = n := by
  rw [← natural_eq_spelled]
  exact Nat.ofDigitChars_toDigits (by norm_num) le_rfl

theorem spelled_zeros (n : ℕ) : spelled (zeros n) = 0 := by
  induction n with
  | zero => rfl
  | succ n ih =>
    have h : zeros (n+1) = ['0'] ++ zeros n := rfl
    have h0 : spelled ['0'] = 0 := by decide
    rw [h,spelled_append,ih,h0,zero_mul]

theorem spelled_append_zeros (ds : List Char) (n : ℕ) : spelled (ds ++ zeros n) = spelled ds*10^n := by
  rw [spelled_append,spelled_zeros,zeros,List.length_replicate,add_zero]

theorem spelled_zeros_append (n : ℕ) (ds : List Char) : spelled (zeros n ++ ds) = spelled ds := by
  rw [spelled_append,spelled_zeros,zero_mul,zero_add]

theorem spelled_cons_zeros_append (n : ℕ) (ds : List Char) :
    spelled ('0'::(zeros n ++ ds)) = spelled ds := spelled_zeros_append (n+1) ds

end Digits

/-- The exponent of a decimal in scientific form. -/
def exponentOf (e : ℤ) : Exponent where
  letter := 'e'
  sign := [if e < 0 then '-' else '+']
  digits := digitsOf e.natAbs
  letter_mem := by simp
  sign_mem := by split_ifs <;> simp [signs]
  digits_ne_nil := Nat.toDigits_ne_nil
  isDigit := isDigit_digitsOf _

theorem power_exponentOf (e : ℤ) : (exponentOf e).power = e := by
  have hd : spelled (exponentOf e).digits = e.natAbs := spelled_digitsOf _
  have hs : (exponentOf e).sign = ['-'] ↔ e < 0 := by
    change [if e < 0 then '-' else '+'] = ['-'] ↔ e < 0
    split_ifs with h <;> simp [h]
  unfold Exponent.power
  simp only [hd,hs]
  split_ifs <;> omega

section Layout

variable {ds : List Char}

/-- Parts of a literal that has no sign, some digits before the point, and a given decimal. -/
structure Spells (t : List Char) (q : ℚ) (w : List Char) (f : Option (List Char))
    (x : Option Exponent) : Prop where
  text : t = (w ++ pointed f) ++ x.elim [] Exponent.text
  ne_nil : w ≠ []
  isDigit : ∀ c ∈ w ++ f.getD [], c.isDigit
  value : (spelled (w ++ f.getD []) : ℚ)*10^(x.elim 0 Exponent.power-(f.getD []).length) = q

section Layouts

variable (hd : ∀ c ∈ ds, c.isDigit)
include hd

theorem spells_whole (hn : ds ≠ []) (k : ℕ) :
    Spells (ds ++ zeros k) (spelled ds*10^(k : ℤ)) (ds ++ zeros k) none none where
  text := by simp [pointed]
  ne_nil := by simp [hn]
  isDigit := by
    rw [Option.getD_none,List.append_nil]
    exact List.forall_mem_append.mpr ⟨hd,isDigit_zeros k⟩
  value := by
    rw [Option.getD_none,List.append_nil,spelled_append_zeros,zpow_natCast]
    simp

theorem spells_pointed (hn : ds ≠ []) {k : ℕ} (hk : 0 < k) :
    Spells (ds.take k ++ '.'::ds.drop k) (spelled ds*10^(-(ds.length-k : ℕ) : ℤ))
      (ds.take k) (some (ds.drop k)) none where
  text := by simp [pointed]
  ne_nil := by simp [hn,hk.ne']
  isDigit := by rwa [Option.getD_some,List.take_append_drop]
  value := by
    rw [Option.getD_some,List.take_append_drop,List.length_drop,Option.elim_none,zero_sub]

theorem spells_fraction (k : ℕ) :
    Spells ('0' :: '.' :: (zeros k ++ ds)) (spelled ds*10^(-(k+ds.length : ℕ) : ℤ))
      ['0'] (some (zeros k ++ ds)) none where
  text := by simp [pointed]
  ne_nil := by simp
  isDigit := List.forall_mem_append.mpr
    ⟨List.forall_mem_singleton.mpr rfl,List.forall_mem_append.mpr ⟨isDigit_zeros k,hd⟩⟩
  value := by
    rw [Option.getD_some,List.singleton_append,spelled_cons_zeros_append,List.length_append,zeros,
      List.length_replicate,Option.elim_none,zero_sub]

theorem spells_scientific (hn : ds ≠ []) (e : ℤ) :
    Spells (ds.take 1 ++ (if ds.length = 1 then [] else '.'::ds.drop 1) ++ (exponentOf e).text)
      (spelled ds*10^(e-(ds.length-1 : ℕ)))
      (ds.take 1) (if ds.length = 1 then none else some (ds.drop 1)) (some (exponentOf e)) := by
  have hf : (if ds.length = 1 then none else some (ds.drop 1)).getD [] = ds.drop 1 := by
    split_ifs with h
    · exact (List.drop_eq_nil_of_le h.le).symm
    · rfl
  have hp : pointed (if ds.length = 1 then none else some (ds.drop 1)) =
      if ds.length = 1 then [] else '.'::ds.drop 1 := by split_ifs <;> rfl
  refine ⟨by rw [hp,Option.elim_some],by simp [hn],?_,?_⟩
  · rwa [hf,List.take_append_drop]
  · rw [hf,List.take_append_drop,Option.elim_some,power_exponentOf,List.length_drop]

/-- Laying digits out does not change the decimal that they spell, with the point behind the first `j`
of them. -/
theorem exists_spells (hn : ds ≠ []) (j : ℤ) :
    ∃ w f x, Spells (layout ds j) (spelled ds*10^(j-ds.length)) w f x := by
  have hl := List.length_pos_of_ne_nil hn
  unfold layout
  dsimp only
  split
  · have he : j-ds.length = (j.toNat-ds.length : ℕ) := by omega
    exact he ▸ ⟨_,_,_,spells_whole hd hn _⟩
  split
  · have he : j-ds.length = -(ds.length-j.toNat : ℕ) := by omega
    exact he ▸ ⟨_,_,_,spells_pointed hd hn (by omega)⟩
  split
  · have he : j-ds.length = -((-j).toNat+ds.length : ℕ) := by omega
    exact he ▸ ⟨_,_,_,spells_fraction hd _⟩
  · have he : j-ds.length = j-1-(ds.length-1 : ℕ) := by omega
    exact he ▸ ⟨_,_,_,spells_scientific hd hn (j-1)⟩

theorem exists_parts (hn : ds ≠ []) {s : List Char} (hs : s ∈ signs)
    (j : ℤ) : ∃ p : Parts, p.sign = s ∧ p.text = s ++ layout ds j ∧
      p.magnitude = spelled ds*10^(j-ds.length) := by
  obtain ⟨w,f,x,h⟩ := exists_spells hd hn j
  obtain ⟨hw,hf⟩ := List.forall_mem_append.mp h.isDigit
  refine ⟨⟨s,w,f,x,hs,hw,hf,.inl h.ne_nil⟩,rfl,?_,?_⟩
  · exact congrArg (s ++ ·) h.text.symm
  · rw [magnitude_eq]
    exact h.value

end Layouts

end Layout

section Plain

variable {x : Float}

theorem significand_pos (hx : x.isFinite) (h : toRat x ≠ 0) : 0 < significand x := by
  refine Nat.pos_of_ne_zero fun h0 => h ?_
  rw [toRat_eq x hx,h0]
  simp

theorem plain_eq (hx : x.isFinite) (h0 : toRat x ≠ 0) :
    let d := Shortest.decimal (magnitude x)
    let body := layout (digitsOf d.1) ((digitsOf d.1).length+d.2)
    plain x = if isNegative x then '-'::body else body := by
  have hz : (x == 0) = false := by
    rw [← Bool.not_eq_true,beq_iff_toRat hx isFinite_zero]
    exact h0
  have hi : x.isInf = false := by
    change x.toModel.unpack.isInf = false
    rcases finite_cases hx with ⟨s,h⟩ | ⟨s,m,e,hm,h,-⟩ <;> rw [h] <;> rfl
  unfold plain
  rw [isNaN_of_isFinite hx,hz,hi]
  rfl

theorem exists_parts_plain (hx : x.isFinite) (h0 : toRat x ≠ 0) :
    ∃ p : Parts, p.sign = (if isNegative x then ['-'] else []) ∧ p.text = plain x ∧
      nearest p.magnitude = |toRat x| := by
  have hy : (magnitude x).isFinite := (Bounded.magnitude ⟨hx,le_rfl⟩).isFinite
  have hm := toRat_magnitude hx
  have hp : 0 < significand (magnitude x) :=
    significand_pos hy (by rw [hm]; exact abs_ne_zero.mpr h0)
  have hn := Shortest.nearest_decimal hp
  rw [← abs_toRat_eq hy,hm,abs_abs] at hn
  have hs : (if isNegative x then ['-'] else []) ∈ signs := by split_ifs <;> simp [signs]
  obtain ⟨p,hsign,ht,hv⟩ := exists_parts (isDigit_digitsOf (Shortest.decimal (magnitude x)).1)
    Nat.toDigits_ne_nil hs
    ((digitsOf (Shortest.decimal (magnitude x)).1).length+(Shortest.decimal (magnitude x)).2)
  rw [spelled_digitsOf,add_sub_cancel_left] at hv
  refine ⟨p,hsign,?_,by rw [hv,hn]⟩
  rw [ht,plain_eq hx h0]
  split_ifs <;> rfl

theorem plain_of_toRat_eq_zero (hx : x.isFinite) (h0 : toRat x = 0) : plain x = ['0'] := by
  have hz : x == 0 := (beq_iff_toRat hx isFinite_zero).mpr h0
  unfold plain
  rw [isNaN_of_isFinite hx,hz]
  rfl

/-- What is read of the plain form is the same rational. -/
structure Reads (t : List Char) (x : Float) : Prop where
  isLiteral : IsLiteral t
  isFinite : (value t).isFinite
  toRat_eq : toRat (value t) = toRat x

theorem reads_plain (hx : x.isFinite) : Reads (plain x) x := by
  by_cases h0 : toRat x = 0
  · have hv : value ['0'] = 0 := by decide +kernel
    rw [plain_of_toRat_eq_zero hx h0]
    exact ⟨⟨⟨[],['0'],none,none,by simp [signs],by simp,by simp,by simp⟩,rfl⟩,by rw [hv]; rfl,
      by rw [hv,h0]; rfl⟩
  · obtain ⟨p,hs,ht,hn⟩ := exists_parts_plain hx h0
    have hv := value_text p
    rcases finite_cases hx with ⟨s,hu⟩ | ⟨s,m,e,hm,hu,hc,he⟩
    · exact absurd (by rw [toRat,hu,ratOf_zero]) h0
    · have habs : |toRat x| = m*2^e := by rw [toRat,hu,abs_ratOf]
      rw [hn,habs,onGrid_canonical _ hm hc he,ht] at hv
      refine ⟨⟨p,ht⟩,?_,?_⟩
      · change (value (plain x)).toModel.unpack.isFinite
        rw [hv]
        rfl
      · rw [toRat,hv,ratOf_eq,← habs,abs_toRat_eq hx,Binary64.toRat_eq x hx,hs]
        cases isNegative x <;> rfl

/-- Reading the plain form of a finite double gives the double, and zero for either zero. -/
theorem value_plain (hx : x.isFinite) : value (plain x) == x :=
  (beq_iff_toRat (reads_plain hx).isFinite hx).mpr (reads_plain hx).toRat_eq

end Plain

end NumberText
end ExtrusionProfile
