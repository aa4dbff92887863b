import ExtrusionProfile.Proofs.Number.Decimal

/-! The language of number literals. A literal has a sign, digits with at most one point, and
an exponent; `scan` finds the longest one at the front of a text, and `value` is the double
nearest to the decimal that its parts spell. -/
namespace ExtrusionProfile
namespace Literal

def signs : List (List Char) := [[],['+'],['-']]

structure Exponent where
  letter : Char
  sign : List Char
  digits : List Char
  letter_mem : letter ∈ ['e','E']
  sign_mem : sign ∈ signs
  digits_ne_nil : digits ≠ []
  isDigit : ∀ c ∈ digits, c.isDigit

/-- The parts of a literal. Digits may be missing on one side of the point, but not on both. -/
structure Parts where
  sign : List Char
  whole : List Char
  /-- The digits behind the point, if there is one. -/
  fraction : Option (List Char)
  exponent : Option Exponent
  sign_mem : sign ∈ signs
  whole_isDigit : ∀ c ∈ whole, c.isDigit
  fraction_isDigit : ∀ c ∈ fraction.getD [], c.isDigit
  some_digit : whole ≠ [] ∨ fraction.getD [] ≠ []

def pointed : Option (List Char) → List Char
  | none => []
  | some fs => '.'::fs

def Exponent.text (x : Exponent) : List Char := x.letter::(x.sign ++ x.digits)

def Parts.text (p : Parts) : List Char :=
  p.sign ++ ((p.whole ++ pointed p.fraction) ++ p.exponent.elim [] Exponent.text)

/-- A literal and nothing else. -/
def IsLiteral (t : List Char) : Prop := ∃ p : Parts, p.text = t

section Stages

variable {ds r s : List Char} {f : Option (List Char)}

theorem sign_of_mem (hs : s ∈ signs) (hr : ∀ c ∈ r.head?, c ≠ '+' ∧ c ≠ '-') :
    sign (s ++ r) = (s,r) := by
  simp only [signs,List.mem_cons,List.not_mem_nil,or_false] at hs
  rcases hs with rfl | rfl | rfl
  · cases r with
    | nil => rfl
    | cons c r =>
      have := hr c rfl
      simp [sign,this]
  · simp [sign]
  · simp [sign]

theorem digits_of_isDigit (hd : ∀ c ∈ ds, c.isDigit) :
    digits (ds ++ r) = (ds ++ (digits r).1,(digits r).2) := by
  simp only [digits,List.takeWhile_append_of_pos hd,List.dropWhile_append_of_pos hd]

theorem digits_stop (hr : ∀ c ∈ r.head?, ¬c.isDigit) : digits r = ([],r) := by
  cases r with
  | nil => rfl
  | cons c r => simp [digits,hr c rfl]

theorem fraction_pointed (hf : ∀ c ∈ f.getD [], c.isDigit)
    (hr : ∀ c ∈ r.head?, ¬c.isDigit ∧ (f = none → c ≠ '.')) :
    fraction (pointed f ++ r) = (pointed f,r) := by
  cases f with
  | none =>
    cases r with
    | nil => rfl
    | cons c r => simp [pointed,fraction,(hr c rfl).2 rfl]
  | some fs =>
    have h := digits_of_isDigit (r:=r) hf
    rw [digits_stop fun c hc => (hr c hc).1,List.append_nil] at h
    simp only [Option.getD_some] at h
    simp [pointed,fraction,h]

theorem exponent_stop (hr : ∀ c ∈ r.head?, c ≠ 'e' ∧ c ≠ 'E') : exponent r = ([],r) := by
  cases r with
  | nil => rfl
  | cons c r => simp [exponent,hr c rfl]

theorem sign_mem (cs : List Char) : (sign cs).1 ∈ signs := by
  cases cs with
  | nil => simp [sign,signs]
  | cons c cs => by_cases h : c = '+' ∨ c = '-' <;> simp [sign,signs,h]

theorem isDigit_of_mem_digits {cs : List Char} {c : Char} (h : c ∈ (digits cs).1) : c.isDigit :=
  List.mem_takeWhile_imp h

theorem exists_fraction (cs : List Char) :
    ∃ f : Option (List Char), (fraction cs).1 = pointed f ∧ ∀ c ∈ f.getD [], c.isDigit := by
  unfold fraction
  split
  · rename_i cs
    exact ⟨some (digits cs).1,rfl,fun c hc => isDigit_of_mem_digits hc⟩
  · exact ⟨none,rfl,by simp⟩

theorem exists_exponent (cs : List Char) :
    ∃ x : Option Exponent, (exponent cs).1 = x.elim [] Exponent.text := by
  cases cs with
  | nil => exact ⟨none,rfl⟩
  | cons e cs =>
    simp only [exponent]
    split_ifs with h
    · refine ⟨some ⟨e,(sign cs).1,(digits (sign cs).2).1,by simpa using h.1,sign_mem cs,h.2,
        fun c hc => isDigit_of_mem_digits hc⟩,rfl⟩
    · exact ⟨none,rfl⟩

theorem isLiteral_of_scan {cs t r : List Char} (h : scan cs = some (t,r)) : IsLiteral t := by
  simp only [scan,mantissa,Option.map_eq_some_iff] at h
  obtain ⟨m,hm,he⟩ := h
  split_ifs at hm with hd
  cases hm
  cases he
  obtain ⟨f,hf,hfd⟩ := exists_fraction (digits (sign cs).2).2
  obtain ⟨x,hx⟩ := exists_exponent (fraction (digits (sign cs).2).2).2
  refine ⟨⟨(sign cs).1,(digits (sign cs).2).1,f,x,sign_mem cs,
    fun c hc => isDigit_of_mem_digits hc,hfd,?_⟩,?_⟩
  · by_contra hn
    obtain ⟨hw,hg⟩ := not_or.mp hn
    refine hd ⟨not_ne_iff.mp hw,?_⟩
    rw [hf]
    cases f <;> simp_all [pointed]
  · simp only [Parts.text,hf,hx]

end Stages

section Munch

variable (p : Parts) {r : List Char}

theorem some_char : ¬(p.whole = [] ∧ (pointed p.fraction).length ≤ 1) := by
  rintro ⟨hw,hl⟩
  refine p.some_digit.elim (fun h => h hw) fun h => h ?_
  cases hf : p.fraction with
  | none => rfl
  | some fs => simpa [hf,pointed] using hl

theorem digits_parts (hr : ∀ c ∈ r.head?, ¬c.isDigit) :
    digits ((p.whole ++ pointed p.fraction) ++ r) = (p.whole,pointed p.fraction ++ r) := by
  have hs : ∀ c ∈ (pointed p.fraction ++ r).head?, ¬c.isDigit := by
    cases p.fraction with
    | none => exact hr
    | some fs => simp [pointed]
  rw [List.append_assoc,digits_of_isDigit p.whole_isDigit,digits_stop hs,List.append_nil]

theorem mantissa_parts (hr : ∀ c ∈ r.head?, ¬c.isDigit ∧ (p.fraction = none → c ≠ '.')) :
    mantissa ((p.whole ++ pointed p.fraction) ++ r) = some (p.whole ++ pointed p.fraction,r) := by
  have hw := digits_parts p fun c hc => (hr c hc).1
  have hf := fraction_pointed p.fraction_isDigit hr
  simp only [mantissa,hw,hf,if_neg (some_char p)]

theorem exists_mantissa (r : List Char) :
    ∃ m, mantissa ((p.whole ++ pointed p.fraction) ++ r) = some m ∧
      (p.whole ++ pointed p.fraction).length ≤ m.1.length := by
  have hd := some_char p
  cases hf : p.fraction with
  | none =>
    have hw : p.whole ≠ [] := fun h => hd ⟨h,by simp [hf,pointed]⟩
    have hr := digits_of_isDigit (r:=r) p.whole_isDigit
    simp only [pointed,List.append_nil,mantissa,hr]
    rw [if_neg fun h => hw (List.append_eq_nil_iff.mp h.1).1]
    refine ⟨_,rfl,?_⟩
    simp only [List.length_append]
    omega
  | some fs =>
    have hw : digits ((p.whole ++ '.'::fs) ++ r) = (p.whole,'.'::(fs ++ r)) := by
      rw [List.append_assoc,digits_of_isDigit p.whole_isDigit,digits_stop (by simp)]
      simp
    have hg := p.fraction_isDigit
    rw [hf,Option.getD_some] at hg
    have hr := digits_of_isDigit (r:=r) hg
    rw [hf] at hd
    simp only [pointed,mantissa,hw,fraction,hr]
    rw [if_neg]
    · refine ⟨_,rfl,?_⟩
      simp only [List.length_append,List.length_cons]
      omega
    · rintro ⟨h,hl⟩
      refine hd ⟨h,hl.trans' ?_⟩
      simp [pointed]

theorem unsigned_of_isDigit {c : Char} (h : c.isDigit) : c ≠ '+' ∧ c ≠ '-' := by
  constructor <;> (rintro rfl; cases h)

theorem head_unsigned (r : List Char) :
    ∀ c ∈ ((p.whole ++ pointed p.fraction) ++ r).head?, c ≠ '+' ∧ c ≠ '-' := by
  have hd := some_char p
  intro c hc
  cases hw : p.whole with
  | cons d ds =>
    rw [hw] at hc
    cases hc
    exact unsigned_of_isDigit (p.whole_isDigit c (by simp [hw]))
  | nil =>
    cases hf : p.fraction with
    | none => exact absurd ⟨hw,by simp [hf,pointed]⟩ hd
    | some fs =>
      rw [hw,hf] at hc
      cases hc
      decide

theorem head_exponent (x : Exponent) (r : List Char) :
    ∀ c ∈ (x.text ++ r).head?, ¬c.isDigit ∧ c ≠ '.' := by
  intro c hc
  cases hc
  have hl := x.letter_mem
  simp only [List.mem_cons,List.not_mem_nil,or_false] at hl
  rcases hl with hl | hl <;> rw [hl] <;> decide

theorem sign_exponent (x : Exponent) (r : List Char) :
    sign (x.sign ++ (x.digits ++ r)) = (x.sign,x.digits ++ r) := by
  refine sign_of_mem x.sign_mem fun c hc => ?_
  cases hx : x.digits with
  | nil => exact absurd hx x.digits_ne_nil
  | cons d ds =>
    rw [hx] at hc
    cases hc
    exact unsigned_of_isDigit (x.isDigit c (by simp [hx]))

theorem exponent_text (x : Exponent) (r : List Char) :
    exponent (x.text ++ r) = (x.text ++ (digits r).1,(digits r).2) := by
  have hs := sign_exponent x r
  have hd := digits_of_isDigit (r:=r) x.isDigit
  have hl : x.letter = 'e' ∨ x.letter = 'E' := by simpa using x.letter_mem
  have hn : x.digits ++ (digits r).1 ≠ [] := by simp [x.digits_ne_nil]
  simp only [Exponent.text,List.cons_append,List.append_assoc,exponent,hs,hd]
  rw [if_pos ⟨hl,hn⟩]

theorem sign_parts (r : List Char) : sign (p.sign ++ ((p.whole ++ pointed p.fraction) ++ r)) =
    (p.sign,(p.whole ++ pointed p.fraction) ++ r) :=
  sign_of_mem p.sign_mem (head_unsigned p r)

theorem scan_of_none (hx : p.exponent = none) (r : List Char) :
    scan (p.text ++ r) = (mantissa ((p.whole ++ pointed p.fraction) ++ r)).map fun m =>
      (p.sign ++ (m.1 ++ (exponent m.2).1),(exponent m.2).2) := by
  have ht : p.text = p.sign ++ (p.whole ++ pointed p.fraction) := by simp [Parts.text,hx]
  rw [ht,List.append_assoc]
  simp only [scan,sign_parts]

theorem scan_of_some {x : Exponent} (hx : p.exponent = some x) (r : List Char) :
    scan (p.text ++ r) = some (p.text ++ (digits r).1,(digits r).2) := by
  have hm := mantissa_parts p fun c hc => (head_exponent x r c hc).imp_right fun h _ => h
  have ht : p.text = p.sign ++ ((p.whole ++ pointed p.fraction) ++ x.text) := by
    simp [Parts.text,hx]
  rw [ht,List.append_assoc,List.append_assoc (p.whole ++ pointed p.fraction)]
  simp only [scan,sign_parts,hm,Option.map_some,exponent_text]
  simp only [List.append_assoc]

/-- No literal at the front of a text is longer than the one scanned. -/
theorem exists_scan (r : List Char) :
    ∃ t q, scan (p.text ++ r) = some (t,q) ∧ p.text.length ≤ t.length := by
  cases hx : p.exponent with
  | none =>
    obtain ⟨m,hm,hl⟩ := exists_mantissa p r
    rw [scan_of_none p hx,hm]
    refine ⟨_,_,rfl,?_⟩
    simp only [Parts.text,hx,Option.elim_none,List.length_append] at hl ⊢
    simp only [List.length_nil]
    omega
  | some x =>
    refine ⟨_,_,scan_of_some p hx r,?_⟩
    rw [List.length_append]
    omega

theorem notMem_text (hf : p.fraction = none) (hx : p.exponent = none) {d : Char}
    (hd : d = '.' ∨ d = 'e' ∨ d = 'E') : d ∉ p.text := by
  have hs := p.sign_mem
  simp only [signs,List.mem_cons,List.not_mem_nil,or_false] at hs
  simp only [Parts.text,hf,hx,pointed,Option.elim_none,List.append_nil,List.mem_append]
  rintro (hm | hm)
  · rcases hs with hs | hs | hs <;> rw [hs] at hm <;> rcases hd with rfl | rfl | rfl <;> simp at hm
  · have hm := p.whole_isDigit d hm
    rcases hd with rfl | rfl | rfl <;> cases hm

end Munch

/-- Whether a literal ends where `r` follows, as the first character there cannot go on it. -/
def EndsBefore (t r : List Char) : Prop :=
  ∀ c ∈ r.head?, ¬c.isDigit ∧ (c = '.' → '.' ∈ t ∨ 'e' ∈ t ∨ 'E' ∈ t) ∧ c ≠ 'e' ∧ c ≠ 'E'

/-- A literal that ends where the text goes on is the one scanned. -/
theorem scan_literal {t r : List Char} (ht : IsLiteral t) (hr : EndsBefore t r) :
    scan (t ++ r) = some (t,r) := by
  obtain ⟨p,rfl⟩ := ht
  cases hx : p.exponent with
  | none =>
    have hp : ∀ c ∈ r.head?, ¬c.isDigit ∧ (p.fraction = none → c ≠ '.') := by
      intro c hc
      refine ⟨(hr c hc).1,fun hf he => ?_⟩
      rcases (hr c hc).2.1 he with hm | hm | hm <;> exact notMem_text p hf hx (by simp) hm
    rw [scan_of_none p hx,mantissa_parts p hp,Option.map_some,
      exponent_stop fun c hc => (hr c hc).2.2]
    simp [Parts.text,hx]
  | some x =>
    rw [scan_of_some p hx,digits_stop fun c hc => (hr c hc).1,List.append_nil]

theorem ne_nil_of_isLiteral {t : List Char} (h : IsLiteral t) : t ≠ [] := by
  obtain ⟨p,rfl⟩ := h
  intro ht
  simp only [Parts.text,List.append_eq_nil_iff] at ht
  exact some_char p ⟨ht.2.1.1,by simp [ht.2.1.2]⟩

theorem isDigit_of_mem_pointed {f : Option (List Char)} (hf : ∀ c ∈ f.getD [], c.isDigit) :
    ∀ c ∈ pointed f, c.isDigit ∨ c = '.' := by
  cases f with
  | none => simp [pointed]
  | some fs => exact List.forall_mem_cons.mpr ⟨.inr rfl,fun c hc => .inl (hf c hc)⟩

theorem isDigit_getLast? {t : List Char} (h : IsLiteral t) :
    ∀ c ∈ t.getLast?, c.isDigit ∨ c = '.' := by
  obtain ⟨p,rfl⟩ := h
  -- The part that it ends with.
  obtain ⟨us,vs,ht,hn,hv⟩ : ∃ us vs, p.text = us ++ vs ∧ vs ≠ [] ∧
      ∀ c ∈ vs, c.isDigit ∨ c = '.' := by
    cases hx : p.exponent with
    | some x =>
      refine ⟨p.sign ++ ((p.whole ++ pointed p.fraction) ++ x.letter::x.sign),x.digits,?_,
        x.digits_ne_nil,fun c hc => .inl (x.isDigit c hc)⟩
      simp [Parts.text,hx,Exponent.text]
    | none =>
      refine ⟨p.sign,p.whole ++ pointed p.fraction,by simp [Parts.text,hx],?_,?_⟩
      · intro he
        obtain ⟨hw,hf⟩ := List.append_eq_nil_iff.mp he
        exact some_char p ⟨hw,by simp [hf]⟩
      · exact List.forall_mem_append.mpr ⟨fun c hc => .inl (p.whole_isDigit c hc),
          isDigit_of_mem_pointed p.fraction_isDigit⟩
  intro c hc
  rw [ht,List.getLast?_append_of_ne_nil _ hn] at hc
  exact hv c (List.mem_of_getLast? hc)

theorem scan_append_tail {t r : List Char} (ht : IsLiteral t)
    (hr : ∀ c ∈ r, ¬c.isDigit ∧ c ≠ '.') : scan (t ++ r) = some (t,r) := by
  obtain ⟨p,rfl⟩ := ht
  obtain ⟨u,q,hs,hl⟩ := exists_scan p r
  have hu := scan_append hs
  obtain ⟨v,rfl⟩ := List.prefix_of_prefix_length_le (List.prefix_append p.text r) ⟨q,hu⟩ hl
  rw [List.append_assoc] at hu
  obtain rfl := List.append_cancel_left hu
  cases v using List.reverseRecOn with
  | nil => simpa using hs
  | append_singleton v c =>
    have hc := isDigit_getLast? (isLiteral_of_scan hs) c (by simp)
    have hn := hr c (by simp)
    exact absurd hc (not_or.mpr hn)

/-- `t` is the longest literal at the front of `cs`. -/
structure IsLongest (t cs : List Char) : Prop where
  isLiteral : IsLiteral t
  isPrefix : t <+: cs
  longest : ∀ u, IsLiteral u → u <+: cs → u.length ≤ t.length

theorem isLongest_of_scan {cs t r : List Char} (h : scan cs = some (t,r)) : IsLongest t cs where
  isLiteral := isLiteral_of_scan h
  isPrefix := ⟨r,scan_append h⟩
  longest := by
    rintro _ ⟨p,rfl⟩ ⟨q,rfl⟩
    obtain ⟨t',r',h',hl⟩ := exists_scan p q
    rw [h] at h'
    cases h'
    exact hl

theorem not_isPrefix_of_scan {cs t : List Char} (h : scan cs = none) (ht : IsLiteral t) :
    ¬t <+: cs := by
  rintro ⟨q,rfl⟩
  obtain ⟨p,rfl⟩ := ht
  obtain ⟨t',r',h',-⟩ := exists_scan p q
  rw [h] at h'
  cases h'

section Value

def spelled (ds : List Char) : ℕ := Nat.ofDigits 10 (ds.reverse.map decimalDigit)

def Exponent.power (x : Exponent) : ℤ := if x.sign = ['-'] then -spelled x.digits else spelled x.digits

/-- The decimal that the parts of a literal spell, its sign aside. -/
def Parts.magnitude (p : Parts) : ℚ :=
  (spelled p.whole+spelled (p.fraction.getD [])/10^(p.fraction.getD []).length)*
    10^(p.exponent.elim 0 Exponent.power)

theorem natural_eq_spelled (ds : List Char) : natural 10 decimalDigit ds = spelled ds := by
  induction ds using List.reverseRecOn with
  | nil => rfl
  | append_singleton ds d ih =>
    have hs : spelled (ds ++ [d]) = decimalDigit d+10*spelled ds := by
      simp [spelled,Nat.ofDigits_cons]
    rw [hs,← ih,natural,List.foldl_append]
    exact Nat.add_comm _ _

theorem spelled_append (ds fs : List Char) :
    spelled (ds ++ fs) = spelled ds*10^fs.length+spelled fs := by
  simp only [spelled,List.reverse_append,List.map_append,Nat.ofDigits_append,List.length_map,
    List.length_reverse]
  ring

theorem spelled_lt {ds : List Char} (hd : ∀ c ∈ ds, c.isDigit) : spelled ds < 10^ds.length := by
  have h := Nat.ofDigits_lt_base_pow_length (b := 10) (l := ds.reverse.map decimalDigit) (by decide)
  simp only [List.length_map,List.length_reverse] at h
  refine h fun x hx => ?_
  obtain ⟨c,hc,rfl⟩ := List.mem_map.mp hx
  have hd := hd c (List.mem_reverse.mp hc)
  simp only [Char.isDigit,Bool.and_eq_true,decide_eq_true_eq,UInt32.le_iff_toNat_le] at hd
  have hc : c.toNat ≤ 57 := hd.2
  change c.toNat-48 < 10
  omega

variable (p : Parts)

open Binary64

theorem magnitude_eq : p.magnitude = spelled (p.whole ++ p.fraction.getD [])*
    10^(p.exponent.elim 0 Exponent.power-(p.fraction.getD []).length) := by
  rw [Parts.magnitude,spelled_append,zpow_sub₀ (by norm_num),zpow_natCast]
  push_cast
  field_simp

theorem pointed_drop (f : Option (List Char)) : (pointed f).drop 1 = f.getD [] := by
  cases f <;> rfl

/-- The power of ten that `value` reads off the rest of a literal. -/
def powerOf : List Char → ℤ
  | [] => 0
  | _::cs =>
    if (sign cs).1 = ['-'] then -(natural 10 decimalDigit (digits (sign cs).2).1 : ℤ)
    else natural 10 decimalDigit (digits (sign cs).2).1

theorem value_eq (text : List Char) : value text =
    let s := sign text
    let w := digits s.2
    let f := fraction w.2
    let ds := w.1 ++ f.1.drop 1
    let x := ofDecimal ds.length (natural 10 decimalDigit ds) (powerOf f.2-(f.1.drop 1).length)
    if s.1 = ['-'] then -x else x := by
  unfold value powerOf
  rfl

theorem powerOf_exponent : powerOf (p.exponent.elim [] Exponent.text) =
    p.exponent.elim 0 Exponent.power := by
  cases p.exponent with
  | none => rfl
  | some x =>
    have hs := sign_exponent x []
    have hd := digits_of_isDigit (r:=[]) x.isDigit
    rw [List.append_nil] at hs hd
    simp only [Option.elim_some,Exponent.text,powerOf,hs,hd,natural_eq_spelled,Exponent.power]
    simp [digits]

theorem value_text : (value p.text).toModel.unpack =
    onGrid (if p.sign = ['-'] then .negative else .positive) (nearest p.magnitude) := by
  have he : ∀ c ∈ (p.exponent.elim [] Exponent.text).head?, ¬c.isDigit ∧ c ≠ '.' := by
    cases p.exponent with
    | none => simp
    | some x => simpa using head_exponent x []
  have hs : sign p.text =
      (p.sign,(p.whole ++ pointed p.fraction) ++ p.exponent.elim [] Exponent.text) :=
    sign_of_mem p.sign_mem (head_unsigned p _)
  have hw := digits_parts p fun c hc => (he c hc).1
  have hf := fraction_pointed p.fraction_isDigit fun c hc => (he c hc).imp_right fun h _ => h
  have hd : ∀ c ∈ p.whole ++ p.fraction.getD [], c.isDigit :=
    List.forall_mem_append.mpr ⟨p.whole_isDigit,p.fraction_isDigit⟩
  have hx := ofDecimal_unpack (spelled_lt hd)
    (p.exponent.elim 0 Exponent.power-(p.fraction.getD []).length)
  rw [← magnitude_eq] at hx
  simp only [value_eq,hs,hw,hf,pointed_drop,natural_eq_spelled,powerOf_exponent]
  split_ifs
  · rw [unpack_neg,hx,neg_onGrid]
  · exact hx

/-- Whether a double is the nearest one to the decimal that a literal spells, with its sign. -/
def Denotes (t : List Char) (x : Float) : Prop :=
  ∃ p : Parts, p.text = t ∧ x.toModel.unpack =
    onGrid (if p.sign = ['-'] then .negative else .positive) (nearest p.magnitude)

/-- The value of a literal is the double nearest to the decimal that it spells. -/
theorem denotes_value {t : List Char} (h : IsLiteral t) : Denotes t (value t) := by
  obtain ⟨p,rfl⟩ := h
  exact ⟨p,rfl,value_text p⟩

end Value

end Literal
end ExtrusionProfile
