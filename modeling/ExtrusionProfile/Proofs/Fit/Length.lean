import ExtrusionProfile.Fit.Outline
import ExtrusionProfile.Proofs.Path.Spelling

/-! Which texts are lengths. A length is a number literal, blanks and a unit, and no text is one in
two ways: a unit can begin like an exponent, but no literal ends with a letter. Without a unit it
is what path data would read as one number. -/
namespace ExtrusionProfile
namespace Length

open Text Literal
open ExtrusionProfile.Path

/-- A number, blanks and a unit. -/
@[ext]
structure Parts where
  number : List Char
  gap : List Char
  unit : List Char
  isLiteral : IsLiteral number
  gap_isBlank : ∀ c ∈ gap, isBlank c
  unit_isUnitChar : ∀ c ∈ unit, isUnitChar c

namespace Parts

def text (p : Parts) : List Char := p.number ++ (p.gap ++ p.unit)

def toLength (p : Parts) : Length := ⟨Literal.value p.number,p.unit.map Char.toLower⟩

end Parts

theorem toNat_of_isUnitChar {c : Char} (h : isUnitChar c) :
    c.toNat = 37 ∨ 65 ≤ c.toNat ∧ c.toNat ≤ 122 := by
  simp only [isUnitChar,Char.isAlpha,Char.isUpper,Char.isLower,Bool.or_eq_true,Bool.and_eq_true,
    decide_eq_true_eq,ge_iff_le,UInt32.le_iff_toNat_le] at h
  rcases h with (⟨hl,hu⟩ | ⟨hl,hu⟩) | rfl
  · exact .inr ⟨hl,hu.trans (by decide)⟩
  · exact .inr ⟨hl.trans' (by decide),hu⟩
  · exact .inl rfl

theorem tail_of_isUnitChar {c : Char} (h : isUnitChar c) : ¬c.isDigit ∧ c ≠ '.' := by
  have hc := toNat_of_isUnitChar h
  constructor
  · intro hd
    simp only [Char.isDigit,Bool.and_eq_true,decide_eq_true_eq,UInt32.le_iff_toNat_le] at hd
    have hl : 48 ≤ c.toNat ∧ c.toNat ≤ 57 := hd
    omega
  · rintro rfl
    have hp : '.'.toNat = 46 := rfl
    omega

theorem not_isBlank_of_isUnitChar {c : Char} (h : isUnitChar c) : ¬isBlank c := by
  have hc := toNat_of_isUnitChar h
  have hw : ∀ n ∈ wideBlanks, 160 ≤ n := by decide
  simp only [isBlank,Bool.or_eq_true,Bool.and_eq_true,decide_eq_true_eq,List.contains_iff_mem]
  rintro ((rfl | hl) | hm)
  · have hs : ' '.toNat = 32 := rfl
    omega
  · omega
  · have := hw _ hm
    omega

theorem tail_of_isBlank {c : Char} (h : isBlank c) : ¬c.isDigit ∧ c ≠ '.' := by
  obtain ⟨hd,_,_,hp,_⟩ := isBreak_iff.mp (isBreak_of_isSeparator (isSeparator_of_isBlank h))
  exact ⟨Bool.eq_false_iff.mp hd,hp⟩

namespace Parts

variable (p : Parts)

/-- The number is the longest literal, although an exponent and a unit can begin alike. -/
theorem scan_text : scan p.text = some (p.number,p.gap ++ p.unit) :=
  scan_append_tail p.isLiteral (List.forall_mem_append.mpr
    ⟨fun c hc => tail_of_isBlank (p.gap_isBlank c hc),
      fun c hc => tail_of_isUnitChar (p.unit_isUnitChar c hc)⟩)

theorem trimLeft_gap : trimLeft (p.gap ++ p.unit) = p.unit := by
  rw [trimLeft,List.dropWhile_append_of_pos p.gap_isBlank]
  cases hu : p.unit with
  | nil => rfl
  | cons c u =>
    have hc := p.unit_isUnitChar c (by simp [hu])
    simp [not_isBlank_of_isUnitChar hc]

theorem ext_text {p q : Parts} (h : p.text = q.text) : p = q := by
  have hs := p.scan_text
  rw [h,q.scan_text] at hs
  obtain ⟨hn,hr⟩ := Prod.mk.inj (Option.some.inj hs)
  have hu := congrArg trimLeft hr
  rw [p.trimLeft_gap,q.trimLeft_gap] at hu
  rw [hu] at hr
  exact Parts.ext hn.symm (List.append_cancel_right hr).symm hu.symm

end Parts

theorem ofText?_eq_some_iff {s : List Char} {l : Length} :
    ofText? s = some l ↔ ∃ p : Parts, p.text = trim s ∧ p.toLength = l := by
  constructor
  · intro h
    rw [ofText?] at h
    split at h
    · rename_i t r hs
      rw [Option.ite_none_right_eq_some,Option.some_inj] at h
      obtain ⟨hu,rfl⟩ := h
      refine ⟨⟨t,r.takeWhile isBlank,trimLeft r,isLiteral_of_scan hs,
        fun c hc => List.mem_takeWhile_imp hc,List.all_eq_true.mp hu⟩,?_,rfl⟩
      show t ++ (r.takeWhile isBlank ++ r.dropWhile isBlank) = trim s
      rw [List.takeWhile_append_dropWhile,scan_append hs]
    · cases h
  · rintro ⟨p,ht,rfl⟩
    rw [ofText?,← ht,p.scan_text]
    simp only [p.trimLeft_gap]
    exact if_pos (List.all_eq_true.mpr p.unit_isUnitChar)

theorem trim_of_not_isBlank {s : List Char} (h : ∀ c ∈ s, ¬isBlank c) : trim s = s := by
  have hd : ∀ t : List Char, (∀ c ∈ t, ¬isBlank c) → t.dropWhile isBlank = t := by
    intro t ht
    cases t with
    | nil => rfl
    | cons c t => exact List.dropWhile_cons_of_neg (ht c List.mem_cons_self)
  rw [trim,trimLeft,trimRight,hd s h,hd s.reverse (by simpa using h),List.reverse_reverse]

theorem ofText?_eq_bare_iff {s : List Char} (h : ∀ c ∈ s, ¬isBlank c) {x : Float} :
    ofText? s = some ⟨x,[]⟩ ↔ IsLiteral s ∧ Literal.value s = x := by
  rw [ofText?_eq_some_iff,trim_of_not_isBlank h]
  constructor
  · rintro ⟨p,rfl,hl⟩
    obtain ⟨hx,hu⟩ := Length.mk.inj hl
    have hg : p.gap = [] := by
      refine List.eq_nil_iff_forall_not_mem.mpr fun c hc => ?_
      exact h c (by simp [Parts.text,hc]) (p.gap_isBlank c hc)
    have ht : p.text = p.number := by
      rw [Parts.text,hg,List.map_eq_nil_iff.mp hu,List.append_nil,List.append_nil]
    rw [ht]
    exact ⟨p.isLiteral,hx⟩
  · rintro ⟨hs,rfl⟩
    exact ⟨⟨s,[],[],hs,by simp,by simp⟩,List.append_nil s,rfl⟩

theorem tokens_eq_single_iff {s : List Char} {x : Float} :
    tokens s = [.number ⟨s,x,0⟩] ↔ IsLiteral s ∧ Literal.value s = x := by
  have ht : IsLiteral s → tokens s = [.number ⟨s,Literal.value s,0⟩] := by
    intro hs
    have h := tokensFrom_literal (o:=0) hs (r:=[]) (by simp [Literal.EndsBefore])
    rwa [List.append_nil,tokensFrom] at h
  constructor
  · intro h
    have hm : .number ⟨s,x,0⟩ ∈ tokens s := h ▸ List.mem_singleton_self _
    have hs : IsLiteral s := isProper_of_mem_tokens hm
    rw [ht hs] at h
    exact ⟨hs,by simpa using h⟩
  · rintro ⟨hs,rfl⟩
    exact ht hs

/-- A text is a length when it is a literal, blanks and a unit, blanks around it aside. Its value is
the double nearest to the literal's decimal, and no other literal and unit make the same text. A text
without blanks is a length without a unit when path data would hold one number in it and nothing
else, and then they have the same value. -/
theorem ofText?_parts (s : List Char) :
    (∀ l, ofText? s = some l ↔
      ∃ p : Parts, p.text = trim s ∧ p.toLength = l ∧ Denotes p.number l.value) ∧
      (∀ p q : Parts, p.text = trim s → q.text = trim s → p = q) ∧
      ((∀ c ∈ s, ¬isBlank c) → ∀ x,
        ofText? s = some ⟨x,[]⟩ ↔ tokens s = [.number ⟨s,x,0⟩]) := by
  refine ⟨fun l => ?_,fun p q hp hq => Parts.ext_text (hp.trans hq.symm),fun h x => ?_⟩
  · rw [ofText?_eq_some_iff]
    constructor
    · rintro ⟨p,ht,rfl⟩
      exact ⟨p,ht,rfl,denotes_value p.isLiteral⟩
    · rintro ⟨p,ht,hl,-⟩
      exact ⟨p,ht,hl⟩
  · rw [ofText?_eq_bare_iff h,tokens_eq_single_iff]

deriving instance DecidableEq for Length

/-- A number with an exponent, and a unit that could begin another one. -/
def exponentThenUnit : Parts where
  number := "1e5".toList
  gap := []
  unit := "Em".toList
  isLiteral := isLiteral_of_scan (by decide +kernel : scan "1e5".toList = some ("1e5".toList,[]))
  gap_isBlank := by simp
  unit_isUnitChar := List.all_eq_true.mp (by decide +kernel : "Em".toList.all isUnitChar)

theorem ofText?_parts_exponentThenUnit :
    (∃ p : Parts, p.text = trim " 1e5Em\n".toList ∧
      p.toLength = ⟨100000,"em".toList⟩ ∧ p = exponentThenUnit) ∧
      tokens "1e5".toList = [.number ⟨"1e5".toList,100000,0⟩] := by
  have hu : ofText? " 1e5Em\n".toList = some ⟨100000,"em".toList⟩ := by decide +kernel
  have hb : ofText? "1e5".toList = some ⟨100000,[]⟩ := by decide +kernel
  have ht : exponentThenUnit.text = trim " 1e5Em\n".toList := by decide +kernel
  obtain ⟨p,hp,hl,-⟩ := ((ofText?_parts _).1 _).mp hu
  refine ⟨⟨p,hp,hl,(ofText?_parts _).2.1 p exponentThenUnit hp ht⟩,?_⟩
  exact ((ofText?_parts _).2.2 (by simp; decide) _).mp hb

end Length
end ExtrusionProfile
