import ExtrusionProfile.Number.Literal
import ExtrusionProfile.Proofs.Number.Literal
import ExtrusionProfile.Proofs.Path.Tokens

/-! Numbers in front of a text. What is read there is the longest literal or an infinity: no text begins
with both, as no literal has the first letter of the other. -/
namespace ExtrusionProfile

namespace Literal

variable {t cs : List Char}

theorem isLiteral_iff : IsLiteral t ↔ scan t = some (t,[]) :=
  ⟨fun h => by simpa using scan_literal h (r:=[]) (by simp [EndsBefore]),isLiteral_of_scan⟩

instance (t : List Char) : Decidable (IsLiteral t) := decidable_of_iff _ isLiteral_iff.symm

theorem not_isBreak_of_mem (ht : IsLiteral t) : ∀ c ∈ t, ¬isBreak c := by
  intro c hc hb
  obtain ⟨us,vs,rfl⟩ := List.append_of_mem hc
  have hs := isLiteral_iff.mp ht
  rw [scan_append_break hb,Option.map_eq_some_iff] at hs
  obtain ⟨l,-,hl⟩ := hs
  have hr := (Prod.mk.inj hl).2
  simp at hr

theorem scan_of_isLongest (h : IsLongest t cs) : ∃ r, scan cs = some (t,r) := by
  cases hs : scan cs with
  | none => exact absurd h.isPrefix (not_isPrefix_of_scan hs h.isLiteral)
  | some l =>
    obtain ⟨u,r⟩ := l
    have hu := isLongest_of_scan hs
    have hl := Nat.le_antisymm (hu.longest t h.isLiteral h.isPrefix)
      (h.longest u hu.isLiteral hu.isPrefix)
    obtain rfl := (List.prefix_of_prefix_length_le h.isPrefix hu.isPrefix hl.le).eq_of_length hl
    exact ⟨r,rfl⟩

end Literal

namespace Numeral

open Text Literal

theorem dropStart?_eq_some_iff {ps cs r : List Char} :
    dropStart? ps cs = some r ↔ cs = ps ++ r := by
  induction ps generalizing cs with
  | nil => simp [dropStart?]
  | cons p ps ih =>
    cases cs with
    | nil => simp [dropStart?]
    | cons c cs =>
      simp only [dropStart?,List.cons_append,List.cons.injEq]
      split_ifs with h
      · rw [ih,and_iff_right h.symm]
      · simp [Ne.symm h]

/-- What a text begins with that is read as a number: a literal as long as can be, or an infinity with
or without a sign. -/
inductive Begins (cs : List Char) : Float → Prop
  | literal {t : List Char} : IsLongest t cs → Denotes t (value t) → Begins cs (value t)
  | infinity {s : List Char} : s ∈ signs → s ++ infinityName <+: cs →
      Begins cs (if s = ['-'] then -Literal.infinity else Literal.infinity)

theorem signedInfinity?_eq_some_iff {cs r : List Char} {x : Float} :
    signedInfinity? cs = some (x,r) ↔ ∃ s ∈ signs, cs = s ++ (infinityName ++ r) ∧
      x = if s = ['-'] then -Literal.infinity else Literal.infinity := by
  simp only [signedInfinity?,Option.map_eq_some_iff,dropStart?_eq_some_iff,Prod.mk.injEq]
  constructor
  · rintro ⟨_,hr,rfl,rfl⟩
    exact ⟨(sign cs).1,sign_mem cs,by rw [← hr,sign_append],rfl⟩
  · rintro ⟨s,hs,rfl,rfl⟩
    have hc : ∀ c ∈ (infinityName ++ r).head?, c ≠ '+' ∧ c ≠ '-' := by
      rintro c hc
      cases hc
      decide
    rw [sign_of_mem hs hc]
    exact ⟨r,rfl,rfl,rfl⟩

theorem scan_infinity {s : List Char} (hs : s ∈ signs) (r : List Char) :
    scan (s ++ (infinityName ++ r)) = none := by
  have hi : isBreak 'I' := by decide
  have hn : ∀ s ∈ signs, scan s = none := by decide
  have hI : infinityName = 'I'::"nfinity".toList := by decide
  rw [hI,List.cons_append,scan_append_break hi,hn s hs,Option.map_none]

theorem signedInfinity?_of_isPrefix {s cs : List Char} (hs : s ∈ signs)
    (h : s ++ infinityName <+: cs) : ∃ r, signedInfinity? cs =
      some (if s = ['-'] then -Literal.infinity else Literal.infinity,r) := by
  obtain ⟨r,rfl⟩ := h
  exact ⟨r,signedInfinity?_eq_some_iff.mpr ⟨s,hs,List.append_assoc _ _ _,rfl⟩⟩

/-- The number that a text begins with is read, if the text does not begin with a blank. -/
theorem leading?_eq_some_iff {cs : List Char} (hc : ∀ c ∈ cs.head?, ¬isBlank c) {x : Float} :
    leading? cs = some x ↔ Begins cs x := by
  have ht : trimLeft cs = cs := by
    cases cs with
    | nil => rfl
    | cons c cs => exact List.dropWhile_cons_of_neg (hc c rfl)
  simp only [leading?,ht]
  constructor
  · intro h
    cases hi : signedInfinity? cs with
    | some y =>
      obtain ⟨y,r⟩ := y
      rw [hi] at h
      obtain rfl : y = x := Option.some_inj.mp h
      obtain ⟨s,hs,rfl,rfl⟩ := signedInfinity?_eq_some_iff.mp hi
      exact .infinity hs ⟨r,List.append_assoc _ _ _⟩
    | none =>
      rw [hi] at h
      obtain ⟨⟨t,r⟩,hs,rfl⟩ := Option.map_eq_some_iff.mp h
      have hl := isLongest_of_scan hs
      exact .literal hl (denotes_value hl.isLiteral)
  · intro h
    cases h with
    | literal hl =>
      -- An infinity would be tried first, but none is in front of a literal.
      obtain ⟨q,hq⟩ := scan_of_isLongest hl
      cases hi : signedInfinity? cs with
      | some y =>
        obtain ⟨s,hs,rfl,-⟩ := signedInfinity?_eq_some_iff.mp hi
        rw [scan_infinity hs] at hq
        cases hq
      | none => simp only [hq,Option.map_some]
    | infinity hs hp =>
      obtain ⟨r,hr⟩ := signedInfinity?_of_isPrefix hs hp
      simp only [hr]

end Numeral

end ExtrusionProfile
