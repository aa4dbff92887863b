import ExtrusionProfile.Path.Token
import Mathlib.Data.List.TakeWhile

/-! Tokens of a text in two parts. No literal goes over a character that occurs in none, so
the tokens of the parts are the tokens of the whole, those of the second part further on. -/
namespace ExtrusionProfile

namespace Literal

/-- Whether a character occurs in no literal. -/
def isBreak (c : Char) : Bool := !(c.isDigit || ['+','-','.','e','E'].contains c)

/-- A scanner stops at `x` when it does the same on a text that goes on behind `x`. -/
def StopsAt (x : Char) (f : List Char → List Char × List Char) : Prop :=
  ∀ cs es, f (cs ++ x::es) = ((f cs).1,(f cs).2 ++ x::es)

variable {x : Char}

theorem isBreak_iff : isBreak x ↔
    x.isDigit = false ∧ x ≠ '+' ∧ x ≠ '-' ∧ x ≠ '.' ∧ x ≠ 'e' ∧ x ≠ 'E' := by
  simp [isBreak]

theorem sign_stopsAt (h : isBreak x) : StopsAt x sign := by
  obtain ⟨_,hp,hm,_⟩ := isBreak_iff.mp h
  intro cs es
  cases cs with
  | nil => simp [sign,hp,hm]
  | cons c cs => by_cases hc : c = '+' ∨ c = '-' <;> simp [sign,hc]

theorem digits_stopsAt (h : isBreak x) : StopsAt x digits := by
  intro cs es
  induction cs with
  | nil => simp [digits,(isBreak_iff.mp h).1]
  | cons c cs ih =>
    simp only [digits,Prod.mk.injEq] at ih ⊢
    cases hc : c.isDigit
    · simp [hc]
    · simp [hc,ih]

theorem fraction_stopsAt (h : isBreak x) : StopsAt x fraction := by
  obtain ⟨_,_,_,hp,_⟩ := isBreak_iff.mp h
  intro cs es
  cases cs with
  | nil => simp [fraction,hp]
  | cons c cs =>
    by_cases hc : c = '.'
    · subst hc
      simp [fraction,digits_stopsAt h cs es]
    · simp [fraction,hc]

theorem exponent_stopsAt (h : isBreak x) : StopsAt x exponent := by
  obtain ⟨_,_,_,_,he,hE⟩ := isBreak_iff.mp h
  intro cs es
  cases cs with
  | nil => simp [exponent,he,hE]
  | cons c cs =>
    simp only [exponent,List.cons_append,sign_stopsAt h cs es,digits_stopsAt h _ es]
    split <;> rfl

theorem mantissa_append_break (h : isBreak x) (cs es : List Char) :
    mantissa (cs ++ x::es) = (mantissa cs).map fun m => (m.1,m.2 ++ x::es) := by
  simp only [mantissa,digits_stopsAt h cs es,fraction_stopsAt h _ es]
  split <;> rfl

theorem scan_append_break (h : isBreak x) (cs es : List Char) :
    scan (cs ++ x::es) = (scan cs).map fun l => (l.1,l.2 ++ x::es) := by
  simp only [scan,sign_stopsAt h cs es,mantissa_append_break h,Option.map_map]
  congr 1
  funext m
  simp [exponent_stopsAt h _ es]

theorem scan_break (h : isBreak x) (es : List Char) : scan (x::es) = none := by
  simpa [scan,sign,mantissa,digits,fraction] using scan_append_break h [] es

end Literal

namespace Path

open Text

/-- A numeral, further on by so many code units. -/
def Numeral.shift (n : ℕ) (m : Numeral) : Numeral := { m with offset := m.offset+n }

def Token.shift (n : ℕ) : Token → Token
  | .command c o => .command c (o+n)
  | .number m => .number (m.shift n)

variable {c : Char} {cs : List Char} {o : ℕ}

theorem tokensFrom_command {k : Command} (h : Command.ofLetter? c = some k) :
    tokensFrom o (c::cs) = .command k o::tokensFrom (o+unitsOf c) cs := by
  rw [tokensFrom,h]

theorem tokensFrom_number {t r : List Char} (h : Command.ofLetter? c = none)
    (hs : Literal.scan (c::cs) = some (t,r)) :
    tokensFrom o (c::cs) = .number ⟨t,Literal.value t,o⟩::tokensFrom (o+units t) r := by
  rw [tokensFrom,h]
  dsimp only
  split
  · rename_i ht
    rw [hs] at ht
    cases ht
    rfl
  · rename_i ht
    rw [hs] at ht
    cases ht

theorem tokensFrom_other (h : Command.ofLetter? c = none) (hs : Literal.scan (c::cs) = none) :
    tokensFrom o (c::cs) = tokensFrom (o+unitsOf c) cs := by
  rw [tokensFrom,h]
  dsimp only
  split
  · rename_i ht
    rw [hs] at ht
    cases ht
  · rfl

theorem tokensFrom_add (o n : ℕ) (cs : List Char) :
    tokensFrom (o+n) cs = (tokensFrom o cs).map (Token.shift n) := by
  fun_induction tokensFrom o cs with
  | case1 o => simp [tokensFrom]
  | case2 o c cs k hk ih =>
    rw [tokensFrom_command hk,Nat.add_right_comm,ih]
    rfl
  | case3 o c cs hk t r hs _ ih =>
    rw [tokensFrom_number hk hs,Nat.add_right_comm,ih]
    rfl
  | case4 o c cs hk hs ih => rw [tokensFrom_other hk hs,Nat.add_right_comm,ih]

/-- No token goes over a character that occurs in no literal. -/
theorem tokensFrom_append_break {x : Char} (hx : Literal.isBreak x) (o : ℕ) (cs es : List Char) :
    tokensFrom o (cs ++ x::es) = tokensFrom o cs ++ tokensFrom (o+units cs) (x::es) := by
  fun_induction tokensFrom o cs with
  | case1 o => simp
  | case2 o c cs k hk ih =>
    rw [List.cons_append,tokensFrom_command hk,ih,units_cons,Nat.add_assoc]
    rfl
  | case3 o c cs hk t r hs _ ih =>
    have ha := Literal.scan_append_break hx (c::cs) es
    rw [hs,Option.map_some,List.cons_append] at ha
    rw [List.cons_append,tokensFrom_number hk ha,ih,← Literal.scan_append hs,units_append,
      Nat.add_assoc]
    rfl
  | case4 o c cs hk hs ih =>
    have ha := Literal.scan_append_break hx (c::cs) es
    rw [hs,Option.map_none,List.cons_append] at ha
    rw [List.cons_append,tokensFrom_other hk ha,ih,units_cons,Nat.add_assoc]

theorem tokensFrom_blank (o : ℕ) (es : List Char) :
    tokensFrom o (' '::es) = tokensFrom (o+1) es :=
  tokensFrom_other rfl (Literal.scan_break rfl es)

theorem tokens_append_blank (cs es : List Char) :
    tokens (cs ++ ' '::es) = tokens cs ++ (tokens es).map (Token.shift (units cs+1)) := by
  have h := tokensFrom_add 0 (units cs+1) es
  rw [Nat.zero_add] at h
  rw [tokens,tokensFrom_append_break rfl,tokensFrom_blank,Nat.zero_add,h]
  rfl

end Path
end ExtrusionProfile
