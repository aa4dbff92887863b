import ExtrusionProfile.Text

/-! Decimal number literals: an optional sign, digits with at most one point, an optional exponent.
`scan` cuts the longest literal off the front of a text, `findAll` finds all of a free text, and
`value` is the double nearest to the decimal that a literal denotes. In attributes, `leading?` reads
the number a text begins with and lets the rest be, and `whole?` reads a text that is a number from
end to end. -/
namespace ExtrusionProfile
namespace Literal

def sign : List Char → List Char × List Char
  | [] => ([],[])
  | c::cs => if c = '+' ∨ c = '-' then ([c],cs) else ([],c::cs)

def digits (cs : List Char) : List Char × List Char :=
  (cs.takeWhile Char.isDigit,cs.dropWhile Char.isDigit)

def fraction : List Char → List Char × List Char
  | '.'::cs => ('.'::(digits cs).1,(digits cs).2)
  | cs => ([],cs)

/-- Digits, a point and digits; one of the two runs of digits has to be there. -/
def mantissa (cs : List Char) : Option (List Char × List Char) :=
  let w := digits cs
  let f := fraction w.2
  if w.1 = [] ∧ f.1.length ≤ 1 then none else some (w.1 ++ f.1,f.2)

/-- An exponent with at least one digit; a lone letter is left alone. -/
def exponent : List Char → List Char × List Char
  | [] => ([],[])
  | e::cs =>
    let s := sign cs
    let d := digits s.2
    if (e = 'e' ∨ e = 'E') ∧ d.1 ≠ [] then (e::(s.1 ++ d.1),d.2) else ([],e::cs)

/-- The longest literal that the text begins with, and the rest. -/
def scan (cs : List Char) : Option (List Char × List Char) :=
  let s := sign cs
  (mantissa s.2).map fun m =>
    let e := exponent m.2
    (s.1 ++ (m.1 ++ e.1),e.2)

theorem sign_append (cs : List Char) : (sign cs).1 ++ (sign cs).2 = cs := by
  cases cs with
  | nil => rfl
  | cons c cs => simp only [sign]; split <;> rfl

theorem digits_append (cs : List Char) : (digits cs).1 ++ (digits cs).2 = cs :=
  List.takeWhile_append_dropWhile

theorem fraction_append (cs : List Char) : (fraction cs).1 ++ (fraction cs).2 = cs := by
  unfold fraction; split <;> simp [digits_append]

theorem mantissa_append {cs : List Char} {m : List Char × List Char}
    (h : mantissa cs = some m) : m.1 ++ m.2 = cs := by
  simp only [mantissa] at h
  split at h
  · cases h
  · cases h; simp [fraction_append,digits_append]

theorem mantissa_ne_nil {cs : List Char} {m : List Char × List Char}
    (h : mantissa cs = some m) : m.1 ≠ [] := by
  simp only [mantissa] at h
  split at h
  · cases h
  · rename_i hm
    cases h
    intro he
    rw [List.append_eq_nil_iff] at he
    exact hm ⟨he.1,by simp [he.2]⟩

theorem exponent_append (cs : List Char) : (exponent cs).1 ++ (exponent cs).2 = cs := by
  cases cs with
  | nil => rfl
  | cons c cs => simp only [exponent]; split <;> simp [digits_append,sign_append]

theorem scan_append {cs t r : List Char} (h : scan cs = some (t,r)) : t ++ r = cs := by
  simp only [scan,Option.map_eq_some_iff] at h
  obtain ⟨m,hm,he⟩ := h
  cases he
  simp [exponent_append,mantissa_append hm,sign_append]

theorem scan_ne_nil {cs t r : List Char} (h : scan cs = some (t,r)) : t ≠ [] := by
  simp only [scan,Option.map_eq_some_iff] at h
  obtain ⟨m,hm,he⟩ := h
  cases he
  simp [mantissa_ne_nil hm]

theorem scan_length {cs t r : List Char} (h : scan cs = some (t,r)) : r.length < cs.length := by
  have ht := List.length_pos_iff.mpr (scan_ne_nil h)
  have hl := congrArg List.length (scan_append h)
  rw [List.length_append] at hl
  omega

def natural (base : Nat) (digit : Char → Nat) (cs : List Char) : Nat :=
  cs.foldl (fun n c => base*n + digit c) 0

def decimalDigit (c : Char) : Nat := c.toNat - '0'.toNat

def infinity : Float := 1/0

/-- The double nearest to `n * 10 ^ e`. Far outside the range of doubles the answer is
known without computing the power: `count` bounds the number of digits of `n`. -/
def ofDecimal (count n : Nat) (e : Int) : Float :=
  if n = 0 then 0
  else if 400 < e then infinity
  else if e + count < -400 then 0
  else if 0 ≤ e then Float.ofScientific n false e.toNat
  else Float.ofScientific n true (-e).toNat

/-- What a complete literal denotes; overflow gives an infinity and underflow a zero, both
with the literal's sign. -/
def value (text : List Char) : Float :=
  let s := sign text
  let w := digits s.2
  let f := fraction w.2
  let e : Int :=
    match f.2 with
    | [] => 0
    | _::cs =>
      let t := sign cs
      let n : Nat := natural 10 decimalDigit (digits t.2).1
      if t.1 = ['-'] then -n else n
  let ds := w.1 ++ f.1.drop 1
  let x := ofDecimal ds.length (natural 10 decimalDigit ds) (e - (f.1.drop 1).length)
  if s.1 = ['-'] then -x else x

example : scan "-1.5e3.2".toList = some ("-1.5e3".toList,".2".toList) := by decide +kernel

example : scan "5.e+x".toList = some ("5.".toList,"e+x".toList) := by decide +kernel

example : scan ".e1".toList = none := by decide +kernel

example : value "-1.5e3".toList == -1500 ∧ value "1e999".toList == infinity := by decide +kernel

def findAll : List Char → List (List Char)
  | [] => []
  | c::cs =>
    match h : scan (c::cs) with
    | some (t,r) =>
      have : r.length ≤ cs.length := Nat.le_of_lt_succ (scan_length h)
      t::findAll r
    | none => findAll cs
termination_by cs => cs.length

def numbers (cs : List Char) : List Float := (findAll cs).map value

end Literal

namespace Numeral

def infinityName : List Char := "Infinity".toList

def dropStart? : List Char → List Char → Option (List Char)
  | [],cs => some cs
  | _::_,[] => none
  | p::ps,c::cs => if p = c then dropStart? ps cs else none

def signedInfinity? (cs : List Char) : Option (Float × List Char) :=
  (dropStart? infinityName (Literal.sign cs).2).map fun r =>
    (if (Literal.sign cs).1 = ['-'] then -Literal.infinity else Literal.infinity,r)

def leading? (cs : List Char) : Option Float :=
  let cs := Text.trimLeft cs
  match signedInfinity? cs with
  | some (x,_) => some x
  | none => (Literal.scan cs).map fun (t,_) => Literal.value t

def hexDigit (c : Char) : Nat :=
  if c.isDigit then c.toNat - '0'.toNat
  else if c.isLower then c.toNat - 'a'.toNat + 10
  else c.toNat - 'A'.toNat + 10

def isHexDigit (c : Char) : Bool :=
  c.isDigit || ('a' ≤ c && c ≤ 'f') || ('A' ≤ c && c ≤ 'F')

def baseOf? (c : Char) : Option Nat :=
  match c.toLower with
  | 'x' => some 16
  | 'o' => some 8
  | 'b' => some 2
  | _ => none

def based? : List Char → Option Float
  | '0'::c::ds =>
    match baseOf? c with
    | some b =>
      if ds ≠ [] ∧ ds.all (fun d => isHexDigit d && hexDigit d < b) then
        some (Float.ofNat (Literal.natural b hexDigit ds))
      else none
    | none => none
  | _ => none

/-- The number that a text is as a whole, blanks around it aside; a blank text is none. -/
def whole? (cs : List Char) : Option Float :=
  let t := Text.trim cs
  match based? t,signedInfinity? t,Literal.scan t with
  | some x,_,_ => some x
  | _,some (x,[]),_ => some x
  | _,_,some (n,[]) => some (Literal.value n)
  | _,_,_ => none

example : (leading? " 12px".toList).map (· == 12) = some true := by decide +kernel

example : (whole? "0x10".toList).map (· == 16) = some true := by decide +kernel

example : (whole? "12px".toList).isNone := by decide +kernel

end Numeral
end ExtrusionProfile
