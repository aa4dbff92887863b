import ExtrusionProfile.Number.Binary64

/-! Written forms of doubles: `plain` is the shortest decimal that reads back to the same double,
`fixed` has a given number of decimal places. A positive double is the midpoint of an interval of
reals that all round to it, ends included when its significand is even. Its shortest decimal is on
the coarsest decimal grid with a point in that interval, and is the point of that grid nearest to
the double. -/
namespace ExtrusionProfile
namespace Shortest

/-- A positive real interval with a distinguished value, as integers over one denominator. -/
structure Rounding where
  low : Nat
  mid : Nat
  high : Nat
  den : Nat
  closed : Bool

/-- The reals that round to a positive finite double. The gap below a power of two is half
the gap above it. -/
def Rounding.ofFloat (x : Float) : Rounding :=
  let m := Binary64.significand x
  let q := Binary64.exponent x - 2
  let low := if m = 0x10000000000000 ∧ Binary64.biasedExponent x > 1 then 4*m-1 else 4*m-2
  let scale := 1 <<< q.toNat
  ⟨low*scale,4*m*scale,(4*m+2)*scale,1 <<< (-q).toNat,m % 2 = 0⟩

def Rounding.holds (r : Rounding) (n d : Nat) : Bool :=
  if r.closed then r.low*d ≤ n*r.den && n*r.den ≤ r.high*d
  else r.low*d < n*r.den && n*r.den < r.high*d

def tenPower (p : Int) : Nat × Nat := (Nat.pow 10 p.toNat,Nat.pow 10 (-p).toNat)

/-- The multiple of `10 ^ p` that rounds to the value, the nearer one of two; of two equally
near ones the even. -/
def Rounding.onGrid (r : Rounding) (p : Int) : Option Nat :=
  let (a,b) := tenPower p
  let n := r.mid*b / (r.den*a)
  let below := r.holds (n*a) b
  let above := r.holds ((n+1)*a) b
  let twice := 2*r.mid*b
  let middle := (2*n+1)*a*r.den
  if below && above then
    some (if twice < middle then n else if middle < twice then n+1 else if n % 2 = 0 then n else n+1)
  else if below then some n
  else if above then some (n+1)
  else none

def Rounding.search (r : Rounding) : Nat → Int → Nat × Int
  | 0,p => ((r.onGrid p).getD 0,p)
  | k+1,p =>
    match r.onGrid p with
    | some n => (n,p)
    | none => r.search k (p-1)

def Rounding.magnitude (r : Rounding) : Nat → Int → Int
  | 0,p => p
  | k+1,p =>
    let (a,b) := tenPower p
    if a*r.den ≤ r.mid*b then p else r.magnitude k (p-1)

def normalize : Nat → Nat → Int → Nat × Int
  | 0,n,p => (n,p)
  | k+1,n,p => if n % 10 = 0 ∧ n ≠ 0 then normalize k (n/10) (p+1) else (n,p)

/-- An integer `n` and a power `p` with `n * 10 ^ p` the shortest decimal that reads back to
the positive finite double `x`. Seventeen digits always do. -/
def decimal (x : Float) : Nat × Int :=
  let r := Rounding.ofFloat x
  let guess : Int := (Binary64.exponent x + Nat.log2 (Binary64.significand x)) * 30103 / 100000 + 2
  let p := r.magnitude 4 guess
  let (n,p) := r.search 18 (p+1)
  normalize 20 n p

example : decimal 0.1 = (1,-1) ∧ decimal 5e-324 = (5,-324) := by decide +kernel

example : decimal 1125899906842624.25 = (11258999068426242,-1) := by decide +kernel

end Shortest

namespace NumberText

def digitsOf (n : Nat) : List Char := Nat.toDigits 10 n

def zeros (n : Nat) : List Char := List.replicate n '0'

/-- Write digits `ds` with the point behind the first `n` of them. Values from `1e-6` up to
below `1e21` stand in positional form, all others with an exponent. -/
def layout (ds : List Char) (n : Int) : List Char :=
  let k := ds.length
  if k ≤ n ∧ n ≤ 21 then ds ++ zeros (n.toNat - k)
  else if 0 < n ∧ n ≤ 21 then ds.take n.toNat ++ '.'::ds.drop n.toNat
  else if -6 < n ∧ n ≤ 0 then '0' :: '.' :: (zeros (-n).toNat ++ ds)
  else
    let e := n-1
    let tail := (if e < 0 then '-' else '+')::digitsOf e.natAbs
    ds.take 1 ++ (if k = 1 then [] else '.'::ds.drop 1) ++ 'e'::tail

/-- The shortest decimal; both zeros are `0`. -/
def plain (x : Float) : List Char :=
  if x.isNaN then "NaN".toList
  else if x == 0 then ['0']
  else
    let body :=
      if x.isInf then "Infinity".toList
      else
        let (n,p) := Shortest.decimal (Binary64.magnitude x)
        layout (digitsOf n) ((digitsOf n).length + p)
    if Binary64.isNegative x then '-'::body else body

def roundHalfUp (n d : Nat) : Nat := (2*n+d) / (2*d)

def point (places : Nat) (ds : List Char) : List Char :=
  if places = 0 then ds
  else
    let ds := zeros (places+1-ds.length) ++ ds
    ds.take (ds.length-places) ++ '.'::ds.drop (ds.length-places)

/-- The exact value rounded to `places` decimal places, halves away from zero. A negative
number keeps its sign even when it rounds to zero, a negative zero has none, and from `1e21`
on the plain form is used. -/
def fixed (places : Nat) (x : Float) : List Char :=
  if !x.isFinite || (1e21 : Float) ≤ Binary64.magnitude x then plain x
  else
    let m := Binary64.significand x
    let q := Binary64.exponent x
    let n := roundHalfUp ((m <<< q.toNat) * Nat.pow 10 places) (1 <<< (-q).toNat)
    let body := point places (digitsOf n)
    if x < 0 then '-'::body else body

example : String.ofList (plain 0.1) = "0.1" ∧ String.ofList (plain 1e21) = "1e+21" := by decide +kernel

example : String.ofList (plain 123456.789e-12) = "1.23456789e-7" := by decide +kernel

example : String.ofList (fixed 2 1.005) = "1.00" ∧ String.ofList (fixed 2 (-0.001)) = "-0.00" := by
  decide +kernel

example : String.ofList (fixed 0 2.5) = "3" ∧ String.ofList (fixed 3 1e20) = "100000000000000000000.000" := by
  decide +kernel

end NumberText
end ExtrusionProfile
