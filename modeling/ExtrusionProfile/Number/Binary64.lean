/-! Exact readings of a double: its sign, and the integer and the power of two whose
product it is. Whole parts and remainders are taken on those integers, so nothing here
rounds. -/
namespace ExtrusionProfile
namespace Binary64

/-- The sign bit, which a zero carries too. -/
def isNegative (x : Float) : Bool := x.toBits >>> 63 == 1

def biasedExponent (x : Float) : Nat := (x.toBits >>> 52 &&& 0x7ff).toNat

def fraction (x : Float) : Nat := (x.toBits &&& 0xfffffffffffff).toNat

/-- A finite double is, up to its sign, `significand x * 2 ^ exponent x`. -/
def significand (x : Float) : Nat :=
  if biasedExponent x = 0 then fraction x else fraction x + 0x10000000000000

def exponent (x : Float) : Int :=
  if biasedExponent x = 0 then -1074 else biasedExponent x - 1075

def wholeMagnitude (x : Float) : Nat :=
  if 0 ≤ exponent x then significand x <<< (exponent x).toNat
  else significand x >>> (-exponent x).toNat

def magnitude (x : Float) : Float := if isNegative x then -x else x

/-- What is left of `x` after taking away whole multiples of `n`, with the sign of `x`. -/
def remainder (x : Float) (n : Nat) : Float :=
  if !x.isFinite then x-x
  else if magnitude x < Float.ofNat n then x
  else
    let r :=
      if 0 ≤ exponent x then Float.ofNat ((significand x <<< (exponent x).toNat) % n)
      else
        let d := 1 <<< (-exponent x).toNat
        Float.ofNat (significand x % (n*d)) / Float.ofNat d
    if isNegative x then -r else r

/-- The position of a finite double on the grid whose step is the least positive double. -/
def gridIndex (x : Float) : Int :=
  let n := significand x <<< (exponent x + 1074).toNat
  if isNegative x then -(n : Int) else n

/-- The lesser of two doubles: no number beats any number, and -0 is below 0. -/
def least (a b : Float) : Float :=
  if a.isNaN then a
  else if b.isNaN then b
  else if a < b then a
  else if b < a then b
  else if isNegative a then a else b

/-- The greater of two doubles: no number beats any number, and 0 is above -0. -/
def greatest (a b : Float) : Float :=
  if a.isNaN then a
  else if b.isNaN then b
  else if b < a then a
  else if a < b then b
  else if isNegative a then b else a

example : wholeMagnitude 7.9 = 7 ∧ wholeMagnitude 1e3 = 1000 := by decide +kernel

example : remainder (-725.5) 360 == -5.5 := by decide +kernel

end Binary64
end ExtrusionProfile
