import ExtrusionProfile.Number.Binary64

/-! Sine, cosine and arc cosine on doubles, each with an error below one unit in the last
place. An angle is reduced to at most an eighth of a turn against a value of π/2 held in
pieces, and a polynomial does the rest. Reduction is meant for angles of a few turns. -/
namespace ExtrusionProfile
namespace Trig

def pi : Float := 3.141592653589793

def tau : Float := pi*2

/-- Keep the upper half of the bits, so that a square of the result is exact. -/
def upperHalf (x : Float) : Float := Float.ofBits (x.toBits &&& 0xffffffff00000000)

/-- An angle as a whole number of quarter turns and a remainder in two pieces, the second
one a correction to the first. -/
structure Reduced where
  quarters : Nat
  angle : Float
  correction : Float

/-- The difference of two biased exponents shows how many leading bits cancelled. -/
def lostBits (x y : Float) : Int := Binary64.biasedExponent x - Binary64.biasedExponent y

/-- Take `n` quarter turns from `x`, with as many pieces of π/2 as the cancellation asks for. -/
def subtractQuarters (x : Float) (n : Nat) : Reduced :=
  let k := Float.ofNat n
  let r := x - k*1.57079632673412561417
  let w := k*6.07710050650619224932e-11
  let y := r-w
  if lostBits x y ≤ 16 then ⟨n,y,(r-y)-w⟩
  else
    let w := k*6.07710050630396597660e-11
    let s := r-w
    let w := k*2.02226624879595063154e-21-((r-s)-w)
    let y := s-w
    if lostBits x y ≤ 49 then ⟨n,y,(s-y)-w⟩
    else
      let w := k*2.02226624871116645580e-21
      let t := s-w
      let w := k*8.47842766036889956997e-32-((s-t)-w)
      let y := t-w
      ⟨n,y,(t-y)-w⟩

def reduce (x : Float) : Reduced :=
  let x := Binary64.magnitude x
  if x ≤ 0.7853981633974483 then ⟨0,x,0⟩
  else subtractQuarters x (Binary64.wholeMagnitude (x*0.636619772367581382433+0.5))

def sineKernel (x y : Float) : Float :=
  let z := x*x
  let v := z*x
  let r := 8.33333333332248946124e-03 + z*(-1.98412698298579493134e-04
    + z*(2.75573137070700676789e-06 + z*(-2.50507602534068634195e-08
    + z*1.58969099521155010221e-10)))
  let c : Float := -1.66666666666666324348e-01
  if y == 0 then x+v*(c+z*r) else x-((z*(0.5*y-v*r)-y)-v*c)

def cosineKernel (x y : Float) : Float :=
  let z := x*x
  let r := z*(4.16666666666666019037e-02 + z*(-1.38888888888741095749e-03
    + z*(2.48015872894767294178e-05 + z*(-2.75573143513906633035e-07
    + z*(2.08757232129817482790e-09 + z*(-1.13596475577881948265e-11))))))
  let a := Binary64.magnitude x
  if a < 0.3 then 1-(0.5*z-(z*r-x*y))
  else
    let q := if 0.78125 < a then 0.28125 else upperHalf (a*0.25)
    (1-q)-((0.5*z-q)-(z*r-x*y))

def sin (x : Float) : Float :=
  if !x.isFinite then x-x
  else
    let r := reduce x
    let s :=
      match r.quarters % 4 with
      | 0 => sineKernel r.angle r.correction
      | 1 => cosineKernel r.angle r.correction
      | 2 => -sineKernel r.angle r.correction
      | _ => -cosineKernel r.angle r.correction
    if Binary64.isNegative x then -s else s

def cos (x : Float) : Float :=
  if !x.isFinite then x-x
  else
    let r := reduce x
    match r.quarters % 4 with
    | 0 => cosineKernel r.angle r.correction
    | 1 => -sineKernel r.angle r.correction
    | 2 => -cosineKernel r.angle r.correction
    | _ => sineKernel r.angle r.correction

/-- The quotient of two polynomials that the arc sine exceeds the identity by, per unit. -/
def arcKernel (z : Float) : Float :=
  let p := z*(1.66666666666666657415e-01 + z*(-3.25565818622400915405e-01
    + z*(2.01212532134862925881e-01 + z*(-4.00555345006794114027e-02
    + z*(7.91534994289814532176e-04 + z*3.47933107596021167570e-05)))))
  let q := 1 + z*(-2.40339491173441421878 + z*(2.02094576023350569471
    + z*(-6.88283971605453293030e-01 + z*7.70381505559019352791e-02)))
  p/q

/-- The angle in `[0,π]` with the given cosine; no number outside `[-1,1]`. -/
def arccos (x : Float) : Float :=
  let high : Float := 1.57079632679489655800
  let low : Float := 6.12323399573676603587e-17
  if x == 1 then 0
  else if x == -1 then pi+2*low
  else if !(Binary64.magnitude x < 1) then (x-x)/(x-x)
  else if Binary64.magnitude x < 0.5 then
    if Binary64.magnitude x < 6.938893903907228e-18 then high+low
    else high-(x-(low-x*arcKernel (x*x)))
  else if x < 0 then
    let z := (1+x)*0.5
    let s := Float.sqrt z
    let w := arcKernel z*s-low
    pi-2*(s+w)
  else
    let z := (1-x)*0.5
    let s := Float.sqrt z
    let d := upperHalf s
    let c := (z-d*d)/(s+d)
    let w := arcKernel z*s+c
    2*(d+w)

example : sin 0.5 == 0.479425538604203 ∧ cos 3 == -0.9899924966004454 := by decide +kernel

example : arccos 0 == 1.5707963267948966 ∧ arccos (-1) == pi := by decide +kernel

end Trig
end ExtrusionProfile
