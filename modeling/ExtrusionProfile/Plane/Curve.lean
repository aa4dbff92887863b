import ExtrusionProfile.Plane.Basic
import ExtrusionProfile.Number.Trig

/-! Curves as polylines. A Bézier curve is sampled at evenly spaced parameters, with both end points
taken over as they are. An elliptical arc, given by its end points, radii, rotation and two flags,
is turned into a centre and a range of angles, which is sampled evenly; without a radius, or from a
point to itself, it is drawn as its chord. -/
namespace ExtrusionProfile

variable {α : Type} [Scalar α]

namespace Bezier

def cubicAt (p q r s : Point α) (t : α) : Point α :=
  let u := Scalar.one-t
  let a := u*u*u
  let b := Scalar.ofNat 3*u*u*t
  let c := Scalar.ofNat 3*u*t*t
  let d := t*t*t
  ⟨a*p.x+b*q.x+c*r.x+d*s.x,a*p.y+b*q.y+c*r.y+d*s.y⟩

def quadraticAt (p q r : Point α) (t : α) : Point α :=
  let u := Scalar.one-t
  let a := u*u
  let b := Scalar.ofNat 2*u*t
  let c := t*t
  ⟨a*p.x+b*q.x+c*r.x,a*p.y+b*q.y+c*r.y⟩

def innerParameters (n : Nat) : List α :=
  (List.range (n-1)).map fun i => Scalar.ofNat (i+1)/Scalar.ofNat n

@[simp] theorem innerParameters_length (n : Nat) :
    (innerParameters n : List α).length = n-1 := by simp [innerParameters]

def flattenCubic (segments : α) (p q r s : Point α) : List (Point α) :=
  p::((innerParameters (Scalar.count segments)).map (cubicAt p q r s) ++ [s])

def flattenQuadratic (segments : α) (p q r : Point α) : List (Point α) :=
  p::((innerParameters (Scalar.count segments)).map (quadraticAt p q r) ++ [r])

end Bezier

/-- An arc as path data gives it, its start being where the pen is. -/
structure Arc where
  rx : Float
  ry : Float
  /-- Rotation of the ellipse, in degrees. -/
  rotation : Float
  largeArc : Bool
  sweep : Bool
  stop : Point Float

namespace Arc

/-- Why an arc is drawn as its chord. -/
inductive Flaw | zeroRadius | coincidentEndpoints
deriving DecidableEq, Repr

structure Samples where
  flaw : Option Flaw
  points : List (Point Float)

/-- The signed angle from `u` to `v`; zero when a length vanishes. -/
def vectorAngle (u v : Point Float) : Float :=
  let length := Float.sqrt ((u.x*u.x+u.y*u.y)*(v.x*v.x+v.y*v.y))
  if length == 0 then 0
  else
    let cosine := Binary64.least 1 (Binary64.greatest (-1) ((u.x*v.x+u.y*v.y)/length))
    let sign : Float := if u.x*v.y-u.y*v.x < 0 then -1 else 1
    sign*Trig.arccos cosine

structure Frame where
  cosine : Float
  sine : Float
  centre : Point Float
  rx : Float
  ry : Float

def Frame.at (f : Frame) (angle : Float) : Point Float :=
  let ex := f.rx*Trig.cos angle
  let ey := f.ry*Trig.sin angle
  ⟨f.cosine*ex-f.sine*ey+f.centre.x,f.sine*ex+f.cosine*ey+f.centre.y⟩

/-- Where an arc begins on its ellipse and how far it turns. -/
structure Sector where
  frame : Frame
  start : Float
  turn : Float

/-- The centre form of an arc from `p`. Radii too small to span the chord are enlarged. -/
def sector (a : Arc) (p : Point Float) : Sector :=
  let q := a.stop
  let phi := Binary64.remainder a.rotation 360*Trig.pi/180
  let cosine := Trig.cos phi
  let sine := Trig.sin phi
  let hx := (p.x-q.x)/2
  let hy := (p.y-q.y)/2
  let x := cosine*hx+sine*hy
  let y := -sine*hx+cosine*hy
  let rx := Binary64.magnitude a.rx
  let ry := Binary64.magnitude a.ry
  let lambda := x*x/(rx*rx)+y*y/(ry*ry)
  let grow := if 1 < lambda then Float.sqrt lambda else 1
  let rx := if 1 < lambda then rx*grow else rx
  let ry := if 1 < lambda then ry*grow else ry
  let rxSq := rx*rx
  let rySq := ry*ry
  let xSq := x*x
  let ySq := y*y
  let num := rxSq*rySq-rxSq*ySq-rySq*xSq
  let den := rxSq*ySq+rySq*xSq
  let root := if num ≤ 0 || den == 0 then 0 else Float.sqrt (num/den)
  let coef := if a.largeArc == a.sweep then -root else root
  let cx := coef*(rx*y)/ry
  let cy := coef*(-(ry*x))/rx
  let centre : Point Float := ⟨cosine*cx-sine*cy+(p.x+q.x)/2,sine*cx+cosine*cy+(p.y+q.y)/2⟩
  let u : Point Float := ⟨(x-cx)/rx,(y-cy)/ry⟩
  let v : Point Float := ⟨(-x-cx)/rx,(-y-cy)/ry⟩
  let turn := vectorAngle u v
  let turn :=
    if !a.sweep && 0 < turn then turn-Trig.tau
    else if a.sweep && turn < 0 then turn+Trig.tau
    else turn
  ⟨⟨cosine,sine,centre,rx,ry⟩,vectorAngle ⟨1,0⟩ u,turn⟩

def Sector.innerPoints (s : Sector) (n : Nat) : List (Point Float) :=
  (List.range (n-1)).map fun i => s.frame.at (s.start+s.turn*Float.ofNat (i+1)/Float.ofNat n)

@[simp] theorem Sector.innerPoints_length (s : Sector) (n : Nat) :
    (s.innerPoints n).length = n-1 := by simp [innerPoints]

def flaw? (a : Arc) (p : Point Float) : Option Flaw :=
  if a.rx == 0 || a.ry == 0 then some .zeroRadius
  else if Point.same p a.stop then some .coincidentEndpoints
  else none

def flatten (segments : Float) (a : Arc) (p : Point Float) : Samples :=
  match a.flaw? p with
  | some f => ⟨some f,[p,a.stop]⟩
  | none => ⟨none,p::((a.sector p).innerPoints (Scalar.count segments) ++ [a.stop])⟩

end Arc
end ExtrusionProfile
