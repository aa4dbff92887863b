import ExtrusionProfile.Number.Literal
import ExtrusionProfile.Number.Trig
import ExtrusionProfile.Plane.Basic

/-! Basic shapes: rectangles, circles, ellipses, polygons and polylines, read from an
element's attributes and turned into outlines. -/
namespace ExtrusionProfile

inductive Shape
  | rect (x y width height : Float)
  | circle (cx cy r : Float)
  | ellipse (cx cy rx ry : Float)
  | polygon (points : List Char)
  | polyline (points : List Char)

namespace Shape

inductive Kind | rect | circle | ellipse | polygon | polyline
deriving DecidableEq, Repr

def Kind.name : Kind → List Char
  | .rect => "rect".toList
  | .circle => "circle".toList
  | .ellipse => "ellipse".toList
  | .polygon => "polygon".toList
  | .polyline => "polyline".toList

def Kind.ofName? (name : List Char) : Option Kind :=
  [Kind.rect,.circle,.ellipse,.polygon,.polyline].find? (·.name == name)

/-- An attribute as a number; one that is missing or begins with no number counts as 0. -/
def numberOf (look : List Char → Option (List Char)) (name : String) : Float :=
  ((look name.toList).bind Numeral.leading?).getD 0

def textOf (look : List Char → Option (List Char)) (name : String) : List Char :=
  (look name.toList).getD []

def ofAttributes (look : List Char → Option (List Char)) : Kind → Shape
  | .rect =>
    let n := numberOf look
    .rect (n "x") (n "y") (n "width") (n "height")
  | .circle =>
    let n := numberOf look
    .circle (n "cx") (n "cy") (n "r")
  | .ellipse =>
    let n := numberOf look
    .ellipse (n "cx") (n "cy") (n "rx") (n "ry")
  | .polygon => .polygon (textOf look "points")
  | .polyline => .polyline (textOf look "points")

def ofElement? (name : List Char) (look : List Char → Option (List Char)) : Option Shape :=
  (Kind.ofName? (name.map Char.toLower)).map (ofAttributes look)

def pairs : List Float → List (Point Float)
  | x::y::r => ⟨x,y⟩::pairs r
  | _ => []

def pointList (text : List Char) : List (Point Float) := pairs (Literal.numbers text)

def closed (ps : List (Point Float)) : List (Point Float) := ps ++ ps.take 1

/-- The number of samples around an ellipse, never below three. -/
def sampleCount (samples : Float) : Nat :=
  if Binary64.isNegative samples then 3 else max 3 (Binary64.wholeMagnitude samples)

def ellipsePoint (cx cy rx ry : Float) (n i : Nat) : Point Float :=
  let angle := Trig.tau*Float.ofNat i/Float.ofNat n
  ⟨cx+rx*Trig.cos angle,cy+ry*Trig.sin angle⟩

def ellipsePoints (cx cy rx ry : Float) (n : Nat) : List (Point Float) :=
  closed ((List.range n).map (ellipsePoint cx cy rx ry n))

/-- The outline of a shape. Closed shapes repeat their first point, polylines stay open, and
a shape without extent or without points has none. -/
def points (samples : Float) : Shape → List (Point Float)
  | .rect x y w h =>
    if w ≤ 0 || h ≤ 0 then [] else closed [⟨x,y⟩,⟨x+w,y⟩,⟨x+w,y+h⟩,⟨x,y+h⟩]
  | .circle cx cy r => if r ≤ 0 then [] else ellipsePoints cx cy r r (sampleCount samples)
  | .ellipse cx cy rx ry =>
    if rx ≤ 0 || ry ≤ 0 then [] else ellipsePoints cx cy rx ry (sampleCount samples)
  | .polygon text => closed (pointList text)
  | .polyline text => pointList text

def defaultSamples : Float := 36

end Shape
end ExtrusionProfile
