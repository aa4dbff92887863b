import ExtrusionProfile.Plane.Basic
import ExtrusionProfile.Nesting.Resolve

/-! Edges of the rings that are overlaid. An edge runs from its left to its right end and remembers
how often each ring runs along it, counted negative against its direction. On which side of an edge
a point is is settled exactly, on the integers that coordinates are multiples by of the least
positive double; coordinates that differ by rounding alone are made equal first. -/
namespace ExtrusionProfile
namespace Overlay

def isFinite (p : Point Float) : Bool := p.x.isFinite && p.y.isFinite

/-- Twice the signed area of a triangle in units of the finest grid: positive when `c` is to
the left of the line from `a` to `b`. A point at infinity is on every line. -/
def turn (a b c : Point Float) : Int :=
  if isFinite a && isFinite b && isFinite c then
    let ax := Binary64.gridIndex a.x
    let ay := Binary64.gridIndex a.y
    (Binary64.gridIndex b.x-ax)*(Binary64.gridIndex c.y-ay) -
      (Binary64.gridIndex b.y-ay)*(Binary64.gridIndex c.x-ax)
  else 0

def inner (o a b : Point Float) : Int :=
  let ox := Binary64.gridIndex o.x
  let oy := Binary64.gridIndex o.y
  (Binary64.gridIndex a.x-ox)*(Binary64.gridIndex b.x-ox) +
    (Binary64.gridIndex a.y-oy)*(Binary64.gridIndex b.y-oy)

def precedes (p q : Point Float) : Bool := p.x < q.x || (p.x == q.x && p.y < q.y)

def ulpOfOne : Float := 2.220446049250313e-16

def tiny (x : Float) : Bool := -ulpOfOne < x && x < ulpOfOne

/-- Equality up to rounding, relative to the magnitude except around zero. -/
def nearlyEqual (a b : Float) : Bool :=
  (tiny a && tiny b) || (a-b)*(a-b) < ulpOfOne*ulpOfOne*a*b

abbrev Axis := List Float

/-- Find the place of `x` behind `previous`, which is the nearest coordinate below it. -/
def Axis.place (x : Float) : Option Float → Axis → Float × Axis
  | p?,[] =>
    match p? with
    | some p => if nearlyEqual x p then (p,[]) else (x,[x])
    | none => (x,[x])
  | p?,y::ys =>
    if y < x then
      let r := place x (some y) ys
      (r.1,y::r.2)
    else if y == x then (x,y::ys)
    else if p?.any (nearlyEqual x) then (p?.getD x,y::ys)
    else if nearlyEqual x y then (y,y::ys)
    else (x,x::y::ys)

structure Grid where
  xs : Axis
  ys : Axis

/-- Zero is met beforehand, so that nothing tiny survives beside it. -/
def Grid.initial : Grid := ⟨[0],[0]⟩

def Grid.snap (g : Grid) (p : Point Float) : Point Float × Grid :=
  let x := Axis.place p.x none g.xs
  let y := Axis.place p.y none g.ys
  (⟨x.1,y.1⟩,⟨x.2,y.2⟩)

def Grid.snapAll (g : Grid) : List (Point Float) → List (Point Float) × Grid
  | [] => ([],g)
  | p::ps =>
    let q := g.snap p
    let r := q.2.snapAll ps
    (q.1::r.1,r.2)

inductive Operand | subject | clip
deriving DecidableEq, Repr

/-- Which ring of which polygon of which operand; ring 0 of a polygon is its outer ring. -/
structure RingName where
  operand : Operand
  polygon : Nat
  ring : Nat
deriving DecidableEq, Repr

abbrev Windings := List (RingName × Int)

def Windings.add (n : RingName) (w : Int) : Windings → Windings
  | [] => [(n,w)]
  | (m,v)::ws => if m = n then (m,v+w)::ws else (m,v)::add n w ws

def Windings.addAll (ws vs : Windings) : Windings := vs.foldl (fun ws (n,w) => ws.add n w) ws

/-- Whether a point with these winding numbers lies in an operand: in the outer ring of one
of its polygons and in no hole of that polygon. -/
def Windings.covers (ws : Windings) (o : Operand) : Bool :=
  ws.any fun (n,w) =>
    n.operand = o && n.ring = 0 && w ≠ 0 &&
      !ws.any fun (m,v) => m.operand = o && m.polygon = n.polygon && m.ring ≠ 0 && v ≠ 0

structure Edge where
  left : Point Float
  right : Point Float
  windings : Windings

namespace Edge

def between (p q : Point Float) (ws : Windings) : List Edge :=
  if precedes p q then [⟨p,q,ws⟩]
  else if precedes q p then [⟨q,p,ws.map fun (n,w) => (n,-w)⟩]
  else []

def hasEnd (e : Edge) (p : Point Float) : Bool := Point.same e.left p || Point.same e.right p

def cut (e : Edge) (p : Point Float) : List Edge :=
  if e.hasEnd p then [e] else between e.left p e.windings ++ between p e.right e.windings

/-- The edges of a ring; one back to the first point closes it. -/
def along (n : RingName) (first : Point Float) : List (Point Float) → List Edge
  | p::q::ps => between p q [(n,1)] ++ along n first (q::ps)
  | [p] => between p first [(n,1)]
  | [] => []

def ofRing (n : RingName) : List (Point Float) → List Edge
  | [] => []
  | p::ps => along n p (p::ps)

end Edge

/-- The edges of the rings of one polygon, with its points snapped in order. -/
def ringEdges (o : Operand) (polygon : Nat) (g : Grid) :
    Nat → List (List (Point Float)) → List Edge × Grid
  | _,[] => ([],g)
  | k,ps::rs =>
    let s := g.snapAll ps
    let t := ringEdges o polygon s.2 (k+1) rs
    (Edge.ofRing ⟨o,polygon,k⟩ s.1 ++ t.1,t.2)

def regionEdges (o : Operand) (g : Grid) : Nat → List (Region Float) → List Edge × Grid
  | _,[] => ([],g)
  | k,r::rs =>
    let s := ringEdges o k g 0 (r.outer::r.holes)
    let t := regionEdges o s.2 (k+1) rs
    (s.1 ++ t.1,t.2)

end Overlay
end ExtrusionProfile
