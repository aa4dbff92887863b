import ExtrusionProfile.Overlay.Trace
import ExtrusionProfile.Profile.Compose

/-! Union and difference of regions. The rings of the combined boundary become polygons with
holes in one form: no point within a straight line, rings closed and begun at their least
point, outer rings counter-clockwise and holes clockwise, everything in the order of first
points. -/
namespace ExtrusionProfile
namespace Overlay

/-- Drop the points at which a path from `p` on to `stop` does not turn. -/
def straighten (stop : Point Float) : Point Float → List (Point Float) → List (Point Float)
  | p,q::r::rs =>
    if turn p q r = 0 then straighten stop p (r::rs) else q::straighten stop q (r::rs)
  | p,[q] => if turn p q stop = 0 then [] else [q]
  | _,[] => []

def corners : List (Point Float) → List (Point Float)
  | [] => []
  | p::ps =>
    match straighten p p ps with
    | [] => []
    | q::qs => if turn (qs.getLastD q) p q = 0 then q::qs else p::q::qs

def leastOf (p : Point Float) (ps : List (Point Float)) : Point Float :=
  ps.foldl (fun m q => if precedes q m then q else m) p

def fromLeast : List (Point Float) → List (Point Float)
  | [] => []
  | p::ps =>
    let m := leastOf p ps
    let behind := (p::ps).dropWhile (!Point.same m ·)
    behind ++ (p::ps).takeWhile (!Point.same m ·)

def runsLeft : List (Point Float) → Bool
  | p::q::ps => 0 < turn (ps.getLastD q) p q
  | _ => false

def orient (left : Bool) : List (Point Float) → List (Point Float)
  | [] => []
  | p::ps => if runsLeft (p::ps) == left then p::ps else p::ps.reverse

/-- The written form of a ring: corners only, from the least one on, in the given direction
and with the first one repeated. -/
def writtenRing (left : Bool) (ps : List (Point Float)) : List (Point Float) :=
  let r := orient left (fromLeast (corners ps))
  r ++ r.take 1

structure Loop where
  strides : List Stride
  index : Nat
  first : Border

def loop? (bs : List Border) (strides : List Stride) : Option Loop :=
  let least := strides.foldl (fun m s => min m s.border) bs.length
  bs[least]?.map fun b => ⟨strides,least,b⟩

def Loop.points (l : Loop) : List (Point Float) := l.strides.map Stride.source

def isAbove (f e : Edge) : Bool :=
  if precedes e.left f.left then isBelow e f else !isBelow f e

def nearestBelow (bs : List Border) (e : Edge) : Option Nat :=
  let step (best : Option (Nat × Edge)) (i : Nat × Edge) : Option (Nat × Edge) :=
    if isBelow i.2 e then
      match best with
      | none => some i
      | some b => if isAbove i.2 b.2 then some i else best
    else best
  ((bs.zipIdx.map fun (b,i) => (i,b.edge)).foldl step none).map Prod.fst

/-- A polygon under construction, with the numbers of the borders of its rings. -/
structure Piece where
  outer : List (Point Float)
  holes : List (List (Point Float))
  members : List Nat

def Piece.addHole (owner : Option Nat) (l : Loop) (p : Piece) : Piece :=
  if owner.any p.members.contains then
    { p with
      holes := p.holes ++ [writtenRing false l.points]
      members := p.members ++ l.strides.map Stride.border }
  else p

/-- Build the pieces from the loops in the order of their first borders. The nearest border
below a hole belongs to the outer ring around it, or to another hole in that ring. -/
def assemble (bs : List Border) (ps : List Piece) (l : Loop) : List Piece :=
  if l.first.filledAbove then
    ps ++ [⟨writtenRing true l.points,[],l.strides.map Stride.border⟩]
  else ps.map (Piece.addHole (nearestBelow bs l.first.edge) l)

def ringBefore (a b : List (Point Float)) : Bool :=
  match a,b with
  | p::_,q::_ => !precedes q p
  | [],_ => true
  | _,[] => false

/-- A finished polygon, unless its outer ring has no area. -/
def Piece.region? (p : Piece) : Option (Region Float) :=
  if p.outer.isEmpty then none
  else some ⟨p.outer,(p.holes.filter (!·.isEmpty)).mergeSort ringBefore⟩

def regionsOf (bs : List Border) (rings : List (List Stride)) : List (Region Float) :=
  let loops := (rings.filterMap (loop? bs)).mergeSort fun a b => a.index ≤ b.index
  ((loops.foldl (assemble bs) []).filterMap Piece.region?).mergeSort fun a b =>
    ringBefore a.outer b.outer

inductive Fault
  /-- An operand with a ring that has no point. -/
  | emptyRing
  /-- A boundary that does not close, which only ill-conditioned crossings can bring about. -/
  | openBoundary
deriving DecidableEq, Repr

def Fault.message : Fault → String
  | .emptyRing => "Input geometry is not a valid Polygon or MultiPolygon"
  | .openBoundary => "Unable to complete output ring"

def hasEmptyRing (rs : List (Region Float)) : Bool :=
  rs.any fun r => (r.outer::r.holes).any List.isEmpty

def combine (o : Operation) (a b : List (Region Float)) : Except Fault (List (Region Float)) :=
  if hasEmptyRing a || hasEmptyRing b then .error .emptyRing
  else
    let s := regionEdges .subject .initial 0 a
    let c := regionEdges .clip s.2 0 b
    let bs := borders o (arrange c.2 (s.1 ++ c.1))
    match trace bs with
    | some rings => .ok (regionsOf bs rings)
    | none => .error .openBoundary

def clipper : Profile.Clipper Fault := ⟨combine .union,combine .difference⟩

end Overlay
end ExtrusionProfile
