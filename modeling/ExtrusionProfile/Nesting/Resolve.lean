import ExtrusionProfile.Plane.Basic
import ExtrusionProfile.Nesting.Sorting

/-! Nesting of subpaths by their boxes. Subpaths are placed in the order of decreasing box area, and
each lies one level below the last placed one whose box contains its own. Fills, each with the holes
cut right into it, are the regions of a nesting. -/
namespace ExtrusionProfile

/-- What a polygon does to the profile: a fill adds to it, a hole is cut out of it. -/
inductive Role | fill | hole
deriving DecidableEq, Repr

namespace Role

def ofLevel (level : Nat) : Role := if level % 2 = 0 then .fill else .hole

/-- The role of any number as a level; one that is no even integer makes a hole. -/
def ofNumber (level : Float) : Role := if Binary64.remainder level 2 == 0 then .fill else .hole

end Role

structure Polygon (α : Type) where
  points : List (Point α)
  bounds : Bounds α
  area : α
  level : Nat
  role : Role
  /-- The place of the polygon among the subpaths it came from. -/
  source : Nat

structure Region (α : Type) where
  outer : List (Point α)
  holes : List (List (Point α))

variable {α : Type} [Scalar α]

namespace Region

/-- A polygon already seen, with the region that it opened if it is a fill. -/
structure Seen (α : Type) where
  bounds : Bounds α
  region : Option (Region α)

/-- Give a hole to the first polygon whose box contains the hole's. A hole keeps no holes. -/
def addHole (b : Bounds α) (ps : List (Point α)) : List (Seen α) → List (Seen α)
  | [] => []
  | s::ss =>
    if s.bounds.contains b then
      { s with region := s.region.map fun r => { r with holes := r.holes ++ [ps] } }::ss
    else s::addHole b ps ss

/-- Take in one more polygon; `latest` holds the ones before it, the last one first. -/
def see (latest : List (Seen α)) (p : Polygon α) : List (Seen α) :=
  match p.role with
  | .fill => ⟨p.bounds,some ⟨p.points,[]⟩⟩::latest
  | .hole => ⟨p.bounds,none⟩::addHole p.bounds p.points latest

/-- Every fill with the holes directly beneath it, in the order of the fills. -/
def group (ps : List (Polygon α)) : List (Region α) :=
  (ps.foldl see []).reverse.filterMap Seen.region

def absolute (x : α) : α := if Scalar.lt x Scalar.zero then -x else x

def lessHoles (s : α) (holes : List (List (Point α))) : α :=
  holes.foldl (fun s h => s-absolute (Ring.area h)) s

def area (rs : List (Region α)) : α :=
  rs.foldl (fun s r => lessHoles (s+absolute (Ring.area r.outer)) r.holes) Scalar.zero

end Region

namespace Nesting

structure Candidate (α : Type) where
  points : List (Point α)
  bounds : Bounds α
  source : Nat

def Candidate.area (c : Candidate α) : α := c.bounds.area

/-- The subpaths that have a point, with their places counted from `n`. -/
def candidatesFrom (n : Nat) : List (List (Point α)) → List (Candidate α)
  | [] => []
  | ps::r =>
    match Bounds.around? ps with
    | some b => ⟨ps,b,n⟩::candidatesFrom (n+1) r
    | none => candidatesFrom (n+1) r

def larger (c d : Candidate α) : Bool := Scalar.lt d.area c.area

def ordered (subpaths : List (List (Point α))) : List (Candidate α) :=
  Sorting.sort larger (candidatesFrom 0 subpaths)

/-- One below the first polygon whose box contains the given one, and the top otherwise. -/
def levelBelow (latest : List (Polygon α)) (b : Bounds α) : Nat :=
  match latest.find? (·.bounds.contains b) with
  | some p => p.level+1
  | none => 0

/-- Place a candidate; `latest` holds the polygons already placed, the last one first. -/
def place (latest : List (Polygon α)) (c : Candidate α) : Polygon α :=
  let level := levelBelow latest c.bounds
  ⟨c.points,c.bounds,c.area,level,Role.ofLevel level,c.source⟩

def placeAll (latest : List (Polygon α)) : List (Candidate α) → List (Polygon α)
  | [] => []
  | c::cs =>
    let p := place latest c
    p::placeAll (p::latest) cs

def resolve (subpaths : List (List (Point α))) : List (Polygon α) :=
  placeAll [] (ordered subpaths)

end Nesting
end ExtrusionProfile
