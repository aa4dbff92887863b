import ExtrusionProfile.Plane.Basic
import ExtrusionProfile.Fit.Outline

/-! Fitted rings: the subpaths of an outline in target coordinates, cleaned and simplified, as far as
they still are polygons. A point closer than `epsilon` to the one kept before it is dropped, and so
is a last point that close to the first. Of several ways to simplify, `Simplify.line` keeps the
point farthest from the segment between two kept ones when it is farther than the tolerance, and
treats both halves alike. -/
namespace ExtrusionProfile

variable {α : Type} [Scalar α]

namespace Clean

variable [Root α]

def near (epsilon : α) (p q : Point α) : Bool := Scalar.lt (Point.distance p q) epsilon

def thinAfter (epsilon : α) : Point α → List (Point α) → List (Point α)
  | _,[] => []
  | p,q::qs => if near epsilon p q then thinAfter epsilon p qs else q::thinAfter epsilon q qs

/-- Keep the first point, and every point that is not near the last one kept. -/
def thin (epsilon : α) : List (Point α) → List (Point α)
  | [] => []
  | p::ps => p::thinAfter epsilon p ps

/-- Drop the last of at least two points when it is near the first. -/
def unclose (epsilon : α) : List (Point α) → List (Point α)
  | p::q::ps =>
    if near epsilon p (ps.getLastD q) then p::(q::ps).dropLast
    else p::q::ps
  | ps => ps

def fewest : Nat := 3

/-- The ring that a subpath makes, if at least three points are left of it. -/
def ring? (epsilon : α) (ps : List (Point α)) : Option (List (Point α)) :=
  let ps := unclose epsilon (thin epsilon ps)
  if fewest ≤ ps.length then some ps else none

end Clean

/-- A way to draw a line with fewer points, within a tolerance. -/
abbrev Simplifier (α : Type) := α → List (Point α) → List (Point α)

namespace Simplify

def foot (p a b : Point α) : Point α :=
  let dx := b.x-a.x
  let dy := b.y-a.y
  if Scalar.same dx Scalar.zero && Scalar.same dy Scalar.zero then a
  else
    let t := ((p.x-a.x)*dx+(p.y-a.y)*dy)/(dx*dx+dy*dy)
    if Scalar.lt Scalar.one t then b
    else if Scalar.lt Scalar.zero t then ⟨a.x+dx*t,a.y+dy*t⟩
    else a

def squaredDistance (p a b : Point α) : α :=
  let q := foot p a b
  let dx := p.x-q.x
  let dy := p.y-q.y
  dx*dx+dy*dy

/-- A list cut at one of its members. -/
structure Cut (α : Type) where
  before : List (Point α)
  point : Point α
  after : List (Point α)

def Cut.cons (p : Point α) (c : Cut α) : Cut α := { c with before := p::c.before }

/-- The first of the points farthest from the segment, among those farther than `bound`. -/
def farthest? (a b : Point α) : α → List (Point α) → Option (Cut α)
  | _,[] => none
  | bound,p::ps =>
    let d := squaredDistance p a b
    if Scalar.lt bound d then
      match farthest? a b d ps with
      | some c => some (c.cons p)
      | none => some ⟨[],p,ps⟩
    else (farthest? a b bound ps).map (Cut.cons p)

theorem eq_of_farthest? {a b : Point α} {bound : α} {ps : List (Point α)} {c : Cut α}
    (h : farthest? a b bound ps = some c) : ps = c.before ++ c.point::c.after := by
  induction ps generalizing bound c with
  | nil => cases h
  | cons p ps ih =>
    simp only [farthest?] at h
    split at h
    · split at h
      · rename_i e he
        cases h
        simp [Cut.cons,← ih he]
      · cases h
        rfl
    · rw [Option.map_eq_some_iff] at h
      obtain ⟨e,he,rfl⟩ := h
      simp [Cut.cons,← ih he]

def between (bound : α) (a b : Point α) (ps : List (Point α)) : List (Point α) :=
  match h : farthest? a b bound ps with
  | none => []
  | some c =>
    have hl := congrArg List.length (eq_of_farthest? h)
    have : c.before.length < ps.length := by rw [hl]; simp
    have : c.after.length < ps.length := by rw [hl]; simp; omega
    between bound a c.point c.before ++ c.point::between bound c.point b c.after
termination_by ps.length

def line (tolerance : α) : List (Point α) → List (Point α)
  | a::b::r =>
    let z := r.getLastD b
    a::(between (tolerance*tolerance) a z (b::r).dropLast ++ [z])
  | ps => ps

/-- Simplify a ring; a tolerance of zero or below, or too few points, leave it as it is. -/
def ringBy (simplify : Simplifier α) (tolerance : α) (ps : List (Point α)) : List (Point α) :=
  if Scalar.le tolerance Scalar.zero || ps.length ≤ Clean.fewest then ps
  else simplify tolerance ps

def ring (tolerance : α) (ps : List (Point α)) : List (Point α) := ringBy line tolerance ps

end Simplify

structure FitOptions (α : Type) where
  /-- Length that the longer side of the frame becomes. -/
  targetSize : α
  userScale : α
  /-- Points closer than this are merged. -/
  epsilon : α
  /-- Tolerance of simplification; zero leaves outlines as sampled. -/
  tolerance : α

def FitOptions.default : FitOptions Float := ⟨20,1,0.001,0⟩

namespace Outline

variable [Root α]

def ringBy? (simplify : Simplifier α) (o : FitOptions α) (t : Transform α)
    (ps : List (Point α)) : Option (List (Point α)) :=
  match Clean.ring? o.epsilon (t.applyAll ps) with
  | none => none
  | some ps =>
    let ps := Simplify.ringBy simplify o.tolerance ps
    if Clean.fewest ≤ ps.length then some ps else none

def ringsBy (simplify : Simplifier α) (o : FitOptions α) (outline : Outline α) :
    List (List (Point α)) :=
  match outline.fit? o.targetSize o.userScale with
  | none => []
  | some t => outline.subpaths.filterMap (ringBy? simplify o t)

def rings (o : FitOptions α) (outline : Outline α) : List (List (Point α)) :=
  outline.ringsBy Simplify.line o

variable {simplify : Simplifier α} {o : FitOptions α}

theorem fewest_le_of_ringBy? {t : Transform α} {ps qs : List (Point α)}
    (h : ringBy? simplify o t ps = some qs) : Clean.fewest ≤ qs.length := by
  rw [ringBy?] at h
  split at h
  · cases h
  · obtain ⟨hl,he⟩ := Option.ite_none_right_eq_some.mp h
    cases he
    exact hl

theorem fewest_le_of_mem_ringsBy {outline : Outline α} {ps : List (Point α)}
    (h : ps ∈ outline.ringsBy simplify o) : Clean.fewest ≤ ps.length := by
  rw [ringsBy] at h
  split at h
  · cases h
  · obtain ⟨qs,-,hq⟩ := List.mem_filterMap.mp h
    exact fewest_le_of_ringBy? hq

end Outline
end ExtrusionProfile
