import ExtrusionProfile.Proofs.Path.Coherence
import ExtrusionProfile.Proofs.Number.WholePart

/-! What one step does, family by family. It leaves the pen where its last point is, moves the start
with a moveto only, and remembers a control point behind a Bézier curve only. A curve adds as many
points as its setting asks for, every other segment one, and a closepath at most the start. -/
namespace ExtrusionProfile
namespace Path

/-- The kind of curve whose control point the pen remembers behind a segment. -/
def Family.curve? : Family → Option Curve
  | .cubic | .smoothCubic => some .cubic
  | .quadratic | .smoothQuadratic => some .quadratic
  | _ => none

namespace Tessellation

def setting? (t : Tessellation) : Family → Option Float
  | .cubic | .smoothCubic => some t.cubic
  | .quadratic | .smoothQuadratic => some t.quadratic
  | .arc => some t.arc
  | _ => none

/-- Into how many pieces a segment is cut: a curve by the whole part of a finite setting, if that is
above one, and otherwise into one. -/
def pieces (t : Tessellation) (f : Family) : ℕ :=
  match t.setting? f with
  | some n => if n.isFinite then max 1 ⌊Binary64.toRat n⌋₊ else 1
  | none => 1

end Tessellation

/-- What a step of a family makes of the pen `k`, and what it adds to the subpath. -/
structure Lands (t : Tessellation) (f : Family) (k : Cursor) (s : Step) : Prop where
  start : s.cursor.start = if f = .moveto then s.cursor.current else k.start
  closed : s.cursor.closed = true ↔ f = .closepath
  control : s.cursor.control.map Control.curve = f.curve?
  /-- Only arcs fall back to their chord. -/
  flaw : s.flaw ≠ none → f = .arc
  last : f ≠ .closepath → s.points.getLast? = some s.cursor.current
  length : f ≠ .closepath → s.points.length = if s.flaw = none then t.pieces f else 1
  close : f = .closepath → s.cursor.current = k.start ∧
    s.points = if Point.same k.current k.start then [] else [k.start]

theorem Tessellation.pieces_eq {t : Tessellation} {f : Family} {n : Float}
    (h : t.setting? f = some n) : t.pieces f = Scalar.count n := by
  rw [pieces,h,Binary64.count_eq]

namespace Cursor

theorem length_samples (n : Float) (q : Point Float) {ps : List (Point Float)}
    (h : ps.length = Scalar.count n-1) : (ps ++ [q]).length = Scalar.count n := by
  have hn : 1 ≤ Scalar.count n := by
    rw [Binary64.count_eq]
    split_ifs
    · exact Nat.le_max_left 1 _
    · exact Nat.le_refl 1
  rw [List.length_append,List.length_singleton,h]
  exact Nat.sub_add_cancel hn

variable (t : Tessellation) (relative : Bool) (k : Cursor)

theorem length_points_step {s : Segment} (h : s.family ≠ .closepath) :
    (k.step t relative s).points.length =
      if (k.step t relative s).flaw = none then t.pieces s.family else 1 := by
  cases s with
  | closepath => exact absurd rfl h
  | moveto | lineto | horizontal | vertical => rfl
  | cubic | smoothCubic =>
    refine (length_samples t.cubic _ (by simp)).trans ?_
    exact (Tessellation.pieces_eq rfl).symm.trans (if_pos rfl).symm
  | quadratic | smoothQuadratic =>
    refine (length_samples t.quadratic _ (by simp)).trans ?_
    exact (Tessellation.pieces_eq rfl).symm.trans (if_pos rfl).symm
  | arc rx ry rotation large sweep p =>
    let a : Arc := ⟨rx,ry,rotation,large != 0,sweep != 0,k.resolve relative p⟩
    change ((a.flatten t.arc k.current).points.drop 1).length =
      if (a.flatten t.arc k.current).flaw = none then t.pieces .arc else 1
    rw [Arc.flatten]
    cases a.flaw? k.current with
    | some f => rfl
    | none =>
      rw [if_pos rfl,Tessellation.pieces_eq rfl]
      exact length_samples t.arc _ (by simp)

theorem control_step (s : Segment) :
    (k.step t relative s).cursor.control.map Control.curve = s.family.curve? := by
  cases s <;> rfl

theorem flaw_step {s : Segment} (h : (k.step t relative s).flaw ≠ none) : s.family = .arc := by
  cases s with
  | arc => rfl
  | _ => exact absurd rfl h

theorem step_lands (s : Segment) : Lands t s.family k (k.step t relative s) where
  start := by
    split_ifs with h
    · obtain ⟨p,rfl⟩ := Segment.exists_moveto h
      rfl
    · exact start_step t relative k h
  closed := by rw [closed_step,decide_eq_true_eq]
  control := control_step t relative k s
  flaw := flaw_step t relative k
  last h := by
    obtain ⟨ps,hp⟩ := exists_points_step t relative k h
    rw [hp,List.getLast?_concat]
  length := length_points_step t relative k
  close h := by
    cases Segment.eq_closepath h
    exact ⟨rfl,rfl⟩

end Cursor

/-- Any group of as many numbers as a family takes is a segment, and its step lands. -/
theorem step_group (t : Tessellation) (relative : Bool) (k : Cursor) {f : Family} {xs : List Float}
    (h : xs.length = f.arity) :
    ∃ s, Segment.ofArguments? f xs = some s ∧ Lands t f k (k.step t relative s) := by
  obtain ⟨s,hs⟩ := Segment.exists_ofArguments? h
  obtain ⟨rfl,-⟩ := Segment.ofArguments?_eq_some_iff.mp hs
  exact ⟨s,hs,k.step_lands t relative s⟩

/-- A curve that is to be cut into three and a half pieces. -/
theorem step_group_threeAndAHalf :
    ([1,1,2,1,3,0] : List Float).length = Family.cubic.arity ∧
      ∃ s, Segment.ofArguments? .cubic [1,1,2,1,3,0] = some s ∧
        (Cursor.initial.step ⟨3.5,10,20⟩ true s).points.length = 3 ∧
        (Cursor.initial.step ⟨3.5,10,20⟩ true s).points.getLast? =
          some (Cursor.initial.step ⟨3.5,10,20⟩ true s).cursor.current := by
  have h : ([1,1,2,1,3,0] : List Float).length = Family.cubic.arity := rfl
  obtain ⟨s,hs,hl⟩ := step_group ⟨3.5,10,20⟩ true .initial h
  have hf : (Cursor.initial.step ⟨3.5,10,20⟩ true s).flaw = none := by
    by_contra hn
    cases hl.flaw hn
  have hc : Scalar.count (3.5 : Float) = 3 := by decide +kernel
  refine ⟨h,s,hs,?_,hl.last (by decide)⟩
  rw [hl.length (by decide),if_pos hf,Tessellation.pieces_eq rfl,hc]

end Path
end ExtrusionProfile
