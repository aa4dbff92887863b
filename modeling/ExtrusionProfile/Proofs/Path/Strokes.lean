import ExtrusionProfile.Proofs.Path.Canvas

/-! Strokes: the segments of path data in the order in which they are drawn, each with the way
its command counts coordinates. Points, subpaths and the pen come from the strokes alone; only
notes look at the runs. -/
namespace ExtrusionProfile
namespace Path

/-- A segment and whether its coordinates count from the pen. -/
structure Stroke where
  relative : Bool
  segment : Segment

theorem Segment.exists_moveto : ∀ {s : Segment}, s.family = .moveto → ∃ p, s = .moveto p
  | .moveto p,_ => ⟨p,rfl⟩

theorem Segment.eq_closepath : ∀ {s : Segment}, s.family = .closepath → s = .closepath
  | .closepath,_ => rfl

namespace Cursor

/-- The steps of strokes, each from where the one before it left the pen. -/
def steps (t : Tessellation) : Cursor → List Stroke → List Step
  | _,[] => []
  | k,s::ss =>
    let p := k.step t s.relative s.segment
    p::steps t p.cursor ss

theorem exists_points_step (t : Tessellation) (relative : Bool) (k : Cursor) {s : Segment}
    (h : s.family ≠ .closepath) :
    ∃ ps, (k.step t relative s).points = ps ++ [(k.step t relative s).cursor.current] := by
  cases s with
  | closepath => exact absurd rfl h
  | moveto | lineto | horizontal | vertical => exact ⟨[],rfl⟩
  | cubic | smoothCubic | quadratic | smoothQuadratic => exact ⟨_,rfl⟩
  | arc rx ry rotation large sweep p =>
    let a : Arc := ⟨rx,ry,rotation,large != 0,sweep != 0,k.resolve relative p⟩
    change ∃ ps, (a.flatten t.arc k.current).points.drop 1 = ps ++ [a.stop]
    rw [Arc.flatten]
    cases a.flaw? k.current with
    | some f => exact ⟨[],rfl⟩
    | none => exact ⟨_,rfl⟩

end Cursor

def Run.strokes (r : Run) : List Stroke :=
  if r.command.family = .closepath then [⟨r.command.relative,.closepath⟩]
  else r.segments.map (⟨r.command.relative,·⟩)

def strokes (ts : List Token) : List Stroke := (runs ts).2.flatMap Run.strokes

namespace Canvas

variable (t : Tessellation) (k : Canvas)

theorem bare_draw_moveto (relative : Bool) (o : ℕ) (p : Point Float) :
    (k.draw t relative o (.moveto p)).bare =
      k.bare.flush.extend (k.cursor.step t relative (.moveto p)) := by
  rw [← bare_flush]
  rfl

theorem bare_draw_of_ne (relative : Bool) (o : ℕ) {s : Segment} (hm : s.family ≠ .moveto)
    (hc : s.family ≠ .closepath) :
    (k.draw t relative o s).bare = k.bare.reopen.extend (k.cursor.step t relative s) := by
  unfold draw
  dsimp only
  split
  · exact absurd rfl hm
  · exact absurd rfl hc
  · split <;> simp only [bare_note,bare_extend,bare_reopen]

/-- Draw a stroke and forget the notes. -/
def stroke (s : Stroke) : Canvas := (k.draw t s.relative 0 s.segment).bare

/-- A moveto puts the subpath in progress away, a closepath goes on with it, and any other stroke
goes on with it unless it was closed. -/
theorem stroke_cases (s : Stroke) :
    (∃ p, s.segment = .moveto p ∧
        k.stroke t s = k.bare.flush.extend (k.cursor.step t s.relative s.segment)) ∨
      (s.segment = .closepath ∧
        k.stroke t s = k.bare.extend (k.cursor.step t s.relative s.segment)) ∨
      (s.segment.family ≠ .moveto ∧ s.segment.family ≠ .closepath ∧
        k.stroke t s = k.bare.reopen.extend (k.cursor.step t s.relative s.segment)) := by
  obtain ⟨r,s⟩ := s
  by_cases hm : s.family = .moveto
  · obtain ⟨p,rfl⟩ := Segment.exists_moveto hm
    exact .inl ⟨p,rfl,bare_draw_moveto t k r 0 p⟩
  · by_cases hc : s.family = .closepath
    · cases Segment.eq_closepath hc
      exact .inr (.inl ⟨rfl,rfl⟩)
    · exact .inr (.inr ⟨hm,hc,bare_draw_of_ne t k r 0 hm hc⟩)

/-- What is drawn depends neither on notes nor on the place of the command. -/
theorem bare_draw (relative : Bool) (o : ℕ) (s : Segment) :
    (k.draw t relative o s).bare = k.bare.stroke t ⟨relative,s⟩ := by
  rcases stroke_cases t k.bare ⟨relative,s⟩ with ⟨p,rfl,h⟩ | ⟨rfl,h⟩ | ⟨hm,hc,h⟩
  · rw [h,bare_draw_moveto]
    rfl
  · rfl
  · rw [h,bare_draw_of_ne t k relative o hm hc]
    rfl

theorem bare_foldl_draw (relative : Bool) (o : ℕ) (ss : List Segment) :
    (ss.foldl (draw t relative o) k).bare =
      (ss.map (⟨relative,·⟩)).foldl (stroke t) k.bare := by
  rw [List.foldl_map]
  exact (List.foldl_hom bare fun k s => (bare_draw t k relative o s).symm).symm

theorem bare_drawRun {k k' : Canvas} {r : Run} (h : k.drawRun t r = .ok k') :
    k'.bare = r.strokes.foldl (stroke t) k.bare := by
  rw [Run.strokes]
  rcases drawRun_cases t k h with ⟨hf,_,rfl⟩ | ⟨hf,rfl⟩
  · rw [if_pos hf,bare_draw]
    rfl
  · rw [if_neg hf,bare_foldl_draw,bare_noted]

theorem bare_drawRuns {rs : List Run} {k k' : Canvas} (h : k.drawRuns t rs = .ok k') :
    k'.bare = (rs.flatMap Run.strokes).foldl (stroke t) k.bare := by
  induction rs generalizing k with
  | nil =>
    cases h
    rfl
  | cons r rs ih =>
    obtain ⟨c,hr,hrs⟩ := (drawRuns_cons_eq_ok_iff t k).mp h
    rw [List.flatMap_cons,List.foldl_append,← bare_drawRun t hr]
    exact ih hrs

end Canvas

theorem subpaths_interpret {t : Tessellation} {ts : List Token} {a : Drawn}
    (h : interpret t ts = .ok a) :
    a.subpaths = ((strokes ts).foldl (Canvas.stroke t) .empty).flush.finished := by
  obtain ⟨-,k,hk,rfl⟩ := interpret_eq_ok_iff.mp h
  have hb := Canvas.bare_drawRuns t hk
  rw [← Canvas.flush_bare_finished,hb]
  rfl

end Path
end ExtrusionProfile
