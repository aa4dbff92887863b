import ExtrusionProfile.Proofs.Path.Strokes

/-! Smooth curves and axis lines in longhand. What a smooth curve reflects is told by the stroke
right before it, so every stroke can be written as one that looks at nothing but the pen's
place, and it then makes the same step. -/
namespace ExtrusionProfile
namespace Path

/-- The strokes that leave out what the pen or the curve before them tells. -/
def Family.isShorthand : Family → Bool
  | .horizontal | .vertical | .smoothCubic | .smoothQuadratic => true
  | _ => false

/-- The control point that a smooth curve leaves out: the mirror image of the one that the
stroke before ends with, if that is a curve of the same kind, and otherwise the pen's place.
The stroke before comes in longhand and with the pen it was drawn with. -/
def Cursor.mirrored (k : Cursor) : Curve → Option (Cursor × Stroke) → Point Float
  | .cubic,some (q,⟨r,.cubic _ d _⟩) => Point.reflect k.current (q.resolve r d)
  | .quadratic,some (q,⟨r,.quadratic c _⟩) => Point.reflect k.current (q.resolve r c)
  | _,_ => k.current

/-- A stroke with nothing left out; what was is put in absolute coordinates. -/
def Stroke.longhand (k : Cursor) (before : Option (Cursor × Stroke)) : Stroke → Stroke
  | ⟨r,.smoothCubic d p⟩ =>
    ⟨false,.cubic (k.mirrored .cubic before) (k.resolve r d) (k.resolve r p)⟩
  | ⟨r,.smoothQuadratic p⟩ => ⟨false,.quadratic (k.mirrored .quadratic before) (k.resolve r p)⟩
  | ⟨r,.horizontal x⟩ => ⟨false,.lineto ⟨if r then k.current.x+x else x,k.current.y⟩⟩
  | ⟨r,.vertical y⟩ => ⟨false,.lineto ⟨k.current.x,if r then k.current.y+y else y⟩⟩
  | s => s

/-- Strokes in longhand, the first of them behind `before`. -/
def longhandFrom (t : Tessellation) :
    Cursor → Option (Cursor × Stroke) → List Stroke → List Stroke
  | _,_,[] => []
  | k,before,s::ss =>
    let l := s.longhand k before
    l::longhandFrom t (k.step t s.relative s.segment).cursor (some (k,l)) ss

def longhand (t : Tessellation) (ss : List Stroke) : List Stroke :=
  longhandFrom t .initial none ss

namespace Stroke

variable (t : Tessellation) (k : Cursor) (before : Option (Cursor × Stroke)) (s : Stroke)

theorem isShorthand_longhand : (s.longhand k before).segment.family.isShorthand = false := by
  obtain ⟨r,s⟩ := s
  cases s <;> rfl

/-- A stroke in longhand makes the same step, if the pen remembers the stroke before. -/
theorem step_longhand (h : ∀ c, k.reflected c = k.mirrored c before) :
    k.step t (s.longhand k before).relative (s.longhand k before).segment =
      k.step t s.relative s.segment := by
  obtain ⟨r,s⟩ := s
  cases s with
  | smoothCubic d p => simp [longhand,Cursor.step,Cursor.resolve,h]
  | smoothQuadratic p => simp [longhand,Cursor.step,Cursor.resolve,h]
  | _ => rfl

/-- Behind a stroke in longhand the pen remembers that stroke and nothing before it. -/
theorem reflected_step (hs : s.segment.family.isShorthand = false) (c : Curve) :
    (k.step t s.relative s.segment).cursor.reflected c =
      (k.step t s.relative s.segment).cursor.mirrored c (some (k,s)) := by
  obtain ⟨r,s⟩ := s
  cases s with
  | horizontal | vertical | smoothCubic | smoothQuadratic => cases hs
  | _ => cases c <;> rfl

end Stroke

theorem steps_longhandFrom (t : Tessellation) {k : Cursor} {before : Option (Cursor × Stroke)}
    (h : ∀ c, k.reflected c = k.mirrored c before) (ss : List Stroke) :
    k.steps t (longhandFrom t k before ss) = k.steps t ss := by
  induction ss generalizing k before with
  | nil => rfl
  | cons s ss ih =>
    have hs := s.step_longhand t k before h
    -- The pen has drawn `s`, but it remembers what `s` in longhand would have it remember.
    have hn := (s.longhand k before).reflected_step t k (s.isShorthand_longhand k before)
    rw [hs] at hn
    simp only [longhandFrom,Cursor.steps,hs,ih hn]

theorem isShorthand_of_mem_longhandFrom (t : Tessellation) {k : Cursor}
    {before : Option (Cursor × Stroke)} {ss : List Stroke} {s : Stroke}
    (h : s ∈ longhandFrom t k before ss) : s.segment.family.isShorthand = false := by
  induction ss generalizing k before with
  | nil => cases h
  | cons q ss ih =>
    rcases List.mem_cons.mp h with rfl | h
    · exact q.isShorthand_longhand k before
    · exact ih h

/-- Strokes in longhand leave nothing out, and every one of them makes the step of the stroke it
stands for: the same pen, points and flaw, bit for bit. -/
theorem steps_longhand (t : Tessellation) (ss : List Stroke) :
    Cursor.initial.steps t (longhand t ss) = Cursor.initial.steps t ss ∧
      ∀ s ∈ longhand t ss, s.segment.family.isShorthand = false := by
  refine ⟨steps_longhandFrom t (fun c => ?_) ss,fun s => isShorthand_of_mem_longhandFrom t⟩
  cases c <;> rfl

end Path
end ExtrusionProfile
