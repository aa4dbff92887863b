import ExtrusionProfile.Proofs.Fit.Transform
import ExtrusionProfile.Proofs.Nesting.Levels

/-! Nesting of a transformed drawing, in exact arithmetic. All areas change by one factor and no box
gains or loses another one, so that sorting and placing go the same way: the nesting is the image of
the nesting before. -/
namespace ExtrusionProfile

namespace Sorting

variable {β γ : Type} {f : β → γ}

theorem runBehind_map {r : β → β → Bool} {s : γ → γ → Bool} (h : ∀ x y, s (f x) (f y) = r x y)
    (x : β) (ys : List β) :
    runBehind s (f x) (ys.map f) = ((runBehind r x ys).1.map f,(runBehind r x ys).2.map f) := by
  induction ys generalizing x with
  | nil => rfl
  | cons y ys ih =>
    simp only [List.map_cons,runBehind,h,ih]
    split <;> rfl

variable {before : β → β → Bool} {before' : γ → γ → Bool}
  (h : ∀ x y, before' (f x) (f y) = before x y)
include h

theorem firstRun_map (xs : List β) :
    firstRun before' (xs.map f) = ((firstRun before xs).1.map f,(firstRun before xs).2.map f) := by
  match xs with
  | [] | [x] => rfl
  | x::y::ys =>
    have hr := runBehind_map (r:=fun a b => before b a) (s:=fun a b => before' b a)
      (fun a b => h b a) x (y::ys)
    have hn := runBehind_map (r:=fun a b => !before b a) (s:=fun a b => !before' b a)
      (fun a b => congrArg not (h b a)) x (y::ys)
    rw [List.map_cons] at hr hn
    simp only [List.map_cons,firstRun,h,hr,hn]
    split <;> simp

theorem insertWithin_map (x : β) (n : ℕ) (ys : List β) :
    insertWithin before' (f x) n (ys.map f) = (insertWithin before x n ys).map f := by
  induction n generalizing ys with
  | zero => rfl
  | succ n ih =>
    simp only [insertWithin,List.length_map,← List.map_drop,← List.map_take]
    cases ys.drop (ys.length/2) with
    | nil => rfl
    | cons m r =>
      simp only [List.map_cons,h]
      split
      · rw [ih,List.map_append,List.map_cons]
      · rw [ih,List.map_append,List.map_cons]

theorem sort_map (xs : List β) : sort before' (xs.map f) = (sort before xs).map f := by
  have hi : ∀ ys x, insert before' (ys.map f) (f x) = (insert before ys x).map f := fun ys x => by
    rw [insert,List.length_map,insertWithin_map h,insert]
  rw [sort,firstRun_map h,List.foldl_map,sort]
  exact List.foldl_hom (List.map f) hi

end Sorting

namespace Transform

variable (t : Transform ℚ)

def candidate (c : Nesting.Candidate ℚ) : Nesting.Candidate ℚ :=
  { c with points := t.applyAll c.points, bounds := t.box c.bounds }

/-- The image of a polygon, at the same level, in the same role and from the same place. -/
def polygon (p : Polygon ℚ) : Polygon ℚ :=
  { p with points := t.applyAll p.points, bounds := t.box p.bounds, area := t.scale^2*p.area }

end Transform

namespace Nesting

variable {t : Transform ℚ} (h : t.scale ≠ 0)
include h

theorem candidatesFrom_applyAll (n : ℕ) (subpaths : List (List (Point ℚ))) :
    candidatesFrom n (subpaths.map t.applyAll) = (candidatesFrom n subpaths).map t.candidate := by
  induction subpaths generalizing n with
  | nil => rfl
  | cons ps r ih =>
    simp only [List.map_cons,candidatesFrom,Transform.around?_applyAll h,ih]
    cases Bounds.around? ps <;> rfl

theorem larger_candidate (c d : Candidate ℚ) :
    larger (t.candidate c) (t.candidate d) = larger c d := by
  have hs : 0 < t.scale^2 := by positivity
  rw [Bool.eq_iff_iff]
  simp only [larger,Candidate.area,Transform.candidate,Transform.area_box,Scalar.lt_rat,
    mul_lt_mul_iff_right₀ hs]

theorem place_candidate (latest : List (Polygon ℚ)) (c : Candidate ℚ) :
    place (latest.map t.polygon) (t.candidate c) = t.polygon (place latest c) := by
  have hl : levelBelow (latest.map t.polygon) (t.box c.bounds) = levelBelow latest c.bounds :=
    levelBelow_map (g:=t.polygon) (fun _ => rfl) (fun p => Transform.contains_box h p.bounds _) latest
  simp only [place,Transform.candidate,Transform.polygon,Candidate.area,Transform.area_box,hl]

/-- The nesting of a transformed drawing is the image of its nesting: the same subpaths in the same
order, at the same levels and in the same roles, with areas changed by the square of the scale and
boxes that hold the images of what they held. -/
theorem resolve_transformed (subpaths : List (List (Point ℚ))) :
    resolve (subpaths.map t.applyAll) = (resolve subpaths).map t.polygon ∧
      ∀ b q, (t.box b).Holds q ↔ ∃ p, b.Holds p ∧ t.apply p = q := by
  refine ⟨?_,fun b q => Transform.holds_box_iff h⟩
  rw [resolve,ordered,candidatesFrom_applyAll h,Sorting.sort_map (larger_candidate h)]
  exact placeAll_comm (place_candidate h) [] (ordered subpaths)

omit h

/-- A square in a frame, an empty subpath, and a bar as large as the square beside it. -/
def squareInFrame : List (List (Point ℚ)) :=
  [[⟨2,2⟩,⟨4,2⟩,⟨4,4⟩],[⟨0,0⟩,⟨9,0⟩,⟨9,9⟩,⟨0,9⟩],[],[⟨5,1⟩,⟨6,5⟩]]

/-- A mirror image of them, doubled. -/
theorem resolve_transformed_mirrored :
    let t : Transform ℚ := ⟨-2,1,1/3⟩
    t.scale ≠ 0 ∧
      resolve (squareInFrame.map t.applyAll) = (resolve squareInFrame).map t.polygon ∧
      (resolve squareInFrame).map (fun p => (p.source,p.level)) = [(1,0),(0,1),(3,1)] ∧
      (resolve squareInFrame).map Polygon.area = [81,4,4] ∧
      (resolve (squareInFrame.map t.applyAll)).map Polygon.area = [324,16,16] ∧
      ∃ p, Bounds.Holds ⟨0,0,9,9⟩ p ∧ t.apply p = ⟨-16,-2/3⟩ := by
  intro t
  have h : t.scale ≠ 0 := by decide +kernel
  have hb : (t.box ⟨0,0,9,9⟩).Holds ⟨-16,-2/3⟩ := by constructor <;> decide +kernel
  obtain ⟨hr,hi⟩ := resolve_transformed h squareInFrame
  exact ⟨h,hr,by decide +kernel,by decide +kernel,by decide +kernel,(hi _ _).mp hb⟩

end Nesting
end ExtrusionProfile
