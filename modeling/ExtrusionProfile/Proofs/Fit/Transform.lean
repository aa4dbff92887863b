import ExtrusionProfile.Fit.Outline
import ExtrusionProfile.Proofs.Plane.Bounds
import Mathlib.Tactic.FieldSimp
import Mathlib.Tactic.Linarith
import Mathlib.Tactic.Ring

/-! Transforms in exact arithmetic. One that does not flatten the plane takes boxes to boxes. It turns
one axis round, the other one instead when its scale is negative, and on an axis that is turned round
the two sides of a box change places. -/
namespace ExtrusionProfile
namespace Transform

variable (t : Transform ℚ)

/-- Where a transform takes the first coordinate. -/
def alongX (x : ℚ) : ℚ := (x-t.centerX)*t.scale

def alongY (y : ℚ) : ℚ := -(y-t.centerY)*t.scale

theorem apply_eq (p : Point ℚ) : t.apply p = ⟨t.alongX p.x,t.alongY p.y⟩ := rfl

/-- The image of a box: its sides' images, exchanged on the axis that is turned round. -/
def box (b : Bounds ℚ) : Bounds ℚ :=
  if 0 < t.scale then ⟨t.alongX b.minX,t.alongY b.maxY,t.alongX b.maxX,t.alongY b.minY⟩
  else ⟨t.alongX b.maxX,t.alongY b.minY,t.alongX b.minX,t.alongY b.maxY⟩

variable {t}

section Axes

theorem alongX_strictMono (h : 0 < t.scale) : StrictMono t.alongX := fun _ _ hx =>
  mul_lt_mul_of_pos_right (sub_lt_sub_right hx _) h

theorem alongX_strictAnti (h : t.scale < 0) : StrictAnti t.alongX := fun _ _ hx =>
  mul_lt_mul_of_neg_right (sub_lt_sub_right hx _) h

theorem alongY_strictAnti (h : 0 < t.scale) : StrictAnti t.alongY := fun _ _ hy =>
  mul_lt_mul_of_pos_right (neg_lt_neg (sub_lt_sub_right hy _)) h

theorem alongY_strictMono (h : t.scale < 0) : StrictMono t.alongY := fun _ _ hy =>
  mul_lt_mul_of_neg_right (neg_lt_neg (sub_lt_sub_right hy _)) h

end Axes

section Boxes

theorem single_apply (p : Point ℚ) : Bounds.single (t.apply p) = t.box (Bounds.single p) := by
  unfold box
  split_ifs <;> rfl

theorem area_box (b : Bounds ℚ) : (t.box b).area = t.scale^2*b.area := by
  simp only [Bounds.area,Bounds.width,Bounds.height,box,alongX,alongY]
  split_ifs <;> ring

variable (h : t.scale ≠ 0)
include h

theorem extend_box (b : Bounds ℚ) (p : Point ℚ) :
    (t.box b).extend (t.apply p) = t.box (b.extend p) := by
  simp only [Bounds.extend_rat,box,apply_eq]
  split_ifs with hs
  · have hx := (alongX_strictMono hs).monotone
    have hy := (alongY_strictAnti hs).antitone
    simp only [hx.map_min,hx.map_max,hy.map_min,hy.map_max]
  · have hs := lt_of_le_of_ne (not_lt.mp hs) h
    have hx := (alongX_strictAnti hs).antitone
    have hy := (alongY_strictMono hs).monotone
    simp only [hx.map_min,hx.map_max,hy.map_min,hy.map_max]

theorem around?_applyAll (ps : List (Point ℚ)) :
    Bounds.around? (t.applyAll ps) = (Bounds.around? ps).map t.box :=
  Bounds.around?_map single_apply (extend_box h) ps

theorem contains_box (b c : Bounds ℚ) : (t.box b).contains (t.box c) = b.contains c := by
  rw [Bool.eq_iff_iff,Bounds.contains_rat,Bounds.contains_rat]
  unfold box
  split_ifs with hs
  · have hx := alongX_strictMono hs
    have hy := alongY_strictAnti hs
    simp only [hx.le_iff_le,hy.le_iff_ge]
    tauto
  · have hs := lt_of_le_of_ne (not_lt.mp hs) h
    have hx := alongX_strictAnti hs
    have hy := alongY_strictMono hs
    simp only [hx.le_iff_ge,hy.le_iff_le]
    tauto

theorem exists_apply_eq (q : Point ℚ) : ∃ p, t.apply p = q := by
  refine ⟨⟨q.x/t.scale+t.centerX,t.centerY-q.y/t.scale⟩,?_⟩
  simp only [apply_eq,alongX,alongY,add_sub_cancel_right,sub_sub_cancel_left,neg_neg,
    div_mul_cancel₀ _ h]

theorem holds_box_iff {b : Bounds ℚ} {q : Point ℚ} :
    (t.box b).Holds q ↔ ∃ p, b.Holds p ∧ t.apply p = q := by
  have hb : ∀ p, (t.box b).Holds (t.apply p) ↔ b.Holds p := fun p => by
    rw [Bounds.holds_iff_contains,single_apply,contains_box h,Bounds.holds_iff_contains]
  constructor
  · intro hq
    obtain ⟨p,rfl⟩ := exists_apply_eq h q
    exact ⟨p,(hb p).mp hq,rfl⟩
  · rintro ⟨p,hp,rfl⟩
    exact (hb p).mpr hp

end Boxes

end Transform
end ExtrusionProfile
