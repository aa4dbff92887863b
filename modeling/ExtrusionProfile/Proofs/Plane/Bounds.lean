import ExtrusionProfile.Plane.Basic
import Mathlib.Data.Rat.Floor
import ExtrusionProfile.Proofs.Number.Arithmetic

/-! Boxes around points. In doubles, the sides of a box around finite points are coordinates of the
points, in order, and a box that holds another one has no lesser area, also as areas are computed:
two sides of the same length may differ, but never the other way round. In exact arithmetic, where
the operations and the order are those of a field, a map of the plane that takes boxes to boxes takes
the box around some points to the box around their images. -/
namespace ExtrusionProfile
namespace Scalar

variable (a b : ℚ)

theorem ofNat_rat (n : ℕ) : (ofNat n : ℚ) = n := rfl

theorem zero_rat : (zero : ℚ) = 0 := rfl

theorem one_rat : (one : ℚ) = 1 := rfl

theorem lt_rat : lt a b ↔ a < b := Iff.rfl

theorem le_rat : le a b ↔ a ≤ b := by
  rw [← Rat.not_lt,← lt_rat,Bool.not_eq_true]
  exact Iff.of_eq (Bool.not_eq_true' _)

theorem least_rat : least a b = min a b := by
  change (if b < a then b else a) = min a b
  split_ifs with h
  · exact (min_eq_right h.le).symm
  · exact (min_eq_left (not_lt.mp h)).symm

theorem greatest_rat : greatest a b = max a b := by
  change (if a < b then b else a) = max a b
  split_ifs with h
  · exact (max_eq_right h.le).symm
  · exact (max_eq_left (not_lt.mp h)).symm

end Scalar

open Binary64

def Point.IsFinite (p : Point Float) : Prop := p.x.isFinite ∧ p.y.isFinite

namespace Bounds

/-- A box with finite sides, on either axis the lesser one first. -/
structure Spans (b : Bounds Float) : Prop where
  minX : b.minX.isFinite
  minY : b.minY.isFinite
  maxX : b.maxX.isFinite
  maxY : b.maxY.isFinite
  alongX : b.minX ≤ b.maxX
  alongY : b.minY ≤ b.maxY

variable {b c : Bounds Float} {p : Point Float}

theorem spans_single (hp : p.IsFinite) : (single p).Spans :=
  ⟨hp.1,hp.2,hp.1,hp.2,le_self (isNaN_of_isFinite hp.1),le_self (isNaN_of_isFinite hp.2)⟩

theorem Spans.extend (hb : b.Spans) (hp : p.IsFinite) : (b.extend p).Spans where
  minX := isFinite_least hb.minX hp.1
  minY := isFinite_least hb.minY hp.2
  maxX := isFinite_greatest hb.maxX hp.1
  maxY := isFinite_greatest hb.maxY hp.2
  alongX := le_trans (least_le (isNaN_of_isFinite hb.minX) (isNaN_of_isFinite hp.1))
    (le_greatest (isNaN_of_isFinite hb.maxX) (isNaN_of_isFinite hp.1))
  alongY := le_trans (least_le (isNaN_of_isFinite hb.minY) (isNaN_of_isFinite hp.2))
    (le_greatest (isNaN_of_isFinite hb.maxY) (isNaN_of_isFinite hp.2))

theorem Spans.foldl (hb : b.Spans) {ps : List (Point Float)} (hp : ∀ p ∈ ps, p.IsFinite) :
    (ps.foldl Bounds.extend b).Spans := by
  induction ps generalizing b with
  | nil => exact hb
  | cons p ps ih => exact ih (hb.extend (hp p (by simp))) fun q hq => hp q (by simp [hq])

theorem spans_around {ps : List (Point Float)} (h : around? ps = some b)
    (hp : ∀ p ∈ ps, p.IsFinite) : b.Spans := by
  cases ps with
  | nil => cases h
  | cons p ps =>
    cases h
    exact (spans_single (hp p (by simp))).foldl fun q hq => hp q (by simp [hq])

theorem contains_iff {b c : Bounds Float} :
    b.contains c ↔ b.minX ≤ c.minX ∧ b.minY ≤ c.minY ∧ c.maxX ≤ b.maxX ∧ c.maxY ≤ b.maxY := by
  simp [contains,Scalar.le,and_assoc]

theorem contains_trans {b c d : Bounds Float} (h : b.contains c) (h' : c.contains d) :
    b.contains d := by
  rw [contains_iff] at h h' ⊢
  exact ⟨le_trans h.1 h'.1,le_trans h.2.1 h'.2.1,le_trans h'.2.2.1 h.2.2.1,
    le_trans h'.2.2.2 h.2.2.2⟩

theorem area_le (hb : b.Spans) (hc : c.Spans) (h : b.contains c)
    (hn : b.area.isNaN = false) (hn' : c.area.isNaN = false) : c.area ≤ b.area := by
  obtain ⟨hx,hy,hx',hy'⟩ := contains_iff.mp h
  obtain ⟨hw,hw'⟩ := sub_mono hc.maxX hc.minX hb.maxX hb.minX hc.alongX hx' hx
  obtain ⟨hh,hh'⟩ := sub_mono hc.maxY hc.minY hb.maxY hb.minY hc.alongY hy' hy
  exact mul_mono hw hh hw' hh' hn' hn

/-- Whether a point lies in a box, its sides included. -/
structure Holds (b : Bounds ℚ) (p : Point ℚ) : Prop where
  left : b.minX ≤ p.x
  right : p.x ≤ b.maxX
  low : b.minY ≤ p.y
  high : p.y ≤ b.maxY

theorem extend_rat (b : Bounds ℚ) (p : Point ℚ) :
    b.extend p = ⟨min b.minX p.x,min b.minY p.y,max b.maxX p.x,max b.maxY p.y⟩ := by
  simp only [extend,Scalar.least_rat,Scalar.greatest_rat]

theorem contains_rat {b c : Bounds ℚ} :
    b.contains c ↔ b.minX ≤ c.minX ∧ b.minY ≤ c.minY ∧ c.maxX ≤ b.maxX ∧ c.maxY ≤ b.maxY := by
  simp only [contains,Bool.and_eq_true,Scalar.le_rat,and_assoc]

theorem holds_iff_contains {b : Bounds ℚ} {p : Point ℚ} : b.Holds p ↔ b.contains (single p) := by
  rw [contains_rat]
  exact ⟨fun h => ⟨h.left,h.low,h.right,h.high⟩,fun h => ⟨h.1,h.2.2.1,h.2.1,h.2.2.2⟩⟩

theorem holds_single (p : Point ℚ) : (single p).Holds p := ⟨le_rfl,le_rfl,le_rfl,le_rfl⟩

theorem holds_extend (b : Bounds ℚ) (p : Point ℚ) : (b.extend p).Holds p := by
  rw [extend_rat]
  exact ⟨min_le_right _ _,le_max_right _ _,min_le_right _ _,le_max_right _ _⟩

variable {b : Bounds ℚ} {p : Point ℚ} {ps : List (Point ℚ)}

theorem Holds.extend (h : b.Holds p) (q : Point ℚ) : (b.extend q).Holds p := by
  rw [extend_rat]
  exact ⟨min_le_of_left_le h.left,le_max_of_le_left h.right,min_le_of_left_le h.low,
    le_max_of_le_left h.high⟩

theorem holds_foldl (h : b.Holds p ∨ p ∈ ps) : (ps.foldl Bounds.extend b).Holds p := by
  induction ps generalizing b with
  | nil => exact h.resolve_right List.not_mem_nil
  | cons q ps ih =>
    refine ih ?_
    rcases h with h | h
    · exact .inl (h.extend q)
    · rcases List.mem_cons.mp h with rfl | h
      · exact .inl (holds_extend b p)
      · exact .inr h

theorem holds_of_around? (h : around? ps = some b) (hp : p ∈ ps) : b.Holds p := by
  cases ps with
  | nil => cases h
  | cons q ps =>
    cases h
    refine holds_foldl ?_
    rcases List.mem_cons.mp hp with rfl | hp
    · exact .inl (holds_single p)
    · exact .inr hp

/-- Where images of a box grow with the images of points, the box around some images is the image of
the box around the points. -/
theorem around?_map {f : Point ℚ → Point ℚ} {g : Bounds ℚ → Bounds ℚ}
    (hs : ∀ p, single (f p) = g (single p)) (he : ∀ b p, (g b).extend (f p) = g (b.extend p))
    (ps : List (Point ℚ)) : around? (ps.map f) = (around? ps).map g := by
  cases ps with
  | nil => rfl
  | cons p ps =>
    rw [List.map_cons,around?,around?,Option.map_some,hs,List.foldl_map]
    exact congrArg some (List.foldl_hom g he)

end Bounds
end ExtrusionProfile
