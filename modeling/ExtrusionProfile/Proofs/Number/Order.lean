import ExtrusionProfile.Number.Binary64
import Mathlib.Data.Prod.Lex

/-! The order of doubles. Every double has a rank in a linear order, and comparing two of
them compares their ranks, unless one of them is no number. -/
namespace ExtrusionProfile
namespace Binary64

open Float.Model

abbrev Rank := ℤ ×ₗ ℤ ×ₗ ℤ

/-- First the class of a number (negative or positive, infinite, finite or zero), then its
exponent, then its significand; the last two are turned round below zero. -/
def rankOf : UnpackedFloat → Rank
  | .infinity .negative => toLex (-2,toLex (0,0))
  | .finite .negative m e _ => toLex (-1,toLex (-e,-m))
  | .zero _ | .notANumber => toLex (0,toLex (0,0))
  | .finite .positive m e _ => toLex (1,toLex (e,m))
  | .infinity .positive => toLex (2,toLex (0,0))

def rank (x : Float) : Rank := rankOf x.toModel.unpack

theorem compare_neg_neg (e f : ℤ) : compare (-e) (-f) = (compare e f).swap := by
  rw [Int.compare_swap]
  rcases lt_trichotomy e f with h | h | h
  · rw [compare_gt_iff_gt.mpr h,compare_gt_iff_gt.mpr (Int.neg_lt_neg h)]
  · subst h; simp
  · rw [compare_lt_iff_lt.mpr h,compare_lt_iff_lt.mpr (Int.neg_lt_neg h)]

theorem compare_natCast (m n : ℕ) : compare (m : ℤ) n = compare m n := by
  rcases lt_trichotomy m n with h | h | h
  · rw [compare_lt_iff_lt.mpr h,compare_lt_iff_lt.mpr (Int.ofNat_lt.mpr h)]
  · subst h; simp
  · rw [compare_gt_iff_gt.mpr h,compare_gt_iff_gt.mpr (Int.ofNat_lt.mpr h)]

theorem compare_toLex {α β : Type} [Ord α] [Ord β] (a c : α) (b d : β) :
    compare (toLex (a,b)) (toLex (c,d)) = (compare a c).then (compare b d) := rfl

theorem compare_eq_rankOf {a b : UnpackedFloat} (ha : a.isNaN = false) (hb : b.isNaN = false) :
    a.compare b = some (compare (rankOf a) (rankOf b)) := by
  rcases a with s | _ | s | ⟨s,m,e,_⟩ <;> rcases b with r | _ | r | ⟨r,n,f,_⟩ <;>
    (try cases s) <;> (try cases r) <;>
    first
    | cases ha; done
    | cases hb; done
    | rfl
    | dsimp only [UnpackedFloat.compare,rankOf]
      simp [compare_toLex,compare_neg_neg,compare_natCast,Ordering.swap_then]

theorem compare_eq_none {a b : UnpackedFloat} (h : a.isNaN = true ∨ b.isNaN = true) :
    a.compare b = none := by
  rcases h with h | h <;> cases a <;> cases b <;> first | rfl | cases h

theorem lt_iff {x y : Float} :
    x < y ↔ x.isNaN = false ∧ y.isNaN = false ∧ rank x < rank y := by
  change decide (x.toModel.unpack.lt y.toModel.unpack = true) = true ↔
    x.toModel.unpack.isNaN = false ∧ y.toModel.unpack.isNaN = false ∧ rank x < rank y
  cases hx : x.toModel.unpack.isNaN
  · cases hy : y.toModel.unpack.isNaN
    · simpa [UnpackedFloat.lt,compare_eq_rankOf hx hy,rank] using compare_lt_iff_lt
    · simp [UnpackedFloat.lt,compare_eq_none (.inr hy)]
  · simp [UnpackedFloat.lt,compare_eq_none (.inl hx)]

theorem le_iff {x y : Float} :
    x ≤ y ↔ x.isNaN = false ∧ y.isNaN = false ∧ rank x ≤ rank y := by
  change decide (x.toModel.unpack.le y.toModel.unpack = true) = true ↔
    x.toModel.unpack.isNaN = false ∧ y.toModel.unpack.isNaN = false ∧ rank x ≤ rank y
  cases hx : x.toModel.unpack.isNaN
  · cases hy : y.toModel.unpack.isNaN
    · simpa [UnpackedFloat.le,compare_eq_rankOf hx hy,rank] using
        Ordering.ne_gt_iff_isLE.symm.trans compare_le_iff_le
    · simp [UnpackedFloat.le,compare_eq_none (.inr hy)]
  · simp [UnpackedFloat.le,compare_eq_none (.inl hx)]

theorem beq_iff {x y : Float} :
    x == y ↔ x.isNaN = false ∧ y.isNaN = false ∧ rank x = rank y := by
  change (x.toModel.unpack.compare y.toModel.unpack == some .eq) = true ↔
    x.toModel.unpack.isNaN = false ∧ y.toModel.unpack.isNaN = false ∧ rank x = rank y
  cases hx : x.toModel.unpack.isNaN
  · cases hy : y.toModel.unpack.isNaN
    · simpa [compare_eq_rankOf hx hy,rank] using compare_eq_iff_eq
    · simp [compare_eq_none (.inr hy)]
  · simp [compare_eq_none (.inl hx)]

theorem beq_trans {x y z : Float} (h : x == y) (h' : y == z) : x == z := by
  rw [beq_iff] at h h' ⊢
  exact ⟨h.1,h'.2.1,h.2.2.trans h'.2.2⟩

theorem beq_symm {x y : Float} (h : x == y) : y == x := by
  rw [beq_iff] at h ⊢
  exact ⟨h.2.1,h.1,h.2.2.symm⟩

theorem le_trans {x y z : Float} (h : x ≤ y) (h' : y ≤ z) : x ≤ z := by
  rw [le_iff] at h h' ⊢
  exact ⟨h.1,h'.2.1,h.2.2.trans h'.2.2⟩

theorem isNaN_of_isFinite {x : Float} (h : x.isFinite) : x.isNaN = false := by
  replace h : x.toModel.unpack.isFinite := h
  change x.toModel.unpack.isNaN = false
  cases hu : x.toModel.unpack with
  | notANumber => rw [hu] at h; cases h
  | _ => rfl

theorem le_self {x : Float} (h : x.isNaN = false) : x ≤ x := le_iff.mpr ⟨h,h,le_rfl⟩

theorem le_of_not_lt {x y : Float} (hx : x.isNaN = false) (hy : y.isNaN = false) (h : ¬y < x) :
    x ≤ y := by
  rw [lt_iff] at h
  exact le_iff.mpr ⟨hx,hy,not_lt.mp fun hl => h ⟨hy,hx,hl⟩⟩

theorem le_of_lt {x y : Float} (h : x < y) : x ≤ y := by
  rw [lt_iff] at h
  exact le_iff.mpr ⟨h.1,h.2.1,h.2.2.le⟩

theorem le_of_beq {x y : Float} (h : x == y) : x ≤ y := by
  rw [beq_iff] at h
  exact le_iff.mpr ⟨h.1,h.2.1,h.2.2.le⟩

theorem lt_or_beq_of_le {x y : Float} (h : x ≤ y) : x < y ∨ x == y := by
  rw [le_iff] at h
  rw [lt_iff,beq_iff]
  exact h.2.2.lt_or_eq.imp (fun hr => ⟨h.1,h.2.1,hr⟩) fun hr => ⟨h.1,h.2.1,hr⟩

theorem least_eq (x y : Float) : least x y = x ∨ least x y = y := by
  unfold least; split_ifs <;> simp

theorem greatest_eq (x y : Float) : greatest x y = x ∨ greatest x y = y := by
  unfold greatest; split_ifs <;> simp

theorem isFinite_least {x y : Float} (hx : x.isFinite) (hy : y.isFinite) :
    (least x y).isFinite := by
  rcases least_eq x y with h | h <;> rwa [h]

theorem isFinite_greatest {x y : Float} (hx : x.isFinite) (hy : y.isFinite) :
    (greatest x y).isFinite := by
  rcases greatest_eq x y with h | h <;> rwa [h]

theorem least_le {x y : Float} (hx : x.isNaN = false) (hy : y.isNaN = false) : least x y ≤ y := by
  unfold least
  split_ifs with h₁ h₂ h₃ h₄ h₅
  · exact absurd h₁ (Bool.eq_false_iff.mp hx)
  · exact le_self hy
  · exact le_of_lt h₃
  · exact le_self hy
  · exact le_of_not_lt hx hy h₄
  · exact le_self hy

theorem le_greatest {x y : Float} (hx : x.isNaN = false) (hy : y.isNaN = false) :
    y ≤ greatest x y := by
  unfold greatest
  split_ifs with h₁ h₂ h₃ h₄ h₅
  · exact absurd h₁ (Bool.eq_false_iff.mp hx)
  · exact le_self hy
  · exact le_of_lt h₃
  · exact le_self hy
  · exact le_self hy
  · exact le_of_not_lt hy hx h₄

theorem not_lt_of_le {x y : Float} (h : x ≤ y) : ¬y < x := by
  rw [le_iff] at h
  rw [lt_iff]
  exact fun hl => absurd hl.2.2 (not_lt.mpr h.2.2)

theorem lt_or_lt_of_lt {x y : Float} (h : x < y) {z : Float} (hz : z.isNaN = false) :
    x < z ∨ z < y := by
  rw [lt_iff] at h
  rcases lt_or_ge (rank x) (rank z) with hl | hl
  · exact .inl (lt_iff.mpr ⟨h.1,hz,hl⟩)
  · exact .inr (lt_iff.mpr ⟨hz,h.2.1,hl.trans_lt h.2.2⟩)

theorem not_lt_of_lt {x y : Float} (h : x < y) : ¬y < x := by
  rw [lt_iff] at h
  rw [lt_iff]
  exact fun hl => absurd hl.2.2 h.2.2.asymm

end Binary64
end ExtrusionProfile
