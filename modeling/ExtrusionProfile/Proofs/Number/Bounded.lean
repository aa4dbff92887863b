import ExtrusionProfile.Proofs.Number.Operations
import ExtrusionProfile.Proofs.Number.Error
import ExtrusionProfile.Proofs.Number.WholePart

/-! Bounds of computed doubles. A bound goes through every operation, either with a fixed `slack`
for the rounding, as long as the numbers are moderate, or else doubled, as long as nothing
overflows. -/
namespace ExtrusionProfile
namespace Binary64

/-- What rounding changes at most about a number up to `2^17`. -/
def slack : ℚ := 1/2^36

theorem slack_nonneg : 0 ≤ slack := by norm_num [slack]

theorem toRat_one : toRat 1 = 1 := by
  have hu : (1 : Float).toModel.unpack = .finite .positive (2^52) (-52) (by norm_num) := rfl
  rw [toRat,hu,ratOf_positive]
  norm_num

theorem toRat_two : toRat 2 = 2 := by
  have hu : (2 : Float).toModel.unpack = .finite .positive (2^52) (-51) (by norm_num) := rfl
  rw [toRat,hu,ratOf_positive]
  norm_num

open Float.Model.UnpackedFloat in
theorem toRat_magnitude {x : Float} (hx : x.isFinite) : toRat (magnitude x) = |toRat x| := by
  rw [abs_toRat_eq hx,magnitude]
  split_ifs with hn
  · rw [toRat_neg,toRat_eq x hx,if_pos hn]
    simp [Sign.apply]
  · rw [toRat_eq x hx,if_neg hn]
    simp [Sign.apply]

/-- A finite double within `b` of zero. -/
structure Bounded (x : Float) (b : ℚ) : Prop where
  isFinite : x.isFinite
  le : |toRat x| ≤ b

section Near

variable {x : Float} {q b : ℚ}

theorem lt_of_le_moderate (h : q ≤ 2^200) : q < 2^(1023 : ℤ) := by
  refine h.trans_lt ?_
  exact_mod_cast pow_lt_pow_right₀ (by norm_num : (1 : ℚ) < 2) (by norm_num : 200 < 1023)

theorem smallest_lt : smallest < 1/2^60 := by
  have h : (2 : ℚ)^(-1074 : ℤ) < 2^(-60 : ℤ) := zpow_lt_zpow_right₀ (by norm_num) (by norm_num)
  exact h.trans_eq (by norm_num)

/-- A positive number is not rounded to less than half of it, unless it is below all doubles. -/
theorem Near.le_two_mul (hx : Near x q) (hl : smallest ≤ q) (h : q < 2^(1023 : ℤ)) :
    q ≤ 2*toRat x := by
  have hq : |q| = q := abs_of_nonneg (smallest_pos.le.trans hl)
  have hn := hx.abs_le_toRat (by rwa [hq]) (by rwa [hq])
  rwa [hq,abs_of_nonneg (hx.toRat_nonneg (by rwa [hq]) (smallest_pos.le.trans hl))] at hn

theorem Near.abs_toRat_sub_le_slack (hx : Near x q) (h : |q| ≤ 2^17) : |toRat x-q| ≤ slack :=
  (hx.abs_toRat_sub_le (k:=17) (by exact_mod_cast h) (by norm_num) (by norm_num)).trans
    (by norm_num [slack])

theorem Near.bounded (hx : Near x q) (h : |q|+slack ≤ b) (hb : b ≤ 2^17) : Bounded x b := by
  have hq : |q| ≤ 2^17 := by linarith [slack_nonneg]
  refine ⟨hx.isFinite (lt_of_le_moderate (hq.trans (by norm_num))),?_⟩
  linarith [hx.abs_toRat_sub_le_slack hq,abs_sub_abs_le_abs_sub (toRat x) q]

theorem Near.bounded_two_mul (hx : Near x q) (h : |q| ≤ b) (hb : b < 2^(1023 : ℤ)) :
    Bounded x (2*b) :=
  ⟨hx.isFinite (h.trans_lt hb),(hx.abs_toRat_le (h.trans_lt hb)).trans (by linarith)⟩

theorem le_two_mul_natural {n : ℕ} (h0 : 0 < n) (h : (n : ℚ) < 2^(1023 : ℤ)) :
    (n : ℚ) ≤ 2*toRat (Float.ofNat n) := by
  have h1 : (1 : ℚ) ≤ n := by exact_mod_cast h0
  exact (near_ofNat n).le_two_mul ((smallest_lt.le.trans (by norm_num)).trans h1) h

end Near

namespace Bounded

variable {x y : Float} {b c d : ℚ}

theorem mono (hx : Bounded x b) (h : b ≤ c) : Bounded x c := ⟨hx.1,hx.2.trans h⟩

theorem nonneg (hx : Bounded x b) : 0 ≤ b := (abs_nonneg _).trans hx.2

theorem neg (hx : Bounded x b) : Bounded (-x) b :=
  ⟨isFinite_neg hx.1,by rw [toRat_neg,abs_neg]; exact hx.2⟩

theorem signed (hx : Bounded x b) (s : Bool) : Bounded (if s then -x else x) b := by
  split_ifs
  · exact hx.neg
  · exact hx

theorem magnitude (hx : Bounded x b) : Bounded (magnitude x) b := hx.signed _

section Exact

theorem sum_le (hx : Bounded x b) (hy : Bounded y c) : |toRat x+toRat y| ≤ b+c :=
  (abs_add_le _ _).trans (add_le_add hx.2 hy.2)

theorem difference_le (hx : Bounded x b) (hy : Bounded y c) : |toRat x-toRat y| ≤ b+c :=
  (abs_sub _ _).trans (add_le_add hx.2 hy.2)

theorem product_le (hx : Bounded x b) (hy : Bounded y c) : |toRat x*toRat y| ≤ b*c := by
  rw [abs_mul]
  exact mul_le_mul hx.2 hy.2 (abs_nonneg _) hx.nonneg

theorem quotient_le (hx : Bounded x b) (hc : 0 < c) (hy : c ≤ |toRat y|) :
    |toRat x/toRat y| ≤ b/c := by
  rw [abs_div]
  exact div_le_div₀ hx.nonneg hx.2 hc hy

end Exact

theorem add (hx : Bounded x b) (hy : Bounded y c) (h : b+c+slack ≤ d ∧ d ≤ 2^17) :
    Bounded (x+y) d :=
  (near_add hx.1 hy.1).bounded (by linarith [hx.sum_le hy]) h.2

theorem sub (hx : Bounded x b) (hy : Bounded y c) (h : b+c+slack ≤ d ∧ d ≤ 2^17) :
    Bounded (x-y) d :=
  (near_sub hx.1 hy.1).bounded (by linarith [hx.difference_le hy]) h.2

theorem mul (hx : Bounded x b) (hy : Bounded y c) (h : b*c+slack ≤ d ∧ d ≤ 2^17) :
    Bounded (x*y) d :=
  (near_mul hx.1 hy.1).bounded (by linarith [hx.product_le hy]) h.2

theorem div (hx : Bounded x b) (hy : y.isFinite) (hc : 0 < c) (hl : c ≤ |toRat y|)
    (h : b/c+slack ≤ d ∧ d ≤ 2^17) : Bounded (x/y) d :=
  (near_div hx.1 hy (abs_pos.mp (hc.trans_le hl))).bounded (by linarith [hx.quotient_le hc hl]) h.2

theorem literal {n : ℕ} {s : Bool} {k : ℕ}
    (h : 0 < n ∧ n*10^(if s then -k else k : ℤ)+slack ≤ b ∧ b ≤ 2^17) :
    Bounded (OfScientific.ofScientific n s k) b :=
  (near_ofScientific h.1 s k).bounded (by rw [abs_of_nonneg (by positivity)]; exact h.2.1) h.2.2

theorem natural (n : ℕ) (h : n+slack ≤ b ∧ b ≤ 2^17) : Bounded (Float.ofNat n) b :=
  (near_ofNat n).bounded (by rw [Nat.abs_cast]; exact h.1) h.2

theorem horner {z c' p : Float} (hc : Bounded c' b) (hz : Bounded z c) (hp : Bounded p d) {e : ℚ}
    (h : b+c*d+2*slack ≤ e ∧ e ≤ 2^17) : Bounded (c'+z*p) e := by
  have hs := slack_nonneg
  have hm : Bounded (z*p) (c*d+slack) := hz.mul hp ⟨le_rfl,by linarith [hc.nonneg]⟩
  exact hc.add hm ⟨by linarith,h.2⟩

section Close

theorem add_close (hx : Bounded x b) (hy : Bounded y c) (h : b+c ≤ 2^17) :
    |toRat (x+y)-(toRat x+toRat y)| ≤ slack :=
  (near_add hx.1 hy.1).abs_toRat_sub_le_slack ((hx.sum_le hy).trans h)

theorem sub_close (hx : Bounded x b) (hy : Bounded y c) (h : b+c ≤ 2^17) :
    |toRat (x-y)-(toRat x-toRat y)| ≤ slack :=
  (near_sub hx.1 hy.1).abs_toRat_sub_le_slack ((hx.difference_le hy).trans h)

theorem mul_close (hx : Bounded x b) (hy : Bounded y c) (h : b*c ≤ 2^17) :
    |toRat (x*y)-toRat x*toRat y| ≤ slack :=
  (near_mul hx.1 hy.1).abs_toRat_sub_le_slack ((hx.product_le hy).trans h)

theorem literal_close {n : ℕ} {s : Bool} {k : ℕ}
    (h : 0 < n ∧ (n*10^(if s then -k else k : ℤ) : ℚ) ≤ 2^17) :
    |toRat (OfScientific.ofScientific n s k)-n*10^(if s then -k else k : ℤ)| ≤ slack := by
  refine (near_ofScientific h.1 s k).abs_toRat_sub_le_slack ?_
  rw [abs_of_nonneg (by positivity)]
  exact h.2

theorem natural_close (n : ℕ) (h : (n : ℚ) ≤ 2^17) : |toRat (Float.ofNat n)-n| ≤ slack :=
  (near_ofNat n).abs_toRat_sub_le_slack (by rwa [Nat.abs_cast])

theorem peel {w : Float} (hx : Bounded x b) (hw : Bounded w c) (h : b+c+slack ≤ d ∧ d ≤ 1) :
    Bounded (x-w) d ∧ Bounded ((x-(x-w))-w) (3*slack) := by
  obtain ⟨hd,hd'⟩ := h
  have hs := slack_nonneg
  have hs' : slack ≤ 1 := by norm_num [slack]
  have hb := hx.nonneg
  have hc := hw.nonneg
  have hy : Bounded (x-w) d := hx.sub hw ⟨hd,by linarith⟩
  have hr : Bounded (x-(x-w)) (b+d+slack) := hx.sub hy ⟨le_rfl,by linarith⟩
  have h₁ := hx.sub_close hw (by linarith)
  have h₂ := hx.sub_close hy (by linarith)
  have h₃ := hr.sub_close hw (by linarith)
  refine ⟨hy,(hr.sub hw ⟨le_rfl,by linarith⟩).1,?_⟩
  rw [abs_le] at h₁ h₂ h₃ ⊢
  constructor <;> linarith

end Close

section Doubled

theorem add_two_mul (hx : Bounded x b) (hy : Bounded y c) (h : b+c < 2^(1023 : ℤ)) :
    Bounded (x+y) (2*(b+c)) :=
  (near_add hx.1 hy.1).bounded_two_mul (hx.sum_le hy) h

theorem sub_two_mul (hx : Bounded x b) (hy : Bounded y c) (h : b+c < 2^(1023 : ℤ)) :
    Bounded (x-y) (2*(b+c)) :=
  (near_sub hx.1 hy.1).bounded_two_mul (hx.difference_le hy) h

theorem mul_two_mul (hx : Bounded x b) (hy : Bounded y c) (h : b*c < 2^(1023 : ℤ)) :
    Bounded (x*y) (2*(b*c)) :=
  (near_mul hx.1 hy.1).bounded_two_mul (hx.product_le hy) h

theorem div_two_mul (hx : Bounded x b) (hy : y.isFinite) (hc : 0 < c) (hl : c ≤ |toRat y|)
    (h : b/c < 2^(1023 : ℤ)) : Bounded (x/y) (2*(b/c)) :=
  (near_div hx.1 hy (abs_pos.mp (hc.trans_le hl))).bounded_two_mul (hx.quotient_le hc hl) h

theorem natural_two_mul {n : ℕ} (h : (n : ℚ) < 2^(1023 : ℤ)) : Bounded (Float.ofNat n) (2*n) :=
  (near_ofNat n).bounded_two_mul (Nat.abs_cast n).le h

end Doubled

end Bounded

section SquareRoot

variable {x : Float}

theorem abs_toRat_lt (hx : x.isFinite) : |toRat x| < 2^(1024 : ℤ) := by
  unfold toRat
  rcases finite_cases hx with ⟨s,hx⟩ | ⟨s,m,e,hm,hx,hc,he⟩ <;> rw [hx]
  · rw [ratOf_zero,abs_zero]
    positivity
  · have hs := abs_ratOf s hm e
    have hm : (m : ℚ) < 2^(53 : ℤ) := by exact_mod_cast hc.lt
    have he : (2 : ℚ)^e ≤ 2^(971 : ℤ) := zpow_le_zpow_right₀ (by norm_num) he
    calc |ratOf (.finite s m e _)| = m*2^e := hs
      _ < 2^(53 : ℤ)*2^(971 : ℤ) :=
        mul_lt_mul hm he (zpow_pos (by norm_num) _) (by positivity)
      _ = 2^(1024 : ℤ) := (zpow_add₀ (by norm_num) _ _).symm

theorem smallest_le_toRat (hx : x.isFinite) (h : 0 < toRat x) : smallest ≤ toRat x := by
  obtain ⟨k,hk⟩ := exists_toRat_eq_mul hx
  rw [hk] at h ⊢
  have hp : 0 < k := Int.cast_pos.mp (pos_of_mul_pos_left h smallest_pos.le)
  exact le_mul_of_one_le_left smallest_pos.le (by exact_mod_cast hp)

theorem lt_of_sq_le {q : ℚ} (h0 : 0 ≤ q) (hx : x.isFinite) (h : q^2 ≤ 4*toRat x) :
    |q| < 2^(1023 : ℤ) := by
  rw [abs_of_nonneg h0]
  refine lt_of_pow_lt_pow_left₀ 2 (zpow_pos (by norm_num) _).le ?_
  calc q^2 ≤ 4*toRat x := h
    _ ≤ 2^(2 : ℤ)*|toRat x| := by norm_num [le_abs_self]
    _ < 2^(2 : ℤ)*2^(1024 : ℤ) := mul_lt_mul_of_pos_left (abs_toRat_lt hx) (by norm_num)
    _ = 2^(1026 : ℤ) := (zpow_add₀ (by norm_num) _ _).symm
    _ ≤ 2^(1023*2 : ℤ) := zpow_le_zpow_right₀ (by norm_num) (by norm_num)
    _ = (2^(1023 : ℤ))^2 := by rw [zpow_mul]; rfl

/-- The square of a computed square root is within a factor of 16 of what it is the root of. -/
theorem sqrt_within (hx : x.isFinite) (h : 0 ≤ toRat x) : x.sqrt.isFinite ∧ 0 ≤ toRat x.sqrt ∧
    toRat x.sqrt^2 ≤ 16*toRat x ∧ toRat x ≤ 16*toRat x.sqrt^2 := by
  obtain ⟨q,h0,hq,hl,hu⟩ := near_sqrt hx h
  have hlt := lt_of_sq_le h0 hx hl
  have hn := hq.toRat_nonneg hlt h0
  have ht := hq.abs_toRat_le hlt
  rw [abs_of_nonneg h0,abs_of_nonneg hn] at ht
  refine ⟨hq.isFinite hlt,hn,by nlinarith,?_⟩
  rcases h.eq_or_lt with h | h
  · rw [← h]
    positivity
  · -- The square of a number below all doubles is far below them, and so no double.
    have hs : smallest ≤ q := by
      have hl : smallest < 1/4 := smallest_lt.trans (by norm_num)
      by_contra hc
      nlinarith [smallest_le_toRat hx h,smallest_pos]
    have hr := hq.abs_le_toRat hlt (by rwa [abs_of_nonneg h0])
    rw [abs_of_nonneg h0,abs_of_nonneg hn] at hr
    nlinarith

end SquareRoot
end Binary64
end ExtrusionProfile
