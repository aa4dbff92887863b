import ExtrusionProfile.Proofs.Number.Bounded

/-! Computed doubles between powers of two. Every operation moves the exponents by a few, and what
is left to check of a long computation is that no exponent leaves the range of doubles. -/
namespace ExtrusionProfile
namespace Binary64

variable {x y : Float} {q : ℚ} {i j k l m : ℤ}

section Near

theorem two_mul_two_zpow (k : ℤ) : (2 : ℚ)*2^k = 2^(k+1) := by
  rw [zpow_add_one₀ (by norm_num),mul_comm]

theorem Near.bounded_zpow (hx : Near x q) (h : |q| ≤ 2^k) (hk : k ≤ 1022) (hm : k+1 ≤ m) :
    Bounded x (2^m) := by
  refine (hx.bounded_two_mul h (zpow_lt_zpow_right₀ one_lt_two (by omega))).mono ?_
  rw [two_mul_two_zpow]
  exact zpow_le_zpow_right₀ one_le_two hm

theorem Near.zpow_le_abs (hx : Near x q) (h : 2^k ≤ |q|) (hk : -1074 ≤ k) (hl : |q| ≤ 2^l)
    (hl' : l ≤ 1022) (hm : m ≤ k-1) : 2^m ≤ |toRat x| := by
  have hq := hx.abs_le_toRat (hl.trans_lt (zpow_lt_zpow_right₀ one_lt_two (by omega)))
    ((zpow_le_zpow_right₀ one_le_two hk).trans h)
  have hd : (2 : ℚ)*2^(k-1) = 2^k := by rw [two_mul_two_zpow,sub_add_cancel]
  have hm : (2 : ℚ)^m ≤ 2^(k-1) := zpow_le_zpow_right₀ one_le_two hm
  linarith

theorem exists_exponent (h : 0 < q) :
    ∃ k : ℤ, (2 : ℚ)^k ≤ q ∧ q < 2^(k+1) ∧ ∀ i : ℤ, 2^i ≤ q → i ≤ k :=
  ⟨Int.log 2 q,by exact_mod_cast Int.zpow_log_le_self (b:=2) (by decide) h,
    by exact_mod_cast Int.lt_zpow_succ_log_self (b:=2) (by decide) q,fun i hi =>
    (Int.zpow_le_iff_le_log (b:=2) (by decide) h).mp (by exact_mod_cast hi)⟩

end Near

namespace Bounded

theorem mono_zpow (hx : Bounded x (2^k)) (h : k ≤ m) : Bounded x (2^m) :=
  hx.mono (zpow_le_zpow_right₀ one_le_two h)

theorem add_zpow (hx : Bounded x (2^k)) (hy : Bounded y (2^k)) (h : k ≤ 1021) (hm : k+2 ≤ m) :
    Bounded (x+y) (2^m) := by
  refine (near_add hx.1 hy.1).bounded_zpow (k:=k+1) ((hx.sum_le hy).trans_eq ?_) (by omega)
    (by omega)
  rw [← two_mul_two_zpow,two_mul]

theorem sub_zpow (hx : Bounded x (2^k)) (hy : Bounded y (2^k)) (h : k ≤ 1021) (hm : k+2 ≤ m) :
    Bounded (x-y) (2^m) := by
  refine (near_sub hx.1 hy.1).bounded_zpow (k:=k+1) ((hx.difference_le hy).trans_eq ?_) (by omega)
    (by omega)
  rw [← two_mul_two_zpow,two_mul]

theorem product_zpow_le (hx : Bounded x (2^k)) (hy : Bounded y (2^l)) :
    |toRat x*toRat y| ≤ 2^(k+l) := by
  rw [zpow_add₀ (by norm_num)]
  exact hx.product_le hy

theorem quotient_zpow_le (hx : Bounded x (2^k)) (hl : 2^l ≤ |toRat y|) :
    |toRat x/toRat y| ≤ 2^(k-l) := by
  rw [zpow_sub₀ (by norm_num)]
  exact hx.quotient_le (zpow_pos two_pos l) hl

theorem mul_zpow (hx : Bounded x (2^k)) (hy : Bounded y (2^l)) (h : k+l ≤ 1022) (hm : k+l+1 ≤ m) :
    Bounded (x*y) (2^m) :=
  (near_mul hx.1 hy.1).bounded_zpow (hx.product_zpow_le hy) h hm

theorem div_zpow (hx : Bounded x (2^k)) (hy : y.isFinite) (hl : 2^l ≤ |toRat y|) (h : k-l ≤ 1022)
    (hm : k-l+1 ≤ m) : Bounded (x/y) (2^m) :=
  (near_div hx.1 hy (abs_pos.mp ((zpow_pos two_pos l).trans_le hl))).bounded_zpow
    (hx.quotient_zpow_le hl) h hm

theorem sqrt_zpow (hx : Bounded x (2^k)) (h0 : 0 ≤ toRat x) (hm : k+4 ≤ 2*m) :
    Bounded x.sqrt (2^m) := by
  obtain ⟨hf,hn,hu,-⟩ := sqrt_within hx.1 h0
  refine ⟨hf,?_⟩
  rw [abs_of_nonneg hn]
  refine (pow_le_pow_iff_left₀ hn (zpow_pos two_pos m).le two_ne_zero).mp (hu.trans ?_)
  calc 16*toRat x ≤ 2^(4 : ℤ)*2^k := by
        have hx := (le_abs_self _).trans hx.le
        norm_num
        exact hx
    _ = 2^(4+k) := (zpow_add₀ (by norm_num) _ _).symm
    _ ≤ 2^(m*2) := zpow_le_zpow_right₀ one_le_two (by omega)
    _ = (2^m)^2 := by rw [zpow_mul]; rfl

end Bounded

theorem two_zpow_le_sqrt (hx : x.isFinite) (h : 2^k ≤ toRat x) (hm : 2*m+4 ≤ k) :
    2^m ≤ toRat x.sqrt := by
  obtain ⟨-,hn,-,hl⟩ := sqrt_within hx ((zpow_pos two_pos k).le.trans h)
  refine (pow_le_pow_iff_left₀ (zpow_pos two_pos m).le hn two_ne_zero).mp ?_
  have hs : (16 : ℚ)*(2^m)^2 = 2^(2*m+4) := by
    rw [zpow_add₀ (by norm_num),mul_comm (2 : ℤ),zpow_mul]
    norm_num
    ring
  have hm : (2 : ℚ)^(2*m+4) ≤ 2^k := zpow_le_zpow_right₀ one_le_two hm
  linarith

/-- A finite double whose magnitude is between two powers of two. -/
structure Between (x : Float) (i k : ℤ) : Prop extends Bounded x (2^k) where
  ge : 2^i ≤ |toRat x|

namespace Between

theorem mono (hx : Between x i k) (hj : j ≤ i) (hm : k ≤ m) : Between x j m :=
  ⟨hx.mono_zpow hm,(zpow_le_zpow_right₀ one_le_two hj).trans hx.ge⟩

theorem mul (hx : Between x i k) (hy : Between y j l) (h : -1074 ≤ i+j) (h' : k+l ≤ 1022)
    {n : ℤ} (hi : n+1 ≤ i+j) (hm : k+l+1 ≤ m) : Between (x*y) n m := by
  refine ⟨hx.mul_zpow hy.toBounded h' hm,?_⟩
  refine (near_mul hx.isFinite hy.isFinite).zpow_le_abs (k:=i+j) ?_ h
    (hx.product_zpow_le hy.toBounded) h' (by omega)
  rw [abs_mul,zpow_add₀ (by norm_num)]
  exact mul_le_mul hx.ge hy.ge (zpow_pos two_pos j).le (abs_nonneg _)

theorem div (hx : Between x i k) (hy : Between y j l) (h : -1074 ≤ i-l) (h' : k-j ≤ 1022)
    {n : ℤ} (hi : n+1 ≤ i-l) (hm : k-j+1 ≤ m) : Between (x/y) n m := by
  refine ⟨hx.div_zpow hy.isFinite hy.ge h' hm,?_⟩
  have hy0 : 0 < |toRat y| := (zpow_pos two_pos j).trans_le hy.ge
  refine (near_div hx.isFinite hy.isFinite (abs_pos.mp hy0)).zpow_le_abs (k:=i-l) ?_ h
    (hx.quotient_zpow_le hy.ge) h' (by omega)
  rw [abs_div,zpow_sub₀ (by norm_num)]
  exact div_le_div₀ (abs_nonneg _) hx.ge hy0 hy.le

theorem exists_of_ne_zero (hx : x.isFinite) (h : toRat x ≠ 0) : ∃ k, Between x k (k+1) := by
  obtain ⟨k,hl,hu,-⟩ := exists_exponent (abs_pos.mpr h)
  exact ⟨k,⟨hx,hu.le⟩,hl⟩

end Between

section Sign

theorem toRat_mul_nonneg (hx : x.isFinite) (hy : y.isFinite) (h0 : 0 ≤ toRat x)
    (h0' : 0 ≤ toRat y) : 0 ≤ toRat (x*y) :=
  ((near_mul hx hy).nonNeg (mul_nonneg h0 h0')).toRat_nonneg

theorem toRat_mul_self_nonneg (hx : x.isFinite) : 0 ≤ toRat (x*x) :=
  ((near_mul hx hx).nonNeg (mul_self_nonneg _)).toRat_nonneg

theorem toRat_div_nonneg (hx : x.isFinite) (hy : y.isFinite) (h : 0 < toRat y) (h0 : 0 ≤ toRat x) :
    0 ≤ toRat (x/y) :=
  ((near_div hx hy h.ne').nonNeg (div_nonneg h0 h.le)).toRat_nonneg

theorem toRat_add_nonneg (hx : x.isFinite) (hy : y.isFinite) (h0 : 0 ≤ toRat x)
    (h0' : 0 ≤ toRat y) : 0 ≤ toRat (x+y) :=
  ((near_add hx hy).nonNeg (add_nonneg h0 h0')).toRat_nonneg

/-- A sum of numbers that are not negative is not much below either. -/
theorem toRat_add_ge (hx : Bounded x (2^l)) (hy : Bounded y (2^l)) (h0 : 0 ≤ toRat x)
    (h0' : 0 ≤ toRat y) (h : 2^k ≤ toRat x ∨ 2^k ≤ toRat y) (hk : -1074 ≤ k) (hl : l ≤ 1021)
    (hm : m ≤ k-1) : 2^m ≤ toRat (x+y) := by
  have hs : 2^k ≤ |toRat x+toRat y| := by
    rw [abs_of_nonneg (add_nonneg h0 h0')]
    rcases h with h | h <;> linarith
  have hu : |toRat x+toRat y| ≤ 2^(l+1) :=
    (hx.sum_le hy).trans_eq (by rw [← two_mul,two_mul_two_zpow])
  have h := (near_add hx.isFinite hy.isFinite).zpow_le_abs hs hk hu (by omega) hm
  rwa [abs_of_nonneg (toRat_add_nonneg hx.isFinite hy.isFinite h0 h0')] at h

end Sign

end Binary64
end ExtrusionProfile
