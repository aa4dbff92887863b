import ExtrusionProfile.Proofs.Number.Trig

/-! The arc cosine of a number in `[-1,1]` is a number within bounds. Its quotients have divisors
that stay away from zero: the polynomial below one, and twice the root of what is left to one. -/
namespace ExtrusionProfile

namespace Binary64

theorem le_one_sub_toRat {x : Float} (hx : x.isFinite) (hl : 1/4 ≤ toRat x) (h : toRat x < 1) :
    1/2^54 ≤ 1-toRat x := by
  unfold toRat at hl h ⊢
  rcases finite_cases hx with ⟨s,hx⟩ | ⟨s,m,e,hm,hx,hc,-⟩ <;> rw [hx] at hl h ⊢
  · rw [ratOf_zero] at hl
    norm_num at hl
  cases s with
  | negative =>
    rw [ratOf_negative] at hl
    linarith [magnitude_pos hm e]
  | positive =>
    rw [ratOf_positive] at hl h ⊢
    have hp : (0 : ℚ) < 2^e := zpow_pos (by norm_num) _
    have hlow : -54 ≤ e := by
      by_contra hn
      have he : (2 : ℚ)^e ≤ 2^(-55 : ℤ) := zpow_le_zpow_right₀ (by norm_num) (by omega)
      have hm : (m : ℚ) < 2^(53 : ℤ) := by exact_mod_cast hc.lt
      have hq : (m*2^e : ℚ) < 2^(53 : ℤ)*2^(-55 : ℤ) := mul_lt_mul hm he hp (by positivity)
      norm_num at hq
      linarith
    have hhigh : e < 0 := by
      by_contra hn
      have he : (1 : ℚ) ≤ 2^e := one_le_zpow₀ (by norm_num) (by omega)
      have hm : (1 : ℚ) ≤ m := by exact_mod_cast hm
      nlinarith
    -- One is a whole number of steps of the grid that the number is on.
    obtain ⟨k,hk⟩ := Int.eq_ofNat_of_zero_le (Int.neg_nonneg_of_nonpos hhigh.le)
    have h1 : ((2^k : ℕ) : ℚ)*2^e = 1 := by
      rw [← neg_neg e,hk,Nat.cast_pow,Nat.cast_ofNat,← zpow_natCast,← zpow_add₀ (by norm_num)]
      simp
    have hlt : (m : ℚ)+1 ≤ (2^k : ℕ) := by
      rw [← h1] at h
      exact_mod_cast lt_of_mul_lt_mul_right h hp.le
    have he : (2 : ℚ)^(-54 : ℤ) ≤ 2^e := zpow_le_zpow_right₀ (by norm_num) hlow
    norm_num at he ⊢
    nlinarith

section Clamp

variable {x y : Float}

theorem toRat_least (hx : x.isFinite) (hy : y.isFinite) :
    toRat (least x y) = min (toRat x) (toRat y) := by
  unfold least
  simp only [isNaN_of_isFinite hx,isNaN_of_isFinite hy,Bool.false_eq_true,if_false,
    lt_iff_toRat hx hy,lt_iff_toRat hy hx]
  split_ifs with h₁ h₂
  · exact (min_eq_left h₁.le).symm
  · exact (min_eq_right h₂.le).symm
  · exact (min_eq_left (not_lt.mp h₂)).symm
  · exact (min_eq_right (not_lt.mp h₁)).symm

theorem toRat_greatest (hx : x.isFinite) (hy : y.isFinite) :
    toRat (greatest x y) = max (toRat x) (toRat y) := by
  unfold greatest
  simp only [isNaN_of_isFinite hx,isNaN_of_isFinite hy,Bool.false_eq_true,if_false,
    lt_iff_toRat hx hy,lt_iff_toRat hy hx]
  split_ifs with h₁ h₂
  · exact (max_eq_left h₁.le).symm
  · exact (max_eq_right h₂.le).symm
  · exact (max_eq_right (not_lt.mp h₁)).symm
  · exact (max_eq_left (not_lt.mp h₂)).symm

theorem bounded_clamp (hx : x.isFinite) : Bounded (least 1 (greatest (-1) x)) 1 := by
  have hn : (-1 : Float).isFinite := rfl
  have hg := isFinite_greatest hn hx
  refine ⟨isFinite_least rfl hg,?_⟩
  rw [toRat_least rfl hg,toRat_greatest hn hx,toRat_neg,toRat_one,abs_le]
  exact ⟨le_min (by norm_num) (le_max_left _ _),min_le_left _ _⟩

end Clamp

end Binary64

namespace Trig

open Binary64

section Kernel

variable {z : Float}

theorem arcDivisor_ge (hz : Bounded z (13/50)) :
    Bounded (1 + z*(-2.40339491173441421878 + z*(2.02094576023350569471
      + z*(-6.88283971605453293030e-01 + z*7.70381505559019352791e-02)))) 2 ∧
    1/5 ≤ toRat (1 + z*(-2.40339491173441421878 + z*(2.02094576023350569471
      + z*(-6.88283971605453293030e-01 + z*7.70381505559019352791e-02)))) := by
  have hp : Bounded (-2.40339491173441421878 + z*(2.02094576023350569471
      + z*(-6.88283971605453293030e-01 + z*7.70381505559019352791e-02))) (149/50) := by
    refine .horner (b:=601/250) (d:=2213/1000) (.neg (.literal ?_)) hz (.horner (b:=506/250)
      (d:=18/25) (.literal ?_) hz (.horner (b:=69/100) (d:=2/25) (.neg (.literal ?_)) hz
      (.literal ?_) ?_) ?_) ?_ <;> norm_num [slack]
  have hm := hz.mul (d:=31/40) hp (by norm_num [slack])
  have h₁ := bounded_one.add_close hm (by norm_num)
  have h₂ := hm.le
  refine ⟨bounded_one.add hm (by norm_num [slack]),?_⟩
  rw [slack,toRat_one] at h₁
  rw [abs_le] at h₁ h₂
  linarith

theorem bounded_arcKernel (hz : Bounded z (13/50)) : Bounded (arcKernel z) 1 := by
  have hp : Bounded (z*(1.66666666666666657415e-01 + z*(-3.25565818622400915405e-01
      + z*(2.01212532134862925881e-01 + z*(-4.00555345006794114027e-02
      + z*(7.91534994289814532176e-04 + z*3.47933107596021167570e-05)))))) (3/20) := by
    refine .mul (c:=1/2) hz (.horner (b:=1/3) (d:=1/2) (.literal ?_) hz (.horner (b:=1/3) (d:=1/2)
      (.neg (.literal ?_)) hz (.horner (b:=1/3) (d:=1/2) (.literal ?_) hz (.horner (b:=1/3) (d:=1/2)
      (.neg (.literal ?_)) hz (.horner (b:=1/3) (d:=1/2) (.literal ?_) hz (.literal ?_) ?_) ?_) ?_)
      ?_) ?_) ?_ <;> norm_num [slack]
  obtain ⟨hq,hl⟩ := arcDivisor_ge hz
  exact hp.div hq.isFinite (c:=1/5) (by norm_num) (hl.trans (le_abs_self _)) (by norm_num [slack])

end Kernel

section Root

variable {z : Float} {b : ℚ}

theorem bounded_sqrt (hz : z.isFinite) (h0 : 0 ≤ toRat z) (hb : 0 ≤ b) (h : 16*toRat z ≤ b^2) :
    Bounded z.sqrt b := by
  obtain ⟨hf,hn,hu,-⟩ := sqrt_within hz h0
  refine ⟨hf,?_⟩
  rw [abs_of_nonneg hn]
  exact (pow_le_pow_iff_left₀ hn hb two_ne_zero).mp (hu.trans h)

/-- The correction to the upper half of a root is bounded, for it is a part of the root. -/
theorem bounded_rootRest (hz : z.isFinite) (hl : 1/2^60 ≤ toRat z) (hu : toRat z ≤ 13/50) :
    Bounded ((z-upperHalf z.sqrt*upperHalf z.sqrt)/(z.sqrt+upperHalf z.sqrt)) 305 := by
  have h0 : 0 ≤ toRat z := hl.trans' (by norm_num)
  obtain ⟨hf,hn,hq,hq'⟩ := sqrt_within hz h0
  obtain ⟨hd,t,⟨ht,ht'⟩,he⟩ := exists_toRat_upperHalf hf
  generalize upperHalf z.sqrt = d at *
  generalize z.sqrt = s at *
  set r := toRat s with hr
  have hlow : 1/2^32 ≤ r := by
    by_contra hc
    norm_num at hl hc
    nlinarith
  have hhigh : r ≤ 21/10 := by nlinarith
  have hs : Bounded s r := ⟨hf,(abs_of_nonneg hn).le⟩
  have hd : Bounded d r := by
    refine ⟨hd,?_⟩
    rw [he,abs_of_nonneg (mul_nonneg ht hn)]
    exact mul_le_of_le_one_left hn ht'
  have hz : Bounded z (16*r^2) := ⟨hz,by rwa [abs_of_nonneg h0]⟩
  have hm := hd.mul_two_mul hd (lt_of_le_moderate (by nlinarith))
  have hx := hz.sub_two_mul hm (lt_of_le_moderate (by nlinarith))
  have hy := hs.add_two_mul hd (lt_of_le_moderate (by linarith))
  have hge : r ≤ 2*|toRat (s+d)| := by
    have hp : r ≤ r+toRat d := by rw [he]; nlinarith
    have hle := (near_add hf hd.isFinite).le_two_mul (by linarith [smallest_lt])
      (lt_of_le_moderate (((le_abs_self _).trans (hs.sum_le hd)).trans (by linarith)))
    linarith [le_abs_self (toRat (s+d))]
  have hq : 2*(16*r^2+2*(r*r))/(r/2) = 72*r := by
    field_simp
    ring
  refine (hx.div_two_mul hy.isFinite (c:=r/2) (by linarith) (by linarith) ?_).mono ?_ <;> rw [hq]
  · exact lt_of_le_moderate (by linarith)
  · linarith

end Root

section Values

variable {x a : Float}

theorem bounded_low : Bounded 6.12323399573676603587e-17 (1/100) := .literal (by norm_num [slack])

theorem bounded_high : Bounded 1.57079632679489655800 2 := .literal (by norm_num [slack])

theorem bounded_pi : Bounded pi 4 := .literal (by norm_num [slack])

theorem bounded_two : Bounded 2 (201/100) := .natural 2 (by norm_num [slack])

theorem half_ge : 499/1000 ≤ toRat 0.5 := by
  have h := half_close
  rw [slack,abs_le] at h
  linarith

theorem half_within (ha : a.isFinite) (h0 : 0 ≤ toRat a) (h : toRat a ≤ 511/1000) :
    (a*0.5).isFinite ∧ 0 ≤ toRat (a*0.5) ∧ toRat (a*0.5) ≤ 13/50 := by
  have hb : Bounded a (511/1000) := ⟨ha,by rwa [abs_of_nonneg h0]⟩
  have hm := hb.mul (d:=13/50) bounded_half (by norm_num [slack])
  refine ⟨hm.isFinite,?_,(le_abs_self _).trans hm.le⟩
  refine (near_mul ha bounded_half.isFinite).toRat_nonneg ?_
    (mul_nonneg h0 (half_ge.trans' (by norm_num)))
  exact lt_of_le_moderate ((hb.product_le bounded_half).trans (by norm_num))

theorem half_pos (ha : a.isFinite) (h : 1/2^55 ≤ toRat a) (hu : toRat a ≤ 1) :
    1/2^60 ≤ toRat (a*0.5) := by
  have hl := half_ge
  have hu' := (le_abs_self _).trans bounded_half.le
  have hp : 1/2^57 ≤ toRat a*toRat 0.5 := by
    norm_num at h ⊢
    nlinarith
  have hm := (near_mul ha bounded_half.isFinite).le_two_mul
    ((smallest_lt.le.trans (by norm_num)).trans hp) (lt_of_le_moderate (by nlinarith))
  norm_num at hp ⊢
  linarith

theorem bounded_arccos_middle (hx : Bounded x (501/1000)) :
    Bounded (1.57079632679489655800-(x-(6.12323399573676603587e-17-x*arcKernel (x*x)))) 4 := by
  have hk := bounded_arcKernel (hx.mul hx (by norm_num [slack]))
  have hm := bounded_low.sub (d:=3/5) (hx.mul (d:=52/100) hk (by norm_num [slack]))
    (by norm_num [slack])
  exact bounded_high.sub (c:=6/5) (hx.sub hm (by norm_num [slack])) (by norm_num [slack])

theorem bounded_arccos_negative (hx : x.isFinite) (hl : -1 ≤ toRat x) (hu : toRat x ≤ -49/100) :
    Bounded (pi-2*(Float.sqrt ((1+x)*0.5)+(arcKernel ((1+x)*0.5)*Float.sqrt ((1+x)*0.5)
      -6.12323399573676603587e-17))) (2^10) := by
  have hb : Bounded x 1 := ⟨hx,abs_le.mpr ⟨hl,by linarith⟩⟩
  have hc := bounded_one.add_close hb (by norm_num)
  rw [slack,toRat_one,abs_le] at hc
  have hn : 0 ≤ toRat (1+x) := (near_add bounded_one.isFinite hx).toRat_nonneg
    (lt_of_le_moderate ((bounded_one.sum_le hb).trans (by norm_num))) (by rw [toRat_one]; linarith)
  have ha := bounded_one.add (d:=3) hb (by norm_num [slack])
  obtain ⟨hf,h0,h⟩ := half_within ha.isFinite hn (by linarith)
  have hs := bounded_sqrt (b:=3) hf h0 (by norm_num) (by linarith)
  have hk := bounded_arcKernel ⟨hf,by rwa [abs_of_nonneg h0]⟩
  have hw := (hk.mul (d:=4) hs (by norm_num [slack])).sub (d:=5) bounded_low (by norm_num [slack])
  have hm := bounded_two.mul (d:=30) (hs.add (d:=9) hw (by norm_num [slack])) (by norm_num [slack])
  exact bounded_pi.sub hm (by norm_num [slack])

theorem bounded_arccos_positive (hx : x.isFinite) (hl : 49/100 ≤ toRat x) (hu : toRat x < 1) :
    Bounded (2*(upperHalf (Float.sqrt ((1-x)*0.5))+(arcKernel ((1-x)*0.5)*Float.sqrt ((1-x)*0.5)
      +((1-x)*0.5-upperHalf (Float.sqrt ((1-x)*0.5))*upperHalf (Float.sqrt ((1-x)*0.5)))/
        (Float.sqrt ((1-x)*0.5)+upperHalf (Float.sqrt ((1-x)*0.5)))))) (2^10) := by
  have hb : Bounded x 1 := ⟨hx,abs_le.mpr ⟨by linarith,hu.le⟩⟩
  have hc := bounded_one.sub_close hb (by norm_num)
  have hg := le_one_sub_toRat hx (by linarith) hu
  have hp := (near_sub bounded_one.isFinite hx).le_two_mul
  rw [slack,toRat_one,abs_le] at hc
  rw [toRat_one] at hp
  replace hp := hp ((smallest_lt.le.trans (by norm_num)).trans hg) (lt_of_le_moderate (by linarith))
  have ha := bounded_one.sub (d:=3) hb (by norm_num [slack])
  have hpos := half_pos ha.isFinite (by norm_num at hg ⊢; linarith) (by linarith)
  obtain ⟨hf,h0,h⟩ := half_within ha.isFinite (by linarith) (by linarith)
  have hs := bounded_sqrt (b:=3) hf h0 (by norm_num) (by linarith)
  have hk := bounded_arcKernel ⟨hf,by rwa [abs_of_nonneg h0]⟩
  have hr := bounded_rootRest hf hpos h
  have hw := (hk.mul (d:=4) hs (by norm_num [slack])).add (d:=310) hr (by norm_num [slack])
  exact bounded_two.mul ((bounded_upperHalf hs).add (d:=315) hw (by norm_num [slack]))
    (by norm_num [slack])

/-- The arc cosine of a number in `[-1,1]` is a moderate number. -/
theorem bounded_arccos (hx : Bounded x 1) : Bounded (arccos x) (2^10) := by
  have hm := hx.magnitude.isFinite
  have hl := half_ge
  have hu := (le_abs_self _).trans bounded_half.le
  obtain ⟨hn,hp⟩ := abs_le.mp hx.le
  unfold arccos
  dsimp only
  simp only [beq_iff_toRat hx.isFinite bounded_one.isFinite,toRat_one,
    beq_iff_toRat hx.isFinite bounded_one.neg.isFinite,toRat_neg,
    lt_iff_toRat hm bounded_one.isFinite,lt_iff_toRat hm bounded_half.isFinite,
    lt_iff_toRat hx.isFinite isFinite_zero,toRat_zero,toRat_magnitude hx.isFinite]
  split_ifs with h1 hn1 hout hmid htiny hneg
  · exact ⟨rfl,by norm_num⟩
  · have hm := bounded_two.mul (d:=1) bounded_low (by norm_num [slack])
    exact bounded_pi.add hm (by norm_num [slack])
  · rw [Bool.not_eq_true',decide_eq_false_iff_not,abs_lt,not_and_or,not_lt,not_lt] at hout
    rcases hout with hout | hout
    · exact absurd (le_antisymm hout hn) hn1
    · exact absurd (le_antisymm hp hout) h1
  · exact bounded_high.add bounded_low (by norm_num [slack])
  · exact (bounded_arccos_middle ⟨hx.isFinite,by linarith⟩).mono (by norm_num)
  · rw [abs_of_neg hneg] at hmid
    exact bounded_arccos_negative hx.isFinite hn (by linarith)
  · rw [abs_of_nonneg (not_lt.mp hneg)] at hmid
    exact bounded_arccos_positive hx.isFinite (by linarith) (hp.lt_of_ne h1)

end Values
end Trig
end ExtrusionProfile
