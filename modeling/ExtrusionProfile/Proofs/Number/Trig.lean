import ExtrusionProfile.Number.Trig
import ExtrusionProfile.Proofs.Number.Bounded

/-! Sine and cosine stay within bounds. Reduction leaves less than an eighth of a turn and a small
correction, on which both polynomials are bounded and that of the cosine is far from zero. One of
sine and cosine is up to its sign the polynomial of the cosine, so the two never vanish together. -/
namespace ExtrusionProfile

namespace Binary64

open Float.Model.UnpackedFloat

variable {x : Float}

theorem wholeMagnitude_eq_floor (hx : x.isFinite) : wholeMagnitude x = ⌊|toRat x|⌋₊ := by
  rw [wholeMagnitude_eq,abs_toRat_eq hx]

section Remainder

variable {n : ℕ}

theorem bounded_wholeRest (h0 : 0 < n) (hn : (n : ℚ) ≤ 1000) (m : ℕ) :
    Bounded (Float.ofNat (m%n)) (8*n) := by
  have hm : ((m%n : ℕ) : ℚ) ≤ n := by exact_mod_cast (Nat.mod_lt m h0).le
  exact (Bounded.natural_two_mul (lt_of_le_moderate (by linarith))).mono (by linarith)

theorem bounded_quotientRest (h0 : 0 < n) (hn : (n : ℚ) ≤ 1000) (m : ℕ) {k : ℕ} (hk : k ≤ 54) :
    Bounded (Float.ofNat (m%(n*2^k))/Float.ofNat (2^k)) (8*n) := by
  have hd : (((2 : ℕ)^k : ℕ) : ℚ) ≤ 2^54 := by
    exact_mod_cast Nat.pow_le_pow_right (by norm_num) hk
  have hp : 0 < 2^k := by positivity
  have hm : ((m%(n*2^k) : ℕ) : ℚ) ≤ n*((2 : ℕ)^k : ℕ) := by
    exact_mod_cast (Nat.mod_lt m (Nat.mul_pos h0 hp)).le
  generalize 2^k = d at hd hp hm ⊢
  generalize m%(n*d) = r at hm ⊢
  have hr : Bounded (Float.ofNat r) (2*(n*d)) :=
    (Bounded.natural_two_mul (lt_of_le_moderate (by nlinarith))).mono (by linarith)
  have hq := le_two_mul_natural hp (lt_of_le_moderate (by linarith))
  have hp : (0 : ℚ) < d := Nat.cast_pos.mpr hp
  have hv : 2*(n*d)/(d/2) = 4*(n : ℚ) := by
    field_simp
    ring
  have hy := (Bounded.natural_two_mul (n:=d) (lt_of_le_moderate (by linarith))).isFinite
  refine (hr.div_two_mul (c:=d/2) hy (half_pos hp) ?_ ?_).mono ?_
  · linarith [le_abs_self (toRat (Float.ofNat d))]
  · rw [hv]
    exact lt_of_le_moderate (by linarith)
  · linarith

theorem neg_exponent_le (hx : x.isFinite) (h : 1/2 ≤ |toRat x|) : -exponent x ≤ 54 := by
  rw [abs_toRat_eq hx] at h
  by_contra hc
  have he : (2 : ℚ)^exponent x ≤ 2^(-55 : ℤ) := zpow_le_zpow_right₀ (by norm_num) (by omega)
  have hm : (significand x : ℚ) < 2^(53 : ℤ) := by exact_mod_cast significand_lt x
  have hq := mul_lt_mul hm he (zpow_pos (by norm_num) _) (by positivity)
  norm_num at hq
  linarith

theorem bounded_remainder (hx : x.isFinite) (h0 : 0 < n) (hn : (n : ℚ) ≤ 1000) :
    Bounded (remainder x n) (8*n) := by
  have h1 : (1 : ℚ) ≤ n := by exact_mod_cast h0
  have hlt := lt_of_le_moderate (q:=n) (by linarith)
  have hb := Bounded.natural_two_mul hlt
  have hm := Bounded.magnitude ⟨hx,le_rfl⟩
  have hlow := le_two_mul_natural h0 hlt
  unfold remainder
  rw [hx,Bool.not_true,if_neg Bool.false_ne_true]
  by_cases hs : magnitude x < Float.ofNat n
  · rw [if_pos hs]
    rw [lt_iff_toRat hm.isFinite hb.isFinite,toRat_magnitude hx] at hs
    exact ⟨hx,by linarith [(le_abs_self _).trans hb.le]⟩
  rw [if_neg hs]
  rw [lt_iff_toRat hm.isFinite hb.isFinite,toRat_magnitude hx] at hs
  have hr : Bounded (if 0 ≤ exponent x then
      Float.ofNat ((significand x<<<(exponent x).toNat)%n) else
      Float.ofNat (significand x%(n*1<<<(-exponent x).toNat))/Float.ofNat (1<<<(-exponent x).toNat))
      (8*n) := by
    split_ifs
    · exact bounded_wholeRest h0 hn _
    · rw [Nat.one_shiftLeft]
      have hk := neg_exponent_le hx (by linarith)
      exact bounded_quotientRest h0 hn _ (by omega)
  exact hr.signed _

end Remainder

end Binary64

namespace Trig

open Binary64 Float.Model.UnpackedFloat

section Reduction

/-- What reduction leaves of an angle. -/
structure Reduced.Small (r : Reduced) : Prop where
  angle : Bounded r.angle (4/5)
  correction : Bounded r.correction (3*slack)

variable {x : Float}

theorem abs_mul_sub_mul_le {a b c d e : ℚ} (ha : |a| ≤ d) (h : |b-c| ≤ e) :
    |a*b-a*c| ≤ d*e := by
  rw [← mul_sub,abs_mul]
  exact mul_le_mul ha h (abs_nonneg _) ((abs_nonneg _).trans ha)

theorem bounded_half : Bounded 0.5 (501/1000) := .literal (by norm_num [slack])

theorem half_close : |toRat 0.5-1/2| ≤ slack := by
  have h := Bounded.literal_close (n:=5) (s:=true) (k:=1) (by norm_num)
  norm_num at h ⊢
  exact h

/-- The whole number of quarter turns in an angle is off by half of one. -/
theorem quarters_close (hx : Bounded x (2^16)) (h0 : 0 ≤ toRat x) :
    |toRat x*0.636619772367581382433-wholeMagnitude (x*0.636619772367581382433+0.5)| ≤
      1/2+1/2^18 := by
  have hc : Bounded 0.636619772367581382433 (7/10) := .literal (by norm_num [slack])
  have hm : Bounded (x*0.636619772367581382433) 50000 := hx.mul hc (by norm_num [slack])
  have hv : Bounded (x*0.636619772367581382433+0.5) 60000 :=
    hm.add bounded_half (by norm_num [slack])
  have h₁ := abs_mul_sub_mul_le hx.le
    (Bounded.literal_close (n:=636619772367581382433) (s:=true) (k:=21) (by norm_num))
  have h₂ := half_close
  have h₃ := hx.mul_close hc (by norm_num)
  have h₄ := hm.add_close bounded_half (by norm_num)
  norm_num [slack] at h₁
  rw [slack] at h₂ h₃ h₄
  rw [abs_le] at h₁ h₂ h₃ h₄
  have hn : 0 ≤ toRat (x*0.636619772367581382433+0.5) := by linarith
  have hl := Nat.floor_le hn
  have hu := Nat.lt_floor_add_one (toRat (x*0.636619772367581382433+0.5))
  rw [wholeMagnitude_eq_floor hv.isFinite,abs_of_nonneg hn,abs_le]
  constructor <;> linarith

variable {n : ℕ}

theorem bounded_firstPiece (hx : Bounded x (2^16)) (hn : (n : ℚ) ≤ 50000)
    (h : |toRat x*0.636619772367581382433-n| ≤ 1/2+1/2^18) :
    Bounded (x-Float.ofNat n*1.57079632673412561417) (79/100) := by
  have hp : Bounded 1.57079632673412561417 (8/5) := .literal (by norm_num [slack])
  have hk : Bounded (Float.ofNat n) 50001 := .natural n ⟨by norm_num [slack]; linarith,by norm_num⟩
  have hm : Bounded (Float.ofNat n*1.57079632673412561417) 90000 := hk.mul hp (by norm_num [slack])
  have h₁ := abs_mul_sub_mul_le hk.le
    (Bounded.literal_close (n:=157079632673412561417) (s:=true) (k:=20) (by norm_num))
  have h₂ := Bounded.natural_close n (by linarith)
  have h₃ := hk.mul_close hp (by norm_num)
  have hd : |toRat x-toRat (Float.ofNat n*1.57079632673412561417)| ≤ 789/1000 := by
    have hx := hx.le
    norm_num [slack] at h₁
    rw [slack] at h₂ h₃
    rw [abs_le] at hx h h₁ h₂ h₃ ⊢
    constructor <;> linarith
  refine (near_sub hx.isFinite hm.isFinite).bounded ?_ (by norm_num)
  norm_num [slack]
  linarith

theorem bounded_piece (hn : (n : ℚ) ≤ 50000) {m k : ℕ} (h : 0 < m ∧ (m*10^(-k : ℤ) : ℚ) ≤ 1/2^31) :
    Bounded (Float.ofNat n*OfScientific.ofScientific m true k) (1/2000) := by
  have hk : Bounded (Float.ofNat n) 50001 := .natural n ⟨by norm_num [slack]; linarith,by norm_num⟩
  have hc : Bounded (OfScientific.ofScientific m true k) (1/2^30) :=
    .literal ⟨h.1,by norm_num [slack] at h ⊢; linarith,by norm_num⟩
  exact hk.mul hc (by norm_num [slack])

theorem small_subtractQuarters (hx : Bounded x (2^16)) (hn : (n : ℚ) ≤ 50000)
    (h : |toRat x*0.636619772367581382433-n| ≤ 1/2+1/2^18) : (subtractQuarters x n).Small := by
  have hr := bounded_firstPiece hx hn h
  have hw₁ : Bounded (Float.ofNat n*6.07710050650619224932e-11) (1/2000) :=
    bounded_piece hn (by norm_num)
  have hw₂ : Bounded (Float.ofNat n*6.07710050630396597660e-11) (1/2000) :=
    bounded_piece hn (by norm_num)
  have hw₃ : Bounded (Float.ofNat n*2.02226624879595063154e-21) (1/2000) :=
    bounded_piece hn (by norm_num)
  have hw₄ : Bounded (Float.ofNat n*2.02226624871116645580e-21) (1/2000) :=
    bounded_piece hn (by norm_num)
  have hw₅ : Bounded (Float.ofNat n*8.47842766036889956997e-32) (1/2000) :=
    bounded_piece hn (by norm_num)
  unfold subtractQuarters
  dsimp only
  split_ifs
  · obtain ⟨hy,hc⟩ := hr.peel (d:=4/5) hw₁ (by norm_num [slack])
    exact ⟨hy,hc⟩
  · obtain ⟨hs,hl⟩ := hr.peel (d:=792/1000) hw₂ (by norm_num [slack])
    have hw := hw₃.sub (d:=1/1000) hl (by norm_num [slack])
    obtain ⟨hy,hc⟩ := hs.peel (d:=4/5) hw (by norm_num [slack])
    exact ⟨hy,hc⟩
  · obtain ⟨hs,-⟩ := hr.peel (d:=792/1000) hw₂ (by norm_num [slack])
    obtain ⟨ht,hl⟩ := hs.peel (d:=794/1000) hw₄ (by norm_num [slack])
    have hw := hw₅.sub (d:=1/1000) hl (by norm_num [slack])
    obtain ⟨hy,hc⟩ := ht.peel (d:=4/5) hw (by norm_num [slack])
    exact ⟨hy,hc⟩

theorem small_reduce (hx : Bounded x (2^16)) : (reduce x).Small := by
  have hm : Bounded (magnitude x) (2^16) := hx.magnitude
  have h0 : 0 ≤ toRat (magnitude x) := by
    rw [toRat_magnitude hx.isFinite]
    exact abs_nonneg _
  unfold reduce
  dsimp only
  split_ifs with hs
  · have hl : Bounded 0.7853981633974483 (4/5) := .literal (by norm_num [slack])
    have hle := toRat_le hm.isFinite hl.isFinite hs
    refine ⟨⟨hm.isFinite,?_⟩,isFinite_zero,?_⟩
    · rw [abs_of_nonneg h0]
      exact (hle.trans (le_abs_self _)).trans hl.le
    · rw [toRat_zero]
      norm_num [slack]
  · have hq := quarters_close hm h0
    refine small_subtractQuarters hm ?_ hq
    have hx := hm.le
    rw [abs_of_nonneg h0] at hx
    rw [abs_le] at hq
    linarith

end Reduction

section UpperHalf

theorem unpackSign_upper (b : BitVec 64) :
    @unpackSign .binary64 (b &&& 0xffffffff00000000) = @unpackSign .binary64 b := by
  have h : @unpackSign .binary64 (b &&& 0xffffffff00000000) =
      @unpackSign .binary64 b &&& BitVec.allOnes 1 := by
    simp only [unpackSign,BitVec.extractLsb_and]
    rfl
  rw [h,BitVec.and_allOnes]

theorem unpackExponent_upper (b : BitVec 64) :
    @unpackExponent .binary64 (b &&& 0xffffffff00000000) = @unpackExponent .binary64 b := by
  have h : @unpackExponent .binary64 (b &&& 0xffffffff00000000) =
      @unpackExponent .binary64 b &&& BitVec.allOnes 11 := by
    simp only [unpackExponent,BitVec.extractLsb_and]
    rfl
  rw [h,BitVec.and_allOnes]

theorem unpackMantissa_upper (b : BitVec 64) :
    (@unpackMantissa .binary64 (b &&& 0xffffffff00000000)).toNat ≤
      (@unpackMantissa .binary64 b).toNat := by
  have h : @unpackMantissa .binary64 (b &&& 0xffffffff00000000) =
      @unpackMantissa .binary64 b &&& (0xfffff00000000 : BitVec 52) := by
    simp only [unpackMantissa,BitVec.extractLsb_and]
    rfl
  rw [h,BitVec.toNat_and]
  exact Nat.and_le_left

theorem isFinite_ofFields_iff {s : Sign} {e : BitVec 11} {m : BitVec 52} :
    (ofFields s e m).isFinite ↔ e ≠ -1#11 := by
  unfold ofFields
  split_ifs with h₁
  · exact ⟨nofun,fun h => absurd h₁ h⟩
  · exact ⟨nofun,fun h => absurd h₁ h⟩
  · exact ⟨fun _ => h₁,fun _ => rfl⟩
  · exact ⟨fun _ => h₁,fun _ => rfl⟩
  · exact ⟨fun _ => h₁,fun _ => rfl⟩

theorem exists_ratOf_ofFields (s : Sign) {e : BitVec 11} {m m' : BitVec 52} (he : e ≠ -1#11)
    (h : m'.toNat ≤ m.toNat) :
    ∃ t ∈ Set.Icc (0 : ℚ) 1, ratOf (ofFields s e m') = t*ratOf (ofFields s e m) := by
  rw [ratOf_ofFields (isFinite_ofFields_iff.mpr he),ratOf_ofFields (isFinite_ofFields_iff.mpr he)]
  have hle : (if e.toNat = 0 then m'.toNat else m'.toNat+2^52) ≤
      if e.toNat = 0 then m.toNat else m.toNat+2^52 := by
    split_ifs <;> omega
  generalize (if e.toNat = 0 then m'.toNat else m'.toNat+2^52) = k' at hle ⊢
  generalize (if e.toNat = 0 then m.toNat else m.toNat+2^52) = k at hle ⊢
  rcases Nat.eq_zero_or_pos k with rfl | hk
  · obtain rfl := Nat.le_zero.mp hle
    exact ⟨0,by simp,by simp⟩
  · have hp : (0 : ℚ) < k := Nat.cast_pos.mpr hk
    refine ⟨k'/k,⟨by positivity,(div_le_one hp).mpr (Nat.cast_le.mpr hle)⟩,?_⟩
    field_simp

variable {x : Float}

theorem unpack_upperHalf (hx : x.isFinite) : (upperHalf x).toModel.unpack =
    .unpack .binary64 (x.toBits.toBitVec &&& 0xffffffff00000000) := by
  replace hx : x.toModel.unpack.isFinite := hx
  rw [Float.Model.unpack,unpack_eq_ofFields,isFinite_ofFields_iff] at hx
  have hn : ¬@isNaNBits .binary64 (x.toBits.toBitVec &&& 0xffffffff00000000) := by
    rw [isNaNBits,decide_eq_true_iff,unpackExponent_upper]
    exact fun h => hx h.1
  exact congrArg (Float.Model.UnpackedFloat.unpack .binary64)
    ((@pack_unpack .binary64 _ (by decide)).trans (if_neg hn))

theorem exists_toRat_upperHalf (hx : x.isFinite) :
    (upperHalf x).isFinite ∧ ∃ t ∈ Set.Icc (0 : ℚ) 1, toRat (upperHalf x) = t*toRat x := by
  have hu : x.toModel.unpack = ofFields _ _ _ := unpack_eq_ofFields x.toBits.toBitVec
  have hv := (unpack_upperHalf hx).trans (unpack_eq_ofFields _)
  rw [unpackSign_upper,unpackExponent_upper] at hv
  replace hx : x.toModel.unpack.isFinite := hx
  rw [hu,isFinite_ofFields_iff] at hx
  refine ⟨(congrArg Float.Model.UnpackedFloat.isFinite hv).trans (isFinite_ofFields_iff.mpr hx),?_⟩
  rw [toRat,toRat,hu,hv]
  exact exists_ratOf_ofFields _ hx (unpackMantissa_upper _)

theorem bounded_upperHalf {b : ℚ} (hx : Bounded x b) : Bounded (upperHalf x) b := by
  obtain ⟨hf,t,⟨h0,h1⟩,ht⟩ := exists_toRat_upperHalf hx.isFinite
  refine ⟨hf,?_⟩
  rw [ht,abs_mul,abs_of_nonneg h0]
  exact (mul_le_of_le_one_left (abs_nonneg _) h1).trans hx.le

end UpperHalf

section Kernels

variable {x y : Float}

theorem bounded_step {c z p : Float} (hz : Bounded z (13/20)) (hc : Bounded c (1/600))
    (hp : Bounded p (1/200)) : Bounded (c+z*p) (1/200) :=
  hc.horner hz hp (by norm_num [slack])

theorem bounded_square (hx : Bounded x (4/5)) : Bounded (x*x) (13/20) :=
  hx.mul hx (by norm_num [slack])

theorem bounded_sineKernel (hx : Bounded x (4/5)) (hy : Bounded y (3*slack)) :
    Bounded (sineKernel x y) 2 := by
  have hz := bounded_square hx
  have hv : Bounded (x*x*x) (3/5) := hz.mul hx (by norm_num [slack])
  have hc : Bounded (-1.66666666666666324348e-01) (1/5) := .neg (.literal (by norm_num [slack]))
  have hr : Bounded (8.33333333332248946124e-03 + x*x*(-1.98412698298579493134e-04
      + x*x*(2.75573137070700676789e-06 + x*x*(-2.50507602534068634195e-08
      + x*x*1.58969099521155010221e-10)))) (1/10) := by
    refine .horner (b:=1/20) (.literal ?_) hz (bounded_step hz (.neg (.literal ?_))
      (bounded_step hz (.literal ?_) (bounded_step hz (.neg (.literal ?_)) (.literal ?_)))) ?_ <;>
    norm_num [slack]
  unfold sineKernel
  dsimp only
  split_ifs
  · have hp := hc.horner (e:=3/10) hz hr (by norm_num [slack])
    exact hx.horner hv hp (by norm_num [slack])
  · have hh : Bounded (0.5*y) (1/10) := bounded_half.mul hy (by norm_num [slack])
    have hm := hh.sub (d:=1/5) (hv.mul (d:=1/15) hr (by norm_num [slack])) (by norm_num [slack])
    have hd := (hz.mul (d:=1/5) hm (by norm_num [slack])).sub (d:=3/10) hy (by norm_num [slack])
    have he := hd.sub (d:=1/2) (hv.mul (d:=1/6) hc (by norm_num [slack])) (by norm_num [slack])
    exact hx.sub he (by norm_num [slack])

theorem bounded_cosineRest (hx : Bounded x (4/5)) : Bounded (x*x*(x*x*(4.16666666666666019037e-02
    + x*x*(-1.38888888888741095749e-03 + x*x*(2.48015872894767294178e-05
    + x*x*(-2.75573143513906633035e-07 + x*x*(2.08757232129817482790e-09
    + x*x*(-1.13596475577881948265e-11)))))))) (1/40) := by
  have hz := bounded_square hx
  have hr : Bounded (4.16666666666666019037e-02 + x*x*(-1.38888888888741095749e-03
      + x*x*(2.48015872894767294178e-05 + x*x*(-2.75573143513906633035e-07
      + x*x*(2.08757232129817482790e-09 + x*x*(-1.13596475577881948265e-11)))))) (1/20) := by
    refine .horner (b:=1/23) (.literal ?_) hz (bounded_step hz (.neg (.literal ?_))
      (bounded_step hz (.literal ?_) (bounded_step hz (.neg (.literal ?_))
      (bounded_step hz (.literal ?_) (.neg (.literal ?_)))))) ?_ <;>
    norm_num [slack]
  exact hz.mul (c:=7/200) (hz.mul hr (by norm_num [slack])) (by norm_num [slack])

variable {h t q : Float}

theorem bounded_one : Bounded 1 (11/10) := .natural 1 (by norm_num [slack])

theorem oneLess_within (hh : Bounded h (33/100)) (ht : Bounded t (3/100)) :
    Bounded (1-(h-t)) 2 ∧ 1/2 ≤ toRat (1-(h-t)) := by
  have hd := hh.sub (d:=37/100) ht (by norm_num [slack])
  have h₁ := toRat_one
  have h₂ := bounded_one.sub_close hd (by norm_num)
  have h₃ := hd.le
  refine ⟨bounded_one.sub hd (by norm_num [slack]),?_⟩
  rw [slack] at h₂
  rw [abs_le] at h₂ h₃
  linarith

theorem oneLess_cancelled_within (hq : Bounded q (3/10)) (hh : Bounded h (33/100))
    (ht : Bounded t (3/100)) :
    Bounded ((1-q)-((h-q)-t)) 2 ∧ 1/2 ≤ toRat ((1-q)-((h-q)-t)) := by
  have hu := bounded_one.sub (d:=3/2) hq (by norm_num [slack])
  have hv := hh.sub (d:=16/25) hq (by norm_num [slack])
  have hw := hv.sub (d:=7/10) ht (by norm_num [slack])
  have h₁ := toRat_one
  have h₂ := bounded_one.sub_close hq (by norm_num)
  have h₃ := hh.sub_close hq (by norm_num)
  have h₄ := hv.sub_close ht (by norm_num)
  have h₅ := hu.sub_close hw (by norm_num)
  have h₆ := hh.le
  have h₇ := ht.le
  refine ⟨⟨(near_sub hu.isFinite hw.isFinite).isFinite ?_,?_⟩,?_⟩
  · exact lt_of_le_moderate ((hu.difference_le hw).trans (by norm_num))
  all_goals
    rw [slack] at h₂ h₃ h₄ h₅
    rw [abs_le] at h₂ h₃ h₄ h₅ h₆ h₇
  · rw [abs_le]
    constructor <;> linarith
  · linarith

theorem cosineKernel_within (hx : Bounded x (4/5)) (hy : Bounded y (3*slack)) :
    Bounded (cosineKernel x y) 2 ∧ 1/2 ≤ toRat (cosineKernel x y) := by
  have hh : Bounded (0.5*(x*x)) (33/100) :=
    bounded_half.mul (bounded_square hx) (by norm_num [slack])
  have ht := (bounded_cosineRest hx).sub (d:=3/100) (hx.mul (d:=1/1000) hy (by norm_num [slack]))
    (by norm_num [slack])
  unfold cosineKernel
  dsimp only
  split_ifs
  · exact oneLess_within hh ht
  · exact oneLess_cancelled_within (.literal (by norm_num [slack])) hh ht
  · refine oneLess_cancelled_within (bounded_upperHalf ?_) hh ht
    exact hx.magnitude.mul (c:=3/10) (.literal (by norm_num [slack])) (by norm_num [slack])

end Kernels

section Functions

/-- Quarter turns exchange sine and cosine, and change their signs. -/
theorem quarters_within {s k : Float} (hs : Bounded s 2) (hk : Bounded k 2) (hl : 1/2 ≤ toRat k)
    (n : ℕ) : ∃ u v, Bounded u 2 ∧ Bounded v 2 ∧ 1/4 ≤ toRat u^2+toRat v^2 ∧
      (match n with | 0 => s | 1 => k | 2 => -s | _ => -k) = u ∧
      (match n with | 0 => k | 1 => -s | 2 => -k | _ => s) = v := by
  have hp : 1/4 ≤ toRat k^2 := by nlinarith
  have hq := sq_nonneg (toRat s)
  match n with
  | 0 => exact ⟨s,k,hs,hk,by linarith,rfl,rfl⟩
  | 1 => exact ⟨k,-s,hk,hs.neg,by rw [toRat_neg,neg_sq]; linarith,rfl,rfl⟩
  | 2 => exact ⟨-s,-k,hs.neg,hk.neg,by rw [toRat_neg,toRat_neg,neg_sq,neg_sq]; linarith,rfl,rfl⟩
  | n+3 => exact ⟨-k,s,hk.neg,hs,by rw [toRat_neg,neg_sq]; linarith,rfl,rfl⟩

/-- Sine and cosine are bounded, and never both near zero. -/
theorem sin_cos_within {x : Float} (hx : Bounded x (2^16)) : Bounded (sin x) 2 ∧ Bounded (cos x) 2 ∧
    1/4 ≤ toRat (sin x)^2+toRat (cos x)^2 := by
  obtain ⟨ha,hc⟩ := small_reduce hx
  obtain ⟨hk,hl⟩ := cosineKernel_within ha hc
  obtain ⟨u,v,hu,hv,h,hs,hc⟩ :=
    quarters_within (bounded_sineKernel ha hc) hk hl ((reduce x).quarters%4)
  have hn : (!x.isFinite) = false := by rw [hx.isFinite,Bool.not_true]
  have hs : sin x = if isNegative x then -u else u := by
    rw [← hs,sin,hn]
    exact if_neg Bool.false_ne_true
  have hc : cos x = v := by
    rw [← hc,cos,hn]
    exact if_neg Bool.false_ne_true
  rw [hs,hc]
  split_ifs
  · exact ⟨hu.neg,hv,by rwa [toRat_neg,neg_sq]⟩
  · exact ⟨hu,hv,h⟩

end Functions
end Trig
end ExtrusionProfile
