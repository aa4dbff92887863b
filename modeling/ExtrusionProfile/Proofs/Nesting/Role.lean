import ExtrusionProfile.Nesting.Resolve
import ExtrusionProfile.Proofs.Number.Bounded
import ExtrusionProfile.Proofs.Number.Difference

/-! The role of a level that is given as a double. A remainder by two is zero for the even integers only,
so such a level fills when it is an even integer, as levels that are counted do. -/
namespace ExtrusionProfile
namespace Binary64

variable {x : Float}

theorem abs_toRat_even_iff : (∃ k : ℤ, toRat x = 2*k) ↔ ∃ k : ℕ, |toRat x| = 2*k := by
  constructor
  · rintro ⟨k,hk⟩
    exact ⟨k.natAbs,by rw [hk,abs_mul,Nat.cast_natAbs,Int.cast_abs,abs_two]⟩
  · rintro ⟨k,hk⟩
    rcases abs_choice (toRat x) with h | h
    · exact ⟨k,by rw [← h,hk,Int.cast_natCast]⟩
    · exact ⟨-k,by rw [Int.cast_neg,Int.cast_natCast,mul_neg,← hk,h,neg_neg]⟩

theorem even_iff_of_lt (h : |toRat x| < 2) : (∃ k : ℕ, |toRat x| = 2*k) ↔ toRat x = 0 := by
  constructor
  · rintro ⟨k,hk⟩
    rw [hk] at h
    have hk1 : k < 1 := by
      have : (k : ℚ) < 1 := by linarith
      exact_mod_cast this
    rw [Nat.lt_one_iff.mp hk1,Nat.cast_zero,mul_zero] at hk
    exact abs_eq_zero.mp hk
  · intro h0
    exact ⟨0,by simp [h0]⟩

theorem even_iff_of_exponent_nonneg (hx : x.isFinite) (he : 0 ≤ exponent x) :
    (∃ k : ℕ, |toRat x| = 2*k) ↔ (significand x<<<(exponent x).toNat)%2 = 0 := by
  obtain ⟨n,hn⟩ := Int.eq_ofNat_of_zero_le he
  have hv : |toRat x| = ((significand x<<<(exponent x).toNat : ℕ) : ℚ) := by
    rw [abs_toRat_eq hx,hn,Int.toNat_natCast,Nat.shiftLeft_eq,zpow_natCast]
    push_cast
    rfl
  rw [hv,← Nat.dvd_iff_mod_eq_zero]
  constructor
  · rintro ⟨k,hk⟩
    exact ⟨k,by exact_mod_cast hk⟩
  · rintro ⟨k,hk⟩
    exact ⟨k,by exact_mod_cast hk⟩

theorem even_iff_of_exponent_neg (hx : x.isFinite) {j : ℕ} (he : exponent x = -j) :
    (∃ k : ℕ, |toRat x| = 2*k) ↔ significand x%(2*2^j) = 0 := by
  have hp : (2 : ℚ)^j ≠ 0 := by positivity
  have hv (k : ℕ) : |toRat x| = 2*k ↔ significand x = 2*2^j*k := by
    rw [abs_toRat_eq hx,he,zpow_neg,zpow_natCast,← div_eq_mul_inv,div_eq_iff hp,
      mul_right_comm]
    exact_mod_cast Iff.rfl
  simp only [hv]
  exact Nat.dvd_iff_mod_eq_zero

theorem quotient_pos {m d : ℕ} (hm0 : 0 < m) (hd0 : 0 < d) (hm : m ≤ 2^53) (hd : d ≤ 2^52) :
    (Float.ofNat m/Float.ofNat d).isFinite ∧ 0 < toRat (Float.ofNat m/Float.ofNat d) := by
  have hmq : (m : ℚ) ≤ 2^53 := by exact_mod_cast hm
  have hdq : (d : ℚ) ≤ 2^52 := by exact_mod_cast hd
  have hm1 : (1 : ℚ) ≤ m := by exact_mod_cast hm0
  have hd1 : (1 : ℚ) ≤ d := by exact_mod_cast hd0
  have hml := lt_of_le_moderate (q:=m) (by linarith)
  have hdl := lt_of_le_moderate (q:=d) (by linarith)
  have hbm := Bounded.natural_two_mul hml
  have hbd := Bounded.natural_two_mul hdl
  have hlm := le_two_mul_natural hm0 hml
  have hld := le_two_mul_natural hd0 hdl
  have hum := (le_abs_self _).trans hbm.le
  have hud := (le_abs_self _).trans hbd.le
  have hn := near_div hbm.isFinite hbd.isFinite (by linarith)
  have hl : 1/2^60 ≤ toRat (Float.ofNat m)/toRat (Float.ofNat d) := by
    rw [le_div_iff₀ (by linarith)]
    linarith
  have hu : toRat (Float.ofNat m)/toRat (Float.ofNat d) ≤ 2^200 := by
    rw [div_le_iff₀ (by linarith)]
    linarith
  have h2 := hn.le_two_mul (smallest_lt.le.trans hl) (lt_of_le_moderate hu)
  exact ⟨hn.isFinite (by rw [abs_of_nonneg (by linarith)]; exact lt_of_le_moderate hu),by linarith⟩

theorem quotient_beq_zero_iff {m d : ℕ} (hd : 0 < d) (hd' : d ≤ 2^52) (hm : m < 2*d) :
    (Float.ofNat m/Float.ofNat d).isFinite ∧ (Float.ofNat m/Float.ofNat d == 0 ↔ m = 0) := by
  rcases Nat.eq_zero_or_pos m with rfl | h0
  · have hdq : (d : ℚ) ≤ 2^52 := by exact_mod_cast hd'
    have hdl := lt_of_le_moderate (q:=d) (by linarith)
    have hd0 : (0 : ℚ) < d := Nat.cast_pos.mpr hd
    have hn := near_div (x:=Float.ofNat 0) rfl (Bounded.natural_two_mul hdl).isFinite
      (by have := le_two_mul_natural hd hdl; linarith)
    rw [show toRat (Float.ofNat 0) = 0 from toRat_zero,zero_div] at hn
    have hf := hn.isFinite (by norm_num)
    rw [beq_iff_toRat hf isFinite_zero,toRat_zero,hn.toRat_eq (by norm_num)]
    exact ⟨hf,by simp⟩
  · obtain ⟨hf,hp⟩ := quotient_pos h0 hd (by omega) hd'
    rw [beq_iff_toRat hf isFinite_zero,toRat_zero]
    exact ⟨hf,iff_of_false hp.ne' h0.ne'⟩

theorem neg_beq_zero_iff (hx : x.isFinite) : -x == 0 ↔ x == 0 := by
  rw [beq_iff_toRat (isFinite_neg hx) isFinite_zero,beq_iff_toRat hx isFinite_zero,toRat_neg,toRat_zero,
    neg_eq_zero]

theorem le_of_two_le (hx : x.isFinite) (h : 2 ≤ |toRat x|) {j : ℕ} (he : exponent x = -j) :
    j ≤ 52 := by
  have hm : (significand x : ℚ) < 2^53 := by exact_mod_cast significand_lt x
  rw [abs_toRat_eq hx,he,zpow_neg,zpow_natCast,← div_eq_mul_inv,le_div_iff₀ (by positivity)] at h
  have hp : (2 : ℚ)^(j+1) < 2^53 := by
    rw [pow_succ']
    exact h.trans_lt hm
  have := (pow_lt_pow_iff_right₀ (by norm_num : (1 : ℚ) < 2)).mp hp
  omega

theorem not_sub_self_beq_zero (hx : ¬x.isFinite) : ¬(x-x == 0) := by
  have hd : (x-x).toModel.unpack = .sub .binary64 x.toModel.unpack x.toModel.unpack :=
    unpack_pack_sub fun h => hx h.1
  have hn : (x-x).isNaN = true := by
    change (x-x).toModel.unpack.isNaN = true
    rw [hd]
    change ¬x.toModel.unpack.isFinite at hx
    generalize x.toModel.unpack = u at hx ⊢
    rcases u with s | _ | s | ⟨s,m,e,hm⟩ <;> (try cases s) <;>
      first
      | rfl
      | exact absurd rfl hx
  rw [beq_iff,hn]
  simp

/-- The remainder by two is zero for even integers only. -/
theorem remainder_two_beq_zero_iff (hx : x.isFinite) :
    remainder x 2 == 0 ↔ ∃ k : ℤ, toRat x = 2*k := by
  have hm := Bounded.magnitude ⟨hx,le_rfl⟩
  have h2 : Bounded (Float.ofNat 2) 2 := ⟨rfl,(congrArg abs toRat_two).trans_le (by norm_num)⟩
  rw [abs_toRat_even_iff,remainder,hx,Bool.not_true,if_neg Bool.false_ne_true]
  by_cases hs : magnitude x < Float.ofNat 2
  · rw [if_pos hs,beq_iff_toRat hx isFinite_zero,toRat_zero]
    rw [lt_iff_toRat hm.isFinite h2.isFinite,toRat_magnitude hx] at hs
    exact (even_iff_of_lt (hs.trans_eq toRat_two)).symm
  rw [if_neg hs]
  rw [lt_iff_toRat hm.isFinite h2.isFinite,toRat_magnitude hx] at hs
  replace hs : 2 ≤ |toRat x| := toRat_two.symm.trans_le (not_lt.mp hs)
  by_cases he : 0 ≤ exponent x
  · simp only [if_pos he]
    rw [even_iff_of_exponent_nonneg hx he]
    rcases Nat.mod_two_eq_zero_or_one (significand x<<<(exponent x).toNat) with h | h <;> rw [h] <;>
      split_ifs <;> decide +kernel
  · obtain ⟨j,hj⟩ := Int.eq_ofNat_of_zero_le (by omega : 0 ≤ -exponent x)
    obtain ⟨hf,hq⟩ := quotient_beq_zero_iff (m:=significand x%(2*2^j)) (d:=2^j) (by positivity)
      (Nat.pow_le_pow_right (by norm_num) (le_of_two_le hx hs (by omega)))
      (Nat.mod_lt _ (by positivity))
    simp only [if_neg he,hj,Int.toNat_natCast,Nat.one_shiftLeft]
    rw [even_iff_of_exponent_neg hx (j:=j) (by omega),← hq]
    split_ifs
    · exact neg_beq_zero_iff hf
    · exact Iff.rfl

end Binary64

namespace Role

open Binary64

variable {x : Float}

/-- A double is the level of a fill when it is an even integer. -/
theorem ofNumber_eq_fill_iff : ofNumber x = .fill ↔ x.isFinite ∧ ∃ k : ℤ, toRat x = 2*k := by
  by_cases hx : x.isFinite
  · rw [← remainder_two_beq_zero_iff hx,and_iff_right hx,ofNumber]
    split_ifs with h <;> simp [h]
  · rw [ofNumber,remainder,Bool.eq_false_iff.mpr hx,Bool.not_false,if_pos rfl,
      if_neg (not_sub_self_beq_zero hx)]
    simp

/-- The two ways to tell a role agree on the levels that are counted. -/
theorem ofNumber_eq_ofLevel (hx : x.isFinite) {n : ℕ} (h : toRat x = n) :
    ofNumber x = ofLevel n := by
  have he : (∃ k : ℤ, toRat x = 2*k) ↔ n%2 = 0 := by
    rw [h,← Nat.dvd_iff_mod_eq_zero,← Int.natCast_dvd_natCast]
    exact exists_congr fun k => by exact_mod_cast Iff.rfl
  have hf : ofNumber x = .fill ↔ ofLevel n = .fill := by
    rw [ofNumber_eq_fill_iff,and_iff_right hx,he,ofLevel]
    split_ifs with h <;> simp [h]
  cases ho : ofNumber x <;> cases hl : ofLevel n <;> simp [ho,hl] at hf ⊢

end Role
end ExtrusionProfile
