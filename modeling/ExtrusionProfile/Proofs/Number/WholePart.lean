import ExtrusionProfile.Plane.Basic
import ExtrusionProfile.Proofs.Number.Arithmetic

/-! The fields of a double. Its sign, exponent and significand, as they are read off its bits, make
up the rational that it is. So shifts take its whole part, and a setting counts as the whole part of
its rational, or as one. -/
namespace ExtrusionProfile
namespace Binary64

open Float.Model Float.Model.UnpackedFloat

section Fields

theorem toNat_and_mask (a : UInt64) {m : UInt64} {n : ℕ} (hm : m.toNat = 2^n-1) :
    (a &&& m).toNat = a.toNat%2^n := by
  rw [UInt64.toNat_and,hm,Nat.and_two_pow_sub_one_eq_mod]

variable (x : Float)

theorem biasedExponent_eq :
    biasedExponent x = (@unpackExponent .binary64 x.toBits.toBitVec).toNat := by
  have h : (@unpackExponent .binary64 x.toBits.toBitVec).toNat = x.toBits.toNat>>>52%2^11 := by
    simp [unpackExponent,BitVec.extractLsb_toNat]
  rw [h,biasedExponent,toNat_and_mask (n:=11) _ rfl]
  rfl

theorem fraction_eq : fraction x = (@unpackMantissa .binary64 x.toBits.toBitVec).toNat := by
  have h : (@unpackMantissa .binary64 x.toBits.toBitVec).toNat = x.toBits.toNat%2^52 := by
    simp [unpackMantissa,BitVec.extractLsb_toNat]
  rw [h,fraction,toNat_and_mask (n:=52) _ rfl]

theorem ofBitVec_unpackSign : Sign.ofBitVec (@unpackSign .binary64 x.toBits.toBitVec) =
    if isNegative x then .negative else .positive := by
  have hs : (@unpackSign .binary64 x.toBits.toBitVec).toNat = (x.toBits>>>63).toNat := by
    have hl := x.toBits.toNat_lt
    have hr : (x.toBits>>>63).toNat = x.toBits.toNat>>>63 := UInt64.toNat_shiftRight _ _
    rw [hr]
    simp only [unpackSign,BitVec.toNat_cast,BitVec.extractLsb_toNat]
    refine Nat.mod_eq_of_lt ?_
    change x.toBits.toNat>>>63 < 2
    rw [Nat.shiftRight_eq_div_pow]
    omega
  have hb := (@unpackSign .binary64 x.toBits.toBitVec).isLt
  have hz : @unpackSign .binary64 x.toBits.toBitVec = 0#1 ↔ (x.toBits>>>63).toNat = 0 := by
    rw [← BitVec.toNat_inj,hs]
    rfl
  have ho : isNegative x ↔ (x.toBits>>>63).toNat = 1 := by
    rw [isNegative,beq_iff_eq,← UInt64.toNat_inj]
    rfl
  rw [hs] at hb
  rw [Sign.ofBitVec]
  by_cases hn : isNegative x
  · rw [if_pos hn,if_neg (by rw [hz]; have := ho.mp hn; omega)]
  · rw [if_neg hn,if_pos (by rw [hz]; have := mt ho.mpr hn; omega)]

theorem ratOf_ofFields {s : Sign} {e : BitVec 11} {m : BitVec 52} (h : (ofFields s e m).isFinite) :
    ratOf (ofFields s e m) = s.apply 1*
      ((if e.toNat = 0 then m.toNat else m.toNat+2^52 : ℕ)*
        2^(if e.toNat = 0 then -1074 else e.toNat-1075 : ℤ)) := by
  have he : e.toNat = 0 ↔ e = 0#11 := BitVec.toNat_inj (y:=0#11)
  simp only [he]
  by_cases h₁ : e = -1#11
  · rw [ofFields,if_pos h₁] at h
    split_ifs at h <;> cases h
  · rw [ofFields,if_neg h₁]
    by_cases h₂ : e = 0#11
    · simp only [if_pos h₂]
      split_ifs with hm
      · simp [hm]
      · exact ratOf_eq s _ _
    · simp only [if_neg h₂,ratOf_eq,Nat.add_comm]

theorem toRat_eq (hx : x.isFinite) : toRat x =
    (if isNegative x then .negative else .positive : Sign).apply 1*(significand x*2^exponent x) := by
  have hu : x.toModel.unpack = ofFields _ _ _ := unpack_eq_ofFields x.toBits.toBitVec
  replace hx : x.toModel.unpack.isFinite := hx
  rw [hu] at hx
  rw [toRat,hu,ratOf_ofFields hx,ofBitVec_unpackSign,significand,exponent,biasedExponent_eq,fraction_eq]
  rfl

variable {x} in
theorem abs_toRat_eq (hx : x.isFinite) : |toRat x| = significand x*2^exponent x := by
  have hp : (0 : ℚ) ≤ significand x*2^exponent x := by positivity
  rw [toRat_eq x hx]
  split_ifs <;> simp [Sign.apply,abs_of_nonneg hp]

theorem significand_lt : significand x < 2^53 := by
  have hf : fraction x < 2^52 := (fraction_eq x).trans_lt (BitVec.isLt _)
  unfold significand
  split_ifs <;> omega

end Fields

variable (x : Float)

theorem wholeMagnitude_eq : wholeMagnitude x = ⌊(significand x*2^exponent x : ℚ)⌋₊ := by
  rw [wholeMagnitude]
  split_ifs with he
  · obtain ⟨n,hn⟩ := Int.eq_ofNat_of_zero_le he
    rw [hn,Int.toNat_natCast,Nat.shiftLeft_eq,zpow_natCast]
    exact_mod_cast (Nat.floor_natCast (R:=ℚ) _).symm
  · obtain ⟨n,hn⟩ := Int.eq_ofNat_of_zero_le (Int.neg_nonneg_of_nonpos (not_le.mp he).le)
    rw [hn,Int.toNat_natCast,Nat.shiftRight_eq_div_pow,← neg_neg (exponent x),hn,zpow_neg,
      zpow_natCast,← div_eq_mul_inv]
    exact_mod_cast (Nat.floor_div_eq_div (K:=ℚ) _ _).symm

/-- A finite number counts as the whole part of the rational that it is, and at least as one. -/
theorem count_eq : Scalar.count x = if x.isFinite then max 1 ⌊toRat x⌋₊ else 1 := by
  by_cases hx : x.isFinite
  · have hp : (0 : ℚ) ≤ significand x*2^exponent x := by positivity
    rw [if_pos hx,toRat_eq x hx]
    simp only [Scalar.count,hx,Bool.true_and]
    cases hn : isNegative x with
    | true =>
      have hr : ((Sign.negative.apply 1 : ℤ) : ℚ)*(significand x*2^exponent x) ≤ 0 := by
        simpa [Sign.apply] using hp
      simp [Nat.floor_of_nonpos hr]
    | false => simp [Sign.apply,wholeMagnitude_eq]
  · simp [Scalar.count,hx]

end Binary64
end ExtrusionProfile
