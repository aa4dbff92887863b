import ExtrusionProfile.Proofs.Number.Decimal

/-! Sums, quotients and square roots of doubles. A sum and a quotient are the doubles nearest to the
exact ones, as is the double of a natural number. Of a square root it is enough to know that it is
the double nearest to a number within a factor of two of the root. -/
namespace ExtrusionProfile
namespace Binary64

open Float.Model Float.Model.UnpackedFloat

section Operations

variable {x y : Float}

theorem add_eq_sub_neg (x y : Float) : x+y = x-(-y) := by
  have hm : ∀ u v : UnpackedFloat, UnpackedFloat.add .binary64 u v = .sub .binary64 u v.neg := by
    intro u v
    rcases u with s | _ | s | ⟨s,m,e,hm⟩ <;> rcases v with s' | _ | s' | ⟨s',m',e',hm'⟩ <;>
      (try cases s) <;> (try cases s') <;>
      first
      | rfl
      | simp [UnpackedFloat.add,UnpackedFloat.sub,UnpackedFloat.neg,Sign.apply]
  change Float.ofModel (.pack (.add .binary64 x.toModel.unpack y.toModel.unpack)) =
    Float.ofModel (.pack (.sub .binary64 x.toModel.unpack (-y).toModel.unpack))
  rw [unpack_neg,hm]

theorem ratOf_unpackedNeg (u : UnpackedFloat) :
    ratOf u.neg = -ratOf u ∧ u.neg.isFinite = u.isFinite := by
  rcases u with s | _ | s | ⟨s,m,e,hm⟩
  · exact ⟨neg_zero.symm,rfl⟩
  · exact ⟨neg_zero.symm,rfl⟩
  · exact ⟨neg_zero.symm,rfl⟩
  · exact ⟨ratOf_neg s hm e,rfl⟩

@[simp] theorem toRat_neg (x : Float) : toRat (-x) = -toRat x := by
  rw [toRat,unpack_neg,(ratOf_unpackedNeg _).1,toRat]

theorem isFinite_neg (hx : x.isFinite) : (-x).isFinite := by
  change (-x).toModel.unpack.isFinite
  rw [unpack_neg,(ratOf_unpackedNeg _).2]
  exact hx

theorem near_add (hx : x.isFinite) (hy : y.isFinite) : Near (x+y) (toRat x+toRat y) := by
  have h := near_sub hx (isFinite_neg hy)
  rwa [← add_eq_sub_neg,toRat_neg,sub_neg_eq_add] at h

theorem rounded_apply (s : Sign) {q : ℚ} (hq : 0 < q) :
    rounded (s.apply 1*q) = onGrid s (nearest q) := by
  cases s with
  | negative => simp [rounded,Sign.apply,hq,abs_of_pos hq]
  | positive => simp [rounded,Sign.apply,hq.not_gt,abs_of_pos hq]

theorem near_div (hx : x.isFinite) (hy : y.isFinite) (h : toRat y ≠ 0) :
    Near (x/y) (toRat x/toRat y) := by
  have hd : (x/y).toModel = .pack (.div .binary64 x.toModel.unpack y.toModel.unpack) := rfl
  unfold toRat at h ⊢
  rcases finite_cases hy with ⟨s',hy⟩ | ⟨s',m',e',hm',hy,-⟩ <;> rw [hy] at h hd ⊢
  · exact absurd rfl h
  rcases finite_cases hx with ⟨s,hx⟩ | ⟨s,m,e,hm,hx,-⟩ <;> rw [hx] at hd ⊢
  · rw [ratOf_zero,zero_div]
    exact .of_zero _ hd
  · have hi : (s'.apply 1 : ℚ)⁻¹ = s'.apply 1 := by cases s' <;> norm_num [Sign.apply]
    have hs : (s/s').apply 1 = s.apply 1*s'.apply 1 := by cases s <;> cases s' <;> rfl
    refine .of_eq ?_
    rw [hd,ratOf_eq,ratOf_eq,mul_div_mul_comm,div_eq_mul_inv (s.apply 1 : ℚ),hi,← Int.cast_mul,← hs,
      rounded_apply _ (div_pos (magnitude_pos hm e) (magnitude_pos hm' e'))]
    exact unpack_pack_div s s' hm hm' e e'

theorem near_ofScientific {n : ℕ} (h : 0 < n) (s : Bool) (k : ℕ) :
    Near (OfScientific.ofScientific n s k : Float) (n*10^(if s then -k else k : ℤ)) := by
  refine .of_eq ((ofScientific_unpack h s k).trans ?_)
  rw [rounded_of_nonneg (by positivity)]

theorem near_ofNat (n : ℕ) : Near (Float.ofNat n) n := by
  rcases Nat.eq_zero_or_pos n with rfl | hn
  · exact .of_zero .positive rfl
  · have h := near_ofScientific hn false 0
    rw [if_neg Bool.false_ne_true,Nat.cast_zero,zpow_zero,mul_one] at h
    exact h

end Operations

section SquareRoot

variable {m : ℕ} {e : ℤ}

/-- What the integer square root and its remainder tell about the root. -/
theorem Reads.sqrt (m : ℕ) : ∃ q : ℚ, (Nat.sqrt m : ℚ) ≤ q ∧ q < Nat.sqrt m+1 ∧
    Reads (.ofMantissaAndAccuracy (Nat.sqrt m) (if m-Nat.sqrt m*Nat.sqrt m = 0 then .exact
      else .inexact (if m-Nat.sqrt m*Nat.sqrt m ≤ Nat.sqrt m then .lt else .gt))) q := by
  split_ifs
  · exact ⟨_,le_rfl,lt_add_one _,.exact _⟩
  · refine ⟨Nat.sqrt m+1/4,by linarith,by linarith,1/4,by norm_num,by norm_num,?_,?_⟩
    · simp [ExtendedMantissa.ofMantissaAndAccuracy]
    · simp [ExtendedMantissa.ofMantissaAndAccuracy]
  · refine ⟨Nat.sqrt m+3/4,by linarith,by linarith,1/4,by norm_num,by norm_num,?_,?_⟩
    · simp [ExtendedMantissa.ofMantissaAndAccuracy]
    · simp only [ExtendedMantissa.ofMantissaAndAccuracy,if_true]
      ring

/-- The exponent that a square root is computed with leaves room for all bits of the root. -/
theorem le_gridExponent_sqrt {t : ℤ} {n : ℕ} (hm : 0 < m) (hn : n = m <<< (e-2*t).toNat)
    (ht : t ≤ e/2) (ht' : t ≤ max ((m.log2+e+2)/2-53) (-1074)) {q : ℚ} (hq : Nat.sqrt n*2^t ≤ q) :
    t ≤ gridExponent q := by
  rcases le_max_iff.mp ht' with h | h
  · have hl : 2^(m.log2+(e-2*t).toNat) ≤ n := by
      rw [hn,Nat.shiftLeft_eq,pow_add]
      exact Nat.mul_le_mul_right _ (Nat.log2_self_le hm.ne')
    have hr : 2^((m.log2+(e-2*t).toNat)/2) ≤ Nat.sqrt n := by
      rw [Nat.le_sqrt,← pow_add]
      exact hl.trans' (Nat.pow_le_pow_right (by norm_num) (by omega))
    have hk : (2 : ℚ)^((m.log2+e)/2) ≤ q := by
      refine hq.trans' ?_
      have he : (m.log2+e)/2 = ((m.log2+(e-2*t).toNat)/2 : ℕ)+t := by omega
      rw [he,zpow_add₀ (by norm_num),zpow_natCast]
      exact mul_le_mul_of_nonneg_right (by exact_mod_cast hr) (zpow_pos (by norm_num) _).le
    have hp : 0 < q := hk.trans_lt' (zpow_pos (by norm_num) _)
    have := (Int.zpow_le_iff_le_log (b:=2) (by decide) hp).mp hk
    unfold gridExponent
    omega
  · exact h.trans (le_max_right _ _)

/-- A square root is the double nearest to a number that is within a factor of two of the root. -/
theorem near_sqrt {x : Float} (hx : x.isFinite) (h : 0 ≤ toRat x) :
    ∃ q, 0 ≤ q ∧ Near x.sqrt q ∧ q^2 ≤ 4*toRat x ∧ toRat x ≤ 4*q^2 := by
  have hd : x.sqrt.toModel = .pack (.sqrt .binary64 x.toModel.unpack) := rfl
  unfold toRat at h ⊢
  rcases finite_cases hx with ⟨s,hx⟩ | ⟨s,m,e,hm,hx,-⟩ <;> rw [hx] at h hd ⊢
  · exact ⟨0,le_rfl,.of_zero _ hd,by simp,by simp⟩
  cases s with
  | negative =>
    rw [ratOf_negative] at h
    exact absurd (magnitude_pos hm e) (by linarith)
  | positive =>
    have ht' : Format.binary64.targetExponent ((totalExponent m e+1)/2) =
        max ((m.log2+e+2)/2-53) (-1074) := by
      rw [targetExponent_binary64,totalExponent]
      omega
    set t := min (e/2) (Format.binary64.targetExponent ((totalExponent m e+1)/2)) with htd
    have ht : t ≤ e/2 := min_le_left _ _
    have hg : t ≤ max ((m.log2+e+2)/2-53) (-1074) := ht' ▸ min_le_right _ _
    set n := m <<< (e-2*t).toNat with hn
    have hv : (n*(2^t)^2 : ℚ) = m*2^e := by
      have hs := shiftLeft_mul_zpow m (e-2*t).toNat e
      have he : e-(e-2*t).toNat = t+t := by omega
      rw [← hs,he,zpow_add₀ (by norm_num),pow_two]
    have hn0 : 0 < n := by
      rw [hn,Nat.shiftLeft_eq]
      positivity
    have hr0 : 1 ≤ Nat.sqrt n := Nat.sqrt_pos.mpr hn0
    obtain ⟨q,hl,hu,hq⟩ := Reads.sqrt n
    have hp : (0 : ℚ) < 2^t := zpow_pos (by norm_num) _
    have hq1 : (1 : ℚ) ≤ q := hl.trans' (by exact_mod_cast hr0)
    have hq0 : 0 < q*2^t := mul_pos (by linarith) hp
    have hlow : (Nat.sqrt n : ℚ)^2 ≤ n := by exact_mod_cast Nat.sqrt_le' n
    have hhigh : (n : ℚ) ≤ (Nat.sqrt n+1)^2 := by exact_mod_cast (Nat.lt_succ_sqrt' n).le
    have hr1 : (1 : ℚ) ≤ Nat.sqrt n := by exact_mod_cast hr0
    have he := le_gridExponent_sqrt hm hn ht hg (mul_le_mul_of_nonneg_right hl hp.le)
    rw [← mul_div_cancel_right₀ q hp.ne'] at hq
    refine ⟨q*2^t,hq0.le,.of_eq ?_,?_,?_⟩
    · rw [hd,rounded_of_nonneg hq0.le]
      exact roundWithAccuracy_eq .positive hq0 hq he
    · rw [ratOf_positive,← hv,mul_pow,← mul_assoc]
      refine mul_le_mul_of_nonneg_right ?_ (sq_nonneg _)
      nlinarith
    · rw [ratOf_positive,← hv,mul_pow,← mul_assoc]
      refine mul_le_mul_of_nonneg_right ?_ (sq_nonneg _)
      nlinarith

end SquareRoot
end Binary64
end ExtrusionProfile
