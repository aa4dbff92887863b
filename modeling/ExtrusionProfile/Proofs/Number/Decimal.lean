import ExtrusionProfile.Number.Literal
import ExtrusionProfile.Proofs.Number.Arithmetic

/-! Reading decimals. Quotients of doubles are the doubles nearest to the exact ones, and so is
the double that a natural number and a power of ten give: on the short way, by a table of
exact powers, on the long way, by integers, and where a cut-off knows the answer. -/
namespace ExtrusionProfile
namespace Binary64

open Float.Model Float.Model.UnpackedFloat

section Division

variable {m m' : ℕ} {e e' : ℤ}

/-- The remainder of a division tells how far the quotient is from the exact one. -/
theorem Reads.quotient (a : ℕ) {b : ℕ} (hb : 0 < b) :
    Reads (.ofMantissaAndAccuracy (a/b) (accuracyOfFraction (a%b) b)) (a/b : ℚ) := by
  have hb' : (0 : ℚ) < b := Nat.cast_pos.mpr hb
  have hr : ((a%b : ℕ) : ℚ)/b < 1 := by
    rw [div_lt_one hb']
    exact Nat.cast_lt.mpr (Nat.mod_lt a hb)
  have hq : (a/b : ℚ) = (a/b : ℕ)+(a%b : ℕ)/b := by
    have h : (b*(a/b : ℕ)+(a%b : ℕ) : ℚ) = a := by exact_mod_cast Nat.div_add_mod a b
    rw [div_eq_iff hb'.ne',add_mul,div_mul_cancel₀ _ hb'.ne']
    linarith
  unfold accuracyOfFraction
  split_ifs with h0
  · rw [hq,h0]
    simpa using Reads.exact (a/b)
  · have h0' : (0 : ℚ) < (a%b : ℕ)/b := div_pos (Nat.cast_pos.mpr (Nat.pos_of_ne_zero h0)) hb'
    rcases lt_trichotomy (2*(a%b)) b with h | h | h
    · have ht : ((a%b : ℕ) : ℚ)/b < 1/2 := by
        rw [div_lt_div_iff₀ hb' (by norm_num),one_mul,mul_comm]
        exact_mod_cast h
      rw [compare_lt_iff_lt.mpr h]
      exact ⟨_,h0'.le,ht,by simp [ExtendedMantissa.ofMantissaAndAccuracy,h0'.ne'],
        by simpa [ExtendedMantissa.ofMantissaAndAccuracy] using hq⟩
    · have ht : ((a%b : ℕ) : ℚ)/b = 1/2 := by
        rw [div_eq_div_iff hb'.ne' (by norm_num),one_mul,mul_comm]
        exact_mod_cast h
      rw [compare_eq_iff_eq.mpr h]
      exact ⟨0,le_rfl,by norm_num,by simp [ExtendedMantissa.ofMantissaAndAccuracy],
        by simpa [ExtendedMantissa.ofMantissaAndAccuracy,ht] using hq⟩
    · have ht : 1/2 < ((a%b : ℕ) : ℚ)/b := by
        rw [div_lt_div_iff₀ (by norm_num) hb',one_mul,mul_comm]
        exact_mod_cast h
      rw [compare_gt_iff_gt.mpr h]
      refine ⟨(a%b : ℕ)/b-1/2,by linarith,by linarith,?_,?_⟩
      · simp [ExtendedMantissa.ofMantissaAndAccuracy]
        linarith
      · simp only [ExtendedMantissa.ofMantissaAndAccuracy,if_true,hq]
        ring

theorem sub_one_le_log_div (h : 0 < m) (h' : 0 < m') (e e' : ℤ) :
    m.log2+e-(m'.log2+e')-1 ≤ Int.log 2 (m*2^e/(m'*2^e') : ℚ) := by
  have hp := magnitude_pos h e
  have hp' := magnitude_pos h' e'
  rw [← log_mul_zpow h,← log_mul_zpow h',← Int.zpow_le_iff_le_log (by decide) (div_pos hp hp'),
    le_div_iff₀ hp']
  have hl : (2 : ℚ)^Int.log 2 (m*2^e : ℚ) ≤ m*2^e := Int.zpow_log_le_self (by decide) hp
  have hu : (m'*2^e' : ℚ) < 2^(Int.log 2 (m'*2^e' : ℚ)+1) := Int.lt_zpow_succ_log_self (by decide) _
  refine hl.trans' ((mul_le_mul_of_nonneg_left hu.le (zpow_pos (by norm_num) _).le).trans ?_)
  rw [Nat.cast_ofNat,← zpow_add₀ (by norm_num)]
  exact zpow_le_zpow_right₀ (by norm_num) (by omega)

/-- Division rounds the exact quotient: it carries enough bits for the grid of the quotient, and
the remainder stands for the bits behind them. -/
theorem unpack_pack_div (s s' : Sign) (h : 0 < m) (h' : 0 < m') (e e' : ℤ) :
    (Float.Model.pack (.div .binary64 (.finite s m e h) (.finite s' m' e' h'))).unpack =
      onGrid (s/s') (nearest (m*2^e/(m'*2^e'))) := by
  have hq : (0 : ℚ) < m*2^e/(m'*2^e') := div_pos (magnitude_pos h e) (magnitude_pos h' e')
  have ht : Format.binary64.targetExponent (totalExponent m e-totalExponent m' e') =
      max (m.log2+e-(m'.log2+e')-53) (-1074) := by
    rw [targetExponent_binary64,totalExponent,totalExponent]
    omega
  simp only [UnpackedFloat.div,divCore,ht]
  set t := min (e-e') (max (m.log2+e-(m'.log2+e')-53) (-1074)) with htd
  refine roundWithAccuracy_eq (s/s') hq ?_ ?_
  · have hk : e-(e-e'-t).toNat = e'+t := by omega
    have hv := shiftLeft_mul_zpow m (e-e'-t).toNat e
    have hm' : (m' : ℚ) ≠ 0 := Nat.cast_ne_zero.mpr h'.ne'
    have he : (m*2^e/(m'*2^e') : ℚ)/2^t = (m <<< (e-e'-t).toNat : ℕ)/m' := by
      rw [← hv,hk,zpow_add₀ (by norm_num)]
      field_simp
    rw [he]
    exact .quotient _ h'
  · have hl := sub_one_le_log_div h h' e e'
    unfold gridExponent
    omega

end Division

section Range

variable {q : ℚ}

theorem onGrid_of_large (s : Sign) (h : 2^(1024 : ℤ) ≤ q) : onGrid s (nearest q) = .infinity s := by
  have hq : 0 < q := h.trans_lt' (zpow_pos (by norm_num) _)
  have hl := (Int.zpow_le_iff_le_log (b := 2) (by decide) hq).mp h
  have hg : 971 < gridExponent q := by
    unfold gridExponent
    omega
  have hp : 0 < nearest q := (le_nearest hq (hg.trans' (by norm_num))).trans_lt'
    (mul_pos (by norm_num) (gridStep_pos q))
  have hg' : 971 < gridExponent (nearest q) := hg.trans_le (gridExponent_le_nearest hq hp)
  have hf : ⌊nearest q/gridStep (nearest q)⌋₊ ≠ 0 := by
    have := (canonical_floor hp).le (hg'.trans' (by norm_num))
    omega
  rw [onGrid,dif_neg hf,if_pos hg']

theorem nearest_of_tiny (hq : 0 < q) (h : q < 2^(-1075 : ℤ)) : nearest q = 0 := by
  have hl := (Int.lt_zpow_iff_log_lt (b := 2) (by decide) hq).mp h
  have hg : gridExponent q = -1074 := by
    unfold gridExponent
    omega
  have hs : q/gridStep q < 1/2 := by
    rw [div_lt_iff₀ (gridStep_pos q),gridStep,hg,one_div,← zpow_neg_one,← zpow_add₀ (by norm_num)]
    exact h
  have hf : ⌊q/gridStep q⌋₊ = 0 := Nat.floor_eq_zero.mpr (hs.trans (by norm_num))
  have hh : halfEven (q/gridStep q) = 0 := by
    simp only [halfEven,hf,Nat.cast_zero,sub_zero,if_pos hs]
  rw [nearest,hh,Nat.cast_zero,zero_mul]

end Range

section Scientific

theorem ten_zpow_ge {e : ℤ} (he : 0 ≤ e) : (2 : ℚ)^(3*e) ≤ 10^e := by
  rw [zpow_mul]
  exact zpow_le_zpow_left₀ he (by norm_num) (by norm_num)

theorem ten_zpow_le {e : ℤ} (he : e ≤ 0) : (10 : ℚ)^e ≤ 2^(3*e) := by
  have h := ten_zpow_ge (neg_nonneg.mpr he)
  rw [mul_neg,zpow_neg,zpow_neg] at h
  exact (inv_le_inv₀ (zpow_pos (by norm_num) _) (zpow_pos (by norm_num) _)).mp h

theorem two_zpow_le_decimal {n : ℕ} {e : ℤ} (hn : 0 < n) (he : 342 ≤ e) :
    (2 : ℚ)^(1024 : ℤ) ≤ n*10^e :=
  calc (2 : ℚ)^(1024 : ℤ) ≤ 2^(3*e) := zpow_le_zpow_right₀ (by norm_num) (by omega)
    _ ≤ 10^e := ten_zpow_ge (by omega)
    _ ≤ n*10^e := le_mul_of_one_le_left (zpow_pos (by norm_num) _).le (Nat.one_le_cast.mpr hn)

theorem decimal_lt_two_zpow {n k : ℕ} {e : ℤ} (hn : n < 10^k) (he : e+k ≤ -359) :
    (n*10^e : ℚ) < 2^(-1075 : ℤ) :=
  calc (n*10^e : ℚ) < 10^(k : ℤ)*10^e :=
        mul_lt_mul_of_pos_right (by exact_mod_cast hn) (zpow_pos (by norm_num) _)
    _ = 10^(e+k) := by rw [← zpow_add₀ (by norm_num),add_comm]
    _ ≤ 2^(3*(e+k)) := ten_zpow_le (by omega)
    _ ≤ 2^(-1075 : ℤ) := zpow_le_zpow_right₀ (by norm_num) (by omega)

theorem unpack_pack_mul_ten {n : ℕ} (hn : 0 < n) (k : ℕ) :
    (Float.Model.pack (roundWithAccuracy .binary64 .positive (n <<< 53*10^k) (-53) .exact)).unpack =
      onGrid .positive (nearest (n*10^(k : ℤ))) := by
  have hv : ((n <<< 53*10^k : ℕ) : ℚ)*2^(-53 : ℤ) = n*10^(k : ℤ) := by
    rw [Nat.shiftLeft_eq,zpow_natCast,zpow_neg]
    push_cast
    field_simp
  have h1 : (1 : ℚ) ≤ n*10^(k : ℤ) :=
    one_le_mul_of_one_le_of_one_le (Nat.one_le_cast.mpr hn) (one_le_zpow₀ (by norm_num) (by omega))
  have hl := (Int.zpow_le_iff_le_log (b := 2) (x := 0) (by decide) (h1.trans_lt' (by norm_num))).mp
    (by simpa using h1)
  have hg : -53 ≤ gridExponent ((n <<< 53*10^k : ℕ)*2^(-53 : ℤ)) := by
    rw [hv]
    unfold gridExponent
    omega
  have hs : 0 < n <<< 53*10^k := by
    rw [Nat.shiftLeft_eq]
    positivity
  rw [← hv]
  exact unpack_pack_exact .positive hs hg

theorem unpack_pack_div_ten {n : ℕ} (hn : 0 < n) {e : ℤ} (he : e < 0) (h : 0 < 10^(-e).toNat) :
    (Float.Model.pack (.div .binary64 (.finite .positive n 0 hn)
      (.finite .positive (10^(-e).toNat) 0 h))).unpack = onGrid .positive (nearest (n*10^e)) := by
  have ht : (10 : ℚ)^e = ((10 : ℚ)^(-e).toNat)⁻¹ := by
    rw [← zpow_natCast,← zpow_neg,Int.toNat_of_nonneg (by omega),neg_neg]
  have hv : (n*10^e : ℚ) = n*2^(0 : ℤ)/((10^(-e).toNat : ℕ)*2^(0 : ℤ)) := by
    rw [ht,zpow_zero,mul_one,mul_one,Nat.cast_pow,Nat.cast_ofNat,div_eq_mul_inv]
  rw [unpack_pack_div .positive .positive hn h,hv]
  rfl

/-- Where the exact way takes a shortcut, it takes the right one. -/
theorem unpack_pack_ofScientific {n : ℕ} (hn : 0 < n) (e : ℤ) :
    (Float.Model.pack (UnpackedFloat.ofScientific .binary64 n e)).unpack =
      onGrid .positive (nearest (n*10^e)) := by
  have hp : (0 : ℚ) < n*10^e := mul_pos (Nat.cast_pos.mpr hn) (zpow_pos (by norm_num) _)
  unfold UnpackedFloat.ofScientific
  rw [dif_neg hn.ne']
  by_cases hbig : e > 2^Format.binary64.exponentBits
  · have hb : 2048 < e := hbig
    rw [if_pos hbig,unpack_pack_infinity,onGrid_of_large _ (two_zpow_le_decimal hn (by omega))]
  rw [if_neg hbig]
  by_cases hsmall : e < -((2^Format.binary64.exponentBits : ℤ)+n.log2)
  · have hs : e < -(2048+n.log2) := hsmall
    have hl : n < 10^(n.log2+1) :=
      Nat.lt_log2_self.trans_le (Nat.pow_le_pow_left (by norm_num) _)
    rw [if_pos hsmall,unpack_pack_zero,nearest_of_tiny hp (decimal_lt_two_zpow hl (by omega)),
      onGrid_zero]
  rw [if_neg hsmall]
  by_cases he : 0 ≤ e
  · obtain ⟨k,rfl⟩ := Int.eq_ofNat_of_zero_le he
    rw [if_pos he]
    exact unpack_pack_mul_ten hn k
  · rw [if_neg he]
    exact unpack_pack_div_ten hn (not_le.mp he) _

/-- Whether `x` is the positive rational `q`. -/
def IsExactly (x : Float) (q : ℚ) : Prop :=
  ∃ m e h, x.toModel.unpack = .finite .positive m e h ∧ (m*2^e : ℚ) = q

variable {x y : Float} {q r : ℚ}

theorem IsExactly.mul (hx : IsExactly x q) (hy : IsExactly y r) :
    (x*y).toModel.unpack = onGrid .positive (nearest (q*r)) := by
  obtain ⟨m,e,h,hx,rfl⟩ := hx
  obtain ⟨m',e',h',hy,rfl⟩ := hy
  have hc := (unpack_canonical hx).1
  have hc' := (unpack_canonical hy).1
  have hv : (m*2^e*(m'*2^e') : ℚ) = (m*m' : ℕ)*2^(e+e') := by
    rw [zpow_add₀ (by norm_num)]
    push_cast
    ring
  change (Float.Model.pack (.mul .binary64 x.toModel.unpack y.toModel.unpack)).unpack = _
  rw [hx,hy,hv]
  exact unpack_pack_exact .positive (Nat.mul_pos h h') (hc.add_le_gridExponent hc' h h')

theorem IsExactly.div (hx : IsExactly x q) (hy : IsExactly y r) :
    (x/y).toModel.unpack = onGrid .positive (nearest (q/r)) := by
  obtain ⟨m,e,h,hx,rfl⟩ := hx
  obtain ⟨m',e',h',hy,rfl⟩ := hy
  change (Float.Model.pack (.div .binary64 x.toModel.unpack y.toModel.unpack)).unpack = _
  rw [hx,hy]
  exact unpack_pack_div .positive .positive h h' e e'

theorem isExactly_toFloat {n : ℕ} (h : 0 < n) (hn : n < 2^53) : IsExactly n.toUInt64.toFloat n := by
  have hlog : n.log2 < 53 := (Nat.log2_lt h.ne').mpr hn
  have hv := shiftLeft_mul_zpow n (52-n.log2) 0
  rw [zpow_zero,mul_one] at hv
  have hc : Canonical (n <<< (52-n.log2)) (0-(52-n.log2 : ℕ)) := by
    have h52 : 2^n.log2*2^(52-n.log2) = 2^52 := by rw [← pow_add]; congr 1; omega
    have hl : 2^n.log2 ≤ n := Nat.log2_self_le h.ne'
    have hu : n < 2^(n.log2+1) := Nat.lt_log2_self
    rw [Nat.shiftLeft_eq]
    refine ⟨?_,by omega,fun _ => ?_⟩
    · calc n*2^(52-n.log2) < 2^(n.log2+1)*2^(52-n.log2) :=
            Nat.mul_lt_mul_of_pos_right hu (by positivity)
        _ = 2^53 := by rw [pow_succ,mul_right_comm,h52]; rfl
    · exact h52.symm.trans_le (Nat.mul_le_mul_right _ hl)
  have hs : 0 < n <<< (52-n.log2) := by
    rw [Nat.shiftLeft_eq]
    positivity
  refine ⟨_,_,hs,?_,hv⟩
  have hmod : n.toUInt64.toNat = n := Nat.mod_eq_of_lt (by omega)
  change (Float.Model.pack (UnpackedFloat.normalize .binary64 (n.toUInt64.toNat : ℕ) 0 .positive)).unpack = _
  rw [hmod,unpack_pack_normalize,zpow_zero,mul_one,Int.cast_natCast,
    rounded_of_nonneg (Nat.cast_nonneg n),← hv,nearest_canonical hs hc,
    onGrid_canonical _ hs hc (by omega)]

/-- Whether an unpacked double is the natural number `n`. -/
def isNatural (n : ℕ) : UnpackedFloat → Bool
  | .finite .positive m e _ => m*2^e.toNat == n*2^(-e).toNat
  | _ => false

theorem isExactly_of_isNatural {n : ℕ} (h : isNatural n x.toModel.unpack) : IsExactly x n := by
  unfold isNatural at h
  split at h
  · rename_i m e hm hx
    rw [beq_iff_eq] at h
    have he : e = e.toNat-(-e).toNat := by omega
    refine ⟨m,e,hm,hx,?_⟩
    rw [he,zpow_sub₀ (by norm_num),zpow_natCast,zpow_natCast,← mul_div_assoc,
      div_eq_iff (by positivity)]
    exact_mod_cast h
  · cases h

theorem isNatural_powersOfTen : ∀ k : Fin 23,
    isNatural (10^(k : ℕ)) (Float.exactlyRepresentablePowersOfTen[k]).toModel.unpack := by
  decide +kernel

theorem ofScientific_unpack {n : ℕ} (h : 0 < n) (s : Bool) (k : ℕ) :
    (Float.ofScientific n s k).toModel.unpack =
      onGrid .positive (nearest (n*10^(if s then -k else k : ℤ))) := by
  unfold Float.ofScientific
  by_cases hf : n < 2^53 ∧ k ≤ 22
  · have hn := isExactly_toFloat h hf.1
    have hk := isExactly_of_isNatural (isNatural_powersOfTen ⟨k,by omega⟩)
    rw [Nat.cast_pow,Nat.cast_ofNat] at hk
    rw [dif_pos hf]
    cases s with
    | false => simpa using hn.mul hk
    | true => simpa [div_eq_mul_inv] using hn.div hk
  · rw [dif_neg hf]
    cases s with
    | false => exact unpack_pack_ofScientific h k
    | true => exact unpack_pack_ofScientific h (-k)

end Scientific

end Binary64

namespace Literal

open Binary64

/-- A decimal is the double nearest to it. The two shortcuts hold what the exact computation
would give: beyond them everything is an infinity or a zero. -/
theorem ofDecimal_unpack {count n : ℕ} (h : n < 10^count) (e : ℤ) :
    (ofDecimal count n e).toModel.unpack = onGrid .positive (nearest (n*10^e)) := by
  unfold ofDecimal
  by_cases h0 : n = 0
  · rw [if_pos h0,h0,Nat.cast_zero,zero_mul,nearest_zero,onGrid_zero]
    rfl
  have hn : 0 < n := Nat.pos_of_ne_zero h0
  have hp : (0 : ℚ) < n*10^e := mul_pos (Nat.cast_pos.mpr hn) (zpow_pos (by norm_num) _)
  rw [if_neg h0]
  by_cases hbig : 400 < e
  · rw [if_pos hbig,onGrid_of_large _ (two_zpow_le_decimal hn (by omega))]
    rfl
  rw [if_neg hbig]
  by_cases hsmall : e+count < -400
  · rw [if_pos hsmall,nearest_of_tiny hp (decimal_lt_two_zpow h (by omega)),onGrid_zero]
    rfl
  rw [if_neg hsmall]
  by_cases he : 0 ≤ e
  · have hk : (e.toNat : ℤ) = e := by omega
    rw [if_pos he,ofScientific_unpack hn]
    simp [hk]
  · have hk : -((-e).toNat : ℤ) = e := by omega
    rw [if_neg he,ofScientific_unpack hn]
    simp only [if_true,hk]

end Literal
end ExtrusionProfile
