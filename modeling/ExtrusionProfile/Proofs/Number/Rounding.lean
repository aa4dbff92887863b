import ExtrusionProfile.Proofs.Number.Packing

/-! Rounding to doubles. The doubles around a positive rational lie on a grid, the multiples of
a power of two, and the rational rounds to the nearest of them, to the even one of two. A
mantissa with the bits that were shifted out of it still knows the rational that it came
from, so every operation that ends with rounding one rounds the exact result. -/
namespace ExtrusionProfile
namespace Binary64

open Float.Model Float.Model.UnpackedFloat

/-- The natural number nearest to `q`, the even one of two. -/
def halfEven (q : ℚ) : ℕ :=
  let n := ⌊q⌋₊
  if q-n < 1/2 then n else if 1/2 < q-n then n+1 else n+n%2

/-- The exponent of the doubles around a positive `q`: 53 bits, and none below the least. -/
def gridExponent (q : ℚ) : ℤ := max (Int.log 2 q-52) (-1074)

def gridStep (q : ℚ) : ℚ := 2^gridExponent q

/-- The multiple of the step nearest to `q`, whether or not it is too large for a double. -/
def nearest (q : ℚ) : ℚ := halfEven (q/gridStep q)*gridStep q

/-- The double with a sign and a magnitude; one too large is an infinity. -/
def onGrid (s : Sign) (r : ℚ) : UnpackedFloat :=
  let m := ⌊r/gridStep r⌋₊
  if h : m = 0 then .zero s
  else if 971 < gridExponent r then .infinity s
  else .finite s m (gridExponent r) (Nat.pos_of_ne_zero h)

theorem gridStep_pos (q : ℚ) : 0 < gridStep q := zpow_pos (by norm_num) _

@[simp] theorem nearest_zero : nearest 0 = 0 := by simp [nearest,halfEven]

@[simp] theorem onGrid_zero (s : Sign) : onGrid s 0 = .zero s := by simp [onGrid]

section HalfEven

variable {q r : ℚ}

theorem floor_le_halfEven (q : ℚ) : ⌊q⌋₊ ≤ halfEven q := by
  unfold halfEven; dsimp only; split_ifs <;> omega

theorem halfEven_le_floor_succ (q : ℚ) : halfEven q ≤ ⌊q⌋₊+1 := by
  unfold halfEven; dsimp only; split_ifs <;> omega

@[simp] theorem halfEven_natCast (n : ℕ) : halfEven n = n := by simp [halfEven]

theorem halfEven_mono (h : q ≤ r) : halfEven q ≤ halfEven r := by
  rcases (Nat.floor_mono h).lt_or_eq with hl | he
  · exact (halfEven_le_floor_succ q).trans ((Nat.succ_le_iff.mpr hl).trans (floor_le_halfEven r))
  · unfold halfEven
    dsimp only
    rw [he]
    split_ifs <;> first | omega | linarith

theorem abs_sub_halfEven_le (hq : 0 ≤ q) (z : ℤ) : |q-halfEven q| ≤ |q-z| := by
  have hl := Nat.floor_le hq
  have hu := Nat.lt_floor_add_one q
  have hh : |q-halfEven q| ≤ q-⌊q⌋₊ ∧ |q-halfEven q| ≤ ⌊q⌋₊+1-q := by
    unfold halfEven
    dsimp only
    rcases Nat.mod_two_eq_zero_or_one ⌊q⌋₊ with h2 | h2 <;> rw [h2] <;> split_ifs <;> push_cast <;>
      constructor <;> rw [abs_le] <;> constructor <;> linarith
  rcases lt_or_ge z (⌊q⌋₊+1) with hz | hz
  · have hz : (z : ℚ) ≤ ⌊q⌋₊ := by exact_mod_cast Int.lt_add_one_iff.mp hz
    exact hh.1.trans ((sub_le_sub_left hz q).trans (le_abs_self _))
  · have hz : (⌊q⌋₊+1 : ℚ) ≤ z := by exact_mod_cast hz
    rw [abs_sub_comm q z]
    exact hh.2.trans ((sub_le_sub_right hz q).trans (le_abs_self _))

end HalfEven

section Grid

variable {q r : ℚ}

theorem gridExponent_mono (hq : 0 < q) (h : q ≤ r) : gridExponent q ≤ gridExponent r :=
  max_le_max (Int.sub_le_sub_right (Int.log_mono_right hq h) _) le_rfl

theorem lt_gridStep (q : ℚ) : q < 2^53*gridStep q := by
  have hl : q < (2 : ℚ)^(Int.log 2 q+1) := Int.lt_zpow_succ_log_self (by decide) q
  refine hl.trans_le ?_
  rw [gridStep,← zpow_natCast,← zpow_add₀ (by norm_num)]
  refine zpow_le_zpow_right₀ (by norm_num) ?_
  have := le_max_left (Int.log 2 q-52) (-1074)
  simp only [gridExponent]
  push_cast
  omega

/-- Above the least exponent the significand has all of its bits. -/
theorem le_of_gridExponent (hq : 0 < q) (h : -1074 < gridExponent q) : 2^52*gridStep q ≤ q := by
  have hl : (2 : ℚ)^Int.log 2 q ≤ q := Int.zpow_log_le_self (by decide) hq
  refine hl.trans' ?_
  rw [gridStep,← zpow_natCast,← zpow_add₀ (by norm_num)]
  refine zpow_le_zpow_right₀ (by norm_num) ?_
  simp only [gridExponent] at h ⊢
  push_cast
  omega

theorem canonical_floor (hq : 0 < q) : Canonical ⌊q/gridStep q⌋₊ (gridExponent q) := by
  have hs := gridStep_pos q
  refine ⟨?_,le_max_right _ _,fun h => ?_⟩
  · rw [Nat.floor_lt (div_pos hq hs).le,div_lt_iff₀ hs]
    exact_mod_cast lt_gridStep q
  · rw [Nat.le_floor_iff (div_pos hq hs).le,le_div_iff₀ hs]
    exact_mod_cast le_of_gridExponent hq h

theorem nearest_le (hq : 0 < q) : nearest q ≤ 2^53*gridStep q := by
  refine mul_le_mul_of_nonneg_right ?_ (gridStep_pos q).le
  exact_mod_cast (halfEven_le_floor_succ _).trans (canonical_floor hq).lt

theorem le_nearest (hq : 0 < q) (h : -1074 < gridExponent q) : 2^52*gridStep q ≤ nearest q := by
  refine mul_le_mul_of_nonneg_right ?_ (gridStep_pos q).le
  exact_mod_cast ((canonical_floor hq).le h).trans (floor_le_halfEven _)

theorem two_pow_mul_zpow_le {e e' : ℤ} (h : e < e') : (2^53*2^e : ℚ) ≤ 2^52*2^e' :=
  calc (2^53*2^e : ℚ) = 2^52*2^(1+e) := by rw [zpow_add₀ (by norm_num)]; ring
    _ ≤ 2^52*2^e' :=
      mul_le_mul_of_nonneg_left (zpow_le_zpow_right₀ (by norm_num) (by omega)) (by norm_num)

theorem nearest_mono (hq : 0 < q) (h : q ≤ r) : nearest q ≤ nearest r := by
  rcases (gridExponent_mono hq h).eq_or_lt with he | he
  · have hs : gridStep q = gridStep r := by rw [gridStep,he,gridStep]
    rw [nearest,nearest,hs]
    refine mul_le_mul_of_nonneg_right ?_ (gridStep_pos r).le
    exact_mod_cast halfEven_mono (div_le_div_of_nonneg_right h (gridStep_pos r).le)
  · have hl : -1074 ≤ gridExponent q := le_max_right _ _
    calc nearest q ≤ 2^53*gridStep q := nearest_le hq
      _ ≤ 2^52*gridStep r := two_pow_mul_zpow_le he
      _ ≤ nearest r := le_nearest (hq.trans_le h) (hl.trans_lt he)

theorem abs_sub_nearest_le_mul (hq : 0 ≤ q) (z : ℤ) : |q-nearest q| ≤ |q-z*gridStep q| := by
  have hs := gridStep_pos q
  have hv (x : ℚ) : |q/gridStep q-x| * gridStep q = |q-x*gridStep q| := by
    conv_lhs => rw [← abs_of_pos hs,← abs_mul,abs_of_pos hs,sub_mul,div_mul_cancel₀ _ hs.ne']
  have h := mul_le_mul_of_nonneg_right (abs_sub_halfEven_le (div_nonneg hq hs.le) z) hs.le
  rwa [hv,hv] at h

theorem rankOf_zero_le_onGrid (s' : Sign) (r : ℚ) :
    rankOf (.zero s') ≤ rankOf (onGrid .positive r) := by
  unfold onGrid
  dsimp only
  split_ifs <;> simp [rankOf,Prod.Lex.toLex_le_toLex]

theorem rankOf_onGrid_mono (hq : 0 ≤ q) (h : q ≤ r) :
    rankOf (onGrid .positive q) ≤ rankOf (onGrid .positive r) := by
  by_cases hm : ⌊q/gridStep q⌋₊ = 0
  · rw [onGrid,dif_pos hm]
    exact rankOf_zero_le_onGrid _ r
  have hq : 0 < q := hq.lt_of_ne fun h0 => hm (by rw [← h0]; simp)
  have he := gridExponent_mono hq h
  have hl : -1074 ≤ gridExponent q := le_max_right _ _
  have hm' : gridExponent q = gridExponent r → ⌊q/gridStep q⌋₊ ≤ ⌊r/gridStep r⌋₊ := fun h' => by
    have hs : gridStep q = gridStep r := by rw [gridStep,h',gridStep]
    rw [hs]
    exact Nat.floor_mono (div_le_div_of_nonneg_right h (gridStep_pos r).le)
  have hr : ⌊r/gridStep r⌋₊ ≠ 0 := by
    rcases he.eq_or_lt with he | he
    · have := hm' he
      omega
    · have := (canonical_floor (hq.trans_le h)).le (hl.trans_lt he)
      omega
  rw [onGrid,onGrid,dif_neg hm,dif_neg hr]
  split_ifs with h₁ h₂ h₂
  · exact le_rfl
  · omega
  · simp [rankOf,Prod.Lex.toLex_le_toLex]
  · simp only [rankOf,Prod.Lex.toLex_le_toLex]
    rcases he.eq_or_lt with he | he
    · have := hm' he
      simp [he,this]
    · simp [he]

end Grid

/-- The rational that a mantissa and the bits below it come from. -/
def Reads (em : ExtendedMantissa) (q : ℚ) : Prop :=
  ∃ t : ℚ, 0 ≤ t ∧ t < 1/2 ∧ (em.stickyBit = false ↔ t = 0) ∧
    q = em.mantissa+(if em.roundBit then 1/2 else 0)+t

namespace Reads

variable {em : ExtendedMantissa} {q : ℚ}

theorem exact (n : ℕ) : Reads (.ofMantissaAndAccuracy n .exact) n :=
  ⟨0,by norm_num,by norm_num,by simp [ExtendedMantissa.ofMantissaAndAccuracy],
    by simp [ExtendedMantissa.ofMantissaAndAccuracy]⟩

@[simp] theorem ofMantissaAndAccuracy_mantissa (m : ℕ) (acc : Accuracy) :
    (ExtendedMantissa.ofMantissaAndAccuracy m acc).mantissa = m := by
  rcases acc with _ | _ | _ | _ <;> rfl

theorem floor_eq (h : Reads em q) : ⌊q⌋₊ = em.mantissa := by
  obtain ⟨t,ht,ht',-,rfl⟩ := h
  rw [Nat.floor_eq_iff (by split_ifs <;> positivity)]
  split_ifs <;> constructor <;> linarith

theorem rounded_eq (h : Reads em q) : em.roundedMantissa = halfEven q := by
  have hf := h.floor_eq
  obtain ⟨t,ht,ht',hs,rfl⟩ := h
  obtain ⟨m,b,c⟩ := em
  simp only [halfEven,hf,ExtendedMantissa.roundedMantissa]
  cases c with
  | false =>
    obtain rfl := hs.mp rfl
    cases b <;> norm_num [ExtendedMantissa.accuracy,Accuracy.roundToNearestEven]
  | true =>
    have h0 : 0 < t := ht.lt_of_ne fun h => by simpa using hs.mpr h.symm
    cases b with
    | false =>
      rw [if_pos (by simpa using ht')]
      rfl
    | true =>
      rw [if_neg (by simp; linarith),if_pos (by simp; linarith)]
      rfl

/-- The half that the round bit stood for is a quarter one place lower. -/
theorem shiftRightOne (h : Reads em q) : Reads em.shiftRightOne (q/2) := by
  obtain ⟨t,ht,ht',hs,rfl⟩ := h
  obtain ⟨m,b,c⟩ := em
  refine ⟨(if b then 1/4 else 0)+t/2,by split_ifs <;> positivity,by split_ifs <;> linarith,?_,?_⟩
  · cases b <;> simp_all [ExtendedMantissa.shiftRightOne]; positivity
  · have hm : (m : ℚ) = 2*(m/2 : ℕ)+(m%2 : ℕ) := by exact_mod_cast (Nat.div_add_mod m 2).symm
    rcases Nat.mod_two_eq_zero_or_one m with h2 | h2 <;> cases b <;>
      simp [ExtendedMantissa.shiftRightOne,h2] at hm ⊢ <;> linarith

theorem shift (h : Reads em q) (k : ℕ) : Reads (em >>> k) (q/2^k) := by
  induction k with
  | zero => rwa [pow_zero,div_one]
  | succ k ih =>
    have hs := ih.shiftRightOne
    rwa [div_div,← pow_succ] at hs

end Reads

section Shift

variable {m : ℕ} {e : ℤ} {acc : Accuracy} {q : ℚ}

theorem targetExponent_binary64 (e : ℤ) : Format.binary64.targetExponent e = max (e-53) (-1074) :=
  rfl

theorem targetExponent_eq (m : ℕ) (e : ℤ) :
    Format.binary64.targetExponent (totalExponent m e) = max (m.log2+e-52) (-1074) := by
  rw [targetExponent_binary64,totalExponent]
  omega

theorem log_eq (hq : 0 < q) (hm : m ≠ 0) (h : ⌊q/2^e⌋₊ = m) : Int.log 2 q = m.log2+e := by
  have he : (0 : ℚ) < 2^e := zpow_pos (by norm_num) _
  obtain ⟨hl,hu⟩ := (Nat.floor_eq_iff (div_pos hq he).le).mp h
  rw [le_div_iff₀ he] at hl
  rw [div_lt_iff₀ he] at hu
  have hlow : (2 : ℚ)^(m.log2+e) ≤ q := by
    rw [zpow_add₀ (by norm_num),zpow_natCast]
    refine hl.trans' (mul_le_mul_of_nonneg_right ?_ he.le)
    exact_mod_cast Nat.log2_self_le hm
  have hhigh : q < (2 : ℚ)^(m.log2+e+1) := by
    rw [add_right_comm,zpow_add₀ (by norm_num)]
    refine hu.trans_le (mul_le_mul_of_nonneg_right ?_ he.le)
    exact_mod_cast Nat.lt_log2_self (n := m)
  have h₁ := (Int.zpow_le_iff_le_log (b := 2) (by decide) hq).mp hlow
  have h₂ := (Int.lt_zpow_iff_log_lt (b := 2) (by decide) hq).mp hhigh
  omega

/-- A mantissa and an exponent know the grid of the number that they come from. -/
theorem targetExponent_eq_gridExponent (hq : 0 < q)
    (h : Reads (.ofMantissaAndAccuracy m acc) (q/2^e)) (he : e ≤ gridExponent q) :
    Format.binary64.targetExponent (totalExponent m e) = gridExponent q := by
  have hf := h.floor_eq.trans (Reads.ofMantissaAndAccuracy_mantissa m acc)
  rw [targetExponent_eq]
  unfold gridExponent at he ⊢
  by_cases hm : m = 0
  · have hl : q < (2 : ℚ)^e := by
      rw [hm,Nat.floor_eq_zero,div_lt_one (zpow_pos (by norm_num) _)] at hf
      exact hf
    have := (Int.lt_zpow_iff_log_lt (b := 2) (by decide) hq).mp hl
    rw [hm,Nat.log2_zero]
    omega
  · rw [log_eq hq hm hf]

theorem shiftToTargetExponent_reads (hq : 0 < q)
    (h : Reads (.ofMantissaAndAccuracy m acc) (q/2^e)) (he : e ≤ gridExponent q) :
    Reads (shiftToTargetExponent .binary64 m e acc).1 (q/gridStep q) ∧
      (shiftToTargetExponent .binary64 m e acc).2 = gridExponent q := by
  obtain ⟨k,hk⟩ := Int.le.dest he
  have ht : (gridExponent q-e).toNat = k := by omega
  simp only [shiftToTargetExponent,shiftToExponent,targetExponent_eq_gridExponent hq h he,ht]
  refine ⟨?_,hk⟩
  rw [gridStep,← hk,zpow_add₀ (by norm_num),zpow_natCast,← div_div]
  exact h.shift k

theorem Reads.exact_div (n : ℕ) (e : ℤ) : Reads (.ofMantissaAndAccuracy n .exact) (n*2^e/2^e) := by
  rw [mul_div_cancel_right₀ _ (zpow_ne_zero _ (by norm_num))]
  exact .exact n

theorem unpack_pack_onGrid (s : Sign) (hq : 0 < q) (hm : m = ⌊q/gridStep q⌋₊)
    (he : e = gridExponent q) :
    (Float.Model.pack (if h : m = 0 then .zero s
      else .finite s m e (Nat.pos_of_ne_zero h))).unpack = onGrid s q := by
  subst hm he
  unfold onGrid
  dsimp only
  split_ifs with h he
  · exact unpack_pack_zero s
  · rw [unpack_pack_finite (canonical_floor hq),if_pos he]
  · rw [unpack_pack_finite (canonical_floor hq),if_neg he]

theorem gridExponent_le_nearest (hq : 0 < q) (hn : 0 < nearest q) :
    gridExponent q ≤ gridExponent (nearest q) := by
  have hl : -1074 ≤ gridExponent q := le_max_right _ _
  rcases hl.eq_or_lt with he | he
  · rw [← he]
    exact le_max_right _ _
  · have hr : (2 : ℚ)^(52+gridExponent q) ≤ nearest q := by
      rw [zpow_add₀ (by norm_num)]
      exact le_nearest hq he
    have := (Int.zpow_le_iff_le_log (b := 2) (by decide) hn).mp hr
    refine (le_max_left _ (-1074)).trans' ?_
    omega

theorem shiftToTargetExponent_zero (e : ℤ) :
    (shiftToTargetExponent .binary64 0 e .exact).1.mantissa = 0 := by
  have h := ((Reads.exact 0).shift
    (Format.binary64.targetExponent (totalExponent 0 e)-e).toNat).floor_eq
  rw [Nat.cast_zero,zero_div,Nat.floor_zero] at h
  exact h.symm

/-- Rounding is to the nearest point of the grid of a number. The second shift drops the zero
that a carry has left. -/
theorem roundWithAccuracy_eq (s : Sign) (hq : 0 < q)
    (h : Reads (.ofMantissaAndAccuracy m acc) (q/2^e)) (he : e ≤ gridExponent q) :
    (Float.Model.pack (roundWithAccuracy .binary64 s m e acc)).unpack = onGrid s (nearest q) := by
  obtain ⟨hr,hg⟩ := shiftToTargetExponent_reads hq h he
  have hr := hr.rounded_eq
  unfold roundWithAccuracy
  dsimp only
  by_cases hn : halfEven (q/gridStep q) = 0
  · rw [dif_pos (by rw [hr,hn]; exact shiftToTargetExponent_zero _),unpack_pack_zero,nearest,hn,
      Nat.cast_zero,zero_mul,onGrid_zero]
  · have hp : 0 < nearest q :=
      mul_pos (Nat.cast_pos.mpr (Nat.pos_of_ne_zero hn)) (gridStep_pos q)
    obtain ⟨hr',hg'⟩ := shiftToTargetExponent_reads (m := halfEven (q/gridStep q)) hp
      (.exact_div _ _) (gridExponent_le_nearest hq hp)
    exact unpack_pack_onGrid s hp (by rw [hr,hg]; exact hr'.floor_eq.symm) (by rw [hr,hg]; exact hg')

end Shift

end Binary64
end ExtrusionProfile
