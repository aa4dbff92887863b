import ExtrusionProfile.Proofs.Number.Rounding

/-! Arithmetic of doubles. A finite double is a rational, doubles are in the order of their
rationals, and a difference or a product of two of them is the double nearest to the exact
one. So differences and products of numbers that are not negative keep the order. -/
namespace ExtrusionProfile
namespace Binary64

open Float.Model Float.Model.UnpackedFloat

/-- The rational that a finite number is, and 0 for all others. -/
def ratOf : UnpackedFloat → ℚ
  | .finite s m e _ => s.apply m*2^e
  | _ => 0

def toRat (x : Float) : ℚ := ratOf x.toModel.unpack

/-- The double nearest to a rational. -/
def rounded (q : ℚ) : UnpackedFloat := onGrid (if q < 0 then .negative else .positive) (nearest |q|)

@[simp] theorem rounded_zero : rounded 0 = .zero .positive := by simp [rounded]

section Exact

variable {s : Sign} {m : ℕ} {e : ℤ} {h : 0 < m}

theorem log_mul_zpow (h : 0 < m) (e : ℤ) : Int.log 2 (m*2^e : ℚ) = m.log2+e := by
  have he : (0 : ℚ) < 2^e := zpow_pos (by norm_num) _
  refine log_eq (mul_pos (Nat.cast_pos.mpr h) he) h.ne' ?_
  rw [mul_div_cancel_right₀ _ he.ne',Nat.floor_natCast]

theorem gridExponent_canonical (h : 0 < m) (hc : Canonical m e) :
    gridExponent (m*2^e) = e := by
  obtain ⟨hm,hl,hn⟩ := hc
  have hlog : m.log2 < 53 := (Nat.log2_lt h.ne').mpr hm
  rw [gridExponent,log_mul_zpow h]
  rcases hl.eq_or_lt with he | he
  · omega
  · have := (Nat.le_log2 h.ne').mpr (hn he)
    omega

theorem nearest_canonical (h : 0 < m) (hc : Canonical m e) : nearest (m*2^e) = m*2^e := by
  rw [nearest,gridStep,gridExponent_canonical h hc,
    mul_div_cancel_right₀ _ (zpow_ne_zero _ (by norm_num)),halfEven_natCast]

theorem onGrid_canonical (s : Sign) (h : 0 < m) (hc : Canonical m e) (he : e ≤ 971) :
    onGrid s (m*2^e) = .finite s m e h := by
  have hf : ⌊(m*2^e : ℚ)/gridStep (m*2^e)⌋₊ = m := by
    rw [gridStep,gridExponent_canonical h hc,
      mul_div_cancel_right₀ _ (zpow_ne_zero _ (by norm_num)),Nat.floor_natCast]
  have hg := gridExponent_canonical h hc
  rw [onGrid,dif_neg (by rw [hf]; exact h.ne'),if_neg (by rw [hg]; exact not_lt.mpr he)]
  exact finite_congr hf hg

theorem magnitude_pos (h : 0 < m) (e : ℤ) : (0 : ℚ) < m*2^e :=
  mul_pos (Nat.cast_pos.mpr h) (zpow_pos (by norm_num) _)

@[simp] theorem ratOf_zero (s : Sign) : ratOf (.zero s) = 0 := rfl

theorem ratOf_positive (h : 0 < m) : ratOf (.finite .positive m e h) = m*2^e := by
  simp [ratOf,Sign.apply]

theorem ratOf_negative (h : 0 < m) : ratOf (.finite .negative m e h) = -(m*2^e) := by
  simp [ratOf,Sign.apply]

theorem ratOf_eq (s : Sign) (h : 0 < m) (e : ℤ) :
    ratOf (.finite s m e h) = s.apply 1*(m*2^e) := by
  cases s <;> simp [ratOf,Sign.apply]

theorem abs_ratOf (s : Sign) (h : 0 < m) (e : ℤ) : |ratOf (.finite s m e h)| = m*2^e := by
  have hp := magnitude_pos h e
  cases s with
  | negative => rw [ratOf_negative,abs_neg,abs_of_pos hp]
  | positive => rw [ratOf_positive,abs_of_pos hp]

theorem rounded_finite (s : Sign) (h : 0 < m) (e : ℤ) :
    rounded (ratOf (.finite s m e h)) = onGrid s (nearest (m*2^e)) := by
  have hp := magnitude_pos h e
  cases s with
  | negative => rw [ratOf_negative,rounded,if_pos (neg_lt_zero.mpr hp),abs_neg,abs_of_pos hp]
  | positive => rw [ratOf_positive,rounded,if_neg hp.not_gt,abs_of_pos hp]

theorem rounded_ratOf (h : 0 < m) (hc : Canonical m e) (he : e ≤ 971) :
    rounded (ratOf (.finite s m e h)) = .finite s m e h := by
  rw [rounded_finite,nearest_canonical h hc,onGrid_canonical s h hc he]

theorem Canonical.mul_zpow_le {e' : ℤ} (hc : Canonical m e) (he : e < e') :
    (m*2^e : ℚ) ≤ 2^52*2^e' := by
  have hm : (m : ℚ) ≤ 2^53 := by exact_mod_cast hc.lt.le
  exact (mul_le_mul_of_nonneg_right hm (zpow_pos (by norm_num) _).le).trans (two_pow_mul_zpow_le he)

theorem Canonical.le_of_rank {m' : ℕ} {e' : ℤ} (hc : Canonical m e) (hc' : Canonical m' e')
    (hr : toLex (e,(m : ℤ)) ≤ toLex (e',(m' : ℤ))) : (m*2^e : ℚ) ≤ m'*2^e' := by
  rw [Prod.Lex.toLex_le_toLex] at hr
  rcases hr with hl | ⟨rfl,hm⟩
  · have hm' : (2 : ℚ)^52 ≤ m' := by exact_mod_cast hc'.le (hc.least_le.trans_lt hl)
    exact (hc.mul_zpow_le hl).trans (mul_le_mul_of_nonneg_right hm' (zpow_pos (by norm_num) _).le)
  · refine mul_le_mul_of_nonneg_right ?_ (zpow_pos (by norm_num) _).le
    exact Nat.cast_le.mpr (Int.ofNat_le.mp hm)

theorem finite_cases {x : Float} (hx : x.isFinite) :
    (∃ s, x.toModel.unpack = .zero s) ∨
      ∃ s m e h, x.toModel.unpack = .finite s m e h ∧ Canonical m e ∧ e ≤ 971 := by
  replace hx : x.toModel.unpack.isFinite := hx
  cases hu : x.toModel.unpack with
  | infinity s => rw [hu] at hx; cases hx
  | notANumber => rw [hu] at hx; cases hx
  | zero s => exact .inl ⟨s,rfl⟩
  | finite s m e h => exact .inr ⟨s,m,e,h,rfl,unpack_canonical hu⟩

theorem toRat_le {x y : Float} (hx : x.isFinite) (hy : y.isFinite) (h : x ≤ y) :
    toRat x ≤ toRat y := by
  have hr := (le_iff.mp h).2.2
  unfold rank at hr
  unfold toRat
  rcases finite_cases hx with ⟨s,hx⟩ | ⟨s,m,e,hm,hx,hc,-⟩ <;>
    rcases finite_cases hy with ⟨s',hy⟩ | ⟨s',m',e',hm',hy,hc',-⟩ <;> rw [hx,hy] at hr ⊢
  · exact le_rfl
  · cases s' with
    | negative => simp [rankOf,Prod.Lex.toLex_le_toLex] at hr
    | positive => rw [ratOf_positive]; exact (magnitude_pos hm' e').le
  · cases s with
    | negative => rw [ratOf_negative]; exact (neg_lt_zero.mpr (magnitude_pos hm e)).le
    | positive => simp [rankOf,Prod.Lex.toLex_le_toLex] at hr
  · cases s <;> cases s'
    · rw [ratOf_negative,ratOf_negative]
      refine neg_le_neg (hc'.le_of_rank hc ?_)
      simp only [rankOf,Prod.Lex.toLex_le_toLex] at hr ⊢
      omega
    · rw [ratOf_negative,ratOf_positive]
      linarith [magnitude_pos hm e,magnitude_pos hm' e']
    · simp [rankOf,Prod.Lex.toLex_le_toLex] at hr
    · rw [ratOf_positive,ratOf_positive]
      refine hc.le_of_rank hc' ?_
      simp only [rankOf,Prod.Lex.toLex_le_toLex] at hr ⊢
      omega

/-- No double is nearer to a rational than the one it is rounded to: those that are not on its
grid are below it, and below a point of the grid. -/
theorem abs_sub_nearest_le {q : ℚ} (hq : 0 ≤ q) {y : Float} (hy : y.isFinite) :
    |q-nearest q| ≤ |q-toRat y| := by
  rcases hq.eq_or_lt with rfl | hq'
  · simp
  unfold toRat
  rcases finite_cases hy with ⟨s,hy⟩ | ⟨s,m,e,h,hy,hc,-⟩ <;> rw [hy]
  · simpa using abs_sub_nearest_le_mul hq 0
  rcases le_or_gt (gridExponent q) e with hg | hg
  · obtain ⟨k,hk⟩ := Int.le.dest hg
    have hv : ratOf (.finite s m e h) = (s.apply m*2^k : ℤ)*gridStep q := by
      rw [ratOf,gridStep,← hk,zpow_add₀ (by norm_num),zpow_natCast]
      push_cast
      ring
    rw [hv]
    exact abs_sub_nearest_le_mul hq _
  · have hl := le_of_gridExponent hq' (hc.least_le.trans_lt hg)
    have hp := abs_sub_nearest_le_mul hq (2^52)
    rw [Int.cast_pow,Int.cast_ofNat,abs_of_nonneg (sub_nonneg.mpr hl)] at hp
    have hr : ratOf (.finite s m e h) ≤ 2^52*gridStep q := by
      have hu := hc.mul_zpow_le hg
      cases s with
      | negative =>
        rw [ratOf_negative]
        exact (neg_nonpos.mpr (magnitude_pos h e).le).trans ((magnitude_pos h e).le.trans hu)
      | positive =>
        rw [ratOf_positive]
        exact hu
    exact hp.trans ((sub_le_sub_left hr q).trans (le_abs_self _))

end Exact

section Operations

variable {s : Sign} {m : ℕ} {e : ℤ} {h : 0 < m}

theorem unpack_pack_exact (s : Sign) (h : 0 < m) (he : e ≤ gridExponent (m*2^e)) :
    (Float.Model.pack (roundWithAccuracy .binary64 s m e .exact)).unpack =
      onGrid s (nearest (m*2^e)) :=
  roundWithAccuracy_eq s (magnitude_pos h e) (.exact_div m e) he

theorem shiftLeft_mul_zpow (m k : ℕ) (e : ℤ) : ((m <<< k : ℕ) : ℚ)*2^(e-k) = m*2^e := by
  rw [Nat.shiftLeft_eq,zpow_sub₀ (by norm_num),zpow_natCast]
  push_cast
  field_simp

/-- Rounding a natural multiple of a power of two first puts as many zeros behind it as the
grid has room for. -/
theorem unpack_pack_round (s : Sign) (h : 0 < m) (e : ℤ) :
    (Float.Model.pack (UnpackedFloat.round .binary64 s m e)).unpack =
      onGrid s (nearest (m*2^e)) := by
  have ht : Format.binary64.targetExponent (totalExponent m e) = gridExponent (m*2^e) := by
    rw [targetExponent_eq,gridExponent,log_mul_zpow h]
  simp only [UnpackedFloat.round,decreaseExponent,ht]
  have hv := shiftLeft_mul_zpow m (e-gridExponent (m*2^e)).toNat e
  rw [unpack_pack_exact s,hv]
  · rw [Nat.shiftLeft_eq]
    positivity
  · rw [hv]
    omega

theorem unpack_pack_normalize (n e : ℤ) :
    (Float.Model.pack (UnpackedFloat.normalize .binary64 n e .positive)).unpack = rounded (n*2^e) := by
  have he : (0 : ℚ) < 2^e := zpow_pos (by norm_num) _
  unfold UnpackedFloat.normalize
  rcases lt_trichotomy n 0 with h | rfl | h
  · obtain ⟨m,rfl⟩ : ∃ m : ℕ, n = -m := ⟨n.natAbs,by omega⟩
    have hm : 0 < m := by omega
    have hp := magnitude_pos hm e
    rw [compare_lt_iff_lt.mpr h]
    have hv : ((-(m : ℤ) : ℤ) : ℚ)*2^e = -(m*2^e) := by push_cast; ring
    simp only [neg_neg,Int.toNat_natCast]
    rw [unpack_pack_round _ hm,hv,rounded,if_pos (neg_lt_zero.mpr hp),abs_neg,abs_of_pos hp]
  · simp
  · obtain ⟨m,rfl⟩ : ∃ m : ℕ, n = m := ⟨n.natAbs,by omega⟩
    have hm : 0 < m := by omega
    have hp := magnitude_pos hm e
    rw [compare_gt_iff_gt.mpr h]
    simp only [Int.toNat_natCast,Int.cast_natCast]
    rw [unpack_pack_round _ hm,rounded,if_neg hp.not_gt,abs_of_pos hp]

/-- The product of two doubles is an integer on a grid at least as fine as that of doubles. -/
theorem Canonical.add_le_gridExponent {m' : ℕ} {e' : ℤ} (hc : Canonical m e)
    (hc' : Canonical m' e') (h : 0 < m) (h' : 0 < m') :
    e+e' ≤ gridExponent ((m*m' : ℕ)*2^(e+e')) := by
  have hm := Nat.mul_pos h h'
  rw [gridExponent,log_mul_zpow hm]
  by_cases hl : 2^52 ≤ m*m'
  · have := (Nat.le_log2 hm.ne').mpr hl
    omega
  · have hn : ¬-1074 < e := fun he => hl ((hc.le he).trans (Nat.le_mul_of_pos_right m h'))
    have hn' : ¬-1074 < e' := fun he => hl ((hc'.le he).trans (Nat.le_mul_of_pos_left m' h))
    omega

theorem ratOf_neg (s : Sign) (h : 0 < m) (e : ℤ) :
    ratOf (.finite (-s) m e h) = -ratOf (.finite s m e h) := by
  have hs : (-s).apply 1 = -s.apply 1 := by cases s <;> rfl
  rw [ratOf_eq,ratOf_eq,hs]
  push_cast
  ring

theorem ratOf_mul (s s' : Sign) {m' : ℕ} {e' : ℤ} (h' : 0 < m') :
    ratOf (.finite s m e h)*ratOf (.finite s' m' e' h') =
      ratOf (.finite (s*s') (m*m') (e+e') (Nat.mul_pos h h')) := by
  have hs : (s*s').apply 1 = s.apply 1*s'.apply 1 := by cases s <;> cases s' <;> rfl
  rw [ratOf_eq,ratOf_eq,ratOf_eq,hs,zpow_add₀ (by norm_num)]
  push_cast
  ring

/-- Whether `x` is the double nearest to `q`, but for the sign of a zero. -/
def Near (x : Float) (q : ℚ) : Prop := x.isNaN = false ∧ rank x = rankOf (rounded q)

theorem isNaN_onGrid (s : Sign) (r : ℚ) : (onGrid s r).isNaN = false := by
  unfold onGrid
  dsimp only
  split_ifs <;> rfl

theorem Near.of_eq {x : Float} {q : ℚ} (hx : x.toModel.unpack = rounded q) : Near x q := by
  refine ⟨?_,congrArg rankOf hx⟩
  change x.toModel.unpack.isNaN = false
  rw [hx]
  exact isNaN_onGrid _ _

theorem Near.of_zero {x : Float} (s : Sign) (hx : x.toModel = .pack (.zero s)) : Near x 0 := by
  have hu : x.toModel.unpack = .zero s := by rw [hx,unpack_pack_zero]
  refine ⟨?_,?_⟩
  · change x.toModel.unpack.isNaN = false
    rw [hu]
    rfl
  · rw [rank,hu,rounded_zero]
    rfl

theorem unpack_pack_canonical (hc : Canonical m e) (he : e ≤ 971) :
    (Float.Model.pack (.finite s m e h)).unpack = .finite s m e h := by
  rw [unpack_pack_finite hc,if_neg (not_lt.mpr he)]

theorem unpack_neg (x : Float) : (-x).toModel.unpack = x.toModel.unpack.neg := by
  change (Float.Model.pack x.toModel.unpack.neg).unpack = _
  cases hx : x.toModel.unpack with
  | infinity s => exact unpack_pack_infinity _
  | notANumber => exact unpack_pack_notANumber
  | zero s => exact unpack_pack_zero _
  | finite s m e h =>
    obtain ⟨hc,he⟩ := unpack_canonical hx
    exact unpack_pack_canonical hc he

theorem neg_onGrid (r : ℚ) : (onGrid .positive r).neg = onGrid .negative r := by
  unfold onGrid
  dsimp only
  split_ifs <;> rfl

theorem apply_shiftLeft (s : Sign) (h : 0 < m) (e : ℤ) (k : ℕ) :
    (s.apply ((m <<< k : ℕ) : ℤ) : ℚ)*2^(e-k) = ratOf (.finite s m e h) := by
  have hv := shiftLeft_mul_zpow m k e
  cases s with
  | negative => simp only [ratOf_negative,Sign.apply,Int.cast_neg,Int.cast_natCast,neg_mul,hv]
  | positive => simp only [ratOf_positive,Sign.apply,Int.cast_natCast,hv]

theorem near_sub {x y : Float} (hx : x.isFinite) (hy : y.isFinite) :
    Near (x-y) (toRat x-toRat y) := by
  have hd : (x-y).toModel = .pack (.sub .binary64 x.toModel.unpack y.toModel.unpack) := rfl
  unfold toRat
  rcases finite_cases hx with ⟨s,hx⟩ | ⟨s,m,e,hm,hx,hc,he⟩ <;>
    rcases finite_cases hy with ⟨s',hy⟩ | ⟨s',m',e',hm',hy,hc',he'⟩ <;> rw [hx,hy] at hd ⊢
  · rw [ratOf_zero,ratOf_zero,sub_zero]
    simp only [UnpackedFloat.sub] at hd
    split_ifs at hd <;> exact .of_zero _ hd
  · refine .of_eq ?_
    rw [hd,ratOf_zero,zero_sub,← ratOf_neg,rounded_ratOf hm' hc' he']
    exact unpack_pack_canonical hc' he'
  · refine .of_eq ?_
    rw [hd,ratOf_zero,sub_zero,rounded_ratOf hm hc he]
    exact unpack_pack_canonical hc he
  · have hk : e-(e-min e e').toNat = min e e' := by omega
    have hk' : e'-(e'-min e e').toNat = min e e' := by omega
    have hv := congrArg₂ (· - ·) (apply_shiftLeft s hm e (e-min e e').toNat)
      (apply_shiftLeft s' hm' e' (e'-min e e').toNat)
    simp only [hk,hk',← sub_mul,← Int.cast_sub] at hv
    refine .of_eq ?_
    rw [hd]
    simp only [UnpackedFloat.sub,decreaseExponent]
    rw [unpack_pack_normalize,hv]

theorem near_mul {x y : Float} (hx : x.isFinite) (hy : y.isFinite) :
    Near (x*y) (toRat x*toRat y) := by
  have hd : (x*y).toModel = .pack (.mul .binary64 x.toModel.unpack y.toModel.unpack) := rfl
  unfold toRat
  rcases finite_cases hx with ⟨s,hx⟩ | ⟨s,m,e,hm,hx,hc,he⟩ <;>
    rcases finite_cases hy with ⟨s',hy⟩ | ⟨s',m',e',hm',hy,hc',he'⟩ <;> rw [hx,hy] at hd ⊢
  · rw [ratOf_zero,zero_mul]
    exact .of_zero _ hd
  · rw [ratOf_zero,zero_mul]
    exact .of_zero _ hd
  · rw [ratOf_zero,mul_zero]
    exact .of_zero _ hd
  · refine .of_eq ?_
    rw [hd,ratOf_mul,rounded_finite]
    exact unpack_pack_exact _ (Nat.mul_pos hm hm') (hc.add_le_gridExponent hc' hm hm')

end Operations

section Order

variable {q r : ℚ} {x y u v u' v' : Float}

theorem rounded_of_nonneg (hq : 0 ≤ q) : rounded q = onGrid .positive (nearest q) := by
  rw [rounded,if_neg (not_lt.mpr hq),abs_of_nonneg hq]

theorem nearest_nonneg (q : ℚ) : 0 ≤ nearest q := by
  unfold nearest
  have := gridStep_pos q
  positivity

theorem rankOf_rounded_mono (hq : 0 ≤ q) (h : q ≤ r) :
    rankOf (rounded q) ≤ rankOf (rounded r) := by
  rw [rounded_of_nonneg hq,rounded_of_nonneg (hq.trans h)]
  rcases hq.eq_or_lt with rfl | hp
  · rw [nearest_zero,onGrid_zero]
    exact rankOf_zero_le_onGrid _ _
  · exact rankOf_onGrid_mono (nearest_nonneg q) (nearest_mono hp h)

/-- Whether `x` is a number that is not below zero. -/
def NonNeg (x : Float) : Prop := x.isNaN = false ∧ rankOf (.zero .positive) ≤ rank x

theorem Near.nonNeg (hx : Near x q) (hq : 0 ≤ q) : NonNeg x := by
  refine ⟨hx.1,?_⟩
  rw [hx.2,rounded_of_nonneg hq]
  exact rankOf_zero_le_onGrid _ _

theorem Near.le (hx : Near x q) (hy : Near y r) (hq : 0 ≤ q) (h : q ≤ r) : x ≤ y := by
  refine le_iff.mpr ⟨hx.1,hy.1,?_⟩
  rw [hx.2,hy.2]
  exact rankOf_rounded_mono hq h

theorem sub_mono {x' y' : Float} (hx : x.isFinite) (hy : y.isFinite) (hx' : x'.isFinite)
    (hy' : y'.isFinite) (h : y ≤ x) (hl : x ≤ x') (hr : y' ≤ y) :
    NonNeg (x-y) ∧ x-y ≤ x'-y' := by
  have hp : 0 ≤ toRat x-toRat y := sub_nonneg.mpr (toRat_le hy hx h)
  refine ⟨(near_sub hx hy).nonNeg hp,(near_sub hx hy).le (near_sub hx' hy') hp ?_⟩
  exact sub_le_sub (toRat_le hx hx' hl) (toRat_le hy' hy hr)

theorem NonNeg.of_le (hx : NonNeg x) (h : x ≤ y) : NonNeg y := by
  obtain ⟨-,hn,hr⟩ := le_iff.mp h
  exact ⟨hn,hx.2.trans hr⟩

theorem NonNeg.cases (hx : NonNeg x) : x.toModel.unpack = .infinity .positive ∨
    (∃ s, x.toModel.unpack = .zero s) ∨ ∃ m e h, x.toModel.unpack = .finite .positive m e h := by
  obtain ⟨hn,hr⟩ := hx
  change x.toModel.unpack.isNaN = false at hn
  unfold rank at hr
  generalize x.toModel.unpack = w at hn hr ⊢
  rcases w with s | _ | s | ⟨s,m,e,h⟩
  · cases s with
    | negative => simp [rankOf,Prod.Lex.toLex_le_toLex] at hr
    | positive => exact .inl rfl
  · cases hn
  · exact .inr (.inl ⟨s,rfl⟩)
  · cases s with
    | negative => simp [rankOf,Prod.Lex.toLex_le_toLex] at hr
    | positive => exact .inr (.inr ⟨m,e,h,rfl⟩)

theorem NonNeg.toRat_nonneg (hx : NonNeg x) : 0 ≤ toRat x := by
  rw [toRat]
  rcases hx.cases with hx | ⟨s,hx⟩ | ⟨m,e,h,hx⟩ <;> rw [hx]
  · exact le_rfl
  · exact le_rfl
  · rw [ratOf_positive]
    exact (magnitude_pos h e).le

theorem rankOf_le_infinity (u : UnpackedFloat) : rankOf u ≤ rankOf (.infinity .positive) := by
  rcases u with s | _ | s | ⟨s,m,e,h⟩ <;> (try cases s) <;>
    simp [rankOf,Prod.Lex.toLex_le_toLex]

theorem le_of_infinity (hx : x.isNaN = false) (hy : y.toModel.unpack = .infinity .positive) :
    x ≤ y := by
  refine le_iff.mpr ⟨hx,?_,?_⟩
  · change y.toModel.unpack.isNaN = false
    rw [hy]
    rfl
  · rw [rank,rank,hy]
    exact rankOf_le_infinity _

theorem NonNeg.isFinite (hx : NonNeg x) (hi : x.toModel.unpack ≠ .infinity .positive) :
    x.isFinite := by
  change x.toModel.unpack.isFinite
  rcases hx.cases with hx | ⟨s,hx⟩ | ⟨m,e,hm,hx⟩
  · exact absurd hx hi
  · rw [hx]; rfl
  · rw [hx]; rfl

theorem NonNeg.isFinite_of_le (hx : NonNeg x) (h : x ≤ y) (hy : y.isFinite) : x.isFinite := by
  refine hx.isFinite fun hi => ?_
  have hr := (le_iff.mp h).2.2
  rw [rank,rank,hi] at hr
  rcases finite_cases hy with ⟨s,hy⟩ | ⟨s,m,e,hm,hy,-⟩ <;> rw [hy] at hr
  · simp [rankOf,Prod.Lex.toLex_le_toLex] at hr
  · cases s <;> simp [rankOf,Prod.Lex.toLex_le_toLex] at hr

theorem NonNeg.mul_infinity (hx : NonNeg x) (hy : NonNeg y)
    (hi : x.toModel.unpack = .infinity .positive ∨ y.toModel.unpack = .infinity .positive)
    (hn : (x*y).isNaN = false) : (x*y).toModel.unpack = .infinity .positive := by
  have hd : (x*y).toModel.unpack =
    (Float.Model.pack (.mul .binary64 x.toModel.unpack y.toModel.unpack)).unpack := rfl
  change (x*y).toModel.unpack.isNaN = false at hn
  rw [hd] at hn ⊢
  rcases hi with hi | hi <;> rw [hi] at hn ⊢
  · rcases hy.cases with hy | ⟨s,hy⟩ | ⟨m,e,hm,hy⟩ <;> rw [hy] at hn ⊢
    · exact unpack_pack_infinity _
    · exact absurd (congrArg UnpackedFloat.isNaN unpack_pack_notANumber) (Bool.eq_false_iff.mp hn)
    · exact unpack_pack_infinity _
  · rcases hx.cases with hx | ⟨s,hx⟩ | ⟨m,e,hm,hx⟩ <;> rw [hx] at hn ⊢
    · exact unpack_pack_infinity _
    · exact absurd (congrArg UnpackedFloat.isNaN unpack_pack_notANumber) (Bool.eq_false_iff.mp hn)
    · exact unpack_pack_infinity _

/-- A product of numbers not below zero is not less than that of lesser ones, if both are
numbers at all. -/
theorem mul_mono (hu : NonNeg u) (hv : NonNeg v) (h : u ≤ u') (h' : v ≤ v')
    (hn : (u*v).isNaN = false) (hn' : (u'*v').isNaN = false) : u*v ≤ u'*v' := by
  have hu' := hu.of_le h
  have hv' := hv.of_le h'
  by_cases hi : u'.toModel.unpack = .infinity .positive ∨ v'.toModel.unpack = .infinity .positive
  · exact le_of_infinity hn (hu'.mul_infinity hv' hi hn')
  obtain ⟨hi,hi'⟩ := not_or.mp hi
  have hf := NonNeg.isFinite hu' hi
  have hf' := NonNeg.isFinite hv' hi'
  have hg := hu.isFinite_of_le h hf
  have hg' := hv.isFinite_of_le h' hf'
  refine (near_mul hg hg').le (near_mul hf hf')
    (mul_nonneg hu.toRat_nonneg hv.toRat_nonneg) ?_
  exact mul_le_mul (toRat_le hg hf h) (toRat_le hg' hf' h') hv.toRat_nonneg hu'.toRat_nonneg

end Order

end Binary64
end ExtrusionProfile
