import ExtrusionProfile.Number.Text
import ExtrusionProfile.Proofs.Number.Exponent

/-! The shortest decimal of a double reads back to it. Every rational in a double's interval is
rounded to it, the ends too when the significand is even, and the search ends in that interval: there
is a decimal of seventeen digits in its upper half. -/
namespace ExtrusionProfile
namespace Binary64

section Nearest

variable {q : ℚ} {m n : ℕ} {e : ℤ}

theorem halfEven_eq (hl : n-1/2 ≤ q) (hu : q ≤ n+1/2) (ho : n%2 = 1 → n-1/2 < q ∧ q < n+1/2) :
    halfEven q = n := by
  rcases le_or_gt (n : ℚ) q with h | h
  · have hf : ⌊q⌋₊ = n := (Nat.floor_eq_iff (n.cast_nonneg.trans h)).mpr ⟨h,by linarith⟩
    unfold halfEven
    dsimp only
    rw [hf]
    split_ifs
    · rfl
    · linarith
    · rcases Nat.mod_two_eq_zero_or_one n with h2 | h2
      · rw [h2,add_zero]
      · linarith [(ho h2).2]
  · cases n with
    | zero =>
      rw [Nat.cast_zero] at h
      unfold halfEven
      dsimp only
      rw [Nat.floor_of_nonpos h.le,Nat.cast_zero,if_pos (by linarith)]
    | succ k =>
      push_cast at hl hu ho h
      have hk : (0 : ℚ) ≤ k := k.cast_nonneg
      have hf : ⌊q⌋₊ = k := (Nat.floor_eq_iff (by linarith)).mpr ⟨by linarith,h⟩
      unfold halfEven
      dsimp only
      rw [hf]
      split_ifs
      · linarith
      · rfl
      · rcases Nat.mod_two_eq_zero_or_one k with h2 | h2
        · linarith [(ho (by omega)).1]
        · rw [h2]

theorem gridExponent_eq (h0 : 0 < q) (he : -1074 ≤ e) (hl : -1074 < e → 2^52*2^e ≤ q)
    (hu : q < 2^53*2^e) : gridExponent q = e := by
  refine le_antisymm (max_le ?_ he) ?_
  · have hu : q < 2^(e+53) := by rwa [zpow_add₀ (by norm_num),mul_comm]
    have := (Int.lt_zpow_iff_log_lt (b:=2) (by decide) h0).mp (by exact_mod_cast hu)
    omega
  · rcases he.eq_or_lt with rfl | he
    · exact le_max_right _ _
    · have hl : 2^(e+52) ≤ q := by
        have := hl he
        rwa [zpow_add₀ (by norm_num),mul_comm]
      have := (Int.zpow_le_iff_le_log (b:=2) (by decide) h0).mp (by exact_mod_cast hl)
      exact le_max_of_le_left (by omega)

/-- The interval of what is rounded to a double. Below a power of two it is half as long. -/
structure RoundsTo (m : ℕ) (e : ℤ) (q : ℚ) : Prop where
  low : (m-(if m = 2^52 ∧ -1074 < e then 1/4 else 1/2))*2^e ≤ q
  high : q ≤ (m+1/2)*2^e
  odd : m%2 = 1 → (m-1/2)*2^e < q ∧ q < (m+1/2)*2^e

theorem RoundsTo.lower (h : RoundsTo m e q) : (m-1/2)*2^e ≤ q := by
  have hp : (0 : ℚ) < 2^e := zpow_pos two_pos _
  refine h.low.trans' ?_
  gcongr
  split_ifs <;> norm_num

theorem RoundsTo.pos (hm : 0 < m) (h : RoundsTo m e q) : 0 < q := by
  have h1 : (1 : ℚ) ≤ m := by exact_mod_cast hm
  exact (mul_pos (by linarith) (zpow_pos two_pos e)).trans_le h.lower

theorem RoundsTo.nearest_eq_of_le (hc : Canonical m e) (hm : 0 < m) (h : RoundsTo m e q)
    (hs : -1074 < e → 2^52*2^e ≤ q) : nearest q = m*2^e := by
  have hp : (0 : ℚ) < 2^e := zpow_pos two_pos _
  have hm53 : (m : ℚ)+1 ≤ 2^53 := by exact_mod_cast hc.lt
  have hu : q < 2^53*2^e := h.high.trans_lt (mul_lt_mul_of_pos_right (by linarith) hp)
  have hr : halfEven (q/2^e) = m := by
    refine halfEven_eq ((le_div_iff₀ hp).mpr h.lower) ((div_le_iff₀ hp).mpr h.high) fun h2 => ?_
    exact ⟨(lt_div_iff₀ hp).mpr (h.odd h2).1,(div_lt_iff₀ hp).mpr (h.odd h2).2⟩
  rw [nearest,gridStep,gridExponent_eq (h.pos hm) hc.least_le hs hu,hr]

/-- Only a power of two rounds from below it, where the grid is twice as fine. -/
theorem RoundsTo.eq_of_lt (hc : Canonical m e) (h : RoundsTo m e q) (he : -1074 < e)
    (hs : q < 2^52*2^e) : m = 2^52 := by
  have hp : (0 : ℚ) < 2^e := zpow_pos two_pos e
  have hlt : (m : ℚ)-1/2 < 2^52 := lt_of_mul_lt_mul_right (h.lower.trans_lt hs) hp.le
  have hlt : (m : ℚ) < (2^52+1 : ℕ) := by push_cast; linarith
  have hlt : m < 2^52+1 := by exact_mod_cast hlt
  have := hc.le he
  omega

theorem RoundsTo.nearest_eq_of_lt (hc : Canonical m e) (hm : 0 < m) (h : RoundsTo m e q)
    (he : -1074 < e) (hs : q < 2^52*2^e) : nearest q = m*2^e := by
  have hd : (2 : ℚ)^e = 2*2^(e-1) := by rw [two_mul_two_zpow,sub_add_cancel]
  have hp : (0 : ℚ) < 2^(e-1) := zpow_pos two_pos _
  have hm52 := h.eq_of_lt hc he hs
  have hlow := h.low
  rw [if_pos ⟨hm52,he⟩] at hlow
  rw [hd] at hlow hs ⊢
  rw [hm52] at hlow ⊢
  push_cast at hlow ⊢
  have hr : halfEven (q/2^(e-1)) = 2*2^52 := by
    refine halfEven_eq ((le_div_iff₀ hp).mpr ?_) ((div_le_iff₀ hp).mpr ?_) fun h2 => by omega
    · push_cast
      linarith
    · push_cast
      linarith
  rw [nearest,gridStep,gridExponent_eq (e:=e-1) (h.pos hm) (by omega) (fun _ => by linarith)
    (by linarith),hr]
  push_cast
  ring

theorem RoundsTo.nearest_eq (hc : Canonical m e) (hm : 0 < m) (h : RoundsTo m e q) :
    nearest q = m*2^e := by
  by_cases hs : -1074 < e → 2^52*2^e ≤ q
  · exact h.nearest_eq_of_le hc hm hs
  · push Not at hs
    exact h.nearest_eq_of_lt hc hm hs.1 hs.2

end Nearest

section Fields

variable {x : Float}

theorem canonical_fields (x : Float) : Canonical (significand x) (exponent x) := by
  refine ⟨significand_lt x,?_,?_⟩ <;> unfold exponent
  · split_ifs <;> omega
  · unfold significand
    split_ifs <;> omega

theorem least_lt_exponent_iff (x : Float) : -1074 < exponent x ↔ 1 < biasedExponent x := by
  unfold exponent
  split_ifs <;> omega

end Fields
end Binary64

namespace Shortest

open Binary64

theorem quotient_eq_zpow {b : ℕ} (hb : 0 < b) (p : ℤ) :
    ((b^p.toNat : ℕ) : ℚ)/(b^(-p).toNat : ℕ) = b^p := by
  have h0 : (b : ℚ) ≠ 0 := by positivity
  rw [Nat.cast_pow,Nat.cast_pow,← zpow_natCast,← zpow_natCast,← zpow_sub₀ h0,Int.toNat_sub_toNat_neg]

theorem tenPower_eq (p : ℤ) : ((tenPower p).1 : ℚ)/(tenPower p).2 = 10^p :=
  quotient_eq_zpow (by norm_num) p

theorem tenPower_pos (p : ℤ) : 0 < (tenPower p).1 ∧ 0 < (tenPower p).2 :=
  ⟨Nat.pow_pos (by norm_num),Nat.pow_pos (by norm_num)⟩

namespace Rounding

section Intervals

variable {r : Rounding} {n d : ℕ} {p : ℤ}

theorem holds_iff (hr : 0 < r.den) (hd : 0 < d) : r.holds n d ↔
    if r.closed then (r.low : ℚ)/r.den ≤ n/d ∧ (n : ℚ)/d ≤ r.high/r.den
    else (r.low : ℚ)/r.den < n/d ∧ (n : ℚ)/d < r.high/r.den := by
  have hr : (0 : ℚ) < r.den := by exact_mod_cast hr
  have hd : (0 : ℚ) < d := by exact_mod_cast hd
  unfold holds
  split_ifs <;> simp only [Bool.and_eq_true,decide_eq_true_eq]
  · rw [div_le_div_iff₀ hr hd,div_le_div_iff₀ hd hr]
    norm_cast
  · rw [div_lt_div_iff₀ hr hd,div_lt_div_iff₀ hd hr]
    norm_cast

/-- The interval holds a multiple of a power of ten. -/
def HoldsDecimal (r : Rounding) (n : ℕ) (p : ℤ) : Prop := r.holds (n*(tenPower p).1) (tenPower p).2

theorem holdsDecimal_of_onGrid (h : r.onGrid p = some n) : r.HoldsDecimal n p := by
  unfold HoldsDecimal
  simp only [onGrid] at h
  split_ifs at h <;> simp_all

/-- The multiple next above the middle is in the interval, as soon as the grid is fine enough. -/
theorem holdsDecimal_above (hr : 0 < r.den) (hl : r.low ≤ r.mid)
    (h : (r.mid : ℚ)/r.den+10^p < r.high/r.den) :
    r.HoldsDecimal (r.mid*(tenPower p).2/(r.den*(tenPower p).1)+1) p := by
  obtain ⟨ha,hb⟩ := tenPower_pos p
  have hd : (0 : ℚ) < r.den := by exact_mod_cast hr
  have hb' : (0 : ℚ) < (tenPower p).2 := by exact_mod_cast hb
  have hp := tenPower_eq p
  have hfloor := Nat.div_mul_le_self (r.mid*(tenPower p).2) (r.den*(tenPower p).1)
  have hceil := Nat.lt_mul_div_succ (r.mid*(tenPower p).2) (Nat.mul_pos hr ha)
  generalize r.mid*(tenPower p).2/(r.den*(tenPower p).1) = n at hfloor hceil ⊢
  have hv : (((n+1)*(tenPower p).1 : ℕ) : ℚ)/(tenPower p).2 = (n+1)*10^p := by
    rw [← hp]
    push_cast
    ring
  have hle : (n : ℚ)*10^p ≤ r.mid/r.den := by
    rw [← hp,mul_div_assoc',div_le_div_iff₀ hb' hd]
    exact_mod_cast (by linarith : n*(tenPower p).1*r.den ≤ r.mid*(tenPower p).2)
  have hlt : (r.mid : ℚ)/r.den < (n+1)*10^p := by
    rw [← hp,mul_div_assoc',div_lt_div_iff₀ hd hb']
    exact_mod_cast (by linarith : r.mid*(tenPower p).2 < (n+1)*(tenPower p).1*r.den)
  have hlow : (r.low : ℚ)/r.den ≤ r.mid/r.den :=
    div_le_div_of_nonneg_right (by exact_mod_cast hl) hd.le
  have hlt' := hlow.trans_lt hlt
  have hgt : ((n : ℚ)+1)*10^p < r.high/r.den := by linarith
  unfold HoldsDecimal
  rw [holds_iff hr hb,hv]
  split_ifs
  · exact ⟨hlt'.le,hgt.le⟩
  · exact ⟨hlt',hgt⟩

theorem isSome_onGrid (hr : 0 < r.den) (hl : r.low ≤ r.mid)
    (h : (r.mid : ℚ)/r.den+10^p < r.high/r.den) : (r.onGrid p).isSome := by
  have ha := holdsDecimal_above hr hl h
  unfold HoldsDecimal at ha
  simp only [onGrid,ha]
  split_ifs <;> simp_all

theorem onGrid_search {k : ℕ} (h : (r.onGrid (p-k)).isSome) :
    r.onGrid (r.search k p).2 = some (r.search k p).1 := by
  induction k generalizing p with
  | zero =>
    obtain ⟨n,hn⟩ := Option.isSome_iff_exists.mp h
    rw [Nat.cast_zero,sub_zero] at hn
    rw [search,hn]
    rfl
  | succ k ih =>
    rw [search]
    split
    · assumption
    · refine ih ?_
      rwa [sub_sub,add_comm (1 : ℤ),← Nat.cast_succ]

/-- The power of ten that the search starts from is not above the value, unless it is as many steps
below the guess as are tried. -/
theorem magnitude_le (hr : 0 < r.den) (k : ℕ) (g : ℤ) :
    (10 : ℚ)^(r.magnitude k g) ≤ r.mid/r.den ∨ r.magnitude k g = g-k := by
  induction k generalizing g with
  | zero => exact .inr (by simp [magnitude])
  | succ k ih =>
    rw [magnitude]
    dsimp only
    split_ifs with h
    · left
      have hd : (0 : ℚ) < r.den := by exact_mod_cast hr
      have hb : (0 : ℚ) < (tenPower g).2 := by exact_mod_cast (tenPower_pos g).2
      rw [← tenPower_eq,div_le_div_iff₀ hb hd]
      exact_mod_cast h
    · refine (ih (g-1)).imp_right fun he => ?_
      rw [he]
      push_cast
      ring

end Intervals
section Doubles

variable (x : Float)

theorem den_pos : 0 < (ofFloat x).den := by
  simp [ofFloat,Nat.one_shiftLeft]

theorem quarters (k : ℕ) : ((k*(1 <<< (exponent x-2).toNat) : ℕ) : ℚ)/(ofFloat x).den =
    k/4*2^exponent x := by
  have hs : ((1 <<< (exponent x-2).toNat : ℕ) : ℚ)/(ofFloat x).den = 2^(exponent x-2) := by
    have h := quotient_eq_zpow (b:=2) (by norm_num) (exponent x-2)
    rw [← Nat.one_shiftLeft,← Nat.one_shiftLeft] at h
    exact_mod_cast h
  rw [Nat.cast_mul,mul_div_assoc,hs,zpow_sub₀ (by norm_num)]
  ring

theorem mid_eq : ((ofFloat x).mid : ℚ)/(ofFloat x).den = significand x*2^exponent x := by
  refine (quarters x (4*significand x)).trans ?_
  push_cast
  ring

theorem high_eq : ((ofFloat x).high : ℚ)/(ofFloat x).den = (significand x+1/2)*2^exponent x := by
  refine (quarters x (4*significand x+2)).trans ?_
  push_cast
  ring

variable {x}

theorem low_eq (h : 0 < significand x) : ((ofFloat x).low : ℚ)/(ofFloat x).den =
    (significand x-if significand x = 2^52 ∧ -1074 < exponent x then 1/4 else 1/2)*
      2^exponent x := by
  have hi : (significand x = 0x10000000000000 ∧ biasedExponent x > 1) ↔
      (significand x = 2^52 ∧ -1074 < exponent x) := and_congr_right' (least_lt_exponent_iff x).symm
  refine (quarters x _).trans ?_
  simp only [hi]
  split_ifs
  · rw [Nat.cast_sub (by omega)]
    push_cast
    ring
  · rw [Nat.cast_sub (by omega)]
    push_cast
    ring

theorem low_le_mid : (ofFloat x).low ≤ (ofFloat x).mid := by
  refine Nat.mul_le_mul_right _ ?_
  split_ifs <;> omega

theorem roundsTo_of_holdsDecimal {n : ℕ} {p : ℤ} (h0 : 0 < significand x)
    (h : (ofFloat x).HoldsDecimal n p) : RoundsTo (significand x) (exponent x) (n*10^p) := by
  have hv : ((n*(tenPower p).1 : ℕ) : ℚ)/(tenPower p).2 = n*10^p := by
    rw [Nat.cast_mul,mul_div_assoc,tenPower_eq]
  unfold HoldsDecimal at h
  rw [holds_iff (den_pos x) (tenPower_pos p).2,hv,low_eq h0,high_eq] at h
  have hc : (ofFloat x).closed = decide (significand x%2 = 0) := rfl
  simp only [hc,decide_eq_true_eq] at h
  by_cases h2 : significand x%2 = 0
  · rw [if_pos h2] at h
    exact ⟨h.1,h.2,fun ho => by omega⟩
  · rw [if_neg h2] at h
    have hn : ¬(significand x = 2^52 ∧ -1074 < exponent x) := fun h => by omega
    refine ⟨h.1.le,h.2.le,fun _ => ?_⟩
    rwa [if_neg hn] at h

end Doubles

end Rounding

/-- The estimate of the number of digits is close enough for all doubles. -/
theorem ten_zpow_le_two_zpow {k l : ℤ} (h : 100000*k ≤ 30103*l) (hl : -6000 ≤ l) (hu : l ≤ 6000) :
    (10 : ℚ)^k ≤ 2^(l+1) := by
  rcases le_or_gt 0 k with hk | hk
  · refine le_of_pow_le_pow_left₀ (n:=59) (by norm_num) (by positivity) ?_
    have hb : (10 : ℚ)^59 ≤ 2^196 := by norm_num
    calc ((10 : ℚ)^k)^59 = (10^59)^k := by rw [← zpow_natCast,← zpow_natCast,zpow_comm]
      _ ≤ (2^196)^k := zpow_le_zpow_left₀ hk (by norm_num) hb
      _ = 2^(196*k) := by rw [zpow_mul]; norm_cast
      _ ≤ 2^((l+1)*59) := zpow_le_zpow_right₀ one_le_two (by omega)
      _ = (2^(l+1))^59 := by rw [zpow_mul]; norm_cast
  · refine le_of_pow_le_pow_left₀ (n:=28) (by norm_num) (by positivity) ?_
    have hb : (2 : ℚ)^93 ≤ 10^28 := by norm_num
    have hn : 0 ≤ -k := by omega
    calc ((10 : ℚ)^k)^28 = ((10^28)^(-k))⁻¹ := by
          rw [← zpow_neg,neg_neg,← zpow_natCast,← zpow_natCast,zpow_comm]
      _ ≤ ((2^93)^(-k))⁻¹ := inv_anti₀ (by positivity) (zpow_le_zpow_left₀ hn (by norm_num) hb)
      _ = 2^(93*k) := by rw [← zpow_neg,neg_neg,zpow_mul]; norm_cast
      _ ≤ 2^((l+1)*28) := zpow_le_zpow_right₀ one_le_two (by omega)
      _ = (2^(l+1))^28 := by rw [zpow_mul]; norm_cast

theorem normalize_eq (k n : ℕ) (p : ℤ) :
    ((normalize k n p).1 : ℚ)*10^(normalize k n p).2 = n*10^p := by
  induction k generalizing n p with
  | zero => rfl
  | succ k ih =>
    rw [normalize]
    split_ifs with h
    · obtain ⟨m,rfl⟩ := Nat.dvd_of_mod_eq_zero h.1
      rw [ih,Nat.mul_div_cancel_left m (by norm_num),zpow_add_one₀ (by norm_num)]
      push_cast
      ring
    · rfl

section Decimals

variable (x : Float)

theorem exponent_le : exponent x ≤ 972 := by
  have hb : biasedExponent x < 2^11 := (biasedExponent_eq x).trans_lt (BitVec.isLt _)
  unfold exponent
  split_ifs <;> omega

theorem magnitude_lt : (significand x : ℚ)*2^exponent x < 2^53*2^exponent x := by
  refine mul_lt_mul_of_pos_right ?_ (zpow_pos two_pos _)
  exact_mod_cast significand_lt x

/-- The power of ten just above which the search starts. -/
def startOf : ℤ :=
  (Rounding.ofFloat x).magnitude 4 ((exponent x+Nat.log2 (significand x))*30103/100000+2)

variable {x} (h0 : 0 < significand x)

include h0

/-- Seventeen powers of ten below its start, the search is on a grid finer than half a step. -/
theorem ten_zpow_lt : (10 : ℚ)^(startOf x-17) < 1/2*2^exponent x := by
  have hc := canonical_fields x
  have hlog : Nat.log2 (significand x) < 53 := (Nat.log2_lt h0.ne').mpr hc.lt
  obtain ⟨j,hj,hle⟩ : ∃ j, startOf x ≤ j ∧ (10 : ℚ)^j ≤ 2^53*2^exponent x := by
    rcases Rounding.magnitude_le (Rounding.den_pos x) 4
      ((exponent x+Nat.log2 (significand x))*30103/100000+2) with h | h
    · rw [Rounding.mid_eq] at h
      exact ⟨_,le_rfl,h.trans (magnitude_lt x).le⟩
    · have hl := hc.least_le
      have hu := exponent_le x
      refine ⟨(exponent x+Nat.log2 (significand x))*30103/100000,by unfold startOf; omega,?_⟩
      calc (10 : ℚ)^_ ≤ 2^(exponent x+Nat.log2 (significand x)+1) :=
            ten_zpow_le_two_zpow (by omega) (by omega) (by omega)
        _ ≤ 2^(53+exponent x) := zpow_le_zpow_right₀ one_le_two (by omega)
        _ = 2^53*2^exponent x := zpow_add₀ (by norm_num) 53 _
  have hp : (0 : ℚ) < 2^(exponent x) := zpow_pos two_pos _
  calc (10 : ℚ)^(startOf x-17) ≤ 10^(j-17) := zpow_le_zpow_right₀ (by norm_num) (by omega)
    _ = 10^j/10^(17 : ℤ) := zpow_sub₀ (by norm_num) j 17
    _ ≤ 2^53*2^exponent x/10^(17 : ℤ) := div_le_div_of_nonneg_right hle (by norm_num)
    _ < 1/2*2^exponent x := by linarith

/-- The shortest decimal of a positive double is rounded to it. -/
theorem decimal_roundsTo :
    RoundsTo (significand x) (exponent x) ((decimal x).1*10^(decimal x).2) := by
  have hs : ((Rounding.ofFloat x).onGrid (startOf x+1-(18 : ℕ))).isSome := by
    refine Rounding.isSome_onGrid (Rounding.den_pos x) Rounding.low_le_mid ?_
    have h := ten_zpow_lt h0
    have he : startOf x+1-(18 : ℕ) = startOf x-17 := by push_cast; ring
    rw [Rounding.mid_eq,Rounding.high_eq,he]
    linarith
  have hg := Rounding.holdsDecimal_of_onGrid (Rounding.onGrid_search hs)
  have hr := Rounding.roundsTo_of_holdsDecimal h0 hg
  rwa [← normalize_eq 20] at hr

theorem nearest_decimal :
    nearest ((decimal x).1*10^(decimal x).2) = significand x*2^exponent x :=
  (decimal_roundsTo h0).nearest_eq (canonical_fields x) h0

end Decimals

end Shortest
end ExtrusionProfile
