import ExtrusionProfile.Proofs.Number.Exponent

/-! An interval with a margin on either side, given by where it begins and how long it is. Both
numbers are rounded, and the length is added up from one that was rounded before. The interval
nevertheless covers what it was made around: a margin that is large against the distance of doubles
makes up for the rounding, and next to a smaller one nothing but the beginning is rounded. -/
namespace ExtrusionProfile
namespace Binary64

open Float.Model.UnpackedFloat

variable {x y : Float} {q r : ℚ} {e g : ℤ}

section Multiples

/-- The whole multiples of a power of two. -/
def OnStep (e : ℤ) (q : ℚ) : Prop := ∃ k : ℤ, q = k*2^e

theorem OnStep.sub (hq : OnStep e q) (hr : OnStep e r) : OnStep e (q-r) := by
  obtain ⟨k,rfl⟩ := hq
  obtain ⟨l,rfl⟩ := hr
  exact ⟨k-l,by push_cast; ring⟩

theorem onStep_smallest (hx : x.isFinite) : OnStep (-1074) (toRat x) := exists_toRat_eq_mul hx

theorem onStep_of_le (hx : x.isFinite) (h : 2^(e+52) ≤ |toRat x|) : OnStep e (toRat x) := by
  unfold toRat at h ⊢
  rcases finite_cases hx with ⟨s,hx⟩ | ⟨s,m,f,hm,hx,hc,-⟩ <;> rw [hx] at h ⊢
  · exact ⟨0,by simp⟩
  · have hlt : (2 : ℚ)^(e+52) < 2^(f+53) := by
      rw [abs_ratOf] at h
      refine h.trans_lt ?_
      rw [add_comm f,zpow_add₀ (by norm_num)]
      exact mul_lt_mul_of_pos_right (by exact_mod_cast hc.lt) (zpow_pos two_pos f)
    have hf : e ≤ f := by
      have := (zpow_lt_zpow_iff_right₀ (by norm_num : (1 : ℚ) < 2)).mp hlt
      omega
    obtain ⟨n,rfl⟩ := Int.le.dest hf
    refine ⟨s.apply 1*(m*2^n : ℕ),?_⟩
    rw [ratOf_eq,zpow_add₀ (by norm_num),zpow_natCast]
    push_cast
    ring

/-- Few steps make a number that is not rounded. -/
theorem OnStep.nearest_eq (hq : OnStep e q) (he : -1074 ≤ e) (h0 : 0 ≤ q) (h : q < 2^53*2^e) :
    nearest q = q := by
  obtain ⟨k,rfl⟩ := hq
  have hp : (0 : ℚ) < 2^e := zpow_pos two_pos _
  rcases h0.eq_or_lt with h0 | h0
  · rw [← h0,nearest_zero]
  have hk : 0 < k := Int.cast_pos.mp (pos_of_mul_pos_left h0 hp.le)
  lift k to ℕ using hk.le
  rw [Int.cast_natCast] at h h0 ⊢
  -- The grid is no coarser than the steps.
  have hg : gridExponent (k*2^e) ≤ e := by
    have hl : (k*2^e : ℚ) < 2^(e+53) := by
      rwa [add_comm,zpow_add₀ (by norm_num)]
    have := (Int.lt_zpow_iff_log_lt (b:=2) (by decide) h0).mp (by exact_mod_cast hl)
    exact max_le (by omega) he
  obtain ⟨n,hn⟩ := Int.le.dest hg
  have hs : (k*2^e : ℚ) = (k*2^n : ℕ)*gridStep (k*2^e) := by
    rw [gridStep]
    nth_rewrite 1 [← hn]
    rw [zpow_add₀ (by norm_num),zpow_natCast]
    push_cast
    ring
  have hd : (k*2^e : ℚ)/gridStep (k*2^e) = (k*2^n : ℕ) :=
    (div_eq_iff (gridStep_pos _).ne').mpr hs
  rw [nearest,hd,halfEven_natCast,← hs]

end Multiples

namespace Near

theorem toRat_of_nonneg (hx : Near x q) (h0 : 0 ≤ q) (h : q < 2^(1023 : ℤ)) :
    toRat x = nearest q := by
  have hq := abs_of_nonneg h0
  rw [hx.toRat_eq (by rwa [hq]),if_neg (not_lt.mpr h0),hq]

theorem abs_sub_le (hx : Near x q) (h : |q| < 2^(1023 : ℤ)) (hy : y.isFinite) :
    |toRat x-q| ≤ |toRat y-q| := by
  rw [hx.toRat_eq h]
  split_ifs with hs
  · have hn := abs_sub_nearest_le (abs_nonneg q) (isFinite_neg hy)
    rw [toRat_neg,abs_of_neg hs] at hn
    rw [abs_of_neg hs,abs_sub_comm _ q,abs_sub_comm _ q,← abs_neg (q - _),← abs_neg (q-toRat y)]
    convert hn using 2 <;> ring
  · have hn := abs_sub_nearest_le (abs_nonneg q) hy
    rw [abs_of_nonneg (not_lt.mp hs)] at hn ⊢
    rwa [abs_sub_comm,abs_sub_comm _ q]

theorem le_toRat (hx : Near x q) (h : q < 2^(1023 : ℤ)) (hr : nearest r = r) (h0 : 0 ≤ r)
    (hl : r ≤ q) : r ≤ toRat x := by
  rw [hx.toRat_of_nonneg (h0.trans hl) h]
  rcases h0.eq_or_lt with rfl | h0
  · exact nearest_nonneg q
  · exact hr.symm.trans_le (nearest_mono h0 hl)

/-- Rounding moves a number by at most half a step, and only a number that is many steps from zero
lies where steps are not the least. -/
theorem exists_step (hx : Near x q) (h : |q| < 2^(1023 : ℤ)) : ∃ g : ℤ, -1074 ≤ g ∧
    |toRat x-q| ≤ 2^g/2 ∧ (-1074 < g → 2^52*2^g ≤ |q|) := by
  rcases eq_or_ne q 0 with rfl | h0
  · refine ⟨-1074,le_rfl,?_,fun h => absurd h (lt_irrefl _)⟩
    rw [hx.toRat_of_nonneg le_rfl (by positivity),nearest_zero,sub_zero,abs_zero]
    positivity
  · exact ⟨gridExponent |q|,le_max_right _ _,hx.abs_toRat_sub_le_step h,
      le_of_gridExponent (abs_pos.mpr h0)⟩

theorem abs_sub_le_relative (hx : Near x q) (h : |q| < 2^(1023 : ℤ)) :
    |toRat x-q| ≤ (smallest+|q|/2^52)/2 := by
  obtain ⟨g,hg,hl,hs⟩ := hx.exists_step h
  have hq := abs_nonneg q
  rcases hg.eq_or_lt with rfl | hg
  · have : 0 ≤ |q|/2^52 := by positivity
    unfold smallest
    linarith
  · have := smallest_pos
    have := hs hg
    linarith

end Near

theorem toRat_mul_two (hx : x.isFinite) (h0 : 0 ≤ toRat x) (h : toRat x*2 < 2^(1023 : ℤ)) :
    toRat (x*2) = toRat x*2 := by
  have hn := near_mul hx (rfl : (2 : Float).isFinite)
  rw [toRat_two] at hn
  rw [hn.toRat_of_nonneg (by positivity) h]
  unfold toRat at h0 ⊢
  rcases finite_cases hx with ⟨s,hx⟩ | ⟨s,m,e,hm,hx,hc,-⟩ <;> rw [hx] at h0 ⊢
  · simp
  · have hp := magnitude_pos hm e
    have hs : ratOf (.finite s m e hm) = m*2^e := by
      rw [← abs_ratOf s hm e,abs_of_nonneg h0]
    have hd : ratOf (.finite s m e hm)*2 = (m : ℤ)*2^(e+1) := by
      rw [hs,zpow_add_one₀ (by norm_num)]
      push_cast
      ring
    refine OnStep.nearest_eq ⟨m,hd⟩ (by linarith [hc.least_le]) (by positivity) ?_
    rw [hd]
    exact mul_lt_mul_of_pos_right (by exact_mod_cast hc.lt) (zpow_pos two_pos _)

section Margin

variable {a b m : Float}

theorem twentieth_within : 1/32 ≤ toRat 0.05 ∧ toRat 0.05 ≤ 1/16 := by
  have hs : slack < 1/1000 := by norm_num [slack]
  have h := abs_le.mp (Bounded.literal_close (n:=5) (s:=true) (k:=2) (by norm_num))
  have he : ((5 : ℕ)*10^(if true then -(2 : ℕ) else (2 : ℕ) : ℤ) : ℚ) = 1/20 := by norm_num
  rw [he] at h
  change -slack ≤ toRat 0.05-1/20 ∧ toRat 0.05-1/20 ≤ slack at h
  constructor <;> linarith

theorem Bounded.sum_lt {k : ℤ} (hx : Bounded x (2^k)) (hy : Bounded y (2^k)) (hk : k ≤ 1021) :
    |toRat x+toRat y| < 2^(1023 : ℤ) := by
  refine (hx.sum_le hy).trans_lt ?_
  rw [← two_mul,two_mul_two_zpow]
  exact zpow_lt_zpow_right₀ one_lt_two (by omega)

theorem Bounded.difference_lt {k : ℤ} (hx : Bounded x (2^k)) (hy : Bounded y (2^k))
    (hk : k ≤ 1021) : |toRat x-toRat y| < 2^(1023 : ℤ) := by
  have h := hx.sum_lt hy.neg hk
  rwa [toRat_neg,← sub_eq_add_neg] at h

/-- An interval from `a` to `b`, and a size that is not below its length. -/
structure Framed (a b m : Float) : Prop where
  low : Bounded a (2^(350 : ℤ))
  high : Bounded b (2^(350 : ℤ))
  size : Bounded m (2^(350 : ℤ))
  le : toRat a ≤ toRat b
  length_le : toRat (b-a) ≤ toRat m

namespace Framed

section Parts

variable (h : Framed a b m)

include h

theorem bounded_length : Bounded (b-a) (2^(352 : ℤ)) :=
  h.high.sub_zpow h.low (by norm_num) (by norm_num)

theorem length_nonneg : 0 ≤ toRat (b-a) :=
  (near_sub h.high.isFinite h.low.isFinite).toRat_nonneg (h.high.difference_lt h.low (by norm_num))
    (sub_nonneg.mpr h.le)

theorem length_ge : toRat b-toRat a ≤ toRat (b-a)+(smallest+(toRat b-toRat a)/2^52)/2 := by
  have hn := (near_sub h.high.isFinite h.low.isFinite).abs_sub_le_relative
    (h.high.difference_lt h.low (by norm_num))
  rw [abs_of_nonneg (sub_nonneg.mpr h.le)] at hn
  linarith [(abs_le.mp hn).1]

theorem near_margin : Near (m*0.05) (toRat m*toRat 0.05) := near_mul h.size.isFinite rfl

theorem bounded_margin : Bounded (m*0.05) (2^(351 : ℤ)) := by
  have ht : Bounded 0.05 (2^(0 : ℤ)) :=
    ⟨rfl,by rw [abs_of_nonneg] <;> linarith [twentieth_within.1,twentieth_within.2]⟩
  exact h.size.mul_zpow ht (by norm_num) (by norm_num)

theorem size_nonneg : 0 ≤ toRat m := h.length_nonneg.trans h.length_le

theorem scaled_lt : |toRat m*toRat 0.05| < 2^(1023 : ℤ) := by
  obtain ⟨hl,hu⟩ := twentieth_within
  have hm := h.size_nonneg
  have hb := (abs_le.mp h.size.le).2
  rw [abs_of_nonneg (by positivity)]
  calc toRat m*toRat 0.05 ≤ toRat m*1 := by gcongr; linarith
    _ ≤ 2^(350 : ℤ) := by rwa [mul_one]
    _ < 2^(1023 : ℤ) := zpow_lt_zpow_right₀ one_lt_two (by norm_num)

theorem margin_nonneg : 0 ≤ toRat (m*0.05) := by
  have hm := h.size_nonneg
  have hl := twentieth_within.1
  exact h.near_margin.toRat_nonneg h.scaled_lt (by positivity)

theorem size_le : toRat m ≤ 64*toRat (m*0.05)+32*smallest := by
  obtain ⟨hl,hu⟩ := twentieth_within
  have hm := h.size_nonneg
  have hp := h.margin_nonneg
  have hs := smallest_pos
  have hd : toRat m*(1/32) ≤ toRat m*toRat 0.05 := by gcongr
  rcases le_or_gt smallest (toRat m*toRat 0.05) with hc | hc
  · have := h.near_margin.le_two_mul hc ((le_abs_self _).trans_lt h.scaled_lt)
    linarith
  · linarith

theorem near_begin : Near (a-m*0.05) (toRat a-toRat (m*0.05)) :=
  near_sub h.low.isFinite h.bounded_margin.isFinite

theorem begin_lt : |toRat a-toRat (m*0.05)| < 2^(1023 : ℤ) :=
  (h.low.mono_zpow (by norm_num)).difference_lt h.bounded_margin (by norm_num)

theorem bounded_begin : Bounded (a-m*0.05) (2^(353 : ℤ)) :=
  (h.low.mono_zpow (by norm_num)).sub_zpow h.bounded_margin (by norm_num) (by norm_num)

theorem begin_within :
    toRat a-2*toRat (m*0.05) ≤ toRat (a-m*0.05) ∧ toRat (a-m*0.05) ≤ toRat a := by
  have hn := h.near_begin.abs_sub_le h.begin_lt h.low.isFinite
  rw [sub_sub_cancel,abs_of_nonneg h.margin_nonneg] at hn
  constructor <;> linarith [(abs_le.mp hn).1,(abs_le.mp hn).2]

theorem toRat_doubled : toRat (m*0.05*2) = toRat (m*0.05)*2 := by
  refine toRat_mul_two h.bounded_margin.isFinite h.margin_nonneg ?_
  have hb := (abs_le.mp h.bounded_margin.le).2
  calc toRat (m*0.05)*2 ≤ 2*2^(351 : ℤ) := by linarith
    _ = 2^(352 : ℤ) := two_mul_two_zpow 351
    _ < 2^(1023 : ℤ) := zpow_lt_zpow_right₀ one_lt_two (by norm_num)

theorem bounded_doubled : Bounded (m*0.05*2) (2^(353 : ℤ)) := by
  have ht : Bounded (2 : Float) (2^(1 : ℤ)) := ⟨rfl,by rw [toRat_two]; norm_num⟩
  exact h.bounded_margin.mul_zpow ht (by norm_num) (by norm_num)

theorem near_extent :
    Near (b-a+m*0.05*2) (toRat (b-a)+toRat (m*0.05)*2) := by
  have hn := near_add h.bounded_length.isFinite h.bounded_doubled.isFinite
  rwa [h.toRat_doubled] at hn

theorem extent_lt : |toRat (b-a)+toRat (m*0.05)*2| < 2^(1023 : ℤ) := by
  rw [← h.toRat_doubled]
  exact (h.bounded_length.mono_zpow (by norm_num)).sum_lt h.bounded_doubled (by norm_num)

theorem bounded_extent : Bounded (b-a+m*0.05*2) (2^(355 : ℤ)) :=
  (h.bounded_length.mono_zpow (by norm_num)).add_zpow h.bounded_doubled (by norm_num) (by norm_num)

theorem extent_nonneg : 0 ≤ toRat (b-a+m*0.05*2) :=
  h.near_extent.toRat_nonneg h.extent_lt (by linarith [h.length_nonneg,h.margin_nonneg])

end Parts

/-- A margin of several steps makes up for what is lost by rounding. -/
theorem covers_of_step_le (h : Framed a b m) {g : ℤ} (hg : -1074 ≤ g)
    (hr : |toRat (a-m*0.05)-(toRat a-toRat (m*0.05))| ≤ 2^g/2) (hp : 4*2^g ≤ toRat (m*0.05)) :
    toRat b ≤ toRat (a-m*0.05)+toRat (b-a+m*0.05*2) := by
  have hs : smallest ≤ 2^g := zpow_le_zpow_right₀ one_le_two hg
  have hn : 0 ≤ toRat (b-a)+toRat (m*0.05)*2 := by linarith [h.length_nonneg,h.margin_nonneg]
  have he := h.near_extent.abs_sub_le_relative h.extent_lt
  rw [abs_of_nonneg hn] at he
  linarith [(abs_le.mp hr).1,(abs_le.mp he).1,h.length_ge,h.length_le,h.size_le,smallest_pos]

/-- Around a margin of a few steps, both ends and the moved beginning are on half of such a step. -/
theorem exists_onStep (h : Framed a b m) {g : ℤ} (hg : -1074 ≤ g)
    (hr : |toRat (a-m*0.05)-(toRat a-toRat (m*0.05))| ≤ 2^g/2)
    (hs : -1074 < g → 2^52*2^g ≤ |toRat a-toRat (m*0.05)|) (hp : toRat (m*0.05) < 4*2^g)
    (hw : toRat b-toRat a ≤ 700*2^g) :
    ∃ e : ℤ, -1074 ≤ e ∧ (2 : ℚ)^g ≤ 2*2^e ∧ OnStep e (toRat a) ∧ OnStep e (toRat b) ∧
      OnStep e (toRat (a-m*0.05)) := by
  rcases hg.eq_or_lt with rfl | hg
  · refine ⟨-1074,le_rfl,?_,onStep_smallest h.low.isFinite,onStep_smallest h.high.isFinite,
      onStep_smallest h.bounded_begin.isFinite⟩
    have hp : (0 : ℚ) < 2^(-1074 : ℤ) := zpow_pos two_pos _
    linarith
  have hd : (2 : ℚ)*2^(g-1) = 2^g := by rw [two_mul_two_zpow,sub_add_cancel]
  have hq : (2 : ℚ)^(g-1+52) = 2^51*2^g := by
    rw [← hd,zpow_add₀ (by norm_num)]
    norm_num
    ring
  have hl := hs hg
  have hle := h.le
  have hp0 := h.margin_nonneg
  have ha := abs_sub (toRat a) (toRat (m*0.05))
  have hb := abs_sub (toRat b) (toRat b-toRat a+toRat (m*0.05))
  have hc := abs_sub (toRat (a-m*0.05)) (toRat (a-m*0.05)-(toRat a-toRat (m*0.05)))
  rw [abs_of_nonneg hp0] at ha
  rw [abs_of_nonneg (a:=toRat b-toRat a+toRat (m*0.05)) (by linarith),sub_add_eq_sub_sub,
    sub_sub_cancel] at hb
  rw [sub_sub_cancel] at hc
  refine ⟨g-1,by omega,hd.ge,onStep_of_le h.low.isFinite ?_,onStep_of_le h.high.isFinite ?_,
    onStep_of_le h.bounded_begin.isFinite ?_⟩ <;> rw [hq] <;> linarith

theorem covers_of_lt_step (h : Framed a b m) {g : ℤ} (hg : -1074 ≤ g)
    (hr : |toRat (a-m*0.05)-(toRat a-toRat (m*0.05))| ≤ 2^g/2)
    (hs : -1074 < g → 2^52*2^g ≤ |toRat a-toRat (m*0.05)|) (hp : toRat (m*0.05) < 4*2^g) :
    toRat b ≤ toRat (a-m*0.05)+toRat (b-a+m*0.05*2) := by
  obtain ⟨hl,hl'⟩ := h.begin_within
  have hm : smallest ≤ 2^g := zpow_le_zpow_right₀ one_le_two hg
  have hle := h.le
  have hw : toRat b-toRat a ≤ 700*2^g := by
    linarith [h.length_ge,h.length_le,h.size_le,h.length_nonneg]
  obtain ⟨e,he,hge,ha,hb,hc⟩ := h.exists_onStep hg hr hs hp hw
  have hx : toRat (b-a) = toRat b-toRat a := by
    rw [(near_sub h.high.isFinite h.low.isFinite).toRat_of_nonneg (by linarith)
      ((le_abs_self _).trans_lt (h.high.difference_lt h.low (by norm_num)))]
    exact (hb.sub ha).nearest_eq he (by linarith) (by linarith)
  have hn : nearest (toRat b-toRat (a-m*0.05)) = toRat b-toRat (a-m*0.05) :=
    (hb.sub hc).nearest_eq he (by linarith) (by linarith)
  have := h.near_extent.le_toRat ((le_abs_self _).trans_lt h.extent_lt) hn (by linarith)
    (by linarith)
  linarith

/-- From a margin before `a`, as long as the interval and two margins, it is not before `b` that the
framed interval ends. -/
theorem covers (h : Framed a b m) :
    toRat b ≤ toRat (a-m*0.05)+toRat (b-a+m*0.05*2) := by
  obtain ⟨g,hg,hr,hs⟩ := h.near_begin.exists_step h.begin_lt
  rcases le_or_gt (4*2^g) (toRat (m*0.05)) with hp | hp
  · exact h.covers_of_step_le hg hr hp
  · exact h.covers_of_lt_step hg hr hs hp

end Framed

end Margin

end Binary64
end ExtrusionProfile
