import ExtrusionProfile.Plane.Curve
import ExtrusionProfile.Proofs.Number.ArcCosine
import ExtrusionProfile.Proofs.Number.Exponent

/-! The centre form of an arc, stage by stage. Each stage has its numbers between powers of two:
the chord in the frame of the ellipse does not vanish, the radii are enlarged until they span it,
and the centre is then within the radii, up to a factor. -/
namespace ExtrusionProfile
namespace Arc

open Binary64

/-- Two numbers within `2^k`, one of which is at least `2^i`. -/
structure Spread (x y : Float) (i k : ℤ) : Prop where
  left : Bounded x (2^k)
  right : Bounded y (2^k)
  ge : 2^i ≤ |toRat x| ∨ 2^i ≤ |toRat y|

section Chord

theorem between_two : Between 2 1 1 := by
  refine ⟨⟨rfl,?_⟩,?_⟩ <;> rw [toRat_two] <;> norm_num

variable {x y : Float} {k : ℤ}

theorem bounded_halfDifference (hx : Bounded x (2^(100 : ℤ))) (hy : Bounded y (2^(100 : ℤ))) :
    Bounded ((x-y)/2) (2^(102 : ℤ)) :=
  (hx.sub_zpow (m:=102) hy (by norm_num) (by norm_num)).div_zpow between_two.isFinite between_two.ge
    (by norm_num) (by norm_num)

theorem halfDifference_ge (hx : Bounded x (2^(100 : ℤ))) (hy : Bounded y (2^(100 : ℤ)))
    (h : 2^(-100 : ℤ) ≤ |toRat x-toRat y|) : 2^(-103 : ℤ) ≤ |toRat ((x-y)/2)| := by
  have hs := hx.sub_zpow (m:=102) hy (by norm_num) (by norm_num)
  have hl : |toRat x-toRat y| ≤ 2^(101 : ℤ) := (hx.difference_le hy).trans (by norm_num)
  have hd : Between (x-y) (-101) 102 := ⟨hs,(near_sub hx.isFinite hy.isFinite).zpow_le_abs h
    (by norm_num) hl (by norm_num) (by norm_num)⟩
  exact (hd.div between_two (n:=-103) (m:=102) (by norm_num) (by norm_num) (by norm_num)
    (by norm_num)).ge

end Chord

section Rotation

variable {c s x y : Float} {i k : ℤ}

theorem rotated_within (hc : Bounded c (2^(1 : ℤ))) (hs : Bounded s (2^(1 : ℤ)))
    (hx : Bounded x (2^k)) (hy : Bounded y (2^k)) (hk : -500 ≤ k) (hk' : k ≤ 500) :
    Bounded (c*x+s*y) (2^(k+4)) ∧
      |toRat (c*x+s*y)-(toRat c*toRat x+toRat s*toRat y)| ≤ 2^(k-48) := by
  have hm := hc.mul_zpow (m:=k+2) hx (by omega) (by omega)
  have hn := hs.mul_zpow (m:=k+2) hy (by omega) (by omega)
  have hsum : |toRat (c*x)+toRat (s*y)| ≤ 2^(k+2+1) :=
    (hm.sum_le hn).trans_eq (by rw [← two_mul,two_mul_two_zpow])
  have h₁ := (near_mul hc.isFinite hx.isFinite).abs_toRat_sub_le (hc.product_zpow_le hx)
    (by omega) (by omega)
  have h₂ := (near_mul hs.isFinite hy.isFinite).abs_toRat_sub_le (hs.product_zpow_le hy)
    (by omega) (by omega)
  have h₃ := (near_add hm.isFinite hn.isFinite).abs_toRat_sub_le hsum (by omega) (by omega)
  refine ⟨hm.add_zpow hn (by omega) (by omega),?_⟩
  have hp : (0 : ℚ) < 2^k := zpow_pos two_pos _
  rw [show 1+k-53 = k+(-52) by ring,zpow_add₀ (by norm_num)] at h₁ h₂
  rw [show k+2+1-53 = k+(-50) by ring,zpow_add₀ (by norm_num)] at h₃
  rw [show k-48 = k+(-48) by ring,zpow_add₀ (by norm_num)]
  rw [abs_le] at h₁ h₂ h₃ ⊢
  norm_num at h₁ h₂ h₃ ⊢
  constructor <;> linarith

/-- A matrix that is close to a similarity moves no large vector near zero. -/
theorem exists_large {c s x y u v w : ℚ} (hw : 0 < w) (h : 1/4 ≤ s^2+c^2)
    (hl : w ≤ |x| ∨ w ≤ |y|) (hu : |u-(c*x+s*y)| ≤ w/1000) (hv : |v-(-s*x+c*y)| ≤ w/1000) :
    w/8 ≤ |u| ∨ w/8 ≤ |v| := by
  by_contra hn
  obtain ⟨hn,hn'⟩ := not_or.mp hn
  have hxy : w^2 ≤ x^2+y^2 := by
    rcases hl with hl | hl
    · nlinarith [sq_abs x,abs_nonneg x,sq_nonneg y]
    · nlinarith [sq_abs y,abs_nonneg y,sq_nonneg x]
  have h₁ : |c*x+s*y| ≤ w/7 := by
    rw [not_le,abs_lt] at hn
    rw [abs_le] at hu ⊢
    constructor <;> linarith
  have h₂ : |-s*x+c*y| ≤ w/7 := by
    rw [not_le,abs_lt] at hn'
    rw [abs_le] at hv ⊢
    constructor <;> linarith
  have hsq := add_le_add (sq_le_sq' (abs_le.mp h₁).1 (abs_le.mp h₁).2)
    (sq_le_sq' (abs_le.mp h₂).1 (abs_le.mp h₂).2)
  have he : (c*x+s*y)^2+(-s*x+c*y)^2 = (s^2+c^2)*(x^2+y^2) := by ring
  rw [he] at hsq
  nlinarith

theorem Spread.exists_exponent (h : Spread x y i k) :
    ∃ e : ℤ, i ≤ e ∧ e ≤ k ∧ Spread x y e (e+1) := by
  have hm : 2^i ≤ max |toRat x| |toRat y| := le_max_iff.mpr h.ge
  obtain ⟨e,hl,hu,hge⟩ := Binary64.exists_exponent ((zpow_pos two_pos i).trans_le hm)
  have hk := hl.trans (max_le h.left.le h.right.le)
  exact ⟨e,hge i hm,(zpow_le_zpow_iff_right₀ one_lt_two).mp hk,
    ⟨h.left.isFinite,(le_max_left _ _).trans hu.le⟩,
    ⟨h.right.isFinite,(le_max_right _ _).trans hu.le⟩,le_max_iff.mp hl⟩

theorem Spread.rotated (h : Spread x y i k) (hc : Bounded c 2) (hs : Bounded s 2)
    (hcs : 1/4 ≤ toRat s^2+toRat c^2) (hi : -500 ≤ i) (hk : k ≤ 400) :
    Spread (c*x+s*y) (-s*x+c*y) (i-3) (k+5) := by
  have hc : Bounded c (2^(1 : ℤ)) := hc
  have hs : Bounded s (2^(1 : ℤ)) := hs
  obtain ⟨e,he,hek,hx,hy,hge⟩ := h.exists_exponent
  obtain ⟨hu,hu'⟩ := rotated_within hc hs hx hy (by omega) (by omega)
  obtain ⟨hv,hv'⟩ := rotated_within hs.neg hc hx hy (by omega) (by omega)
  have hw : (2 : ℚ)^(e+1-48) ≤ 2^e/1000 := by
    rw [show e+1-48 = e+(-47) by ring,zpow_add₀ (by norm_num)]
    have hp : (0 : ℚ) < 2^e := zpow_pos two_pos _
    norm_num
    linarith
  rw [toRat_neg] at hv'
  have hl := exists_large (zpow_pos two_pos e) hcs hge (hu'.trans hw) (hv'.trans hw)
  have hd : (2 : ℚ)^(i-3) ≤ 2^e/8 := by
    have h8 : (2 : ℚ)^(e-3) = 2^e/8 := by rw [zpow_sub₀ (by norm_num)]; norm_num
    exact (zpow_le_zpow_right₀ one_le_two (by omega)).trans_eq h8
  exact ⟨hu.mono_zpow (by omega),hv.mono_zpow (by omega),hl.imp hd.trans hd.trans⟩

end Rotation

section Reach

/-- A radius with its exponent, far enough from underflow and overflow to be squared. -/
structure Radius (r : Float) (α : ℤ) : Prop extends Between r α (α+1) where
  low : -100 ≤ α
  high : α ≤ 100

variable {x y r s : Float} {i k m α β : ℤ}

theorem Radius.square (hr : Radius r α) : Between (r*r) (2*α-1) (2*α+3) := by
  obtain ⟨hr,hα,hα'⟩ := hr
  exact hr.mul hr (by omega) (by omega) (by omega) (by omega)

theorem bounded_term (hx : Bounded x (2^k)) (hr : Radius r α) (hk : -300 ≤ k) (hk' : k ≤ 300)
    (hm : 2*k+3-2*α ≤ m) : Bounded (x*x/(r*r)) (2^m) := by
  have hn := hx.mul_zpow (m:=2*k+1) hx (by omega) (by omega)
  have hd := hr.square
  obtain ⟨-,hα,hα'⟩ := hr
  exact hn.div_zpow hd.isFinite hd.ge (by omega) (by omega)

theorem term_nonneg (hx : Bounded x (2^k)) (hr : Radius r α) (hk' : k ≤ 300) :
    0 ≤ toRat (x*x/(r*r)) := by
  have hn := hx.mul_zpow (m:=2*k+1) hx (by omega) (by omega)
  have hd := hr.square
  have hp : 0 < toRat (r*r) := by
    have hg := hd.ge
    rw [abs_of_nonneg (toRat_mul_self_nonneg hr.isFinite)] at hg
    exact (zpow_pos two_pos _).trans_le hg
  exact toRat_div_nonneg hn.isFinite hd.isFinite hp (toRat_mul_self_nonneg hx.isFinite)

theorem term_ge (hx : Between x i k) (hr : Radius r α) (hi : -300 ≤ i) (hk' : k ≤ 300)
    (hm : m ≤ 2*i-2*α-5) : 2^m ≤ toRat (x*x/(r*r)) := by
  have hn := hx.mul hx (n:=2*i-1) (m:=2*k+1) (by omega) (by omega) (by omega) (by omega)
  have h0 := term_nonneg hx.toBounded hr hk'
  have hd := hr.square
  obtain ⟨-,hα,hα'⟩ := hr
  have h := (hn.div hd (n:=m) (m:=2*k+3-2*α) (by omega) (by omega) (by omega) (by omega)).ge
  rwa [abs_of_nonneg h0] at h

theorem bounded_of_term_le (hx : Bounded x (2^k)) (hr : Radius r α) (hk' : k ≤ 150) {e : ℤ}
    (h : ∀ j, -1074 ≤ j → 2^j ≤ toRat (x*x/(r*r)) → j ≤ e+1) (hm : e+2*α+8 ≤ 2*m)
    (hl : -250 ≤ m) : Bounded x (2^m) := by
  by_cases h0 : toRat x = 0
  · exact ⟨hx.isFinite,by rw [h0,abs_zero]; exact (zpow_pos two_pos m).le⟩
  obtain ⟨j,hj⟩ := Between.exists_of_ne_zero hx.isFinite h0
  have hjk := (zpow_le_zpow_iff_right₀ one_lt_two).mp (hj.ge.trans hx.le)
  rcases le_or_gt j (-251) with hs | hs
  · exact hj.mono_zpow (by omega)
  · have hge := term_ge (m:=2*j-2*α-5) hj hr (by omega) (by omega) le_rfl
    have hα := hr.high
    have ht := h _ (by omega) hge
    exact hj.mono_zpow (by omega)

/-- How many radii the chord spans, squared. -/
def reach (r s x y : Float) : Float := x*x/(r*r)+y*y/(s*s)

variable (hr : Radius r α) (hs : Radius s β) (hx : Bounded x (2^(107 : ℤ)))
  (hy : Bounded y (2^(107 : ℤ)))
include hr hs hx hy

theorem bounded_reach (hm : 219-2*α ≤ m) (hm' : 219-2*β ≤ m) (hu : m ≤ 1000) :
    Bounded (reach r s x y) (2^m) :=
  (bounded_term (m:=m-2) hx hr (by norm_num) (by norm_num) (by omega)).add_zpow
    (bounded_term hy hs (by norm_num) (by norm_num) (by omega)) (by omega) (by omega)

theorem bounded_of_reach_le {e : ℤ} (h : toRat (reach r s x y) ≤ 2^e) (hm : e+2*α+8 ≤ 2*m)
    (hl : -250 ≤ m) {n : ℤ} (hn : e+2*β+8 ≤ 2*n) (hl' : -250 ≤ n) :
    Bounded x (2^m) ∧ Bounded y (2^n) := by
  have hα := hr.low
  have hβ := hs.low
  have ht := bounded_term (m:=1000) hx hr (by norm_num) (by norm_num) (by omega)
  have ht' := bounded_term (m:=1000) hy hs (by norm_num) (by norm_num) (by omega)
  have h0 := term_nonneg hx hr (by norm_num)
  have h0' := term_nonneg hy hs (by norm_num)
  constructor
  · refine bounded_of_term_le (e:=e) hx hr (by norm_num) (fun j hj hle => ?_) hm hl
    have hg := toRat_add_ge (m:=j-1) ht ht' h0 h0' (.inl hle) hj (by norm_num) le_rfl
    have := (zpow_le_zpow_iff_right₀ one_lt_two).mp (hg.trans h)
    omega
  · refine bounded_of_term_le (e:=e) hy hs (by norm_num) (fun j hj hle => ?_) hn hl'
    have hg := toRat_add_ge (m:=j-1) ht ht' h0 h0' (.inr hle) hj (by norm_num) le_rfl
    have := (zpow_le_zpow_iff_right₀ one_lt_two).mp (hg.trans h)
    omega

end Reach

section Growth

/-- A radius, enlarged if the chord is out of reach. -/
def grown (r l : Float) : Float := if 1 < l then r*(if 1 < l then Float.sqrt l else 1) else r

/-- Radii that span a chord, with their exponents: the chord is within them, up to a factor, and
neither their squares nor the squares of their product are out of range. -/
structure Span (r s x y : Float) (α β : ℤ) : Prop where
  left : Between r α (α+8)
  right : Between s β (β+8)
  chord : Spread x y (-106) 107
  within_left : Bounded x (2^(α+8))
  within_right : Bounded y (2^(β+8))
  left_low : -110 ≤ α
  right_low : -110 ≤ β
  left_high : α ≤ 320
  right_high : β ≤ 320
  high : α+β ≤ 430

variable {r s x y : Float} {α β : ℤ} (hr : Radius r α) (hs : Radius s β)
  (h : Spread x y (-106) 107)
include hr hs h

theorem span_of_reach_le (hl : toRat (reach r s x y) ≤ 1) : Span r s x y α β := by
  have hα := hr.low
  have hα' := hr.high
  have hβ := hs.low
  have hβ' := hs.high
  obtain ⟨hx,hy⟩ := bounded_of_reach_le hr hs h.left h.right (e:=0) hl (m:=α+8) (by omega)
    (by omega) (n:=β+8) (by omega) (by omega)
  exact ⟨hr.mono le_rfl (by omega),hs.mono le_rfl (by omega),h,hx,hy,by omega,by omega,
    by omega,by omega,by omega⟩

theorem span_of_lt_reach (hl : 1 < toRat (reach r s x y)) : ∃ γ δ : ℤ,
    Span (r*(reach r s x y).sqrt) (s*(reach r s x y).sqrt) x y γ δ := by
  obtain ⟨e,he,he',hge⟩ := exists_exponent (one_pos.trans hl)
  have hb {m : ℤ} := bounded_reach (m:=m) hr hs h.left h.right
  have hi {m n : ℤ} := bounded_of_reach_le (m:=m) (n:=n) hr hs h.left h.right he'.le
  obtain ⟨hr,hα,hα'⟩ := hr
  obtain ⟨hs,hβ,hβ'⟩ := hs
  have hf := (hb (m:=500) (by omega) (by omega) (by omega)).isFinite
  -- The exponent is not negative, and no greater than the worse of the two radii allows.
  have hlow : 0 ≤ e := hge 0 ((zpow_zero 2).trans_le hl.le)
  have hhigh : e ≤ 219-2*α ∨ e ≤ 219-2*β := by
    rcases le_total α β with hab | hab
    · exact .inl ((zpow_le_zpow_iff_right₀ one_lt_two).mp (he.trans ((le_abs_self _).trans
        (hb (m:=219-2*α) (by omega) (by omega) (by omega)).le)))
    · exact .inr ((zpow_le_zpow_iff_right₀ one_lt_two).mp (he.trans ((le_abs_self _).trans
        (hb (m:=219-2*β) (by omega) (by omega) (by omega)).le)))
  have hl0 : 0 ≤ toRat (reach r s x y) := by linarith
  have hg : Between (reach r s x y).sqrt (e/2-2) (e/2+3) := by
    refine ⟨Bounded.sqrt_zpow (k:=e+1) ⟨hf,?_⟩ hl0 (by omega),?_⟩
    · rw [abs_of_nonneg hl0]
      exact he'.le
    · exact (two_zpow_le_sqrt hf he (by omega)).trans (le_abs_self _)
  obtain ⟨hx,hy⟩ := hi (m:=α+e/2-3+8) (n:=β+e/2-3+8) (by omega) (by omega) (by omega) (by omega)
  exact ⟨α+e/2-3,β+e/2-3,hr.mul hg (by omega) (by omega) (by omega) (by omega),
    hs.mul hg (by omega) (by omega) (by omega) (by omega),h,hx,hy,by omega,by omega,by omega,
    by omega,by omega⟩

/-- The radii that an arc is drawn with span its chord. -/
theorem exists_span : ∃ γ δ : ℤ,
    Span (grown r (reach r s x y)) (grown s (reach r s x y)) x y γ δ := by
  have hf : (reach r s x y).isFinite := by
    have hα := hr.low
    have hβ := hs.low
    exact (bounded_reach (m:=500) hr hs h.left h.right (by omega) (by omega) (by omega)).isFinite
  unfold grown
  by_cases hl : 1 < reach r s x y
  · rw [if_pos hl,if_pos hl,if_pos hl]
    rw [lt_iff_toRat rfl hf,toRat_one] at hl
    exact span_of_lt_reach hr hs h hl
  · rw [if_neg hl,if_neg hl]
    rw [lt_iff_toRat rfl hf,toRat_one,not_lt] at hl
    exact ⟨α,β,span_of_reach_le hr hs h hl⟩

end Growth

section Root

/-- How far the centre is from the chord, in terms of the radii and squared, as a quotient. -/
def numerator (r s x y : Float) : Float := r*r*(s*s)-r*r*(y*y)-s*s*(x*x)

def denominator (r s x y : Float) : Float := r*r*(y*y)+s*s*(x*x)

def ratio (r s x y : Float) : Float :=
  if numerator r s x y ≤ 0 || denominator r s x y == 0 then 0
  else Float.sqrt (numerator r s x y/denominator r s x y)

variable {r s x y : Float} {α β e m : ℤ}

theorem squares_within (hr : Bounded r (2^(α+8))) (hx : Bounded x (2^(β+8))) (hα : α ≤ 320)
    (hβ : β ≤ 320) (h : α+β ≤ 430) :
    Bounded (r*r*(x*x)) (2^(2*α+2*β+35)) ∧ 0 ≤ toRat (r*r*(x*x)) := by
  have hr2 := hr.mul_zpow (m:=2*α+17) hr (by omega) (by omega)
  have hx2 := hx.mul_zpow (m:=2*β+17) hx (by omega) (by omega)
  exact ⟨hr2.mul_zpow hx2 (by omega) (by omega),toRat_mul_nonneg hr2.isFinite hx2.isFinite
    (toRat_mul_self_nonneg hr.isFinite) (toRat_mul_self_nonneg hx.isFinite)⟩

theorem squares_ge (hr : Between r α (α+8)) (hx : Bounded x (2^(β+8))) (hα : -110 ≤ α)
    (hα' : α ≤ 320) (hβ : β ≤ 320) (h : α+β ≤ 430) (hl : 2^e ≤ |toRat x|) (he : -537 ≤ e)
    (he' : -535 ≤ α+e) : 2^(2*α+2*e-3) ≤ toRat (r*r*(x*x)) := by
  have hx : Between x e (β+8) := ⟨hx,hl⟩
  have hr2 := hr.mul hr (n:=2*α-1) (m:=2*α+17) (by omega) (by omega) (by omega) (by omega)
  have hx2 := hx.mul hx (n:=2*e-1) (m:=2*β+17) (by omega) (by omega) (by omega) (by omega)
  have hp := (hr2.mul hx2 (n:=2*α+2*e-3) (m:=2*α+2*β+35) (by omega) (by omega) (by omega)
    (by omega)).ge
  rwa [abs_of_nonneg (squares_within hr.toBounded hx.toBounded hα' hβ h).2] at hp

/-- A bound of the ratio times a coordinate, from the exponent of what the ratio divides by. A
coordinate that is too small to count there is far below the other one. -/
theorem exists_part (hx : Bounded x (2^(α+8))) (hm : 2*m ≤ 2*α+2*β+45-e)
    (hα : -110 ≤ α) (hβ : -110 ≤ β) (hβ' : β ≤ 320)
    (hge : ∀ j, 2^j ≤ |toRat x| → -537 ≤ j → -535 ≤ β+j → 2*β+2*j-4 ≤ e)
    (hor : 2^(-106 : ℤ) ≤ |toRat x| ∨ 2*α-216 ≤ e) :
    ∃ i : ℤ, Bounded x (2^i) ∧ i ≤ α+9 ∧ m+i ≤ α+26 := by
  by_cases h0 : toRat x = 0
  · refine ⟨min (α+9) (α+26-m),⟨hx.isFinite,?_⟩,by omega,by omega⟩
    rw [h0,abs_zero]
    exact (zpow_pos two_pos _).le
  obtain ⟨j,hj⟩ := Between.exists_of_ne_zero hx.isFinite h0
  have hjα := (zpow_le_zpow_iff_right₀ one_lt_two).mp (hj.ge.trans hx.le)
  have hj' := hge j hj.ge
  refine ⟨j+1,hj.toBounded,by omega,?_⟩
  rcases hor with hor | hor
  · have := (zpow_le_zpow_iff_right₀ one_lt_two).mp (hor.trans hj.le)
    omega
  · omega

variable (h : Span r s x y α β)
include h

theorem bounded_numerator : Bounded (numerator r s x y) (2^(2*α+2*β+39)) := by
  obtain ⟨hp,-⟩ := squares_within h.left.toBounded h.right.toBounded h.left_high h.right_high h.high
  obtain ⟨hq,-⟩ := squares_within h.left.toBounded h.within_right h.left_high h.right_high h.high
  obtain ⟨ht,-⟩ := squares_within h.right.toBounded h.within_left h.right_high h.left_high
    (by linarith [h.high])
  have := h.high
  exact (hp.sub_zpow (m:=2*α+2*β+37) hq (by omega) (by omega)).sub_zpow (ht.mono_zpow (by omega))
    (by omega) (by omega)

theorem denominator_within : Bounded (denominator r s x y) (2^(2*α+2*β+37)) ∧
    (∀ e, 2^e ≤ |toRat x| → -537 ≤ e → -535 ≤ β+e → 2^(2*β+2*e-4) ≤ toRat (denominator r s x y)) ∧
    ∀ e, 2^e ≤ |toRat y| → -537 ≤ e → -535 ≤ α+e → 2^(2*α+2*e-4) ≤ toRat (denominator r s x y) := by
  obtain ⟨hr,hs,-,hx,hy,hα,hβ,hα',hβ',hαβ⟩ := h
  obtain ⟨hq,hq0⟩ := squares_within hr.toBounded hy hα' hβ' hαβ
  obtain ⟨ht,ht0⟩ := squares_within hs.toBounded hx hβ' hα' (by omega)
  replace ht := ht.mono_zpow (m:=2*α+2*β+35) (by omega)
  refine ⟨hq.add_zpow ht (by omega) (by omega),fun e hl he he' => ?_,fun e hl he he' => ?_⟩
  · exact toRat_add_ge hq ht hq0 ht0
      (.inr (squares_ge hs hx hβ hβ' hα' (by omega) hl he he')) (by omega) (by omega) (by omega)
  · exact toRat_add_ge hq ht hq0 ht0
      (.inl (squares_ge hr hy hα hα' hβ' hαβ hl he he')) (by omega) (by omega) (by omega)

/-- The ratio times the chord is within the radii, up to a factor. -/
theorem exists_ratio : ∃ m i j : ℤ, Bounded (ratio r s x y) (2^m) ∧ Bounded x (2^i) ∧
    i ≤ α+9 ∧ m+i ≤ α+26 ∧ Bounded y (2^j) ∧ j ≤ β+9 ∧ m+j ≤ β+26 := by
  have hn := bounded_numerator h
  obtain ⟨hd,hx,hy⟩ := denominator_within h
  obtain ⟨-,-,hc,hx',hy',hα,hβ,hα',hβ',hαβ⟩ := h
  unfold ratio
  split_ifs with h0
  · exact ⟨17,α+8,β+8,⟨rfl,by norm_num⟩,hx',by omega,by omega,hy',by omega,by omega⟩
  rw [Bool.or_eq_true,not_or,decide_eq_true_iff,le_iff_toRat hn.isFinite rfl,toRat_zero,
    not_le] at h0
  have hpos : 0 < toRat (denominator r s x y) := by
    rcases hc.ge with hl | hl
    · exact (zpow_pos two_pos _).trans_le (hx _ hl (by omega) (by omega))
    · exact (zpow_pos two_pos _).trans_le (hy _ hl (by omega) (by omega))
  obtain ⟨e,he,-,hge⟩ := exists_exponent hpos
  replace hx j hl hj hj' := hge _ (hx j hl hj hj')
  replace hy j hl hj hj' := hge _ (hy j hl hj hj')
  have hlarge : 2*α-216 ≤ e ∨ 2*β-216 ≤ e :=
    hc.ge.symm.imp (fun hl => by have := hy _ hl (by omega) (by omega); omega)
      fun hl => by have := hx _ hl (by omega) (by omega); omega
  have hq := hn.div_zpow (m:=2*α+2*β+40-e) hd.isFinite (he.trans (le_abs_self _)) (by omega)
    (by omega)
  have hq0 := toRat_div_nonneg hn.isFinite hd.isFinite hpos h0.1.le
  obtain ⟨i,hi,hi',hi''⟩ := exists_part (m:=(2*α+2*β+45-e)/2) hx' (by omega) hα hβ hβ' hx
    (hc.ge.imp_right fun hl => by have := hy _ hl (by omega) (by omega); omega)
  obtain ⟨j,hj,hj',hj''⟩ := exists_part (m:=(2*α+2*β+45-e)/2) hy' (by omega) hβ hα hα' hy
    (hc.ge.symm.imp_right fun hl => by have := hx _ hl (by omega) (by omega); omega)
  exact ⟨(2*α+2*β+45-e)/2,i,j,hq.sqrt_zpow hq0 (by omega),hi,hi',hi'',hj,hj',hj''⟩

end Root

end Arc
end ExtrusionProfile
