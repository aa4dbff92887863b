import ExtrusionProfile.Proofs.Plane.Bounds
import ExtrusionProfile.Proofs.Plane.Centre

/-! The points of an arc are numbers, as long as its own numbers are moderate. Their squares leave
the range of doubles otherwise, and then there are arcs with points that are not. -/
namespace ExtrusionProfile

open Binary64

/-- A point with coordinates within `2^k`. -/
structure Point.Within (v : Point Float) (k : ℤ) : Prop where
  x : Bounded v.x (2^k)
  y : Bounded v.y (2^k)

namespace Arc

section Angles

variable {u v : Point Float}

theorem squaredLength_within (hu : u.Within 40) :
    Bounded (u.x*u.x+u.y*u.y) (2^(83 : ℤ)) ∧ 0 ≤ toRat (u.x*u.x+u.y*u.y) := by
  have hx := hu.x.mul_zpow (m:=81) hu.x (by norm_num) (by norm_num)
  have hy := hu.y.mul_zpow (m:=81) hu.y (by norm_num) (by norm_num)
  exact ⟨hx.add_zpow hy (by norm_num) (by norm_num),toRat_add_nonneg hx.isFinite hy.isFinite
    (toRat_mul_self_nonneg hu.x.isFinite) (toRat_mul_self_nonneg hu.y.isFinite)⟩

/-- A root that is not zero is the root of a double, and so not very small. -/
theorem sqrt_ge {x : Float} (hx : x.isFinite) (h0 : 0 ≤ toRat x) (h : toRat x.sqrt ≠ 0) :
    2^(-539 : ℤ) ≤ |toRat x.sqrt| := by
  obtain ⟨-,-,hle,-⟩ := sqrt_within hx h0
  have hpos : 0 < toRat x := by
    have := sq_pos_of_ne_zero h
    linarith
  exact (two_zpow_le_sqrt hx (smallest_le_toRat hx hpos) (by norm_num)).trans (le_abs_self _)

theorem bounded_vectorAngle (hu : u.Within 40) (hv : v.Within 40) :
    Bounded (vectorAngle u v) 1200 := by
  obtain ⟨hp,hp0⟩ := squaredLength_within hu
  obtain ⟨hq,hq0⟩ := squaredLength_within hv
  have ht := hp.mul_zpow (m:=167) hq (by norm_num) (by norm_num)
  have ht0 := toRat_mul_nonneg hp.isFinite hq.isFinite hp0 hq0
  have hl := ht.sqrt_zpow (m:=86) ht0 (by norm_num)
  have hx := hu.x.mul_zpow (m:=81) hv.x (by norm_num) (by norm_num)
  have hy := hu.y.mul_zpow (m:=81) hv.y (by norm_num) (by norm_num)
  have hd := hx.add_zpow (m:=83) hy (by norm_num) (by norm_num)
  unfold vectorAngle
  dsimp only
  by_cases h0 : Float.sqrt ((u.x*u.x+u.y*u.y)*(v.x*v.x+v.y*v.y)) == 0
  · rw [if_pos h0]
    exact ⟨rfl,by norm_num⟩
  · rw [if_neg h0]
    rw [beq_iff_toRat hl.isFinite rfl,toRat_zero] at h0
    have hc := hd.div_zpow (m:=700) hl.isFinite (sqrt_ge ht.isFinite ht0 h0) (by norm_num)
      (by norm_num)
    have ha := Trig.bounded_arccos (bounded_clamp hc.isFinite)
    split_ifs
    · exact Trig.bounded_one.neg.mul ha (by norm_num [slack])
    · exact Trig.bounded_one.mul ha (by norm_num [slack])

/-- The turn of an arc in the direction of its sweep. -/
def swept (sweep : Bool) (turn : Float) : Float :=
  if !sweep && 0 < turn then turn-Trig.tau
  else if sweep && turn < 0 then turn+Trig.tau
  else turn

theorem bounded_swept {t : Float} (ht : Bounded t 1200) (sweep : Bool) :
    Bounded (swept sweep t) 1210 := by
  have htau : Bounded Trig.tau 9 := Trig.bounded_pi.mul Trig.bounded_two (by norm_num [slack])
  unfold swept
  split_ifs
  · exact ht.sub htau (by norm_num [slack])
  · exact ht.add htau (by norm_num [slack])
  · exact ht.mono (by norm_num)

theorem bounded_tilt {x : Float} (hx : x.isFinite) :
    Bounded (remainder x 360*Trig.pi/180) (2^16) := by
  have hm := (bounded_remainder hx (n:=360) (by norm_num) (by norm_num)).mul (d:=12000)
    Trig.bounded_pi (by norm_num [slack])
  have hn := Bounded.natural (b:=181) 180 (by norm_num [slack])
  have hl := le_two_mul_natural (n:=180) (by norm_num) (lt_of_le_moderate (by norm_num))
  refine hm.div hn.isFinite (c:=90) (by norm_num) ?_ (by norm_num [slack])
  have hl : 90 ≤ toRat (Float.ofNat 180) := by
    norm_num at hl
    linarith
  exact hl.trans (le_abs_self _)

end Angles

section Stages

def chord (c s : Float) (p q : Point Float) : Point Float :=
  ⟨c*((p.x-q.x)/2)+s*((p.y-q.y)/2),-s*((p.x-q.x)/2)+c*((p.y-q.y)/2)⟩

/-- The centre, from the middle of the chord and in the frame of the ellipse. -/
def offset (coef r s : Float) (v : Point Float) : Point Float :=
  ⟨coef*(r*v.y)/s,coef*(-(s*v.x))/r⟩

def centre (c s : Float) (d p q : Point Float) : Point Float :=
  ⟨c*d.x-s*d.y+(p.x+q.x)/2,s*d.x+c*d.y+(p.y+q.y)/2⟩

/-- A point of an ellipse as one of the unit circle. -/
def spoke (r s x y : Float) (d : Point Float) : Point Float := ⟨(x-d.x)/r,(y-d.y)/s⟩

/-- The sector of an arc with its frame, its chord and its radii given. -/
def sectorIn (a : Arc) (p : Point Float) (c s r r' : Float) (v : Point Float) : Sector :=
  let d := offset (if a.largeArc == a.sweep then -ratio r r' v.x v.y else ratio r r' v.x v.y) r r' v
  ⟨⟨c,s,centre c s d p a.stop,r,r'⟩,vectorAngle ⟨1,0⟩ (spoke r r' v.x v.y d),
    swept a.sweep (vectorAngle (spoke r r' v.x v.y d) (spoke r r' (-v.x) (-v.y) d))⟩

theorem sector_eq (a : Arc) (p : Point Float) : a.sector p =
    (let phi := remainder a.rotation 360*Trig.pi/180
    let v := chord (Trig.cos phi) (Trig.sin phi) p a.stop
    let l := reach (magnitude a.rx) (magnitude a.ry) v.x v.y
    sectorIn a p (Trig.cos phi) (Trig.sin phi) (grown (magnitude a.rx) l)
      (grown (magnitude a.ry) l) v) :=
  rfl

variable {r s x y : Float} {α β : ℤ} {d p q : Point Float}

theorem offset_within {coef : Float} (h : Span r s x y α β) {m i j : ℤ} (hm : Bounded coef (2^m))
    (hx : Bounded x (2^i)) (hi : i ≤ α+9) (hmi : m+i ≤ α+26) (hy : Bounded y (2^j)) (hj : j ≤ β+9)
    (hmj : m+j ≤ β+26) :
    Bounded (offset coef r s ⟨x,y⟩).x (2^(α+37)) ∧
      Bounded (offset coef r s ⟨x,y⟩).y (2^(β+37)) := by
  have hαβ := h.high
  have hα := h.left_high
  have hβ := h.right_high
  have h₁ := hm.mul_zpow (m:=α+β+36) (h.left.toBounded.mul_zpow (m:=α+j+9) hy (by omega) (by omega))
    (by omega) (by omega)
  have h₂ := hm.mul_zpow (m:=α+β+36)
    (h.right.toBounded.mul_zpow (m:=β+i+9) hx (by omega) (by omega)).neg (by omega) (by omega)
  exact ⟨h₁.div_zpow h.right.isFinite h.right.ge (by omega) (by omega),
    h₂.div_zpow h.left.isFinite h.left.ge (by omega) (by omega)⟩

theorem spoke_within (h : Span r s x y α β) {x' y' : Float} (hx : Bounded x' (2^(α+8)))
    (hy : Bounded y' (2^(β+8))) (hd : Bounded d.x (2^(α+37))) (hd' : Bounded d.y (2^(β+37))) :
    (spoke r s x' y' d).Within 40 := by
  have hα := h.left_high
  have hβ := h.right_high
  have h₁ := (hx.mono_zpow (m:=α+37) (by omega)).sub_zpow (m:=α+39) hd (by omega) (by omega)
  have h₂ := (hy.mono_zpow (m:=β+37) (by omega)).sub_zpow (m:=β+39) hd' (by omega) (by omega)
  exact ⟨h₁.div_zpow h.left.isFinite h.left.ge (by omega) (by omega),
    h₂.div_zpow h.right.isFinite h.right.ge (by omega) (by omega)⟩

theorem half_within {x y : Float} (hx : Bounded x (2^(100 : ℤ))) (hy : Bounded y (2^(100 : ℤ))) :
    Bounded ((x+y)/2) (2^(102 : ℤ)) :=
  (hx.add_zpow (m:=102) hy (by norm_num) (by norm_num)).div_zpow between_two.isFinite between_two.ge
    (by norm_num) (by norm_num)

section Frame

variable {c s' : Float} (hc : Bounded c (2^(1 : ℤ))) (hs : Bounded s' (2^(1 : ℤ)))
include hc hs

theorem moved_within {t u : Float} {k n : ℤ} (hx : Bounded x (2^k)) (hy : Bounded y (2^k))
    (ht : Bounded t (2^n)) (hu : Bounded u (2^n)) (hk : k+4 ≤ n) (hn : n ≤ 1000) :
    (⟨c*x-s'*y+t,s'*x+c*y+u⟩ : Point Float).Within (n+2) := by
  have hcx := hc.mul_zpow (m:=k+2) hx (by omega) (by omega)
  have hcy := hc.mul_zpow (m:=k+2) hy (by omega) (by omega)
  have hsx := hs.mul_zpow (m:=k+2) hx (by omega) (by omega)
  have hsy := hs.mul_zpow (m:=k+2) hy (by omega) (by omega)
  exact ⟨(hcx.sub_zpow hsy (by omega) (by omega)).add_zpow ht (by omega) le_rfl,
    (hsx.add_zpow hcy (by omega) (by omega)).add_zpow hu (by omega) le_rfl⟩

end Frame

/-- A sector whose angles are few turns, and whose frame has numbers far from overflow. -/
structure Tame (s : Sector) : Prop where
  cosine : Bounded s.frame.cosine (2^(1 : ℤ))
  sine : Bounded s.frame.sine (2^(1 : ℤ))
  centre : s.frame.centre.Within 372
  rx : Bounded s.frame.rx (2^(330 : ℤ))
  ry : Bounded s.frame.ry (2^(330 : ℤ))
  start : Bounded s.start 1200
  turn : Bounded s.turn 1210

variable {a : Arc} {c s' : Float} {v : Point Float}

theorem tame_sectorIn (h : Span r s v.x v.y α β) (hc : Bounded c (2^(1 : ℤ)))
    (hs : Bounded s' (2^(1 : ℤ))) (hp : p.Within 100) (hq : a.stop.Within 100) :
    Tame (sectorIn a p c s' r s v) := by
  obtain ⟨m,i,j,hm,hx,hi,hmi,hy,hj,hmj⟩ := exists_ratio h
  obtain ⟨hdx,hdy⟩ := offset_within h (hm.signed (a.largeArc == a.sweep)) hx hi hmi hy hj hmj
  have hα := h.left_high
  have hβ := h.right_high
  have h10 : (⟨1,0⟩ : Point Float).Within 40 :=
    ⟨Trig.bounded_one.mono (by norm_num),rfl,by norm_num⟩
  have hmx := (half_within hp.x hq.x).mono_zpow (m:=370) (by norm_num)
  have hmy := (half_within hp.y hq.y).mono_zpow (m:=370) (by norm_num)
  unfold sectorIn
  dsimp only
  generalize offset _ r s v = d at hdx hdy ⊢
  have hu := spoke_within h h.within_left h.within_right hdx hdy
  have hv := spoke_within h h.within_left.neg h.within_right.neg hdx hdy
  have hd := moved_within hc hs (hdx.mono_zpow (m:=360) (by omega)) (hdy.mono_zpow (by omega))
    hmx hmy (by norm_num) (by norm_num)
  exact ⟨hc,hs,hd,h.left.toBounded.mono_zpow (by omega),h.right.toBounded.mono_zpow (by omega),
    bounded_vectorAngle h10 hu,bounded_swept (bounded_vectorAngle hu hv) _⟩

theorem Tame.isFinite_at {s : Sector} (h : Tame s) {t : Float} (ht : Bounded t (2^16)) :
    (s.frame.at t).IsFinite := by
  obtain ⟨hs,hc,-⟩ := Trig.sin_cos_within ht
  have hs : Bounded (Trig.sin t) (2^(1 : ℤ)) := hs
  have hc : Bounded (Trig.cos t) (2^(1 : ℤ)) := hc
  have hx := h.rx.mul_zpow (m:=332) hc (by norm_num) (by norm_num)
  have hy := h.ry.mul_zpow (m:=332) hs (by norm_num) (by norm_num)
  have hp := moved_within h.cosine h.sine hx hy h.centre.x h.centre.y (by norm_num) (by norm_num)
  exact ⟨hp.x.isFinite,hp.y.isFinite⟩

theorem natCast_le_two_zpow {n : ℕ} (hn : n ≤ 10^300) : (n : ℚ) ≤ 2^(1000 : ℤ) := by
  have h : n ≤ 2^1000 := hn.trans (by
    rw [pow_mul 10 3 100,pow_mul 2 10 100]
    exact Nat.pow_le_pow_left (by norm_num) 100)
  rw [show (1000 : ℤ) = (1000 : ℕ) from rfl,zpow_natCast]
  exact (Nat.cast_le.mpr h).trans_eq (Nat.cast_pow 2 1000)

theorem Tame.bounded_angle {s : Sector} (h : Tame s) {k n : ℕ} (hk : k ≤ n) (h0 : 0 < n)
    (hn : n ≤ 10^300) : Bounded (s.start+s.turn*Float.ofNat k/Float.ofNat n) (2^16) := by
  have hn := natCast_le_two_zpow hn
  have hn' : (n : ℚ) < 2^(1023 : ℤ) := hn.trans_lt (zpow_lt_zpow_right₀ one_lt_two (by norm_num))
  have hk : (k : ℚ) ≤ n := Nat.cast_le.mpr hk
  have h0' : (0 : ℚ) < n := Nat.cast_pos.mpr h0
  have hlt : 1210*(2*(n : ℚ)) < 2^(1023 : ℤ) := calc
    1210*(2*(n : ℚ)) = 2420*n := by ring
    _ ≤ 2^(12 : ℤ)*2^(1000 : ℤ) := mul_le_mul (by norm_num) hn h0'.le (by norm_num)
    _ = 2^(1012 : ℤ) := (zpow_add₀ (by norm_num) _ _).symm
    _ < 2^(1023 : ℤ) := zpow_lt_zpow_right₀ one_lt_two (by norm_num)
  have hf : Bounded (Float.ofNat k) (2*n) :=
    (Bounded.natural_two_mul (hk.trans_lt hn')).mono (by linarith)
  have hm := h.turn.mul_two_mul hf hlt
  have hd := le_two_mul_natural h0 hn'
  have hq : 2*(1210*(2*(n : ℚ)))/(n/2) = 9680 := by
    field_simp
    norm_num
  have hv := hm.div_two_mul (Bounded.natural_two_mul hn').isFinite (half_pos h0')
    (by linarith [le_abs_self (toRat (Float.ofNat n))])
    (by rw [hq]; exact lt_of_le_moderate (by norm_num))
  rw [hq] at hv
  exact h.start.add hv (by norm_num [slack])

end Stages

section Points

/-- The numbers of an arc from `p` are such that nothing computed from them leaves the range of
doubles. -/
structure Moderate (a : Arc) (p : Point Float) : Prop where
  rx : |toRat a.rx| ∈ Set.Icc (1/10^30) (10^30)
  ry : |toRat a.ry| ∈ Set.Icc (1/10^30) (10^30)
  start_x : |toRat p.x| ≤ 10^30
  start_y : |toRat p.y| ≤ 10^30
  stop_x : |toRat a.stop.x| ≤ 10^30
  stop_y : |toRat a.stop.y| ≤ 10^30
  apart : 1/10^30 ≤ |toRat p.x-toRat a.stop.x| ∨ 1/10^30 ≤ |toRat p.y-toRat a.stop.y|

structure IsFinite (a : Arc) : Prop where
  rx : a.rx.isFinite
  ry : a.ry.isFinite
  rotation : a.rotation.isFinite
  stop : a.stop.IsFinite

variable {a : Arc} {p : Point Float}

theorem Moderate.spread (h : a.Moderate p) (hp : p.IsFinite) (hq : a.stop.IsFinite) :
    p.Within 100 ∧ a.stop.Within 100 ∧ Spread ((p.x-a.stop.x)/2) ((p.y-a.stop.y)/2) (-103) 102 := by
  have hu : (10 : ℚ)^30 ≤ 2^(100 : ℤ) := by norm_num
  have hl : (2 : ℚ)^(-100 : ℤ) ≤ 1/10^30 := by norm_num
  have hp : p.Within 100 := ⟨⟨hp.1,h.start_x.trans hu⟩,⟨hp.2,h.start_y.trans hu⟩⟩
  have hq : a.stop.Within 100 := ⟨⟨hq.1,h.stop_x.trans hu⟩,⟨hq.2,h.stop_y.trans hu⟩⟩
  exact ⟨hp,hq,bounded_halfDifference hp.x hq.x,bounded_halfDifference hp.y hq.y,
    h.apart.imp (fun h => halfDifference_ge hp.x hq.x (hl.trans h))
      fun h => halfDifference_ge hp.y hq.y (hl.trans h)⟩

theorem exists_radius {r : Float} (hr : r.isFinite)
    (h : |toRat r| ∈ Set.Icc (1/10^30 : ℚ) (10^30)) : ∃ α : ℤ, Radius (magnitude r) α := by
  have hl : (2 : ℚ)^(-100 : ℤ) ≤ |toRat r| := h.1.trans' (by norm_num)
  have hu : |toRat r| ≤ 2^(100 : ℤ) := h.2.trans (by norm_num)
  obtain ⟨α,he,he',hge⟩ := exists_exponent ((zpow_pos two_pos _).trans_le hl)
  have hf : (magnitude r).isFinite := (Bounded.magnitude ⟨hr,le_rfl⟩).isFinite
  have hm : |toRat (magnitude r)| = |toRat r| := by rw [toRat_magnitude hr,abs_abs]
  exact ⟨α,⟨⟨hf,hm.trans_le he'.le⟩,he.trans_eq hm.symm⟩,hge _ hl,
    (zpow_le_zpow_iff_right₀ one_lt_two).mp (he.trans hu)⟩

theorem tame_sector (ha : a.IsFinite) (hp : p.IsFinite) (h : a.Moderate p) : Tame (a.sector p) := by
  obtain ⟨hs,hc,hsc⟩ := Trig.sin_cos_within (bounded_tilt ha.rotation)
  obtain ⟨hp,hq,hd⟩ := h.spread hp ha.stop
  obtain ⟨α,hr⟩ := exists_radius ha.rx h.rx
  obtain ⟨β,hs'⟩ := exists_radius ha.ry h.ry
  have hv := hd.rotated hc hs hsc (by norm_num) (by norm_num)
  obtain ⟨γ,δ,hspan⟩ := exists_span hr hs' hv
  rw [sector_eq]
  exact tame_sectorIn hspan hc hs hp hq

/-- The points of an arc are numbers, and finite ones, if those of the arc are moderate. -/
theorem flatten_isFinite {segments : Float} (ha : a.IsFinite) (hp : p.IsFinite)
    (hn : Scalar.count segments ≤ 10^300) (h : a.flaw? p = none → a.Moderate p) :
    ∀ z ∈ (flatten segments a p).points, z.IsFinite := by
  intro z hz
  unfold flatten at hz
  cases hf : a.flaw? p with
  | some f =>
    rw [hf] at hz
    rcases List.mem_pair.mp hz with rfl | rfl
    · exact hp
    · exact ha.stop
  | none =>
    have ht := tame_sector ha hp (h hf)
    rw [hf] at hz
    rcases List.mem_cons.mp hz with rfl | hz
    · exact hp
    rcases List.mem_append.mp hz with hz | hz
    · obtain ⟨i,hi,rfl⟩ := List.mem_map.mp hz
      have hi := List.mem_range.mp hi
      exact ht.isFinite_at (ht.bounded_angle (by omega) (by omega) hn)
    · rw [List.mem_singleton.mp hz]
      exact ha.stop

/-- From a corner to the next but one of a rectangle, on an ellipse that is turned. -/
def leaningArc : Arc := ⟨20,10,30,false,true,⟨30,10⟩⟩

theorem flatten_isFinite_leaningArc :
    (leaningArc.IsFinite ∧ Point.IsFinite ⟨0,0⟩ ∧ leaningArc.Moderate ⟨0,0⟩) ∧
      ∀ z ∈ (flatten 16 leaningArc ⟨0,0⟩).points, z.IsFinite := by
  have ha : leaningArc.IsFinite := ⟨rfl,rfl,rfl,rfl,rfl⟩
  have hp : Point.IsFinite ⟨0,0⟩ := ⟨rfl,rfl⟩
  have hm : leaningArc.Moderate ⟨0,0⟩ := ⟨⟨by decide +kernel,by decide +kernel⟩,
    ⟨by decide +kernel,by decide +kernel⟩,by decide +kernel,by decide +kernel,by decide +kernel,
    by decide +kernel,by decide +kernel⟩
  exact ⟨⟨ha,hp,hm⟩,flatten_isFinite ha hp (by decide +kernel) fun _ => hm⟩

/-- An arc whose radius is too small to be squared. -/
def tinyArc : Arc := ⟨1e-200,1e-200,0,false,true,⟨10,0⟩⟩

theorem exists_isNaN_flatten_tinyArc : tinyArc.IsFinite ∧ Point.IsFinite ⟨0,0⟩ ∧
    ∃ z ∈ (flatten 2 tinyArc ⟨0,0⟩).points, z.x.isNaN ∧ z.y.isNaN := by
  have h : (flatten 2 tinyArc ⟨0,0⟩).points.any fun z => z.x.isNaN && z.y.isNaN := by
    decide +kernel
  obtain ⟨z,hz,hn⟩ := List.any_eq_true.mp h
  exact ⟨⟨by decide +kernel,by decide +kernel,rfl,rfl,rfl⟩,⟨rfl,rfl⟩,z,hz,
    Bool.and_eq_true_iff.mp hn⟩

end Points

end Arc
end ExtrusionProfile
