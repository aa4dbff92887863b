import ExtrusionProfile.Plane.Curve
import ExtrusionProfile.Proofs.Plane.Bounds
import Mathlib.Tactic.FieldSimp
import Mathlib.Tactic.Linarith
import Mathlib.Tactic.Ring

/-! Bézier curves in exact arithmetic. Both kinds are de Casteljau's curve of their control points,
whose points divide the sides of the control polygon again and again. What is known of that division
for any number of control points is then known of both: it has no direction, and it does not leave a
box. -/
namespace ExtrusionProfile
namespace Bezier

def divide (t : ℚ) (p q : Point ℚ) : Point ℚ := ⟨(1-t)*p.x+t*q.x,(1-t)*p.y+t*q.y⟩

/-- The points that divide the sides of a polygon at `t`. -/
def corners (t : ℚ) : List (Point ℚ) → List (Point ℚ)
  | [] | [_] => []
  | p::q::ps => divide t p q::corners t (q::ps)

@[simp] theorem corners_length (t : ℚ) (ps : List (Point ℚ)) :
    (corners t ps).length = ps.length-1 := by
  fun_induction corners t ps with
  | case1 => rfl
  | case2 p => rfl
  | case3 p q ps ih => simp [ih]

/-- The point at `t` of the curve that some control points have. -/
def casteljau (t : ℚ) : List (Point ℚ) → Point ℚ
  | [] => Point.origin
  | [p] => p
  | p::q::ps => casteljau t (corners t (p::q::ps))
termination_by ps => ps.length

def samples (n : ℕ) (ps : List (Point ℚ)) : List (Point ℚ) :=
  (List.range (n+1)).map fun i : ℕ => casteljau (i/n) ps

variable {t : ℚ} {p q : Point ℚ} {ps : List (Point ℚ)} {b : Bounds ℚ}

section Direction

theorem divide_reverse (t : ℚ) (p q : Point ℚ) : divide (1-t) q p = divide t p q := by
  simp only [divide,sub_sub_cancel,add_comm]

theorem corners_concat (t : ℚ) (ps : List (Point ℚ)) (p q : Point ℚ) :
    corners t (ps ++ [p,q]) = corners t (ps ++ [p]) ++ [divide t p q] := by
  fun_induction corners t ps with
  | case1 => rfl
  | case2 r => rfl
  | case3 r s ps ih => exact congrArg (divide t r s::·) ih

theorem corners_reverse (t : ℚ) (ps : List (Point ℚ)) :
    corners (1-t) ps.reverse = (corners t ps).reverse := by
  fun_induction corners t ps with
  | case1 => rfl
  | case2 p => rfl
  | case3 p q ps ih =>
    rw [List.reverse_cons,List.reverse_cons,List.append_assoc,List.singleton_append,corners_concat,
      ← List.reverse_cons,ih,divide_reverse,List.reverse_cons]

theorem casteljau_corners (h : 2 ≤ ps.length) : casteljau t ps = casteljau t (corners t ps) := by
  match ps with
  | p::q::ps => rw [casteljau]

theorem casteljau_reverse (t : ℚ) (ps : List (Point ℚ)) :
    casteljau (1-t) ps.reverse = casteljau t ps := by
  fun_induction casteljau t ps with
  | case1 => simp [casteljau]
  | case2 p => simp [casteljau]
  | case3 p q ps ih => rw [casteljau_corners (by simp),corners_reverse,ih]

theorem samples_reverse {n : ℕ} (hn : 1 ≤ n) (ps : List (Point ℚ)) :
    (samples n ps).reverse = samples n ps.reverse := by
  refine List.ext_getElem (by simp [samples]) fun i hi hi' => ?_
  have hi : i ≤ n := by simpa [samples,Nat.lt_succ_iff] using hi
  have hd : ((n-i : ℕ) : ℚ)/n = 1-i/n := by
    rw [Nat.cast_sub hi]
    field_simp
  simp only [samples,List.getElem_reverse,List.getElem_map,List.getElem_range,List.length_map,
    List.length_range,Nat.add_sub_cancel]
  rw [hd,← casteljau_reverse _ ps.reverse,List.reverse_reverse]

end Direction

section Box

theorem holds_divide (ht : 0 ≤ t) (ht' : t ≤ 1) (hp : b.Holds p) (hq : b.Holds q) :
    b.Holds (divide t p q) := by
  have hc : ∀ {l x y : ℚ}, l ≤ x → l ≤ y → l ≤ (1-t)*x+t*y := fun hx hy => by
    nlinarith [mul_le_mul_of_nonneg_left hx (sub_nonneg.mpr ht'),mul_le_mul_of_nonneg_left hy ht]
  have hc' : ∀ {u x y : ℚ}, x ≤ u → y ≤ u → (1-t)*x+t*y ≤ u := fun hx hy => by
    nlinarith [mul_le_mul_of_nonneg_left hx (sub_nonneg.mpr ht'),mul_le_mul_of_nonneg_left hy ht]
  exact ⟨hc hp.left hq.left,hc' hp.right hq.right,hc hp.low hq.low,hc' hp.high hq.high⟩

theorem holds_corners (ht : 0 ≤ t) (ht' : t ≤ 1) (h : ∀ p ∈ ps, b.Holds p) :
    ∀ p ∈ corners t ps, b.Holds p := by
  fun_induction corners t ps with
  | case1 => exact h
  | case2 p => simp
  | case3 p q ps ih =>
    obtain ⟨hp,hs⟩ := List.forall_mem_cons.mp h
    exact List.forall_mem_cons.mpr ⟨holds_divide ht ht' hp (hs q List.mem_cons_self),ih hs⟩

/-- A curve stays in every box that holds its control points. -/
theorem holds_casteljau (ht : 0 ≤ t) (ht' : t ≤ 1) (hn : ps ≠ []) (h : ∀ p ∈ ps, b.Holds p) :
    b.Holds (casteljau t ps) := by
  fun_induction casteljau t ps with
  | case1 => exact absurd rfl hn
  | case2 p => exact h p List.mem_cons_self
  | case3 p q ps ih => exact ih (List.cons_ne_nil _ _) (holds_corners ht ht' h)

theorem holds_samples {n : ℕ} (hn : ps ≠ []) (h : ∀ p ∈ ps, b.Holds p) :
    ∀ p ∈ samples n ps, b.Holds p := by
  intro p hp
  obtain ⟨i,hi,rfl⟩ := List.mem_map.mp hp
  have hi : (i : ℚ) ≤ n := by exact_mod_cast Nat.lt_succ_iff.mp (List.mem_range.mp hi)
  exact holds_casteljau (by positivity) (div_le_one_of_le₀ hi (Nat.cast_nonneg n)) hn h

end Box

theorem getElem?_samples_mul {k : ℕ} (hk : 1 ≤ k) (n : ℕ) (ps : List (Point ℚ)) (i : ℕ) :
    (samples (k*n) ps)[k*i]? = (samples n ps)[i]? := by
  have hd : ((k*i : ℕ) : ℚ)/(k*n : ℕ) = i/n := by
    push_cast
    exact mul_div_mul_left _ _ (by positivity)
  simp only [samples,List.getElem?_map]
  by_cases hi : i ≤ n
  · have hk' : k*i ≤ k*n := Nat.mul_le_mul_left k hi
    rw [List.getElem?_range (Nat.lt_succ_of_le hk'),List.getElem?_range (Nat.lt_succ_of_le hi),
      Option.map_some,Option.map_some,hd]
  · have hi : n+1 ≤ i := not_le.mp hi
    have hk' : k*n+1 ≤ k*i := Nat.mul_lt_mul_of_pos_left hi hk
    rw [List.getElem?_eq_none (by simpa using hk'),List.getElem?_eq_none (by simpa using hi),
      Option.map_none,Option.map_none]

section Flatten

variable {s : ℚ}

/-- Into how many pieces a curve is cut: the whole part of the setting, and at least one. -/
def pieces (s : ℚ) : ℕ := max 1 ⌊s⌋₊

theorem pieces_pos (s : ℚ) : 1 ≤ pieces s := Nat.le_max_left 1 _

theorem cons_innerParameters {n : ℕ} (hn : 1 ≤ n) {f : ℚ → Point ℚ}
    (hf : ∀ t, f t = casteljau t ps) (hp : casteljau 0 ps = p) (hq : casteljau 1 ps = q) :
    p::((innerParameters n).map f ++ [q]) = samples n ps := by
  obtain ⟨m,rfl⟩ := Nat.exists_eq_add_of_le' hn
  have hi : (innerParameters (m+1)).map f =
      (List.range m).map fun i : ℕ => casteljau ((i+1 : ℕ)/(m+1 : ℕ)) ps := by
    rw [innerParameters,List.map_map]
    exact List.map_congr_left fun i _ => hf _
  have hl : ((m+1 : ℕ) : ℚ)/(m+1 : ℕ) = 1 := div_self (by positivity)
  rw [hi,samples,List.range_succ,List.range_succ_eq_map,List.map_append,List.map_cons,List.map_map,
    List.map_singleton,Nat.cast_zero,zero_div,hp,hl,hq]
  rfl

theorem cubicAt_eq (p q r u : Point ℚ) (t : ℚ) : cubicAt p q r u t = casteljau t [p,q,r,u] := by
  simp only [casteljau,corners,divide,cubicAt,Scalar.one_rat,Scalar.ofNat_rat,Point.mk.injEq]
  push_cast
  constructor <;> ring

theorem quadraticAt_eq (p q r : Point ℚ) (t : ℚ) : quadraticAt p q r t = casteljau t [p,q,r] := by
  simp only [casteljau,corners,divide,quadraticAt,Scalar.one_rat,Scalar.ofNat_rat,Point.mk.injEq]
  push_cast
  constructor <;> ring

theorem flattenCubic_eq (s : ℚ) (p q r u : Point ℚ) :
    flattenCubic s p q r u = samples (pieces s) [p,q,r,u] := by
  refine cons_innerParameters (pieces_pos s) (cubicAt_eq p q r u) ?_ ?_ <;>
    simp [casteljau,corners,divide]

theorem flattenQuadratic_eq (s : ℚ) (p q r : Point ℚ) :
    flattenQuadratic s p q r = samples (pieces s) [p,q,r] := by
  refine cons_innerParameters (pieces_pos s) (quadraticAt_eq p q r) ?_ ?_ <;>
    simp [casteljau,corners,divide]

def twoThirds (p q : Point ℚ) : Point ℚ := ⟨p.x+2/3*(q.x-p.x),p.y+2/3*(q.y-p.y)⟩

/-- A quadratic curve is a cubic one with control points two thirds of the way to its own. -/
theorem casteljau_twoThirds (t : ℚ) (p q r : Point ℚ) :
    casteljau t [p,twoThirds p q,twoThirds r q,r] = casteljau t [p,q,r] := by
  simp only [casteljau,corners,divide,twoThirds,Point.mk.injEq]
  constructor <;> ring

/-- A curve is drawn through its points at the ends and the divisions of as many equal pieces as the
setting asks for. -/
theorem flatten_samples (s : ℚ) (p q r u : Point ℚ) :
    (flattenCubic s p q r u = samples (pieces s) [p,q,r,u] ∧
      flattenQuadratic s p q r = samples (pieces s) [p,q,r]) ∧
    flattenQuadratic s p q r = flattenCubic s p (twoThirds p q) (twoThirds r q) r ∧
    ((flattenCubic s p q r u).reverse = flattenCubic s u r q p ∧
      (flattenQuadratic s p q r).reverse = flattenQuadratic s r q p) ∧
    ((∀ b ∈ Bounds.around? [p,q,r,u], ∀ z ∈ flattenCubic s p q r u, b.Holds z) ∧
      ∀ b ∈ Bounds.around? [p,q,r], ∀ z ∈ flattenQuadratic s p q r, b.Holds z) ∧
    ∀ k s', pieces s' = k*pieces s → ∀ i,
      (flattenCubic s' p q r u)[k*i]? = (flattenCubic s p q r u)[i]? ∧
        (flattenQuadratic s' p q r)[k*i]? = (flattenQuadratic s p q r)[i]? := by
  simp only [flattenCubic_eq,flattenQuadratic_eq]
  refine ⟨⟨trivial,trivial⟩,?_,⟨?_,?_⟩,⟨?_,?_⟩,?_⟩
  · simp only [samples,casteljau_twoThirds]
  · exact samples_reverse (pieces_pos s) _
  · exact samples_reverse (pieces_pos s) _
  · exact fun b hb => holds_samples (List.cons_ne_nil _ _) fun z => Bounds.holds_of_around? hb
  · exact fun b hb => holds_samples (List.cons_ne_nil _ _) fun z => Bounds.holds_of_around? hb
  · intro k s' h i
    have hk : 1 ≤ k := Nat.pos_of_mul_pos_right (h ▸ pieces_pos s')
    rw [h]
    exact ⟨getElem?_samples_mul hk _ _ i,getElem?_samples_mul hk _ _ i⟩

/-- An arch over the unit square. -/
def arch (s : ℚ) : List (Point ℚ) := flattenCubic s ⟨0,0⟩ ⟨0,1⟩ ⟨1,1⟩ ⟨1,0⟩

theorem flatten_samples_arch :
    pieces 6 = 3*pieces (5/2) ∧ (arch 6)[3*1]? = (arch (5/2))[1]? ∧
      arch (5/2) = [⟨0,0⟩,⟨1/2,3/4⟩,⟨1,0⟩] ∧
      Bounds.around? [⟨0,0⟩,⟨0,1⟩,⟨1,1⟩,⟨1,0⟩] = some (⟨0,0,1,1⟩ : Bounds ℚ) ∧
      Bounds.Holds ⟨0,0,1,1⟩ ⟨1/2,3/4⟩ := by
  have hp : pieces 6 = 3*pieces (5/2) := by decide +kernel
  have ha : arch (5/2) = [⟨0,0⟩,⟨1/2,3/4⟩,⟨1,0⟩] := by decide +kernel
  have hb : Bounds.around? [⟨0,0⟩,⟨0,1⟩,⟨1,1⟩,⟨1,0⟩] = some (⟨0,0,1,1⟩ : Bounds ℚ) := by
    decide +kernel
  have hz : (⟨1/2,3/4⟩ : Point ℚ) ∈ arch (5/2) := by simp [ha]
  obtain ⟨-,-,-,⟨hc,-⟩,hk⟩ := flatten_samples (5/2) ⟨0,0⟩ ⟨0,1⟩ ⟨1,1⟩ ⟨1,0⟩
  exact ⟨hp,(hk 3 6 hp 1).1,ha,hb,hc _ hb _ hz⟩

end Flatten

end Bezier
end ExtrusionProfile
