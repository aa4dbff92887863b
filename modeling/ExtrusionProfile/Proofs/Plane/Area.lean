import ExtrusionProfile.Fit.Outline
import ExtrusionProfile.Nesting.Resolve
import ExtrusionProfile.Proofs.Plane.Bounds
import Mathlib.Data.List.Rotate
import Mathlib.Logic.Relation
import Mathlib.Tactic.Linarith
import Mathlib.Tactic.Ring

/-! Areas in exact arithmetic. Twice the area of a ring is a sum along the walk around it, which is
the sum along its parts wherever it is cut. So it does not matter where a ring begins, whether its
first point is repeated and where it lies, and only the sign shows which way it runs. -/
namespace ExtrusionProfile
namespace Ring

/-- Twice the signed area of the triangle of the origin and two points. -/
def cross (p q : Point ℚ) : ℚ := p.x*q.y-q.x*p.y

/-- The sum of the triangles along a walk. -/
def walkSum : List (Point ℚ) → ℚ
  | [] | [_] => 0
  | p::q::ps => cross p q+walkSum (q::ps)

/-- A ring as a walk that ends where it begins. -/
def close (ps : List (Point ℚ)) : List (Point ℚ) := ps ++ ps.take 1

variable {p q : Point ℚ} {ps qs : List (Point ℚ)}

@[simp] theorem cross_self (p : Point ℚ) : cross p p = 0 := by
  rw [cross,sub_self]

theorem cross_swap (p q : Point ℚ) : cross q p = -cross p q := by
  rw [cross,cross,neg_sub]

theorem walkSum_append (ps : List (Point ℚ)) (p : Point ℚ) (qs : List (Point ℚ)) :
    walkSum (ps ++ p::qs) = walkSum (ps ++ [p])+walkSum (p::qs) := by
  fun_induction walkSum ps with
  | case1 => simp [walkSum]
  | case2 r => simp [walkSum]
  | case3 r s ps ih =>
    simp only [List.cons_append,walkSum] at ih ⊢
    rw [ih,add_assoc]

theorem walkSum_reverse (ps : List (Point ℚ)) : walkSum ps.reverse = -walkSum ps := by
  fun_induction walkSum ps with
  | case1 => rfl
  | case2 p => rfl
  | case3 p q ps ih =>
    rw [List.reverse_cons,List.reverse_cons,List.append_assoc,List.singleton_append,walkSum_append,
      ← List.reverse_cons,ih,walkSum,walkSum,cross_swap,add_zero,neg_add,add_comm]

theorem crossSum_eq (p : Point ℚ) (s : ℚ) (q : Point ℚ) (ps : List (Point ℚ)) :
    crossSum p s (q::ps) = s+walkSum (q::ps ++ [p]) := by
  induction ps generalizing s q with
  | nil => simp only [crossSum,List.cons_append,List.nil_append,walkSum,cross]; ring
  | cons r ps ih =>
    rw [crossSum,ih]
    simp only [List.cons_append,walkSum,cross]
    ring

theorem area_eq (ps : List (Point ℚ)) : area ps = walkSum (close ps)/2 := by
  match ps with
  | [] => simp [area,close,walkSum,Scalar.zero_rat]
  | [p] => simp [area,close,walkSum,Scalar.zero_rat]
  | [p,q] => simp [area,close,walkSum,Scalar.zero_rat,cross_swap p q]
  | p::q::r::ps =>
    rw [area,crossSum_eq,Scalar.zero_rat,zero_add,Scalar.ofNat_rat]
    rfl

section Laws

theorem area_append_comm (ps qs : List (Point ℚ)) : area (ps ++ qs) = area (qs ++ ps) := by
  match ps,qs with
  | [],qs => simp
  | ps,[] => simp
  | p::ps,q::qs =>
    have h : ∀ (p q : Point ℚ) (ps qs : List (Point ℚ)), walkSum (close (p::ps ++ q::qs)) =
        walkSum (p::ps ++ [q])+walkSum (q::qs ++ [p]) := by
      intro p q ps qs
      have hc : close (p::ps ++ q::qs) = p::ps ++ q::(qs ++ [p]) := by simp [close]
      rw [hc,walkSum_append]
      rfl
    rw [area_eq,area_eq,h,h,add_comm]

theorem area_rotate (ps : List (Point ℚ)) (n : ℕ) : area (ps.rotate n) = area ps := by
  rw [List.rotate_eq_drop_append_take_mod,area_append_comm,List.take_append_drop]

theorem area_close (ps : List (Point ℚ)) : area (close ps) = area ps := by
  cases ps with
  | nil => rfl
  | cons p ps =>
    have h : close (close (p::ps)) = p::ps ++ p::[p] := by simp [close]
    rw [area_eq,area_eq,h,walkSum_append]
    simp [walkSum,close]

theorem area_reverse (ps : List (Point ℚ)) : area ps.reverse = -area ps := by
  cases ps with
  | nil => rfl
  | cons p ps =>
    have h : close ([p] ++ ps.reverse) = (close (p::ps)).reverse := by simp [close]
    rw [List.reverse_cons,area_append_comm,area_eq,area_eq,h,walkSum_reverse,neg_div]

/-- Both axes stretched, and the origin moved. -/
def stretch (a b : ℚ) (v p : Point ℚ) : Point ℚ := ⟨v.x+a*p.x,v.y+b*p.y⟩

/-- What a stretched walk gains over the walk depends on its ends alone. -/
theorem walkSum_stretch (a b : ℚ) (v p q : Point ℚ) (ps : List (Point ℚ)) :
    walkSum ((p::ps ++ [q]).map (stretch a b v)) =
      a*b*walkSum (p::ps ++ [q])+(a*v.y*(p.x-q.x)+b*v.x*(q.y-p.y)) := by
  induction ps generalizing p with
  | nil =>
    simp only [List.cons_append,List.nil_append,List.map_cons,List.map_nil,walkSum,cross,stretch]
    ring
  | cons r ps ih =>
    have h := ih r
    simp only [List.cons_append,List.map_cons,walkSum] at h ⊢
    rw [h]
    simp only [cross,stretch]
    ring

theorem area_stretch (a b : ℚ) (v : Point ℚ) (ps : List (Point ℚ)) :
    area (ps.map (stretch a b v)) = a*b*area ps := by
  cases ps with
  | nil => simp [area,Scalar.zero_rat]
  | cons p ps =>
    have h : close ((p::ps).map (stretch a b v)) = (p::ps ++ [p]).map (stretch a b v) := by
      simp [close]
    rw [area_eq,area_eq,h,walkSum_stretch,sub_self,sub_self]
    simp only [close,List.take_succ_cons,List.take_zero]
    ring

theorem area_add (v : Point ℚ) (ps : List (Point ℚ)) : area (ps.map v.add) = area ps := by
  have h : v.add = stretch 1 1 v := by
    funext p
    simp [Point.add,stretch]
  rw [h,area_stretch,one_mul,one_mul]

theorem area_applyAll (t : Transform ℚ) (ps : List (Point ℚ)) :
    area (t.applyAll ps) = -t.scale^2*area ps := by
  have h : t.apply = stretch t.scale (-t.scale) ⟨-t.centerX*t.scale,t.centerY*t.scale⟩ := by
    funext p
    simp only [Transform.apply,stretch,Point.mk.injEq]
    constructor <;> ring
  rw [Transform.applyAll,h,area_stretch]
  ring

end Laws

/-- One ring drawn in another way or at another place. -/
inductive Redrawn : List (Point ℚ) → List (Point ℚ) → Prop
  | rotated (ps : List (Point ℚ)) (n : ℕ) : Redrawn ps (ps.rotate n)
  | closed (ps : List (Point ℚ)) : Redrawn ps (close ps)
  | moved (ps : List (Point ℚ)) (v : Point ℚ) : Redrawn ps (ps.map v.add)
  | reversed (ps : List (Point ℚ)) : Redrawn ps ps.reverse

theorem Redrawn.abs_area (h : Redrawn ps qs) : |area ps| = |area qs| := by
  cases h with
  | rotated n => rw [area_rotate]
  | closed => rw [area_close]
  | moved v => rw [area_add]
  | reversed => rw [area_reverse,abs_neg]

/-- Whether one ring is another one, redrawn any number of times. -/
def Alike : List (Point ℚ) → List (Point ℚ) → Prop := Relation.ReflTransGen Redrawn

theorem Alike.abs_area (h : Alike ps qs) : |area ps| = |area qs| := by
  induction h with
  | refl => rfl
  | tail _ h ih => rw [ih,h.abs_area]

end Ring

namespace Region

/-- Whether two regions have alike rings, hole by hole. -/
structure Alike (r s : Region ℚ) : Prop where
  outer : Ring.Alike r.outer s.outer
  holes : List.Forall₂ Ring.Alike r.holes s.holes

def applyAll (t : Transform ℚ) (r : Region ℚ) : Region ℚ :=
  ⟨t.applyAll r.outer,r.holes.map t.applyAll⟩

theorem absolute_rat (x : ℚ) : absolute x = |x| := by
  unfold absolute
  split_ifs with h
  · rw [abs_of_neg ((Scalar.lt_rat _ _).mp h)]
  · rw [abs_of_nonneg (not_lt.mp fun hl => h ((Scalar.lt_rat _ _).mpr hl))]

theorem lessHoles_alike {hs gs : List (List (Point ℚ))} (h : List.Forall₂ Ring.Alike hs gs)
    (s : ℚ) : lessHoles s hs = lessHoles s gs := by
  unfold lessHoles
  induction h generalizing s with
  | nil => rfl
  | cons h _ ih =>
    rw [List.foldl_cons,List.foldl_cons,absolute_rat,absolute_rat,h.abs_area]
    exact ih _

theorem area_alike {rs ss : List (Region ℚ)} (h : List.Forall₂ Alike rs ss) :
    area rs = area ss := by
  unfold area
  generalize (Scalar.zero : ℚ) = z
  induction h generalizing z with
  | nil => rfl
  | cons h _ ih =>
    rw [List.foldl_cons,List.foldl_cons,absolute_rat,absolute_rat,h.outer.abs_area,
      lessHoles_alike h.holes]
    exact ih _

theorem abs_area_applyAll (t : Transform ℚ) (ps : List (Point ℚ)) :
    |Ring.area (t.applyAll ps)| = t.scale^2*|Ring.area ps| := by
  rw [Ring.area_applyAll,abs_mul,abs_neg,abs_of_nonneg (sq_nonneg _)]

theorem lessHoles_applyAll (t : Transform ℚ) (s : ℚ) (hs : List (List (Point ℚ))) :
    lessHoles (t.scale^2*s) (hs.map t.applyAll) = t.scale^2*lessHoles s hs := by
  rw [lessHoles,List.foldl_map]
  refine List.foldl_hom (t.scale^2*·) fun s h => ?_
  rw [absolute_rat,absolute_rat,abs_area_applyAll,← mul_sub]

theorem area_applyAll (t : Transform ℚ) (rs : List (Region ℚ)) :
    area (rs.map (applyAll t)) = t.scale^2*area rs := by
  have hz : (Scalar.zero : ℚ) = t.scale^2*Scalar.zero := by rw [Scalar.zero_rat,mul_zero]
  rw [area,List.foldl_map,hz]
  refine List.foldl_hom (t.scale^2*·) fun s r => ?_
  rw [applyAll,absolute_rat,absolute_rat,abs_area_applyAll,← mul_add,lessHoles_applyAll]

/-- The area of a ring does not depend on where the ring begins or lies, nor on whether it is
closed; it changes its sign with the direction and is multiplied by the square of a scale, with its
sign turned as fitting turns `y`. So no ring of some regions changes their area by being redrawn,
and fitting multiplies it by the square of the scale. -/
theorem area_laws :
    (∀ ps : List (Point ℚ),
      (∀ n, Ring.area (ps.rotate n) = Ring.area ps) ∧
      Ring.area (ps ++ ps.take 1) = Ring.area ps ∧
      (∀ v : Point ℚ, Ring.area (ps.map v.add) = Ring.area ps) ∧
      Ring.area ps.reverse = -Ring.area ps ∧
      ∀ t : Transform ℚ, Ring.area (t.applyAll ps) = -t.scale^2*Ring.area ps) ∧
    (∀ rs ss : List (Region ℚ), List.Forall₂ Alike rs ss → area rs = area ss) ∧
    ∀ (t : Transform ℚ) (rs : List (Region ℚ)), area (rs.map (applyAll t)) = t.scale^2*area rs := by
  refine ⟨fun ps => ?_,fun rs ss => area_alike,area_applyAll⟩
  exact ⟨Ring.area_rotate ps,Ring.area_close ps,fun v => Ring.area_add v ps,Ring.area_reverse ps,
    fun t => Ring.area_applyAll t ps⟩

/-- A square with a hole, drawn from another corner and with the hole backwards and closed. -/
theorem area_laws_redrawn :
    let r : Region ℚ := ⟨[⟨0,0⟩,⟨4,0⟩,⟨4,4⟩,⟨0,4⟩],[[⟨1,1⟩,⟨2,1⟩,⟨2,2⟩]]⟩
    let s : Region ℚ := ⟨[⟨4,0⟩,⟨4,4⟩,⟨0,4⟩,⟨0,0⟩],[[⟨2,2⟩,⟨2,1⟩,⟨1,1⟩,⟨2,2⟩]]⟩
    List.Forall₂ Alike [r] [s] ∧ area [r] = area [s] ∧ area [s] = 31/2 := by
  intro r s
  have ho : Ring.Alike r.outer s.outer := .single (.rotated _ 1)
  have hh : Ring.Alike [⟨1,1⟩,⟨2,1⟩,⟨2,2⟩] [⟨2,2⟩,⟨2,1⟩,⟨1,1⟩,⟨2,2⟩] :=
    .tail (.single (.reversed _)) (.closed _)
  have ha : List.Forall₂ Alike [r] [s] := .cons ⟨ho,.cons hh .nil⟩ .nil
  exact ⟨ha,area_laws.2.1 _ _ ha,by decide +kernel⟩

end Region
end ExtrusionProfile
