import ExtrusionProfile.Fit.Rings
import Mathlib.Data.List.Destutter

/-! Points of a cleaned ring. No point is near the one before it. The last one can be near the first
only where a closing point stood behind it: dropping that one is not repeated. Thinning cuts a list
of points into clusters, each a kept point with those behind it that are near it, and nothing else
does so with every kept point apart from the one before. All of it is about distances as they are
computed, whatever they are. -/
namespace ExtrusionProfile
namespace Clean

variable {α : Type} [Scalar α] [Root α] {epsilon : α} {ps qs : List (Point α)}

/-- Whether the second of two points is kept behind the first. -/
def Apart (epsilon : α) (p q : Point α) : Prop := near epsilon p q = false

instance : DecidableRel (Apart epsilon) := fun _ _ => inferInstanceAs (Decidable (_ = false))

def closes (epsilon : α) : List (Point α) → Bool
  | p::q::ps => near epsilon p (ps.getLastD q)
  | _ => false

theorem cons_thinAfter (p : Point α) (ps : List (Point α)) :
    p::thinAfter epsilon p ps = ps.destutter' (Apart epsilon) p := by
  induction ps generalizing p with
  | nil => rfl
  | cons q ps ih =>
    rw [thinAfter,List.destutter'_cons]
    by_cases h : Apart epsilon p q
    · rw [if_neg (Bool.eq_false_iff.mp h),if_pos h,ih]
    · rw [if_pos (Bool.not_eq_false _ ▸ h),if_neg h,ih]

theorem thin_eq_destutter (ps : List (Point α)) :
    thin epsilon ps = ps.destutter (Apart epsilon) := by
  cases ps with
  | nil => rfl
  | cons p ps => exact cons_thinAfter p ps

theorem thin_isChain (epsilon : α) (ps : List (Point α)) :
    (thin epsilon ps).IsChain (Apart epsilon) := by
  rw [thin_eq_destutter]
  exact List.isChain_destutter _ ps

theorem thin_sublist (epsilon : α) (ps : List (Point α)) : (thin epsilon ps).Sublist ps := by
  rw [thin_eq_destutter]
  exact List.destutter_sublist _ ps

theorem head?_thin (epsilon : α) (ps : List (Point α)) : (thin epsilon ps).head? = ps.head? := by
  cases ps <;> rfl

theorem thin_of_isChain (h : ps.IsChain (Apart epsilon)) : thin epsilon ps = ps := by
  rw [thin_eq_destutter]
  exact List.destutter_of_isChain _ ps h

theorem unclose_eq (ps : List (Point α)) :
    unclose epsilon ps = if closes epsilon ps then ps.dropLast else ps := by
  match ps with
  | [] => rfl
  | [p] => rfl
  | p::q::ps => rfl

theorem ring?_eq_some_iff : ring? epsilon ps = some qs ↔
    unclose epsilon (thin epsilon ps) = qs ∧ fewest ≤ qs.length := by
  rw [ring?,Option.ite_none_right_eq_some,Option.some_inj]
  constructor
  · rintro ⟨hl,rfl⟩
    exact ⟨rfl,hl⟩
  · rintro ⟨rfl,hl⟩
    exact ⟨hl,rfl⟩

theorem thin_eq_of_ring? (h : ring? epsilon ps = some qs) :
    thin epsilon ps = qs ∧ closes epsilon qs = false ∨
      ∃ z, thin epsilon ps = qs ++ [z] ∧ closes epsilon (qs ++ [z]) := by
  obtain ⟨hu,hl⟩ := ring?_eq_some_iff.mp h
  rw [unclose_eq] at hu
  split at hu
  · rename_i hc
    have hn : thin epsilon ps ≠ [] := by
      rintro hn
      rw [hn] at hc
      cases hc
    have ht : thin epsilon ps = qs ++ [(thin epsilon ps).getLast hn] := by
      rw [← hu,List.dropLast_append_getLast]
    rw [ht] at hc
    exact .inr ⟨_,ht,hc⟩
  · rename_i hc
    exact .inl ⟨hu,hu ▸ Bool.eq_false_iff.mpr hc⟩

/-- In a ring no point is near the one before it, and the last one is near the first only if
thinning left a closing point behind it. Cleaning keeps a ring whose last point is not near
the first, and it drops that point of any other ring. -/
theorem ring?_apart (h : ring? epsilon ps = some qs) :
    qs.IsChain (Apart epsilon) ∧
      (closes epsilon qs → ∃ z, thin epsilon ps = qs ++ [z] ∧ closes epsilon (qs ++ [z])) ∧
      ring? epsilon qs =
        if closes epsilon qs then
          if fewest < qs.length then some qs.dropLast else none
        else some qs := by
  have hs := thin_eq_of_ring? h
  have hq : qs.IsChain (Apart epsilon) := by
    have ht := thin_isChain epsilon ps
    rcases hs with ⟨he,-⟩ | ⟨z,he,-⟩
    · rwa [he] at ht
    · rw [he] at ht
      exact ht.left_of_append
  have hl := (ring?_eq_some_iff.mp h).2
  refine ⟨hq,fun hc => ?_,?_⟩
  · exact hs.resolve_left fun hn => Bool.false_ne_true (hn.2.symm.trans hc)
  · simp only [ring?,thin_of_isChain hq,unclose_eq]
    split
    · rename_i hc
      have hd : fewest ≤ qs.dropLast.length ↔ fewest < qs.length := by
        rw [List.length_dropLast,fewest]
        omega
      simp only [hd]
    · rfl

/-- A ring whose last two points are both near the first, but not near each other. -/
def twiceClosed : List (Point Float) := [⟨0,0⟩,⟨10,0⟩,⟨10,10⟩,⟨-0.75,0⟩,⟨0.5,0⟩]

theorem ring?_apart_twiceClosed :
    ring? 1 twiceClosed = some twiceClosed.dropLast ∧
      twiceClosed.dropLast.IsChain (Apart 1) ∧
        (closes 1 twiceClosed.dropLast →
          ∃ z, thin 1 twiceClosed = twiceClosed.dropLast ++ [z] ∧
            closes 1 (twiceClosed.dropLast ++ [z])) ∧
        ring? 1 twiceClosed.dropLast =
          if closes 1 twiceClosed.dropLast then
            if fewest < twiceClosed.dropLast.length then some twiceClosed.dropLast.dropLast
            else none
          else some twiceClosed.dropLast :=
  have h : ring? 1 twiceClosed = some twiceClosed.dropLast := by decide +kernel
  ⟨h,ring?_apart h⟩

/-- One of the two points stays, so that cleaning the ring again changes it. -/
theorem ring?_twiceClosed_closes :
    (∀ p ∈ twiceClosed, p.x.isFinite ∧ p.y.isFinite) ∧ (0 : Float) < 1 ∧
      ring? 1 twiceClosed = some twiceClosed.dropLast ∧ closes 1 twiceClosed.dropLast ∧
        ring? 1 twiceClosed.dropLast ≠ some twiceClosed.dropLast := by
  decide +kernel

variable {p : Point α}

/-- A kept point and the points that are dropped behind it. -/
structure Cluster (epsilon : α) where
  kept : Point α
  dropped : List (Point α)
  dropped_near : ∀ q ∈ dropped, near epsilon kept q = true

def Cluster.points (c : Cluster epsilon) : List (Point α) := c.kept::c.dropped

theorem exists_clusters_cons (epsilon : α) (p : Point α) (ps : List (Point α)) :
    ∃ (c : Cluster epsilon) (cs : List (Cluster epsilon)), c.kept = p ∧
      c.dropped ++ cs.flatMap Cluster.points = ps ∧
        cs.map Cluster.kept = thinAfter epsilon p ps := by
  induction ps generalizing p with
  | nil => exact ⟨⟨p,[],by simp⟩,[],rfl,rfl,rfl⟩
  | cons q ps ih =>
    rw [thinAfter]
    split
    · rename_i hq
      obtain ⟨c,cs,rfl,hp,hk⟩ := ih p
      refine ⟨⟨c.kept,q::c.dropped,List.forall_mem_cons.mpr ⟨hq,c.dropped_near⟩⟩,cs,rfl,?_,hk⟩
      rw [List.cons_append,hp]
    · obtain ⟨c,cs,rfl,hp,hk⟩ := ih q
      refine ⟨⟨p,[],by simp⟩,c::cs,rfl,?_,by rw [List.map_cons,hk]⟩
      rw [List.nil_append,List.flatMap_cons,Cluster.points,List.cons_append,hp]

theorem exists_clusters (epsilon : α) (ps : List (Point α)) : ∃ cs : List (Cluster epsilon),
    cs.flatMap Cluster.points = ps ∧ cs.map Cluster.kept = thin epsilon ps := by
  cases ps with
  | nil => exact ⟨[],rfl,rfl⟩
  | cons p ps =>
    obtain ⟨c,cs,rfl,hp,hk⟩ := exists_clusters_cons epsilon p ps
    exact ⟨c::cs,congrArg (c.kept::·) hp,congrArg (c.kept::·) hk⟩

theorem thinAfter_append (h : ∀ q ∈ qs, near epsilon p q = true) (ps : List (Point α)) :
    thinAfter epsilon p (qs ++ ps) = thinAfter epsilon p ps := by
  induction qs with
  | nil => rfl
  | cons q qs ih =>
    obtain ⟨hq,hqs⟩ := List.forall_mem_cons.mp h
    rw [List.cons_append,thinAfter,if_pos hq,ih hqs]

theorem thinAfter_clusters {cs : List (Cluster epsilon)}
    (h : (p::cs.map Cluster.kept).IsChain (Apart epsilon)) :
    thinAfter epsilon p (cs.flatMap Cluster.points) = cs.map Cluster.kept := by
  induction cs generalizing p with
  | nil => rfl
  | cons c cs ih =>
    obtain ⟨hc,hcs⟩ := List.isChain_cons_cons.mp h
    rw [List.flatMap_cons,Cluster.points,List.cons_append,thinAfter,if_neg (Bool.eq_false_iff.mp hc),
      thinAfter_append c.dropped_near,ih hcs,List.map_cons]

theorem thin_clusters {cs : List (Cluster epsilon)}
    (h : (cs.map Cluster.kept).IsChain (Apart epsilon)) :
    thin epsilon (cs.flatMap Cluster.points) = cs.map Cluster.kept := by
  cases cs with
  | nil => rfl
  | cons c cs =>
    rw [List.flatMap_cons,Cluster.points,List.cons_append,thin,thinAfter_append c.dropped_near,
      thinAfter_clusters h,List.map_cons]

/-- What thinning leaves is determined by the clusters: their kept points are apart. -/
theorem thin_eq_iff : thin epsilon ps = qs ↔ qs.IsChain (Apart epsilon) ∧
    ∃ cs : List (Cluster epsilon), cs.flatMap Cluster.points = ps ∧ cs.map Cluster.kept = qs := by
  constructor
  · rintro rfl
    exact ⟨thin_isChain epsilon ps,exists_clusters epsilon ps⟩
  · rintro ⟨hq,cs,rfl,rfl⟩
    exact thin_clusters hq

/-- Thinning leaves points in their order, the first one among them. Behind every kept point it drops
those that are near it, up to the next one that is not, and this alone determines what is left.
Thinning that again changes nothing. -/
theorem thin_greedy (epsilon : α) (ps : List (Point α)) :
    (thin epsilon ps).Sublist ps ∧ (thin epsilon ps).head? = ps.head? ∧
      (∀ qs, thin epsilon ps = qs ↔ qs.IsChain (Apart epsilon) ∧
        ∃ cs : List (Cluster epsilon),
          cs.flatMap Cluster.points = ps ∧ cs.map Cluster.kept = qs) ∧
      thin epsilon (thin epsilon ps) = thin epsilon ps :=
  ⟨thin_sublist epsilon ps,head?_thin epsilon ps,fun _ => thin_eq_iff,
    thin_of_isChain (thin_isChain epsilon ps)⟩

/-- A point is compared with the last one kept, not with the one before it. -/
example : thin 1 [⟨0,0⟩,⟨0.75,0⟩,⟨1.5,0⟩] = ([⟨0,0⟩,⟨1.5,0⟩] : List (Point Float)) := by
  decide +kernel

end Clean
end ExtrusionProfile
