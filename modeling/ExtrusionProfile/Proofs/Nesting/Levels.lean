import ExtrusionProfile.Nesting.Resolve
import Mathlib.Algebra.Ring.Parity
import Mathlib.Data.List.Basic

/-! Levels of a nesting. The polygons of a nesting are the subpaths that have a point, each
placed below the latest one before it whose box holds its own. Where boxes and outlines
agree, the level of an outline is the number of earlier ones around any place it covers. -/
namespace ExtrusionProfile
namespace Nesting

variable {α : Type} [Scalar α]

/-- The candidate that an outline at a place makes, if it has a point. -/
def candidateAt? (x : List (Point α) × ℕ) : Option (Candidate α) :=
  (Bounds.around? x.1).map (⟨x.1,·,x.2⟩)

theorem candidatesFrom_eq_filterMap (n : ℕ) (subpaths : List (List (Point α))) :
    candidatesFrom n subpaths = (subpaths.zipIdx n).filterMap candidateAt? := by
  induction subpaths generalizing n with
  | nil => rfl
  | cons ps r ih =>
    rw [candidatesFrom,ih,List.zipIdx_cons,List.filterMap_cons,candidateAt?]
    cases Bounds.around? ps <;> rfl

theorem candidatesFrom_sources (n : ℕ) (subpaths : List (List (Point α))) :
    (candidatesFrom n subpaths).map (fun c => (c.points,c.source)) =
      (subpaths.zipIdx n).filter fun x => !x.1.isEmpty := by
  induction subpaths generalizing n with
  | nil => rfl
  | cons ps r ih =>
    cases ps with
    | nil => exact ih (n+1)
    | cons p ps => simp [candidatesFrom,Bounds.around?,ih]

theorem candidatesFrom_points (n : ℕ) (subpaths : List (List (Point α))) :
    (candidatesFrom n subpaths).map Candidate.points = subpaths.filter fun ps => !ps.isEmpty := by
  have h := congrArg (List.map Prod.fst) (candidatesFrom_sources n subpaths)
  rw [List.map_map] at h
  conv_rhs => rw [← List.zipIdx_map_fst n subpaths,List.filter_map]
  exact h

theorem around?_of_mem_candidatesFrom {n : ℕ} {subpaths : List (List (Point α))}
    {c : Candidate α} (h : c ∈ candidatesFrom n subpaths) :
    Bounds.around? c.points = some c.bounds := by
  induction subpaths generalizing n with
  | nil => cases h
  | cons ps r ih =>
    simp only [candidatesFrom] at h
    split at h
    · rename_i b hb
      rcases List.mem_cons.mp h with rfl | h
      · exact hb
      · exact ih h
    · exact ih h

theorem mem_of_mem_candidatesFrom {n : ℕ} {subpaths : List (List (Point α))}
    {c : Candidate α} (h : c ∈ candidatesFrom n subpaths) : c.points ∈ subpaths := by
  have hm : c.points ∈ subpaths.filter fun ps => !ps.isEmpty := by
    rw [← candidatesFrom_points n subpaths]
    exact List.mem_map_of_mem h
  exact (List.mem_filter.mp hm).1

/-- Polygons, the last one first, each placed on those behind it. -/
def Placed : List (Polygon α) → Prop
  | [] => True
  | p::ps => p.level = levelBelow ps p.bounds ∧ p.role = Role.ofLevel p.level ∧ Placed ps

theorem placed_placeAll (latest : List (Polygon α)) (h : Placed latest)
    (cs : List (Candidate α)) : Placed ((placeAll latest cs).reverse ++ latest) := by
  induction cs generalizing latest with
  | nil => exact h
  | cons c cs ih =>
    have hc : Placed (place latest c::latest) := ⟨rfl,rfl,h⟩
    simpa [placeAll] using ih _ hc

theorem placed_resolve (subpaths : List (List (Point α))) : Placed (resolve subpaths).reverse := by
  simpa [resolve] using placed_placeAll [] trivial (ordered subpaths)

theorem Placed.role_eq {ps : List (Polygon α)} (h : Placed ps) {p : Polygon α} (hp : p ∈ ps) :
    p.role = Role.ofLevel p.level := by
  induction ps with
  | nil => cases hp
  | cons q ps ih =>
    rcases List.mem_cons.mp hp with rfl | hp
    · exact h.2.1
    · exact ih h.2.2 hp

def candidateOf (p : Polygon α) : Candidate α := ⟨p.points,p.bounds,p.source⟩

theorem placeAll_candidates (latest : List (Polygon α)) (cs : List (Candidate α)) :
    (placeAll latest cs).map candidateOf = cs := by
  induction cs generalizing latest with
  | nil => rfl
  | cons c cs ih => simp [placeAll,place,candidateOf,ih]

theorem placeAll_map {γ : Type} (f : List (Point α) → Bounds α → γ) (latest : List (Polygon α))
    (cs : List (Candidate α)) :
    (placeAll latest cs).map (fun p => f p.points p.bounds) =
      cs.map fun c => f c.points c.bounds := by
  conv_rhs => rw [← placeAll_candidates latest cs,List.map_map]
  rfl

section Changes

variable {f : Candidate α → Candidate α} {g : Polygon α → Polygon α}

theorem levelBelow_map {b b' : Bounds α} (hl : ∀ p, (g p).level = p.level)
    (hb : ∀ p, (g p).bounds.contains b' = p.bounds.contains b) (latest : List (Polygon α)) :
    levelBelow (latest.map g) b' = levelBelow latest b := by
  have hf : (·.bounds.contains b') ∘ g = (·.bounds.contains b : Polygon α → Bool) := funext hb
  simp only [levelBelow,List.find?_map,hf]
  cases latest.find? (·.bounds.contains b) with
  | none => rfl
  | some p => exact congrArg (·+1) (hl p)

theorem placeAll_comm (h : ∀ latest c, place (latest.map g) (f c) = g (place latest c))
    (latest : List (Polygon α)) (cs : List (Candidate α)) :
    placeAll (latest.map g) (cs.map f) = (placeAll latest cs).map g := by
  induction cs generalizing latest with
  | nil => rfl
  | cons c cs ih =>
    have ih := ih (place latest c::latest)
    rw [List.map_cons] at ih
    simp only [List.map_cons,placeAll,h,ih]

end Changes

theorem candidateOf_mem {subpaths : List (List (Point α))} {p : Polygon α}
    (h : p ∈ resolve subpaths) : candidateOf p ∈ candidatesFrom 0 subpaths := by
  have hm : candidateOf p ∈ ordered subpaths := by
    rw [← placeAll_candidates [] (ordered subpaths)]
    exact List.mem_map_of_mem h
  exact (Sorting.sort_perm larger _).mem_iff.mp hm

open List in
theorem resolve_sources_perm (subpaths : List (List (Point α))) :
    (resolve subpaths).map (fun p => (p.points,p.source)) ~
      subpaths.zipIdx.filter fun x => !x.1.isEmpty := by
  have h : (resolve subpaths).map (fun p => (p.points,p.source)) =
      (ordered subpaths).map fun c => (c.points,c.source) := by
    conv_rhs => rw [← placeAll_candidates [] (ordered subpaths),List.map_map]
    rfl
  rw [h,← candidatesFrom_sources]
  exact (Sorting.sort_perm larger _).map _

open List in
theorem resolve_points_perm (subpaths : List (List (Point α))) :
    (resolve subpaths).map Polygon.points ~ subpaths.filter fun ps => !ps.isEmpty := by
  have h := (resolve_sources_perm subpaths).map Prod.fst
  rw [List.map_map] at h
  conv_rhs => rw [← List.zipIdx_map_fst 0 subpaths,List.filter_map]
  exact h

/-- Of the outlines that `cover` a place, `q` is in the box of `p` if and only if `p` covers
it too. -/
def Encloses (cover : List (Point α) → Bool) (q p : Polygon α) : Prop :=
  cover q.points → p.bounds.contains q.bounds = cover p.points

theorem find?_contains {cover : List (Point α) → Bool} {p : Polygon α} {ps : List (Polygon α)}
    (h : ∀ q ∈ ps, Encloses cover p q) (hp : cover p.points) :
    ps.find? (·.bounds.contains p.bounds) = ps.find? fun q => cover q.points := by
  induction ps with
  | nil => rfl
  | cons q ps ih =>
    simp only [List.find?_cons,h q (by simp) hp]
    rw [ih fun r hr => h r (by simp [hr])]

theorem Placed.level_eq {cover : List (Point α) → Bool} {p : Polygon α} {ps : List (Polygon α)}
    (h : Placed (p::ps)) (he : ∀ q ∈ ps, Encloses cover p q) (hp : cover p.points) :
    p.level = ((ps.find? fun q => cover q.points).map fun q => q.level+1).getD 0 := by
  rw [h.1,levelBelow,find?_contains he hp]
  cases ps.find? fun q => cover q.points <;> rfl

/-- The latest outline around a place has as many outlines above it as its level says. The
induction is on the polygons already placed. -/
theorem Placed.countP_eq {cover : List (Point α) → Bool} {ps : List (Polygon α)}
    (h : Placed ps) (he : ps.Pairwise (Encloses cover)) :
    ps.countP (fun p => cover p.points) =
      ((ps.find? fun p => cover p.points).map fun p => p.level+1).getD 0 := by
  induction ps with
  | nil => rfl
  | cons p ps ih =>
    obtain ⟨hp,he⟩ := List.pairwise_cons.mp he
    have ih := ih h.2.2 he
    cases hc : cover p.points
    · simp [hc,ih]
    · have hl := h.level_eq hp hc
      rw [← ih] at hl
      simp [hc,hl]

theorem ofLevel_eq_fill_iff {n : ℕ} : Role.ofLevel n = .fill ↔ Even n := by
  rw [Role.ofLevel,Nat.even_iff]
  split <;> simp_all

theorem ofLevel_succ_eq_fill_iff {n : ℕ} : Role.ofLevel (n+1) = .fill ↔ Role.ofLevel n = .hole := by
  simp only [Role.ofLevel]
  split <;> split <;> simp <;> omega

theorem Placed.find?_fill_iff {cover : List (Point α) → Bool} {ps : List (Polygon α)}
    (h : Placed ps) (he : ps.Pairwise (Encloses cover)) :
    (∃ p, ps.find? (fun p => cover p.points) = some p ∧ p.role = .fill) ↔
      Odd (ps.countP fun p => cover p.points) := by
  rw [h.countP_eq he]
  cases hf : ps.find? fun p => cover p.points with
  | none => simp
  | some p =>
    rw [Option.map_some,Option.getD_some,Nat.odd_add_one,Nat.not_odd_iff_even,
      ← ofLevel_eq_fill_iff,← h.role_eq (List.mem_of_find?_eq_some hf)]
    simp

end Nesting
end ExtrusionProfile
