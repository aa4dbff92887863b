import ExtrusionProfile.Proofs.Plane.Bounds
import ExtrusionProfile.Proofs.Nesting.StableSort
import ExtrusionProfile.Proofs.Nesting.Levels
import Mathlib.Data.Set.Basic

/-! Outlines that lie as their boxes do. Placing goes by box area, so a box that holds
another one comes first; where solids are nested and apart just as the boxes are, the solids
around a place are those whose boxes hold the latest one of them. -/
namespace ExtrusionProfile

namespace Nesting

theorem larger_iff {c d : Candidate Float} : larger c d ↔ d.area < c.area := by
  simp [larger,Scalar.lt]

theorem larger_strictWeak :
    Sorting.StrictWeak larger fun c : Candidate Float => c.area.isNaN = false where
  asymm _ _ h := by
    rw [larger_iff] at h ⊢
    exact Binary64.not_lt_of_lt h
  between _ hy _ h := by
    simp only [larger_iff] at h ⊢
    exact (Binary64.lt_or_lt_of_lt h hy).symm

/-- Every box area is a number, and a box has a larger area than any other one that it holds
and does not fit into. -/
structure Graded (subpaths : List (List (Point Float))) : Prop where
  number : ∀ ps ∈ subpaths, ∀ b ∈ Bounds.around? ps, b.area.isNaN = false
  larger : ∀ ps ∈ subpaths, ∀ qs ∈ subpaths, ∀ b ∈ Bounds.around? ps,
    ∀ c ∈ Bounds.around? qs, b.contains c → ¬c.contains b → c.area < b.area

instance (subpaths : List (List (Point Float))) : Decidable (Graded subpaths) :=
  decidable_of_iff
    ((∀ ps ∈ subpaths, ∀ b ∈ Bounds.around? ps, b.area.isNaN = false) ∧
      ∀ ps ∈ subpaths, ∀ qs ∈ subpaths, ∀ b ∈ Bounds.around? ps,
        ∀ c ∈ Bounds.around? qs, b.contains c → ¬c.contains b → c.area < b.area)
    ⟨fun h => ⟨h.1,h.2⟩,fun h => ⟨h.number,h.larger⟩⟩

/-- Two outlines lie as their boxes do: a box that holds the other belongs to a solid that
does, and when neither box holds the other the solids have nothing in common. -/
def LieAsBoxes {X : Type} (solid : List (Point Float) → Set X) (ps qs : List (Point Float)) :
    Prop :=
  ∀ b ∈ Bounds.around? ps, ∀ c ∈ Bounds.around? qs,
    (b.contains c → solid qs ⊆ solid ps) ∧ (c.contains b → solid ps ⊆ solid qs) ∧
      (¬b.contains c → ¬c.contains b → solid ps ∩ solid qs = ∅)

theorem LieAsBoxes.symm {X : Type} {solid : List (Point Float) → Set X}
    {ps qs : List (Point Float)} (h : LieAsBoxes solid ps qs) : LieAsBoxes solid qs ps := by
  intro b hb c hc
  obtain ⟨hi,ho,hd⟩ := h c hc b hb
  exact ⟨ho,hi,fun h h' => (Set.inter_comm _ _).trans (hd h' h)⟩

noncomputable def covers {X : Type} (solid : List (Point Float) → Set X) (x : X)
    (ps : List (Point Float)) : Bool :=
  @decide (x ∈ solid ps) (Classical.propDecidable _)

@[simp] theorem covers_iff {X : Type} {solid : List (Point Float) → Set X} {x : X}
    {ps : List (Point Float)} : covers solid x ps ↔ x ∈ solid ps := by simp [covers]

theorem mem_ordered {subpaths : List (List (Point Float))} {c : Candidate Float} :
    c ∈ ordered subpaths ↔ c ∈ candidatesFrom 0 subpaths :=
  (Sorting.sort_perm larger _).mem_iff

theorem Graded.ordered_pairwise {subpaths : List (List (Point Float))} (h : Graded subpaths) :
    (ordered subpaths).Pairwise fun c d => ¬c.area < d.area := by
  have hn : ∀ c ∈ candidatesFrom 0 subpaths, c.area.isNaN = false := fun c hc =>
    h.number c.points (mem_of_mem_candidatesFrom hc) c.bounds (around?_of_mem_candidatesFrom hc)
  have hs := larger_strictWeak.sort_inOrder hn (List.pairwise_of_forall (fun _ _ => trivial))
  refine hs.imp_of_mem fun {c d} hc hd ho => ?_
  rw [← larger_iff]
  exact larger_strictWeak.not_of_inOrder (hn c (mem_ordered.mp hc)) (hn d (mem_ordered.mp hd)) ho

theorem ordered_lieAsBoxes {X : Type} {solid : List (Point Float) → Set X}
    {subpaths : List (List (Point Float))} (h : subpaths.Pairwise (LieAsBoxes solid)) :
    (ordered subpaths).Pairwise fun c d => LieAsBoxes solid c.points d.points := by
  have hc : (candidatesFrom 0 subpaths).Pairwise
      fun c d => LieAsBoxes solid c.points d.points := by
    rw [← List.pairwise_map,candidatesFrom_points]
    exact h.filter _
  exact ((Sorting.sort_perm larger _).pairwise_iff fun h => h.symm).mpr hc

theorem Graded.encloses {X : Type} {solid : List (Point Float) → Set X}
    {subpaths : List (List (Point Float))} (hg : Graded subpaths)
    (hl : subpaths.Pairwise (LieAsBoxes solid)) (x : X) :
    (resolve subpaths).reverse.Pairwise (Encloses (covers solid x)) := by
  let R (c d : List (Point Float) × Bounds Float) : Prop :=
    covers solid x d.1 → c.2.contains d.2 = covers solid x c.1
  have hR : ((ordered subpaths).map fun c => (c.points,c.bounds)).Pairwise R := by
    rw [List.pairwise_map]
    refine (hg.ordered_pairwise.and (ordered_lieAsBoxes hl)).imp_of_mem ?_
    rintro c d hc hd ⟨ha,hs⟩ hx
    have hc := mem_ordered.mp hc
    have hd := mem_ordered.mp hd
    have hcb := around?_of_mem_candidatesFrom hc
    have hdb := around?_of_mem_candidatesFrom hd
    obtain ⟨hin,_,hout⟩ := hs _ hcb _ hdb
    rw [covers_iff] at hx
    by_cases hb : c.bounds.contains d.bounds
    · rw [hb,eq_comm,covers_iff]
      exact hin hb hx
    · have hb' : ¬d.bounds.contains c.bounds := fun h =>
        ha (hg.larger _ (mem_of_mem_candidatesFrom hd) _ (mem_of_mem_candidatesFrom hc)
          _ hdb _ hcb h hb)
      have hx' : ¬covers solid x c.points := fun h =>
        Set.eq_empty_iff_forall_notMem.mp (hout hb hb') x ⟨covers_iff.mp h,hx⟩
      rw [Bool.not_eq_true] at hb hx'
      rw [hb,hx']
  rw [← placeAll_map Prod.mk [] (ordered subpaths),List.pairwise_map] at hR
  exact List.pairwise_reverse.mpr hR

end Nesting
end ExtrusionProfile
