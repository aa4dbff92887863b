import ExtrusionProfile.Proofs.Nesting.Parts
import ExtrusionProfile.Proofs.Profile.Completeness
import Mathlib.Data.List.FinRange

/-! Outlines in another order. Where no two box areas are equal, the order of placing does not
look at the order of the input, so outlines in another order are nested, composed and grouped as
before; only the places that the polygons come from are others. -/
namespace ExtrusionProfile

section Places

variable {β : Type} (xs : List β) (σ : Equiv.Perm (Fin xs.length))

/-- Some members in another order: at place `i` stands the one from place `σ i`. -/
def rearranged : List β := List.ofFn fun i => xs[σ i]

/-- The place that the member at a place comes from. -/
def placeBefore {n : ℕ} (σ : Equiv.Perm (Fin n)) (i : ℕ) : ℕ := if h : i < n then σ ⟨i,h⟩ else i

theorem rearranged_perm : (rearranged xs σ).Perm xs :=
  (σ.ofFn_comp_perm fun i : Fin xs.length => xs[i]).trans (.of_eq List.ofFn_getElem)

theorem zipIdx_eq_ofFn : xs.zipIdx = List.ofFn fun i : Fin xs.length => (xs[i],(i : ℕ)) :=
  List.ext_getElem (by simp) (by simp)

theorem zipIdx_rearranged_perm :
    ((rearranged xs σ).zipIdx.map (Prod.map id (placeBefore σ))).Perm xs.zipIdx := by
  have h : (rearranged xs σ).zipIdx.map (Prod.map id (placeBefore σ)) =
      List.ofFn ((fun i : Fin xs.length => (xs[i],(i : ℕ))) ∘ σ) := by
    refine List.ext_getElem (by simp [rearranged]) fun i hi hi' => ?_
    have hn : i < xs.length := by simpa using hi'
    simp [rearranged,placeBefore,hn]
  rw [h,zipIdx_eq_ofFn]
  exact σ.ofFn_comp_perm _

end Places

namespace Nesting

section Candidates

variable {α : Type} [Scalar α]

theorem candidateAt?_moved (f : ℕ → ℕ) (x : List (Point α) × ℕ) :
    (candidateAt? x).map (Candidate.moved f) = candidateAt? (Prod.map id f x) := by
  rw [candidateAt?,candidateAt?,Option.map_map]
  rfl

theorem candidatesFrom_rearranged_perm (subpaths : List (List (Point α)))
    (σ : Equiv.Perm (Fin subpaths.length)) :
    ((candidatesFrom 0 (rearranged subpaths σ)).map (Candidate.moved (placeBefore σ))).Perm
      (candidatesFrom 0 subpaths) := by
  have h := (zipIdx_rearranged_perm subpaths σ).filterMap candidateAt?
  rw [List.filterMap_map,← candidatesFrom_eq_filterMap] at h
  rw [candidatesFrom_eq_filterMap,List.map_filterMap]
  simpa only [candidateAt?_moved,Function.comp_def] using h

end Candidates

section Ordering

variable {subpaths : List (List (Point Float))}

/-- The areas of the boxes around two outlines, where both have a point, are not equal. -/
def AreasDiffer (ps qs : List (Point Float)) : Prop :=
  ∀ b ∈ Bounds.around? ps, ∀ c ∈ Bounds.around? qs, ¬b.area == c.area

instance : DecidableRel AreasDiffer := fun ps qs =>
  inferInstanceAs (Decidable
    (∀ b ∈ Bounds.around? ps, ∀ c ∈ Bounds.around? qs, ¬b.area == c.area))

theorem AreasDiffer.symm {ps qs : List (Point Float)} (h : AreasDiffer ps qs) :
    AreasDiffer qs ps := fun b hb c hc he => h c hc b hb (Binary64.beq_symm he)

theorem ordered_areasDiffer (hd : subpaths.Pairwise AreasDiffer) :
    (ordered subpaths).Pairwise fun c d => AreasDiffer c.points d.points := by
  have hc : (candidatesFrom 0 subpaths).Pairwise fun c d => AreasDiffer c.points d.points := by
    rw [← List.pairwise_map,candidatesFrom_points]
    exact hd.filter _
  exact ((Sorting.sort_perm larger _).pairwise_iff fun h => h.symm).mpr hc

theorem ordered_larger (hn : ∀ ps ∈ subpaths, ∀ b ∈ Bounds.around? ps, b.area.isNaN = false)
    (hd : subpaths.Pairwise AreasDiffer) : (ordered subpaths).Pairwise (larger · ·) := by
  refine ((ordered_inOrder hn).and (ordered_areasDiffer hd)).imp_of_mem ?_
  rintro c d hc hd ⟨h | ⟨h,-⟩,hne⟩
  · exact h
  · have hc := mem_ordered.mp hc
    have hd := mem_ordered.mp hd
    have hcb := around?_of_mem_candidatesFrom hc
    have hdb := around?_of_mem_candidatesFrom hd
    rw [larger_iff] at h ⊢
    have hle := Binary64.le_of_not_lt (hn _ (mem_of_mem_candidatesFrom hd) _ hdb)
      (hn _ (mem_of_mem_candidatesFrom hc) _ hcb) h
    exact (Binary64.lt_or_beq_of_le hle).resolve_right fun he => hne _ hcb _ hdb
      (Binary64.beq_symm he)

theorem ordered_rearranged
    (hn : ∀ ps ∈ subpaths, ∀ b ∈ Bounds.around? ps, b.area.isNaN = false)
    (hd : subpaths.Pairwise AreasDiffer) (σ : Equiv.Perm (Fin subpaths.length)) :
    (ordered (rearranged subpaths σ)).map (Candidate.moved (placeBefore σ)) =
      ordered subpaths := by
  have hp := rearranged_perm subpaths σ
  have hl : (ordered (rearranged subpaths σ)).Pairwise (larger · ·) :=
    ordered_larger (fun ps h => hn ps (hp.mem_iff.mp h))
      ((hp.pairwise_iff fun h => AreasDiffer.symm h).mpr hd)
  have hm : ((ordered (rearranged subpaths σ)).map (Candidate.moved (placeBefore σ))).Perm
      (ordered subpaths) :=
    ((Sorting.sort_perm larger _).map _).trans
      ((candidatesFrom_rearranged_perm subpaths σ).trans (Sorting.sort_perm larger _).symm)
  refine eq_of_inOrder hm ?_ (ordered_inOrder hn)
  rw [List.pairwise_map]
  exact hl.imp .inl

theorem resolve_rearranged
    (hn : ∀ ps ∈ subpaths, ∀ b ∈ Bounds.around? ps, b.area.isNaN = false)
    (hd : subpaths.Pairwise AreasDiffer) (σ : Equiv.Perm (Fin subpaths.length)) :
    (resolve (rearranged subpaths σ)).map (moved (placeBefore σ)) = resolve subpaths := by
  rw [resolve,resolve,← ordered_rearranged hn hd σ]
  exact (placeAll_moved (placeBefore σ) [] _).symm

end Ordering

end Nesting

section Moved

open Nesting

variable {α σ : Type}

theorem Profile.compose_moved (e : Extruder α σ) (f : ℕ → ℕ) (ps : List (Polygon α)) (depth : α)
    (style : Style) :
    compose e ⟨ps.map (moved f),depth,style⟩ = compose e ⟨ps,depth,style⟩ :=
  List.foldl_map

theorem Region.group_moved [Scalar α] (f : ℕ → ℕ) (ps : List (Polygon α)) :
    group (ps.map (moved f)) = group ps := by
  have hf : (ps.map (moved f)).foldl see [] = ps.foldl see [] := List.foldl_map
  rw [group,group,hf]

end Moved

namespace Profile

open Nesting

/-- Where all box areas are numbers and no two of them are equal, outlines in any other order are
nested the same: polygon by polygon only the places that they come from are the other ones. So
every extruder makes the same solid of them with the same calls, and they have the same regions. -/
theorem rearranged_agrees {subpaths : List (List (Point Float))}
    (hn : ∀ ps ∈ subpaths, ∀ b ∈ Bounds.around? ps, b.area.isNaN = false)
    (hd : subpaths.Pairwise AreasDiffer) (σ : Equiv.Perm (Fin subpaths.length)) :
    let ps := resolve subpaths
    let qs := resolve (rearranged subpaths σ)
    qs.map (moved (placeBefore σ)) = ps ∧
      (∀ {τ : Type} (e : Extruder Float τ) (depth : Float) (style : Style),
        compose e ⟨qs,depth,style⟩ = compose e ⟨ps,depth,style⟩ ∧
          compose e.recorded ⟨qs,depth,style⟩ = compose e.recorded ⟨ps,depth,style⟩) ∧
      Region.group qs = Region.group ps := by
  intro ps qs
  have hq : qs.map (moved (placeBefore σ)) = ps := resolve_rearranged hn hd σ
  refine ⟨hq,fun e depth style => ⟨?_,?_⟩,?_⟩
  · rw [← hq,compose_moved]
  · rw [← hq,compose_moved]
  · rw [← hq,Region.group_moved]

/-- An island, an outline without points, the frame and the hole around the island, and a square
beside them. -/
def islandFirst : List (List (Point Float)) :=
  [[⟨4,4⟩,⟨6,4⟩,⟨6,6⟩,⟨4,6⟩],[],[⟨0,0⟩,⟨10,0⟩,⟨10,10⟩,⟨0,10⟩],[⟨2,2⟩,⟨8,2⟩,⟨8,8⟩,⟨2,8⟩],
    [⟨20,0⟩,⟨23,0⟩,⟨23,3⟩,⟨20,3⟩]]

theorem rearranged_agrees_backwards :
    (∀ ps ∈ islandFirst, ∀ b ∈ Bounds.around? ps, b.area.isNaN = false) ∧
      islandFirst.Pairwise AreasDiffer ∧
      (resolve islandFirst).map (fun p => (p.source,p.level)) = [(2,0),(3,1),(4,0),(0,2)] ∧
      (resolve (rearranged islandFirst Fin.revPerm)).map (fun p => (p.source,p.level)) =
        [(2,0),(1,1),(0,0),(4,2)] ∧
      (resolve (rearranged islandFirst Fin.revPerm)).map (moved (placeBefore (@Fin.revPerm 5))) =
        resolve islandFirst ∧
      compose Construction.extruder ⟨resolve (rearranged islandFirst Fin.revPerm),2,"raised"⟩ =
        compose Construction.extruder ⟨resolve islandFirst,2,"raised"⟩ ∧
      Region.group (resolve (rearranged islandFirst Fin.revPerm)) =
        Region.group (resolve islandFirst) := by
  have hn : ∀ ps ∈ islandFirst, ∀ b ∈ Bounds.around? ps, b.area.isNaN = false := by
    decide +kernel
  have hd : islandFirst.Pairwise AreasDiffer := by decide +kernel
  obtain ⟨hm,hc,hg⟩ := rearranged_agrees hn hd Fin.revPerm
  exact ⟨hn,hd,by decide +kernel,by decide +kernel,hm,(hc Construction.extruder 2 "raised").1,hg⟩

end Profile
end ExtrusionProfile
