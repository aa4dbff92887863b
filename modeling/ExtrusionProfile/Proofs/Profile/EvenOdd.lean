import ExtrusionProfile.Profile.Compose
import ExtrusionProfile.Proofs.Nesting.Enclosure
import ExtrusionProfile.Proofs.Nesting.Regions
import Mathlib.Data.Set.Lattice

/-! Composition of solids that are sets of places. The last polygon around a place decides whether
the profile covers it, and in a nesting that lies as its boxes do, that is the even-odd rule: a place
is covered when an odd number of outlines lie around it. The regions of the fills, each less its
direct holes, cover the same places. -/
namespace ExtrusionProfile
namespace Profile

open Nesting

variable {α X : Type}

/-- Solids as sets of places. -/
def pointSets (solid : List (Point α) → α → Set X) : Extruder α (Set X) :=
  ⟨solid,(· ∪ ·),(· \ ·)⟩

theorem mem_add_iff (solid : List (Point α) → α → Set X) (depth : α) (acc : Option (Set X))
    (p : Polygon α) (x : X) :
    x ∈ (add (pointSets solid) depth acc p).getD ∅ ↔
      x ∈ solid p.points depth ∧ p.role = .fill ∨
        x ∉ solid p.points depth ∧ x ∈ acc.getD ∅ := by
  by_cases hx : x ∈ solid p.points depth <;> cases acc <;> cases hr : p.role <;>
    simp [add,pointSets,hr,hx]

/-- The last polygon around a place decides; a hole before the first fill cuts nothing. -/
theorem mem_foldl_add_iff (solid : List (Point Float) → Float → Set X) (depth : Float)
    (acc : Option (Set X)) (ps : List (Polygon Float)) (x : X) :
    x ∈ (ps.foldl (add (pointSets solid) depth) acc).getD ∅ ↔
      match ps.reverse.find? fun p => covers (solid · depth) x p.points with
      | some p => p.role = .fill
      | none => x ∈ acc.getD ∅ := by
  induction ps generalizing acc with
  | nil => rfl
  | cons p ps ih =>
    rw [List.foldl_cons,ih,List.reverse_cons,List.find?_append]
    cases ps.reverse.find? fun p => covers (solid · depth) x p.points with
    | some q => rfl
    | none =>
      rw [mem_add_iff]
      by_cases hx : x ∈ solid p.points depth
      · have hc : covers (solid · depth) x p.points := covers_iff.mpr hx
        simp [hc,hx]
      · have hc : ¬covers (solid · depth) x p.points := fun h => hx (covers_iff.mp h)
        simp [hc,hx]

theorem mem_compose_iff (solid : List (Point Float) → Float → Set X) (r : Request Float) (x : X) :
    x ∈ (compose (pointSets solid) r).getD ∅ ↔
      ∃ p, r.polygons.reverse.find? (fun p => covers (solid · r.depth) x p.points) = some p ∧
        p.role = .fill := by
  rw [compose,mem_foldl_add_iff]
  cases r.polygons.reverse.find? fun p => covers (solid · r.depth) x p.points <;> simp

theorem countP_resolve (cover : List (Point Float) → Bool) (subpaths : List (List (Point Float))) :
    (resolve subpaths).reverse.countP (fun p => cover p.points) =
      subpaths.countP fun ps => cover ps && !ps.isEmpty := by
  have h := (resolve_points_perm subpaths).countP_eq cover
  rw [List.countP_map,List.countP_filter] at h
  rw [(List.reverse_perm _).countP_eq]
  exact h

open Classical in
/-- The even-odd rule: the profile of a nesting covers the places that lie within an odd
number of its outlines. -/
theorem compose_resolve_eq_odd (solid : List (Point Float) → Float → Set X)
    (subpaths : List (List (Point Float))) (depth : Float) (style : Style)
    (hg : Graded subpaths) (hl : subpaths.Pairwise (LieAsBoxes (solid · depth))) :
    (compose (pointSets solid) ⟨resolve subpaths,depth,style⟩).getD ∅ =
      {x | Odd (subpaths.countP fun ps => ps ≠ [] ∧ x ∈ solid ps depth)} := by
  ext x
  have hc : ∀ ps, (covers (solid · depth) x ps && !ps.isEmpty) =
      decide (ps ≠ [] ∧ x ∈ solid ps depth) := by
    intro ps
    rw [Bool.eq_iff_iff,Bool.and_eq_true,covers_iff]
    simp [and_comm]
  rw [mem_compose_iff,(placed_resolve subpaths).find?_fill_iff (hg.encloses hl x),countP_resolve]
  simp only [hc,Set.mem_ofPred_eq]

/-- The places in the box of an outline, which a rectangle covers. -/
def boxSolid (ps : List (Point Float)) : Set (Point Float) :=
  {q | ∃ b ∈ Bounds.around? ps, b.contains (Bounds.single q)}

theorem boxSolid_subset {ps qs : List (Point Float)} {b c : Bounds Float}
    (hb : b ∈ Bounds.around? ps) (hc : c ∈ Bounds.around? qs) (h : b.contains c) :
    boxSolid qs ⊆ boxSolid ps := by
  rintro q ⟨d,hd,hq⟩
  obtain rfl : c = d := Option.mem_unique hc hd
  exact ⟨b,hb,Bounds.contains_trans h hq⟩

theorem boxSolid_inter {ps qs : List (Point Float)} {b c : Bounds Float}
    (hb : b ∈ Bounds.around? ps) (hc : c ∈ Bounds.around? qs) (h : b.maxX < c.minX) :
    boxSolid ps ∩ boxSolid qs = ∅ := by
  rw [Set.eq_empty_iff_forall_notMem]
  rintro q ⟨⟨d,hd,hq⟩,e,he,hq'⟩
  obtain rfl : b = d := Option.mem_unique hb hd
  obtain rfl : c = e := Option.mem_unique hc he
  rw [Bounds.contains_iff] at hq hq'
  exact Binary64.not_lt_of_le (Binary64.le_trans hq'.1 hq.2.2.1) h

theorem lieAsBoxes_boxSolid {ps qs : List (Point Float)}
    (h : ∀ b ∈ Bounds.around? ps, ∀ c ∈ Bounds.around? qs,
      b.contains c ∨ c.contains b ∨ b.maxX < c.minX ∨ c.maxX < b.minX) :
    LieAsBoxes boxSolid ps qs := by
  intro b hb c hc
  refine ⟨boxSolid_subset hb hc,boxSolid_subset hc hb,fun hn hn' => ?_⟩
  rcases ((h b hb c hc).resolve_left hn).resolve_left hn' with h | h
  · exact boxSolid_inter hb hc h
  · exact (Set.inter_comm _ _).trans (boxSolid_inter hc hb h)

/-- A frame with an island in its hole, the island twice, and a square beside the frame. -/
def frameWithIsland : List (List (Point Float)) :=
  [[⟨4,4⟩,⟨6,4⟩,⟨6,6⟩,⟨4,6⟩],[⟨0,0⟩,⟨10,0⟩,⟨10,10⟩,⟨0,10⟩],[],
    [⟨2,2⟩,⟨8,2⟩,⟨8,8⟩,⟨2,8⟩],[⟨20,0⟩,⟨23,0⟩,⟨23,3⟩,⟨20,3⟩],[⟨4,6⟩,⟨6,4⟩,⟨4,4⟩,⟨6,6⟩]]

theorem frameWithIsland_graded : Graded frameWithIsland := by decide +kernel

theorem frameWithIsland_lies : frameWithIsland.Pairwise (LieAsBoxes boxSolid) := by
  refine List.Pairwise.imp lieAsBoxes_boxSolid ?_
  decide +kernel

open Classical in
theorem compose_resolve_frameWithIsland :
    Graded frameWithIsland ∧ frameWithIsland.Pairwise (LieAsBoxes boxSolid) ∧
      (compose (pointSets fun ps _ => boxSolid ps) ⟨resolve frameWithIsland,2,"raised"⟩).getD ∅ =
        {x | Odd (frameWithIsland.countP fun ps => ps ≠ [] ∧ x ∈ boxSolid ps)} :=
  ⟨frameWithIsland_graded,frameWithIsland_lies,
    compose_resolve_eq_odd (fun ps _ => boxSolid ps) frameWithIsland 2 "raised"
      frameWithIsland_graded frameWithIsland_lies⟩

open Nesting

variable {X : Type}

/-- The places of a region: those of its outer ring without those of its holes. -/
def regionSet (solid : List (Point Float) → Set X) (r : Region Float) : Set X :=
  solid r.outer \ ⋃ h ∈ r.holes, solid h

theorem mem_regionSet_iff {solid : List (Point Float) → Set X} {r : Region Float} {x : X} :
    x ∈ regionSet solid r ↔ covers solid x r.outer ∧ r.holes.any (covers solid x) = false := by
  simp [regionSet,← covers_iff]

/-- The regions of a nesting that lies as its boxes do cover what its profile covers. -/
theorem iUnion_group_eq_compose (solid : List (Point Float) → Float → Set X)
    (subpaths : List (List (Point Float))) (depth : Float) (style : Style)
    (hg : Graded subpaths) (hl : subpaths.Pairwise (LieAsBoxes (solid · depth))) :
    ⋃ r ∈ Region.group (resolve subpaths), regionSet (solid · depth) r =
      (compose (pointSets solid) ⟨resolve subpaths,depth,style⟩).getD ∅ := by
  ext x
  have ht := Region.tracks_foldr (placed_resolve subpaths) (hg.encloses hl x)
  have hr := ht.exists_region_iff
  rw [mem_compose_iff]
  simp only [Set.mem_iUnion,mem_regionSet_iff,exists_prop,Region.mem_group_iff]
  simpa using hr

theorem iUnion_group_frameWithIsland :
    Graded frameWithIsland ∧ frameWithIsland.Pairwise (LieAsBoxes boxSolid) ∧
      ⋃ r ∈ Region.group (resolve frameWithIsland), regionSet boxSolid r =
        (compose (pointSets fun ps _ => boxSolid ps) ⟨resolve frameWithIsland,2,"raised"⟩).getD ∅ :=
  ⟨frameWithIsland_graded,frameWithIsland_lies,
    iUnion_group_eq_compose (fun ps _ => boxSolid ps) frameWithIsland 2 "raised"
      frameWithIsland_graded frameWithIsland_lies⟩

end Profile
end ExtrusionProfile
