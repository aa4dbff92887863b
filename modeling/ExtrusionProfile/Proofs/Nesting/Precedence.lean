import ExtrusionProfile.Proofs.Nesting.Enclosure
import ExtrusionProfile.Proofs.Nesting.Grouping

/-! Order of a nesting. A box that holds another one has no lesser area, so its polygon is
placed first, unless the areas tie; then the order of the input decides, and an outline may
be placed before the one around it and miss it. -/
namespace ExtrusionProfile

instance : DecidablePred Point.IsFinite := fun _ => inferInstanceAs (Decidable (_ ∧ _))

namespace Nesting

open Region

section Placing

variable {α : Type} [Scalar α]

theorem le_source_of_mem {n : ℕ} {subpaths : List (List (Point α))} {c : Candidate α}
    (h : c ∈ candidatesFrom n subpaths) : n ≤ c.source := by
  induction subpaths generalizing n with
  | nil => cases h
  | cons ps r ih =>
    simp only [candidatesFrom] at h
    split at h
    · rcases List.mem_cons.mp h with rfl | h
      · exact Nat.le_refl n
      · exact Nat.le_of_succ_le (ih h)
    · exact Nat.le_of_succ_le (ih h)

theorem candidatesFrom_pairwise (n : ℕ) (subpaths : List (List (Point α))) :
    (candidatesFrom n subpaths).Pairwise fun c d => c.source < d.source := by
  induction subpaths generalizing n with
  | nil => exact .nil
  | cons ps r ih =>
    simp only [candidatesFrom]
    split
    · exact List.pairwise_cons.mpr ⟨fun c hc => Nat.lt_of_succ_le (le_source_of_mem hc),ih _⟩
    · exact ih _

theorem area_of_mem_placeAll {latest : List (Polygon α)} {cs : List (Candidate α)}
    {p : Polygon α} (h : p ∈ placeAll latest cs) : p.area = p.bounds.area := by
  induction cs generalizing latest with
  | nil => cases h
  | cons c cs ih =>
    rcases List.mem_cons.mp h with rfl | h
    · rfl
    · exact ih h

end Placing

variable {subpaths : List (List (Point Float))} {p q : Polygon Float}

theorem ordered_inOrder (hn : ∀ ps ∈ subpaths, ∀ b ∈ Bounds.around? ps, b.area.isNaN = false) :
    (ordered subpaths).Pairwise (Sorting.InOrder larger fun c d => c.source < d.source) :=
  larger_strictWeak.sort_inOrder (fun c hc =>
    hn c.points (mem_of_mem_candidatesFrom hc) c.bounds (around?_of_mem_candidatesFrom hc))
    (candidatesFrom_pairwise 0 subpaths)

theorem eq_of_inOrder {cs ds : List (Candidate Float)} (hp : cs.Perm ds)
    (hc : cs.Pairwise (Sorting.InOrder larger fun c d => c.source < d.source))
    (hd : ds.Pairwise (Sorting.InOrder larger fun c d => c.source < d.source)) : cs = ds := by
  refine hp.eq_of_pairwise (fun c d _ _ h h' => ?_) hc hd
  rw [Sorting.InOrder,larger_iff,larger_iff] at h h'
  rcases h with h | ⟨h,hl⟩
  · exact absurd h (h'.elim Binary64.not_lt_of_lt And.left)
  · rcases h' with h' | ⟨-,hl'⟩
    · exact absurd h' h
    · exact absurd hl (Nat.lt_asymm hl')

/-- Polygons are placed by decreasing area, those of one area in the order of the input. -/
theorem resolve_pairwise (hn : ∀ ps ∈ subpaths, ∀ b ∈ Bounds.around? ps, b.area.isNaN = false) :
    (resolve subpaths).Pairwise fun p q =>
      q.area < p.area ∨ ¬p.area < q.area ∧ p.source < q.source := by
  have hs := ordered_inOrder hn
  rw [← placeAll_candidates [] (ordered subpaths),List.pairwise_map] at hs
  refine hs.imp_of_mem fun {p q} hp hq h => ?_
  rw [Sorting.InOrder,larger_iff,larger_iff] at h
  rwa [area_of_mem_placeAll hp,area_of_mem_placeAll hq]

section Places

variable {β : Type} {R : β → β → Prop} {l : List β} {x y : β × ℕ}

theorem rel_of_mem_zipIdx (h : l.Pairwise R) (hx : x ∈ l.zipIdx) (hy : y ∈ l.zipIdx)
    (hl : x.2 < y.2) : R x.1 y.1 := by
  obtain ⟨hi,hx⟩ := List.getElem?_eq_some_iff.mp (List.mem_zipIdx_iff_getElem?.mp hx)
  obtain ⟨hj,hy⟩ := List.getElem?_eq_some_iff.mp (List.mem_zipIdx_iff_getElem?.mp hy)
  have hr := List.pairwise_iff_getElem.mp h x.2 y.2 hi hj hl
  rwa [hx,hy] at hr

theorem zipIdx_pairwise (l : List β) : l.zipIdx.Pairwise fun x y => x.2 < y.2 := by
  rw [← List.pairwise_map,List.zipIdx_map_snd]
  exact List.pairwise_lt_range'

theorem eq_of_mem_zipIdx (hx : x ∈ l.zipIdx) (hy : y ∈ l.zipIdx) (h : x.2 = y.2) : x = y := by
  rw [List.mem_zipIdx_iff_getElem?] at hx hy
  rw [h,hy] at hx
  exact Prod.ext (Option.some.inj hx).symm h

end Places

section Containers

variable {α : Type} [Scalar α] {ps : List (Polygon α)} {x y : Polygon α × ℕ}

theorem container?_eq_none_iff : container? ps x = none ↔
    ∀ y ∈ ps.zipIdx, y.2 < x.2 → ¬y.1.bounds.contains x.1.bounds := by
  simp only [container?,List.find?_eq_none,List.mem_reverse,mem_zipIdx_take,and_imp]

/-- The container is the latest one of those before a polygon that hold it. -/
theorem container?_eq_some_iff : container? ps x = some y ↔
    y ∈ ps.zipIdx ∧ y.2 < x.2 ∧ y.1.bounds.contains x.1.bounds ∧
      ∀ z ∈ ps.zipIdx, y.2 < z.2 → z.2 < x.2 → ¬z.1.bounds.contains x.1.bounds := by
  have latest {y : Polygon α × ℕ} (h : container? ps x = some y) :
      ∀ z ∈ ps.zipIdx, y.2 < z.2 → z.2 < x.2 → ¬z.1.bounds.contains x.1.bounds := by
    intro z hz hl hx
    obtain ⟨-,as,bs,he,ha⟩ := List.find?_eq_some_iff_append.mp h
    have hs := zipIdx_pairwise (ps.take x.2)
    have hm := List.mem_reverse.mpr (mem_zipIdx_take.mpr ⟨hz,hx⟩)
    rw [← List.pairwise_reverse,he] at hs
    rw [he] at hm
    rcases List.mem_append.mp hm with hm | hm
    · simpa using ha z hm
    · rcases List.mem_cons.mp hm with rfl | hm
      · exact absurd hl (Nat.lt_irrefl _)
      · have hb := (List.pairwise_cons.mp (List.pairwise_append.mp hs).2.1).1 z hm
        exact absurd hl (Nat.lt_asymm hb)
  constructor
  · intro h
    obtain ⟨hy,hl⟩ := mem_of_container? h
    exact ⟨hy,hl,contains_of_container? h,latest h⟩
  · rintro ⟨hy,hl,hc,hn⟩
    cases h : container? ps x with
    | none => exact absurd hc (container?_eq_none_iff.mp h y hy hl)
    | some z =>
      obtain ⟨hz,hzl⟩ := mem_of_container? h
      rcases lt_trichotomy y.2 z.2 with hyz | hyz | hyz
      · exact absurd (contains_of_container? h) (hn z hz hyz hzl)
      · rw [eq_of_mem_zipIdx hy hz hyz]
      · exact absurd hc (latest h y hy hyz hl)

theorem exists_container_of_contains (hx : x ∈ ps.zipIdx) (hl : x.2 < y.2)
    (h : x.1.bounds.contains y.1.bounds) : ∃ z, container? ps y = some z ∧ x.2 ≤ z.2 := by
  cases hc : container? ps y with
  | none => exact absurd h (container?_eq_none_iff.mp hc x hx hl)
  | some z =>
    have hz := (container?_eq_some_iff.mp hc).2.2.2
    exact ⟨z,rfl,not_lt.mp fun hzx => hz x hx hzx hl h⟩

end Containers

section Properly

variable (hf : ∀ ps ∈ subpaths, ∀ p ∈ ps, p.IsFinite)
  (hn : ∀ ps ∈ subpaths, ∀ b ∈ Bounds.around? ps, b.area.isNaN = false)

include hn in
theorem isNaN_area (hp : p ∈ resolve subpaths) : p.area.isNaN = false := by
  have hc := candidateOf_mem hp
  rw [area_of_mem_placeAll hp]
  exact hn _ (mem_of_mem_candidatesFrom hc) _ (around?_of_mem_candidatesFrom hc)

include hf in
theorem spans_of_mem (hp : p ∈ resolve subpaths) : p.bounds.Spans := by
  have hc := candidateOf_mem hp
  exact Bounds.spans_around (around?_of_mem_candidatesFrom hc) (hf _ (mem_of_mem_candidatesFrom hc))

include hf hn in
theorem area_le_of_contains (hp : p ∈ resolve subpaths) (hq : q ∈ resolve subpaths)
    (h : p.bounds.contains q.bounds) : q.area ≤ p.area := by
  have hpn := isNaN_area hn hp
  have hqn := isNaN_area hn hq
  rw [area_of_mem_placeAll hp] at hpn ⊢
  rw [area_of_mem_placeAll hq] at hqn ⊢
  exact Bounds.area_le (spans_of_mem hf hp) (spans_of_mem hf hq) h hpn hqn

include hf hn in
/-- A polygon is placed before one that lies properly within its box if and only if its area
is greater or, when the areas tie, it was earlier; its area is never less. Then the other one
lies right below the latest polygon before it that holds it, which has no greater area. -/
theorem precedes_iff :
    ∀ x ∈ (resolve subpaths).zipIdx, ∀ y ∈ (resolve subpaths).zipIdx,
      x.1.bounds.contains y.1.bounds → ¬y.1.bounds.contains x.1.bounds →
      y.1.area ≤ x.1.area ∧
        (x.2 < y.2 ↔ y.1.area < x.1.area ∨ x.1.source < y.1.source) ∧
        (x.2 < y.2 → ∃ z ∈ (resolve subpaths).zipIdx,
          container? (resolve subpaths) y = some z ∧ y.1.level = z.1.level+1 ∧
            z.1.area ≤ x.1.area) := by
  intro x hx y hy h h'
  have hxm := List.fst_mem_of_mem_zipIdx hx
  have hym := List.fst_mem_of_mem_zipIdx hy
  have hs := resolve_pairwise hn
  have hle := area_le_of_contains hf hn hxm hym h
  refine ⟨hle,⟨fun hl => ?_,fun ho => ?_⟩,fun hl => ?_⟩
  · exact (rel_of_mem_zipIdx hs hx hy hl).imp_right And.right
  · rcases lt_trichotomy x.2 y.2 with hl | hl | hl
    · exact hl
    · rw [eq_of_mem_zipIdx hx hy hl] at h h'
      exact absurd h h'
    · rcases rel_of_mem_zipIdx hs hy hx hl with hr | ⟨hr,hr'⟩
      · exact absurd hr (Binary64.not_lt_of_le hle)
      · rcases ho with ho | ho
        · exact absurd ho hr
        · exact absurd ho (Nat.lt_asymm hr')
  · obtain ⟨z,hc,hz⟩ := exists_container_of_contains hx hl h
    have hzm := (mem_of_container? hc).1
    refine ⟨z,hzm,hc,?_,?_⟩
    · rw [(level_eq_container? (placed_resolve subpaths) hy).1,hc]
      rfl
    · have hxn := isNaN_area hn hxm
      rcases hz.eq_or_lt with hz | hz
      · rw [eq_of_mem_zipIdx hx hzm hz] at hxn ⊢
        exact Binary64.le_self hxn
      · rcases rel_of_mem_zipIdx hs hx hzm hz with hr | ⟨hr,-⟩
        · exact Binary64.le_of_lt hr
        · exact Binary64.le_of_not_lt (isNaN_area hn (List.fst_mem_of_mem_zipIdx hzm)) hxn hr

/-- Two collinear outlines, the one around the other behind it, in a square. -/
def flatInSquare : List (List (Point Float)) :=
  [[⟨0,0⟩,⟨10,0⟩,⟨10,10⟩,⟨0,10⟩],[⟨2,5⟩,⟨3,5⟩,⟨4,5⟩],[⟨1,5⟩,⟨5,5⟩,⟨9,5⟩]]

theorem precedes_iff_flatInSquare :
    (∀ ps ∈ flatInSquare, ∀ p ∈ ps, p.IsFinite) ∧
      (∀ ps ∈ flatInSquare, ∀ b ∈ Bounds.around? ps, b.area.isNaN = false) ∧
      ∀ x ∈ (resolve flatInSquare).zipIdx, ∀ y ∈ (resolve flatInSquare).zipIdx,
        x.1.bounds.contains y.1.bounds → ¬y.1.bounds.contains x.1.bounds →
        y.1.area ≤ x.1.area ∧
          (x.2 < y.2 ↔ y.1.area < x.1.area ∨ x.1.source < y.1.source) ∧
          (x.2 < y.2 → ∃ z ∈ (resolve flatInSquare).zipIdx,
            container? (resolve flatInSquare) y = some z ∧ y.1.level = z.1.level+1 ∧
              z.1.area ≤ x.1.area) :=
  have hf : ∀ ps ∈ flatInSquare, ∀ p ∈ ps, p.IsFinite := by decide +kernel
  have hn : ∀ ps ∈ flatInSquare, ∀ b ∈ Bounds.around? ps, b.area.isNaN = false := by
    decide +kernel
  ⟨hf,hn,precedes_iff hf hn⟩

/-- Areas tie, so the inner one of two collinear outlines is placed first and at the top, though
the box of the other holds its own properly. -/
theorem exists_level_zero_of_flat :
    let flat : List (List (Point Float)) := [[⟨2,0⟩,⟨3,0⟩,⟨4,0⟩],[⟨0,0⟩,⟨5,0⟩,⟨10,0⟩]]
    (∀ ps ∈ flat, ∀ p ∈ ps, p.IsFinite) ∧
      ∃ x ∈ (resolve flat).zipIdx, ∃ y ∈ (resolve flat).zipIdx,
        x.1.bounds.contains y.1.bounds ∧ ¬y.1.bounds.contains x.1.bounds ∧
          y.2 < x.2 ∧ y.1.level = 0 := by
  decide +kernel

end Properly

end Nesting
end ExtrusionProfile
