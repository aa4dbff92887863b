import ExtrusionProfile.Nesting.Resolve
import ExtrusionProfile.Proofs.Nesting.Levels

/-! Regions of a nesting, place by place. A region keeps only the holes directly beneath its
fill, so a fill that is not the latest outline around a place has a hole around that place,
and the latest one has none. -/
namespace ExtrusionProfile
namespace Region

open Nesting

variable {α : Type} {cover : List (Point α) → Bool}

/-- What is known of a place while polygons are taken in. Both lists begin with the last
polygon, and `later` says whether one beyond them lies around the place: a fill around the
place has a hole around it if and only if a later polygon lies around it. -/
inductive Tracks (cover : List (Point α) → Bool) : Bool → List (Polygon α) → List (Seen α) → Prop
  | nil (later : Bool) : Tracks cover later [] []
  | hole {later : Bool} {p : Polygon α} {ps : List (Polygon α)} {ss : List (Seen α)}
      (hr : p.role = .hole) (h : Tracks cover (later || cover p.points) ps ss) :
      Tracks cover later (p::ps) (⟨p.bounds,none⟩::ss)
  | fill {later : Bool} {p : Polygon α} {ps : List (Polygon α)} {ss : List (Seen α)}
      {holes : List (List (Point α))} (hr : p.role = .fill)
      (hh : cover p.points → holes.any cover = later)
      (h : Tracks cover (later || cover p.points) ps ss) :
      Tracks cover later (p::ps) (⟨p.bounds,some ⟨p.points,holes⟩⟩::ss)

theorem Tracks.raise {ps : List (Polygon α)} {ss : List (Seen α)} (h : Tracks cover false ps ss)
    (hf : ∀ p, ps.find? (fun p => cover p.points) = some p → p.role = .hole) :
    Tracks cover true ps ss := by
  induction ps generalizing ss with
  | nil =>
    cases h
    exact .nil true
  | cons p ps ih =>
    simp only [List.find?_cons] at hf
    cases hc : cover p.points
    · simp only [hc] at hf
      cases h with
      | hole hr h => exact .hole hr (by simpa [hc] using ih (by simpa [hc] using h) hf)
      | fill hr hh h =>
        exact .fill hr (by simp [hc]) (by simpa [hc] using ih (by simpa [hc] using h) hf)
    · simp only [hc] at hf
      cases h with
      | hole hr h => exact .hole hr (by simpa [hc] using h)
      | fill hr hh h => simp [hr] at hf

/-- A region covers a place, less its holes, just when its fill is the latest polygon
around it. -/
theorem Tracks.exists_region_iff {later : Bool} {ps : List (Polygon α)} {ss : List (Seen α)}
    (h : Tracks cover later ps ss) :
    (∃ r ∈ ss.filterMap Seen.region, cover r.outer ∧ r.holes.any cover = false) ↔
      later = false ∧ ∃ p, ps.find? (fun p => cover p.points) = some p ∧ p.role = .fill := by
  induction h with
  | nil later => simp
  | @hole later p ps ss hr h ih =>
    rw [List.filterMap_cons_none rfl,ih,List.find?_cons]
    cases cover p.points <;> simp [hr]
  | @fill later p ps ss holes hr hh h ih =>
    simp only [List.filterMap_cons,List.exists_mem_cons_iff,ih,List.find?_cons]
    cases hc : cover p.points
    · simp
    · simp [hr,hh hc]

section Taking

variable [Scalar α]

theorem Tracks.addHole_away {later : Bool} {ps : List (Polygon α)} {ss : List (Seen α)}
    (h : Tracks cover later ps ss) (b : Bounds α) {qs : List (Point α)} (hq : cover qs = false) :
    Tracks cover later ps (addHole b qs ss) := by
  induction h with
  | nil later => exact .nil later
  | hole hr h ih =>
    rw [addHole]
    split
    · exact .hole hr h
    · exact .hole hr ih
  | fill hr hh h ih =>
    rw [addHole]
    split
    · exact .fill hr (fun hp => by simp [hq,hh hp]) h
    · exact .fill hr hh ih

theorem Tracks.addHole_around {ps : List (Polygon α)} {ss : List (Seen α)} {b : Bounds α}
    {qs : List (Point α)} (h : Tracks cover false ps ss) (hq : cover qs)
    (hb : ∀ p ∈ ps, p.bounds.contains b = cover p.points) :
    Tracks cover true ps (addHole b qs ss) := by
  induction ps generalizing ss with
  | nil =>
    cases h
    exact .nil true
  | cons p ps ih =>
    have hp := hb p (by simp)
    cases h with
    | hole hr h =>
      rw [addHole]
      cases hc : cover p.points <;> rw [hc] at hp h <;> simp only [hp]
      · exact .hole hr (by simpa [hc] using ih h fun q hq => hb q (by simp [hq]))
      · exact .hole hr (by simpa [hc] using h)
    | fill hr hh h =>
      rw [addHole]
      cases hc : cover p.points <;> rw [hc] at hp h <;> simp only [hp]
      · exact .fill hr (by simp [hc]) (by simpa [hc] using ih h fun q hq => hb q (by simp [hq]))
      · exact .fill hr (by simp [hq]) (by simpa [hc] using h)

theorem tracks_foldr {ps : List (Polygon α)} (h : Placed ps) (he : ps.Pairwise (Encloses cover)) :
    Tracks cover false ps (ps.foldr (fun p ss => see ss p) []) := by
  induction ps with
  | nil => exact .nil false
  | cons p ps ih =>
    obtain ⟨hp,he⟩ := List.pairwise_cons.mp he
    have ih := ih h.2.2 he
    rw [List.foldr_cons,see]
    cases hr : p.role with
    | fill =>
      refine .fill hr (fun _ => rfl) ?_
      cases hc : cover p.points
      · simpa using ih
      · refine ih.raise fun q hq => ?_
        have hl := h.level_eq hp hc
        rw [hq,Option.map_some,Option.getD_some] at hl
        rw [h.2.1,hl,ofLevel_succ_eq_fill_iff] at hr
        rw [h.2.2.role_eq (List.mem_of_find?_eq_some hq),hr]
    | hole =>
      refine .hole hr ?_
      cases hc : cover p.points
      · exact ih.addHole_away _ hc
      · exact ih.addHole_around hc fun q hq => hp q hq hc

theorem mem_group_iff {ps : List (Polygon α)} {r : Region α} :
    r ∈ group ps ↔ r ∈ (ps.reverse.foldr (fun p ss => see ss p) []).filterMap Seen.region := by
  rw [group,List.foldr_reverse,List.filterMap_reverse,List.mem_reverse]

end Taking

end Region
end ExtrusionProfile
