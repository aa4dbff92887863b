import ExtrusionProfile.Proofs.Profile.Completeness
import ExtrusionProfile.Proofs.Profile.EvenOdd

/-! Composition as painting. The polygons of a request are laid over each other in their order,
and the last one around a place decides whether the place is covered. Holes before the first fill
lie on nothing and are passed over; from the first fill on every polygon is extruded once and
attached to what the ones before it made. -/
namespace ExtrusionProfile
namespace Profile

open Nesting

section Calls

variable {α σ : Type}

theorem foldl_add_holes (e : Extruder α σ) (depth : α) {hs : List (Polygon α)}
    (h : ∀ q ∈ hs, q.role = .hole) : hs.foldl (add e depth) none = none := by
  induction hs with
  | nil => rfl
  | cons q hs ih =>
    obtain ⟨hq,hs⟩ := List.forall_mem_cons.mp h
    have hn : add e depth none q = none := by simp [add,hq]
    rw [List.foldl_cons,hn,ih hs]

theorem compose_holes (e : Extruder α σ) {r : Request α} (h : ∀ q ∈ r.polygons, q.role = .hole) :
    compose e r = none := foldl_add_holes e r.depth h

theorem compose_behind_holes (e : Extruder α σ) {r : Request α} {hs ps : List (Polygon α)}
    {p : Polygon α} (hr : r.polygons = hs ++ p::ps) (hh : ∀ q ∈ hs, q.role = .hole)
    (hp : p.role = .fill) :
    compose e r = some (ps.foldl (attach e r.depth) (e.extrude p.points r.depth)) := by
  have hc : compose e r = compose e { r with polygons := p::ps } := by
    rw [compose,compose,hr,List.foldl_append,foldl_add_holes e r.depth hh]
  rw [hc]
  exact compose_eq_some e rfl hp

theorem holes_or_exists_fill (ps : List (Polygon α)) :
    (∀ p ∈ ps, p.role = .hole) ∨
      ∃ hs p qs, ps = hs ++ p::qs ∧ (∀ q ∈ hs, q.role = .hole) ∧ p.role = .fill := by
  have hn (q : Polygon α) : ¬q.role = .fill ↔ q.role = .hole := by cases q.role <;> simp
  cases hf : ps.find? (·.role = .fill) with
  | none => exact .inl fun p hp => (hn p).mp (by simpa using List.find?_eq_none.mp hf p hp)
  | some p =>
    obtain ⟨hp,hs,qs,he,hh⟩ := List.find?_eq_some_iff_append.mp hf
    exact .inr ⟨hs,p,qs,he,fun q hq => (hn q).mp (by simpa using hh q hq),by simpa using hp⟩

end Calls

variable {X : Type}

/-- A place is covered when the last polygon around it is a fill. -/
theorem mem_compose_iff_last (solid : List (Point Float) → Float → Set X) (r : Request Float)
    (x : X) : x ∈ (compose (pointSets solid) r).getD ∅ ↔
      ∃ ps p qs, r.polygons = ps ++ p::qs ∧ p.role = .fill ∧ x ∈ solid p.points r.depth ∧
        ∀ q ∈ qs, x ∉ solid q.points r.depth := by
  have hc (p : Polygon Float) : (!covers (solid · r.depth) x p.points) = true ↔
      x ∉ solid p.points r.depth := by
    rw [Bool.not_eq_true',← Bool.not_eq_true,covers_iff]
  rw [mem_compose_iff]
  simp only [List.find?_eq_some_iff_append,covers_iff,hc]
  constructor
  · rintro ⟨p,⟨hx,qs,ps,he,hq⟩,hp⟩
    refine ⟨ps.reverse,p,qs.reverse,?_,hp,hx,fun q h => hq q (List.mem_reverse.mp h)⟩
    simpa using congrArg List.reverse he
  · rintro ⟨ps,p,qs,he,hp,hx,hq⟩
    refine ⟨p,⟨hx,qs.reverse,ps.reverse,?_,fun q h => hq q (List.mem_reverse.mp h)⟩,hp⟩
    simp [he]

/-- Composition is painting, whatever the polygons and their roles are. Of solids that are sets
of places, a place is covered when the last polygon around it is a fill. Whatever solids are,
there is none if and only if no polygon is a fill; otherwise the holes before the first fill take
no call, the first fill is extruded, and each later polygon is extruded in its turn and united
with the solid so far or subtracted from it. -/
theorem compose_painted (r : Request Float) :
    (∀ {X : Type} (solid : List (Point Float) → Float → Set X) (x : X),
      x ∈ (compose (pointSets solid) r).getD ∅ ↔
        ∃ ps p qs, r.polygons = ps ++ p::qs ∧ p.role = .fill ∧ x ∈ solid p.points r.depth ∧
          ∀ q ∈ qs, x ∉ solid q.points r.depth) ∧
    ∀ {σ : Type} (e : Extruder Float σ),
      (compose e r = none ↔ ∀ p ∈ r.polygons, p.role = .hole) ∧
      ((∀ p ∈ r.polygons, p.role = .hole) ∨
        ∃ hs p ps, r.polygons = hs ++ p::ps ∧ (∀ q ∈ hs, q.role = .hole) ∧ p.role = .fill ∧
          let solid := ps.foldl (attach e r.depth) (e.extrude p.points r.depth)
          compose e r = some solid ∧
            compose e.recorded r =
              some (solid,.extrude p.points r.depth::ps.flatMap (attachCalls r.depth))) := by
  refine ⟨fun solid x => mem_compose_iff_last solid r x,fun e => ?_⟩
  rcases holes_or_exists_fill r.polygons with hh | ⟨hs,p,ps,hr,hh,hp⟩
  · exact ⟨iff_of_true (compose_holes e hh) hh,.inl hh⟩
  · have hc := compose_behind_holes e hr hh hp
    have hl : compose e.recorded r =
        some (ps.foldl (attach e r.depth) (e.extrude p.points r.depth),
          .extrude p.points r.depth::ps.flatMap (attachCalls r.depth)) := by
      rw [compose_behind_holes e.recorded hr hh hp,foldl_attach_recorded]
      rfl
    refine ⟨iff_of_false (by simp [hc]) fun h => ?_,.inr ⟨hs,p,ps,hr,hh,hp,hc,hl⟩⟩
    have hph := h p (by simp [hr])
    rw [hp] at hph
    cases hph

end Profile
end ExtrusionProfile
