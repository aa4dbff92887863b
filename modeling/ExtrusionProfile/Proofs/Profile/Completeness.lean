import ExtrusionProfile.Profile.Compose
import ExtrusionProfile.Proofs.Nesting.Grouping

/-! Requests that compose completely. The first polygon of a nesting has nothing before it, so
it is a fill, and from then on there is a solid: no hole of a request is ever passed over. -/
namespace ExtrusionProfile
namespace Profile

open Nesting Region

variable {α σ : Type}

/-- What an extruder can be called for. -/
inductive Call (α : Type)
  | extrude (points : List (Point α)) (depth : α)
  | union
  | subtract

/-- An extruder that keeps, with every solid, the calls which that solid took. -/
def Extruder.recorded (e : Extruder α σ) : Extruder α (σ × List (Call α)) where
  extrude ps depth := (e.extrude ps depth,[.extrude ps depth])
  union a b := (e.union a.1 b.1,a.2 ++ b.2 ++ [.union])
  subtract a b := (e.subtract a.1 b.1,a.2 ++ b.2 ++ [.subtract])

def attach (e : Extruder α σ) (depth : α) (s : σ) (p : Polygon α) : σ :=
  match p.role with
  | .fill => e.union s (e.extrude p.points depth)
  | .hole => e.subtract s (e.extrude p.points depth)

/-- The calls that a polygon takes once there is a solid. -/
def attachCalls (depth : α) (p : Polygon α) : List (Call α) :=
  [.extrude p.points depth,match p.role with | .fill => .union | .hole => .subtract]

section Composing

variable (e : Extruder α σ) (depth : α)

theorem add_some (s : σ) (p : Polygon α) :
    add e depth (some s) p = some (attach e depth s p) := by
  cases hr : p.role <;> simp [add,attach,hr]

theorem foldl_add_some (ps : List (Polygon α)) (s : σ) :
    ps.foldl (add e depth) (some s) = some (ps.foldl (attach e depth) s) := by
  induction ps generalizing s with
  | nil => rfl
  | cons p ps ih => rw [List.foldl_cons,add_some,ih,List.foldl_cons]

theorem attach_recorded (s : σ × List (Call α)) (p : Polygon α) :
    attach e.recorded depth s p = (attach e depth s.1 p,s.2 ++ attachCalls depth p) := by
  cases hr : p.role <;> simp [attach,attachCalls,Extruder.recorded,hr]

theorem foldl_attach_recorded (ps : List (Polygon α)) (s : σ × List (Call α)) :
    ps.foldl (attach e.recorded depth) s =
      (ps.foldl (attach e depth) s.1,s.2 ++ ps.flatMap (attachCalls depth)) := by
  induction ps generalizing s with
  | nil => simp
  | cons p ps ih => simp [attach_recorded,ih]

/-- Behind a fill in front, every polygon is attached to the solid of those before it. -/
theorem compose_eq_some {r : Request α} {p : Polygon α} {ps : List (Polygon α)}
    (h : r.polygons = p::ps) (hr : p.role = .fill) :
    compose e r = some (ps.foldl (attach e r.depth) (e.extrude p.points r.depth)) := by
  have hp : add e r.depth none p = some (e.extrude p.points r.depth) := by simp [add,hr]
  rw [compose,h,List.foldl_cons,hp,foldl_add_some]

end Composing

variable [Scalar α]

/-- What is promised of the request of some rings. -/
structure Request.Complete (rings : List (List (Point α))) (r : Request α) : Prop where
  /-- Every polygon has enough points, and the box around them. -/
  shaped : ∀ p ∈ r.polygons, 3 ≤ p.points.length ∧ Bounds.around? p.points = some p.bounds
  /-- The polygons are the rings, each once and with its place among them. -/
  rings_perm : (r.polygons.map fun p => (p.points,p.source)).Perm rings.zipIdx
  /-- Roles alternate with the levels. -/
  role_iff : ∀ p ∈ r.polygons, p.role = .fill ↔ Even p.level
  /-- A polygon below the top lies in the box of an earlier one, one level above it. -/
  parent : ∀ x ∈ r.polygons.zipIdx, ∀ n, x.1.level = n+1 →
    ∃ y ∈ r.polygons.zipIdx, y.2 < x.2 ∧ y.1.level = n ∧ y.1.bounds.contains x.1.bounds
  /-- The first polygon is a fill, and every other one is attached to the solid so far: it is
  extruded once, and then there is one union for a fill and one subtraction for a hole. -/
  composed : ∃ p ps, r.polygons = p::ps ∧ p.level = 0 ∧ p.role = .fill ∧
    ∀ {σ : Type} (e : Extruder α σ),
      let solid := ps.foldl (attach e r.depth) (e.extrude p.points r.depth)
      compose e r = some solid ∧
        compose e.recorded r =
          some (solid,.extrude p.points r.depth::ps.flatMap (attachCalls r.depth))

section Nested

variable {rings : List (List (Point α))}

open List in
theorem resolve_perm_zipIdx (h : ∀ ps ∈ rings, 3 ≤ ps.length) :
    (resolve rings).map (fun p => (p.points,p.source)) ~ rings.zipIdx := by
  refine (resolve_sources_perm rings).trans (.of_eq ?_)
  refine filter_eq_self.mpr fun x hx => ?_
  have hl := h x.1 (fst_mem_of_mem_zipIdx hx)
  have hn : x.1 ≠ [] := ne_nil_of_length_pos (by omega)
  simpa using hn

theorem resolve_eq_nil_iff (h : ∀ ps ∈ rings, 3 ≤ ps.length) :
    resolve rings = [] ↔ rings = [] := by
  have hl := (resolve_perm_zipIdx h).length_eq
  rw [List.length_map,List.length_zipIdx] at hl
  rw [← List.length_eq_zero_iff,← List.length_eq_zero_iff,hl]

theorem role_eq_fill_iff {p : Polygon α} (h : p ∈ resolve rings) :
    p.role = .fill ↔ Even p.level := by
  rw [(placed_resolve rings).role_eq (List.mem_reverse.mpr h),ofLevel_eq_fill_iff]

theorem level_of_resolve_cons {p : Polygon α} {ps : List (Polygon α)} (h : resolve rings = p::ps) :
    p.level = 0 := by
  have hp := placed_resolve rings
  rw [h,List.reverse_cons] at hp
  exact (placed_of_append hp).1

theorem exists_parent {x : Polygon α × ℕ} (hx : x ∈ (resolve rings).zipIdx) {n : ℕ}
    (hn : x.1.level = n+1) :
    ∃ y ∈ (resolve rings).zipIdx,
      y.2 < x.2 ∧ y.1.level = n ∧ y.1.bounds.contains x.1.bounds := by
  have hl := (level_eq_container? (placed_resolve rings) hx).1
  cases hc : container? (resolve rings) x with
  | none =>
    rw [hn,hc] at hl
    cases hl
  | some y =>
    obtain ⟨hy,hlt⟩ := mem_of_container? hc
    rw [hn,hc,Option.map_some,Option.getD_some,Nat.add_right_cancel_iff] at hl
    exact ⟨y,hy,hlt,hl.symm,contains_of_container? hc⟩

/-- A nesting of rings makes a complete request, unless it is empty. -/
theorem complete_resolve {r : Request α} (hr : r.polygons = resolve rings)
    (hne : r.polygons ≠ []) (hl : ∀ ps ∈ rings, 3 ≤ ps.length) : r.Complete rings := by
  obtain ⟨p,ps,he⟩ := List.exists_cons_of_ne_nil hne
  have hlevel : p.level = 0 := level_of_resolve_cons (hr.symm.trans he)
  have hrole : p.role = .fill := by
    have hp : p ∈ resolve rings := by simp [← hr,he]
    rw [role_eq_fill_iff hp,hlevel]
    exact Even.zero
  constructor
  case shaped =>
    intro q hq
    have hc := candidateOf_mem (hr ▸ hq)
    exact ⟨hl _ (mem_of_mem_candidatesFrom hc),around?_of_mem_candidatesFrom hc⟩
  case rings_perm => exact hr ▸ resolve_perm_zipIdx hl
  case role_iff => exact fun q hq => role_eq_fill_iff (hr ▸ hq)
  case parent =>
    rw [hr]
    exact fun x hx n => exists_parent hx
  case composed =>
    refine ⟨p,ps,he,hlevel,hrole,fun e => ⟨compose_eq_some e he hrole,?_⟩⟩
    rw [compose_eq_some e.recorded he hrole,foldl_attach_recorded]
    rfl

end Nested

section Outlines

variable [Root α] {simplify : Simplifier α} {o : Options α} {outline : Outline α}

theorem ofOutlineBy?_eq_none_iff : ofOutlineBy? simplify o outline = none ↔
    resolve (outline.ringsBy simplify o.toFitOptions) = [] := by
  rw [ofOutlineBy?]
  split <;> simp_all

theorem eq_of_ofOutlineBy? {r : Request α} (h : ofOutlineBy? simplify o outline = some r) :
    r = ⟨resolve (outline.ringsBy simplify o.toFitOptions),o.depth,o.style⟩ := by
  rw [ofOutlineBy?] at h
  split at h
  · cases h
  · rename_i he
    rw [he]
    exact (Option.some.inj h).symm

theorem complete_of_ofOutlineBy? {r : Request α} (h : ofOutlineBy? simplify o outline = some r) :
    r.Complete (outline.ringsBy simplify o.toFitOptions) := by
  have hr := eq_of_ofOutlineBy? h
  refine complete_resolve (by rw [hr]) ?_ fun ps => Outline.fewest_le_of_mem_ringsBy
  intro he
  rw [hr] at he
  rw [ofOutlineBy?_eq_none_iff.mpr he] at h
  cases h

/-- A request is made if and only if a ring is left, and it composes completely, whatever way
the rings were simplified. -/
theorem ofOutlineBy?_complete (simplify : Simplifier α) (o : Options α) (outline : Outline α) :
    let rings := outline.ringsBy simplify o.toFitOptions
    (ofOutlineBy? simplify o outline = none ↔ rings = []) ∧
      ∀ r, ofOutlineBy? simplify o outline = some r →
        r.depth = o.depth ∧ r.style = o.style ∧ r.Complete rings := by
  intro rings
  have hl : ∀ ps ∈ rings, 3 ≤ ps.length := fun ps => Outline.fewest_le_of_mem_ringsBy
  refine ⟨ofOutlineBy?_eq_none_iff.trans (resolve_eq_nil_iff hl),fun r h => ?_⟩
  have hr := eq_of_ofOutlineBy? h
  exact ⟨by rw [hr],by rw [hr],complete_of_ofOutlineBy? h⟩

end Outlines

/-- A hole drawn before its frame, and a line between them that is no polygon. -/
def holeFirst : Outline Float :=
  ⟨[[⟨4,4⟩,⟨6,4⟩,⟨6,6⟩,⟨4,6⟩],[⟨0,0⟩,⟨9,9⟩],[⟨0,0⟩,⟨10,0⟩,⟨10,10⟩,⟨0,10⟩]],⟨0,0,10,10⟩⟩

theorem ofOutlineBy?_complete_holeFirst :
    ∃ r, ofOutlineBy? Simplify.line Options.default holeFirst = some r ∧
      r.polygons.map Polygon.source = [1,0] ∧
        r.Complete (holeFirst.ringsBy Simplify.line Options.default.toFitOptions) := by
  have h : (ofOutlineBy? Simplify.line Options.default holeFirst).map
      (fun r => r.polygons.map Polygon.source) = some [1,0] := by decide +kernel
  obtain ⟨r,hr,hs⟩ := Option.map_eq_some_iff.mp h
  exact ⟨r,hr,hs,((ofOutlineBy?_complete Simplify.line Options.default holeFirst).2 r hr).2.2⟩

end Profile
end ExtrusionProfile
