import ExtrusionProfile.Proofs.Number.Extremes
import ExtrusionProfile.Proofs.Plane.Bounds

/-! The box around some points is the least of all boxes that enclose them. It depends on nothing
but which points there are, and one coordinate that is no number keeps it out of every comparison. -/
namespace ExtrusionProfile

open Binary64

/-- A point with numbers for coordinates, which may be infinite. -/
def Point.IsNumber (p : Point Float) : Prop := p.x.isNaN = false ∧ p.y.isNaN = false

namespace Bounds

/-- Whether a point lies in a box, its sides included. -/
structure Encloses (b : Bounds Float) (p : Point Float) : Prop where
  left : b.minX ≤ p.x
  right : p.x ≤ b.maxX
  low : b.minY ≤ p.y
  high : p.y ≤ b.maxY

variable {b c : Bounds Float} {p : Point Float} {ps qs : List (Point Float)}

theorem foldl_extend (b : Bounds Float) (ps : List (Point Float)) :
    ps.foldl extend b = ⟨(ps.map Point.x).foldl least b.minX,(ps.map Point.y).foldl least b.minY,
      (ps.map Point.x).foldl greatest b.maxX,(ps.map Point.y).foldl greatest b.maxY⟩ := by
  induction ps generalizing b with
  | nil => rfl
  | cons p ps ih => exact ih (b.extend p)

theorem around?_cons (p : Point Float) (ps : List (Point Float)) :
    around? (p::ps) = some
      ⟨(ps.map Point.x).foldl least p.x,(ps.map Point.y).foldl least p.y,
        (ps.map Point.x).foldl greatest p.x,(ps.map Point.y).foldl greatest p.y⟩ :=
  congrArg some (foldl_extend (single p) ps)

theorem exists_around? (h : ps ≠ []) : ∃ b, around? ps = some b :=
  Option.ne_none_iff_exists'.mp (mt around?_eq_none_iff.mp h)

/-- A box contains the one around some points exactly when it encloses each of them. -/
theorem contains_around_iff (h : around? ps = some b) :
    c.contains b ↔ ∀ p ∈ ps, c.Encloses p := by
  cases ps with
  | nil => cases h
  | cons p ps =>
    rw [around?_cons] at h
    cases h
    rw [contains_iff]
    dsimp only
    rw [le_foldl_least_iff,le_foldl_least_iff,foldl_greatest_le_iff,foldl_greatest_le_iff,
      ← List.map_cons,← List.map_cons]
    simp only [List.forall_mem_map]
    exact ⟨fun ⟨hl,hd,hr,hu⟩ q hq => ⟨hl q hq,hr q hq,hd q hq,hu q hq⟩,fun he =>
      ⟨fun q hq => (he q hq).left,fun q hq => (he q hq).low,fun q hq => (he q hq).right,
        fun q hq => (he q hq).high⟩⟩

theorem exists_of_around? (h : around? ps = some b) :
    (∃ p ∈ ps, b.minX = p.x) ∧ (∃ p ∈ ps, b.minY = p.y) ∧
      (∃ p ∈ ps, b.maxX = p.x) ∧ ∃ p ∈ ps, b.maxY = p.y := by
  cases ps with
  | nil => cases h
  | cons p ps =>
    rw [around?_cons] at h
    cases h
    have hm {f : Point Float → Float} {v : Float} (hv : v ∈ f p::ps.map f) :
        ∃ q ∈ p::ps, v = f q := by
      obtain ⟨q,hq,he⟩ := List.mem_map.mp (List.map_cons ▸ hv)
      exact ⟨q,hq,he.symm⟩
    exact ⟨hm (picks_least.foldl_mem _ _),hm (picks_least.foldl_mem _ _),
      hm (picks_greatest.foldl_mem _ _),hm (picks_greatest.foldl_mem _ _)⟩

/-- The box is the same one around the same points in any order, repeated or not. -/
theorem around?_congr (h : ∀ p, p ∈ ps ↔ p ∈ qs) : around? ps = around? qs := by
  cases ps with
  | nil =>
    have hq : qs = [] := List.eq_nil_iff_forall_not_mem.mpr fun p hp => List.not_mem_nil ((h p).mpr hp)
    rw [hq]
  | cons p ps =>
    cases qs with
    | nil => exact absurd ((h p).mp List.mem_cons_self) List.not_mem_nil
    | cons q qs =>
      have hm (f : Point Float → Float) (v : Float) : v ∈ f p::ps.map f ↔ v ∈ f q::qs.map f := by
        rw [← List.map_cons,← List.map_cons,List.mem_map,List.mem_map]
        exact exists_congr fun r => and_congr_left' (h r)
      rw [around?_cons,around?_cons,foldl_least_eq (hm Point.x),foldl_least_eq (hm Point.y),
        foldl_greatest_eq (hm Point.x),foldl_greatest_eq (hm Point.y)]

/-- A box that is compared at all has numbers for sides, and so contains itself. -/
theorem contains_self_of_contains (h : b.contains c) : b.contains b ∧ c.contains c := by
  obtain ⟨hl,hd,hr,hu⟩ := contains_iff.mp h
  rw [le_iff] at hl hd hr hu
  exact ⟨contains_iff.mpr ⟨le_self hl.1,le_self hd.1,le_self hr.2.1,le_self hu.2.1⟩,
    contains_iff.mpr ⟨le_self hl.2.1,le_self hd.2.1,le_self hr.1,le_self hu.1⟩⟩

theorem contains_self_iff (h : around? ps = some b) : b.contains b ↔ ∀ p ∈ ps, p.IsNumber := by
  cases ps with
  | nil => cases h
  | cons p ps =>
    rw [around?_cons] at h
    cases h
    rw [contains_iff]
    dsimp only
    rw [le_self_iff,le_self_iff,le_self_iff,le_self_iff,isNaN_foldl_least,isNaN_foldl_least,
      isNaN_foldl_greatest,isNaN_foldl_greatest,← List.map_cons,← List.map_cons]
    simp only [List.forall_mem_map]
    exact ⟨fun ⟨hx,hy,_⟩ q hq => ⟨hx q hq,hy q hq⟩,fun hn =>
      have hx := fun q hq => (hn q hq).1
      have hy := fun q hq => (hn q hq).2
      ⟨hx,hy,hx,hy⟩⟩

theorem contains_around_of_subset (hb : around? ps = some b) (hc : around? qs = some c)
    (hn : ∀ p ∈ ps, p.IsNumber) (h : qs ⊆ ps) : b.contains c := by
  have he := (contains_around_iff hb).mp ((contains_self_iff hb).mpr hn)
  exact (contains_around_iff hc).mpr fun p hp => he p (h hp)

/-- The box around some points is contained in just the boxes that enclose all of them, has a point
on each side, is the same around the same points, and contains the box around any of them. Boxes
around numbers are ordered by containment, and a box with a coordinate that is no number neither
contains any box nor is contained in one. -/
theorem around?_least (h : ps ≠ []) : ∃ b, around? ps = some b ∧
    (∀ c : Bounds Float, c.contains b ↔ ∀ p ∈ ps, c.Encloses p) ∧
    ((∃ p ∈ ps, b.minX = p.x) ∧ (∃ p ∈ ps, b.minY = p.y) ∧
      (∃ p ∈ ps, b.maxX = p.x) ∧ ∃ p ∈ ps, b.maxY = p.y) ∧
    (∀ qs, (∀ p, p ∈ ps ↔ p ∈ qs) → around? qs = some b) ∧
    ((∀ p ∈ ps, p.IsNumber) → b.contains b ∧
      ∀ qs, qs ≠ [] → (∀ p ∈ qs, p.IsNumber) → ∃ c d, around? qs = some c ∧
        around? (ps ++ qs) = some d ∧ d.contains b ∧ d.contains c) ∧
    (∀ c d : Bounds Float, d.contains c → c.contains b → d.contains b) ∧
    ((∃ p ∈ ps, ¬p.IsNumber) → ∀ c, ¬b.contains c ∧ ¬c.contains b) := by
  obtain ⟨b,hb⟩ := exists_around? h
  refine ⟨b,hb,fun c => contains_around_iff hb,exists_of_around? hb,?_,?_,
    fun c d => contains_trans,?_⟩
  · intro qs hm
    rw [← around?_congr hm,hb]
  · intro hn
    refine ⟨(contains_self_iff hb).mpr hn,fun qs hq hn' => ?_⟩
    obtain ⟨c,hc⟩ := exists_around? hq
    obtain ⟨d,hd⟩ := exists_around? (List.append_ne_nil_of_left_ne_nil h qs)
    have hall : ∀ p ∈ ps ++ qs, p.IsNumber := fun p hp =>
      (List.mem_append.mp hp).elim (hn p) (hn' p)
    exact ⟨c,d,hc,hd,contains_around_of_subset hd hb hall (List.subset_append_left ps qs),
      contains_around_of_subset hd hc hall (List.subset_append_right ps qs)⟩
  · rintro ⟨p,hp,hn⟩ c
    have hs : ¬b.contains b := fun hs => hn ((contains_self_iff hb).mp hs p hp)
    exact ⟨fun hc => hs (contains_self_of_contains hc).1,fun hc =>
      hs (contains_self_of_contains hc).2⟩

/-- Three points, two of which differ in ordinate by the sign of a zero. -/
def zerosApart : List (Point Float) := [⟨1,0⟩,⟨-2,-0⟩,⟨1,3⟩]

/-- The lower side is -0 in any order, and a point without an abscissa keeps its box from all others
although both its ordinates are numbers. -/
theorem around?_least_zerosApart : zerosApart ≠ [] ∧ around? zerosApart = some ⟨-2,-0,1,3⟩ ∧
    (∀ c : Bounds Float, c.contains ⟨-2,-0,1,3⟩ ↔ ∀ p ∈ zerosApart, c.Encloses p) ∧
    around? (zerosApart.reverse ++ zerosApart) = some ⟨-2,-0,1,3⟩ ∧
    ∃ b, around? (⟨0/0,1⟩::zerosApart) = some b ∧ ∀ c, ¬b.contains c ∧ ¬c.contains b := by
  have hz : zerosApart ≠ [] := by simp [zerosApart]
  have hb : around? zerosApart = some ⟨-2,-0,1,3⟩ := by decide +kernel
  obtain ⟨b,hb',hl,-,hm,-,-⟩ := around?_least hz
  obtain rfl := Option.some.inj (hb.symm.trans hb')
  obtain ⟨d,hd,-,-,-,-,-,hn⟩ := around?_least (List.cons_ne_nil ⟨0/0,1⟩ zerosApart)
  refine ⟨hz,hb,hl,hm _ fun p => by simp,d,hd,hn ⟨_,List.mem_cons_self,fun h => ?_⟩⟩
  exact absurd h.1 (by decide)

end Bounds
end ExtrusionProfile
