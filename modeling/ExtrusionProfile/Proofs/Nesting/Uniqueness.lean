import ExtrusionProfile.Proofs.Nesting.Precedence
import ExtrusionProfile.Proofs.Number.Difference

/-! What a nesting is. Outlines with a point are put in order of decreasing box area, those of one
area in the order of the input, and every polygon lies one level below the latest one before it
whose box holds its own. Only one list of polygons is so. -/
namespace ExtrusionProfile
namespace Nesting

open Region

section Depth

variable {α : Type} [Scalar α]

/-- Where a polygon lies: at the top when no box before it holds its own, and otherwise one level
below the latest polygon before it whose box does. -/
inductive LiesAt (ps : List (Polygon α)) (x : Polygon α × ℕ) : Prop
  | top (hl : x.1.level = 0)
      (h : ∀ y ∈ ps.zipIdx, y.2 < x.2 → ¬y.1.bounds.contains x.1.bounds)
  | below (y : Polygon α × ℕ) (hy : y ∈ ps.zipIdx) (hlt : y.2 < x.2)
      (hc : y.1.bounds.contains x.1.bounds) (hl : x.1.level = y.1.level+1)
      (h : ∀ z ∈ ps.zipIdx, y.2 < z.2 → z.2 < x.2 → ¬z.1.bounds.contains x.1.bounds)

variable {ps qs latest : List (Polygon α)} {x : Polygon α × ℕ} {p : Polygon α}

theorem liesAt_iff :
    LiesAt ps x ↔ x.1.level = ((container? ps x).map (·.1.level+1)).getD 0 := by
  constructor
  · rintro (⟨hl,h⟩ | ⟨y,hy,hlt,hc,hl,h⟩)
    · rw [hl,container?_eq_none_iff.mpr h]
      rfl
    · rw [hl,container?_eq_some_iff.mpr ⟨hy,hlt,hc,h⟩]
      rfl
  · intro hl
    cases hc : container? ps x with
    | none =>
      rw [hc] at hl
      exact .top hl (container?_eq_none_iff.mp hc)
    | some y =>
      rw [hc] at hl
      obtain ⟨hy,hlt,hb,h⟩ := container?_eq_some_iff.mp hc
      exact .below y hy hlt hb hl h

theorem placed_of_liesAt
    (h : ∀ x ∈ ps.zipIdx, LiesAt ps x ∧ x.1.role = Role.ofLevel x.1.level) :
    Placed ps.reverse := by
  induction ps using List.reverseRecOn with
  | nil => trivial
  | append_singleton ps p ih =>
    have hx : ∀ x ∈ ps.zipIdx, LiesAt ps x ∧ x.1.role = Role.ofLevel x.1.level := by
      intro x hx
      obtain ⟨hl,hr⟩ := h x (by rw [List.zipIdx_append]; exact List.mem_append_left _ hx)
      rw [liesAt_iff,container?_append ps p (List.snd_lt_of_mem_zipIdx hx).le,← liesAt_iff] at hl
      exact ⟨hl,hr⟩
    obtain ⟨hl,hr⟩ := h (p,ps.length) (by simp [List.zipIdx_append])
    rw [liesAt_iff,container?_append ps p le_rfl] at hl
    rw [List.reverse_append,List.reverse_singleton,List.singleton_append]
    refine ⟨?_,hr,ih hx⟩
    rw [levelBelow_reverse,hl]
    simp [container?]

/-- Placed polygons are what placing makes of their outlines. -/
theorem placeAll_of_placed (h : Placed (qs.reverse ++ latest))
    (ha : ∀ q ∈ qs, q.area = q.bounds.area) : placeAll latest (qs.map candidateOf) = qs := by
  induction qs generalizing latest with
  | nil => rfl
  | cons q qs ih =>
    obtain ⟨hq,hqs⟩ := List.forall_mem_cons.mp ha
    rw [List.reverse_cons,List.append_assoc] at h
    obtain ⟨hl,hr,-⟩ := placed_of_append h
    have hp : place latest (candidateOf q) = q := by
      have hb : levelBelow latest (candidateOf q).bounds = q.level := hl.symm
      rw [place,hb,← hr]
      exact congrArg (fun a => (⟨q.points,q.bounds,a,q.level,q.role,q.source⟩ : Polygon α)) hq.symm
    rw [List.map_cons,placeAll,hp]
    exact congrArg _ (ih h hqs)

end Depth

variable {subpaths : List (List (Point Float))} {ps : List (Polygon Float)}

/-- A polygon lies no deeper than there are polygons before it that hold it. The induction is on
its place. -/
theorem level_le_countP (h : ∀ x ∈ ps.zipIdx, LiesAt ps x) {x : Polygon Float × ℕ}
    (hx : x ∈ ps.zipIdx) :
    x.1.level ≤ (ps.take x.2).countP (·.bounds.contains x.1.bounds) := by
  obtain ⟨p,n⟩ := x
  induction n using Nat.strong_induction_on generalizing p with
  | _ n ih =>
    rcases h _ hx with ⟨hl,-⟩ | ⟨⟨q,m⟩,hq,hlt,hc,hl,-⟩
    · exact hl.trans_le (Nat.zero_le _)
    · have hle := ih m hlt q hq
      have hs : ps.take m ++ [q] <+: ps.take n := by
        have ht : ps.take (m+1) = ps.take m ++ [q] := by
          rw [List.take_add_one,List.mem_zipIdx_iff_getElem?.mp hq]
          rfl
        exact ht ▸ List.take_prefix_take_left hlt
      calc p.level = q.level+1 := hl
        _ ≤ (ps.take m).countP (·.bounds.contains q.bounds)+1 := Nat.succ_le_succ hle
        _ ≤ (ps.take m).countP (·.bounds.contains p.bounds)+1 :=
            Nat.succ_le_succ (List.countP_mono_left fun r _ hr => Bounds.contains_trans hr hc)
        _ = (ps.take m ++ [q]).countP (·.bounds.contains p.bounds) := by simp [hc]
        _ ≤ (ps.take n).countP (·.bounds.contains p.bounds) := hs.sublist.countP_le

/-- What the nesting of some outlines is. -/
structure IsNesting (subpaths : List (List (Point Float))) (ps : List (Polygon Float)) : Prop where
  /-- Every outline with a point is there once, with its place, and nothing else is. -/
  sources : (ps.map fun p => (p.points,p.source)).Perm
    (subpaths.zipIdx.filter fun x => !x.1.isEmpty)
  bounds : ∀ p ∈ ps, Bounds.around? p.points = some p.bounds ∧ p.area = p.bounds.area
  /-- Areas never increase, and equal ones are in the order of the input. -/
  decreasing : ps.Pairwise fun p q => q.area ≤ p.area ∧ (q.area == p.area → p.source < q.source)
  level : ∀ x ∈ ps.zipIdx, LiesAt ps x
  role : ∀ p ∈ ps, p.role = .fill ↔ Even p.level

theorem isNesting_resolve
    (hn : ∀ ps ∈ subpaths, ∀ b ∈ Bounds.around? ps, b.area.isNaN = false) :
    IsNesting subpaths (resolve subpaths) where
  sources := resolve_sources_perm subpaths
  bounds p hp := ⟨around?_of_mem_candidatesFrom (candidateOf_mem hp),area_of_mem_placeAll hp⟩
  decreasing := by
    refine (resolve_pairwise hn).imp_of_mem fun {p q} hp hq h => ?_
    rcases h with h | ⟨h,hs⟩
    · exact ⟨Binary64.le_of_lt h,fun he =>
        absurd h (Binary64.not_lt_of_le (Binary64.le_of_beq (Binary64.beq_symm he)))⟩
    · exact ⟨Binary64.le_of_not_lt (isNaN_area hn hq) (isNaN_area hn hp) h,fun _ => hs⟩
  level _ hx := liesAt_iff.mpr (level_eq_container? (placed_resolve subpaths) hx).1
  role p hp := by
    rw [(placed_resolve subpaths).role_eq (List.mem_reverse.mpr hp),ofLevel_eq_fill_iff]

namespace IsNesting

theorem candidates_perm (h : IsNesting subpaths ps) :
    (ps.map candidateOf).Perm (candidatesFrom 0 subpaths) := by
  have hc : ps.map candidateOf = (ps.map fun p => (p.points,p.source)).filterMap candidateAt? := by
    rw [List.filterMap_map,← List.filterMap_eq_map]
    refine List.filterMap_congr fun p hp => ?_
    simp [candidateAt?,(h.bounds p hp).1,candidateOf]
  have hf : (subpaths.zipIdx.filter fun x => !x.1.isEmpty).filterMap candidateAt? =
      candidatesFrom 0 subpaths := by
    rw [candidatesFrom_eq_filterMap,List.filterMap_filter]
    refine List.filterMap_congr fun x _ => ?_
    cases hx : x.1 <;> simp [candidateAt?,hx,Bounds.around?]
  rw [hc,← hf]
  exact h.sources.filterMap candidateAt?

theorem inOrder (h : IsNesting subpaths ps) :
    (ps.map candidateOf).Pairwise
      (Sorting.InOrder larger fun c d => c.source < d.source) := by
  rw [List.pairwise_map]
  refine h.decreasing.imp_of_mem fun {p q} hp hq ⟨hle,hs⟩ => ?_
  rw [(h.bounds p hp).2,(h.bounds q hq).2] at hle hs
  rw [Sorting.InOrder,larger_iff,larger_iff]
  rcases Binary64.lt_or_beq_of_le hle with hl | he
  · exact .inl hl
  · exact .inr ⟨Binary64.not_lt_of_le hle,hs he⟩

theorem placed (h : IsNesting subpaths ps) : Placed ps.reverse := by
  refine placed_of_liesAt fun x hx => ⟨h.level x hx,?_⟩
  have hr := h.role x.1 (List.fst_mem_of_mem_zipIdx hx)
  rw [← ofLevel_eq_fill_iff] at hr
  cases hx : x.1.role <;> cases hl : Role.ofLevel x.1.level <;> simp_all

end IsNesting

/-- Which of two candidates is the larger one shows in the sign of the difference of their areas,
as doubles have it, also where areas are infinite or no numbers. -/
theorem larger_iff_sub_pos {c d : Candidate Float} : larger c d ↔ 0 < c.area-d.area :=
  larger_iff.trans Binary64.sub_pos_iff.symm

/-- The nesting of outlines whose box areas are numbers is the only list that is one, and no
polygon in it lies deeper than it is far from the front, nor deeper than there are polygons before
it that hold it. Candidates are compared by the sign of the difference of their areas. -/
theorem isNesting_iff
    (hn : ∀ ps ∈ subpaths, ∀ b ∈ Bounds.around? ps, b.area.isNaN = false) :
    (∀ ps, IsNesting subpaths ps ↔ ps = resolve subpaths) ∧
      (∀ x ∈ (resolve subpaths).zipIdx, x.1.level ≤ x.2 ∧
        x.1.level ≤ ((resolve subpaths).take x.2).countP (·.bounds.contains x.1.bounds)) ∧
      ∀ c d : Candidate Float, larger c d ↔ 0 < c.area-d.area := by
  refine ⟨fun ps => ⟨fun h => ?_,fun h => h ▸ isNesting_resolve hn⟩,fun x hx => ?_,
    fun c d => larger_iff_sub_pos⟩
  · have ho : ordered subpaths = ps.map candidateOf :=
      eq_of_inOrder ((Sorting.sort_perm larger _).trans h.candidates_perm.symm)
        (ordered_inOrder hn) h.inOrder
    rw [resolve,ho,placeAll_of_placed (by simpa using h.placed) fun p hp => (h.bounds p hp).2]
  · have hl := level_le_countP (isNesting_resolve hn).level hx
    exact ⟨hl.trans (List.countP_le_length.trans (List.length_take_le _ _)),hl⟩

/-- Two bars of infinite area with one box, a square in them, two outlines without points and a
line in the square. -/
def barsAroundSquare : List (List (Point Float)) :=
  [[],[⟨0,0⟩,⟨10,0⟩,⟨10,10⟩,⟨0,10⟩],[⟨-1e308,-1⟩,⟨1e308,-1⟩,⟨1e308,20⟩,⟨-1e308,20⟩],[],
    [⟨2,5⟩,⟨5,5⟩,⟨8,5⟩],[⟨-1e308,20⟩,⟨1e308,-1⟩,⟨0,0⟩]]

theorem isNesting_barsAroundSquare :
    (∀ ps ∈ barsAroundSquare, ∀ b ∈ Bounds.around? ps, b.area.isNaN = false) ∧
      (resolve barsAroundSquare).map (fun p => (p.source,p.area.isInf,p.level)) =
        [(2,true,0),(5,true,1),(1,false,2),(4,false,3)] ∧
      IsNesting barsAroundSquare (resolve barsAroundSquare) := by
  have hn : ∀ ps ∈ barsAroundSquare, ∀ b ∈ Bounds.around? ps, b.area.isNaN = false := by
    decide +kernel
  exact ⟨hn,by decide +kernel,((isNesting_iff hn).1 _).mpr rfl⟩

end Nesting
end ExtrusionProfile
