import ExtrusionProfile.Nesting.Resolve
import ExtrusionProfile.Proofs.Nesting.Levels
import Mathlib.Data.List.Induction
import Mathlib.Data.List.Perm.Basic
import Mathlib.Data.List.Sigma

/-! Holes in regions. A region has the fill that opened it and every hole right beneath that
fill, in their order; in a nesting the latest polygon around a hole is a fill, so that no
hole is lost and none is in two regions. -/
namespace ExtrusionProfile
namespace Region

open Nesting

theorem mem_zipIdx_take {β : Type} {l : List β} {n : ℕ} {y : β × ℕ} :
    y ∈ (l.take n).zipIdx ↔ y ∈ l.zipIdx ∧ y.2 < n := by
  rw [List.mem_zipIdx_iff_getElem?,List.mem_zipIdx_iff_getElem?,List.getElem?_take]
  split <;> simp_all

variable {α : Type} [Scalar α]

/-- The latest polygon before a place whose box contains the one at the place. -/
def container? (ps : List (Polygon α)) (x : Polygon α × ℕ) : Option (Polygon α × ℕ) :=
  (ps.take x.2).zipIdx.reverse.find? (·.1.bounds.contains x.1.bounds)

/-- Whether a polygon is a hole whose container is the polygon at place `i`. -/
def beneath (ps : List (Polygon α)) (i : ℕ) (x : Polygon α × ℕ) : Bool :=
  x.1.role = .hole && (container? ps x).map Prod.snd = some i

def holesOf (ps : List (Polygon α)) (i : ℕ) : List (List (Point α)) :=
  (ps.zipIdx.filter (beneath ps i)).map (·.1.points)

/-- A polygon once all of `ps` are taken in. -/
def seen (ps : List (Polygon α)) (x : Polygon α × ℕ) : Seen α :=
  ⟨x.1.bounds,if x.1.role = .fill then some ⟨x.1.points,holesOf ps x.2⟩ else none⟩

variable {ps : List (Polygon α)} {x y : Polygon α × ℕ}

theorem mem_of_container? (h : container? ps x = some y) : y ∈ ps.zipIdx ∧ y.2 < x.2 :=
  mem_zipIdx_take.mp (List.mem_reverse.mp (List.mem_of_find?_eq_some h))

theorem contains_of_container? (h : container? ps x = some y) :
    y.1.bounds.contains x.1.bounds := by
  rw [container?] at h
  have hb := List.find?_some h
  exact hb

theorem beneath_iff {i : ℕ} :
    beneath ps i x ↔ x.1.role = .hole ∧ ∃ y, container? ps x = some y ∧ y.2 = i := by
  simp [beneath]

theorem holesOf_length (ps : List (Polygon α)) : holesOf ps ps.length = [] := by
  rw [holesOf,List.map_eq_nil_iff,List.filter_eq_nil_iff]
  intro x hx hb
  obtain ⟨-,y,hy,he⟩ := beneath_iff.mp hb
  have hl := List.snd_lt_of_mem_zipIdx hx
  have hm := (mem_of_container? hy).2
  omega

section Growing

variable (ps) (p : Polygon α)

theorem container?_append (h : x.2 ≤ ps.length) :
    container? (ps ++ [p]) x = container? ps x := by
  rw [container?,container?,List.take_append_of_le_length h]

theorem beneath_append (h : x.2 ≤ ps.length) (i : ℕ) :
    beneath (ps ++ [p]) i x = beneath ps i x := by
  rw [beneath,beneath,container?_append ps p h]

theorem holesOf_append (i : ℕ) :
    holesOf (ps ++ [p]) i =
      holesOf ps i ++ if beneath ps i (p,ps.length) then [p.points] else [] := by
  have h : ps.zipIdx.filter (beneath (ps ++ [p]) i) = ps.zipIdx.filter (beneath ps i) := by
    refine List.filter_congr fun x hx => beneath_append ps p ?_ i
    exact Nat.le_of_lt (List.snd_lt_of_mem_zipIdx hx)
  have hp := beneath_append ps p (x:=(p,ps.length)) le_rfl i
  rw [holesOf,holesOf,List.zipIdx_append,List.filter_append,h,List.map_append]
  congr 1
  rw [List.zipIdx_singleton,Nat.zero_add,List.filter_singleton,hp]
  cases beneath ps i (p,ps.length) <;> rfl

theorem seen_append (x : Polygon α × ℕ) :
    seen (ps ++ [p]) x =
      if beneath ps x.2 (p,ps.length) then
        { seen ps x with
          region := (seen ps x).region.map fun r => { r with holes := r.holes ++ [p.points] } }
      else seen ps x := by
  cases hb : beneath ps x.2 (p,ps.length) <;> by_cases hr : x.1.role = .fill <;>
    simp [seen,holesOf_append,hb,hr]

theorem seen_append_length :
    seen (ps ++ [p]) (p,ps.length) =
      ⟨p.bounds,if p.role = .fill then some ⟨p.points,[]⟩ else none⟩ := by
  have hb : beneath ps ps.length (p,ps.length) = false := by
    rw [← Bool.not_eq_true,beneath_iff]
    rintro ⟨-,y,hy,he⟩
    exact Nat.ne_of_lt (mem_of_container? hy).2 he
  simp [seen,holesOf_append,hb,holesOf_length]

end Growing

theorem addHole_map (f : Polygon α × ℕ → Seen α) (b : Bounds α) (qs : List (Point α))
    {xs : List (Polygon α × ℕ)} (h : (xs.map Prod.snd).Nodup) :
    addHole b qs (xs.map f) = xs.map fun x =>
      if (xs.find? fun y => (f y).bounds.contains b).map Prod.snd = some x.2 then
        { f x with region := (f x).region.map fun r => { r with holes := r.holes ++ [qs] } }
      else f x := by
  induction xs with
  | nil => rfl
  | cons x xs ih =>
    obtain ⟨hx,hxs⟩ := List.nodup_cons.mp h
    rw [List.map_cons,List.map_cons,addHole,List.find?_cons]
    cases hb : (f x).bounds.contains b with
    | true =>
      have hne : ∀ y ∈ xs, x.2 ≠ y.2 := fun y hy he => hx (he ▸ List.mem_map_of_mem hy)
      simp only [if_true,Option.map_some,List.cons.injEq,true_and]
      exact List.map_congr_left fun y hy => by simp [hne y hy]
    | false =>
      have hne : (xs.find? fun y => (f y).bounds.contains b).map Prod.snd ≠ some x.2 := by
        intro he
        obtain ⟨y,hy,hs⟩ := Option.map_eq_some_iff.mp he
        exact hx (hs ▸ List.mem_map_of_mem (List.mem_of_find?_eq_some hy))
      simp only [Bool.false_eq_true,if_false,hne]
      rw [ih hxs]

theorem foldl_see (ps : List (Polygon α)) : ps.foldl see [] = (ps.zipIdx.map (seen ps)).reverse := by
  induction ps using List.reverseRecOn with
  | nil => rfl
  | append_singleton ps p ih =>
    have hn : (ps.zipIdx.reverse.map Prod.snd).Nodup := by
      rw [List.map_reverse,List.nodup_reverse]
      exact List.nodup_zipIdx_map_snd ps
    have hc : (ps.zipIdx.reverse.find? fun y => (seen ps y).bounds.contains p.bounds) =
        container? ps (p,ps.length) := by simp [container?,seen]
    have hs : (ps ++ [p]).foldl see [] = see (ps.zipIdx.reverse.map (seen ps)) p := by
      rw [List.foldl_append,ih,List.map_reverse]
      rfl
    have hp : ((ps ++ [p]).zipIdx.map (seen (ps ++ [p]))).reverse =
        seen (ps ++ [p]) (p,ps.length)::ps.zipIdx.reverse.map (seen (ps ++ [p])) := by
      simp [List.zipIdx_append]
    rw [hs,hp,seen_append_length,see]
    cases hr : p.role with
    | fill => simp [seen_append,beneath,hr]
    | hole =>
      have hb : ∀ i, beneath ps i (p,ps.length) ↔
          (container? ps (p,ps.length)).map Prod.snd = some i := by simp [beneath,hr]
      dsimp only
      rw [addHole_map _ _ _ hn,hc]
      refine congrArg₂ List.cons rfl (List.map_congr_left fun x _ => ?_)
      simp only [seen_append,hb]

/-- Every fill opens a region and every hole goes to its container, whatever that is. -/
theorem group_eq (ps : List (Polygon α)) :
    group ps = (ps.zipIdx.filter (·.1.role = .fill)).map fun x => ⟨x.1.points,holesOf ps x.2⟩ := by
  rw [group,foldl_see,List.reverse_reverse,List.filterMap_map]
  induction ps.zipIdx with
  | nil => rfl
  | cons x xs ih =>
    by_cases hr : x.1.role = .fill <;> simp [seen,hr,ih]

section Levels

theorem levelBelow_reverse (ps : List (Polygon α)) (b : Bounds α) :
    levelBelow ps.reverse b =
      ((ps.zipIdx.reverse.find? (·.1.bounds.contains b)).map (·.1.level+1)).getD 0 := by
  have h : ps.reverse = ps.zipIdx.reverse.map Prod.fst := by
    rw [List.map_reverse,List.zipIdx_map_fst]
  rw [levelBelow,h,List.find?_map,Function.comp_def]
  cases ps.zipIdx.reverse.find? (·.1.bounds.contains b) <;> rfl

theorem placed_of_append {ps qs : List (Polygon α)} (h : Placed (ps ++ qs)) : Placed qs := by
  induction ps with
  | nil => exact h
  | cons p ps ih => exact ih h.2.2

theorem level_eq_container? (h : Placed ps.reverse) (hx : x ∈ ps.zipIdx) :
    x.1.level = ((container? ps x).map (·.1.level+1)).getD 0 ∧
      x.1.role = Role.ofLevel x.1.level := by
  have he : ps = ps.take x.2 ++ x.1::ps.drop (x.2+1) := by
    obtain ⟨hl,hg⟩ := List.getElem?_eq_some_iff.mp (List.mem_zipIdx_iff_getElem?.mp hx)
    rw [← hg,← List.drop_eq_getElem_cons,List.take_append_drop]
  rw [he,List.reverse_append,List.reverse_cons,List.append_assoc] at h
  have hp := placed_of_append h
  exact ⟨hp.1.trans (levelBelow_reverse _ _),hp.2.1⟩

/-- In a nesting every hole has a container, a fill one level above it. -/
theorem exists_container (h : Placed ps.reverse) (hx : x ∈ ps.zipIdx) (hr : x.1.role = .hole) :
    ∃ y ∈ ps.zipIdx, container? ps x = some y ∧ y.1.role = .fill ∧ x.1.level = y.1.level+1 := by
  obtain ⟨hl,ho⟩ := level_eq_container? h hx
  rw [hr] at ho
  cases hc : container? ps x with
  | none =>
    rw [hl,hc] at ho
    cases ho
  | some y =>
    have hl' : x.1.level = y.1.level+1 := by rw [hl,hc]; rfl
    have hy := (mem_of_container? hc).1
    refine ⟨y,hy,rfl,?_,hl'⟩
    rw [(level_eq_container? h hy).2]
    rw [hl'] at ho
    cases hf : Role.ofLevel y.1.level with
    | fill => rfl
    | hole => rw [ofLevel_succ_eq_fill_iff.mpr hf] at ho; cases ho

end Levels

section Counting

variable {β : Type}

open List

theorem flatMap_ite_perm {is : List ℕ} (h : is.Nodup) {k : ℕ} (hk : k ∈ is) (b : β)
    (f : ℕ → List β) : (is.flatMap fun i => if k = i then b::f i else f i) ~ b::is.flatMap f := by
  induction is with
  | nil => cases hk
  | cons i is ih =>
    obtain ⟨hi,his⟩ := nodup_cons.mp h
    rw [flatMap_cons,flatMap_cons]
    rcases mem_cons.mp hk with rfl | hk
    · have hf : (is.flatMap fun i => if k = i then b::f i else f i) = is.flatMap f :=
        flatMap_congr fun i hm => if_neg fun he : k = i => hi (he ▸ hm)
      rw [if_pos rfl,hf,cons_append]
    · rw [if_neg fun he : k = i => hi (he ▸ hk)]
      exact ((ih his hk).append_left _).trans perm_middle

theorem flatMap_filter_perm (key : β → Option ℕ) {is : List ℕ} (h : is.Nodup) {xs : List β}
    (hk : ∀ x ∈ xs, ∃ i ∈ is, key x = some i) :
    (is.flatMap fun i => xs.filter fun x => key x = some i) ~ xs := by
  induction xs with
  | nil => simp
  | cons x xs ih =>
    obtain ⟨k,hm,hx⟩ := hk x (by simp)
    have ih := ih fun y hy => hk y (by simp [hy])
    simp only [filter_cons,hx,Option.some.injEq,decide_eq_true_eq]
    exact (flatMap_ite_perm h hm x _).trans (ih.cons x)

end Counting

section Resolved

open List

/-- A nesting goes into its regions without loss: every polygon in it is a fill or lies right
beneath one. -/
theorem group_perm {ps : List (Polygon α)} (h : Placed ps.reverse) :
    ((group ps).flatMap fun r => r.outer::r.holes) ~ ps.map Polygon.points := by
  let fills := ps.zipIdx.filter (·.1.role = .fill)
  let holes := ps.zipIdx.filter fun x => !decide (x.1.role = .fill)
  let key (x : Polygon α × ℕ) : Option ℕ := (container? ps x).map Prod.snd
  have hr (x : Polygon α × ℕ) : (!decide (x.1.role = .fill)) = decide (x.1.role = .hole) := by
    cases x.1.role <;> rfl
  have hh (i : ℕ) : holesOf ps i = (holes.filter fun x => key x = some i).map (·.1.points) := by
    rw [holesOf,filter_filter]
    refine congrArg _ (filter_congr fun x _ => ?_)
    rw [beneath,hr,Bool.and_comm]
  have hf : (fills.map Prod.snd).Nodup := (nodup_zipIdx_map_snd ps).sublist (filter_sublist.map _)
  have hk : ∀ x ∈ holes, ∃ i ∈ fills.map Prod.snd, key x = some i := by
    intro x hx
    obtain ⟨hx,hxr⟩ := mem_filter.mp hx
    rw [hr,decide_eq_true_eq] at hxr
    obtain ⟨y,hy,hc,hyr,-⟩ := exists_container h hx hxr
    refine ⟨y.2,mem_map_of_mem (mem_filter.mpr ⟨hy,by simpa using hyr⟩),?_⟩
    simp only [key,hc,Option.map_some]
  calc (group ps).flatMap (fun r => r.outer::r.holes)
      = fills.flatMap fun x => x.1.points::holesOf ps x.2 := by
        rw [group_eq,flatMap_map]
    _ ~ fills.map (·.1.points) ++ fills.flatMap fun x => holesOf ps x.2 :=
        (map_append_flatMap_perm _ _ _).symm
    _ = fills.map (·.1.points) ++
          ((fills.map Prod.snd).flatMap fun i => holes.filter fun x => key x = some i).map
            (·.1.points) := by
        simp only [hh,map_flatMap,flatMap_map]
    _ ~ fills.map (·.1.points) ++ holes.map (·.1.points) :=
        ((flatMap_filter_perm key hf hk).map _).append_left _
    _ ~ ps.zipIdx.map (·.1.points) := by
        rw [← map_append]
        exact (filter_append_perm _ _).map _
    _ = ps.map Polygon.points := by
        rw [← zipIdx_map_fst 0 ps,map_map,zipIdx_map_fst]
        rfl

/-- The regions of a nesting are its fills in their order, each with the holes of which it is
the container. Every hole has a container, a fill one level above it, and is a hole of that
fill alone; so the rings of all regions are the polygons of the nesting. -/
theorem group_resolve (subpaths : List (List (Point α))) :
    let ps := resolve subpaths
    group ps =
        (ps.zipIdx.filter (·.1.role = .fill)).map (fun x => ⟨x.1.points,holesOf ps x.2⟩) ∧
      (∀ x ∈ ps.zipIdx, x.1.role = .hole →
        ∃ y ∈ ps.zipIdx, container? ps x = some y ∧ y.1.role = .fill ∧
          x.1.level = y.1.level+1 ∧ ∀ i, beneath ps i x ↔ i = y.2) ∧
      ((group ps).flatMap fun r => r.outer::r.holes) ~ ps.map Polygon.points := by
  refine ⟨group_eq _,fun x hx hr => ?_,group_perm (placed_resolve subpaths)⟩
  obtain ⟨y,hy,hc,hf,hl⟩ := exists_container (placed_resolve subpaths) hx hr
  refine ⟨y,hy,hc,hf,hl,fun i => ?_⟩
  rw [beneath_iff,hc]
  simp [hr,eq_comm]

end Resolved

end Region
end ExtrusionProfile
