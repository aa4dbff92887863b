import ExtrusionProfile.Proofs.Nesting.Precedence
import Mathlib.Data.Nat.Count
import Mathlib.Data.List.Sort

/-! Parts of a nesting. A part that has with every outline all those whose boxes hold its own is
nested alone as it is among the others: what is left out comes between its polygons in the order
of placing, but none of it is ever a container of theirs. -/
namespace ExtrusionProfile
namespace Nesting

section Keeping

variable {β : Type} (keep : ℕ → Prop) [DecidablePred keep]

/-- The members of a list whose places, counted from `n`, are kept. -/
def partFrom (n : ℕ) (xs : List β) : List β :=
  ((xs.zipIdx n).filter fun x => keep x.2).map Prod.fst

def part (xs : List β) : List β := partFrom keep 0 xs

theorem partFrom_cons (n : ℕ) (x : β) (xs : List β) :
    partFrom keep n (x::xs) =
      if keep n then x::partFrom keep (n+1) xs else partFrom keep (n+1) xs := by
  by_cases h : keep n <;> simp [partFrom,h]

theorem mem_of_mem_part {xs : List β} {x : β} (h : x ∈ part keep xs) : x ∈ xs := by
  obtain ⟨y,hy,rfl⟩ := List.mem_map.mp h
  exact List.fst_mem_of_mem_zipIdx (List.mem_filter.mp hy).1

end Keeping

variable {α : Type}

def Candidate.moved (f : ℕ → ℕ) (c : Candidate α) : Candidate α := { c with source := f c.source }

def moved (f : ℕ → ℕ) (p : Polygon α) : Polygon α := { p with source := f p.source }

variable [Scalar α] (keep : ℕ → Prop) [DecidablePred keep]

/-- Whoever holds the box of a kept outline is kept too. -/
def KeepsContainers (subpaths : List (List (Point α))) : Prop :=
  ∀ x ∈ subpaths.zipIdx, ∀ y ∈ subpaths.zipIdx, ∀ b ∈ Bounds.around? x.1,
    ∀ c ∈ Bounds.around? y.1, b.contains c → keep y.2 → keep x.2

instance (subpaths : List (List (Point α))) : Decidable (KeepsContainers keep subpaths) :=
  inferInstanceAs (Decidable (∀ x ∈ subpaths.zipIdx, ∀ y ∈ subpaths.zipIdx,
    ∀ b ∈ Bounds.around? x.1, ∀ c ∈ Bounds.around? y.1, b.contains c → keep y.2 → keep x.2))

theorem candidatesFrom_part (n : ℕ) (subpaths : List (List (Point α))) :
    candidatesFrom (Nat.count keep n) (partFrom keep n subpaths) =
      ((candidatesFrom n subpaths).filter fun c => keep c.source).map
        (Candidate.moved (Nat.count keep)) := by
  induction subpaths generalizing n with
  | nil => rfl
  | cons ps r ih =>
    have ih := ih (n+1)
    rw [Nat.count_succ] at ih
    by_cases h : keep n
    · cases hb : Bounds.around? ps <;>
        simp_all [partFrom_cons,candidatesFrom,Candidate.moved]
    · cases hb : Bounds.around? ps <;> simp_all [partFrom_cons,candidatesFrom]

theorem mem_zipIdx_of_mem_candidatesFrom {n : ℕ} {subpaths : List (List (Point α))}
    {c : Candidate α} (h : c ∈ candidatesFrom n subpaths) : (c.points,c.source) ∈ subpaths.zipIdx n := by
  have hm := List.mem_map_of_mem (f := fun c : Candidate α => (c.points,c.source)) h
  rw [candidatesFrom_sources] at hm
  exact (List.mem_filter.mp hm).1

section Placing

theorem placeAll_moved (f : ℕ → ℕ) (latest : List (Polygon α)) (cs : List (Candidate α)) :
    placeAll (latest.map (moved f)) (cs.map (Candidate.moved f)) =
      (placeAll latest cs).map (moved f) := by
  refine placeAll_comm (fun latest c => ?_) latest cs
  have hl : levelBelow (latest.map (moved f)) c.bounds = levelBelow latest c.bounds :=
    levelBelow_map (g:=moved f) (fun _ => rfl) (fun _ => rfl) latest
  simp only [place,Candidate.moved,hl]
  rfl

theorem levelBelow_filter {latest : List (Polygon α)} {b : Bounds α}
    (h : ∀ p ∈ latest, p.bounds.contains b → keep p.source) :
    levelBelow (latest.filter fun p => keep p.source) b = levelBelow latest b := by
  have hf : (latest.filter fun p => keep p.source).find? (·.bounds.contains b) =
      latest.find? (·.bounds.contains b) := by
    induction latest with
    | nil => rfl
    | cons p latest ih =>
      obtain ⟨hp,hl⟩ := List.forall_mem_cons.mp h
      by_cases hb : p.bounds.contains b
      · simp [hp hb,hb]
      · by_cases hk : keep p.source <;> simp [hk,hb,ih hl]
  rw [levelBelow,hf]
  rfl

/-- Candidates that are left out change no level of the kept ones, as long as all containers of
kept ones are kept. -/
theorem placeAll_filter {latest : List (Polygon α)} {cs : List (Candidate α)}
    (hl : ∀ p ∈ latest, ∀ c ∈ cs, p.bounds.contains c.bounds → keep c.source → keep p.source)
    (hc : ∀ d ∈ cs, ∀ c ∈ cs, d.bounds.contains c.bounds → keep c.source → keep d.source) :
    placeAll (latest.filter fun p => keep p.source) (cs.filter fun c => keep c.source) =
      (placeAll latest cs).filter fun p => keep p.source := by
  induction cs generalizing latest with
  | nil => rfl
  | cons c cs ih =>
    have hl' : ∀ p ∈ place latest c::latest, ∀ d ∈ cs,
        p.bounds.contains d.bounds → keep d.source → keep p.source := by
      intro p hp d hd
      rcases List.mem_cons.mp hp with rfl | hp
      · exact hc c (by simp) d (by simp [hd])
      · exact hl p hp d (by simp [hd])
    have ih := ih hl' fun d hd e he => hc d (by simp [hd]) e (by simp [he])
    by_cases hk : keep c.source
    · have hb := levelBelow_filter keep fun p hp h => hl p hp c (by simp) h hk
      have hp : place (latest.filter fun p => keep p.source) c = place latest c := by
        simp only [place,hb]
      have hs : (place latest c).source = c.source := rfl
      simp only [List.filter_cons,hs,hk,decide_true,if_true,placeAll,hp] at ih ⊢
      rw [ih]
    · have hs : (place latest c).source = c.source := rfl
      simpa only [List.filter_cons,hs,hk,decide_false,Bool.false_eq_true,if_false,placeAll] using ih

end Placing

section Ordering

variable {subpaths : List (List (Point Float))}

theorem ordered_part (hn : ∀ ps ∈ subpaths, ∀ b ∈ Bounds.around? ps, b.area.isNaN = false) :
    ordered (part keep subpaths) =
      ((ordered subpaths).filter fun c => keep c.source).map
        (Candidate.moved (Nat.count keep)) := by
  have hm : ∀ ps ∈ part keep subpaths, ∀ b ∈ Bounds.around? ps, b.area.isNaN = false :=
    fun ps hp => hn ps (mem_of_mem_part keep hp)
  have hs := ordered_inOrder hm
  have hr : (((ordered subpaths).filter fun c => keep c.source).map
      (Candidate.moved (Nat.count keep))).Pairwise
        (Sorting.InOrder larger fun c d => c.source < d.source) := by
    rw [List.pairwise_map]
    refine ((ordered_inOrder hn).filter _).imp_of_mem fun {c d} hc hd h => ?_
    have hk : keep c.source := by simpa using (List.mem_filter.mp hc).2
    exact h.imp_right fun h => ⟨h.1,Nat.count_strict_mono hk h.2⟩
  have hp : (ordered (part keep subpaths)).Perm
      (((ordered subpaths).filter fun c => keep c.source).map
        (Candidate.moved (Nat.count keep))) := by
    refine (Sorting.sort_perm larger _).trans ?_
    have hc := candidatesFrom_part keep 0 subpaths
    rw [Nat.count_zero] at hc
    rw [part,hc]
    exact (((Sorting.sort_perm larger _).filter _).map _).symm
  exact eq_of_inOrder hp hs hr

variable {keep} in
theorem resolve_part_eq (hn : ∀ ps ∈ subpaths, ∀ b ∈ Bounds.around? ps, b.area.isNaN = false)
    (hk : KeepsContainers keep subpaths) :
    resolve (part keep subpaths) =
      ((resolve subpaths).filter fun p => keep p.source).map (moved (Nat.count keep)) := by
  have hc : ∀ d ∈ ordered subpaths, ∀ c ∈ ordered subpaths,
      d.bounds.contains c.bounds → keep c.source → keep d.source := by
    intro d hd c hc
    have hd := mem_ordered.mp hd
    have hc := mem_ordered.mp hc
    exact hk _ (mem_zipIdx_of_mem_candidatesFrom hd) _ (mem_zipIdx_of_mem_candidatesFrom hc)
      _ (around?_of_mem_candidatesFrom hd) _ (around?_of_mem_candidatesFrom hc)
  have hl : ∀ p ∈ ([] : List (Polygon Float)), ∀ c ∈ ordered subpaths,
      p.bounds.contains c.bounds → keep c.source → keep p.source := by simp
  calc resolve (part keep subpaths)
      = placeAll [] (((ordered subpaths).filter fun c => keep c.source).map
          (Candidate.moved (Nat.count keep))) := by rw [resolve,ordered_part keep hn]
    _ = (placeAll [] ((ordered subpaths).filter fun c => keep c.source)).map
          (moved (Nat.count keep)) := placeAll_moved _ [] _
    _ = ((resolve subpaths).filter fun p => keep p.source).map (moved (Nat.count keep)) :=
        congrArg _ (placeAll_filter keep hl hc)

/-- Outlines that are nested together with others lie at the levels, in the roles and in the
order in which they are nested alone, if the part that they are has all containers of its own. So
nothing changes for outlines when others are added whose boxes hold none of theirs. -/
theorem resolve_part (hn : ∀ ps ∈ subpaths, ∀ b ∈ Bounds.around? ps, b.area.isNaN = false) :
    (∀ (keep : ℕ → Prop) [DecidablePred keep], KeepsContainers keep subpaths →
      resolve (part keep subpaths) =
        ((resolve subpaths).filter fun p => keep p.source).map (moved (Nat.count keep))) ∧
    ∀ (added : ℕ → Prop) [DecidablePred added],
      (∀ x ∈ subpaths.zipIdx, added x.2 → ∀ y ∈ subpaths.zipIdx, ¬added y.2 →
        ∀ b ∈ Bounds.around? x.1, ∀ c ∈ Bounds.around? y.1, ¬b.contains c) →
      resolve (part (¬added ·) subpaths) =
        ((resolve subpaths).filter fun p => ¬added p.source).map
          (moved (Nat.count (¬added ·))) := by
  refine ⟨fun keep _ hk => resolve_part_eq hn hk,fun added _ ha => resolve_part_eq hn ?_⟩
  intro x hx y hy b hb c hc hbc hy' hx'
  exact ha x hx hx' y hy hy' b hb c hc hbc

/-- A square with two holes that have one box, and an outline without points. Another square of
the same area comes before them and the hole of that one between them. -/
def twoSquares : List (List (Point Float)) :=
  [[⟨20,0⟩,⟨30,0⟩,⟨30,10⟩,⟨20,10⟩],[⟨0,0⟩,⟨10,0⟩,⟨10,10⟩,⟨0,10⟩],[⟨2,2⟩,⟨8,2⟩,⟨8,8⟩,⟨2,8⟩],
    [⟨22,2⟩,⟨28,2⟩,⟨28,8⟩,⟨22,8⟩],[],[⟨2,2⟩,⟨8,8⟩,⟨2,8⟩]]

theorem resolve_part_twoSquares :
    (resolve twoSquares).map (fun p => (p.source,p.level)) = [(0,0),(1,0),(2,1),(3,1),(5,2)] ∧
      (∀ ps ∈ twoSquares, ∀ b ∈ Bounds.around? ps, b.area.isNaN = false) ∧
      KeepsContainers (fun i => i ≠ 0 ∧ i ≠ 3) twoSquares ∧
      resolve (part (fun i => i ≠ 0 ∧ i ≠ 3) twoSquares) =
        ((resolve twoSquares).filter fun p => p.source ≠ 0 ∧ p.source ≠ 3).map
          (moved (Nat.count fun i => i ≠ 0 ∧ i ≠ 3)) ∧
      (∀ x ∈ twoSquares.zipIdx, x.2 = 3 → ∀ y ∈ twoSquares.zipIdx, ¬y.2 = 3 →
        ∀ b ∈ Bounds.around? x.1, ∀ c ∈ Bounds.around? y.1, ¬b.contains c) ∧
      resolve (part (fun i => ¬i = 3) twoSquares) =
        ((resolve twoSquares).filter fun p => ¬p.source = 3).map
          (moved (Nat.count fun i => ¬i = 3)) := by
  have hn : ∀ ps ∈ twoSquares, ∀ b ∈ Bounds.around? ps, b.area.isNaN = false := by
    decide +kernel
  have hk : KeepsContainers (fun i => i ≠ 0 ∧ i ≠ 3) twoSquares := by decide +kernel
  have ha : ∀ x ∈ twoSquares.zipIdx, x.2 = 3 → ∀ y ∈ twoSquares.zipIdx, ¬y.2 = 3 →
      ∀ b ∈ Bounds.around? x.1, ∀ c ∈ Bounds.around? y.1, ¬b.contains c := by
    decide +kernel
  exact ⟨by decide +kernel,hn,hk,(resolve_part hn).1 _ hk,ha,(resolve_part hn).2 (· = 3) ha⟩

end Ordering

end Nesting
end ExtrusionProfile
