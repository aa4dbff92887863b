import ExtrusionProfile.Fit.Rings
import ExtrusionProfile.Proofs.Fit.Clean
import Mathlib.Data.List.Forall2

/-! Rings as parts of subpaths. Each stage of fitting leaves points out and does nothing else to
them, so a ring consists of transformed points of one subpath, from its first one on and in its
order. Rings come in the order of their subpaths, and in a declared frame no subpath has a part
in the ring of another one. -/
namespace ExtrusionProfile

variable {α : Type} [Scalar α]

namespace Simplify

/-- A simplifier only leaves points out, and neither the first nor the last one. -/
structure Faithful (simplify : Simplifier α) : Prop where
  sublist : ∀ tolerance ps, (simplify tolerance ps).Sublist ps
  head : ∀ tolerance ps, (simplify tolerance ps).head? = ps.head?
  last : ∀ tolerance ps, (simplify tolerance ps).getLast? = ps.getLast?

theorem between_sublist (bound : α) (a b : Point α) (ps : List (Point α)) :
    (between bound a b ps).Sublist ps := by
  fun_induction between bound a b ps with
  | case1 a b ps h => exact List.nil_sublist ps
  | case2 a b ps c h hl hb ha before after =>
    rw [eq_of_farthest? h]
    exact before.append (after.cons_cons c.point)

theorem line_faithful : Faithful (line : Simplifier α) where
  sublist tolerance ps := by
    match ps with
    | [] | [_] => exact List.Sublist.refl _
    | a::b::r =>
      have hr : (b::r).dropLast ++ [r.getLastD b] = b::r := by
        simpa only [List.getLast_eq_getLastD] using
          List.dropLast_append_getLast (List.cons_ne_nil b r)
      have hs := (between_sublist (tolerance*tolerance) a (r.getLastD b) (b::r).dropLast).append_right
        [r.getLastD b]
      rw [hr] at hs
      exact hs.cons_cons a
  head tolerance ps := by
    match ps with
    | [] | [_] | _::_::_ => rfl
  last tolerance ps := by
    match ps with
    | [] | [_] => rfl
    | a::b::r => simp [line,List.getLast?_cons]

variable {simplify : Simplifier α} (tolerance : α) (ps : List (Point α))

theorem Faithful.ringBy_sublist (h : Faithful simplify) :
    (ringBy simplify tolerance ps).Sublist ps := by
  unfold ringBy
  split_ifs
  · exact List.Sublist.refl ps
  · exact h.sublist tolerance ps

theorem Faithful.head?_ringBy (h : Faithful simplify) :
    (ringBy simplify tolerance ps).head? = ps.head? := by
  unfold ringBy
  split_ifs
  · rfl
  · exact h.head tolerance ps

end Simplify

variable [Root α]

namespace Clean

variable (epsilon : α) (ps : List (Point α))

/-- What thinning leaves of some points, less a closing one. -/
def left : List (Point α) := unclose epsilon (thin epsilon ps)

theorem left_sublist : (left epsilon ps).Sublist ps := by
  have ht := thin_sublist epsilon ps
  unfold left
  rw [unclose_eq]
  split_ifs
  · exact (List.dropLast_sublist _).trans ht
  · exact ht

theorem head?_left : (left epsilon ps).head? = ps.head? := by
  have hu : ∀ qs : List (Point α), (unclose epsilon qs).head? = qs.head? := by
    intro qs
    match qs with
    | [] | [_] => rfl
    | p::q::qs =>
      simp only [unclose]
      split_ifs <;> rfl
  rw [left,hu,head?_thin]

end Clean

namespace Outline

variable {simplify : Simplifier α} {o : FitOptions α} {t : Transform α}

/-- A ring stands for a subpath: it has enough of the subpath's points, transformed, in their
order and with the first of them in front. -/
structure StandsFor (t : Transform α) (ps ring : List (Point α)) : Prop where
  sublist : ring.Sublist (t.applyAll ps)
  head : ring.head? = (t.applyAll ps).head?
  enough : 3 ≤ ring.length

/-- Cleaning leaves too few points of a subpath for a polygon, or simplification does. -/
def Lost (simplify : Simplifier α) (o : FitOptions α) (t : Transform α) (ps : List (Point α)) :
    Prop :=
  let cleaned := Clean.left o.epsilon (t.applyAll ps)
  cleaned.length < 3 ∨ (Simplify.ringBy simplify o.tolerance cleaned).length < 3

/-- The rings stand for the subpaths at some places, in this order; the others are lost. -/
structure Selection (simplify : Simplifier α) (o : FitOptions α) (t : Transform α)
    (subpaths rings : List (List (Point α))) (places : List ℕ) : Prop where
  increasing : places.Pairwise (· < ·)
  stands : List.Forall₂ (fun i ring => ∃ ps, subpaths[i]? = some ps ∧ StandsFor t ps ring)
    places rings
  lost : ∀ i ps, subpaths[i]? = some ps → (i ∉ places ↔ Lost simplify o t ps)

theorem ringBy?_eq_some_iff {ps ring : List (Point α)} :
    ringBy? simplify o t ps = some ring ↔
      3 ≤ (Clean.left o.epsilon (t.applyAll ps)).length ∧
        Simplify.ringBy simplify o.tolerance (Clean.left o.epsilon (t.applyAll ps)) = ring ∧
          3 ≤ ring.length := by
  by_cases h : Clean.fewest ≤ (Clean.left o.epsilon (t.applyAll ps)).length
  · have hc : Clean.ring? o.epsilon (t.applyAll ps) = some (Clean.left o.epsilon (t.applyAll ps)) :=
      if_pos h
    simp only [ringBy?,hc,Option.ite_none_right_eq_some,Option.some.injEq]
    constructor
    · rintro ⟨hl,rfl⟩
      exact ⟨h,rfl,hl⟩
    · rintro ⟨-,rfl,hl⟩
      exact ⟨hl,rfl⟩
  · have hc : Clean.ring? o.epsilon (t.applyAll ps) = none := if_neg h
    simp only [ringBy?,hc,reduceCtorEq,false_iff]
    exact fun hr => h hr.1

theorem ringBy?_eq_none_iff {ps : List (Point α)} :
    ringBy? simplify o t ps = none ↔ Lost simplify o t ps := by
  simp only [Option.eq_none_iff_forall_ne_some,ne_eq,ringBy?_eq_some_iff]
  constructor
  · intro h
    by_contra hl
    simp only [Lost,not_or,not_lt] at hl
    exact h _ ⟨hl.1,rfl,hl.2⟩
  · rintro hl ring ⟨hc,rfl,hr⟩
    rcases hl with hl | hl <;> omega

theorem standsFor_of_ringBy? (hs : Simplify.Faithful simplify) {ps ring : List (Point α)}
    (h : ringBy? simplify o t ps = some ring) : StandsFor t ps ring := by
  obtain ⟨-,rfl,hl⟩ := ringBy?_eq_some_iff.mp h
  constructor
  · exact (hs.ringBy_sublist _ _).trans (Clean.left_sublist _ _)
  · rw [hs.head?_ringBy,Clean.head?_left]
  · exact hl

theorem exists_places {β γ : Type} (f : β → Option γ) (xs : List β) :
    ∃ places : List ℕ, places.Pairwise (· < ·) ∧
      List.Forall₂ (fun i c => ∃ b, xs[i]? = some b ∧ f b = some c) places (xs.filterMap f) ∧
      ∀ i b, xs[i]? = some b → (i ∉ places ↔ f b = none) := by
  induction xs with
  | nil => exact ⟨[],.nil,.nil,by simp⟩
  | cons x xs ih =>
    obtain ⟨places,hi,hs,hl⟩ := ih
    have hi' : (places.map (·+1)).Pairwise (· < ·) :=
      hi.map _ fun _ _ h => Nat.succ_lt_succ h
    have hs' : List.Forall₂ (fun i c => ∃ b, (x::xs)[i]? = some b ∧ f b = some c)
        (places.map (·+1)) (xs.filterMap f) := by
      simpa only [List.forall₂_map_left_iff,List.getElem?_cons_succ] using hs
    cases hx : f x with
    | none =>
      refine ⟨places.map (·+1),hi',by simpa only [List.filterMap_cons,hx] using hs',?_⟩
      intro i b hb
      cases i with
      | zero =>
        obtain rfl : x = b := by simpa using hb
        simp [hx]
      | succ i => simpa using hl i b hb
    | some y =>
      refine ⟨0::places.map (·+1),List.pairwise_cons.mpr ⟨by simp,hi'⟩,?_,?_⟩
      · simpa only [List.filterMap_cons,hx] using List.Forall₂.cons ⟨x,rfl,hx⟩ hs'
      · intro i b hb
        cases i with
        | zero =>
          obtain rfl : x = b := by simpa using hb
          simp [hx]
        | succ i => simpa using hl i b hb

/-- Fitting leaves points and whole subpaths out and neither moves, reorders nor invents any. In
a declared frame the rings of subpaths are those of the first ones and of the last ones. -/
theorem ringsBy_selection (hs : Simplify.Faithful simplify) (o : FitOptions α)
    (outline : Outline α) :
    (∀ t, outline.fit? o.targetSize o.userScale = some t →
      ∃ places, Selection simplify o t outline.subpaths (outline.ringsBy simplify o) places) ∧
    ∀ as bs, outline.subpaths = as ++ bs → Scalar.lt Scalar.zero outline.viewBox.longerSide →
      outline.ringsBy simplify o =
        ({ outline with subpaths := as }).ringsBy simplify o ++
          ({ outline with subpaths := bs }).ringsBy simplify o := by
  constructor
  · intro t ht
    obtain ⟨places,hi,hst,hl⟩ := exists_places (ringBy? simplify o t) outline.subpaths
    refine ⟨places,hi,?_,fun i ps hp => (hl i ps hp).trans ringBy?_eq_none_iff⟩
    simp only [ringsBy,ht]
    refine hst.imp fun i ring => ?_
    rintro ⟨ps,hp,hr⟩
    exact ⟨ps,hp,standsFor_of_ringBy? hs hr⟩
  · intro as bs hab hv
    have hf : ∀ subpaths, ({ outline with subpaths := subpaths }).frame? = some outline.viewBox :=
      fun _ => if_pos hv
    obtain ⟨_,v⟩ := outline
    subst hab
    simp only [ringsBy,fit?,hf,Option.map_some,List.filterMap_append]

/-- A square that loses two points, a line that cleaning drops, a sliver that only simplification
drops, and a triangle. -/
def thinned : Outline Float :=
  ⟨[[⟨0,0⟩,⟨5,0.01⟩,⟨10,0⟩,⟨10,10⟩,⟨0,10⟩,⟨0,0⟩],[⟨0,0⟩,⟨9,9⟩],
    [⟨1,1⟩,⟨1.5,1.01⟩,⟨2,1⟩,⟨2.5,1.01⟩],[⟨4,4⟩,⟨6,4⟩,⟨5,6⟩]],⟨0,0,10,10⟩⟩

theorem ringsBy_selection_thinned :
    let o : FitOptions Float := { FitOptions.default with tolerance := 0.1 }
    (thinned.rings o).map List.length = [4,3] ∧
      Simplify.Faithful (Simplify.line : Simplifier Float) ∧
      (∃ t, thinned.fit? o.targetSize o.userScale = some t ∧
        ∃ places, Selection Simplify.line o t thinned.subpaths (thinned.rings o) places) ∧
      Scalar.lt Scalar.zero thinned.viewBox.longerSide ∧
      thinned.rings o =
        ({ thinned with subpaths := thinned.subpaths.take 2 }).rings o ++
          ({ thinned with subpaths := thinned.subpaths.drop 2 }).rings o := by
  intro o
  have hf : (thinned.fit? o.targetSize o.userScale).isSome := by decide +kernel
  obtain ⟨t,ht⟩ := Option.isSome_iff_exists.mp hf
  have hv : Scalar.lt Scalar.zero thinned.viewBox.longerSide := by decide +kernel
  have h := ringsBy_selection Simplify.line_faithful o thinned
  refine ⟨by decide +kernel,Simplify.line_faithful,⟨t,ht,h.1 t ht⟩,hv,?_⟩
  exact h.2 _ _ (List.take_append_drop 2 _).symm hv

end Outline
end ExtrusionProfile
