import ExtrusionProfile.Nesting.Sorting
import Mathlib.Data.List.Basic

/-! The stable sort. As long as no two members escape comparison, `Sorting.sort` puts a list
in order, and members that tie keep the order they came in. -/
namespace ExtrusionProfile
namespace Sorting

variable {β : Type} {before : β → β → Bool} {P : β → Prop} {earlier : β → β → Prop}

/-- A strict order of the members with `P` in which a tie is an equivalence. -/
structure StrictWeak (before : β → β → Bool) (P : β → Prop) : Prop where
  asymm : ∀ {x y}, P x → P y → before x y → ¬before y x
  between : ∀ {x y z}, P x → P y → P z → before x z → before x y ∨ before y z

/-- `x` belongs in front of `y`: it comes before it, or it ties with it and was earlier. -/
def InOrder (before : β → β → Bool) (earlier : β → β → Prop) (x y : β) : Prop :=
  before x y ∨ ¬before y x ∧ earlier x y

namespace StrictWeak

theorem trans (w : StrictWeak before P) {x y z : β} (hx : P x) (hy : P y) (hz : P z)
    (h : before x y) (h' : before y z) : before x z :=
  (w.between hx hz hy h).resolve_right (w.asymm hy hz h')

theorem not_trans (w : StrictWeak before P) {x y z : β} (hx : P x) (hy : P y) (hz : P z)
    (h : ¬before y x) (h' : ¬before z y) : ¬before z x :=
  fun hl => (w.between hz hy hx hl).elim h' h

theorem not_of_inOrder (w : StrictWeak before P) {x y : β} (hx : P x) (hy : P y)
    (h : InOrder before earlier x y) : ¬before y x :=
  h.elim (w.asymm hx hy) And.left

theorem before_of_mem (w : StrictWeak before P) {x m : β} {r : List β} (hx : P x)
    (hp : ∀ y ∈ m::r, P y) (hs : (m::r).Pairwise fun a b => ¬before b a) (h : before x m) :
    ∀ b ∈ m::r, before x b := by
  obtain ⟨hm,hr⟩ := List.forall_mem_cons.mp hp
  refine List.forall_mem_cons.mpr ⟨h,fun b hb => ?_⟩
  exact (w.between hx (hr b hb) hm h).resolve_right ((List.pairwise_cons.mp hs).1 b hb)

/-- A member goes behind all that it need not precede and in front of all that it precedes.
The induction is on the number of halvings. -/
theorem insertWithin_split (w : StrictWeak before P) {x : β} (hx : P x) {n : ℕ} (ys : List β)
    (hl : ys.length ≤ n) (hp : ∀ y ∈ ys, P y) (hs : ys.Pairwise fun a b => ¬before b a) :
    ∃ as bs, as ++ bs = ys ∧ insertWithin before x n ys = as ++ x::bs ∧
      (∀ a ∈ as, ¬before x a) ∧ ∀ b ∈ bs, before x b := by
  induction n generalizing ys with
  | zero =>
    obtain rfl : ys = [] := List.length_eq_zero_iff.mp (by omega)
    exact ⟨[],[],rfl,rfl,by simp,by simp⟩
  | succ n ih =>
    have hys := List.take_append_drop (ys.length/2) ys
    cases hd : ys.drop (ys.length/2) with
    | nil =>
      obtain rfl := eq_nil_of_drop_half hd
      exact ⟨[],[],rfl,by simp [insertWithin],by simp,by simp⟩
    | cons m r =>
      rw [hd] at hys
      have hlen := congrArg List.length hys
      simp only [List.length_append,List.length_cons,List.length_take] at hlen
      rw [← hys] at hp hs
      obtain ⟨hpt,hpr⟩ := List.forall_mem_append.mp hp
      obtain ⟨hst,hsr,hsm⟩ := List.pairwise_append.mp hs
      simp only [insertWithin,hd]
      split
      · rename_i hxm
        obtain ⟨as,bs,he,hi,ha,hb⟩ := ih _ (by simp; omega) hpt hst
        refine ⟨as,bs ++ m::r,by rw [← List.append_assoc,he,hys],by simp [hi],ha,?_⟩
        exact List.forall_mem_append.mpr ⟨hb,w.before_of_mem hx hpr hsr hxm⟩
      · rename_i hxm
        obtain ⟨hm,hpr⟩ := List.forall_mem_cons.mp hpr
        obtain ⟨as,bs,he,hi,ha,hb⟩ := ih r (by omega) hpr (List.pairwise_cons.mp hsr).2
        refine ⟨ys.take (ys.length/2) ++ m::as,bs,by rw [List.append_assoc,List.cons_append,he,hys],
          by simp [hi],?_,hb⟩
        have ht : ∀ a ∈ ys.take (ys.length/2), ¬before x a := fun a h =>
          w.not_trans (hpt a h) hm hx (hsm a h m (by simp)) hxm
        exact List.forall_mem_append.mpr ⟨ht,List.forall_mem_cons.mpr ⟨hxm,ha⟩⟩

theorem insert_inOrder (w : StrictWeak before P) {x : β} (hx : P x) {ys : List β}
    (hp : ∀ y ∈ ys, P y) (hs : ys.Pairwise (InOrder before earlier))
    (he : ∀ y ∈ ys, earlier y x) : (insert before ys x).Pairwise (InOrder before earlier) := by
  obtain ⟨as,bs,rfl,hi,ha,hb⟩ := w.insertWithin_split hx ys (Nat.le_refl ys.length) hp
    (hs.imp_of_mem fun h h' => w.not_of_inOrder (hp _ h) (hp _ h'))
  rw [insert,hi]
  obtain ⟨hsa,hsb,hab⟩ := List.pairwise_append.mp hs
  refine List.pairwise_append.mpr ⟨hsa,List.pairwise_cons.mpr ⟨fun b h => .inl (hb b h),hsb⟩,?_⟩
  intro a h b h'
  rcases List.mem_cons.mp h' with rfl | h'
  · exact .inr ⟨ha a h,he a (by simp [h])⟩
  · exact hab a h b h'

theorem foldl_insert_inOrder (w : StrictWeak before P) {xs ys : List β}
    (hp : ∀ y ∈ ys ++ xs, P y) (hs : ys.Pairwise (InOrder before earlier))
    (he : xs.Pairwise earlier) (hyx : ∀ y ∈ ys, ∀ x ∈ xs, earlier y x) :
    (xs.foldl (insert before) ys).Pairwise (InOrder before earlier) := by
  induction xs generalizing ys with
  | nil => exact hs
  | cons x xs ih =>
    have hm : ∀ y, y ∈ insert before ys x ↔ y ∈ x::ys := fun y =>
      (insertWithin_perm before x ys.length ys).mem_iff
    obtain ⟨hx,he⟩ := List.pairwise_cons.mp he
    refine ih ?_ (w.insert_inOrder (hp x (by simp)) (fun y hy => hp y (by simp [hy])) hs
      fun y hy => hyx y hy x (by simp)) he ?_
    · intro y hy
      apply hp
      simp only [List.mem_append,hm,List.mem_cons] at hy ⊢
      tauto
    · intro y hy z hz
      rcases List.mem_cons.mp ((hm y).mp hy) with rfl | hy
      · exact hx z hz
      · exact hyx y hy z (by simp [hz])

end StrictWeak

theorem runBehind_pairwise (ok : β → β → Bool) (R : β → β → Prop)
    (hok : ∀ {x y}, ok x y → R x y)
    (htrans : ∀ {x y z}, P x → P y → P z → R x y → R y z → R x z) {x : β} {ys : List β}
    (hp : ∀ y ∈ x::ys, P y) : (x::(runBehind ok x ys).1).Pairwise R := by
  induction ys generalizing x with
  | nil => simp [runBehind]
  | cons y ys ih =>
    simp only [runBehind]
    split
    · rename_i hxy
      have hy := ih (x:=y) (fun z hz => hp z (by simp at hz ⊢; tauto))
      refine List.pairwise_cons.mpr ⟨?_,hy⟩
      intro z hz
      rcases List.mem_cons.mp hz with rfl | hz
      · exact hok hxy
      · have hm : z ∈ y::ys := by
          rw [← runBehind_append ok y ys]; simp [hz]
        exact htrans (hp x (by simp)) (hp y (by simp)) (hp z (by simp at hm ⊢; tauto)) (hok hxy)
          ((List.pairwise_cons.mp hy).1 z hz)
    · simp

theorem StrictWeak.firstRun_inOrder (w : StrictWeak before P) {xs : List β}
    (hp : ∀ x ∈ xs, P x) (he : xs.Pairwise earlier) :
    ∃ run, run ++ (firstRun before xs).2 = xs ∧ (∀ x, x ∈ (firstRun before xs).1 ↔ x ∈ run) ∧
      (firstRun before xs).1.Pairwise (InOrder before earlier) := by
  match xs with
  | [] => exact ⟨[],rfl,fun _ => Iff.rfl,.nil⟩
  | [x] => exact ⟨[x],rfl,fun _ => Iff.rfl,List.pairwise_singleton _ _⟩
  | x::y::ys =>
    simp only [firstRun]
    split
    · have h := runBehind_append (fun a b => before b a) x (y::ys)
      have hr := runBehind_pairwise (fun a b => before b a) (fun a b => before b a) id
        (fun hx hy hz h h' => w.trans hz hy hx h' h) hp
      refine ⟨x::(runBehind (fun a b => before b a) x (y::ys)).1,by simp [h],by simp [or_comm],?_⟩
      exact (List.pairwise_reverse.mpr hr).imp .inl
    · have h := runBehind_append (fun a b => !before b a) x (y::ys)
      have hr := runBehind_pairwise (fun a b => !before b a) (fun a b => ¬before b a)
        (by simp) (fun hx hy hz h h' => w.not_trans hx hy hz h h') hp
      have hs : x::(runBehind (fun a b => !before b a) x (y::ys)).1 <+: x::y::ys :=
        ⟨_,by rw [List.cons_append,h]⟩
      refine ⟨_,by rw [List.cons_append,h],fun _ => Iff.rfl,?_⟩
      exact (hr.and (he.sublist hs.sublist)).imp .inr

theorem StrictWeak.sort_inOrder (w : StrictWeak before P) {xs : List β}
    (hp : ∀ x ∈ xs, P x) (he : xs.Pairwise earlier) :
    (sort before xs).Pairwise (InOrder before earlier) := by
  obtain ⟨run,hr,hm,ho⟩ := w.firstRun_inOrder hp he
  rw [← hr] at he
  obtain ⟨_,he,hc⟩ := List.pairwise_append.mp he
  refine w.foldl_insert_inOrder ?_ ho he fun y hy x hx => hc y ((hm y).mp hy) x hx
  intro y hy
  apply hp
  rw [← hr]
  simpa [hm] using hy

end Sorting
end ExtrusionProfile
