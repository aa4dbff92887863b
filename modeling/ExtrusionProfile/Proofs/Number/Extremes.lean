import ExtrusionProfile.Proofs.Number.Order
import Mathlib

/-! The least and the greatest of some doubles. Of two doubles the one with the lesser key is picked,
and the keys tell all doubles apart, 0 from -0 as well. So the order of the doubles does not matter,
nor how often one of them occurs, and what is no number comes before all numbers. -/
namespace ExtrusionProfile
namespace Binary64

section Picks

variable {β γ : Type} [LinearOrder γ] {pick : β → β → β} {key : β → γ} {x y z : β} {xs ys : List β}

/-- An operation that gives the one of two with the lesser key. -/
structure Picks (pick : β → β → β) (key : β → γ) : Prop where
  eq_or (x y : β) : pick x y = x ∨ pick x y = y
  key_le (x y : β) : key (pick x y) ≤ key x ∧ key (pick x y) ≤ key y

namespace Picks

theorem foldl_mem (h : Picks pick key) (x : β) (xs : List β) : xs.foldl pick x ∈ x::xs := by
  induction xs generalizing x with
  | nil => exact List.mem_singleton_self x
  | cons y ys ih =>
    rcases List.mem_cons.mp (ih (pick x y)) with he | hm
    · rw [List.foldl_cons,he]
      rcases h.eq_or x y with hx | hy
      · rw [hx]
        exact List.mem_cons_self
      · rw [hy]
        exact List.mem_cons_of_mem x List.mem_cons_self
    · exact List.mem_cons_of_mem x (List.mem_cons_of_mem y hm)

theorem key_foldl_le (h : Picks pick key) : ∀ y ∈ x::xs, key (xs.foldl pick x) ≤ key y := by
  induction xs generalizing x with
  | nil => simp
  | cons y ys ih =>
    obtain ⟨hx,hy⟩ := h.key_le x y
    have hl := ih (x:=pick x y) _ List.mem_cons_self
    rw [List.foldl_cons,List.forall_mem_cons,List.forall_mem_cons]
    exact ⟨hl.trans hx,hl.trans hy,fun w hw => ih w (List.mem_cons_of_mem _ hw)⟩

/-- What is picked of some members depends on nothing but which members there are. -/
theorem foldl_eq (h : Picks pick key) (hk : Function.Injective key)
    (hm : ∀ z, z ∈ x::xs ↔ z ∈ y::ys) : xs.foldl pick x = ys.foldl pick y :=
  hk (le_antisymm (h.key_foldl_le _ ((hm _).mpr (h.foldl_mem y ys)))
    (h.key_foldl_le _ ((hm _).mp (h.foldl_mem x xs))))

end Picks

theorem foldl_iff {R : β → Prop} (h : ∀ x y, R (pick x y) ↔ R x ∧ R y) :
    R (xs.foldl pick x) ↔ ∀ y ∈ x::xs, R y := by
  induction xs generalizing x with
  | nil => simp
  | cons y ys ih => rw [List.foldl_cons,ih,List.forall_mem_cons,h,List.forall_mem_cons,
      List.forall_mem_cons,and_assoc]

end Picks

section Key

/-- The rank of a double and then its sign; `c` is the class of what is no number. -/
def keyWith (c : ℤ) (x : Float) : Rank ×ₗ ℕ :=
  if x.isNaN then toLex (toLex (c,toLex (0,0)),0)
  else toLex (rank x,if isNegative x then 0 else 1)

variable {c : ℤ} {x y z : Float}

theorem class_rank (x : Float) : -2 ≤ (ofLex (rank x)).1 ∧ (ofLex (rank x)).1 ≤ 2 := by
  unfold rank
  rcases x.toModel.unpack with s | _ | s | ⟨s,m,e,h⟩ <;> (try cases s) <;> simp [rankOf]

open Float.Model in
theorem rankOf_within (u : UnpackedFloat) :
    rankOf (.infinity .negative) ≤ rankOf u ∧ rankOf u ≤ rankOf (.infinity .positive) := by
  rcases u with s | _ | s | ⟨s,m,e,h⟩ <;> (try cases s) <;>
    simp [rankOf,Prod.Lex.toLex_le_toLex]

open Float.Model in
theorem rankOf_of_isFinite {u : UnpackedFloat} (h : u.isFinite) :
    rankOf (.infinity .negative) < rankOf u ∧ rankOf u < rankOf (.infinity .positive) := by
  rcases u with s | _ | s | ⟨s,m,e,_⟩
  · cases h
  · cases h
  · simp [rankOf,Prod.Lex.toLex_lt_toLex]
  · cases s <;> simp [rankOf,Prod.Lex.toLex_lt_toLex]

theorem isFinite_of_lt_of_lt (h : x < y) (h' : y < z) : y.isFinite := by
  obtain ⟨-,hn,hl⟩ := lt_iff.mp h
  obtain ⟨-,-,hu⟩ := lt_iff.mp h'
  change y.toModel.unpack.isNaN = false at hn
  change y.toModel.unpack.isFinite
  unfold rank at hl hu
  cases hy : y.toModel.unpack with
  | infinity s =>
    rw [hy] at hl hu
    cases s with
    | negative => exact absurd hl (not_lt.mpr (rankOf_within _).1)
    | positive => exact absurd hu (not_lt.mpr (rankOf_within _).2)
  | notANumber => rw [hy] at hn; cases hn
  | zero s => rfl
  | finite s m e h => rfl

theorem eq_of_beq (h : x == y) (hs : isNegative x = isNegative y) : x = y := by
  obtain ⟨-,-,rfl | ⟨rfl,rfl⟩ | ⟨rfl,rfl⟩⟩ := Float.beq_iff_ne_nan_and_eq.mp h
  · rfl
  · exact absurd hs (by decide)
  · exact absurd hs (by decide)

theorem eq_of_isNaN (hx : x.isNaN) (hy : y.isNaN) : x = y := by
  rw [Float.isNaN_eq_decide_eq_nan,decide_eq_true_eq] at hx hy
  rw [hx,hy]

theorem keyWith_of_isNaN (h : x.isNaN) : keyWith c x = toLex (toLex (c,toLex (0,0)),0) := if_pos h

theorem keyWith_of_number (h : x.isNaN = false) :
    keyWith c x = toLex (rank x,if isNegative x then 0 else 1) :=
  if_neg (Bool.eq_false_iff.mp h)

theorem keyWith_ne (hc : c < -2 ∨ 2 < c) (hx : x.isNaN) (hy : y.isNaN = false) :
    keyWith c x ≠ keyWith c y := by
  rw [keyWith_of_isNaN hx,keyWith_of_number hy]
  intro h
  have he := congrArg (fun k => (ofLex (ofLex k).1).1) h
  have hr := class_rank y
  change c = (ofLex (rank y)).1 at he
  omega

theorem keyWith_injective (hc : c < -2 ∨ 2 < c) : Function.Injective (keyWith c) := by
  intro x y h
  cases hx : x.isNaN with
  | true =>
    cases hy : y.isNaN with
    | true => exact eq_of_isNaN hx hy
    | false => exact absurd h (keyWith_ne hc hx hy)
  | false =>
    cases hy : y.isNaN with
    | true => exact absurd h.symm (keyWith_ne hc hy hx)
    | false =>
      rw [keyWith_of_number hx,keyWith_of_number hy,toLex_inj,Prod.mk.injEq] at h
      refine eq_of_beq (beq_iff.mpr ⟨hx,hy,h.1⟩) ?_
      cases hs : isNegative x <;> cases hs' : isNegative y <;> simp_all

theorem keyWith_lt_of_lt (h : x < y) : keyWith c x < keyWith c y := by
  obtain ⟨hx,hy,hr⟩ := lt_iff.mp h
  rw [keyWith_of_number hx,keyWith_of_number hy,Prod.Lex.toLex_lt_toLex]
  exact .inl hr

theorem rank_eq_of_not_lt (hx : x.isNaN = false) (hy : y.isNaN = false) (h : ¬x < y)
    (h' : ¬y < x) : rank x = rank y := by
  rw [lt_iff] at h h'
  exact le_antisymm (not_lt.mp fun hr => h' ⟨hy,hx,hr⟩) (not_lt.mp fun hr => h ⟨hx,hy,hr⟩)

/-- Of two equal numbers, one with a minus sign comes first. -/
theorem keyWith_le_of_rank (hx : x.isNaN = false) (hy : y.isNaN = false) (hr : rank x = rank y)
    (hs : isNegative y → isNegative x) : keyWith c x ≤ keyWith c y := by
  rw [keyWith_of_number hx,keyWith_of_number hy,Prod.Lex.toLex_le_toLex]
  refine .inr ⟨hr,?_⟩
  by_cases hn : isNegative y
  · simp only [if_pos (hs hn),Nat.zero_le]
  · simp only [if_neg hn]
    split_ifs <;> decide

theorem keyWith_le_of_isNaN (hc : c < -2) (hx : x.isNaN) (y : Float) : keyWith c x ≤ keyWith c y := by
  cases hy : y.isNaN with
  | true => rw [eq_of_isNaN hx hy]
  | false =>
    rw [keyWith_of_isNaN hx,keyWith_of_number hy,Prod.Lex.toLex_le_toLex,Prod.Lex.lt_iff]
    exact .inl (.inl (hc.trans_le (class_rank y).1))

theorem keyWith_ge_of_isNaN (hc : 2 < c) (hx : x.isNaN) (y : Float) : keyWith c y ≤ keyWith c x := by
  cases hy : y.isNaN with
  | true => rw [eq_of_isNaN hx hy]
  | false =>
    rw [keyWith_of_isNaN hx,keyWith_of_number hy,Prod.Lex.toLex_le_toLex,Prod.Lex.lt_iff]
    exact .inl (.inl ((class_rank y).2.trans_lt hc))

theorem picks_least : Picks least (keyWith (-3)) where
  eq_or := least_eq
  key_le x y := by
    unfold least
    split_ifs with h₁ h₂ h₃ h₄ h₅
    · exact ⟨le_rfl,keyWith_le_of_isNaN (by norm_num) h₁ y⟩
    · exact ⟨keyWith_le_of_isNaN (by norm_num) h₂ x,le_rfl⟩
    · exact ⟨le_rfl,(keyWith_lt_of_lt h₃).le⟩
    · exact ⟨(keyWith_lt_of_lt h₄).le,le_rfl⟩
    all_goals
      rw [Bool.not_eq_true] at h₁ h₂
      have hr := rank_eq_of_not_lt h₁ h₂ h₃ h₄
    · exact ⟨le_rfl,keyWith_le_of_rank h₁ h₂ hr fun _ => h₅⟩
    · exact ⟨keyWith_le_of_rank h₂ h₁ hr.symm fun h => absurd h h₅,le_rfl⟩

theorem picks_greatest : Picks greatest (OrderDual.toDual ∘ keyWith 3) where
  eq_or := greatest_eq
  key_le x y := by
    unfold greatest
    simp only [Function.comp_apply,OrderDual.toDual_le_toDual]
    split_ifs with h₁ h₂ h₃ h₄ h₅
    · exact ⟨le_rfl,keyWith_ge_of_isNaN (by norm_num) h₁ y⟩
    · exact ⟨keyWith_ge_of_isNaN (by norm_num) h₂ x,le_rfl⟩
    · exact ⟨le_rfl,(keyWith_lt_of_lt h₃).le⟩
    · exact ⟨(keyWith_lt_of_lt h₄).le,le_rfl⟩
    all_goals
      rw [Bool.not_eq_true] at h₁ h₂
      have hr := rank_eq_of_not_lt h₁ h₂ h₄ h₃
    · exact ⟨keyWith_le_of_rank h₁ h₂ hr fun _ => h₅,le_rfl⟩
    · exact ⟨le_rfl,keyWith_le_of_rank h₂ h₁ hr.symm fun h => absurd h h₅⟩

end Key

section Extremes

variable {x y z : Float} {xs ys : List Float}

theorem not_le_of_isNaN (hx : x.isNaN) : ¬x ≤ y ∧ ¬y ≤ x := by
  rw [le_iff,le_iff,hx]
  simp

theorem lt_trans_le (h : x < y) (h' : y ≤ z) : x < z := by
  rw [lt_iff] at h ⊢
  rw [le_iff] at h'
  exact ⟨h.1,h'.2.1,h.2.2.trans_le h'.2.2⟩

theorem le_trans_lt (h : x ≤ y) (h' : y < z) : x < z := by
  rw [lt_iff] at h' ⊢
  rw [le_iff] at h
  exact ⟨h.1,h'.2.1,h.2.2.trans_lt h'.2.2⟩

theorem within_infinity (hx : x.isFinite) : -1/0 < x ∧ x < 1/0 := by
  have hn := isNaN_of_isFinite hx
  obtain ⟨hl,hu⟩ := rankOf_of_isFinite hx
  exact ⟨lt_iff.mpr ⟨rfl,hn,hl⟩,lt_iff.mpr ⟨hn,rfl,hu⟩⟩

theorem least_of_lt (h : y < x) : least x y = y := by
  obtain ⟨hy,hx,hr⟩ := lt_iff.mp h
  have hn : ¬x < y := fun h' => hr.not_gt (lt_iff.mp h').2.2
  rw [least,hx,hy,if_neg Bool.false_ne_true,if_neg Bool.false_ne_true,if_neg hn,if_pos h]

theorem greatest_of_lt (h : x < y) : greatest x y = y := by
  obtain ⟨hx,hy,hr⟩ := lt_iff.mp h
  have hn : ¬y < x := fun h' => hr.not_gt (lt_iff.mp h').2.2
  rw [greatest,hx,hy,if_neg Bool.false_ne_true,if_neg Bool.false_ne_true,if_neg hn,if_pos h]

theorem le_self_iff : x ≤ x ↔ x.isNaN = false := ⟨fun h => (le_iff.mp h).1,le_self⟩

theorem le_least_iff : z ≤ least x y ↔ z ≤ x ∧ z ≤ y := by
  unfold least
  split_ifs with h₁ h₂ h₃ h₄ h₅
  · exact iff_of_false (not_le_of_isNaN h₁).2 fun h => (not_le_of_isNaN h₁).2 h.1
  · exact iff_of_false (not_le_of_isNaN h₂).2 fun h => (not_le_of_isNaN h₂).2 h.2
  · exact ⟨fun h => ⟨h,le_trans h (le_of_lt h₃)⟩,And.left⟩
  · exact ⟨fun h => ⟨le_trans h (le_of_lt h₄),h⟩,And.right⟩
  all_goals rw [Bool.not_eq_true] at h₁ h₂
  · exact ⟨fun h => ⟨h,le_trans h (le_of_not_lt h₁ h₂ h₄)⟩,And.left⟩
  · exact ⟨fun h => ⟨le_trans h (le_of_not_lt h₂ h₁ h₃),h⟩,And.right⟩

theorem greatest_le_iff : greatest x y ≤ z ↔ x ≤ z ∧ y ≤ z := by
  unfold greatest
  split_ifs with h₁ h₂ h₃ h₄ h₅
  · exact iff_of_false (not_le_of_isNaN h₁).1 fun h => (not_le_of_isNaN h₁).1 h.1
  · exact iff_of_false (not_le_of_isNaN h₂).1 fun h => (not_le_of_isNaN h₂).1 h.2
  · exact ⟨fun h => ⟨h,le_trans (le_of_lt h₃) h⟩,And.left⟩
  · exact ⟨fun h => ⟨le_trans (le_of_lt h₄) h,h⟩,And.right⟩
  all_goals rw [Bool.not_eq_true] at h₁ h₂
  · exact ⟨fun h => ⟨le_trans (le_of_not_lt h₁ h₂ h₃) h,h⟩,And.right⟩
  · exact ⟨fun h => ⟨h,le_trans (le_of_not_lt h₂ h₁ h₄) h⟩,And.left⟩

theorem isNaN_least : (least x y).isNaN = false ↔ x.isNaN = false ∧ y.isNaN = false := by
  unfold least
  split_ifs <;> simp_all

theorem isNaN_greatest : (greatest x y).isNaN = false ↔ x.isNaN = false ∧ y.isNaN = false := by
  unfold greatest
  split_ifs <;> simp_all

/-- A lower bound of the least of some doubles is a lower bound of each of them. -/
theorem le_foldl_least_iff : z ≤ xs.foldl least x ↔ ∀ y ∈ x::xs, z ≤ y :=
  foldl_iff fun _ _ => le_least_iff

theorem foldl_greatest_le_iff : xs.foldl greatest x ≤ z ↔ ∀ y ∈ x::xs, y ≤ z :=
  foldl_iff (R:=(· ≤ z)) fun _ _ => greatest_le_iff

theorem isNaN_foldl_least :
    (xs.foldl least x).isNaN = false ↔ ∀ y ∈ x::xs, y.isNaN = false :=
  foldl_iff (R:=fun v : Float => v.isNaN = false) fun _ _ => isNaN_least

theorem isNaN_foldl_greatest :
    (xs.foldl greatest x).isNaN = false ↔ ∀ y ∈ x::xs, y.isNaN = false :=
  foldl_iff (R:=fun v : Float => v.isNaN = false) fun _ _ => isNaN_greatest

theorem foldl_least_eq (h : ∀ z, z ∈ x::xs ↔ z ∈ y::ys) : xs.foldl least x = ys.foldl least y :=
  picks_least.foldl_eq (keyWith_injective (by norm_num)) h

theorem foldl_greatest_eq (h : ∀ z, z ∈ x::xs ↔ z ∈ y::ys) :
    xs.foldl greatest x = ys.foldl greatest y :=
  picks_greatest.foldl_eq (OrderDual.toDual.injective.comp (keyWith_injective (by norm_num))) h

end Extremes
end Binary64
end ExtrusionProfile
