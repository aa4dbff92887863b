/-! Sorting by a strict order that may fail to compare some members. A run at the front that
is already in order, or in strictly reversed order, is taken over whole; every later member
is put behind the last member that it need not precede, found by halving. With a strict
weak order this is the stable sort. -/
namespace ExtrusionProfile
namespace Sorting

variable {β : Type}

/-- The longest beginning whose neighbours satisfy `ok`, behind `x`, and the rest. -/
def runBehind (ok : β → β → Bool) : β → List β → List β × List β
  | _,[] => ([],[])
  | x,y::ys =>
    if ok x y then (y::(runBehind ok y ys).1,(runBehind ok y ys).2) else ([],y::ys)

def firstRun (before : β → β → Bool) : List β → List β × List β
  | x::y::ys =>
    if before y x then
      let r := runBehind (fun a b => before b a) x (y::ys)
      ((x::r.1).reverse,r.2)
    else
      let r := runBehind (fun a b => !before b a) x (y::ys)
      (x::r.1,r.2)
  | xs => (xs,[])

/-- Insert by halving; `n` bounds the number of halvings. -/
def insertWithin (before : β → β → Bool) (x : β) : Nat → List β → List β
  | 0,ys => x::ys
  | n+1,ys =>
    match ys.drop (ys.length/2) with
    | [] => [x]
    | m::r =>
      if before x m then insertWithin before x n (ys.take (ys.length/2)) ++ m::r
      else ys.take (ys.length/2) ++ m::insertWithin before x n r

def insert (before : β → β → Bool) (ys : List β) (x : β) : List β :=
  insertWithin before x ys.length ys

def sort (before : β → β → Bool) (xs : List β) : List β :=
  (firstRun before xs).2.foldl (insert before) (firstRun before xs).1

theorem runBehind_append (ok : β → β → Bool) (x : β) (ys : List β) :
    (runBehind ok x ys).1 ++ (runBehind ok x ys).2 = ys := by
  induction ys generalizing x with
  | nil => rfl
  | cons y ys ih => simp only [runBehind]; split <;> simp [ih]

open List in
theorem firstRun_perm (before : β → β → Bool) (xs : List β) :
    (firstRun before xs).1 ++ (firstRun before xs).2 ~ xs := by
  match xs with
  | [] => exact .refl _
  | [x] => exact .refl _
  | x::y::ys =>
    have h₁ := runBehind_append (fun a b => before b a) x (y::ys)
    have h₂ := runBehind_append (fun a b => !before b a) x (y::ys)
    simp only [firstRun]
    split
    · refine .trans (.append_right _ (List.reverse_perm _)) ?_
      rw [List.cons_append,h₁]
    · rw [List.cons_append,h₂]

theorem eq_nil_of_drop_half {ys : List β} (h : ys.drop (ys.length/2) = []) : ys = [] := by
  have hl := congrArg List.length h
  rw [List.length_drop,List.length_nil] at hl
  exact List.length_eq_zero_iff.mp (by omega)

open List in
theorem insertWithin_perm (before : β → β → Bool) (x : β) (n : Nat) (ys : List β) :
    insertWithin before x n ys ~ x::ys := by
  induction n generalizing ys with
  | zero => exact .refl _
  | succ n ih =>
    have hs := List.take_append_drop (ys.length/2) ys
    cases hd : ys.drop (ys.length/2) with
    | nil =>
      obtain rfl := eq_nil_of_drop_half hd
      simp [insertWithin]
    | cons m r =>
      rw [hd] at hs
      simp only [insertWithin,hd]
      split
      · conv => rhs; rw [← hs]
        exact .append_right _ (ih _)
      · conv => rhs; rw [← hs]
        refine .trans (.append_left _ (.trans (.cons _ (ih r)) (.swap x m r))) ?_
        exact List.perm_middle

open List in
theorem sort_perm (before : β → β → Bool) (xs : List β) : sort before xs ~ xs := by
  have key : ∀ (r ys : List β), r.foldl (insert before) ys ~ ys ++ r := by
    intro r
    induction r with
    | nil => intro ys; simp
    | cons x r ih =>
      intro ys
      refine .trans (ih _) (.trans (.append_right r (insertWithin_perm before x _ ys)) ?_)
      simpa using (@List.perm_middle _ x ys r).symm
  exact .trans (key _ _) (firstRun_perm before xs)

end Sorting
end ExtrusionProfile
