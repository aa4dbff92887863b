import ExtrusionProfile.Path.Token
import Mathlib.Data.Nat.Notation

/-! Runs of tokens and groups of numbers. Tokens and runs are two spellings of one thing, and
the groups of a run spell its segments one after another. -/
namespace ExtrusionProfile
namespace Path

theorem runs_number_append (ns : List Numeral) (ts : List Token) :
    runs (ns.map .number ++ ts) = (ns ++ (runs ts).1,(runs ts).2) := by
  induction ns with
  | nil => rfl
  | cons n ns ih => simp [runs,ih]

theorem runs_flatMap_tokens (rs : List Run) : runs (rs.flatMap Run.tokens) = ([],rs) := by
  induction rs with
  | nil => rfl
  | cons r rs ih => simp [Run.tokens,runs,runs_number_append,ih]

theorem runs_append_command (ts us : List Token) (h : (runs us).1 = []) :
    runs (ts ++ us) = ((runs ts).1,(runs ts).2 ++ (runs us).2) := by
  induction ts with
  | nil => simp [runs,← h]
  | cons t ts ih => cases t <;> simp [runs,ih]

section Pieces

variable {β γ : Type}

theorem pieces_map (f : β → γ) (k n : ℕ) (xs : List β) :
    pieces k n (xs.map f) = (pieces k n xs).map (List.map f) := by
  induction n generalizing xs with
  | zero => rfl
  | succ n ih => simp [pieces,← List.map_take,← List.map_drop,ih]

theorem length_of_mem_pieces {k n : ℕ} {xs : List β} (h : n*k ≤ xs.length) {g : List β}
    (hg : g ∈ pieces k n xs) : g.length = k := by
  induction n generalizing xs with
  | zero => cases hg
  | succ n ih =>
    rw [Nat.succ_mul] at h
    rcases List.mem_cons.mp hg with rfl | hg
    · exact List.length_take_of_le (by omega)
    · exact ih (by rw [List.length_drop]; omega) hg

theorem pieces_flatten_append {k : ℕ} {gs : List (List β)} (h : ∀ g ∈ gs, g.length = k)
    (xs : List β) : pieces k gs.length (gs.flatten ++ xs) = gs := by
  induction gs with
  | nil => rfl
  | cons g gs ih =>
    have hg := h g (by simp)
    have ih := ih fun g hg => h g (by simp [hg])
    simp [pieces,hg,ih]

end Pieces

theorem Family.arity_repeated (f : Family) : f.repeated.arity = f.arity := by
  cases f <;> rfl

@[simp] theorem Family.repeated_repeated (f : Family) : f.repeated.repeated = f.repeated := by
  cases f <;> rfl

theorem Family.repeated_ne_closepath {f : Family} (h : f ≠ .closepath) :
    f.repeated ≠ .closepath := by
  cases f <;> simp_all [repeated]

theorem Family.arity_pos {f : Family} (h : f ≠ .closepath) : 0 < f.arity := by
  cases f <;> simp_all [arity]

theorem Segment.exists_ofArguments? : ∀ {f : Family} {xs : List Float},
    xs.length = f.arity → ∃ s, ofArguments? f xs = some s
  | .moveto,[_,_],_ | .lineto,[_,_],_ | .smoothQuadratic,[_,_],_ => ⟨_,rfl⟩
  | .horizontal,[_],_ | .vertical,[_],_ => ⟨_,rfl⟩
  | .cubic,[_,_,_,_,_,_],_ => ⟨_,rfl⟩
  | .smoothCubic,[_,_,_,_],_ | .quadratic,[_,_,_,_],_ => ⟨_,rfl⟩
  | .arc,[_,_,_,_,_,_,_],_ => ⟨_,rfl⟩
  | .closepath,[],_ => ⟨_,rfl⟩

/-- Groups that each have as many numbers as a repetition of the command takes. -/
def Family.Complete (f : Family) (gs : List (List Numeral)) : Prop := ∀ g ∈ gs, g.length = f.arity

namespace Family.Complete

variable {f : Family} {g : List Numeral} {gs : List (List Numeral)}

theorem head (h : f.Complete (g::gs)) : g.length = f.arity := h g (by simp)

theorem tail (h : f.Complete (g::gs)) : f.repeated.Complete gs := by
  intro g hg
  rw [arity_repeated]
  exact h g (by simp [hg])

theorem exists_segment (h : f.Complete (g::gs)) :
    ∃ s, Segment.ofArguments? f (g.map Numeral.value) = some s :=
  Segment.exists_ofArguments? (by rw [List.length_map,h.head])

end Family.Complete

/-- The segments that groups of numbers behind a command spell. -/
def segmentsOf : Family → List (List Numeral) → List Segment
  | _,[] => []
  | f,g::gs =>
    (Segment.ofArguments? f (g.map Numeral.value)).toList ++ segmentsOf f.repeated gs

theorem segmentsOf_repeated (f : Family) (gs : List (List Numeral)) :
    segmentsOf f.repeated gs =
      gs.filterMap fun g => Segment.ofArguments? f.repeated (g.map Numeral.value) := by
  induction gs with
  | nil => rfl
  | cons g gs ih =>
    rw [segmentsOf,Family.repeated_repeated,ih,List.filterMap_cons]
    cases Segment.ofArguments? f.repeated (g.map Numeral.value) <;> rfl

namespace Run

variable (r : Run)

theorem segments_eq : r.segments = segmentsOf r.command.family r.groups := by
  rw [segments]
  cases r.groups with
  | nil => rfl
  | cons g gs => rw [segmentsOf,segmentsOf_repeated]

theorem dropped_eq_mod : r.dropped = r.numbers.length % r.command.family.arity :=
  Nat.mod_eq_sub_div_mul.symm

theorem dropped_lt (h : r.command.family ≠ .closepath) : r.dropped < r.command.family.arity := by
  rw [dropped_eq_mod]
  exact Nat.mod_lt _ (Family.arity_pos h)

theorem complete_groups : r.command.family.Complete r.groups :=
  fun _ => length_of_mem_pieces (Nat.div_mul_le_self _ _)

theorem segments_moveto {r : Run} {a b : Numeral} {ns : List Numeral}
    (hf : r.command.family = .moveto) (hn : r.numbers = a::b::ns) :
    ∃ ss, r.segments = .moveto ⟨a.value,b.value⟩::ss := by
  have hc : r.count = ns.length/2+1 := by
    rw [count,hn,hf]
    exact Nat.add_div_right ns.length Nat.two_pos
  simp only [segments,groups,hf,hc,hn,pieces]
  exact ⟨_,rfl⟩

end Run
end Path
end ExtrusionProfile
