import ExtrusionProfile.Number.Literal
import ExtrusionProfile.Text
import ExtrusionProfile.Path.Command

/-! Path data as tokens, command letters and number literals, with everything else between them
skipped; and as runs, every command with the numbers up to the next one, and those numbers cut into
groups. -/
namespace ExtrusionProfile
namespace Path

/-- A number with its spelling and its place in the text. -/
structure Numeral where
  text : List Char
  value : Float
  offset : Nat
deriving DecidableEq

inductive Token
  | command (c : Command) (offset : Nat)
  | number (n : Numeral)
deriving DecidableEq

def Token.offset : Token → Nat
  | .command _ o => o
  | .number n => n.offset

def Token.text : Token → List Char
  | .command c _ => [c.letter]
  | .number n => n.text

/-- Tokens of a text whose first character stands at `offset`. A command letter is a token
by itself, a literal is taken as long as it can be, and any other character is passed over. -/
def tokensFrom (offset : Nat) : List Char → List Token
  | [] => []
  | c::cs =>
    match Command.ofLetter? c with
    | some k => .command k offset::tokensFrom (offset+Text.unitsOf c) cs
    | none =>
      match h : Literal.scan (c::cs) with
      | some (t,r) =>
        have : r.length ≤ cs.length := Nat.le_of_lt_succ (Literal.scan_length h)
        .number ⟨t,Literal.value t,offset⟩::tokensFrom (offset+Text.units t) r
      | none => tokensFrom (offset+Text.unitsOf c) cs
termination_by cs => cs.length

def tokens (d : List Char) : List Token := tokensFrom 0 d

structure Run where
  command : Command
  offset : Nat
  numbers : List Numeral

/-- The numbers before the first command, and the runs. -/
def runs : List Token → List Numeral × List Run
  | [] => ([],[])
  | .number n::ts => (n::(runs ts).1,(runs ts).2)
  | .command c o::ts => ([],⟨c,o,(runs ts).1⟩::(runs ts).2)

def Run.tokens (r : Run) : List Token := .command r.command r.offset::r.numbers.map .number

theorem runs_append (ts : List Token) :
    (runs ts).1.map .number ++ (runs ts).2.flatMap Run.tokens = ts := by
  induction ts with
  | nil => rfl
  | cons t ts ih =>
    cases t with
    | number n => simpa [runs] using ih
    | command c o => simpa [runs,Run.tokens] using ih

def pieces {β : Type} (k : Nat) : Nat → List β → List (List β)
  | 0,_ => []
  | n+1,xs => xs.take k::pieces k n (xs.drop k)

@[simp] theorem pieces_length {β : Type} (k n : Nat) (xs : List β) :
    (pieces k n xs).length = n := by
  induction n generalizing xs with
  | zero => rfl
  | succ n ih => simp [pieces,ih]

theorem pieces_flatten {β : Type} (k n : Nat) (xs : List β) :
    (pieces k n xs).flatten = xs.take (n*k) := by
  induction n generalizing xs with
  | zero => simp [pieces]
  | succ n ih =>
    rw [pieces,List.flatten_cons,ih,Nat.succ_mul,Nat.add_comm,List.take_add]

namespace Run

def count (r : Run) : Nat := r.numbers.length / r.command.family.arity

def dropped (r : Run) : Nat := r.numbers.length - r.count*r.command.family.arity

def groups (r : Run) : List (List Numeral) := pieces r.command.family.arity r.count r.numbers

/-- The segments of a run: the first complete group belongs to the command itself, the later
ones to what it repeats as. -/
def segments (r : Run) : List Segment :=
  match r.groups with
  | [] => []
  | g::gs =>
    (Segment.ofArguments? r.command.family (g.map Numeral.value)).toList ++
      gs.filterMap fun g => Segment.ofArguments? r.command.family.repeated (g.map Numeral.value)

end Run
end Path
end ExtrusionProfile
