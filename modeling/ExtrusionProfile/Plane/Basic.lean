import ExtrusionProfile.Number.Binary64

/-! The arithmetic that drawings are computed in, and points, rings and boxes in the plane. All is
written once over this arithmetic: doubles are what a run computes with, and the rationals are the
exact arithmetic in which the geometric laws hold. -/
namespace ExtrusionProfile

class Scalar (α : Type) extends Add α, Sub α, Mul α, Div α, Neg α where
  ofNat : Nat → α
  lt : α → α → Bool
  le : α → α → Bool
  /-- Numeric equality: 0 and -0 are the same, and no number is not even itself. -/
  same : α → α → Bool
  least : α → α → α
  greatest : α → α → α
  /-- The whole part of a finite number above one, and one for all else. -/
  count : α → Nat

class Root (α : Type) where
  root : α → α

namespace Scalar

def zero {α : Type} [Scalar α] : α := ofNat 0

def one {α : Type} [Scalar α] : α := ofNat 1

end Scalar

instance : Scalar Float where
  ofNat := Float.ofNat
  lt a b := a < b
  le a b := a ≤ b
  same a b := a == b
  least := Binary64.least
  greatest := Binary64.greatest
  count x :=
    if x.isFinite && !Binary64.isNegative x then max 1 (Binary64.wholeMagnitude x) else 1

instance : Root Float := ⟨Float.sqrt⟩

instance : Scalar Rat where
  ofNat n := Rat.ofInt (Int.ofNat n)
  lt := Rat.blt
  le a b := !Rat.blt b a
  same a b := a == b
  least a b := if Rat.blt b a then b else a
  greatest a b := if Rat.blt a b then b else a
  count x := max 1 x.floor.toNat

structure Point (α : Type) where
  x : α
  y : α
deriving DecidableEq, Repr

variable {α : Type} [Scalar α]

namespace Point

def origin : Point α := ⟨Scalar.zero,Scalar.zero⟩

def same (p q : Point α) : Bool := Scalar.same p.x q.x && Scalar.same p.y q.y

def add (p q : Point α) : Point α := ⟨p.x+q.x,p.y+q.y⟩

def reflect (p q : Point α) : Point α := ⟨Scalar.ofNat 2*p.x-q.x,Scalar.ofNat 2*p.y-q.y⟩

def distance [Root α] (p q : Point α) : α :=
  let dx := q.x-p.x
  let dy := q.y-p.y
  Root.root (dx*dx+dy*dy)

end Point

namespace Ring

/-- Add up twice the signed area between the origin and each side of a ring, the last side
going back to `first`. -/
def crossSum (first : Point α) : α → List (Point α) → α
  | s,[] => s
  | s,[p] => s+p.x*first.y-first.x*p.y
  | s,p::q::ps => crossSum first (s+p.x*q.y-q.x*p.y) (q::ps)

/-- The signed area within a ring, positive when it runs counter-clockwise with `y` upwards.
Fewer than three points enclose nothing. -/
def area (ps : List (Point α)) : α :=
  match ps with
  | p::_::_::_ => crossSum p Scalar.zero ps / Scalar.ofNat 2
  | _ => Scalar.zero

end Ring

structure Bounds (α : Type) where
  minX : α
  minY : α
  maxX : α
  maxY : α
deriving DecidableEq, Repr

namespace Bounds

def single (p : Point α) : Bounds α := ⟨p.x,p.y,p.x,p.y⟩

def extend (b : Bounds α) (p : Point α) : Bounds α where
  minX := Scalar.least b.minX p.x
  minY := Scalar.least b.minY p.y
  maxX := Scalar.greatest b.maxX p.x
  maxY := Scalar.greatest b.maxY p.y

/-- The box around some points. A coordinate that is no number spoils the two sides of its
axis. -/
def around? : List (Point α) → Option (Bounds α)
  | [] => none
  | p::ps => some (ps.foldl extend (single p))

def width (b : Bounds α) : α := b.maxX-b.minX

def height (b : Bounds α) : α := b.maxY-b.minY

def area (b : Bounds α) : α := b.width*b.height

/-- Whether a box holds another one; shared sides count as held. -/
def contains (outer inner : Bounds α) : Bool :=
  Scalar.le outer.minX inner.minX && Scalar.le outer.minY inner.minY &&
    Scalar.le inner.maxX outer.maxX && Scalar.le inner.maxY outer.maxY

theorem around?_eq_none_iff {ps : List (Point α)} : around? ps = none ↔ ps = [] := by
  cases ps <;> simp [around?]

end Bounds
end ExtrusionProfile
