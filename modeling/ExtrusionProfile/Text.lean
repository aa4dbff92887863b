/-! Texts: white space in drawings and in their attributes, and places in a text, counted in UTF-16
code units. -/
namespace ExtrusionProfile
namespace Text

/-- The blanks outside ASCII: the space separators of Unicode, the line and paragraph
separators and the byte order mark. -/
def wideBlanks : List Nat :=
  [0xa0,0x1680,0x2000,0x2001,0x2002,0x2003,0x2004,0x2005,0x2006,0x2007,0x2008,0x2009,0x200a,
   0x2028,0x2029,0x202f,0x205f,0x3000,0xfeff]

def isBlank (c : Char) : Bool :=
  c = ' ' || (9 ≤ c.toNat && c.toNat ≤ 13) || wideBlanks.contains c.toNat

def trimLeft (cs : List Char) : List Char := cs.dropWhile isBlank

def trimRight (cs : List Char) : List Char := (cs.reverse.dropWhile isBlank).reverse

def trim (cs : List Char) : List Char := trimRight (trimLeft cs)

def isBlankText (cs : List Char) : Bool := cs.all isBlank

def unitsOf (c : Char) : Nat := if c.toNat < 0x10000 then 1 else 2

def units : List Char → Nat
  | [] => 0
  | c::cs => unitsOf c + units cs

@[simp] theorem units_nil : units [] = 0 := rfl

@[simp] theorem units_cons (c : Char) (cs : List Char) : units (c::cs) = unitsOf c + units cs :=
  rfl

@[simp] theorem units_append (as bs : List Char) : units (as ++ bs) = units as + units bs := by
  induction as with
  | nil => simp
  | cons c as ih => simp [ih,Nat.add_assoc]

theorem unitsOf_pos (c : Char) : 0 < unitsOf c := by
  unfold unitsOf; split <;> omega

/-- A line and a column, both from zero. -/
structure Position where
  line : Nat
  column : Nat
deriving DecidableEq, Repr

def positionAfter (cs : List Char) : Position :=
  ⟨cs.count '\n',units (cs.reverse.takeWhile (· ≠ '\n'))⟩

end Text
end ExtrusionProfile
