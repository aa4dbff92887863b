import ExtrusionProfile.Plane.Basic

/-! The drawing commands of path data, and segments: a command together with one group of its numbers,
still in the command's own coordinates. -/
namespace ExtrusionProfile
namespace Path

inductive Family
  | moveto | lineto | horizontal | vertical
  | cubic | smoothCubic | quadratic | smoothQuadratic | arc | closepath
deriving DecidableEq, Repr

def Family.arity : Family → Nat
  | .moveto | .lineto | .smoothQuadratic => 2
  | .horizontal | .vertical => 1
  | .cubic => 6
  | .smoothCubic | .quadratic => 4
  | .arc => 7
  | .closepath => 0

/-- What the second and later groups of numbers behind a command stand for. -/
def Family.repeated : Family → Family
  | .moveto => .lineto
  | f => f

structure Command where
  family : Family
  /-- Whether coordinates count from the current point. -/
  relative : Bool
deriving DecidableEq, Repr

def Command.letter : Command → Char
  | ⟨.moveto,r⟩ => if r then 'm' else 'M'
  | ⟨.lineto,r⟩ => if r then 'l' else 'L'
  | ⟨.horizontal,r⟩ => if r then 'h' else 'H'
  | ⟨.vertical,r⟩ => if r then 'v' else 'V'
  | ⟨.cubic,r⟩ => if r then 'c' else 'C'
  | ⟨.smoothCubic,r⟩ => if r then 's' else 'S'
  | ⟨.quadratic,r⟩ => if r then 'q' else 'Q'
  | ⟨.smoothQuadratic,r⟩ => if r then 't' else 'T'
  | ⟨.arc,r⟩ => if r then 'a' else 'A'
  | ⟨.closepath,r⟩ => if r then 'z' else 'Z'

def Family.ofUpper? : Char → Option Family
  | 'M' => some .moveto
  | 'L' => some .lineto
  | 'H' => some .horizontal
  | 'V' => some .vertical
  | 'C' => some .cubic
  | 'S' => some .smoothCubic
  | 'Q' => some .quadratic
  | 'T' => some .smoothQuadratic
  | 'A' => some .arc
  | 'Z' => some .closepath
  | _ => none

/-- The command that a letter stands for; lower case makes it relative. -/
def Command.ofLetter? (c : Char) : Option Command :=
  if c.isLower then (Family.ofUpper? c.toUpper).map (⟨·,true⟩)
  else (Family.ofUpper? c).map (⟨·,false⟩)

@[simp] theorem Command.ofLetter?_letter (c : Command) : ofLetter? c.letter = some c := by
  obtain ⟨f,r⟩ := c
  cases f <;> cases r <;> rfl

inductive Segment
  | moveto (p : Point Float)
  | lineto (p : Point Float)
  | horizontal (x : Float)
  | vertical (y : Float)
  | cubic (c d p : Point Float)
  | smoothCubic (d p : Point Float)
  | quadratic (c p : Point Float)
  | smoothQuadratic (p : Point Float)
  | arc (rx ry rotation largeArc sweep : Float) (p : Point Float)
  | closepath

namespace Segment

def family : Segment → Family
  | .moveto _ => .moveto
  | .lineto _ => .lineto
  | .horizontal _ => .horizontal
  | .vertical _ => .vertical
  | .cubic .. => .cubic
  | .smoothCubic .. => .smoothCubic
  | .quadratic .. => .quadratic
  | .smoothQuadratic _ => .smoothQuadratic
  | .arc .. => .arc
  | .closepath => .closepath

def arguments : Segment → List Float
  | .moveto p | .lineto p | .smoothQuadratic p => [p.x,p.y]
  | .horizontal x => [x]
  | .vertical y => [y]
  | .cubic c d p => [c.x,c.y,d.x,d.y,p.x,p.y]
  | .smoothCubic d p => [d.x,d.y,p.x,p.y]
  | .quadratic c p => [c.x,c.y,p.x,p.y]
  | .arc rx ry rotation large sweep p => [rx,ry,rotation,large,sweep,p.x,p.y]
  | .closepath => []

def ofArguments? : Family → List Float → Option Segment
  | .moveto,[x,y] => some (.moveto ⟨x,y⟩)
  | .lineto,[x,y] => some (.lineto ⟨x,y⟩)
  | .horizontal,[x] => some (.horizontal x)
  | .vertical,[y] => some (.vertical y)
  | .cubic,[a,b,c,d,x,y] => some (.cubic ⟨a,b⟩ ⟨c,d⟩ ⟨x,y⟩)
  | .smoothCubic,[c,d,x,y] => some (.smoothCubic ⟨c,d⟩ ⟨x,y⟩)
  | .quadratic,[a,b,x,y] => some (.quadratic ⟨a,b⟩ ⟨x,y⟩)
  | .smoothQuadratic,[x,y] => some (.smoothQuadratic ⟨x,y⟩)
  | .arc,[rx,ry,rotation,large,sweep,x,y] => some (.arc rx ry rotation large sweep ⟨x,y⟩)
  | .closepath,[] => some .closepath
  | _,_ => none

@[simp] theorem ofArguments?_arguments (s : Segment) :
    ofArguments? s.family s.arguments = some s := by cases s <;> rfl

theorem ofArguments?_eq_some_iff {f : Family} {xs : List Float} {s : Segment} :
    ofArguments? f xs = some s ↔ s.family = f ∧ s.arguments = xs := by
  constructor
  · intro h
    unfold ofArguments? at h
    split at h <;> cases h <;> exact ⟨rfl,rfl⟩
  · rintro ⟨rfl,rfl⟩
    simp

end Segment
end Path
end ExtrusionProfile
