import ExtrusionProfile.Path.Token
import ExtrusionProfile.Plane.Curve
import ExtrusionProfile.Path.Command

/-! Path data as subpaths. A pen draws segment by segment and knows where it is, where its subpath
began and which control point a smooth curve would reflect. The runs are drawn one after another on
a canvas, which holds the finished subpaths, the one in progress, the pen and the notes. A fault
gives up the whole path; a note records what was mended. -/
namespace ExtrusionProfile
namespace Path

inductive Cause
  | noMoveto
  | numbersBehindClose (c : Command)
deriving DecidableEq

/-- Tokens that no command can take, with their place. -/
structure Fault where
  cause : Cause
  fragment : List Char
  position : Nat
deriving DecidableEq

def Cause.message : Cause → String
  | .noMoveto => "Path data must begin with a moveto command"
  | .numbersBehindClose c => "Numbers cannot follow closepath \"" ++ c.letter.toString ++ "\""

def spelled (ns : List Numeral) : List Char := [' '].intercalate (ns.map Numeral.text)

def Fault.stray (cause : Cause) (n : Numeral) (ns : List Numeral) : Fault :=
  ⟨cause,spelled (n::ns),n.offset⟩

inductive Note
  /-- A command with no complete group, or with numbers left over. -/
  | underflow (c : Command) (dropped : Nat) (offset : Nat)
  | straightArc (flaw : Arc.Flaw) (offset : Nat)
deriving DecidableEq

/-- How many straight pieces each kind of curve is cut into. -/
structure Tessellation where
  cubic : Float := 10
  quadratic : Float := 10
  arc : Float := 20

inductive Curve | cubic | quadratic
deriving DecidableEq, Repr

/-- The last control point of a curve, which only a curve of its own kind reflects. -/
structure Control where
  curve : Curve
  point : Point Float

structure Cursor where
  current : Point Float
  start : Point Float
  control : Option Control
  /-- Whether the subpath was closed and nothing drawn since. -/
  closed : Bool

def Cursor.initial : Cursor := ⟨Point.origin,Point.origin,none,false⟩

/-- What drawing a segment adds to the subpath, and the pen afterwards. -/
structure Step where
  cursor : Cursor
  points : List (Point Float)
  flaw : Option Arc.Flaw := none

namespace Cursor

def resolve (k : Cursor) (relative : Bool) (p : Point Float) : Point Float :=
  if relative then Point.add k.current p else p

def reflected (k : Cursor) (curve : Curve) : Point Float :=
  match k.control with
  | some c => if c.curve = curve then Point.reflect k.current c.point else k.current
  | none => k.current

def lineTo (k : Cursor) (p : Point Float) : Step := ⟨⟨p,k.start,none,false⟩,[p],none⟩

/-- A curve adds its samples but the first, where the pen already is. -/
def curveTo (k : Cursor) (samples : List (Point Float)) (p : Point Float)
    (control : Option Control) : Step :=
  ⟨⟨p,k.start,control,false⟩,samples.drop 1,none⟩

def cubicTo (t : Tessellation) (k : Cursor) (c d p : Point Float) : Step :=
  k.curveTo (Bezier.flattenCubic t.cubic k.current c d p) p (some ⟨.cubic,d⟩)

def quadraticTo (t : Tessellation) (k : Cursor) (c p : Point Float) : Step :=
  k.curveTo (Bezier.flattenQuadratic t.quadratic k.current c p) p (some ⟨.quadratic,c⟩)

def arcTo (t : Tessellation) (k : Cursor) (a : Arc) : Step :=
  let s := a.flatten t.arc k.current
  { k.curveTo s.points a.stop none with flaw := s.flaw }

def step (t : Tessellation) (relative : Bool) (k : Cursor) : Segment → Step
  | .moveto p =>
    let p := k.resolve relative p
    ⟨⟨p,p,none,false⟩,[p],none⟩
  | .lineto p => k.lineTo (k.resolve relative p)
  | .horizontal x => k.lineTo ⟨if relative then k.current.x+x else x,k.current.y⟩
  | .vertical y => k.lineTo ⟨k.current.x,if relative then k.current.y+y else y⟩
  | .cubic c d p =>
    k.cubicTo t (k.resolve relative c) (k.resolve relative d) (k.resolve relative p)
  | .smoothCubic d p =>
    k.cubicTo t (k.reflected .cubic) (k.resolve relative d) (k.resolve relative p)
  | .quadratic c p => k.quadraticTo t (k.resolve relative c) (k.resolve relative p)
  | .smoothQuadratic p => k.quadraticTo t (k.reflected .quadratic) (k.resolve relative p)
  | .arc rx ry rotation large sweep p =>
    k.arcTo t ⟨rx,ry,rotation,large != 0,sweep != 0,k.resolve relative p⟩
  | .closepath =>
    ⟨⟨k.start,k.start,none,true⟩,if Point.same k.current k.start then [] else [k.start],none⟩

end Cursor

structure Drawn where
  subpaths : List (List (Point Float))
  notes : List Note
deriving DecidableEq

structure Canvas where
  finished : List (List (Point Float))
  live : List (Point Float)
  cursor : Cursor
  notes : List Note

namespace Canvas

def empty : Canvas := ⟨[],[],.initial,[]⟩

def note (k : Canvas) (n : Note) : Canvas := { k with notes := k.notes ++ [n] }

/-- Put the subpath in progress to the finished ones, unless it has no point. -/
def flush (k : Canvas) : Canvas :=
  if k.live.isEmpty then k else { k with finished := k.finished ++ [k.live], live := [] }

/-- Drawing right behind a closepath begins a new subpath at the start of the closed one. -/
def reopen (k : Canvas) : Canvas :=
  if k.cursor.closed then
    { k with finished := k.finished ++ [k.live], live := [k.cursor.start] }
  else k

def extend (k : Canvas) (s : Step) : Canvas :=
  { k with live := k.live ++ s.points, cursor := s.cursor }

def draw (t : Tessellation) (relative : Bool) (offset : Nat) (k : Canvas) (s : Segment) :
    Canvas :=
  let step := k.cursor.step t relative s
  match s with
  | .moveto _ => k.flush.extend step
  | .closepath => k.extend step
  | _ =>
    let k := k.reopen.extend step
    match step.flaw with
    | some f => k.note (.straightArc f offset)
    | none => k

/-- Draw a run. Numbers left over, or a run without a complete group, leave a note. -/
def drawRun (t : Tessellation) (k : Canvas) (r : Run) : Except Fault Canvas :=
  match r.command.family,r.numbers with
  | .closepath,n::ns => .error (.stray (.numbersBehindClose r.command) n ns)
  | .closepath,[] => .ok (k.draw t r.command.relative r.offset .closepath)
  | _,_ =>
    let k :=
      if r.count = 0 ∨ 0 < r.dropped then k.note (.underflow r.command r.dropped r.offset) else k
    .ok (r.segments.foldl (draw t r.command.relative r.offset) k)

def drawRuns (t : Tessellation) (k : Canvas) : List Run → Except Fault Canvas
  | [] => .ok k
  | r::rs => (k.drawRun t r).bind fun k => k.drawRuns t rs

end Canvas

def openingFault? : List Numeral × List Run → Option Fault
  | (n::ns,_) => some (.stray .noMoveto n ns)
  | ([],r::_) =>
    if r.command.family = .moveto then none
    else some ⟨.noMoveto,[r.command.letter],r.offset⟩
  | ([],[]) => none

/-- Draw tokens. They have to begin with a moveto, and no number may follow a closepath;
anything else is drawn as far as it goes. -/
def interpret (t : Tessellation) (ts : List Token) : Except Fault Drawn :=
  match openingFault? (runs ts) with
  | some f => .error f
  | none =>
    (Canvas.empty.drawRuns t (runs ts).2).map fun k => ⟨k.flush.finished,k.notes⟩

def draw (t : Tessellation) (d : List Char) : Except Fault Drawn := interpret t (tokens d)

end Path
end ExtrusionProfile
