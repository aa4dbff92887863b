import ExtrusionProfile.Path.Subpaths
import ExtrusionProfile.Number.Text
import ExtrusionProfile.Markup.Element
import ExtrusionProfile.Shape.Basic
import ExtrusionProfile.Fit.Outline
import ExtrusionProfile.Profile.Compose

/-! Drawings: what the paths and shapes of a document draw, element by element, the issues found on
the way, and the request that a drawing becomes. Whoever reads brings the reader of the markup. -/
namespace ExtrusionProfile
namespace Drawing

inductive Severity | error | warning | info
deriving DecidableEq, Repr

def Severity.name : Severity → String
  | .error => "error"
  | .warning => "warning"
  | .info => "info"

/-- Something that was skipped or mended. Paths are known by their number among the paths. -/
inductive Issue
  | brokenPath (path : Nat) (fault : Path.Fault)
  | mendedPath (path : Nat) (note : Path.Note)
  | emptyShape (name : List Char)

def flawName : Arc.Flaw → String
  | .zeroRadius => "zero-radius"
  | .coincidentEndpoints => "coincident-endpoints"

namespace Issue

def severity : Issue → Severity
  | .brokenPath .. => .error
  | .mendedPath .. => .info
  | .emptyShape _ => .warning

def code : Issue → String
  | .brokenPath .. => "GRAMMAR_ERROR"
  | .mendedPath _ (.underflow ..) => "ARGUMENT_UNDERFLOW"
  | .mendedPath _ (.straightArc ..) => "DEGENERATE_ARC"
  | .emptyShape _ => "EMPTY_SHAPE"

def pathLabel (n : Nat) : String := "Path " ++ toString n ++ ": "

def message : Issue → String
  | .brokenPath n f => pathLabel n ++ f.cause.message
  | .mendedPath n (.underflow c k _) =>
    pathLabel n ++ "\"" ++ c.letter.toString ++ "\" is missing arguments; " ++ toString k ++
      " trailing number(s) dropped"
  | .mendedPath n (.straightArc f _) =>
    pathLabel n ++ "arc drawn as a straight line (" ++ flawName f ++ ")"
  | .emptyShape name => "<" ++ String.ofList name ++ "> has no drawable outline"

def details? : Issue → Option String
  | .brokenPath _ f => some (String.ofList f.fragment)
  | .mendedPath _ (.underflow _ _ o) => some ("offset " ++ toString o)
  | .mendedPath _ (.straightArc _ o) => some ("offset " ++ toString o)
  | .emptyShape _ => none

end Issue

structure Options where
  tessellation : Path.Tessellation := {}
  samples : Float := Shape.defaultSamples
  name : Option String := none

/-- What one element, or several in a row, draw and report. -/
structure Contribution where
  subpaths : List (List (Point Float))
  issues : List Issue

namespace Contribution

def none : Contribution := ⟨[],[]⟩

def append (a b : Contribution) : Contribution := ⟨a.subpaths ++ b.subpaths,a.issues ++ b.issues⟩

end Contribution

def isPath (e : Markup.Element) : Bool := e.localName == "path".toList

def pathData (e : Markup.Element) : List Char := (e.attribute? ['d']).getD []

def ofPath (o : Options) (n : Nat) (d : List Char) : Contribution :=
  if Text.isBlankText d then .none
  else
    match Path.draw o.tessellation d with
    | .error f => ⟨[],[.brokenPath n f]⟩
    | .ok k => ⟨k.subpaths,k.notes.map (.mendedPath n)⟩

/-- What a shape of the given element name draws; one without an outline is reported. -/
def ofShape (o : Options) (name : List Char) (s : Shape) : Contribution :=
  match s.points o.samples with
  | [] => ⟨[],[.emptyShape name]⟩
  | p::ps => ⟨[p::ps],[]⟩

def ofElement (o : Options) (n : Nat) (e : Markup.Element) : Contribution :=
  if isPath e then ofPath o n (pathData e)
  else
    match Shape.ofElement? e.localName e.attribute? with
    | some s => ofShape o e.localName s
    | none => .none

def ofElements (o : Options) (n : Nat) : List Markup.Element → Contribution
  | [] => .none
  | e::es => (ofElement o n e).append (ofElements o (if isPath e then n+1 else n) es)

/-- An outline with what its document declares about it. -/
structure Source extends Outline Float where
  name : Option String
  width : Float
  height : Float

structure Reading where
  /-- Missing when nothing in the document draws. -/
  source : Option Source
  issues : List Issue

inductive Fault
  | parse (f : Markup.Failure)
  | noDrawing
deriving DecidableEq

def Fault.code : String := "SVG_READ_ERROR"

def Fault.message : Fault → String
  | .parse f =>
    match f.detail? with
    | some d => "Failed to parse SVG: " ++ d
    | none => "Failed to parse SVG"
  | .noDrawing => "No SVG element found in content"

/-- The message with the place shown in the text, where there is one. -/
def Fault.report (f : Fault) : String :=
  match f with
  | .parse p =>
    match p.excerpt? with
    | some e => f.message ++ "\n\n" ++ String.ofList e
    | none => f.message
  | .noDrawing => f.message

def source? (o : Options) (root : Markup.Element) (subpaths : List (List (Point Float))) :
    Option Source :=
  if subpaths.isEmpty then none
  else
    let width := root.attribute? "width".toList
    let height := root.attribute? "height".toList
    let extent := Length.extent Length.defaultExtent
    some {
      subpaths := subpaths
      viewBox := ViewBox.resolve (root.attribute? "viewBox".toList) width height
      name := o.name
      width := extent width
      height := extent height }

def ofRoot (o : Options) (root : Markup.Element) : Except Fault Reading :=
  if root.localName ≠ "svg".toList then .error .noDrawing
  else
    let c := ofElements o 0 root.descendants
    .ok ⟨source? o root c.subpaths,c.issues⟩

/-- Read a document. The first of its outermost elements is the root. -/
def readBy (parse : Markup.Reader) (o : Options) (text : List Char) : Except Fault Reading :=
  match parse text with
  | .error f => .error (.parse f)
  | .ok [] => .error .noDrawing
  | .ok (root::_) => ofRoot o root

structure Imported where
  source : Source
  request : Profile.Request Float

structure ImportResult where
  /-- Missing when nothing in the document can be extruded. -/
  imported : Option Imported
  issues : List Issue

def importProfileBy (parse : Markup.Reader) (simplify : Simplifier Float) (o : Options)
    (p : Profile.Options Float) (text : List Char) : Except Fault ImportResult :=
  (readBy parse o text).map fun r =>
    ⟨r.source.bind fun s => (Profile.ofOutlineBy? simplify p s.toOutline).map (⟨s,·⟩),r.issues⟩

end Drawing
end ExtrusionProfile
