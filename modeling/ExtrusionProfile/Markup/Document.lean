import ExtrusionProfile.Markup.Element
import ExtrusionProfile.Markup.Tag

/-! Documents. A document is read tag by tag with the elements that are open on a stack.
Anything before its first tag with a name is skipped, elements left open at the end are
closed there, and the last element that stands in no other one is the root. -/
namespace ExtrusionProfile
namespace Markup

/-- An element that is still open, with its children so far, the last one first. -/
structure Frame where
  name : List Char
  attributes : List (List Char × List Char)
  children : List Element

def Frame.element (f : Frame) : Element := .mk f.name f.attributes f.children.reverse

/-- The open elements, the innermost first, and the last finished outermost element. -/
structure State where
  frames : List Frame
  root : Option Element

namespace State

def finish (s : State) (e : Element) : State :=
  match s.frames with
  | [] => { s with root := some e }
  | f::fs => { s with frames := { f with children := e::f.children }::fs }

def opened (s : State) (t : Opening) : State :=
  if t.selfClosing then s.finish (.mk t.name t.attributes [])
  else { s with frames := ⟨t.name,t.attributes,[]⟩::s.frames }

def closed (s : State) : State :=
  match s.frames with
  | [] => s
  | f::fs => ({ s with frames := fs } : State).finish f.element

def closeAll (root : Option Element) : List Frame → Option Element
  | [] => root
  | [f] => some f.element
  | f::g::fs => closeAll root ({ g with children := f.element::g.children }::fs)
termination_by fs => fs.length

def root? (s : State) : Option Element := closeAll s.root s.frames

end State

def behind? (mark : List Char) : List Char → Option (List Char)
  | [] => if mark.isEmpty then some [] else none
  | c::cs =>
    match Numeral.dropStart? mark (c::cs) with
    | some r => some r
    | none => behind? mark cs

inductive Construct
  /-- An instruction or a document type: the rest is text. -/
  | skipped (rest : List Char)
  | comment (rest : List Char)
  | data (rest : List Char)
  | closing (rest : List Char)
  | opening (rest : List Char)

def Construct.ofText : List Char → Construct
  | '?'::r => .skipped r
  | '/'::r => .closing r
  | '!'::r =>
    if (Numeral.dropStart? "--".toList r).isSome then .comment r
    else if (Numeral.dropStart? "[CDATA[".toList r).isSome then .data r
    else if (r.take 7).map Char.toLower = "doctype".toList then .skipped r
    else .opening ('!'::r)
  | r => .opening r

def construct (s : State) (cs : List Char) : Except Trouble (State × List Char) :=
  match Construct.ofText cs with
  | .skipped r => .ok (s,r)
  | .comment r =>
    match behind? "-->".toList r with
    | some t => .ok (s,t)
    | none => .error (.at .endOfComment r)
  | .data r =>
    match behind? "]]>".toList r with
    | some t => if s.frames.isEmpty then .error .breakdown else .ok (s,t)
    | none => .error (.at .endOfData r)
  | .closing r =>
    if r.isEmpty then .error (.at .endOfInput [])
    else (closing (s.frames.head?.map Frame.name) r).map fun t => (s.closed,t)
  | .opening r => (opening r).map fun t => (s.opened t,t.rest)

/-- Read from a piece of text on; `n` bounds the number of tags. -/
def content : Nat → State → List Char → Except Trouble State
  | 0,s,_ => .ok s
  | n+1,s,cs =>
    if s.frames.isEmpty && !Text.isBlankText (cs.takeWhile (· ≠ '<')) then .error .breakdown
    else
      match cs.dropWhile (· ≠ '<') with
      | [] => .ok s
      | [_] => .error (.at .endOfInput [])
      | _::r =>
        match construct s r with
        | .ok (s,r) => content n s r
        | .error t => .error t

/-- Skip to the first `<` that a name follows, or that ends the text. -/
def dropProlog : List Char → List Char
  | [] => []
  | [c] => if c = '<' then [c] else []
  | c::d::cs => if c = '<' ∧ isNameChar d then c::d::cs else dropProlog (d::cs)

inductive Fault
  | blank
  | complaint (c : Complaint) (place : Text.Position) (excerpt : List Char)
  | breakdown
deriving DecidableEq

def isLineEnd (c : Char) : Bool := c = '\n' || c = '\r' || c.toNat = 0x2028 || c.toNat = 0x2029

/-- The last line of a text, from the line feed before it on, with tabs as two blanks. -/
def lastLine (cs : List Char) : List Char :=
  let line := (cs.reverse.takeWhile (· ≠ '\n')).reverse
  let line := if cs.contains '\n' then '\n'::line else line
  line.flatMap fun c => if c = '\t' then [' ',' '] else [c]

/-- What is left of a line, up to and with its line feed. A line that ends otherwise is passed
over. -/
def restOfLine : List Char → List Char
  | [] => []
  | c::cs =>
    match (c::cs).dropWhile (!isLineEnd ·) with
    | [] => c::cs
    | e::_ => if e = '\n' then (c::cs).takeWhile (!isLineEnd ·) ++ ['\n'] else restOfLine cs

/-- The line in which a place lies, with a mark below the place. -/
def excerpt (before after : List Char) : List Char :=
  let line := lastLine before
  line ++ restOfLine after ++ '\n'::(List.replicate (Text.units line) ' ' ++ ['^'])

def Fault.ofTrouble (text : List Char) : Trouble → Fault
  | .at c rest =>
    let before := text.take (text.length-rest.length)
    .complaint c (Text.positionAfter before) (excerpt before rest)
  | .breakdown => .breakdown

def Fault.detail? : Fault → Option String
  | .blank => some "SVG input is empty"
  | .complaint c p _ =>
    some (c.message ++ " (" ++ toString p.line ++ ":" ++ toString p.column ++ ")")
  | .breakdown => none

def Fault.excerpt? : Fault → Option (List Char)
  | .complaint _ _ e => some e
  | _ => none

def parse (text : List Char) : Except Fault Element :=
  if Text.isBlankText text then .error .blank
  else
    match content (text.length+1) ⟨[],none⟩ (dropProlog text) with
    | .error t => .error (Fault.ofTrouble text t)
    | .ok s =>
      match s.root? with
      | some e => .ok e
      | none => .error .breakdown

def Fault.failure (f : Fault) : Failure := ⟨f.detail?,f.excerpt?⟩

def reader : Reader := fun text => ((parse text).map ([·])).mapError Fault.failure

end Markup
end ExtrusionProfile
