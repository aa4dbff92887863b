import ExtrusionProfile.Text

/-! Element trees of a markup document. Only elements matter here, so texts, comments and
instructions have no place in the tree. -/
namespace ExtrusionProfile
namespace Markup

inductive Element
  | mk (name : List Char) (attributes : List (List Char × List Char)) (children : List Element)

namespace Element

def name : Element → List Char
  | .mk n _ _ => n

def attributes : Element → List (List Char × List Char)
  | .mk _ as _ => as

def children : Element → List Element
  | .mk _ _ cs => cs

/-- The value of an attribute; the last one of a name counts. -/
def attribute? (e : Element) (name : List Char) : Option (List Char) :=
  (e.attributes.reverse.find? (·.1 == name)).map Prod.snd

/-- The name in lower case, without anything up to its first colon. -/
def localName (e : Element) : List Char :=
  let n := e.name
  (if n.contains ':' then (n.dropWhile (· ≠ ':')).drop 1 else n).map Char.toLower

mutual

/-- An element and everything in it, in document order. -/
def withDescendants : Element → List Element
  | .mk n as cs => .mk n as cs::allWithDescendants cs

def allWithDescendants : List Element → List Element
  | [] => []
  | e::es => withDescendants e ++ allWithDescendants es

end

def descendants (e : Element) : List Element := allWithDescendants e.children

end Element

/-- Why a reader finds no document: what it states, and the place in the text that it shows. -/
structure Failure where
  detail? : Option String
  excerpt? : Option (List Char)
deriving DecidableEq

/-- A way to read a text: the outermost elements of the document in it. -/
abbrev Reader := List Char → Except Failure (List Element)

end Markup
end ExtrusionProfile
