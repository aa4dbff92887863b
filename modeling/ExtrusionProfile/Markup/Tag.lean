import ExtrusionProfile.Number.Literal
import ExtrusionProfile.Number.Text

/-! Tags of a markup document: names, attributes and the end of an opening tag. What is read
is taken off the front of the text, and a complaint comes with the text that is left. -/
namespace ExtrusionProfile
namespace Markup

def isNameChar (c : Char) : Bool := c.isAlphanum || c = ':' || c = '_' || c = '-'

inductive Complaint
  | endOfTag
  | tagName
  | closingTag (found expected : List Char)
  | endOfComment
  | endOfData
  | endOfInput
deriving DecidableEq

def Complaint.message : Complaint → String
  | .endOfTag => "Expected >"
  | .tagName => "Expected tag name"
  | .closingTag f e =>
    "Expected closing tag </" ++ String.ofList f ++ "> to match opening tag <" ++ String.ofList e ++ ">"
  | .endOfComment => "expected -->"
  | .endOfData => "expected ]]>"
  | .endOfInput => "Unexpected end of input"

/-- A complaint with the text left where it arose, or a breakdown that has no place. -/
inductive Trouble
  | at (c : Complaint) (rest : List Char)
  | breakdown
deriving DecidableEq

def name (cs : List Char) : List Char × List Char :=
  (cs.takeWhile isNameChar,cs.dropWhile isNameChar)

def skipBlanks (cs : List Char) : List Char := cs.dropWhile Text.isBlank

/-- An attribute value that is a number is put in the plain form of that number. -/
def settled (value : List Char) : List Char :=
  match Numeral.whole? value with
  | some x => NumberText.plain x
  | none => value

/-- The content of a quoted value; every backslash is doubled and escapes nothing. -/
def quotedContent (cs : List Char) : List Char :=
  cs.flatMap fun c => if c = '\\' then ['\\','\\'] else [c]

def endsUnquoted (c : Char) : Bool := c = ' ' || c = '>' || c = '/'

/-- A value behind an equals sign. A quoted one that is not closed swallows the text. -/
def value : List Char → Except Trouble (List Char × List Char)
  | [] => .error .breakdown
  | c::cs =>
    if c = '"' ∨ c = '\'' then
      match cs.dropWhile (· ≠ c) with
      | [] => .error (.at .endOfTag [])
      | _::r => .ok (settled (quotedContent (cs.takeWhile (· ≠ c))),r)
    else
      .ok (settled ((c::cs).takeWhile (!endsUnquoted ·)),(c::cs).dropWhile (!endsUnquoted ·))

/-- What may stand behind an attribute's name; without a value it is `true`. -/
def valueOrTrue (cs : List Char) : Except Trouble (List Char × List Char) :=
  match skipBlanks cs with
  | '='::r => value (skipBlanks r)
  | r => .ok ("true".toList,r)

theorem dropWhile_length_le (p : Char → Bool) (cs : List Char) :
    (cs.dropWhile p).length ≤ cs.length := (List.dropWhile_suffix p).length_le

theorem value_length {cs v r : List Char} (h : value cs = .ok (v,r)) :
    r.length ≤ cs.length := by
  cases cs with
  | nil => cases h
  | cons c cs =>
    simp only [value] at h
    split at h
    · split at h
      · cases h
      · rename_i hd
        cases h
        have := dropWhile_length_le (· ≠ c) cs
        rw [hd,List.length_cons] at this
        rw [List.length_cons]
        omega
    · cases h
      exact dropWhile_length_le _ _

theorem valueOrTrue_length {cs v r : List Char} (h : valueOrTrue cs = .ok (v,r)) :
    r.length ≤ cs.length := by
  have hs : (skipBlanks cs).length ≤ cs.length := dropWhile_length_le _ _
  simp only [valueOrTrue] at h
  split at h
  · rename_i s hq
    have h₁ := value_length h
    have h₂ : (skipBlanks s).length ≤ s.length := dropWhile_length_le _ _
    rw [hq,List.length_cons] at hs
    omega
  · cases h
    exact hs

/-- The attributes of an opening tag. Each has a blank before it; the first thing that is no
attribute ends the list. -/
def attributes : List Char → Except Trouble (List (List Char × List Char) × List Char)
  | [] => .ok ([],[])
  | c::cs =>
    if !Text.isBlank c then .ok ([],c::cs)
    else
      let n := name (skipBlanks cs)
      if n.1.isEmpty then .ok ([],n.2)
      else
        match h : valueOrTrue n.2 with
        | .error t => .error t
        | .ok (v,r) =>
          have : r.length ≤ cs.length := by
            have h₁ := valueOrTrue_length h
            have h₂ : n.2.length ≤ (skipBlanks cs).length := dropWhile_length_le _ _
            have h₃ : (skipBlanks cs).length ≤ cs.length := dropWhile_length_le _ _
            omega
          match attributes r with
          | .error t => .error t
          | .ok (as,r) => .ok ((n.1,v)::as,r)
termination_by cs => cs.length

structure Opening where
  name : List Char
  attributes : List (List Char × List Char)
  selfClosing : Bool
  rest : List Char

def opening (cs : List Char) : Except Trouble Opening :=
  let n := name cs
  match attributes n.2 with
  | .error t => .error t
  | .ok (as,'/' :: '>' :: r) => .ok ⟨n.1,as,true,r⟩
  | .ok (_,'/'::r) => .error (.at .endOfTag r)
  | .ok (as,'>'::r) => .ok ⟨n.1,as,false,r⟩
  | .ok (_,r) => .error (.at .endOfTag r)

/-- A closing tag, from behind its slash to behind its `>`, against the name of the element
that is open. -/
def closing (current : Option (List Char)) (cs : List Char) : Except Trouble (List Char) :=
  let n := name cs
  if n.1.isEmpty then .error (.at .tagName n.2)
  else
    match current with
    | none => .error .breakdown
    | some e =>
      if n.1 ≠ e then .error (.at (.closingTag n.1 e) n.2)
      else
        match skipBlanks n.2 with
        | '>'::r => .ok r
        | r => .error (.at .endOfTag r)

end Markup
end ExtrusionProfile
