import ExtrusionProfile.Inspect.Run
import ExtrusionProfile.Markup.Document
import ExtrusionProfile.Overlay.Combine

/-! The command in a folder of text files: what it prints, how it ends, and the files that are there
afterwards. By itself it comes with a reader of markup, a simplifier and a clipper of its own. -/
namespace ExtrusionProfile
namespace Drawing

def read : Options → List Char → Except Fault Reading := readBy Markup.reader

def importProfile : Options → Profile.Options Float → List Char → Except Fault ImportResult :=
  importProfileBy Markup.reader Simplify.line

end Drawing

namespace Profile

abbrev Footprint := FootprintOr Overlay.Fault

def footprintExtruder : Extruder Float Footprint := footprintExtruderBy Overlay.clipper

def footprint : Request Float → Footprint := footprintBy Overlay.clipper

end Profile

def Inspect.Tools.own : Tools Overlay.Fault := ⟨Markup.reader,Simplify.line,Overlay.clipper⟩

namespace Inspect

/-- Files by the names on the way to them. A folder is there when a file is in it. -/
structure Folder where
  files : List (List (List Char) × List Char)

namespace Folder

def splitPath : List Char → List (List Char)
  | [] => [[]]
  | c::cs =>
    if c = '/' then []::splitPath cs
    else
      match splitPath cs with
      | [] => [[c]]
      | n::ns => (c::n)::ns

def hasFolder (f : Folder) (names : List (List Char)) : Bool :=
  names.isEmpty || f.files.any fun e => names.isPrefixOf e.1 && names.length < e.1.length

def file? (f : Folder) (names : List (List Char)) : Option (List Char) :=
  (f.files.find? (·.1 == names)).map Prod.snd

/-- Where a path ends: the folder that its last name is in, and that name. Every name before
the last has to be a folder's. -/
def walk? (f : Folder) : List (List Char) → List (List Char) → Option (List (List Char) × List Char)
  | _,[] => none
  | dir,[n] => some (dir,n)
  | dir,n::m::r =>
    if n.isEmpty || n = ['.'] then walk? f dir (m::r)
    else if n = ['.','.'] then if dir.isEmpty then none else walk? f dir.dropLast (m::r)
    else if f.hasFolder (dir ++ [n]) then walk? f (dir ++ [n]) (m::r)
    else none

def locate? (f : Folder) (path : List Char) : Option (List (List Char)) :=
  match path with
  | [] => none
  | '/'::_ => none
  | _ =>
    match f.walk? [] (splitPath path) with
    | none => none
    | some (dir,n) =>
      if n.isEmpty || n = ['.'] then some dir
      else if n = ['.','.'] then if dir.isEmpty then none else some dir.dropLast
      else some (dir ++ [n])

def entry (f : Folder) (path : List Char) : Entry :=
  match f.locate? path with
  | none => .missing
  | some names =>
    if f.hasFolder names then .directory
    else
      match f.file? names with
      | some t => .file t
      | none => .missing

def put (f : Folder) (names : List (List Char)) (text : List Char) : Folder :=
  if (f.file? names).isSome then
    ⟨f.files.map fun e => if e.1 = names then (names,text) else e⟩
  else ⟨f.files ++ [(names,text)]⟩

def write (f : Folder) (path text : List Char) : Except FileFault Folder :=
  match f.locate? path with
  | none => .error .noEntry
  | some names => if f.hasFolder names then .error .isDirectory else .ok (f.put names text)

end Folder

structure Answer (ε : Type) where
  lines : Lines
  ending : Except (FileFault ⊕ ε) Nat
  folder : Folder

def runBy {ε : Type} (t : Tools ε) (f : Folder) (args : List (List Char)) : Answer ε :=
  let o := examine t (.ofList args) f.entry
  match o.ending with
  | .exit c => ⟨o.lines,.ok c,f⟩
  | .fileFault e => ⟨o.lines,.error (.inl e),f⟩
  | .clipFault e => ⟨o.lines,.error (.inr e),f⟩
  | .preview path text =>
    match f.write path text with
    | .error e => ⟨o.lines,.error (.inl e),f⟩
    | .ok g => ⟨o.lines.append (.ofOut [wroteLine path]),.ok 0,g⟩

def run : Folder → List (List Char) → Answer Overlay.Fault := runBy .own

end Inspect
end ExtrusionProfile
