import ExtrusionProfile.Number.Literal
import ExtrusionProfile.Nesting.Resolve
import ExtrusionProfile.Number.Text
import ExtrusionProfile.Drawing.Read
import ExtrusionProfile.Profile.Compose

/-! The inspect command. It looks at one file, prints a report on its issues, the nesting of every
polygon, the regions and the area of the footprint, and writes at most one file as its last act: a
preview, the footprint in a frame with some room around, with `y` turned to grow downwards again.
The command is told how to read documents, how to simplify lines and how to clip regions. -/
namespace ExtrusionProfile
namespace Inspect

structure Arguments where
  path : Option (List Char)
  target : Option Float
  depth : Option Float
  preview : Option (List Char)

def isFlag : List Char → Bool
  | '-' :: '-' :: _ => true
  | _ => false

def freeArgument? (afterFlag : Bool) : List (List Char) → Option (List Char)
  | [] => none
  | a::as => if isFlag a || afterFlag then freeArgument? (isFlag a) as else some a

/-- The argument behind the first place where a flag stands. -/
def valueOf? (flag : List Char) : List (List Char) → Option (List Char)
  | [] => none
  | a::as => if a = flag then as.head? else valueOf? flag as

def nonempty? (cs : Option (List Char)) : Option (List Char) := cs.filter (!·.isEmpty)

def numberOf? (flag : String) (args : List (List Char)) : Option Float :=
  (valueOf? flag.toList args).bind Numeral.leading?

def Arguments.ofList (args : List (List Char)) : Arguments where
  path := nonempty? (freeArgument? false args)
  target := numberOf? "--target" args
  depth := numberOf? "--depth" args
  preview := nonempty? (valueOf? "--preview".toList args)

structure Frame where
  minX : Float
  minY : Float
  width : Float
  height : Float

def allPoints (rs : List (Region Float)) : List (Point Float) :=
  (rs.flatMap fun r => r.outer::r.holes).flatten

/-- The box of all points and a twentieth of its longer side around it. -/
def Frame.around (rs : List (Region Float)) : Frame :=
  let xs := (allPoints rs).map Point.x
  let ys := (allPoints rs).map fun p => -p.y
  let least (vs : List Float) : Float := vs.foldl Binary64.least (1/0)
  let greatest (vs : List Float) : Float := vs.foldl Binary64.greatest (-1/0)
  let minX := least xs
  let minY := least ys
  let width := greatest xs-minX
  let height := greatest ys-minY
  let pad := Binary64.greatest width height*0.05
  ⟨minX-pad,minY-pad,width+pad*2,height+pad*2⟩

def plain (x : Float) : String := String.ofList (NumberText.plain x)

def fixed (places : Nat) (x : Float) : String := String.ofList (NumberText.fixed places x)

def vertexText (letter : String) (p : Point Float) : String :=
  letter ++ fixed 3 p.x ++ " " ++ fixed 3 (-p.y)

def ringText : List (Point Float) → String
  | [] => " Z"
  | p::ps => String.intercalate " " (vertexText "M" p::ps.map (vertexText "L")) ++ " Z"

def regionText (r : Region Float) : String :=
  "  <path d=\"" ++ String.intercalate " " ((r.outer::r.holes).map ringText) ++
    "\" fill=\"#4a90d9\" fill-rule=\"evenodd\"/>"

def previewText (rs : List (Region Float)) : String :=
  let f := Frame.around rs
  let box := String.intercalate " " [plain f.minX,plain f.minY,plain f.width,plain f.height]
  "<svg xmlns=\"http://www.w3.org/2000/svg\" viewBox=\"" ++ box ++ "\">\n" ++
    String.intercalate "\n" (rs.map regionText) ++ "\n</svg>\n"

structure Lines where
  out : List String
  err : List String

namespace Lines

def none : Lines := ⟨[],[]⟩

def append (a b : Lines) : Lines := ⟨a.out ++ b.out,a.err ++ b.err⟩

def ofOut (ls : List String) : Lines := ⟨ls,[]⟩

def ofErr (ls : List String) : Lines := ⟨[],ls⟩

end Lines

def rule (c : Char) : String := String.ofList (List.replicate 60 c)

def header (path : List Char) : List String :=
  [rule '=',"Profile inspection: " ++ String.ofList path,rule '=']

def issueLine (i : Drawing.Issue) : String :=
  let details :=
    match i.details? with
    | some d => if d.isEmpty then "" else " (" ++ d ++ ")"
    | none => ""
  "[" ++ i.severity.name ++ "] " ++ i.code ++ ": " ++ i.message ++ details

/-- Errors go to the error stream, everything else to the output. -/
def issueLines (is : List Drawing.Issue) : Lines where
  out := (is.filter (·.severity ≠ .error)).map issueLine
  err := (is.filter (·.severity = .error)).map issueLine

def roleName : Role → String
  | .fill => "fill"
  | .hole => "hole"

def polygonLine (p : Polygon Float) : String :=
  let b := p.bounds
  String.ofList (List.replicate (2*p.level) ' ') ++ "#" ++ toString p.source ++ " " ++
    roleName p.role ++ " level " ++ toString p.level ++ "  " ++ toString p.points.length ++
    " pts  [" ++ fixed 2 b.minX ++ ", " ++ fixed 2 b.minY ++ "] - [" ++ fixed 2 b.maxX ++ ", " ++
    fixed 2 b.maxY ++ "]"

def requestLines (i : Drawing.Imported) : List String :=
  let v := i.source.viewBox
  let r := i.request
  ["\nSource: " ++ toString i.source.subpaths.length ++ " subpaths, viewBox " ++ plain v.minX ++
      " " ++ plain v.minY ++ " " ++ plain v.width ++ " " ++ plain v.height,
    "Profile: " ++ toString r.polygons.length ++ " polygons, depth " ++ plain r.depth ++
      ", style " ++ r.style,
    rule '-'] ++ r.polygons.map polygonLine

def footprintLines (r : Profile.Request Float) (footprint : List (Region Float)) : List String :=
  let regions := Region.group r.polygons
  let holes := (regions.flatMap Region.holes).length
  [rule '-',
    "Regions: " ++ toString regions.length ++ " (" ++ toString holes ++ " holes)",
    "Footprint: " ++ toString footprint.length ++ " polygons, area " ++
      fixed 3 (Region.area footprint)]

def profileOptions (a : Arguments) : Profile.Options Float :=
  { Profile.Options.default with
    targetSize := a.target.getD Profile.Options.default.targetSize
    depth := a.depth.getD Profile.Options.default.depth }

inductive Entry
  | missing
  | directory
  | file (text : List Char)

inductive FileFault | noEntry | isDirectory
deriving DecidableEq, Repr

inductive Ending (ε : Type)
  | exit (code : Nat)
  /-- The preview is still to be written; a line about it follows when that is done. -/
  | preview (path text : List Char)
  | fileFault (f : FileFault)
  | clipFault (f : ε)

structure Outcome (ε : Type) where
  lines : Lines
  ending : Ending ε

/-- What a run leaves to others. -/
structure Tools (ε : Type) where
  parse : Markup.Reader
  simplify : Simplifier Float
  clipper : Profile.Clipper ε

variable {ε : Type}

def usage : String :=
  "Usage: npx tsx scripts/inspect-svg.ts <file.svg> [--target 20] [--depth 2] [--preview out.svg]"

def examineRequest (t : Tools ε) (a : Arguments) (ls : Lines) (i : Drawing.Imported) : Outcome ε :=
  let ls := ls.append (.ofOut (requestLines i))
  match Profile.footprintBy t.clipper i.request with
  | .error f => ⟨ls,.clipFault f⟩
  | .ok regions =>
    let ls := ls.append (.ofOut (footprintLines i.request regions))
    match a.preview with
    | some p => ⟨ls,.preview p (previewText regions).toList⟩
    | none => ⟨ls,.exit 0⟩

def importText (t : Tools ε) (a : Arguments) (path text : List Char) :
    Except Drawing.Fault Drawing.ImportResult :=
  Drawing.importProfileBy t.parse t.simplify { name := some (String.ofList path) }
    (profileOptions a) text

def examineText (t : Tools ε) (a : Arguments) (path text : List Char) (ls : Lines) : Outcome ε :=
  match importText t a path text with
  | .error f => ⟨ls.append (.ofErr [Drawing.Fault.code ++ ": " ++ f.report]),.exit 1⟩
  | .ok r =>
    let ls := ls.append (issueLines r.issues)
    match r.imported with
    | none => ⟨ls.append (.ofOut ["\nNothing to extrude"]),.exit 0⟩
    | some i => examineRequest t a ls i

def examine (t : Tools ε) (a : Arguments) (look : List Char → Entry) : Outcome ε :=
  match a.path with
  | none => ⟨.ofErr [usage],.exit 1⟩
  | some path =>
    match look path with
    | .missing => ⟨.ofErr ["Error: SVG file not found: " ++ String.ofList path],.exit 1⟩
    | .directory => ⟨.ofOut (header path),.fileFault .isDirectory⟩
    | .file text => examineText t a path text (.ofOut (header path))

def wroteLine (path : List Char) : String := "Wrote preview SVG to: " ++ String.ofList path

end Inspect
end ExtrusionProfile
