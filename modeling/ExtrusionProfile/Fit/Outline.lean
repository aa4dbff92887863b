import ExtrusionProfile.Number.Literal
import ExtrusionProfile.Plane.Basic

/-! Outlines as drawn, and the transform that fits them: the view box, declared or around all points,
is centred on the origin, its larger side is scaled to the target size, and `y` is turned to grow
upwards. Declared lengths, such as `12.5mm`, are a number literal, blanks, and a unit of letters and
percent signs. -/
namespace ExtrusionProfile

structure Length where
  value : Float
  /-- The unit in lower case, possibly empty. -/
  unit : List Char

namespace Length

def isUnitChar (c : Char) : Bool := c.isAlpha || c = '%'

def ofText? (text : List Char) : Option Length :=
  match Literal.scan (Text.trim text) with
  | some (t,r) =>
    let unit := Text.trimLeft r
    if unit.all isUnitChar then some ⟨Literal.value t,unit.map Char.toLower⟩ else none
  | none => none

def defaultExtent : Float := 100

/-- A declared length without its unit; only ratios matter further on. -/
def extent (fallback : Float) (text : Option (List Char)) : Float :=
  match text.bind ofText? with
  | some l => l.value
  | none => fallback

end Length

structure ViewBox (α : Type) where
  minX : α
  minY : α
  width : α
  height : α

namespace ViewBox

def isSeparator (c : Char) : Bool := Text.isBlank c || c = ','

/-- Cut a text at every run of separators. A run at an end leaves an empty field there. -/
def fields (cs : List Char) : List (List Char) :=
  match h : cs.dropWhile (!isSeparator ·) with
  | [] => [cs]
  | c::r =>
    have : (r.dropWhile isSeparator).length < cs.length := by
      have h₁ := (List.dropWhile_suffix (l := r) isSeparator).length_le
      have h₂ := (List.dropWhile_suffix (l := cs) (!isSeparator ·)).length_le
      rw [h,List.length_cons] at h₂
      omega
    cs.takeWhile (!isSeparator ·)::fields (r.dropWhile isSeparator)
termination_by cs.length

def ofText? (text : List Char) : Option (ViewBox Float) :=
  if text.isEmpty then none
  else
    match (fields (Text.trim text)).map Numeral.leading? with
    | [some x,some y,some w,some h] => some ⟨x,y,w,h⟩
    | _ => none

/-- The declared view box, or else one from the origin over the declared width and height. -/
def resolve (viewBox width height : Option (List Char)) : ViewBox Float :=
  match viewBox.bind ofText? with
  | some v => v
  | none => ⟨0,0,Length.extent Length.defaultExtent width,Length.extent Length.defaultExtent height⟩

end ViewBox

structure Outline (α : Type) where
  subpaths : List (List (Point α))
  viewBox : ViewBox α

variable {α : Type} [Scalar α]

structure Transform (α : Type) where
  scale : α
  centerX : α
  centerY : α

namespace Transform

def apply (t : Transform α) (p : Point α) : Point α :=
  ⟨(p.x-t.centerX)*t.scale,-(p.y-t.centerY)*t.scale⟩

def applyAll (t : Transform α) (ps : List (Point α)) : List (Point α) := ps.map t.apply

end Transform

namespace ViewBox

def longerSide (v : ViewBox α) : α := Scalar.greatest v.width v.height

def ofBounds (b : Bounds α) : ViewBox α := ⟨b.minX,b.minY,b.width,b.height⟩

end ViewBox

namespace Outline

def extent? (o : Outline α) : Option (ViewBox α) :=
  match Bounds.around? o.subpaths.flatten with
  | none => none
  | some b =>
    let v := ViewBox.ofBounds b
    if Scalar.le v.longerSide Scalar.zero then none else some v

/-- The declared view box, unless it has no positive side; then the box of all points. -/
def frame? (o : Outline α) : Option (ViewBox α) :=
  if Scalar.lt Scalar.zero o.viewBox.longerSide then some o.viewBox else o.extent?

/-- Fit an outline's frame to a size, one scale for both axes. -/
def fit? (targetSize userScale : α) (o : Outline α) : Option (Transform α) :=
  o.frame?.map fun v =>
    ⟨targetSize/v.longerSide*userScale,v.minX+v.width/Scalar.ofNat 2,
      v.minY+v.height/Scalar.ofNat 2⟩

end Outline
end ExtrusionProfile
