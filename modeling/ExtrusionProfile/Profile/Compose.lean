import ExtrusionProfile.Fit.Rings
import ExtrusionProfile.Nesting.Resolve

/-! Requests to extrude, nested polygons with a depth and a style, and their composition into one
solid. Whoever composes brings the solids: a way to extrude a polygon, to unite two solids and to
subtract one from another. A footprint is composed in the plane, where a polygon is extruded to the
region that it encloses and depth does not count. -/
namespace ExtrusionProfile
namespace Profile

/-- A placement hint such as `raised`, `engraved` or `cutout`, passed on unread. -/
abbrev Style := String

structure Request (α : Type) where
  polygons : List (Polygon α)
  depth : α
  style : Style

structure Options (α : Type) extends FitOptions α where
  depth : α
  style : Style

def Options.default : Options Float := { FitOptions.default with depth := 2, style := "raised" }

variable {α : Type} [Scalar α] [Root α]

/-- The request of an outline, if any ring of it is left. -/
def ofOutlineBy? (simplify : Simplifier α) (o : Options α) (outline : Outline α) :
    Option (Request α) :=
  match Nesting.resolve (outline.ringsBy simplify o.toFitOptions) with
  | [] => none
  | p::ps => some ⟨p::ps,o.depth,o.style⟩

def ofOutline? (o : Options α) (outline : Outline α) : Option (Request α) :=
  ofOutlineBy? Simplify.line o outline

structure Extruder (α σ : Type) where
  extrude : List (Point α) → α → σ
  union : σ → σ → σ
  subtract : σ → σ → σ

variable {α σ : Type}

/-- Add one polygon to what is composed so far. A hole before the first fill cuts nothing. -/
def add (e : Extruder α σ) (depth : α) (acc : Option σ) (p : Polygon α) : Option σ :=
  match acc,p.role with
  | none,.hole => none
  | none,.fill => some (e.extrude p.points depth)
  | some s,.fill => some (e.union s (e.extrude p.points depth))
  | some s,.hole => some (e.subtract s (e.extrude p.points depth))

/-- Compose the polygons in the order of the request; without a fill there is no solid. -/
def compose (e : Extruder α σ) (r : Request α) : Option σ :=
  r.polygons.foldl (add e r.depth) none

/-- A solid as the way it was constructed. -/
inductive Construction (α : Type)
  | extrude (points : List (Point α)) (depth : α)
  | union (a b : Construction α)
  | subtract (a b : Construction α)

def Construction.extruder : Extruder α (Construction α) := ⟨.extrude,.union,.subtract⟩

/-- Regions, or why they could not be found. -/
abbrev FootprintOr (ε : Type) := Except ε (List (Region Float))

abbrev Clip (ε : Type) := List (Region Float) → List (Region Float) → FootprintOr ε

structure Clipper (ε : Type) where
  union : Clip ε
  difference : Clip ε

variable {ε : Type}

def polygonFootprint (ps : List (Point Float)) : FootprintOr ε := .ok [⟨ps,[]⟩]

/-- Combine two footprints, unless one of them could not be found. -/
def overlayBy (clip : Clip ε) (a b : FootprintOr ε) : FootprintOr ε :=
  a.bind fun a => b.bind fun b => clip a b

def footprintExtruderBy (c : Clipper ε) : Extruder Float (FootprintOr ε) where
  extrude ps _ := polygonFootprint ps
  union := overlayBy c.union
  subtract := overlayBy c.difference

/-- The regions that a profile covers; without a fill there are none. -/
def footprintBy (c : Clipper ε) (r : Request Float) : FootprintOr ε :=
  (compose (footprintExtruderBy c) r).getD (.ok [])

end Profile
end ExtrusionProfile
