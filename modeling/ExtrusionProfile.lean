import ExtrusionProfile.Main
import ExtrusionProfile.Inspect.Folder
import ExtrusionProfile.Proofs.Path.Concatenation
import ExtrusionProfile.Proofs.Path.Absolute
import ExtrusionProfile.Proofs.Profile.EvenOdd
import ExtrusionProfile.Proofs.Path.Grammar
import ExtrusionProfile.Proofs.Path.Strokes
import ExtrusionProfile.Proofs.Path.Emptiness
import ExtrusionProfile.Proofs.Path.Longhand
import ExtrusionProfile.Proofs.Path.Repetition
import ExtrusionProfile.Proofs.Nesting.Grouping
import ExtrusionProfile.Proofs.Path.Coherence
import ExtrusionProfile.Proofs.Number.Packing
import ExtrusionProfile.Proofs.Number.Rounding
import ExtrusionProfile.Proofs.Number.Arithmetic
import ExtrusionProfile.Proofs.Plane.Bounds
import ExtrusionProfile.Proofs.Nesting.Precedence
import ExtrusionProfile.Proofs.Number.Decimal
import ExtrusionProfile.Proofs.Number.Literal
import ExtrusionProfile.Proofs.Path.Lexemes
import ExtrusionProfile.Proofs.Fit.Clean
import ExtrusionProfile.Proofs.Drawing.Contributions
import ExtrusionProfile.Proofs.Path.Spelling
import ExtrusionProfile.Proofs.Profile.Completeness
import ExtrusionProfile.Proofs.Fit.Rings
import ExtrusionProfile.Proofs.Nesting.Parts
import ExtrusionProfile.Proofs.Path.Tessellation
import ExtrusionProfile.Proofs.Shape.PointList
import ExtrusionProfile.Proofs.Profile.Painting
import ExtrusionProfile.Proofs.Profile.Rearrangement
import ExtrusionProfile.Proofs.Nesting.Uniqueness
import ExtrusionProfile.Proofs.Path.Conservation
import ExtrusionProfile.Proofs.Fit.Length
import ExtrusionProfile.Proofs.Number.WholePart
import ExtrusionProfile.Proofs.Path.Steps
import ExtrusionProfile.Proofs.Plane.Bezier
import ExtrusionProfile.Proofs.Fit.ViewBox
import ExtrusionProfile.Proofs.Fit.Rescaling
import ExtrusionProfile.Proofs.Nesting.Image
import ExtrusionProfile.Proofs.Inspect.Placement
import ExtrusionProfile.Proofs.Inspect.Effects
import ExtrusionProfile.Proofs.Plane.Area
import ExtrusionProfile.Proofs.Number.Operations
import ExtrusionProfile.Proofs.Number.Error
import ExtrusionProfile.Proofs.Number.Bounded
import ExtrusionProfile.Proofs.Number.Trig
import ExtrusionProfile.Proofs.Number.ArcCosine
import ExtrusionProfile.Proofs.Number.Exponent
import ExtrusionProfile.Proofs.Plane.Centre
import ExtrusionProfile.Proofs.Plane.Arc
import ExtrusionProfile.Proofs.Number.Extremes
import ExtrusionProfile.Proofs.Plane.Enclosing
import ExtrusionProfile.Proofs.Number.Margin
import ExtrusionProfile.Proofs.Overlay.Window
import ExtrusionProfile.Proofs.Overlay.Parts
import ExtrusionProfile.Proofs.Overlay.Rings
import ExtrusionProfile.Proofs.Profile.Footprint
import ExtrusionProfile.Proofs.Number.Shortest
import ExtrusionProfile.Proofs.Number.Text
import ExtrusionProfile.Proofs.Inspect.Frame
import ExtrusionProfile.Proofs.Inspect.Preview
import ExtrusionProfile.Proofs.Nesting.Role
