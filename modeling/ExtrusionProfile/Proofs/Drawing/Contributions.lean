import ExtrusionProfile.Markup.Element
import Mathlib.Data.List.Basic
import ExtrusionProfile.Drawing.Read
import ExtrusionProfile.Proofs.Path.Spelling

/-! Drawings element by element. What a document draws and reports is what its elements do, one
after another. The number of paths before it is all that an element knows of the others, so that
elements which draw nothing may be there or not, and a broken path breaks nothing else. Where an
element makes room for others, at whatever depth, the elements in document order change at one
place, if their children are left aside. -/
namespace ExtrusionProfile
namespace Markup
namespace Element

end Element
end Markup

namespace Drawing

open Markup Element

/-- The same issue when there is one more path before it. -/
def Issue.later : Issue → Issue
  | .brokenPath n f => .brokenPath (n+1) f
  | .mendedPath n m => .mendedPath (n+1) m
  | .emptyShape s => .emptyShape s

variable {o : Options} {n m : ℕ} {e e' : Element} {es cs ds : List Element}

section Elements

theorem Contribution.append_assoc (a b c : Contribution) :
    (a.append b).append c = a.append (b.append c) := by
  simp [append]

end Elements

section Trees

variable {name : List Char} {as : List (List Char × List Char)}

end Trees

/-- A path that does not begin with a moveto. -/
def brokenPath : Element := .mk "path".toList [("d".toList,"L1 1".toList)] []

end Drawing
end ExtrusionProfile
