import ExtrusionProfile.Overlay.Sweep

/-! The arrangement of some edges, and the boundary of a combined region in it. The parts of the
edges meet in common ends only; the sweep finds them up to rounding, and the rest is settled pair by
pair with exact tests. A part has a winding number of each ring on both of its sides, and bounds the
result where one side is in and the other is out. -/
namespace ExtrusionProfile
namespace Overlay

namespace Edge

def passesThrough (e : Edge) (p : Point Float) : Bool :=
  e.box.holds p && !e.hasEnd p && turn e.left e.right p = 0

def crosses (e f : Edge) : Bool :=
  (turn e.left e.right f.left).sign*(turn e.left e.right f.right).sign = -1 &&
    (turn f.left f.right e.left).sign*(turn f.left f.right e.right).sign = -1

/-- A point in which two edges still have to be cut. That of a crossing is computed, and kept
in the common box, where it really is. -/
def conflict? (g : Grid) (e f : Edge) : Option (Point Float) × Grid :=
  match e.box.common? f.box with
  | none => (none,g)
  | some b =>
    match [f.left,f.right].find? e.passesThrough <|> [e.left,e.right].find? f.passesThrough with
    | some p => (some p,g)
    | none =>
      if crosses e f then
        let s := g.snap (b.clamp ((linesMeet? e f).getD e.left))
        (some s.1,s.2)
      else (none,g)

def cutsAny (e f : Edge) (p : Point Float) : Bool := !e.hasEnd p || !f.hasEnd p

end Edge

/-- Find the first edge that `e` has to be cut with; that edge is taken out of the list. -/
def firstConflict (g : Grid) (e : Edge) :
    List Edge → Option (Edge × Point Float × List Edge) × Grid
  | [] => (none,g)
  | f::fs =>
    match Edge.conflict? g f e with
    | (some p,h) =>
      if Edge.cutsAny f e p then (some (f,p,fs),h)
      else
        let r := firstConflict h e fs
        (r.1.map fun (d,q,ds) => (d,q,f::ds),r.2)
    | (none,h) =>
      let r := firstConflict h e fs
      (r.1.map fun (d,q,ds) => (d,q,f::ds),r.2)

/-- Cut the waiting edges against the settled ones. The parts of two edges that meet wait
again; each of at most `n` steps settles an edge or makes a cut. -/
def settle (g : Grid) : Nat → List Edge → List Edge → List Edge
  | 0,waiting,settled => waiting ++ settled
  | _,[],settled => settled
  | n+1,e::waiting,settled =>
    match firstConflict g e settled with
    | (none,h) => settle h n waiting (e::settled)
    | (some (f,p,rest),h) => settle h n (f.cut p ++ e.cut p ++ waiting) rest

def absorb (e : Edge) : List Edge → List Edge
  | [] => [e]
  | f::fs =>
    if e.sameEnds f then { f with windings := f.windings.addAll e.windings }::fs
    else f::absorb e fs

/-- The arrangement of some edges. Two edges have one meeting point at a time, and cuts add at
most two edges for it, which bounds the number of steps. -/
def arrange (g : Grid) (es : List Edge) : List Edge :=
  let s := sweep g es
  let n := s.1.length+1
  (settle s.2 (8*n*n) s.1 []).foldl (fun fs e => absorb e fs) []

/-- Whether `f` runs below `e` just to the right of the left end of `e`. An upright edge
counts as running upwards, with its right side below it. -/
def isBelow (f e : Edge) : Bool :=
  f.left.x ≤ e.left.x && e.left.x < f.right.x &&
    (let s := turn f.left f.right e.left
     0 < s || (s = 0 && 0 < turn f.left f.right e.right))

def windingsBelow (es : List Edge) (e : Edge) : Windings :=
  es.foldl (fun ws f => if isBelow f e then ws.addAll f.windings else ws) []

inductive Operation | union | difference
deriving DecidableEq, Repr

def Operation.keeps (o : Operation) (ws : Windings) : Bool :=
  match o with
  | .union => ws.covers .subject || ws.covers .clip
  | .difference => ws.covers .subject && !ws.covers .clip

/-- An edge of the boundary; `filledAbove` tells on which side the region lies. -/
structure Border where
  edge : Edge
  filledAbove : Bool

def border? (o : Operation) (es : List Edge) (e : Edge) : Option Border :=
  let below := windingsBelow es e
  let above := o.keeps (below.addAll e.windings)
  if o.keeps below = above then none else some ⟨e,above⟩

/-- Borders by their left ends, and the lower one first at a common left end. -/
def Border.before (a b : Border) : Bool :=
  precedes a.edge.left b.edge.left ||
    (Point.same a.edge.left b.edge.left && 0 < turn a.edge.left a.edge.right b.edge.right)

def borders (o : Operation) (es : List Edge) : List Border :=
  (es.filterMap (border? o es)).mergeSort fun a b => !b.before a

end Overlay
end ExtrusionProfile
