import ExtrusionProfile.Overlay.Meet

/-! A sweep from left to right over some edges. The active edges, those that the sweep line
crosses, stand from below upwards. Two edges are tested for a meeting point when they become
neighbours, and are cut there; the right parts wait for the sweep line to reach them. -/
namespace ExtrusionProfile
namespace Overlay

namespace Edge

/-- The first of some comparisons that is not a tie. -/
def firstTelling : List Int → Int
  | [] => 0
  | c::cs => if c = 0 then firstTelling cs else c

def sideways (a b : Float) : Int := if a < b then -1 else if b < a then 1 else 0

/-- How the height of `e` compares with that of an edge which starts later: the later edge is
above when it starts there, or else when `e` ends below it. -/
def levelWith (e later : Edge) : Int :=
  let p := later.left
  if p.y < e.left.y && p.y < e.right.y then 1
  else if e.left.y < p.y && e.right.y < p.y then -1
  else firstTelling [-e.side p,later.side e.right,-1]

def fan (a b : Edge) : Int :=
  let u := a.direction
  let v := b.direction
  let c :=
    if a.right.x < b.right.x then b.side a.right
    else if b.right.x < a.right.x then -a.side b.right
    else 0
  let steep : Int :=
    if a.right.x == b.right.x then 0
    else if u.x < u.y && v.y < v.x then 1
    else if u.y < u.x && v.x < v.y then -1
    else 0
  firstTelling [c,steep,sideways a.right.x b.right.x,sideways a.right.y b.right.y]

/-- The order of edges along the sweep line: negative when `a` is below `b`. -/
def stacking (a b : Edge) : Int :=
  if b.right.x < a.left.x then 1
  else if a.right.x < b.left.x then -1
  else if a.left.x < b.left.x then a.levelWith b
  else if b.left.x < a.left.x then -b.levelWith a
  else firstTelling [sideways a.left.y b.left.y,fan a b]

def sameEnds (a b : Edge) : Bool := Point.same a.left b.left && Point.same a.right b.right

def startsBefore (a b : Edge) : Bool :=
  precedes a.left b.left || (Point.same a.left b.left && stacking a b < 0)

def stopsBefore (a b : Edge) : Bool :=
  precedes a.right b.right || (Point.same a.right b.right && stacking a b < 0)

def isCutBy (e : Edge) (p : Point Float) : Bool := !e.hasEnd p

end Edge

structure Sweep where
  grid : Grid
  /-- Edges that the sweep line has not reached, the next one first. -/
  waiting : List Edge
  /-- Edges that the sweep line crosses, from below upwards. -/
  active : List Edge
  passed : List Edge

def enqueue (e : Edge) : List Edge → List Edge
  | [] => [e]
  | f::fs => if e.startsBefore f then e::f::fs else f::enqueue e fs

theorem enqueue_perm (e : Edge) (fs : List Edge) : (enqueue e fs).Perm (e::fs) := by
  induction fs with
  | nil => exact .refl _
  | cons f fs ih =>
    rw [enqueue]
    split
    · exact .refl _
    · exact (ih.cons f).trans (.swap e f fs)

def enqueueAll (es fs : List Edge) : List Edge := es.foldl (fun fs e => enqueue e fs) fs

theorem enqueueAll_perm (es fs : List Edge) : (enqueueAll es fs).Perm (es ++ fs) := by
  induction es generalizing fs with
  | nil => exact .refl _
  | cons e es ih =>
    exact (ih (enqueue e fs)).trans (((enqueue_perm e fs).append_left es).trans List.perm_middle)

def Edge.cutActive (e : Edge) (p : Point Float) : List Edge × List Edge :=
  if e.isCutBy p then
    let parts := e.cut p
    (parts.filter fun f => Point.same f.left e.left,
      parts.filter fun f => !Point.same f.left e.left)
  else ([e],[])

def cutAt (e : Edge) : Option (Point Float) → List Edge × List Edge
  | some p => e.cutActive p
  | none => ([e],[])

/-- Split the active edges at the place of `e`: those below it, the last one first, and those
above it. -/
def placeIn (e : Edge) : List Edge → List Edge → List Edge × List Edge
  | below,[] => (below,[])
  | below,f::fs => if e.stacking f < 0 then (below,f::fs) else placeIn e (f::below) fs

def earlier? : Option (Point Float) → Option (Point Float) → Option (Point Float)
  | some p,some q => some (if precedes q p then q else p)
  | some p,none => some p
  | none,q => q

def meetNeighbour (g : Grid) (n : Option Edge) (e : Edge) : Option (Point Float) × Grid :=
  match n with
  | some f => Edge.meet? g f e
  | none => (none,g)

def mergeInto (e : Edge) : List Edge → Option (List Edge)
  | [] => none
  | f::fs =>
    if e.sameEnds f then some ({ f with windings := f.windings.addAll e.windings }::fs)
    else (mergeInto e fs).map (f::·)

/-- The sweep line reaches the edge `e`. It is cut at the earlier meeting point with a
neighbour; as long as there is a cut, the parts start anew. -/
def Sweep.reach (s : Sweep) (e : Edge) : Sweep :=
  match mergeInto e s.active with
  | some active => { s with active }
  | none =>
    let (below,above) := placeIn e [] s.active
    let (p?,g) := meetNeighbour s.grid below.head? e
    let (q?,g) := meetNeighbour g above.head? e
    let lower := (below.take 1).map (cutAt · p?)
    let upper := (above.take 1).map (cutAt · q?)
    let later := (lower ++ upper).flatMap Prod.snd
    let active (middle : List Edge) :=
      (below.drop 1).reverse ++ lower.flatMap Prod.fst ++ middle ++ upper.flatMap Prod.fst ++
        above.drop 1
    match earlier? (p?.filter e.isCutBy) (q?.filter e.isCutBy) with
    | some p => ⟨g,enqueueAll (e.cut p ++ later) s.waiting,active [],s.passed⟩
    | none =>
      if later.isEmpty then ⟨g,s.waiting,active [e],s.passed⟩
      else ⟨g,enqueueAll (e::later) s.waiting,active [],s.passed⟩

/-- The sweep line leaves an active edge, whose neighbours `f` and `h` become neighbours of
each other. -/
def Sweep.leave (s : Sweep) (below : List Edge) (e : Edge) (above : List Edge) : Sweep :=
  let passed := e::s.passed
  match below,above with
  | f::fs,h::hs =>
    let (p?,g) := Edge.meet? s.grid f h
    let lower := cutAt f p?
    let upper := cutAt h p?
    ⟨g,enqueueAll (lower.2 ++ upper.2) s.waiting,fs.reverse ++ lower.1 ++ upper.1 ++ hs,passed⟩
  | _,_ => ⟨s.grid,s.waiting,below.reverse ++ above,passed⟩

def firstLeft : List Edge → Option (List Edge × Edge × List Edge)
  | [] => none
  | e::es =>
    match firstLeft es with
    | some (below,f,above) =>
      if f.stopsBefore e then some (below ++ [e],f,above) else some ([],e,es)
    | none => some ([],e,es)

/-- Advance the sweep line by one end of an edge. Where edges stop and start, those that stop
go first. -/
def Sweep.step (s : Sweep) : Option Sweep :=
  match firstLeft s.active,s.waiting with
  | none,[] => none
  | none,e::es => some (Sweep.reach { s with waiting := es } e)
  | some (below,f,above),[] => some (s.leave below f above)
  | some (below,f,above),e::es =>
    if precedes e.left f.right then some (Sweep.reach { s with waiting := es } e)
    else some (s.leave below f above)

def Sweep.run : Nat → Sweep → Sweep
  | 0,s => s
  | n+1,s =>
    match s.step with
    | some s => run n s
    | none => s

/-- The parts into which some edges cut each other, as a sweep finds them. Edges that meet in
pairs make at most as many parts as there are pairs, twice over. -/
def sweep (g : Grid) (es : List Edge) : List Edge × Grid :=
  let s := Sweep.run (8*(es.length+1)*(es.length+1)) ⟨g,enqueueAll es [],[],[]⟩
  (s.passed ++ s.active ++ s.waiting,s.grid)

end Overlay
end ExtrusionProfile
