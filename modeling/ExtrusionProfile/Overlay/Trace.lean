import ExtrusionProfile.Overlay.Arrange

/-! Rings of a boundary. A walk starts at the leftmost border that is in no ring yet, heads to
the right and turns as far left as it can. Whenever it comes back to a branching point that
it has passed, the loop in between is a ring of its own. -/
namespace ExtrusionProfile
namespace Overlay

structure Stride where
  border : Nat
  source : Point Float
  target : Point Float

def Edge.other (e : Edge) (p : Point Float) : Point Float :=
  if Point.same e.left p then e.right else e.left

/-- A border with its number and whether it still belongs to no ring. -/
structure Slot where
  index : Nat
  border : Border
  free : Bool

/-- The strides that can follow `s`: the free borders at its target but its own. -/
def exits (slots : List Slot) (s : Stride) : List Stride :=
  slots.filterMap fun t =>
    if t.free && t.index ≠ s.border && t.border.edge.hasEnd s.target then
      some ⟨t.index,s.target,t.border.edge.other s.target⟩
    else none

/-- Whether `a`, seen from `o`, is met before `b` when turning clockwise from `back`. -/
def sooner (o back a b : Point Float) : Bool :=
  let half (c : Point Float) : Bool := 0 ≤ turn o c back
  let ha := half a
  let hb := half b
  if ha && !hb then true
  else if hb && !ha then false
  else if ha && turn o a back = 0 && turn o b back = 0 then
    inner o back b < 0 && 0 < inner o back a
  else 0 < turn o b a

def leftmost (back : Point Float) (s : Stride) (ss : List Stride) : Stride :=
  ss.foldl (fun best t => if sooner t.source back t.target best.target then t else best) s

/-- A branching point that a walk has passed, with the number of strides up to it. -/
structure Branch where
  point : Point Float
  length : Nat

structure Walk where
  slots : List Slot
  /-- The strides so far, the last one first. -/
  path : List Stride
  /-- The branching points passed, the last one first. -/
  branches : List Branch
  rings : List (List Stride)

def occupy (ring : List Stride) (slots : List Slot) : List Slot :=
  slots.map fun t => if ring.any (·.border = t.index) then { t with free := false } else t

def Walk.cutLoop (w : Walk) (b : Branch) (rest : List Branch) : Walk :=
  let n := w.path.length-b.length
  let loop := (w.path.take n).reverse
  ⟨occupy loop w.slots,w.path.drop n,rest,w.rings ++ [loop]⟩

/-- The branches from one at a point on, split off the earlier ones. -/
def findBranch (p : Point Float) : List Branch → Option (Branch × List Branch)
  | [] => none
  | b::bs => if Point.same b.point p then some (b,bs) else findBranch p bs

/-- Go on from the stride `s`, which is the last one made, until the walk is back at
`start`. A walk that gets stuck gives nothing. -/
def Walk.finish (start : Point Float) : Nat → Stride → Walk → Option Walk
  | 0,_,_ => none
  | n+1,s,w =>
    if Point.same s.target start then
      some ⟨occupy w.path w.slots,[],[],w.rings ++ [w.path.reverse]⟩
    else
      match exits w.slots s with
      | [] => none
      | [t] => finish start n t { w with path := t::w.path }
      | t::ts =>
        match findBranch s.target w.branches with
        | some (b,bs) => finish start n s (w.cutLoop b bs)
        | none =>
          let t := leftmost s.source t ts
          finish start n t
            { w with path := t::w.path, branches := ⟨s.target,w.path.length⟩::w.branches }

/-- Walk from every border that is still free, in order. Each walk makes a stride or cuts a
loop at most twice per border. -/
def traceFrom (bound : Nat) : List Border → Nat → Walk → Option Walk
  | [],_,w => some w
  | b::bs,i,w =>
    if w.slots.any fun t => t.index = i && t.free then
      let s : Stride := ⟨i,b.edge.left,b.edge.right⟩
      match Walk.finish b.edge.left bound s { w with path := [s], branches := [] } with
      | some w => traceFrom bound bs (i+1) w
      | none => none
    else traceFrom bound bs (i+1) w

def slotsFrom (i : Nat) : List Border → List Slot
  | [] => []
  | b::bs => ⟨i,b,true⟩::slotsFrom (i+1) bs

def trace (bs : List Border) : Option (List (List Stride)) :=
  (traceFrom (4*bs.length+4) bs 0 ⟨slotsFrom 0 bs,[],[],[]⟩).map Walk.rings

end Overlay
end ExtrusionProfile
