import ExtrusionProfile.Overlay.Edge

/-! Where two edges meet. A meeting point close to an end is that end, and any other one is
computed and snapped. -/
namespace ExtrusionProfile
namespace Overlay

structure Box where
  low : Point Float
  high : Point Float

namespace Box

def holds (b : Box) (p : Point Float) : Bool :=
  b.low.x ≤ p.x && p.x ≤ b.high.x && b.low.y ≤ p.y && p.y ≤ b.high.y

def lesser (a b : Float) : Float := if a < b then a else b

def greater (a b : Float) : Float := if a < b then b else a

def common? (a b : Box) : Option Box :=
  if b.high.x < a.low.x || a.high.x < b.low.x || b.high.y < a.low.y || a.high.y < b.low.y then
    none
  else
    some ⟨⟨greater a.low.x b.low.x,greater a.low.y b.low.y⟩,
      ⟨lesser a.high.x b.high.x,lesser a.high.y b.high.y⟩⟩

def clamp (b : Box) (p : Point Float) : Point Float :=
  ⟨lesser (greater p.x b.low.x) b.high.x,lesser (greater p.y b.low.y) b.high.y⟩

end Box

namespace Edge

def box (e : Edge) : Box :=
  ⟨⟨e.left.x,Box.lesser e.left.y e.right.y⟩,⟨e.right.x,Box.greater e.left.y e.right.y⟩⟩

def direction (e : Edge) : Point Float := ⟨e.right.x-e.left.x,e.right.y-e.left.y⟩

/-- On which side of an edge a point is: 1 above, -1 below, 0 on its line, as far as either
coordinate computed from the other one shows. Above an upright edge is to its left. -/
def side (e : Edge) (p : Point Float) : Int :=
  if e.hasEnd p then 0
  else if e.left.x == e.right.x then
    if p.x == e.left.x then 0 else if p.x < e.left.x then 1 else -1
  else
    let v := e.direction
    let y := e.left.y+(p.x-e.left.x)/v.x*v.y
    if p.x == e.left.x+(p.y-e.left.y)/v.y*v.x || p.y == y then 0
    else if p.y < y then -1 else 1

def touches (e : Edge) (p : Point Float) : Bool := e.box.holds p && e.side p = 0

def cross (u v : Point Float) : Float := u.x*v.y-u.y*v.x

def atAbscissa? (p v : Point Float) (x : Float) : Option (Point Float) :=
  if v.x == 0 then none else some ⟨x,p.y+v.y/v.x*(x-p.x)⟩

def atOrdinate? (p v : Point Float) (y : Float) : Option (Point Float) :=
  if v.y == 0 then none else some ⟨p.x+v.x/v.y*(y-p.y),y⟩

/-- The common point of the lines of two edges, unless they are parallel: the middle of what
each of them gives. -/
def linesMeet? (e f : Edge) : Option (Point Float) :=
  let p := e.left
  let q := f.left
  let v := e.direction
  let w := f.direction
  if v.x == 0 then atAbscissa? q w p.x
  else if w.x == 0 then atAbscissa? p v q.x
  else if v.y == 0 then atOrdinate? q w p.y
  else if w.y == 0 then atOrdinate? p v q.y
  else
    let k := cross v w
    if k == 0 then none
    else
      let d : Point Float := ⟨q.x-p.x,q.y-p.y⟩
      let s := cross d v/k
      let t := cross d w/k
      some ⟨((p.x+t*v.x)+(q.x+s*w.x))/2,((p.y+t*v.y)+(q.y+s*w.y))/2⟩

/-- A point in which two edges meet other than in a common end, snapped. Ends that lie on the
other edge come first, so that overlapping edges are cut at their ends. -/
def meet? (g : Grid) (e f : Edge) : Option (Point Float) × Grid :=
  match e.box.common? f.box with
  | none => (none,g)
  | some b =>
    let found (p : Point Float) : Option (Point Float) × Grid := (some p,g)
    match f.touches e.left,e.touches f.left,f.touches e.right,e.touches f.right with
    | true,true,true,false => found e.right
    | true,true,false,true => found f.right
    | true,true,_,_ => (none,g)
    | true,false,_,r => if r && Point.same e.left f.right then (none,g) else found e.left
    | false,true,r,_ => if r && Point.same e.right f.left then (none,g) else found f.left
    | false,false,true,true => (none,g)
    | false,false,true,false => found e.right
    | false,false,false,true => found f.right
    | false,false,false,false =>
      match linesMeet? e f with
      | some p => if b.holds p then ((g.snap p).1,(g.snap p).2) else (none,g)
      | none => (none,g)

end Edge
end Overlay
end ExtrusionProfile
