import ExtrusionProfile.Shape.Basic
import ExtrusionProfile.Proofs.Path.Emptiness
import ExtrusionProfile.Proofs.Path.Grammar
import ExtrusionProfile.Proofs.Path.Spelling

/-! Point lists as path data. Behind a moveto a list of coordinates means the polyline through
its pairs, and with a closepath at its end the polygon: both readers find the same numbers, take
them in pairs and leave an odd one at the end out. -/
namespace ExtrusionProfile

namespace Path

open Shape

theorem tokensFrom_numbers (o : ℕ) {cs : List Char} (h : ∀ c ∈ cs, Command.ofLetter? c = none) :
    ∃ ns : List Numeral, tokensFrom o cs = ns.map .number ∧
      ns.map Numeral.value = Literal.numbers cs := by
  refine ⟨(tokensFrom o cs).filterMap Token.numeral?,?_,values_tokensFrom o cs⟩
  have hn : ∀ a ∈ tokensFrom o cs, a.numeral?.map .number = some a := by
    intro a ha
    obtain ⟨us,es,rfl,-,hb⟩ := tokensFrom_begins o cs a ha
    cases a with
    | command k p =>
      have hk := h k.letter (List.mem_append_right us (List.mem_of_head? hb))
      rw [Command.ofLetter?_letter] at hk
      cases hk
    | number n => rfl
  rw [List.map_filterMap,List.filterMap_congr hn,List.filterMap_some]

theorem pieces_cons_cons {β : Type} (a b : β) (xs : List β) :
    pieces 2 ((a::b::xs).length/2) (a::b::xs) = [a,b]::pieces 2 (xs.length/2) xs := by
  have hl : (a::b::xs).length/2 = xs.length/2+1 := Nat.add_div_right xs.length Nat.two_pos
  rw [hl]
  rfl

theorem segmentsOf_lineto : ∀ ns : List Numeral,
    segmentsOf .lineto (pieces 2 (ns.length/2) ns) =
      (pairs (ns.map Numeral.value)).map .lineto
  | [] => rfl
  | [_] => by simp [pieces,segmentsOf,pairs]
  | a::b::ns => by
    rw [pieces_cons_cons]
    show _ ++ segmentsOf .lineto (pieces 2 (ns.length/2) ns) = _
    rw [segmentsOf_lineto ns]
    rfl

def polylineStrokes : List (Point Float) → List Stroke
  | [] => []
  | p::ps => ⟨false,.moveto p⟩::ps.map fun q => ⟨false,.lineto q⟩

theorem strokes_moveto (o : ℕ) (ns : List Numeral) :
    Run.strokes ⟨⟨.moveto,false⟩,o,ns⟩ = polylineStrokes (pairs (ns.map Numeral.value)) := by
  have hs : Run.segments ⟨⟨.moveto,false⟩,o,ns⟩ = segmentsOf .moveto (pieces 2 (ns.length/2) ns) :=
    Run.segments_eq _
  simp only [Run.strokes,reduceCtorEq,if_false,hs]
  cases ns with
  | nil => rfl
  | cons a ns =>
    cases ns with
    | nil => simp [pieces,segmentsOf,pairs,polylineStrokes]
    | cons b ns =>
      have hr : Family.moveto.repeated = .lineto := rfl
      rw [pieces_cons_cons,segmentsOf,hr,segmentsOf_lineto]
      simp [Segment.ofArguments?,pairs,polylineStrokes]

namespace Canvas

/-- The canvas behind a polyline from `p` through some more points. -/
def polyline (p : Point Float) (ps : List (Point Float)) : Canvas :=
  ⟨[],p::ps,⟨ps.getLastD p,p,none,false⟩,[]⟩

variable (t : Tessellation) (p : Point Float) (ps : List (Point Float))

theorem stroke_lineto (q : Point Float) :
    (polyline p ps).stroke t ⟨false,.lineto q⟩ = polyline p (ps ++ [q]) := by
  simp [stroke,draw,polyline,bare,reopen,extend,Cursor.step,Cursor.lineTo,Cursor.resolve]

theorem foldl_stroke_polyline (qs : List (Point Float)) :
    (qs.map fun q => ⟨false,.lineto q⟩).foldl (stroke t) (polyline p ps) =
      polyline p (ps ++ qs) := by
  induction qs generalizing ps with
  | nil => simp
  | cons q qs ih =>
    rw [List.map_cons,List.foldl_cons,stroke_lineto,ih,List.append_assoc]
    rfl

theorem foldl_polylineStrokes : (polylineStrokes (p::ps)).foldl (stroke t) .empty = polyline p ps := by
  have hp : empty.stroke t ⟨false,.moveto p⟩ = polyline p [] := rfl
  rw [polylineStrokes,List.foldl_cons,hp,foldl_stroke_polyline]
  rfl

/-- The last point of a closed polyline is the first one again, unless it is there already. -/
theorem stroke_polyline_closepath (r : Bool) :
    ((polyline p ps).stroke t ⟨r,.closepath⟩).flush.finished =
      [if Point.same (ps.getLastD p) p then p::ps else closed (p::ps)] := by
  rw [List.getLastD_eq_getLast?]
  by_cases h : Point.same (ps.getLast?.getD p) p <;>
    simp [stroke,draw,polyline,bare,extend,flush,Cursor.step,closed,h]

end Canvas

theorem subpaths_moveto {t : Tessellation} {ts : List Token} {o : ℕ} {ns : List Numeral} {a : Drawn}
    (h : interpret t ts = .ok a) (hr : (runs ts).2 = [⟨⟨.moveto,false⟩,o,ns⟩]) :
    a.subpaths = if pairs (ns.map Numeral.value) = [] then [] else [pairs (ns.map Numeral.value)] := by
  rw [subpaths_interpret h,strokes,hr,List.flatMap_singleton,strokes_moveto]
  cases pairs (ns.map Numeral.value) with
  | nil => rfl
  | cons p ps =>
    rw [Canvas.foldl_polylineStrokes]
    rfl

theorem subpaths_moveto_closepath {t : Tessellation} {ts : List Token} {o o' : ℕ}
    {ns : List Numeral} {a : Drawn} (h : interpret t ts = .ok a)
    (hr : (runs ts).2 = [⟨⟨.moveto,false⟩,o,ns⟩,⟨⟨.closepath,false⟩,o',[]⟩]) :
    a.subpaths = match pairs (ns.map Numeral.value) with
      | [] => []
      | p::ps => [if Point.same (ps.getLastD p) p then p::ps else closed (p::ps)] := by
  have hc : Run.strokes ⟨⟨.closepath,false⟩,o',[]⟩ = [⟨false,.closepath⟩] := rfl
  rw [subpaths_interpret h,strokes,hr,List.flatMap_cons,List.flatMap_singleton,strokes_moveto,hc,
    List.foldl_append]
  cases pairs (ns.map Numeral.value) with
  | nil =>
    have hb : Canvas.empty.stroke t ⟨false,.closepath⟩ = _ :=
      Canvas.stroke_blank_closepath t false false
    simp only [polylineStrokes,List.foldl_nil,List.foldl_cons,hb]
    rfl
  | cons p ps =>
    rw [Canvas.foldl_polylineStrokes]
    exact Canvas.stroke_polyline_closepath t p ps false

theorem exists_runs_tokens {text : List Char} (h : ∀ k : Command, k.letter ∉ text) :
    ∃ o ns, runs (tokens ('M'::text)) = ([],[⟨⟨.moveto,false⟩,0,ns⟩]) ∧
      runs (tokens ('M'::(text ++ ['Z']))) =
        ([],[⟨⟨.moveto,false⟩,0,ns⟩,⟨⟨.closepath,false⟩,o,[]⟩]) ∧
      pairs (ns.map Numeral.value) = pointList text := by
  have hl : ∀ c ∈ text, Command.ofLetter? c = none := by
    intro c hc
    apply Option.eq_none_iff_forall_ne_some.mpr
    intro k hk
    apply h k
    rw [letter_of_ofLetter? hk]
    exact hc
  obtain ⟨ns,ht,hv⟩ := tokensFrom_numbers (0+Text.unitsOf 'M') hl
  have hM : Command.ofLetter? 'M' = some ⟨.moveto,false⟩ := rfl
  have hZ : Command.ofLetter? 'Z' = some ⟨.closepath,false⟩ := rfl
  refine ⟨0+Text.unitsOf 'M'+Text.units text,ns,?_,?_,congrArg pairs hv⟩
  · rw [tokens,tokensFrom_command hM,ht]
    simpa [Run.tokens] using runs_flatMap_tokens [⟨⟨.moveto,false⟩,0,ns⟩]
  · -- No literal goes over the closepath.
    rw [tokens,tokensFrom_command hM,tokensFrom_append_break rfl,ht,tokensFrom_command hZ]
    simpa [Run.tokens,tokensFrom] using
      runs_flatMap_tokens [⟨⟨.moveto,false⟩,0,ns⟩,⟨⟨.closepath,false⟩,_,[]⟩]

theorem not_blamed {ts : List Token} (hm : openingFault? (runs ts) = none)
    (hf : ∀ r ∈ (runs ts).2, r.fault? = none) (f : Fault) : ¬Blamed ts f := by
  intro hb
  rw [blamed_iff (openingFault?_eq_none_iff.mp hm)] at hb
  obtain ⟨r,hr,h⟩ := List.exists_of_findSome?_eq_some hb
  rw [hf r hr] at h
  cases h

/-- A list of coordinates behind a moveto is the polyline through its points. With a closepath at
its end it is the polygon, which repeats the first point only if the last one is another. Of a
list without a complete pair nothing is left. -/
theorem draw_pointList (t : Tessellation) (samples : Float) {text : List Char}
    (h : ∀ k : Command, k.letter ∉ text) :
    (∃ a, draw t ('M'::text) = .ok a ∧
      a.subpaths = if pointList text = [] then [] else [(Shape.polyline text).points samples]) ∧
    ∃ a, draw t ('M'::(text ++ ['Z'])) = .ok a ∧
      a.subpaths = match pointList text with
        | [] => []
        | p::ps =>
          [if Point.same (ps.getLastD p) p then p::ps else (Shape.polygon text).points samples] := by
  obtain ⟨o,ns,hr,hz,hp⟩ := exists_runs_tokens h
  constructor
  · have hb : ∀ f, ¬Blamed (tokens ('M'::text)) f :=
      not_blamed (by rw [hr]; rfl) (by simp [hr,Run.fault?])
    obtain ⟨a,ha⟩ := exists_interpret t hb
    have hs := subpaths_moveto ha (congrArg Prod.snd hr)
    rw [hp] at hs
    exact ⟨a,ha,hs⟩
  · have hb : ∀ f, ¬Blamed (tokens ('M'::(text ++ ['Z']))) f :=
      not_blamed (by rw [hz]; rfl) (by simp [hz,Run.fault?])
    obtain ⟨a,ha⟩ := exists_interpret t hb
    have hs := subpaths_moveto_closepath ha (congrArg Prod.snd hz)
    rw [hp] at hs
    refine ⟨a,ha,?_⟩
    show _ = match pointList text with
      | [] => []
      | p::ps => [if Point.same (ps.getLastD p) p then p::ps else Shape.closed (pointList text)]
    cases hl : pointList text with
    | nil => simpa only [hl] using hs
    | cons p ps => simpa only [hl] using hs

/-- A list with junk between its numbers, an exponent, a last pair that only the sign of a zero
tells from the first, and a number to spare. -/
theorem draw_pointList_odd :
    (∀ k : Command, k.letter ∉ " 0,0 1e1-5 #.5.5 0-0 7".toList) ∧
      ∃ a, draw {} "M 0,0 1e1-5 #.5.5 0-0 7Z".toList = .ok a ∧
        a.subpaths = [[⟨0,0⟩,⟨10,-5⟩,⟨0.5,0.5⟩,⟨0,-0⟩]] := by
  have hk : ∀ k : Command, k.letter ∉ " 0,0 1e1-5 #.5.5 0-0 7".toList := by
    rintro ⟨f,r⟩
    cases f <;> cases r <;> decide
  have hp : pointList " 0,0 1e1-5 #.5.5 0-0 7".toList = [⟨0,0⟩,⟨10,-5⟩,⟨0.5,0.5⟩,⟨0,-0⟩] := by
    decide +kernel
  have hl : Point.same ⟨0,-0⟩ (⟨0,0⟩ : Point Float) = true := by decide +kernel
  obtain ⟨-,a,ha,hs⟩ := draw_pointList {} Shape.defaultSamples hk
  rw [hp] at hs
  refine ⟨hk,a,ha,hs.trans ?_⟩
  show [if Point.same ⟨0,-0⟩ (⟨0,0⟩ : Point Float) then _ else _] = _
  rw [if_pos hl]

end Path
end ExtrusionProfile
