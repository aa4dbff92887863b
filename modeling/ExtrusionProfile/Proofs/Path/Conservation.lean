import ExtrusionProfile.Proofs.Path.Strokes
import ExtrusionProfile.Proofs.Path.Grammar
import Mathlib.Data.List.Forall2

/-! Nothing is lost behind a command. Its numbers are cut into groups from the front, every
group is drawn as one stroke, and what is left over is less than a group. There is a note for
every command without a complete group or with numbers left over, one for every arc drawn as
its chord, and no other. -/
namespace ExtrusionProfile

theorem Arc.flaw_flatten (n : Float) (a : Arc) (p : Point Float) :
    (a.flatten n p).flaw = a.flaw? p := by
  rw [flatten]
  cases a.flaw? p <;> rfl

namespace Path

/-- A segment takes a group of numbers: as many as its family takes, in their order. -/
def Segment.Takes (s : Segment) (g : List Numeral) : Prop :=
  g.length = s.family.arity ∧ s.arguments = g.map Numeral.value

section Groups

variable {f : Family} {gs : List (List Numeral)}

theorem takes_segmentsOf (h : f.Complete gs) :
    List.Forall₂ (fun g s => s.Takes g) gs (segmentsOf f gs) := by
  induction gs generalizing f with
  | nil => exact .nil
  | cons g gs ih =>
    obtain ⟨s,hs⟩ := h.exists_segment
    obtain ⟨hf,ha⟩ := Segment.ofArguments?_eq_some_iff.mp hs
    rw [segmentsOf,hs]
    exact .cons ⟨by rw [hf,h.head],ha⟩ (ih h.tail)

theorem family_of_segmentsOf (h : f.Complete gs) {i : ℕ} {s : Segment}
    (hi : (segmentsOf f gs)[i]? = some s) : s.family = if i = 0 then f else f.repeated := by
  induction gs generalizing f i with
  | nil => simp [segmentsOf] at hi
  | cons g gs ih =>
    obtain ⟨u,hu⟩ := h.exists_segment
    rw [segmentsOf,hu] at hi
    cases i with
    | zero =>
      obtain rfl : u = s := by simpa using hi
      exact (Segment.ofArguments?_eq_some_iff.mp hu).1
    | succ i => simpa using ih h.tail hi

end Groups

namespace Run

/-- A way of spending the numbers of a command: groups that are drawn, a stroke each, and numbers
left over behind them. -/
structure Spent (r : Run) (gs : List (List Numeral)) (rest : List Numeral) : Prop where
  numbers : gs.flatten ++ rest = r.numbers
  rest_lt : rest.length < r.command.family.arity
  takes : List.Forall₂ (fun g s => s.segment.Takes g) gs r.strokes
  stroke : ∀ i s, r.strokes[i]? = some s → s.relative = r.command.relative ∧
    s.segment.family = if i = 0 then r.command.family else r.command.family.repeated

variable (r : Run)

theorem strokes_eq (h : r.command.family ≠ .closepath) :
    r.strokes = (segmentsOf r.command.family r.groups).map (⟨r.command.relative,·⟩) := by
  rw [strokes,if_neg h,segments_eq]

theorem spent (h : r.command.family ≠ .closepath) :
    r.Spent r.groups (r.numbers.drop (r.count*r.command.family.arity)) where
  numbers := by rw [groups,pieces_flatten,List.take_append_drop]
  rest_lt := by
    rw [List.length_drop]
    exact r.dropped_lt h
  takes := by
    rw [strokes_eq r h,List.forall₂_map_right_iff]
    exact takes_segmentsOf r.complete_groups
  stroke := by
    intro i s hs
    rw [strokes_eq r h,List.getElem?_map,Option.map_eq_some_iff] at hs
    obtain ⟨u,hu,rfl⟩ := hs
    exact ⟨rfl,family_of_segmentsOf r.complete_groups hu⟩

/-- The note on a command whose numbers do not make up complete groups, or that has none. -/
def underflow? : Option Note :=
  let n := r.numbers.length
  let k := r.command.family.arity
  if r.command.family ≠ .closepath ∧ (n = 0 ∨ ¬k ∣ n) then
    some (.underflow r.command (n%k) r.offset)
  else none

theorem short_iff {r : Run} (h : r.command.family ≠ .closepath) :
    r.count = 0 ∨ 0 < r.dropped ↔
      r.numbers.length = 0 ∨ ¬r.command.family.arity ∣ r.numbers.length := by
  have hk := Family.arity_pos h
  have hd : 0 < r.dropped ↔ ¬r.command.family.arity ∣ r.numbers.length := by
    rw [dropped_eq_mod,Nat.pos_iff_ne_zero,ne_eq,← Nat.dvd_iff_mod_eq_zero]
  rw [hd,count,Nat.div_eq_zero_iff_lt hk]
  constructor
  · rintro (hn | hn)
    · exact or_iff_not_imp_right.mpr fun hkn => Nat.eq_zero_of_dvd_of_lt (not_not.mp hkn) hn
    · exact .inr hn
  · rintro (hn | hn)
    · exact .inl (hn ▸ hk)
    · exact .inr hn

theorem underflow?_eq {r : Run} (h : r.command.family ≠ .closepath) :
    r.underflow? = if r.count = 0 ∨ 0 < r.dropped then
      some (.underflow r.command r.dropped r.offset) else none := by
  simp only [short_iff h,underflow?,h,ne_eq,not_false_eq_true,true_and]
  rw [dropped_eq_mod]

end Run

/-- A stroke when its turn comes: where the pen is, and where the letter of its command stands. -/
structure Visit where
  pen : Cursor
  offset : ℕ
  stroke : Stroke

/-- The note on an arc that has no radius or ends where the pen is. -/
def Visit.note? (v : Visit) : Option Note :=
  match v.stroke.segment with
  | .arc rx ry _ _ _ p =>
    if rx == 0 || ry == 0 then some (.straightArc .zeroRadius v.offset)
    else if Point.same v.pen.current (v.pen.resolve v.stroke.relative p) then
      some (.straightArc .coincidentEndpoints v.offset)
    else none
  | _ => none

def Run.marked (r : Run) : List (ℕ × Stroke) := r.strokes.map (r.offset,·)

/-- The visits of marked strokes, each with the pen where the one before it left it. -/
def visits (t : Tessellation) : Cursor → List (ℕ × Stroke) → List Visit
  | _,[] => []
  | k,(o,s)::ms => ⟨k,o,s⟩::visits t (k.step t s.relative s.segment).cursor ms

theorem visits_stroke (t : Tessellation) (k : Cursor) (ms : List (ℕ × Stroke)) :
    (visits t k ms).map Visit.stroke = ms.map Prod.snd := by
  induction ms generalizing k with
  | nil => rfl
  | cons m ms ih => simp [visits,ih]

def Note.isUnderflow : Note → Bool
  | .underflow .. => true
  | .straightArc .. => false

theorem Run.isUnderflow_of_underflow? {r : Run} {n : Note} (h : r.underflow? = some n) :
    n.isUnderflow := by
  obtain ⟨-,rfl⟩ := Option.ite_some_none_eq_some.mp h
  rfl

theorem Visit.isUnderflow_of_note? {v : Visit} {n : Note} (h : v.note? = some n) :
    n.isUnderflow = false := by
  unfold note? at h
  split at h
  · split at h
    · cases h
      rfl
    · obtain ⟨-,rfl⟩ := Option.ite_some_none_eq_some.mp h
      rfl
  · cases h

theorem filter_notes (r : Run) (vs : List Visit) :
    (r.underflow?.toList ++ vs.filterMap Visit.note?).filter Note.isUnderflow =
        r.underflow?.toList ∧
      (r.underflow?.toList ++ vs.filterMap Visit.note?).filter (!·.isUnderflow) =
        vs.filterMap Visit.note? := by
  have hu : ∀ n ∈ r.underflow?.toList, n.isUnderflow = true := fun n hn =>
    Run.isUnderflow_of_underflow? (Option.mem_toList.mp hn)
  have hv : ∀ n ∈ vs.filterMap Visit.note?, n.isUnderflow = false := by
    intro n hn
    obtain ⟨v,-,hv⟩ := List.mem_filterMap.mp hn
    exact Visit.isUnderflow_of_note? hv
  rw [List.filter_append,List.filter_append]
  constructor
  · rw [List.filter_eq_self.mpr hu,List.filter_eq_nil_iff.mpr (by simpa using hv),List.append_nil]
  · rw [List.filter_eq_nil_iff.mpr (by simpa using hu),List.filter_eq_self.mpr (by simpa using hv),
      List.nil_append]

theorem Visit.note?_eq (t : Tessellation) (v : Visit) :
    v.note? = (v.pen.step t v.stroke.relative v.stroke.segment).flaw.map
      (.straightArc · v.offset) := by
  obtain ⟨k,o,r,s⟩ := v
  cases s with
  | arc rx ry rotation large sweep p =>
    let a : Arc := ⟨rx,ry,rotation,large != 0,sweep != 0,k.resolve r p⟩
    change _ = (a.flatten t.arc k.current).flaw.map _
    rw [Arc.flaw_flatten,Arc.flaw?,note?]
    dsimp only
    split
    · rfl
    · split <;> rfl
  | _ => rfl

namespace Canvas

variable (t : Tessellation)

def visit (k : Canvas) (m : ℕ × Stroke) : Canvas := k.draw t m.2.relative m.1 m.2.segment

theorem visit_cursor (k : Canvas) (m : ℕ × Stroke) :
    (k.visit t m).cursor = (k.cursor.step t m.2.relative m.2.segment).cursor :=
  draw_cursor t k m.2.relative m.1 m.2.segment

@[simp] theorem reopen_notes (k : Canvas) : k.reopen.notes = k.notes := by
  unfold reopen
  split <;> rfl

theorem notes_visit (k : Canvas) (m : ℕ × Stroke) :
    (k.visit t m).notes = k.notes ++ (Visit.note? ⟨k.cursor,m.1,m.2⟩).toList := by
  obtain ⟨o,r,s⟩ := m
  rw [Visit.note?_eq t]
  unfold visit draw
  dsimp only
  split
  · exact (flush_notes k).trans (List.append_nil _).symm
  · exact (List.append_nil _).symm
  · split <;> rename_i hf <;> simp [hf,note,extend]

theorem notes_foldl_visit (k : Canvas) (ms : List (ℕ × Stroke)) :
    (ms.foldl (visit t) k).notes = k.notes ++ (visits t k.cursor ms).filterMap Visit.note? := by
  induction ms generalizing k with
  | nil => simp [visits]
  | cons m ms ih =>
    rw [List.foldl_cons,ih,notes_visit,visit_cursor,visits,List.append_assoc,List.filterMap_cons]
    cases Visit.note? ⟨k.cursor,m.1,m.2⟩ <;> rfl

theorem visits_append (k : Canvas) (ms ns : List (ℕ × Stroke)) :
    visits t k.cursor (ms ++ ns) =
      visits t k.cursor ms ++ visits t (ms.foldl (visit t) k).cursor ns := by
  induction ms generalizing k with
  | nil => rfl
  | cons m ms ih =>
    rw [List.cons_append,visits,visits,← visit_cursor,ih]
    rfl

theorem notes_noted (k : Canvas) {r : Run} (h : r.command.family ≠ .closepath) :
    (k.noted r).notes = k.notes ++ r.underflow?.toList := by
  rw [noted,Run.underflow?_eq h]
  split
  · rfl
  · exact (List.append_nil _).symm

/-- A run is drawn by visiting its strokes, behind the note on its numbers. -/
theorem exists_foldl_visit {k k' : Canvas} {r : Run} (h : k.drawRun t r = .ok k') :
    ∃ c : Canvas, c.cursor = k.cursor ∧ c.notes = k.notes ++ r.underflow?.toList ∧
      k' = r.marked.foldl (visit t) c := by
  rw [Run.marked,Run.strokes]
  rcases drawRun_cases t k h with ⟨hf,_,rfl⟩ | ⟨hf,rfl⟩
  · refine ⟨k,rfl,?_,by rw [if_pos hf]; rfl⟩
    simp [Run.underflow?,hf]
  · refine ⟨k.noted r,noted_cursor k r,notes_noted k hf,?_⟩
    rw [if_neg hf,List.map_map,List.foldl_map]
    rfl

/-- The notes of runs are those on their numbers and those of the visits. -/
theorem notes_drawRuns {rs : List Run} {k k' : Canvas} (h : k.drawRuns t rs = .ok k') :
    k'.notes.filter Note.isUnderflow =
        k.notes.filter Note.isUnderflow ++ rs.filterMap Run.underflow? ∧
      k'.notes.filter (!·.isUnderflow) = k.notes.filter (!·.isUnderflow) ++
        (visits t k.cursor (rs.flatMap Run.marked)).filterMap Visit.note? := by
  induction rs generalizing k with
  | nil =>
    cases h
    simp [visits]
  | cons r rs ih =>
    obtain ⟨d,hr,hrs⟩ := (drawRuns_cons_eq_ok_iff t k).mp h
    obtain ⟨c,hc,hn,rfl⟩ := exists_foldl_visit t hr
    obtain ⟨hu,ha⟩ := ih hrs
    obtain ⟨hru,hra⟩ := filter_notes r (visits t c.cursor r.marked)
    rw [hu,ha,notes_foldl_visit,hn,List.append_assoc]
    constructor
    · rw [List.filter_append,hru,List.append_assoc,List.filterMap_cons]
      cases r.underflow? <;> rfl
    · rw [List.filter_append,hra,List.flatMap_cons,← hc,visits_append,List.filterMap_append,
        List.append_assoc]

end Canvas

def visited (t : Tessellation) (ts : List Token) : List Visit :=
  visits t .initial ((runs ts).2.flatMap Run.marked)

theorem visited_stroke (t : Tessellation) (ts : List Token) :
    (visited t ts).map Visit.stroke = strokes ts := by
  rw [visited,visits_stroke,List.map_flatMap,strokes]
  simp [Run.marked,Function.comp_def]

section Accepted

variable {t : Tessellation} {ts : List Token} {a : Drawn}

theorem accepted (h : interpret t ts = .ok a) : BeginsWithMoveto ts ∧ ¬NumberBehindClose ts := by
  by_contra hn
  rw [not_and_or,not_not,← exists_blamed_iff] at hn
  obtain ⟨f,hf⟩ := hn
  rw [interpret_eq_error_iff.mpr hf] at h
  cases h

theorem BeginsWithMoveto.runs (h : BeginsWithMoveto ts) :
    (runs ts).2.flatMap Run.tokens = ts := by
  have hl : (Path.runs ts).1 = [] := by
    rw [← leading_eq]
    match ts,h with
    | [],_ => rfl
    | .command _ _::_,_ => rfl
    | .number n::us,h =>
      obtain ⟨c,o,hc,-⟩ := h (.number n) rfl
      cases hc
  simpa [hl] using runs_append ts

theorem numbers_of_closepath (h : ¬NumberBehindClose ts) {r : Run} (hr : r ∈ (runs ts).2)
    (hf : r.command.family = .closepath) : r.numbers = [] := by
  cases hn : r.numbers with
  | nil => rfl
  | cons n ns =>
    exact absurd (numberBehindClose_iff.mpr
      ⟨r,hr,_,Run.fault?_eq_some_iff.mpr ⟨hf,n,ns,hn,rfl⟩⟩) h

end Accepted

/-- Accepted tokens are a command with its numbers after another. A closepath has none; those of
any other command are the groups its strokes take, one behind the other, and less than a group
left over. These strokes, and nothing else, are drawn. Of the notes, those on numbers are one for
every command that has none or not as many as make up groups, in order; all others are one for
every arc that has no radius or ends where the pen is, in order. -/
theorem arguments_conserved {t : Tessellation} {ts : List Token} {a : Drawn}
    (h : interpret t ts = .ok a) :
    (runs ts).2.flatMap Run.tokens = ts ∧
    (∀ r ∈ (runs ts).2,
      if r.command.family = .closepath then
        r.numbers = [] ∧ r.strokes = [⟨r.command.relative,.closepath⟩]
      else ∃ gs rest, r.Spent gs rest) ∧
    (visited t ts).map Visit.stroke = strokes ts ∧
    a.subpaths = ((strokes ts).foldl (Canvas.stroke t) .empty).flush.finished ∧
    a.notes.filter Note.isUnderflow = (runs ts).2.filterMap Run.underflow? ∧
    a.notes.filter (!·.isUnderflow) = (visited t ts).filterMap Visit.note? := by
  obtain ⟨hm,hc⟩ := accepted h
  refine ⟨hm.runs,fun r hr => ?_,visited_stroke t ts,subpaths_interpret h,?_⟩
  · split
    · rename_i hf
      exact ⟨numbers_of_closepath hc hr hf,if_pos hf⟩
    · rename_i hf
      exact ⟨_,_,r.spent hf⟩
  · obtain ⟨-,k,hk,rfl⟩ := interpret_eq_ok_iff.mp h
    exact Canvas.notes_drawRuns t hk

/-- A repeated moveto and arcs with a number too many, and two commands without any; the first
arc has no radius and the second goes nowhere, the last one is an arc. -/
theorem arguments_conserved_leftOver :
    let ts := tokens "m1 1 2 0 5L A0 5 0 0 1 9 9 5 5 0 0 1 9 9 3zHa2 2 0 0 1 1 0".toList
    interpret ⟨10,10,1⟩ ts = .ok
      ⟨[[⟨1,1⟩,⟨3,1⟩,⟨9,9⟩,⟨9,9⟩,⟨1,1⟩],[⟨1,1⟩,⟨2,1⟩]],
        [.underflow ⟨.moveto,true⟩ 1 0,.underflow ⟨.lineto,false⟩ 0 10,
          .underflow ⟨.arc,false⟩ 1 12,.straightArc .zeroRadius 12,
          .straightArc .coincidentEndpoints 12,.underflow ⟨.horizontal,false⟩ 0 43]⟩ ∧
    (runs ts).2.filterMap Run.underflow? =
      [.underflow ⟨.moveto,true⟩ 1 0,.underflow ⟨.lineto,false⟩ 0 10,
        .underflow ⟨.arc,false⟩ 1 12,.underflow ⟨.horizontal,false⟩ 0 43] ∧
    (visited ⟨10,10,1⟩ ts).filterMap Visit.note? =
      [.straightArc .zeroRadius 12,.straightArc .coincidentEndpoints 12] := by
  have ha : interpret ⟨10,10,1⟩
      (tokens "m1 1 2 0 5L A0 5 0 0 1 9 9 5 5 0 0 1 9 9 3zHa2 2 0 0 1 1 0".toList) = .ok
        ⟨[[⟨1,1⟩,⟨3,1⟩,⟨9,9⟩,⟨9,9⟩,⟨1,1⟩],[⟨1,1⟩,⟨2,1⟩]],
          [.underflow ⟨.moveto,true⟩ 1 0,.underflow ⟨.lineto,false⟩ 0 10,
            .underflow ⟨.arc,false⟩ 1 12,.straightArc .zeroRadius 12,
            .straightArc .coincidentEndpoints 12,.underflow ⟨.horizontal,false⟩ 0 43]⟩ := by
    decide +kernel
  obtain ⟨-,-,-,-,hu,hv⟩ := arguments_conserved ha
  exact ⟨ha,hu.symm,hv.symm⟩

end Path
end ExtrusionProfile
