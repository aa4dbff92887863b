import ExtrusionProfile.Proofs.Path.Grammar

/-! Repeated groups. A command with several groups of numbers is short for as many commands of
one group each: they draw the same, and what is left over of the numbers is noted once either
way. -/
namespace ExtrusionProfile
namespace Path

/-- Commands of one group each, the first of them `c`. The numbers in `rest` stand behind the
last group. -/
def spread (o : ℕ) (rest : List Numeral) : Command → List (List Numeral) → List Run
  | _,[] => []
  | c,[g] => [⟨c,o,g ++ rest⟩]
  | c,g::gs => ⟨c,o,g⟩::spread o rest ⟨c.family.repeated,c.relative⟩ gs

/-- A run with several groups as runs of one group each. -/
def Run.unrolled (r : Run) : List Run :=
  if 2 ≤ r.count then
    spread r.offset (r.numbers.drop (r.count*r.command.family.arity)) r.command r.groups
  else [r]

/-- Tokens in which no command has more than one complete group. -/
def unrolled (ts : List Token) : List Token :=
  (runs ts).1.map .number ++ ((runs ts).2.flatMap Run.unrolled).flatMap Run.tokens

/-- A note on the command that a repetition stands for. -/
def Note.repeated : Note → Note
  | .underflow c dropped o => .underflow ⟨c.family.repeated,c.relative⟩ dropped o
  | .straightArc f o => .straightArc f o

namespace Canvas

/-- Canvases that show the same and have the same notes, but for their order and for the letter
of a moveto that repeats as a lineto. -/
structure Alike (k k' : Canvas) : Prop where
  bare : k.bare = k'.bare
  notes : (k.notes.map Note.repeated).Perm (k'.notes.map Note.repeated)

namespace Alike

variable {k k' k'' : Canvas}

theorem refl (k : Canvas) : k.Alike k := ⟨rfl,.refl _⟩

theorem trans (h : k.Alike k') (h' : k'.Alike k'') : k.Alike k'' :=
  ⟨h.bare.trans h'.bare,h.notes.trans h'.notes⟩

theorem note {m n : Note} (h : k.Alike k') (hn : m.repeated = n.repeated) :
    (k.note m).Alike (k'.note n) := by
  refine ⟨h.bare,?_⟩
  simpa [Canvas.note,hn] using h.notes.append_right [n.repeated]

theorem foldl_draw (h : k.Alike k') (t : Tessellation) (relative : Bool) (o : ℕ)
    (ss : List Segment) :
    (ss.foldl (draw t relative o) k).Alike (ss.foldl (draw t relative o) k') := by
  rw [foldl_draw_bare t k,foldl_draw_bare t k',h.bare]
  refine ⟨rfl,?_⟩
  simpa [after] using h.notes.append_right _

end Alike

variable (t : Tessellation)

theorem foldl_draw_note (k : Canvas) (relative : Bool) (o : ℕ) (ss : List Segment) (n : Note) :
    (ss.foldl (draw t relative o) (k.note n)).Alike ((ss.foldl (draw t relative o) k).note n) := by
  rw [foldl_draw_bare t k,foldl_draw_bare t (k.note n),bare_note]
  refine ⟨rfl,List.Perm.map _ ?_⟩
  simp only [after,note,List.append_assoc]
  exact List.perm_append_comm.append_left k.notes

/-- The canvas with the note that `n` numbers behind the last group of a command leave. -/
def leftOver (k : Canvas) (c : Command) (n o : ℕ) : Canvas :=
  if 0 < n then k.note (.underflow c n o) else k

/-- Numbers left over may as well be noted after drawing, and of the repeated command. -/
theorem foldl_draw_leftOver (k : Canvas) (c : Command) (n o : ℕ) (ss : List Segment) :
    (ss.foldl (draw t c.relative o) (k.leftOver c n o)).Alike
      ((ss.foldl (draw t c.relative o) k).leftOver ⟨c.family.repeated,c.relative⟩ n o) := by
  unfold leftOver
  split
  · refine .trans (foldl_draw_note t k c.relative o ss _) (.note (.refl _) ?_)
    simp [Note.repeated]
  · exact .refl _

end Canvas

namespace Run

variable {r : Run} {g rest : List Numeral}

theorem one_group (h : r.numbers = g ++ rest) (hg : g.length = r.command.family.arity)
    (hr : rest.length < r.command.family.arity) :
    r.count = 1 ∧ r.dropped = rest.length ∧ r.groups = [g] := by
  have hc : r.count = 1 := by
    rw [count,h,List.length_append,hg]
    exact Nat.div_eq_of_lt_le (by omega) (by omega)
  refine ⟨hc,?_,?_⟩
  · simp [dropped,hc,h,hg]
  · simp [groups,hc,pieces,h,← hg]

theorem drawRun_one_group (t : Tessellation) (k : Canvas) (hf : r.command.family ≠ .closepath)
    (h : r.numbers = g ++ rest) (hg : g.length = r.command.family.arity)
    (hr : rest.length < r.command.family.arity) :
    k.drawRun t r =
      .ok ((segmentsOf r.command.family [g]).foldl (Canvas.draw t r.command.relative r.offset)
        (k.leftOver r.command rest.length r.offset)) := by
  obtain ⟨hc,hd,hgs⟩ := one_group h hg hr
  rw [Canvas.drawRun_segments t k hf,segments_eq,hgs,Canvas.noted,hc,hd]
  simp [Canvas.leftOver]

end Run

namespace Canvas

variable (t : Tessellation) {c : Command} {rest : List Numeral} {gs : List (List Numeral)}

/-- Commands of one group each draw the groups as one command does. -/
theorem drawRuns_spread (o : ℕ) (hf : c.family ≠ .closepath) (hg : c.family.Complete gs)
    (hn : gs ≠ []) (hr : rest.length < c.family.arity) (k : Canvas) :
    ∃ k', k.drawRuns t (spread o rest c gs) = .ok k' ∧
      ((segmentsOf c.family gs).foldl (draw t c.relative o) (k.leftOver c rest.length o)).Alike
        k' := by
  induction gs generalizing c k with
  | nil => exact absurd rfl hn
  | cons g gs ih =>
    cases gs with
    | nil =>
      refine ⟨_,(drawRuns_cons_eq_ok_iff t k).mpr ⟨_,?_,rfl⟩,.refl _⟩
      exact Run.drawRun_one_group (r := ⟨c,o,g ++ rest⟩) t k hf rfl hg.head hr
    | cons g' gs =>
      have hf' := Family.repeated_ne_closepath hf
      have h1 := Run.drawRun_one_group (r := ⟨c,o,g⟩) t k hf (List.append_nil g).symm hg.head
        (Nat.zero_lt_of_lt hr)
      obtain ⟨k',hk,ha⟩ := ih (c := ⟨c.family.repeated,c.relative⟩) hf' hg.tail (by simp)
        (by rwa [Family.arity_repeated]) ((segmentsOf c.family [g]).foldl (draw t c.relative o) k)
      refine ⟨k',(drawRuns_cons_eq_ok_iff t k).mpr ⟨_,h1,hk⟩,.trans ?_ ha⟩
      have hs : segmentsOf c.family (g::g'::gs) =
          segmentsOf c.family [g] ++ segmentsOf c.family.repeated (g'::gs) := by
        simp [segmentsOf]
      rw [hs,List.foldl_append]
      -- One command notes what is left over before its first group, many do so behind it.
      exact (foldl_draw_leftOver t k c rest.length o _).foldl_draw t _ _ _

end Canvas

namespace Run

variable (r : Run)

theorem unrolled_of_count (h : 2 ≤ r.count) :
    r.unrolled = spread r.offset (r.numbers.drop (r.count*r.command.family.arity)) r.command
      r.groups := if_pos h

theorem unrolled_of_count_lt (h : r.count < 2) : r.unrolled = [r] := if_neg (by omega)

theorem family_ne_closepath (h : 0 < r.count) : r.command.family ≠ .closepath := by
  intro hf
  simp [count,hf,Family.arity] at h

theorem exists_unrolled_eq_cons :
    ∃ q qs, r.unrolled = q::qs ∧ q.command = r.command ∧ q.offset = r.offset := by
  by_cases h : 2 ≤ r.count
  · have hl : r.groups.length = r.count := pieces_length _ _ _
    rw [unrolled_of_count r h]
    cases hg : r.groups with
    | nil => simp [hg] at hl; omega
    | cons g gs => cases gs <;> exact ⟨_,_,rfl,rfl,rfl⟩
  · exact ⟨r,[],r.unrolled_of_count_lt (by omega),rfl,rfl⟩

end Run

namespace Canvas

variable (t : Tessellation)

theorem noted_eq_leftOver {r : Run} (k : Canvas) (h : 0 < r.count) :
    k.noted r = k.leftOver r.command r.dropped r.offset := by
  have hc : r.count ≠ 0 := by omega
  simp [noted,leftOver,hc]

theorem drawRuns_unrolled_run {k c : Canvas} {r : Run} (h : k.drawRun t r = .ok c) :
    ∃ c', k.drawRuns t r.unrolled = .ok c' ∧ c.Alike c' := by
  by_cases h2 : 2 ≤ r.count
  · have hp : 0 < r.count := by omega
    have hf := r.family_ne_closepath hp
    have hn : r.groups ≠ [] := by
      rw [← List.length_pos_iff,Run.groups,pieces_length]
      exact hp
    have hd := r.dropped_lt hf
    have hl : (r.numbers.drop (r.count*r.command.family.arity)).length = r.dropped :=
      List.length_drop
    rw [drawRun_segments t k hf,Run.segments_eq,noted_eq_leftOver k hp,← hl] at h
    cases h
    rw [Run.unrolled_of_count r h2]
    exact drawRuns_spread t r.offset hf r.complete_groups hn (by rwa [hl]) k
  · rw [r.unrolled_of_count_lt (by omega)]
    exact ⟨c,(drawRuns_cons_eq_ok_iff t k).mpr ⟨c,h,rfl⟩,.refl c⟩

theorem Alike.noted {k k' : Canvas} (h : k.Alike k') (r : Run) : (k.noted r).Alike (k'.noted r) := by
  unfold Canvas.noted
  split
  · exact h.note rfl
  · exact h

theorem Alike.drawRun {k k' c : Canvas} {r : Run} (h : k.Alike k') (hr : k.drawRun t r = .ok c) :
    ∃ c', k'.drawRun t r = .ok c' ∧ c.Alike c' := by
  rcases drawRun_cases t k hr with ⟨hf,hn,rfl⟩ | ⟨hf,rfl⟩
  · exact ⟨_,drawRun_close t k' hf hn,h.foldl_draw t _ r.offset [.closepath]⟩
  · exact ⟨_,drawRun_segments t k' hf,(h.noted r).foldl_draw t _ _ _⟩

/-- Unrolled runs are drawn like the runs themselves. -/
theorem drawRuns_unrolled {rs : List Run} {k k' c : Canvas} (ha : k.Alike k')
    (h : k.drawRuns t rs = .ok c) :
    ∃ c', k'.drawRuns t (rs.flatMap Run.unrolled) = .ok c' ∧ c.Alike c' := by
  induction rs generalizing k k' with
  | nil =>
    cases h
    exact ⟨k',rfl,ha⟩
  | cons r rs ih =>
    obtain ⟨d,hr,hrs⟩ := (drawRuns_cons_eq_ok_iff t k).mp h
    obtain ⟨d',hr',hd⟩ := ha.drawRun t hr
    obtain ⟨e,he,hde⟩ := drawRuns_unrolled_run t hr'
    obtain ⟨c',hc,hcc⟩ := ih (hd.trans hde) hrs
    refine ⟨c',?_,hcc⟩
    rw [List.flatMap_cons,drawRuns_append,he]
    exact hc

end Canvas

section Faults

theorem findSome?_spread {c : Command} (h : c.family ≠ .closepath) (o : ℕ) (rest : List Numeral)
    (gs : List (List Numeral)) : (spread o rest c gs).findSome? Run.fault? = none := by
  induction gs generalizing c with
  | nil => rfl
  | cons g gs ih =>
    have hn : ∀ ns, (⟨c,o,ns⟩ : Run).fault? = none := fun _ => Run.fault?_eq_none h
    cases gs with
    | nil => simp [spread,hn]
    | cons g' gs =>
      rw [spread,List.findSome?_cons,hn]
      · exact ih (c := ⟨c.family.repeated,c.relative⟩) (Family.repeated_ne_closepath h)
      · simp

theorem Run.findSome?_unrolled (r : Run) : r.unrolled.findSome? fault? = r.fault? := by
  by_cases h : 2 ≤ r.count
  · have hf := r.family_ne_closepath (by omega)
    rw [unrolled_of_count r h,findSome?_spread hf,fault?_eq_none hf]
  · simp [r.unrolled_of_count_lt (by omega)]

theorem findSome?_flatMap_unrolled (rs : List Run) :
    (rs.flatMap Run.unrolled).findSome? Run.fault? = rs.findSome? Run.fault? := by
  induction rs with
  | nil => rfl
  | cons r rs ih =>
    rw [List.flatMap_cons,List.findSome?_append,r.findSome?_unrolled,ih,List.findSome?_cons]
    cases r.fault? <;> rfl

theorem openingFault?_unrolled (ns : List Numeral) (rs : List Run) :
    openingFault? (ns,rs.flatMap Run.unrolled) = openingFault? (ns,rs) := by
  cases ns with
  | cons n ns => rfl
  | nil =>
    cases rs with
    | nil => rfl
    | cons r rs =>
      obtain ⟨q,qs,hq,hc,ho⟩ := r.exists_unrolled_eq_cons
      simp [openingFault?,hq,hc,ho]

end Faults

theorem runs_unrolled (ts : List Token) :
    runs (unrolled ts) = ((runs ts).1,(runs ts).2.flatMap Run.unrolled) := by
  rw [unrolled,runs_number_append,runs_flatMap_tokens,List.append_nil]

theorem count_spread {c : Command} {o : ℕ} {rest : List Numeral} {gs : List (List Numeral)}
    (hg : c.family.Complete gs) (hr : rest.length < c.family.arity) {q : Run}
    (h : q ∈ spread o rest c gs) : q.count = 1 := by
  induction gs generalizing c with
  | nil => cases h
  | cons g gs ih =>
    cases gs with
    | nil =>
      obtain rfl := List.mem_singleton.mp h
      exact (Run.one_group rfl hg.head hr).1
    | cons g' gs =>
      rcases List.mem_cons.mp h with rfl | h
      · exact (Run.one_group (r := ⟨c,o,g⟩) (List.append_nil g).symm hg.head
          (Nat.zero_lt_of_lt hr)).1
      · exact ih (c := ⟨c.family.repeated,c.relative⟩) hg.tail
          (by rwa [Family.arity_repeated]) h

theorem Run.count_unrolled {r q : Run} (h : q ∈ r.unrolled) : q.count ≤ 1 := by
  by_cases h2 : 2 ≤ r.count
  · have hf := r.family_ne_closepath (by omega)
    have hd := r.dropped_lt hf
    rw [unrolled_of_count r h2] at h
    exact Nat.le_of_eq (count_spread r.complete_groups (by rwa [List.length_drop]) h)
  · rw [r.unrolled_of_count_lt (by omega)] at h
    obtain rfl := List.mem_singleton.mp h
    omega

theorem Canvas.Alike.flush_finished {k k' : Canvas} (h : k.Alike k') :
    k.flush.finished = k'.flush.finished := by
  rw [← flush_bare_finished,h.bare,flush_bare_finished]

/-- Tokens come to the same whether groups are repeated behind one command or each have a
command of their own: the same fault, or the same subpaths, bit for bit, and the same notes up
to their order and to the letter that a repeated moveto stands for. -/
theorem interpret_unrolled (t : Tessellation) (ts : List Token) :
    (match interpret t ts,interpret t (unrolled ts) with
      | .ok a,.ok b =>
        b.subpaths = a.subpaths ∧
          (b.notes.map Note.repeated).Perm (a.notes.map Note.repeated)
      | .error f,.error g => g = f
      | _,_ => False) ∧
      ∀ r ∈ (runs (unrolled ts)).2, r.count ≤ 1 := by
  constructor
  · have ho := openingFault?_unrolled (runs ts).1 (runs ts).2
    rw [interpret,interpret,runs_unrolled,ho]
    cases openingFault? (runs ts) with
    | some f => rfl
    | none =>
      cases hr : Canvas.empty.drawRuns t (runs ts).2 with
      | error f =>
        have hf := (Canvas.drawRuns_eq_error_iff t .empty).mp hr
        rw [← findSome?_flatMap_unrolled] at hf
        simp [(Canvas.drawRuns_eq_error_iff t .empty).mpr hf,Except.map]
      | ok k =>
        obtain ⟨k',hk,ha⟩ := Canvas.drawRuns_unrolled t (.refl .empty) hr
        simpa [hk,Except.map] using ⟨ha.flush_finished.symm,ha.notes.symm⟩
  · intro r hr
    rw [runs_unrolled] at hr
    obtain ⟨q,-,hq⟩ := List.mem_flatMap.mp hr
    exact Run.count_unrolled hq

example : unrolled (tokens "m1 2 3 4 5zh6 7".toList) =
    [.command ⟨.moveto,true⟩ 0,.number ⟨['1'],1,1⟩,.number ⟨['2'],2,3⟩,
      .command ⟨.lineto,true⟩ 0,.number ⟨['3'],3,5⟩,.number ⟨['4'],4,7⟩,.number ⟨['5'],5,9⟩,
      .command ⟨.closepath,true⟩ 10,.command ⟨.horizontal,true⟩ 11,.number ⟨['6'],6,12⟩,
      .command ⟨.horizontal,true⟩ 11,.number ⟨['7'],7,14⟩] := by decide +kernel

end Path
end ExtrusionProfile
