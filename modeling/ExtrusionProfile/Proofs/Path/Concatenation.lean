import ExtrusionProfile.Proofs.Path.Canvas
import ExtrusionProfile.Proofs.Path.Groups
import ExtrusionProfile.Proofs.Path.Tokens

/-! Path data written one behind the other. An absolute moveto forgets the pen, so what
stands behind it is drawn as if it stood alone: drawing the whole is drawing the parts. -/
namespace ExtrusionProfile
namespace Path

def Run.shift (n : ℕ) (r : Run) : Run := ⟨r.command,r.offset+n,r.numbers.map (Numeral.shift n)⟩

def Note.shift (n : ℕ) : Note → Note
  | .underflow c dropped o => .underflow c dropped (o+n)
  | .straightArc f o => .straightArc f (o+n)

def Fault.shift (n : ℕ) (f : Fault) : Fault := { f with position := f.position+n }

theorem runs_shift (n : ℕ) (ts : List Token) :
    runs (ts.map (Token.shift n)) =
      ((runs ts).1.map (Numeral.shift n),(runs ts).2.map (Run.shift n)) := by
  induction ts with
  | nil => rfl
  | cons t ts ih => cases t <;> simp [runs,Token.shift,Run.shift,ih]

namespace Run

variable (n : ℕ) (r : Run)

@[simp] theorem shift_command : (r.shift n).command = r.command := rfl

@[simp] theorem shift_offset : (r.shift n).offset = r.offset+n := rfl

@[simp] theorem shift_numbers : (r.shift n).numbers = r.numbers.map (Numeral.shift n) := rfl

@[simp] theorem shift_count : (r.shift n).count = r.count := by simp [count]

@[simp] theorem shift_dropped : (r.shift n).dropped = r.dropped := by simp [dropped]

@[simp] theorem shift_segments : (r.shift n).segments = r.segments := by
  have hv : Numeral.value ∘ Numeral.shift n = Numeral.value := rfl
  simp only [segments,groups,shift_command,shift_count,shift_numbers,pieces_map]
  cases pieces r.command.family.arity r.count r.numbers with
  | nil => rfl
  | cons g gs => simp [List.filterMap_map,Function.comp_def,Numeral.shift]

end Run

namespace Canvas

variable (t : Tessellation) (p : Drawn) (n : ℕ) (k : Canvas)

theorem after_noted_shift (r : Run) :
    (k.noted r).after p (Note.shift n) = (k.after p (Note.shift n)).noted (r.shift n) :=
  after_noted k p (r.shift_count n) (r.shift_dropped n) rfl

theorem drawRun_after (r : Run) :
    (k.after p (Note.shift n)).drawRun t (r.shift n) =
      ((k.drawRun t r).map (after p (Note.shift n))).mapError (Fault.shift n) := by
  have hφ : ∀ f, Note.shift n (.straightArc f r.offset) = .straightArc f (r.offset+n) :=
    fun _ => rfl
  by_cases h : r.command.family = .closepath
  · have h' : (r.shift n).command.family = .closepath := h
    cases hn : r.numbers with
    | nil =>
      have hn' : (r.shift n).numbers = [] := by simp [hn]
      rw [drawRun_close t k h hn,drawRun_close t _ h' hn']
      exact congrArg Except.ok (after_draw t k p hφ _ _).symm
    | cons m ms =>
      have hn' : (r.shift n).numbers = m.shift n::ms.map (Numeral.shift n) := by simp [hn]
      rw [drawRun_stray t k h hn,drawRun_stray t _ h' hn']
      simp [Except.map,Except.mapError,Fault.shift,Fault.stray,spelled,Numeral.shift,
        Function.comp_def]
  · have h' : (r.shift n).command.family ≠ .closepath := h
    rw [drawRun_segments t k h,drawRun_segments t _ h',← after_noted_shift,
      Run.shift_segments]
    exact congrArg Except.ok (after_foldl_draw t _ p hφ _ _).symm

theorem drawRuns_after (rs : List Run) :
    (k.after p (Note.shift n)).drawRuns t (rs.map (Run.shift n)) =
      ((k.drawRuns t rs).map (after p (Note.shift n))).mapError (Fault.shift n) := by
  induction rs generalizing k with
  | nil => rfl
  | cons r rs ih =>
    rw [List.map_cons,drawRuns,drawRun_after,drawRuns]
    cases k.drawRun t r with
    | error f => rfl
    | ok k => exact ih k

theorem draw_moveto (o : ℕ) (q : Point Float) :
    k.draw t false o (.moveto q) = ⟨k.flush.finished,[q],⟨q,q,none,false⟩,k.notes⟩ := by
  simp [draw,extend,Cursor.step,Cursor.resolve]

theorem noted_finished (r : Run) : (k.noted r).flush.finished = k.flush.finished := by
  unfold noted
  split
  · unfold note flush
    split <;> rfl
  · rfl

theorem noted_notes (r : Run) :
    (k.noted (r.shift n)).notes = k.notes ++ (empty.noted r).notes.map (Note.shift n) := by
  simp only [noted,Run.shift_count,Run.shift_dropped]
  split <;> simp [note,empty,Note.shift]

/-- A run that begins with an absolute moveto is drawn as on an empty canvas. -/
theorem drawRun_restart {r : Run} {a b : Numeral} {ns : List Numeral}
    (hc : r.command = ⟨.moveto,false⟩) (hn : r.numbers = a::b::ns) :
    ∃ c, empty.drawRun t r = .ok c ∧
      k.drawRun t (r.shift n) = .ok (c.after ⟨k.flush.finished,k.notes⟩ (Note.shift n)) := by
  have hφ : ∀ f, Note.shift n (.straightArc f r.offset) = .straightArc f (r.offset+n) :=
    fun _ => rfl
  have hf : r.command.family ≠ .closepath := by simp [hc]
  have hf' : (r.shift n).command.family ≠ .closepath := hf
  obtain ⟨ss,hs⟩ := Run.segments_moveto (by rw [hc]) hn
  refine ⟨_,drawRun_segments t empty hf,?_⟩
  rw [drawRun_segments t k hf',Run.shift_segments,after_foldl_draw t _ _ hφ,hs]
  have hr : r.command.relative = false := by rw [hc]
  have hd : (k.noted (r.shift n)).draw t false (r.offset+n) (.moveto ⟨a.value,b.value⟩) =
      ((empty.noted r).after ⟨k.flush.finished,k.notes⟩ (Note.shift n)).draw t false
        (r.offset+n) (.moveto ⟨a.value,b.value⟩) := by
    rw [← after_draw t _ _ hφ,draw_moveto,draw_moveto,noted_finished,noted_finished,noted_notes]
    simp [after,flush,empty]
  simp only [Run.shift_command,Run.shift_offset,hr,List.foldl_cons,hd]

end Canvas

theorem openingFault?_append (x : List Numeral × List Run) (qs : List Run) {r : Run}
    (h : r.command.family = .moveto) : openingFault? (x.1,x.2 ++ r::qs) = openingFault? x := by
  rcases x with ⟨ns,rs⟩
  cases ns with
  | cons n ns => rfl
  | nil =>
    cases rs with
    | cons q rs => rfl
    | nil => simp [openingFault?,h]

/-- What is drawn when `q` comes behind `p`, its marks `n` further on. -/
def Drawn.followedBy (p : Drawn) (n : ℕ) (q : Drawn) : Drawn :=
  ⟨p.subpaths ++ q.subpaths,p.notes ++ q.notes.map (Note.shift n)⟩

theorem Canvas.drawn_after (p : Drawn) (n : ℕ) (k : Canvas) :
    (⟨(k.after p (Note.shift n)).flush.finished,(k.after p (Note.shift n)).notes⟩ : Drawn) =
      p.followedBy n ⟨k.flush.finished,k.notes⟩ := by
  rw [← after_flush]
  rfl

/-- Tokens that begin with an absolute moveto are drawn behind others as on their own. -/
theorem interpret_append (t : Tessellation) (n : ℕ) (ts : List Token) {us vs : List Token} {o : ℕ}
    {a b : Numeral} (h : us = .command ⟨.moveto,false⟩ o::.number a::.number b::vs) :
    interpret t (ts ++ us.map (Token.shift n)) =
      (interpret t ts).bind fun p =>
        ((interpret t us).map (p.followedBy n)).mapError (Fault.shift n) := by
  obtain ⟨r,qs,hr,hc,ns,hn⟩ : ∃ r qs, runs us = ([],r::qs) ∧ r.command = ⟨.moveto,false⟩ ∧
      ∃ ns, r.numbers = a::b::ns := by
    subst h
    exact ⟨_,_,rfl,rfl,_,rfl⟩
  have hm : r.command.family = .moveto := by rw [hc]
  have hm' : (r.shift n).command.family = .moveto := hm
  have hus : openingFault? ([],r::qs) = none := by simp [openingFault?,hm]
  have hs := runs_append_command ts (us.map (Token.shift n)) (by rw [runs_shift,hr]; rfl)
  simp only [interpret,hs,runs_shift,hr,hus,List.map_cons,openingFault?_append _ _ hm']
  cases openingFault? (runs ts) with
  | some f => rfl
  | none =>
    dsimp only
    rw [Canvas.drawRuns_append]
    cases Canvas.empty.drawRuns t (runs ts).2 with
    | error f => rfl
    | ok k =>
      obtain ⟨c,he,hk⟩ := Canvas.drawRun_restart t n k hc hn
      simp only [Except.bind,Except.map,Canvas.drawRuns,he,hk,Canvas.drawRuns_after]
      cases c.drawRuns t qs with
      | error f => rfl
      | ok c => exact congrArg Except.ok (Canvas.drawn_after _ _ _)

/-- Path data behind a blank that begins with an absolute moveto adds what it draws alone,
and it comes to nothing as it would alone, unless what stands before it does. -/
theorem draw_append_blank (t : Tessellation) (d e : List Char) {o : ℕ} {a b : Numeral}
    {ts : List Token}
    (h : tokens e = .command ⟨.moveto,false⟩ o::.number a::.number b::ts) :
    draw t (d ++ ' '::e) =
      match draw t d,draw t e with
      | .error f,_ => .error f
      | .ok _,.error f => .error (f.shift (Text.units d+1))
      | .ok p,.ok q =>
        .ok ⟨p.subpaths ++ q.subpaths,p.notes ++ q.notes.map (Note.shift (Text.units d+1))⟩ := by
  rw [draw,tokens_append_blank,interpret_append t _ _ h]
  change ((draw t d).bind fun p => ((draw t e).map _).mapError _) = _
  cases draw t d with
  | error f => rfl
  | ok p =>
    cases draw t e with
    | error f => rfl
    | ok q => rfl

/-- The text in front ends behind a closepath and with half an exponent. -/
theorem draw_append_blank_reopened :
    tokens ",M1 2 3".toList = [.command ⟨.moveto,false⟩ 1,.number ⟨['1'],1,2⟩,
      .number ⟨['2'],2,4⟩,.number ⟨['3'],3,6⟩] ∧
    draw {} ("M0 0L5 5Zl2 2e".toList ++ ' '::",M1 2 3".toList) =
      .ok ⟨[[⟨0,0⟩,⟨5,5⟩,⟨0,0⟩],[⟨0,0⟩,⟨2,2⟩],[⟨1,2⟩]],
        [.underflow ⟨.moveto,false⟩ 1 16]⟩ := by
  have h : tokens ",M1 2 3".toList = [.command ⟨.moveto,false⟩ 1,.number ⟨['1'],1,2⟩,
      .number ⟨['2'],2,4⟩,.number ⟨['3'],3,6⟩] := by decide +kernel
  exact ⟨h,(draw_append_blank {} _ _ h).trans (by decide +kernel)⟩

end Path
end ExtrusionProfile
