import ExtrusionProfile.Proofs.Path.Coherence
import ExtrusionProfile.Proofs.Path.Emptiness
import ExtrusionProfile.Proofs.Path.Grammar
import Mathlib.Data.List.Forall2

/-! How finely curves are cut. A curve's samples stand between the pen and the place where it
leaves the pen, and nothing else looks at their number: pens, flaws and notes are the same for
every tessellation, and so are the division into subpaths and where each of them begins and ends.
Only a curve that nothing was drawn before leaves the place of the pen out. -/
namespace ExtrusionProfile
namespace Path

def Tessellation.chords : Tessellation := ⟨1,1,1⟩

/-- The strokes that are drawn through samples. -/
def Family.isCurve : Family → Bool
  | .cubic | .smoothCubic | .quadratic | .smoothQuadratic | .arc => true
  | _ => false

/-- The first stroke is a curve. -/
def OpensWithCurve (ss : List Stroke) : Prop := ∃ s ∈ ss.head?, s.segment.family.isCurve

instance : DecidablePred OpensWithCurve := fun ss =>
  inferInstanceAs (Decidable (∃ s ∈ ss.head?, s.segment.family.isCurve))

/-- The points `qs` without some of them; the last one is kept. -/
structure Coarser (ps qs : List (Point Float)) : Prop where
  sublist : List.Sublist ps qs
  last : ps.getLast? = qs.getLast?

namespace Coarser

variable {ps qs rs us : List (Point Float)}

theorem refl (ps : List (Point Float)) : Coarser ps ps := ⟨.refl ps,rfl⟩

theorem append (h : Coarser ps qs) (h' : Coarser rs us) : Coarser (ps ++ rs) (qs ++ us) := by
  refine ⟨h.sublist.append h'.sublist,?_⟩
  rw [List.getLast?_append,List.getLast?_append,h.last,h'.last]

theorem isEmpty_eq (h : Coarser ps qs) : ps.isEmpty = qs.isEmpty := by
  have hn : ps = [] ↔ qs = [] := by
    rw [← List.getLast?_eq_none_iff,h.last,List.getLast?_eq_none_iff]
  rw [Bool.eq_iff_iff,List.isEmpty_iff,List.isEmpty_iff]
  exact hn

end Coarser

namespace Cursor

variable (t t' : Tessellation) (k : Cursor) (relative : Bool) (s : Segment)

theorem cursor_step_eq : (k.step t relative s).cursor = (k.step t' relative s).cursor := by
  cases s <;> simp only [step,lineTo,cubicTo,quadraticTo,arcTo,curveTo]

theorem flaw_step_eq : (k.step t relative s).flaw = (k.step t' relative s).flaw := by
  cases s with
  | arc rx ry rotation large sweep p =>
    simp only [step,arcTo,Arc.flatten]
    split <;> rfl
  | _ => simp only [step,lineTo,cubicTo,quadraticTo,curveTo]

variable {s}

theorem step_eq (h : s.family.isCurve = false) : k.step t relative s = k.step t' relative s := by
  cases s with
  | cubic | smoothCubic | quadratic | smoothQuadratic | arc => cases h
  | _ => rfl

theorem points_step_chords (h : s.family ≠ .closepath) :
    (k.step .chords relative s).points = [(k.step .chords relative s).cursor.current] := by
  have hn : Scalar.count (1 : Float) = 1 := by decide +kernel
  cases s with
  | closepath => exact absurd rfl h
  | moveto | lineto | horizontal | vertical => rfl
  | cubic | smoothCubic =>
    simp [step,cubicTo,curveTo,Bezier.flattenCubic,Bezier.innerParameters,Tessellation.chords,hn]
  | quadratic | smoothQuadratic =>
    simp [step,quadraticTo,curveTo,Bezier.flattenQuadratic,Bezier.innerParameters,
      Tessellation.chords,hn]
  | arc rx ry rotation large sweep p =>
    simp only [step,arcTo,curveTo,Arc.flatten]
    split
    · rfl
    · simp [Arc.Sector.innerPoints,Tessellation.chords,hn]

theorem coarser_step (s : Segment) :
    Coarser (k.step .chords relative s).points (k.step t relative s).points := by
  by_cases hc : s.family = .closepath
  · cases Segment.eq_closepath hc
    exact .refl _
  · obtain ⟨ps,hp⟩ := exists_points_step t relative k hc
    rw [points_step_chords k relative hc,hp,cursor_step_eq .chords t]
    exact ⟨List.sublist_append_right ps _,by simp⟩

/-- The place where a stroke begins a new subpath behind another one, if it does. -/
def opening? (k : Cursor) (s : Stroke) : Option (Point Float) :=
  match s.segment with
  | .moveto p => some (k.resolve s.relative p)
  | .closepath => none
  | _ => if k.closed then some k.start else none

end Cursor

namespace Canvas

section Coarser

/-- The same subpaths, each with some of its points left out, and everything else the same. -/
structure CoarserThan (k k' : Canvas) : Prop where
  cursor : k.cursor = k'.cursor
  notes : k.notes = k'.notes
  finished : List.Forall₂ Coarser k.finished k'.finished
  live : Coarser k.live k'.live

namespace CoarserThan

variable (t : Tessellation) {k k' : Canvas}

theorem note (h : CoarserThan k k') (n : Note) : CoarserThan (k.note n) (k'.note n) :=
  ⟨h.cursor,congrArg (· ++ [n]) h.notes,h.finished,h.live⟩

theorem flush (h : CoarserThan k k') : CoarserThan k.flush k'.flush := by
  unfold Canvas.flush
  rw [h.live.isEmpty_eq]
  split
  · exact h
  · exact ⟨h.cursor,h.notes,List.rel_append h.finished (.cons h.live .nil),.refl []⟩

theorem reopen (h : CoarserThan k k') : CoarserThan k.reopen k'.reopen := by
  unfold Canvas.reopen
  rw [h.cursor]
  split
  · exact ⟨rfl,h.notes,List.rel_append h.finished (.cons h.live .nil),.refl _⟩
  · exact h

theorem extend (h : CoarserThan k k') {s s' : Step} (hc : s.cursor = s'.cursor)
    (hp : Coarser s.points s'.points) : CoarserThan (k.extend s) (k'.extend s') :=
  ⟨hc,h.notes,h.finished,h.live.append hp⟩

theorem draw (h : CoarserThan k k') (relative : Bool) (o : ℕ) (s : Segment) :
    CoarserThan (k.draw .chords relative o s) (k'.draw t relative o s) := by
  have hc := Cursor.cursor_step_eq .chords t k'.cursor relative s
  have hf := Cursor.flaw_step_eq .chords t k'.cursor relative s
  have hp := Cursor.coarser_step t k'.cursor relative s
  cases s with
  | moveto p =>
    simp only [Canvas.draw,h.cursor]
    exact h.flush.extend hc hp
  | closepath =>
    simp only [Canvas.draw,h.cursor]
    exact h.extend hc hp
  | _ =>
    simp only [Canvas.draw,h.cursor,hf]
    split
    · exact (h.reopen.extend hc hp).note _
    · exact h.reopen.extend hc hp

theorem foldl_draw (h : CoarserThan k k') (relative : Bool) (o : ℕ) (ss : List Segment) :
    CoarserThan (ss.foldl (Canvas.draw .chords relative o) k)
      (ss.foldl (Canvas.draw t relative o) k') := by
  induction ss generalizing k k' with
  | nil => exact h
  | cons s ss ih => exact ih (h.draw t relative o s)

theorem noted (h : CoarserThan k k') (r : Run) : CoarserThan (k.noted r) (k'.noted r) := by
  unfold Canvas.noted
  split
  · exact h.note _
  · exact h

theorem drawRun (h : CoarserThan k k') {c c' : Canvas} {r : Run}
    (hk : k.drawRun .chords r = .ok c) (hk' : k'.drawRun t r = .ok c') : CoarserThan c c' := by
  rcases drawRun_cases .chords k hk with ⟨hf,_,rfl⟩ | ⟨hf,rfl⟩
  · rcases drawRun_cases t k' hk' with ⟨_,_,rfl⟩ | ⟨hf',_⟩
    · exact h.draw t _ _ _
    · contradiction
  · rcases drawRun_cases t k' hk' with ⟨hf',_⟩ | ⟨_,rfl⟩
    · contradiction
    · exact (h.noted r).foldl_draw t _ _ _

theorem drawRuns (h : CoarserThan k k') {c c' : Canvas} {rs : List Run}
    (hk : k.drawRuns .chords rs = .ok c) (hk' : k'.drawRuns t rs = .ok c') : CoarserThan c c' := by
  induction rs generalizing k k' with
  | nil =>
    cases hk
    cases hk'
    exact h
  | cons r rs ih =>
    obtain ⟨d,hd,hr⟩ := (drawRuns_cons_eq_ok_iff .chords k).mp hk
    obtain ⟨d',hd',hr'⟩ := (drawRuns_cons_eq_ok_iff t k').mp hk'
    exact ih (h.drawRun t hd hd') hr hr'

end CoarserThan
end Coarser

section Heads

variable (t t' : Tessellation) {k k' : Canvas}

/-- Where the subpaths of a canvas begin, the one in progress at the end. -/
def heads (k : Canvas) : List (Option (Point Float)) := (k.finished ++ [k.live]).map List.head?

theorem heads_ne_nil (k : Canvas) : k.heads ≠ [] := by simp [heads]

theorem heads_flush (h : k.live ≠ []) : k.flush.finished.map List.head? = k.heads := by
  rw [flush_finished h,heads]

theorem heads_extend (h : k.live ≠ []) (s : Step) : (k.extend s).heads = k.heads := by
  simp [heads,extend,List.head?_append_of_ne_nil _ h]

theorem heads_stroke (h : k.live ≠ []) (s : Stroke) :
    (k.stroke t s).heads = k.heads ++ (k.cursor.opening? s).toList.map some := by
  obtain ⟨r,s⟩ := s
  have hb : k.bare.live ≠ [] := h
  by_cases hm : s.family = .moveto
  · obtain ⟨p,rfl⟩ := Segment.exists_moveto hm
    rw [stroke,bare_draw_moveto]
    have hf : k.bare.flush.finished = k.finished ++ [k.live] := flush_finished hb
    simp [heads,extend,hf,Cursor.step,Cursor.opening?]
  · by_cases hn : s.family = .closepath
    · cases Segment.eq_closepath hn
      simp only [stroke,draw,bare_extend,heads_extend hb]
      simp [Cursor.opening?,heads,bare]
    · have ho : k.cursor.opening? ⟨r,s⟩ = if k.cursor.closed then some k.cursor.start else none := by
        cases s <;> first | rfl | contradiction
      rw [stroke,bare_draw_of_ne t k r 0 hm hn,ho]
      by_cases hc : k.cursor.closed
      · simp [heads,extend,reopen,bare,hc]
      · have hr : k.bare.reopen = k.bare := by simp [reopen,bare,hc]
        rw [hr,heads_extend hb]
        simp [heads,bare,hc]

/-- Behind a point strokes begin the same subpaths for every tessellation. -/
theorem exists_heads_foldl_stroke (hc : k.cursor = k'.cursor) (hl : k.live ≠ [])
    (hl' : k'.live ≠ []) (ss : List Stroke) :
    ∃ hs, (ss.foldl (stroke t) k).heads = k.heads ++ hs ∧
      (ss.foldl (stroke t') k').heads = k'.heads ++ hs := by
  induction ss generalizing k k' with
  | nil => exact ⟨[],by simp,by simp⟩
  | cons s ss ih =>
    have hn : (k.stroke t s).cursor = (k'.stroke t' s).cursor := by
      rw [stroke_cursor,stroke_cursor,hc,Cursor.cursor_step_eq t t']
    obtain ⟨hs,hk,hk'⟩ := ih hn (stroke_grows t hl s).live (stroke_grows t' hl' s).live
    refine ⟨(k.cursor.opening? s).toList.map some ++ hs,?_,?_⟩
    · rw [List.foldl_cons,hk,heads_stroke t hl,List.append_assoc]
    · rw [List.foldl_cons,hk',heads_stroke t' hl',List.append_assoc,hc]

theorem stroke_eq {s : Stroke} (h : s.segment.family.isCurve = false) :
    k.stroke t s = k.stroke t' s := by
  simp only [stroke,draw,Cursor.step_eq t t' k.cursor s.relative h]

/-- A curve on a blank canvas begins a subpath where the canvas was closed, and otherwise behind
the place of the pen. -/
theorem heads_stroke_blank (closed : Bool) {s : Stroke} (h : s.segment.family ≠ .closepath) :
    ((blank closed).stroke t s).heads.tail = ((blank closed).stroke t' s).heads.tail ∧
      (closed ∨ s.segment.family.isCurve = false →
        ((blank closed).stroke t s).heads = ((blank closed).stroke t' s).heads) := by
  cases hc : s.segment.family.isCurve with
  | false => simp only [stroke_eq t t' hc,implies_true,and_self]
  | true =>
    have hm : s.segment.family ≠ .moveto := by
      intro hm
      rw [hm] at hc
      cases hc
    have ht (x : Step) : ((blank true).bare.reopen.extend x).heads = [none,some .origin] := rfl
    have hf (x : Step) : ((blank false).bare.reopen.extend x).heads.tail = [] := rfl
    simp only [stroke,bare_draw_of_ne _ _ _ _ hm h]
    cases closed with
    | true => simp only [ht,implies_true,and_self]
    | false => simp only [hf,Bool.false_eq_true,reduceCtorEq,or_self,false_implies,and_self]

theorem heads_blank (closed : Bool) (ss : List Stroke) :
    ((ss.foldl (stroke t) (blank closed)).flush.finished.map List.head?).tail =
        ((ss.foldl (stroke t') (blank closed)).flush.finished.map List.head?).tail ∧
      (closed ∨ ¬OpensWithCurve ss →
        (ss.foldl (stroke t) (blank closed)).flush.finished.map List.head? =
          (ss.foldl (stroke t') (blank closed)).flush.finished.map List.head?) := by
  induction ss generalizing closed with
  | nil => simp only [List.foldl_nil,implies_true,and_self]
  | cons s ss ih =>
    by_cases hs : s.segment.family = .closepath
    · obtain ⟨r,s⟩ := s
      cases Segment.eq_closepath hs
      simp only [List.foldl_cons,stroke_blank_closepath]
      have he := (ih true).2 (.inl rfl)
      exact ⟨congrArg List.tail he,fun _ => he⟩
    · -- Only this stroke finds the canvas blank: behind it subpaths begin alike.
      have hl := (stroke_blank t closed hs).1
      have hl' := (stroke_blank t' closed hs).1
      have hc : ((blank closed).stroke t s).cursor = ((blank closed).stroke t' s).cursor := by
        rw [stroke_cursor,stroke_cursor,Cursor.cursor_step_eq t t']
      obtain ⟨fs,hk,hk'⟩ := exists_heads_foldl_stroke t t' hc hl hl' ss
      have hg := (foldl_stroke_grows t (.refl hl) ss).live
      have hg' := (foldl_stroke_grows t' (.refl hl') ss).live
      obtain ⟨ht,he⟩ := heads_stroke_blank t t' closed hs
      simp only [List.foldl_cons,heads_flush hg,heads_flush hg',hk,hk']
      refine ⟨?_,fun h => ?_⟩
      · rw [List.tail_append_of_ne_nil (heads_ne_nil _),ht,
          List.tail_append_of_ne_nil (heads_ne_nil _)]
      · have hn : closed ∨ s.segment.family.isCurve = false := by
          simpa [OpensWithCurve] using h
        rw [he hn]

end Heads
end Canvas

theorem Coarser.getLast?_eq {xs ys : List (List (Point Float))} (h : List.Forall₂ Coarser xs ys) :
    xs.map List.getLast? = ys.map List.getLast? := by
  induction h with
  | nil => rfl
  | cons h _ ih => rw [List.map_cons,List.map_cons,h.last,ih]

/-- What is drawn with chords is coarser than what any tessellation draws. -/
theorem interpret_chords {t : Tessellation} {ts : List Token} {a b : Drawn}
    (ha : interpret .chords ts = .ok a) (hb : interpret t ts = .ok b) :
    a.notes = b.notes ∧ List.Forall₂ Coarser a.subpaths b.subpaths := by
  obtain ⟨-,k,hk,rfl⟩ := interpret_eq_ok_iff.mp ha
  obtain ⟨-,k',hk',rfl⟩ := interpret_eq_ok_iff.mp hb
  have he : Canvas.CoarserThan .empty .empty := ⟨rfl,rfl,.nil,.refl []⟩
  have h := he.drawRuns t hk hk'
  exact ⟨h.notes,h.flush.finished⟩

/-- Tokens fail for every tessellation or for none, with the same fault. If they are drawn, notes,
the number of subpaths and their ends are the same for every tessellation, and so are the places
where subpaths begin, that of the first one if no curve is drawn before anything else. Curves cut
into chords leave a part of every other tessellation, subpath by subpath. -/
theorem interpret_tessellation (ts : List Token) :
    (∃ f, ∀ t, interpret t ts = .error f) ∨
      ∃ drawn : Tessellation → Drawn, (∀ t, interpret t ts = .ok (drawn t)) ∧
        (∀ t, List.Forall₂ List.Sublist (drawn .chords).subpaths (drawn t).subpaths) ∧
        ∀ t t', (drawn t).notes = (drawn t').notes ∧
          (drawn t).subpaths.map List.getLast? = (drawn t').subpaths.map List.getLast? ∧
          ((drawn t).subpaths.map List.head?).tail = ((drawn t').subpaths.map List.head?).tail ∧
          (¬OpensWithCurve (strokes ts) →
            (drawn t).subpaths.map List.head? = (drawn t').subpaths.map List.head?) := by
  by_cases hb : ∃ f, Blamed ts f
  · obtain ⟨f,hf⟩ := hb
    exact .inl ⟨f,fun t => interpret_eq_error_iff.mpr hf⟩
  · right
    choose drawn hd using fun t => exists_interpret t (not_exists.mp hb)
    have hc (t) := interpret_chords (hd .chords) (hd t)
    refine ⟨drawn,hd,fun t => (hc t).2.imp fun _ _ h => h.sublist,fun t t' => ⟨?_,?_,?_⟩⟩
    · exact (hc t).1.symm.trans (hc t').1
    · exact (Coarser.getLast?_eq (hc t).2).symm.trans (Coarser.getLast?_eq (hc t').2)
    · rw [subpaths_interpret (hd t),subpaths_interpret (hd t')]
      obtain ⟨ht,hh⟩ := Canvas.heads_blank t t' false (strokes ts)
      exact ⟨ht,fun h => hh (.inr h)⟩

/-- A curve, a closepath and a line behind it: both subpaths begin and end at fixed places. -/
theorem interpret_tessellation_reopened :
    ¬OpensWithCurve (strokes (tokens "M1 0Q1 2 2 0zh3".toList)) ∧
      ∀ t, ∃ a, interpret t (tokens "M1 0Q1 2 2 0zh3".toList) = .ok a ∧
        a.subpaths.map List.head? = [some ⟨1,0⟩,some ⟨1,0⟩] ∧
        a.subpaths.map List.getLast? = [some ⟨1,0⟩,some ⟨4,0⟩] := by
  have ho : ¬OpensWithCurve (strokes (tokens "M1 0Q1 2 2 0zh3".toList)) := by decide +kernel
  have hc : interpret .chords (tokens "M1 0Q1 2 2 0zh3".toList) =
      .ok ⟨[[⟨1,0⟩,⟨2,0⟩,⟨1,0⟩],[⟨1,0⟩,⟨4,0⟩]],[]⟩ := by decide +kernel
  refine ⟨ho,fun t => ?_⟩
  rcases interpret_tessellation (tokens "M1 0Q1 2 2 0zh3".toList) with ⟨f,hf⟩ | ⟨drawn,hd,-,h⟩
  · cases hc.symm.trans (hf .chords)
  · have hs : drawn .chords = ⟨[[⟨1,0⟩,⟨2,0⟩,⟨1,0⟩],[⟨1,0⟩,⟨4,0⟩]],[]⟩ :=
      Except.ok.inj ((hd .chords).symm.trans hc)
    obtain ⟨-,hl,-,hh⟩ := h t .chords
    rw [hs] at hl hh
    exact ⟨drawn t,hd t,hh ho,hl⟩

/-- Behind a moveto without numbers the first point of a curve's subpath is a sample. -/
theorem exists_heads_ne_of_opening_curve :
    ∃ a b, interpret { cubic := 1 } (tokens "MC0 1 1 1 1 0".toList) = .ok a ∧
      interpret { cubic := 2 } (tokens "MC0 1 1 1 1 0".toList) = .ok b ∧
      a.subpaths = [[⟨1,0⟩]] ∧ b.subpaths = [[⟨0.5,0.75⟩,⟨1,0⟩]] ∧
      a.subpaths.map List.head? ≠ b.subpaths.map List.head? := by
  have hn : (⟨1,0⟩ : Point Float) ≠ ⟨0.5,0.75⟩ := by decide +kernel
  exact ⟨⟨[[⟨1,0⟩]],[.underflow ⟨.moveto,false⟩ 0 0]⟩,
    ⟨[[⟨0.5,0.75⟩,⟨1,0⟩]],[.underflow ⟨.moveto,false⟩ 0 0]⟩,by decide +kernel,by decide +kernel,
    rfl,rfl,by simpa using hn⟩

end Path
end ExtrusionProfile
