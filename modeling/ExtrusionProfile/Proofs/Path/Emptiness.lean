import ExtrusionProfile.Proofs.Path.Strokes
import Mathlib.Data.List.Basic

/-! Subpaths without points. A canvas that has a point in progress never puts an empty subpath
away. On a blank one a closepath leaves no point, and the stroke behind it reopens the blank:
that is the one way to an empty subpath, and it makes only the first one empty. -/
namespace ExtrusionProfile
namespace Path

/-- Strokes begin with a closepath, and the first of them that is none is no moveto either. -/
def ReopensBlank (ss : List Stroke) : Prop :=
  (∃ s ∈ ss.head?, s.segment.family = .closepath) ∧
    ∃ s ∈ ss.find? fun s => s.segment.family ≠ .closepath, s.segment.family ≠ .moveto

namespace Canvas

/-- The subpath in progress has a point, and those put away since `k` have one too. -/
structure Grows (k k' : Canvas) : Prop where
  live : k'.live ≠ []
  finished : ∃ ps, k'.finished = k.finished ++ ps ∧ [] ∉ ps

theorem Grows.refl {k : Canvas} (h : k.live ≠ []) : k.Grows k := ⟨h,[],by simp,by simp⟩

theorem Grows.trans {k k' k'' : Canvas} (h : k.Grows k') (h' : k'.Grows k'') : k.Grows k'' := by
  obtain ⟨ps,hp,hn⟩ := h.finished
  obtain ⟨qs,hq,hn'⟩ := h'.finished
  refine ⟨h'.live,ps ++ qs,?_,?_⟩
  · rw [hq,hp,List.append_assoc]
  · simp [hn,hn']

theorem Grows.flush_finished {k k' : Canvas} (h : k.Grows k') :
    ∃ ps, k'.flush.finished = k.finished ++ ps ∧ [] ∉ ps := by
  obtain ⟨ps,hp,hn⟩ := h.finished
  refine ⟨ps ++ [k'.live],?_,?_⟩
  · rw [Canvas.flush_finished h.live,hp,List.append_assoc]
  · simp [hn,h.live.symm]

variable (t : Tessellation)

theorem stroke_grows {k : Canvas} (h : k.live ≠ []) (s : Stroke) : k.Grows (k.stroke t s) := by
  rcases stroke_cases t k s with ⟨p,hs,hk⟩ | ⟨-,hk⟩ | ⟨-,-,hk⟩
  · rw [hk,hs]
    refine ⟨by simp [extend,Cursor.step],[k.live],?_,by simp [h.symm]⟩
    exact flush_finished (k := k.bare) h
  · rw [hk]
    exact ⟨by simp [extend,bare,h],[],by simp [extend,bare],by simp⟩
  · rw [hk]
    by_cases ho : k.cursor.closed
    · refine ⟨by simp [extend,reopen,bare,ho],[k.live],?_,by simp [h.symm]⟩
      simp [extend,reopen,bare,ho]
    · refine ⟨by simp [extend,reopen,bare,ho,h],[],?_,by simp⟩
      simp [extend,reopen,bare,ho]

theorem foldl_stroke_grows {k k' : Canvas} (h : k.Grows k') (ss : List Stroke) :
    k.Grows (ss.foldl (stroke t) k') := by
  induction ss generalizing k' with
  | nil => exact h
  | cons s ss ih => exact ih (h.trans (stroke_grows t h.live s))

/-- A canvas with no point, on which nothing or only closepaths were drawn. -/
def blank (closed : Bool) : Canvas := ⟨[],[],⟨Point.origin,Point.origin,none,closed⟩,[]⟩

theorem stroke_blank_closepath (closed r : Bool) :
    (blank closed).stroke t ⟨r,.closepath⟩ = blank true := by
  have h : Point.same (Point.origin : Point Float) Point.origin = true := by decide +kernel
  have hp : ((blank closed).cursor.step t r .closepath) =
      ⟨⟨Point.origin,Point.origin,none,true⟩,[],none⟩ := by simp [blank,Cursor.step,h]
  change (blank closed).bare.extend _ = blank true
  rw [hp]
  rfl

/-- The first stroke that is no closepath leaves a point. Unless it is a moveto it puts the
blank away if that was closed. -/
theorem stroke_blank (closed : Bool) {s : Stroke} (hc : s.segment.family ≠ .closepath) :
    ((blank closed).stroke t s).live ≠ [] ∧
      ((blank closed).stroke t s).finished =
        if closed ∧ s.segment.family ≠ .moveto then [[]] else [] := by
  obtain ⟨ps,hp⟩ := Cursor.exists_points_step t s.relative (blank closed).cursor hc
  rcases stroke_cases t (blank closed) s with ⟨p,hs,hk⟩ | ⟨hs,-⟩ | ⟨hm,-,hk⟩
  · have hm : s.segment.family = .moveto := by rw [hs]; rfl
    have hf : (blank closed).bare.flush = ⟨[],[],(blank closed).cursor,[]⟩ := rfl
    rw [hk,hf]
    simp [extend,hp,hm]
  · exact absurd (by rw [hs]; rfl) hc
  · have ho : (blank closed).bare.reopen =
        ⟨if closed then [[]] else [],if closed then [.origin] else [],(blank closed).cursor,[]⟩ := by
      cases closed <;> rfl
    rw [hk,ho]
    cases closed <;> simp [extend,hp,hm]

/-- Strokes on a blank canvas make the first subpath empty when the canvas is closed, at first
or by them, before one that is no moveto reopens it. -/
theorem subpaths_blank (closed : Bool) (ss : List Stroke) :
    ∃ b ps, ((ss.foldl (stroke t) (blank closed)).flush.finished = if b then []::ps else ps) ∧
      [] ∉ ps ∧ (b = true ↔ (closed ∨ ∃ s ∈ ss.head?, s.segment.family = .closepath) ∧
        ∃ s ∈ ss.find? fun s => s.segment.family ≠ .closepath, s.segment.family ≠ .moveto) := by
  induction ss generalizing closed with
  | nil => exact ⟨false,[],by simp [flush,blank],by simp,by simp⟩
  | cons s ss ih =>
    by_cases hc : s.segment.family = .closepath
    · obtain ⟨r,s⟩ := s
      cases Segment.eq_closepath hc
      obtain ⟨b,ps,hp,hn,hb⟩ := ih true
      refine ⟨b,ps,?_,hn,?_⟩
      · rw [List.foldl_cons,stroke_blank_closepath,hp]
      · rw [hb]
        simp [Segment.family]
    · -- Only this stroke finds the canvas blank: all that is put away from here on has a point.
      obtain ⟨hl,hf⟩ := stroke_blank t closed hc
      obtain ⟨ps,hp,hn⟩ := (foldl_stroke_grows t (.refl hl) ss).flush_finished
      refine ⟨closed && s.segment.family ≠ .moveto,ps,?_,hn,?_⟩
      · rw [List.foldl_cons,hp,hf]
        by_cases hm : s.segment.family = .moveto <;> cases closed <;> simp [hm]
      · simp [hc]

end Canvas

/-- Accepted tokens draw an empty subpath exactly when their strokes begin with a closepath and
the first other stroke is no moveto, and then only the first subpath is empty. -/
theorem interpret_points_iff {t : Tessellation} {ts : List Token} {a : Drawn}
    (h : interpret t ts = .ok a) :
    ((∀ ps ∈ a.subpaths, ps ≠ []) ↔ ¬ReopensBlank (strokes ts)) ∧
      ∀ ps ∈ a.subpaths.tail, ps ≠ [] := by
  obtain ⟨b,ps,hp,hn,hb⟩ := Canvas.subpaths_blank t false (strokes ts)
  have hs : a.subpaths = if b then []::ps else ps := (subpaths_interpret h).trans hp
  have hr : b = true ↔ ReopensBlank (strokes ts) := by simpa [ReopensBlank] using hb
  have hps : ∀ q ∈ ps, q ≠ [] := fun q hq he => hn (he ▸ hq)
  rw [← hr,hs]
  cases b with
  | true => exact ⟨by simp,hps⟩
  | false => exact ⟨by simpa using hps,fun q hq => hps q (List.mem_of_mem_tail hq)⟩

/-- A moveto short of a number, two closepaths and a line; the moveto behind them is complete. -/
theorem interpret_points_iff_reopened :
    interpret {} (tokens "M1zZh5M2 2".toList) =
      .ok ⟨[[],[⟨0,0⟩,⟨5,0⟩],[⟨2,2⟩]],[.underflow ⟨.moveto,false⟩ 1 0]⟩ ∧
    ReopensBlank (strokes (tokens "M1zZh5M2 2".toList)) := by
  have h : interpret {} (tokens "M1zZh5M2 2".toList) =
      .ok ⟨[[],[⟨0,0⟩,⟨5,0⟩],[⟨2,2⟩]],[.underflow ⟨.moveto,false⟩ 1 0]⟩ := by decide +kernel
  refine ⟨h,by_contra fun hr => ?_⟩
  have hp := (interpret_points_iff h).1.mpr hr
  exact hp [] (by simp) rfl

/-- A moveto without numbers, a closepath and a line leave a subpath without points. -/
theorem nil_mem_subpaths_of_reopened :
    ∃ a, interpret {} (tokens "MZL1 1".toList) = .ok a ∧
      a.subpaths = [[],[⟨0,0⟩,⟨1,1⟩]] ∧ [] ∈ a.subpaths :=
  ⟨⟨[[],[⟨0,0⟩,⟨1,1⟩]],[.underflow ⟨.moveto,false⟩ 0 0]⟩,by decide +kernel,rfl,by simp⟩

end Path
end ExtrusionProfile
