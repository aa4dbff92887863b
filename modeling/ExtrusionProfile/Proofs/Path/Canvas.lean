import ExtrusionProfile.Path.Subpaths
import Mathlib.Data.Nat.Notation

/-! Runs on a canvas. A run is a closepath or draws its segments one after another, and runs
one behind the other are drawn one after another. Drawing looks at neither the finished
subpaths nor the notes. -/
namespace ExtrusionProfile
namespace Path
namespace Canvas

/-- The canvas with the note that a run leaves, if it leaves one. -/
def noted (k : Canvas) (r : Run) : Canvas :=
  if r.count = 0 ∨ 0 < r.dropped then k.note (.underflow r.command r.dropped r.offset) else k

variable (t : Tessellation) (k : Canvas)

theorem drawRun_segments {r : Run} (h : r.command.family ≠ .closepath) :
    k.drawRun t r = .ok (r.segments.foldl (draw t r.command.relative r.offset) (k.noted r)) := by
  unfold drawRun
  split
  · contradiction
  · contradiction
  · rfl

theorem drawRun_close {r : Run} (h : r.command.family = .closepath) (hn : r.numbers = []) :
    k.drawRun t r = .ok (k.draw t r.command.relative r.offset .closepath) := by
  simp [drawRun,h,hn]

theorem drawRun_stray {r : Run} {n : Numeral} {ns : List Numeral}
    (h : r.command.family = .closepath) (hn : r.numbers = n::ns) :
    k.drawRun t r = .error (.stray (.numbersBehindClose r.command) n ns) := by
  simp [drawRun,h,hn]

theorem drawRun_cases {k' : Canvas} {r : Run} (h : k.drawRun t r = .ok k') :
    (r.command.family = .closepath ∧ r.numbers = [] ∧
        k' = k.draw t r.command.relative r.offset .closepath) ∨
      (r.command.family ≠ .closepath ∧
        k' = r.segments.foldl (draw t r.command.relative r.offset) (k.noted r)) := by
  by_cases hf : r.command.family = .closepath
  · cases hn : r.numbers with
    | nil =>
      rw [drawRun_close t k hf hn] at h
      exact .inl ⟨hf,rfl,(Except.ok.inj h).symm⟩
    | cons n ns =>
      rw [drawRun_stray t k hf hn] at h
      cases h
  · rw [drawRun_segments t k hf] at h
    exact .inr ⟨hf,(Except.ok.inj h).symm⟩

theorem drawRuns_cons_eq_ok_iff {k' : Canvas} {r : Run} {rs : List Run} :
    k.drawRuns t (r::rs) = .ok k' ↔
      ∃ c, k.drawRun t r = .ok c ∧ c.drawRuns t rs = .ok k' := by
  rw [drawRuns]
  cases k.drawRun t r with
  | error f => simp [Except.bind]
  | ok c => simp [Except.bind]

theorem drawRuns_append (rs ss : List Run) :
    k.drawRuns t (rs ++ ss) = (k.drawRuns t rs).bind fun k => k.drawRuns t ss := by
  induction rs generalizing k with
  | nil => rfl
  | cons r rs ih =>
    simp only [List.cons_append,drawRuns]
    cases k.drawRun t r with
    | error f => rfl
    | ok k => exact ih k

@[simp] theorem flush_live : k.flush.live = [] := by
  unfold flush
  split
  · rename_i h
    exact List.isEmpty_iff.mp h
  · rfl

theorem flush_finished {k : Canvas} (h : k.live ≠ []) :
    k.flush.finished = k.finished ++ [k.live] := by
  simp [flush,h]

@[simp] theorem flush_notes : k.flush.notes = k.notes := by
  unfold flush
  split <;> rfl

theorem draw_cursor (relative : Bool) (o : ℕ) (s : Segment) :
    (k.draw t relative o s).cursor = (k.cursor.step t relative s).cursor := by
  unfold draw
  dsimp only
  split
  · rfl
  · rfl
  · split <;> rfl

@[simp] theorem noted_cursor (r : Run) : (k.noted r).cursor = k.cursor := by
  unfold noted
  split <;> rfl

section After

variable (p : Drawn) (φ : Note → Note)

/-- The canvas when `p` has been drawn before and every note is rewritten by `φ`. -/
def after (k : Canvas) : Canvas :=
  ⟨p.subpaths ++ k.finished,k.live,k.cursor,p.notes ++ k.notes.map φ⟩

theorem after_note (n : Note) : (k.note n).after p φ = (k.after p φ).note (φ n) := by
  simp [after,note]

theorem after_flush : k.flush.after p φ = (k.after p φ).flush := by
  by_cases h : k.live.isEmpty <;> simp [after,flush,h]

theorem after_reopen : k.reopen.after p φ = (k.after p φ).reopen := by
  by_cases h : k.cursor.closed <;> simp [after,reopen,h]

theorem after_extend (s : Step) : (k.extend s).after p φ = (k.after p φ).extend s := rfl

variable {φ}

theorem after_draw {o o' : ℕ} (h : ∀ f, φ (.straightArc f o) = .straightArc f o')
    (relative : Bool) (s : Segment) :
    (k.draw t relative o s).after p φ = (k.after p φ).draw t relative o' s := by
  have hc : (k.after p φ).cursor = k.cursor := rfl
  unfold draw
  simp only [hc]
  split
  · rw [after_extend,after_flush]
  · rfl
  · split
    · rw [after_note,after_extend,after_reopen,h]
    · rw [after_extend,after_reopen]

theorem after_foldl_draw {o o' : ℕ} (h : ∀ f, φ (.straightArc f o) = .straightArc f o')
    (relative : Bool) (ss : List Segment) :
    (ss.foldl (draw t relative o) k).after p φ =
      ss.foldl (draw t relative o') (k.after p φ) :=
  (List.foldl_hom (after p φ) fun k s => (after_draw t k p h relative s).symm).symm

theorem after_noted {r r' : Run} (hc : r'.count = r.count) (hd : r'.dropped = r.dropped)
    (h : φ (.underflow r.command r.dropped r.offset) =
      .underflow r'.command r.dropped r'.offset) :
    (k.noted r).after p φ = (k.after p φ).noted r' := by
  simp only [noted,hc,hd]
  split
  · rw [after_note,h]
  · rfl

end After

section Bare

def bare (k : Canvas) : Canvas := { k with notes := [] }

theorem bare_note (n : Note) : (k.note n).bare = k.bare := rfl

theorem bare_noted (r : Run) : (k.noted r).bare = k.bare := by
  unfold noted
  split <;> rfl

theorem bare_flush : k.flush.bare = k.bare.flush := by
  by_cases h : k.live.isEmpty <;> simp [bare,flush,h]

@[simp] theorem flush_bare_finished : k.bare.flush.finished = k.flush.finished := by
  rw [← bare_flush]
  rfl

theorem bare_reopen : k.reopen.bare = k.bare.reopen := by
  by_cases h : k.cursor.closed <;> simp [bare,reopen,h]

theorem bare_extend (s : Step) : (k.extend s).bare = k.bare.extend s := rfl

theorem after_bare : k.bare.after ⟨[],k.notes⟩ id = k := by
  simp [bare,after]

/-- Drawing keeps the notes it finds in front of its own, and does nothing else with them. -/
theorem foldl_draw_bare (relative : Bool) (o : ℕ) (ss : List Segment) :
    ss.foldl (draw t relative o) k =
      (ss.foldl (draw t relative o) k.bare).after ⟨[],k.notes⟩ id := by
  rw [after_foldl_draw t k.bare ⟨[],k.notes⟩ (fun _ => rfl),after_bare]

end Bare
end Canvas

/-- Tokens are accepted when they begin with a moveto and every run of them is drawn. -/
theorem interpret_eq_ok_iff {t : Tessellation} {ts : List Token} {a : Drawn} :
    interpret t ts = .ok a ↔ openingFault? (runs ts) = none ∧
      ∃ k, Canvas.empty.drawRuns t (runs ts).2 = .ok k ∧
        a = ⟨k.flush.finished,k.notes⟩ := by
  rw [interpret]
  cases openingFault? (runs ts) with
  | some f => simp
  | none =>
    cases Canvas.empty.drawRuns t (runs ts).2 with
    | error f => simp [Except.map]
    | ok k => simp [Except.map,eq_comm]

end Path
end ExtrusionProfile
