import ExtrusionProfile.Proofs.Path.Strokes
import ExtrusionProfile.Proofs.Path.Groups
import ExtrusionProfile.Proofs.Number.Order

/-! The pen and the line it draws. At every stage of a path that begins with a moveto the
subpath in progress begins where the pen would close it and ends where the pen is. So no
subpath is empty, each begins at a moveto or where the one before it was closed, and all of
them one behind the other are what the strokes add. -/
namespace ExtrusionProfile

namespace Point

theorem same_trans {p q r : Point Float} (h : Point.same p q) (h' : Point.same q r) :
    Point.same p r := by
  simp only [Point.same,Scalar.same,Bool.and_eq_true] at h h' ⊢
  exact ⟨Binary64.beq_trans h.1 h'.1,Binary64.beq_trans h.2 h'.2⟩

/-- The same point, or one with numerically equal coordinates. -/
def Meets (p q : Point Float) : Prop := p = q ∨ Point.same p q

theorem Meets.same {p q r : Point Float} (h : p.Meets q) (h' : Point.same q r) : p.Meets r := by
  rcases h with rfl | h
  · exact .inr h'
  · exact .inr (same_trans h h')

end Point

namespace Path

/-- Whether segments draw on from where the pen is, so that they reopen a closed subpath. -/
def Family.draws (f : Family) : Bool := f ≠ .moveto && f ≠ .closepath

namespace Cursor

variable (t : Tessellation) (relative : Bool) (k : Cursor)

theorem closed_step (s : Segment) :
    (k.step t relative s).cursor.closed = decide (s.family = .closepath) := by
  cases s <;> rfl

theorem start_step {s : Segment} (h : s.family ≠ .moveto) :
    (k.step t relative s).cursor.start = k.start := by
  cases s with
  | moveto p => exact absurd rfl h
  | _ => rfl

end Cursor

namespace Canvas

section Stages

variable (t : Tessellation)

def segmentStages (relative : Bool) (o : ℕ) : Canvas → List Segment → List (Segment × Canvas)
  | _,[] => []
  | k,s::ss =>
    let k' := k.draw t relative o s
    (s,k')::segmentStages relative o k' ss

/-- The canvases behind the groups of numbers of a run, or behind its closepath. -/
def runStages (k : Canvas) (r : Run) : List (Segment × Canvas) :=
  if r.command.family = .closepath then
    [(.closepath,k.draw t r.command.relative r.offset .closepath)]
  else segmentStages t r.command.relative r.offset (k.noted r) r.segments

/-- The canvases on the way through runs, up to the first fault. -/
def stages : Canvas → List Run → List (Segment × Canvas)
  | _,[] => []
  | k,r::rs =>
    match k.drawRun t r with
    | .error _ => []
    | .ok k' => k.runStages t r ++ stages k' rs

def strokeStages : Canvas → List Stroke → List (Segment × Canvas)
  | _,[] => []
  | k,s::ss =>
    let k' := k.stroke t s
    (s.segment,k')::strokeStages k' ss

def bareStage (x : Segment × Canvas) : Segment × Canvas := (x.1,x.2.bare)

theorem strokeStages_append (k : Canvas) (ss rs : List Stroke) :
    k.strokeStages t (ss ++ rs) =
      k.strokeStages t ss ++ (ss.foldl (stroke t) k).strokeStages t rs := by
  induction ss generalizing k with
  | nil => rfl
  | cons s ss ih => simp [strokeStages,ih]

theorem bare_segmentStages (relative : Bool) (o : ℕ) (k : Canvas) (ss : List Segment) :
    (k.segmentStages t relative o ss).map bareStage =
      k.bare.strokeStages t (ss.map (⟨relative,·⟩)) := by
  induction ss generalizing k with
  | nil => rfl
  | cons s ss ih => simp [segmentStages,strokeStages,bareStage,bare_draw,ih]

theorem bare_runStages (k : Canvas) (r : Run) :
    (k.runStages t r).map bareStage = k.bare.strokeStages t r.strokes := by
  rw [runStages,Run.strokes]
  split
  · simp [strokeStages,bareStage,bare_draw]
  · rw [bare_segmentStages,bare_noted]

/-- Notes apart, runs go through the stages of their strokes, as far as they go. -/
theorem bare_stages_prefix (k : Canvas) (rs : List Run) :
    (k.stages t rs).map bareStage <+: k.bare.strokeStages t (rs.flatMap Run.strokes) := by
  induction rs generalizing k with
  | nil => exact List.prefix_refl _
  | cons r rs ih =>
    rw [stages]
    cases hr : k.drawRun t r with
    | error f => exact List.nil_prefix
    | ok k' =>
      rw [List.flatMap_cons,strokeStages_append,List.map_append,bare_runStages,← bare_drawRun t hr]
      exact (List.prefix_append_right_inj _).mpr (ih k')

theorem bare_stages_eq {k k' : Canvas} {rs : List Run} (h : k.drawRuns t rs = .ok k') :
    (k.stages t rs).map bareStage = k.bare.strokeStages t (rs.flatMap Run.strokes) := by
  induction rs generalizing k with
  | nil => rfl
  | cons r rs ih =>
    obtain ⟨c,hr,hrs⟩ := (drawRuns_cons_eq_ok_iff t k).mp h
    rw [stages,hr]
    dsimp only
    rw [List.flatMap_cons,strokeStages_append,List.map_append,bare_runStages,← bare_drawRun t hr,
      ih hrs]

end Stages

section Coherent

/-- The subpath in progress begins where the pen would close it and ends where the pen is. -/
structure Coherent (k : Canvas) : Prop where
  begins : k.live.head? = some k.cursor.start
  ends : ∃ p ∈ k.live.getLast?, p.Meets k.cursor.current

variable {k : Canvas}

theorem Coherent.live_ne_nil (h : k.Coherent) : k.live ≠ [] := by
  intro he
  have hb := h.begins
  rw [he] at hb
  cases hb

theorem Coherent.head?_append (h : k.Coherent) (ps : List (Point Float)) :
    (k.live ++ ps).head? = some k.cursor.start := by
  rw [List.head?_append,h.begins]
  rfl

variable (t : Tessellation)

theorem coherent_stroke_moveto {s : Stroke} (h : s.segment.family = .moveto) :
    (k.stroke t s).Coherent := by
  obtain ⟨r,s⟩ := s
  obtain ⟨p,rfl⟩ := Segment.exists_moveto h
  have hk : k.stroke t ⟨r,.moveto p⟩ = _ := bare_draw_moveto t k r 0 p
  rw [hk]
  constructor
  · simp [extend,Cursor.step]
  · exact ⟨k.cursor.resolve r p,by simp [extend,Cursor.step],.inl rfl⟩

/-- A stroke keeps the line and the pen together. -/
theorem Coherent.stroke (h : k.Coherent) (s : Stroke) : (k.stroke t s).Coherent := by
  rcases stroke_cases t k s with ⟨p,hs,-⟩ | ⟨hs,hk⟩ | ⟨hm,hc,hk⟩
  · exact coherent_stroke_moveto t (by rw [hs]; rfl)
  · obtain ⟨p,hp,hpc⟩ := h.ends
    rw [hk,hs]
    refine ⟨h.head?_append _,?_⟩
    -- The start point is left out when the pen is there, and then the last point meets it.
    by_cases hcs : Point.same k.cursor.current k.cursor.start
    · exact ⟨p,by simpa [extend,bare,Cursor.step,hcs] using hp,hpc.same hcs⟩
    · exact ⟨k.cursor.start,by simp [extend,bare,Cursor.step,hcs],.inl rfl⟩
  · obtain ⟨ps,hp⟩ := Cursor.exists_points_step t s.relative k.cursor hc
    rw [hk]
    constructor
    · change (k.bare.reopen.live ++ _).head? = some (k.cursor.step t s.relative s.segment).cursor.start
      rw [Cursor.start_step t s.relative k.cursor hm,reopen]
      split
      · rfl
      · exact h.head?_append _
    · exact ⟨_,by simp [extend,hp],.inl rfl⟩

theorem Coherent.closes {s : Stroke} (h : k.Coherent) (hs : s.segment.family = .closepath) :
    ∃ p ∈ (k.stroke t s).live.getLast?, ∃ q ∈ (k.stroke t s).live.head?, p.Meets q := by
  obtain ⟨r,s⟩ := s
  cases Segment.eq_closepath hs
  have hc := h.stroke t ⟨r,.closepath⟩
  obtain ⟨p,hp,hpc⟩ := hc.ends
  exact ⟨p,hp,_,hc.begins,hpc⟩

/-- A stage behind which the line and the pen agree, and the line comes back to its beginning if
it was closed. -/
def Sound (x : Segment × Canvas) : Prop :=
  x.2.Coherent ∧ (x.1.family = .closepath →
    ∃ p ∈ x.2.live.getLast?, ∃ q ∈ x.2.live.head?, p.Meets q)

theorem Coherent.sound (h : k.Coherent) {ss : List Stroke} {x : Segment × Canvas}
    (hx : x ∈ k.strokeStages t ss) : Sound x := by
  induction ss generalizing k with
  | nil => cases hx
  | cons s ss ih =>
    rcases List.mem_cons.mp hx with rfl | hx
    · exact ⟨h.stroke t s,h.closes t⟩
    · exact ih (h.stroke t s) hx

theorem sound_of_moveto {s : Stroke} (h : s.segment.family = .moveto) {ss : List Stroke}
    {x : Segment × Canvas} (hx : x ∈ k.strokeStages t (s::ss)) : Sound x := by
  have hc := coherent_stroke_moveto t (k:=k) h
  rcases List.mem_cons.mp hx with rfl | hx
  · exact ⟨hc,fun hs => by rw [h] at hs; cases hs⟩
  · exact hc.sound t hx

end Coherent

section Beginnings

/-- A subpath begins at a moveto, or where the one before it began and was closed. -/
def Begins (xs : List (Segment × Canvas)) (qs : List (List (Point Float)))
    (ps : List (Point Float)) : Prop :=
  ∃ p ∈ ps.head?, (∃ x ∈ xs, x.1.family = .moveto ∧ x.2.cursor.current = p) ∨
    ∃ q ∈ qs.getLast?, p ∈ q.head? ∧ ∃ x ∈ xs, x.1.family = .closepath ∧ x.2.live = q

def AllBegin (xs : List (Segment × Canvas)) (fs : List (List (Point Float))) : Prop :=
  ∀ qs ps, qs ++ [ps] <+: fs → Begins xs qs ps

variable {xs : List (Segment × Canvas)} {fs : List (List (Point Float))}
  {ps : List (Point Float)}

theorem allBegin_nil : AllBegin xs [] := by
  intro qs ps h
  simp at h

theorem AllBegin.concat (h : AllBegin xs fs) (hp : Begins xs fs ps) : AllBegin xs (fs ++ [ps]) := by
  intro qs rs hq
  rcases List.prefix_concat_iff.mp hq with he | hq
  · obtain ⟨rfl,he⟩ := List.append_inj' he rfl
    obtain rfl : rs = ps := by simpa using he
    exact hp
  · exact h qs rs hq

theorem AllBegin.init (h : AllBegin xs (fs ++ [ps])) : AllBegin xs fs :=
  fun qs rs hq => h qs rs (hq.trans (List.prefix_append fs [ps]))

theorem AllBegin.last (h : AllBegin xs (fs ++ [ps])) : Begins xs fs ps :=
  h fs ps (List.prefix_refl _)

theorem Begins.append (h : Begins xs fs ps) (rs : List (Point Float)) : Begins xs fs (ps ++ rs) := by
  obtain ⟨p,hp,h⟩ := h
  refine ⟨p,?_,h⟩
  rw [List.head?_append,hp]
  rfl

theorem AllBegin.append (h : AllBegin xs (fs ++ [ps])) (rs : List (Point Float)) :
    AllBegin xs (fs ++ [ps ++ rs]) := h.init.concat (h.last.append rs)

theorem AllBegin.of_bare (h : AllBegin (xs.map bareStage) fs) : AllBegin xs fs := by
  intro qs ps hp
  obtain ⟨p,hp,h⟩ := h qs ps hp
  refine ⟨p,hp,?_⟩
  rcases h with ⟨x,hx,h⟩ | ⟨q,hq,hpq,x,hx,h⟩
  · obtain ⟨y,hy,rfl⟩ := List.mem_map.mp hx
    exact .inl ⟨y,hy,h⟩
  · obtain ⟨y,hy,rfl⟩ := List.mem_map.mp hx
    exact .inr ⟨q,hq,hpq,y,hy,h⟩

/-- A canvas on the way through `xs` whose subpaths, the one in progress included, all begin as
they should; if it is closed, the stage behind the closepath is on the way. -/
structure Rooted (xs : List (Segment × Canvas)) (k : Canvas) : Prop where
  coherent : k.Coherent
  closed : k.cursor.closed → ∃ x ∈ xs, x.1.family = .closepath ∧ x.2.live = k.live
  begin : AllBegin xs (k.finished ++ [k.live])

variable (t : Tessellation) {k : Canvas}

theorem rooted_stroke_moveto {s : Stroke} (h : s.segment.family = .moveto)
    (hf : AllBegin xs k.flush.finished) (hx : (s.segment,k.stroke t s) ∈ xs) :
    Rooted xs (k.stroke t s) := by
  obtain ⟨r,s⟩ := s
  obtain ⟨p,rfl⟩ := Segment.exists_moveto h
  have hk : k.stroke t ⟨r,.moveto p⟩ = _ := bare_draw_moveto t k r 0 p
  have hc := coherent_stroke_moveto t (k:=k) h
  refine ⟨hc,fun hcl => ?_,?_⟩
  · rw [hk] at hcl
    cases hcl
  · have hfin : (k.stroke t ⟨r,.moveto p⟩).finished = k.flush.finished := by
      rw [hk]
      exact flush_bare_finished k
    rw [hfin]
    refine hf.concat ⟨_,hc.begins,.inl ⟨_,hx,rfl,?_⟩⟩
    rw [hk]
    rfl

theorem Rooted.begin_flush (h : Rooted xs k) : AllBegin xs k.flush.finished := by
  rw [flush_finished h.coherent.live_ne_nil]
  exact h.begin

/-- Only a moveto and a stroke behind a closepath begin a subpath. -/
theorem Rooted.stroke (h : Rooted xs k) {s : Stroke} (hx : (s.segment,k.stroke t s) ∈ xs) :
    Rooted xs (k.stroke t s) := by
  have hcoh := h.coherent.stroke t s
  rcases stroke_cases t k s with ⟨p,hs,-⟩ | ⟨hs,hk⟩ | ⟨hm,hc,hk⟩
  · exact rooted_stroke_moveto t (by rw [hs]; rfl) h.begin_flush hx
  · refine ⟨hcoh,fun _ => ⟨_,hx,by rw [hs]; rfl,rfl⟩,?_⟩
    rw [hk]
    exact h.begin.append _
  · refine ⟨hcoh,fun hcl => ?_,?_⟩
    · rw [hk] at hcl
      exact absurd ((Cursor.closed_step t s.relative k.cursor s.segment).symm.trans hcl) (by simpa)
    · rw [hk]
      change AllBegin xs (k.bare.reopen.finished ++ [k.bare.reopen.live ++ _])
      by_cases ho : k.cursor.closed
      · have hb : k.bare.reopen = ⟨k.finished ++ [k.live],[k.cursor.start],k.cursor,[]⟩ := by
          simp [bare,reopen,ho]
        rw [hb]
        refine h.begin.concat ⟨k.cursor.start,rfl,.inr ⟨k.live,?_,h.coherent.begins,h.closed ho⟩⟩
        simp
      · have hb : k.bare.reopen = k.bare := by simp [bare,reopen,ho]
        rw [hb]
        exact h.begin.append _

theorem Rooted.foldl_stroke (h : Rooted xs k) {ss : List Stroke}
    (hs : k.strokeStages t ss ⊆ xs) : Rooted xs (ss.foldl (Canvas.stroke t) k) := by
  induction ss generalizing k with
  | nil => exact h
  | cons s ss ih =>
    obtain ⟨hx,hs⟩ := List.cons_subset.mp hs
    exact ih (h.stroke t hx) hs

end Beginnings

end Canvas

section Trail

variable (t : Tessellation)

/-- The points of strokes one after another; a stroke that draws right behind a closepath has the
start of its subpath in front of its own. -/
def trail : Bool → Cursor → List Stroke → List (Point Float)
  | _,_,[] => []
  | behindClose,k,s::ss =>
    let p := k.step t s.relative s.segment
    (if behindClose && s.segment.family.draws then [k.start] else []) ++ p.points ++
      trail (s.segment.family = .closepath) p.cursor ss

end Trail

namespace Canvas

variable (t : Tessellation) (k : Canvas)

/-- All points of a canvas, those of the finished subpaths first. -/
def points (k : Canvas) : List (Point Float) := k.finished.flatten ++ k.live

theorem points_flush : k.flush.points = k.points := by
  unfold flush
  split
  · rfl
  · simp [points]

theorem flatten_flush_finished : k.flush.finished.flatten = k.points := by
  have h := k.points_flush
  rw [points,flush_live,List.append_nil] at h
  exact h

theorem points_reopen :
    k.reopen.points = k.points ++ if k.cursor.closed then [k.cursor.start] else [] := by
  by_cases h : k.cursor.closed <;> simp [points,reopen,h]

theorem points_extend (s : Step) : (k.extend s).points = k.points ++ s.points :=
  (List.append_assoc _ _ _).symm

/-- A stroke loses no point and adds its own, behind the start if it reopens the subpath. -/
theorem points_stroke (s : Stroke) :
    (k.stroke t s).points = k.points ++
      ((if k.cursor.closed && s.segment.family.draws then [k.cursor.start] else []) ++
        (k.cursor.step t s.relative s.segment).points) := by
  rcases stroke_cases t k s with ⟨p,hs,hk⟩ | ⟨hs,hk⟩ | ⟨hm,hc,hk⟩
  · have hd : s.segment.family.draws = false := by rw [hs]; rfl
    rw [hk,points_extend,points_flush,hd,Bool.and_false]
    rfl
  · have hd : s.segment.family.draws = false := by rw [hs]; rfl
    rw [hk,points_extend,hd,Bool.and_false]
    rfl
  · have hd : s.segment.family.draws = true := by simp [Family.draws,hm,hc]
    rw [hk,points_extend,points_reopen,hd,Bool.and_true,List.append_assoc]
    rfl

theorem stroke_cursor (s : Stroke) :
    (k.stroke t s).cursor = (k.cursor.step t s.relative s.segment).cursor :=
  draw_cursor t k s.relative 0 s.segment

theorem points_foldl_stroke (ss : List Stroke) :
    (ss.foldl (stroke t) k).points = k.points ++ trail t k.cursor.closed k.cursor ss := by
  induction ss generalizing k with
  | nil => simp [trail]
  | cons s ss ih =>
    rw [List.foldl_cons,ih,points_stroke,stroke_cursor,Cursor.closed_step,trail]
    simp only [List.append_assoc]

end Canvas

/-- The canvases on the way through tokens, one behind every group of numbers and every closepath
that is drawn. -/
def stages (t : Tessellation) (ts : List Token) : List (Segment × Canvas) :=
  match openingFault? (runs ts) with
  | some _ => []
  | none => Canvas.empty.stages t (runs ts).2

/-- The first command is a moveto with a complete pair. -/
def OpensWithPair (ts : List Token) : Prop :=
  ∃ r ∈ (runs ts).2.head?, r.command.family = .moveto ∧ 2 ≤ r.numbers.length

instance : DecidablePred OpensWithPair := fun ts =>
  inferInstanceAs (Decidable (∃ r ∈ (runs ts).2.head?,
    r.command.family = .moveto ∧ 2 ≤ r.numbers.length))

theorem OpensWithPair.exists_strokes {ts : List Token} (h : OpensWithPair ts) :
    ∃ s ss, strokes ts = s::ss ∧ s.segment.family = .moveto := by
  obtain ⟨r,hr,hf,hn⟩ := h
  obtain ⟨rs,hrs⟩ := List.head?_eq_some_iff.mp hr
  match hns : r.numbers,hn with
  | a::b::ns,_ =>
    obtain ⟨ss,hs⟩ := Run.segments_moveto hf hns
    have hc : r.command.family ≠ .closepath := by simp [hf]
    have he : strokes ts = ⟨r.command.relative,.moveto ⟨a.value,b.value⟩⟩::
        (ss.map (⟨r.command.relative,·⟩) ++ rs.flatMap Run.strokes) := by
      rw [strokes,hrs,List.flatMap_cons,Run.strokes,if_neg hc,hs]
      rfl
    exact ⟨_,_,he,rfl⟩

theorem sound_of_mem_stages {t : Tessellation} {ts : List Token} (h : OpensWithPair ts)
    {x : Segment × Canvas} (hx : x ∈ stages t ts) : Canvas.Sound x := by
  obtain ⟨s,ss,hs,hm⟩ := h.exists_strokes
  rw [stages] at hx
  cases ho : openingFault? (runs ts) with
  | some f =>
    rw [ho] at hx
    cases hx
  | none =>
    rw [ho] at hx
    have hb : Canvas.bareStage x ∈ Canvas.empty.strokeStages t (s::ss) := by
      rw [← hs]
      exact (Canvas.bare_stages_prefix t .empty (runs ts).2).subset (List.mem_map_of_mem hx)
    have hc := Canvas.sound_of_moveto t hm hb
    exact ⟨⟨hc.1.begins,hc.1.ends⟩,hc.2⟩

theorem bare_stages {t : Tessellation} {ts : List Token} {a : Drawn} (h : interpret t ts = .ok a) :
    (stages t ts).map Canvas.bareStage = Canvas.empty.strokeStages t (strokes ts) := by
  obtain ⟨ho,k,hk,-⟩ := interpret_eq_ok_iff.mp h
  rw [stages,ho]
  exact Canvas.bare_stages_eq t hk

theorem allBegin_subpaths {t : Tessellation} {ts : List Token} {a : Drawn} (h : OpensWithPair ts)
    (ha : interpret t ts = .ok a) : Canvas.AllBegin (stages t ts) a.subpaths := by
  obtain ⟨s,ss,hs,hm⟩ := h.exists_strokes
  have hb := bare_stages ha
  refine Canvas.AllBegin.of_bare ?_
  rw [subpaths_interpret ha,hb,hs]
  have hx : (s.segment,Canvas.empty.stroke t s) ∈ Canvas.empty.strokeStages t (s::ss) :=
    List.mem_cons_self
  have hr := Canvas.rooted_stroke_moveto (k:=.empty) t hm Canvas.allBegin_nil hx
  exact (hr.foldl_stroke t (List.subset_cons_self _ _)).begin_flush

/-- On the way through tokens that begin with a moveto and a pair, the subpath in progress begins
where the pen would close it and ends where the pen is, and behind a closepath it ends where it
began. All subpaths that come out have points, begin at a moveto or where the one right before
was closed, and one behind the other are the trail of the strokes. -/
theorem interpret_coherent (t : Tessellation) {ts : List Token} (h : OpensWithPair ts) :
    (∀ x ∈ stages t ts, x.2.Coherent ∧ (x.1.family = .closepath →
      ∃ p ∈ x.2.live.getLast?, ∃ q ∈ x.2.live.head?, p.Meets q)) ∧
    ∀ a, interpret t ts = .ok a →
      (∀ ps ∈ a.subpaths, ps ≠ []) ∧ Canvas.AllBegin (stages t ts) a.subpaths ∧
        a.subpaths.flatten = trail t false .initial (strokes ts) := by
  refine ⟨fun x hx => sound_of_mem_stages h hx,fun a ha => ?_⟩
  have hb := allBegin_subpaths h ha
  refine ⟨fun ps hps he => ?_,hb,?_⟩
  · obtain ⟨qs,rs,hq⟩ := List.append_of_mem hps
    obtain ⟨p,hp,-⟩ := hb qs ps ⟨rs,by rw [hq]; simp⟩
    rw [he] at hp
    cases hp
  · rw [subpaths_interpret ha,Canvas.flatten_flush_finished,Canvas.points_foldl_stroke]
    rfl

/-- A number is left over behind the first reopening, and the second is behind two closepaths. -/
theorem interpret_coherent_reopened :
    OpensWithPair (tokens "M1 1l4 0 0 3zL3 1 1H5m2 2Zz h-2v1".toList) ∧
    interpret {} (tokens "M1 1l4 0 0 3zL3 1 1H5m2 2Zz h-2v1".toList) =
      .ok ⟨[[⟨1,1⟩,⟨5,1⟩,⟨5,4⟩,⟨1,1⟩],[⟨1,1⟩,⟨3,1⟩,⟨5,1⟩],[⟨7,3⟩],[⟨7,3⟩,⟨5,3⟩,⟨5,4⟩]],
        [.underflow ⟨.lineto,false⟩ 1 13]⟩ ∧
    trail {} false .initial (strokes (tokens "M1 1l4 0 0 3zL3 1 1H5m2 2Zz h-2v1".toList)) =
      [⟨1,1⟩,⟨5,1⟩,⟨5,4⟩,⟨1,1⟩,⟨1,1⟩,⟨3,1⟩,⟨5,1⟩,⟨7,3⟩,⟨7,3⟩,⟨5,3⟩,⟨5,4⟩] := by
  have ho : OpensWithPair (tokens "M1 1l4 0 0 3zL3 1 1H5m2 2Zz h-2v1".toList) := by decide +kernel
  have ha : interpret {} (tokens "M1 1l4 0 0 3zL3 1 1H5m2 2Zz h-2v1".toList) =
      .ok ⟨[[⟨1,1⟩,⟨5,1⟩,⟨5,4⟩,⟨1,1⟩],[⟨1,1⟩,⟨3,1⟩,⟨5,1⟩],[⟨7,3⟩],[⟨7,3⟩,⟨5,3⟩,⟨5,4⟩]],
        [.underflow ⟨.lineto,false⟩ 1 13]⟩ := by decide +kernel
  exact ⟨ho,ha,((interpret_coherent {} ho).2 _ ha).2.2.symm⟩

end Path
end ExtrusionProfile
