import ExtrusionProfile.Overlay.Arrange
import ExtrusionProfile.Proofs.Overlay.Window
import Mathlib.Data.Option.Basic

/-! The parts that edges are cut into. A step of the sweep moves edges between its lists and cuts
them where they meet, so the whole sweep stays in the window of the edges, and so does what settles
the remaining conflicts. -/
namespace ExtrusionProfile
namespace Overlay

variable {w : Window} {p : Point Float} {g : Grid} {e f : Edge} {es fs : List Edge}

section Queue

theorem within_enqueueAll (he : ∀ e ∈ es, e.Within w) (hf : ∀ f ∈ fs, f.Within w) :
    ∀ e ∈ enqueueAll es fs, e.Within w := fun e hm =>
  List.forall_mem_append.mpr ⟨he,hf⟩ e ((enqueueAll_perm es fs).mem_iff.mp hm)

/-- What is cut off an edge, and what is left of it. -/
def CutsWithin (w : Window) (r : List Edge × List Edge) : Prop :=
  (∀ e ∈ r.1, e.Within w) ∧ ∀ e ∈ r.2, e.Within w

theorem within_cutAt (he : e.Within w) {p? : Option (Point Float)} (hp : ∀ p ∈ p?, w.Holds p) :
    CutsWithin w (cutAt e p?) := by
  have hk : CutsWithin w ([e],[]) := ⟨by simpa using he,by simp⟩
  cases p? with
  | none => exact hk
  | some p =>
    change CutsWithin w (e.cutActive p)
    unfold Edge.cutActive
    split_ifs
    · have hc := he.mem_cut (hp p rfl)
      exact ⟨fun f hf => hc f (List.mem_filter.mp hf).1,fun f hf => hc f (List.mem_filter.mp hf).1⟩
    · exact hk

theorem mem_placeIn : ∀ f ∈ (placeIn e es fs).1 ++ (placeIn e es fs).2, f ∈ es ++ fs := by
  induction fs generalizing es with
  | nil => exact fun f hf => hf
  | cons f fs ih =>
    rw [placeIn]
    split_ifs
    · exact fun g hg => hg
    · intro g hg
      have := ih g hg
      simp only [List.mem_append,List.mem_cons] at this ⊢
      tauto

theorem within_mergeInto (hf : ∀ f ∈ fs, f.Within w) :
    ∀ gs ∈ mergeInto e fs, ∀ f ∈ gs, f.Within w := by
  induction fs with
  | nil => simp [mergeInto]
  | cons f fs ih =>
    obtain ⟨hf,hfs⟩ := List.forall_mem_cons.mp hf
    rw [mergeInto]
    split_ifs
    · rintro _ ⟨⟩
      exact List.forall_mem_cons.mpr ⟨⟨hf.left,hf.right⟩,hfs⟩
    · intro gs hg
      obtain ⟨hs,hh,rfl⟩ := Option.map_eq_some_iff.mp hg
      exact List.forall_mem_cons.mpr ⟨hf,ih hfs hs hh⟩

theorem found_meetNeighbour (hg : g.Within w) {n : Option Edge} (hn : ∀ f ∈ n, f.Within w)
    (he : e.Within w) : Found w (meetNeighbour g n e) := by
  cases n with
  | none => exact .none hg
  | some f => exact Edge.Within.meet? hg (hn f rfl) he

theorem holds_earlier? {p? q? : Option (Point Float)} (hp : ∀ p ∈ p?, w.Holds p)
    (hq : ∀ q ∈ q?, w.Holds q) : ∀ r ∈ earlier? p? q?, w.Holds r := by
  cases p? with
  | none => exact hq
  | some p =>
    cases q? with
    | none => exact hp
    | some q =>
      rintro _ ⟨⟩
      split_ifs
      · exact hq q rfl
      · exact hp p rfl

end Queue

theorem cutsWithin_of_mem (hf : ∀ f ∈ fs, f.Within w) {p? : Option (Point Float)}
    (hp : ∀ p ∈ p?, w.Holds p) (n : ℕ) : ∀ r ∈ (fs.take n).map (cutAt · p?), CutsWithin w r := by
  intro r hr
  obtain ⟨f,hm,rfl⟩ := List.mem_map.mp hr
  exact within_cutAt (hf f (List.mem_of_mem_take hm)) hp

theorem within_flatMap {β : Type} {h : β → List Edge} {rs : List β}
    (hr : ∀ r ∈ rs, ∀ f ∈ h r, f.Within w) : ∀ f ∈ rs.flatMap h, f.Within w := by
  intro f hf
  obtain ⟨r,hm,hf⟩ := List.mem_flatMap.mp hf
  exact hr r hm f hf

namespace Sweep

structure Within (w : Window) (s : Sweep) : Prop where
  grid : s.grid.Within w
  waiting : ∀ e ∈ s.waiting, e.Within w
  active : ∀ e ∈ s.active, e.Within w
  passed : ∀ e ∈ s.passed, e.Within w

variable {s t : Sweep}

theorem Within.reach (hs : s.Within w) (he : e.Within w) : (s.reach e).Within w := by
  unfold Sweep.reach
  split
  · rename_i active hm
    exact { hs with active := within_mergeInto hs.active active hm }
  have hplace := @mem_placeIn e [] s.active
  generalize placeIn e [] s.active = r at hplace
  obtain ⟨below,above⟩ := r
  obtain ⟨hb,ha⟩ := List.forall_mem_append.mp fun f hf => hs.active f (hplace f hf)
  have hp := found_meetNeighbour hs.grid (fun f hf => hb f (List.mem_of_mem_head? hf)) he
  dsimp only
  generalize meetNeighbour s.grid below.head? e = r at hp
  obtain ⟨p?,g⟩ := r
  have hq := found_meetNeighbour hp.grid (fun f hf => ha f (List.mem_of_mem_head? hf)) he
  dsimp only at hq ⊢
  generalize meetNeighbour g above.head? e = r at hq
  obtain ⟨q?,g'⟩ := r
  have hl := cutsWithin_of_mem hb hp.point 1
  have hu := cutsWithin_of_mem ha hq.point 1
  have hlater := within_flatMap (h:=Prod.snd) (w:=w) fun r hr =>
    ((List.forall_mem_append.mpr ⟨hl,hu⟩) r hr).2
  have hactive : ∀ middle : List Edge, (∀ f ∈ middle, f.Within w) →
      ∀ f ∈ (below.drop 1).reverse ++ ((below.take 1).map (cutAt · p?)).flatMap Prod.fst ++ middle ++
        ((above.take 1).map (cutAt · q?)).flatMap Prod.fst ++ above.drop 1, f.Within w := by
    intro middle hm
    simp only [List.forall_mem_append]
    refine ⟨⟨⟨⟨?_,within_flatMap fun r hr => (hl r hr).1⟩,hm⟩,
      within_flatMap fun r hr => (hu r hr).1⟩,fun f hf => ha f (List.mem_of_mem_drop hf)⟩
    exact fun f hf => hb f (List.mem_of_mem_drop (List.mem_reverse.mp hf))
  have hnone : ∀ f ∈ ([] : List Edge), f.Within w := by simp
  dsimp only
  split
  · rename_i p hp'
    have hh := holds_earlier? (w:=w) (fun r hr => hp.point r (Option.mem_filter_iff.mp hr).1)
      (fun r hr => hq.point r (Option.mem_filter_iff.mp hr).1) p hp'
    exact ⟨hq.grid,within_enqueueAll (List.forall_mem_append.mpr ⟨he.mem_cut hh,hlater⟩) hs.waiting,
      hactive [] hnone,hs.passed⟩
  · split_ifs
    · exact ⟨hq.grid,hs.waiting,hactive [e] (by simpa using he),hs.passed⟩
    · exact ⟨hq.grid,within_enqueueAll (List.forall_mem_cons.mpr ⟨he,hlater⟩) hs.waiting,
        hactive [] hnone,hs.passed⟩

theorem Within.leave (hs : s.Within w) (hf : ∀ f ∈ es ++ e::fs, f.Within w) :
    (s.leave es e fs).Within w := by
  obtain ⟨hb,ha⟩ := List.forall_mem_append.mp hf
  obtain ⟨he,ha⟩ := List.forall_mem_cons.mp ha
  have hpassed := List.forall_mem_cons.mpr ⟨he,hs.passed⟩
  unfold Sweep.leave
  dsimp only
  split
  · rename_i f bs h as _
    obtain ⟨hf,hb⟩ := List.forall_mem_cons.mp hb
    obtain ⟨hh,ha⟩ := List.forall_mem_cons.mp ha
    have hp := Edge.Within.meet? hs.grid hf hh
    generalize Edge.meet? s.grid f h = r at hp
    obtain ⟨p?,g⟩ := r
    have hl := within_cutAt hf hp.point
    have hu := within_cutAt hh hp.point
    refine ⟨hp.grid,within_enqueueAll (List.forall_mem_append.mpr ⟨hl.2,hu.2⟩) hs.waiting,?_,hpassed⟩
    simp only [List.forall_mem_append]
    exact ⟨⟨⟨fun f hf => hb f (List.mem_reverse.mp hf),hl.1⟩,hu.1⟩,ha⟩
  · refine ⟨hs.grid,hs.waiting,?_,hpassed⟩
    exact List.forall_mem_append.mpr ⟨fun f hf => hb f (List.mem_reverse.mp hf),ha⟩

theorem firstLeft_eq {r : List Edge × Edge × List Edge} (h : firstLeft es = some r) :
    es = r.1.reverse ++ r.2.1::r.2.2 := by
  induction es generalizing r with
  | nil => cases h
  | cons f fs ih =>
    rw [firstLeft] at h
    split at h
    · rename_i below d above hd
      split_ifs at h
      · cases h
        simpa using ih hd
      · cases h
        rfl
    · cases h
      rfl

/-- One step of the sweep stays in the window. -/
theorem Within.step (hs : s.Within w) : ∀ t ∈ s.step, t.Within w := by
  have hreach : ∀ {e es}, s.waiting = e::es → (Sweep.reach { s with waiting := es } e).Within w := by
    intro e es hw
    obtain ⟨he,hes⟩ := List.forall_mem_cons.mp (hw ▸ hs.waiting)
    exact Within.reach ⟨hs.grid,hes,hs.active,hs.passed⟩ he
  have hleave : ∀ {below f above}, firstLeft s.active = some (below,f,above) →
      (s.leave below f above).Within w := by
    intro below f above hf
    have ha := hs.active
    rw [firstLeft_eq hf,List.forall_mem_append] at ha
    exact hs.leave (List.forall_mem_append.mpr
      ⟨fun g hg => ha.1 g (List.mem_reverse.mpr hg),ha.2⟩)
  unfold Sweep.step
  split
  · simp
  · rename_i hw
    rintro _ ⟨⟩
    exact hreach hw
  · rename_i hf _
    rintro _ ⟨⟩
    exact hleave hf
  · rename_i hf hw
    split_ifs
    · rintro _ ⟨⟩
      exact hreach hw
    · rintro _ ⟨⟩
      exact hleave hf

theorem Within.run (hs : s.Within w) (n : ℕ) : (run n s).Within w := by
  induction n generalizing s with
  | zero => exact hs
  | succ n ih =>
    rw [Sweep.run]
    split
    · rename_i t ht
      exact ih (hs.step t ht)
    · exact hs

end Sweep

theorem within_sweep (hg : g.Within w) (he : ∀ e ∈ es, e.Within w) :
    (∀ e ∈ (sweep g es).1, e.Within w) ∧ (sweep g es).2.Within w := by
  have hs : (⟨g,enqueueAll es [],[],[]⟩ : Sweep).Within w :=
    ⟨hg,within_enqueueAll he (by simp),by simp,by simp⟩
  have hr := hs.run (8*(es.length+1)*(es.length+1))
  exact ⟨List.forall_mem_append.mpr ⟨List.forall_mem_append.mpr ⟨hr.passed,hr.active⟩,hr.waiting⟩,
    hr.grid⟩

section Arrangement

theorem found_conflict? (hg : g.Within w) (he : e.Within w) (hf : f.Within w) :
    Found w (e.conflict? g f) := by
  unfold Edge.conflict?
  split
  · exact .none hg
  rename_i b hb
  have hbox := he.box.common? hf.box b hb
  split
  · rename_i p hp
    refine .some ?_ hg
    have hm : p ∈ [f.left,f.right] ∨ p ∈ [e.left,e.right] := by
      rcases (Option.orElse_eq_some _ _ _).mp hp with h | ⟨-,h⟩
      · exact .inl (List.mem_of_find?_eq_some h)
      · exact .inr (List.mem_of_find?_eq_some h)
    simp only [List.mem_cons,List.not_mem_nil,or_false] at hm
    rcases hm with (rfl | rfl) | rfl | rfl
    · exact hf.left
    · exact hf.right
    · exact he.left
    · exact he.right
  · split_ifs
    · obtain ⟨hp,hg⟩ := hg.snap (hbox.clamp ((Edge.linesMeet? e f).getD e.left))
      exact .some hp hg
    · exact .none hg

/-- A conflict that was found: the other edge, the point, and the remaining edges. -/
structure ConflictWithin (w : Window) (r : Edge × Point Float × List Edge) : Prop where
  edge : r.1.Within w
  point : w.Holds r.2.1
  rest : ∀ e ∈ r.2.2, e.Within w

theorem within_firstConflict (hg : g.Within w) (he : e.Within w) (hf : ∀ f ∈ fs, f.Within w) :
    (∀ r ∈ (firstConflict g e fs).1, ConflictWithin w r) ∧ (firstConflict g e fs).2.Within w := by
  induction fs generalizing g with
  | nil => exact ⟨by simp [firstConflict],hg⟩
  | cons f fs ih =>
    obtain ⟨hf,hfs⟩ := List.forall_mem_cons.mp hf
    have hkeep : ∀ {h : Grid}, h.Within w →
        (∀ r ∈ (firstConflict h e fs).1.map fun c => (c.1,c.2.1,f::c.2.2), ConflictWithin w r) ∧
          (firstConflict h e fs).2.Within w := by
      intro h hh
      obtain ⟨hr,hg⟩ := ih hh hfs
      refine ⟨fun r hm => ?_,hg⟩
      obtain ⟨c,hd,rfl⟩ := Option.map_eq_some_iff.mp hm
      have hc := hr c hd
      exact ⟨hc.edge,hc.point,List.forall_mem_cons.mpr ⟨hf,hc.rest⟩⟩
    have hc := found_conflict? hg hf he
    rw [firstConflict]
    split
    · rename_i p h hp
      rw [hp] at hc
      split_ifs
      · refine ⟨?_,hc.grid⟩
        rintro _ ⟨⟩
        exact ⟨hf,hc.point p rfl,hfs⟩
      · exact hkeep hc.grid
    · rename_i h hp
      rw [hp] at hc
      exact hkeep hc.grid

theorem within_settle (hg : g.Within w) (n : ℕ) (he : ∀ e ∈ es, e.Within w)
    (hf : ∀ f ∈ fs, f.Within w) : ∀ e ∈ settle g n es fs, e.Within w := by
  induction n generalizing g es fs with
  | zero => exact List.forall_mem_append.mpr ⟨he,hf⟩
  | succ n ih =>
    cases es with
    | nil => exact hf
    | cons e es =>
      obtain ⟨he,hes⟩ := List.forall_mem_cons.mp he
      obtain ⟨hr,hg⟩ := within_firstConflict hg he hf
      rw [settle]
      split
      · rename_i h hh
        rw [hh] at hg
        exact ih hg hes (List.forall_mem_cons.mpr ⟨he,hf⟩)
      · rename_i f p rest h hh
        rw [hh] at hr hg
        have hc := hr _ rfl
        refine ih hg ?_ hc.rest
        simp only [List.forall_mem_append]
        exact ⟨⟨hc.edge.mem_cut hc.point,he.mem_cut hc.point⟩,hes⟩

theorem within_absorb (he : e.Within w) (hf : ∀ f ∈ fs, f.Within w) :
    ∀ f ∈ absorb e fs, f.Within w := by
  induction fs with
  | nil => simpa [absorb] using he
  | cons f fs ih =>
    obtain ⟨hf,hfs⟩ := List.forall_mem_cons.mp hf
    rw [absorb]
    split_ifs
    · exact List.forall_mem_cons.mpr ⟨⟨hf.left,hf.right⟩,hfs⟩
    · exact List.forall_mem_cons.mpr ⟨hf,ih hfs⟩

theorem within_foldl_absorb (he : ∀ e ∈ es, e.Within w) (hf : ∀ f ∈ fs, f.Within w) :
    ∀ f ∈ es.foldl (fun fs e => absorb e fs) fs, f.Within w := by
  induction es generalizing fs with
  | nil => exact hf
  | cons e es ih =>
    obtain ⟨he,hes⟩ := List.forall_mem_cons.mp he
    exact ih hes (within_absorb he hf)

/-- The parts of edges lie where the edges lie. -/
theorem within_arrange (hg : g.Within w) (he : ∀ e ∈ es, e.Within w) :
    ∀ e ∈ arrange g es, e.Within w := by
  obtain ⟨hs,hg⟩ := within_sweep hg he
  exact within_foldl_absorb (within_settle hg _ hs (by simp)) (by simp)

theorem within_borders (o : Operation) (he : ∀ e ∈ es, e.Within w) :
    ∀ b ∈ borders o es, b.edge.Within w := by
  intro b hb
  obtain ⟨e,hm,hb⟩ := List.mem_filterMap.mp (List.mem_mergeSort.mp hb)
  unfold border? at hb
  dsimp only at hb
  split_ifs at hb
  cases hb
  exact he e hm

end Arrangement

end Overlay
end ExtrusionProfile
