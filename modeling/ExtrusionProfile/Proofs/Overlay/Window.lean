import ExtrusionProfile.Overlay.Meet
import ExtrusionProfile.Proofs.Profile.Footprint

/-! Where the points of an overlay lie. A point is snapped to coordinates that were met before, and
a meeting point of two edges is looked for in both of their boxes, so no point leaves a window that
holds both operands and the origin. -/
namespace ExtrusionProfile
namespace Overlay

open Binary64

variable {w : Window} {p q : Point Float} {g : Grid} {e f : Edge}

section Snapping

theorem Axis.place_has {b : Band} {x : Float} {o : Option Float} {a : Axis} (hx : b.Has x)
    (hp : ∀ p ∈ o, b.Has p) (ha : ∀ y ∈ a, b.Has y) :
    b.Has (place x o a).1 ∧ ∀ y ∈ (place x o a).2, b.Has y := by
  induction a generalizing o with
  | nil =>
    cases o with
    | none => exact ⟨hx,by simpa [place] using hx⟩
    | some p =>
      rw [place]
      split
      · exact ⟨hp p rfl,ha⟩
      · exact ⟨hx,by simpa using hx⟩
  | cons y ys ih =>
    obtain ⟨hy,hys⟩ := List.forall_mem_cons.mp ha
    rw [place]
    split_ifs with hl he hn hn'
    · obtain ⟨hr,hrs⟩ := ih (o:=some y) (by simpa using hy) hys
      exact ⟨hr,List.forall_mem_cons.mpr ⟨hy,hrs⟩⟩
    · exact ⟨hx,ha⟩
    · cases o with
      | none => cases hn
      | some p => exact ⟨hp p rfl,ha⟩
    · exact ⟨hy,ha⟩
    · exact ⟨hx,List.forall_mem_cons.mpr ⟨hx,ha⟩⟩

structure Grid.Within (w : Window) (g : Grid) : Prop where
  xs : ∀ x ∈ g.xs, w.across.Has x
  ys : ∀ y ∈ g.ys, w.upward.Has y

theorem Grid.within_initial (w : Window) : Grid.initial.Within w :=
  ⟨by simpa [Grid.initial] using w.across.zero,by simpa [Grid.initial] using w.upward.zero⟩

theorem Grid.Within.snap (hg : g.Within w) (hp : w.Holds p) :
    w.Holds (g.snap p).1 ∧ (g.snap p).2.Within w := by
  obtain ⟨hx,hxs⟩ := Axis.place_has hp.1 (o:=none) (by simp) hg.xs
  obtain ⟨hy,hys⟩ := Axis.place_has hp.2 (o:=none) (by simp) hg.ys
  exact ⟨⟨hx,hy⟩,⟨hxs,hys⟩⟩

theorem Grid.Within.snapAll (hg : g.Within w) {ps : List (Point Float)} (hp : ∀ p ∈ ps, w.Holds p) :
    (∀ q ∈ (g.snapAll ps).1, w.Holds q) ∧ (g.snapAll ps).2.Within w := by
  induction ps generalizing g with
  | nil => exact ⟨hp,hg⟩
  | cons p ps ih =>
    obtain ⟨hp,hps⟩ := List.forall_mem_cons.mp hp
    obtain ⟨hq,hg⟩ := hg.snap hp
    obtain ⟨hqs,hg⟩ := ih hg hps
    exact ⟨List.forall_mem_cons.mpr ⟨hq,hqs⟩,hg⟩

end Snapping

/-- Whether both ends of an edge lie in a window. -/
structure Edge.Within (w : Window) (e : Edge) : Prop where
  left : w.Holds e.left
  right : w.Holds e.right

namespace Edge

theorem Within.mem_between {ws : Windings} (hp : w.Holds p) (hq : w.Holds q) :
    ∀ f ∈ between p q ws, f.Within w := by
  unfold between
  split_ifs
  · simpa using ⟨hp,hq⟩
  · simpa using ⟨hq,hp⟩
  · simp

theorem Within.mem_cut (he : e.Within w) (hp : w.Holds p) : ∀ f ∈ e.cut p, f.Within w := by
  unfold cut
  split_ifs
  · simpa using he
  · exact List.forall_mem_append.mpr ⟨.mem_between he.left hp,.mem_between hp he.right⟩

theorem within_along {n : RingName} {ps : List (Point Float)} (hp : w.Holds p)
    (hps : ∀ q ∈ ps, w.Holds q) : ∀ f ∈ along n p ps, f.Within w := by
  induction ps with
  | nil => simp [along]
  | cons q qs ih =>
    obtain ⟨hq,hqs⟩ := List.forall_mem_cons.mp hps
    cases qs with
    | nil => exact .mem_between hq hp
    | cons r rs =>
      exact List.forall_mem_append.mpr ⟨.mem_between hq (hqs r List.mem_cons_self),ih hqs⟩

theorem within_ofRing {n : RingName} {ps : List (Point Float)} (hps : ∀ q ∈ ps, w.Holds q) :
    ∀ f ∈ ofRing n ps, f.Within w := by
  cases ps with
  | nil => simp [ofRing]
  | cons p ps => exact within_along (hps p List.mem_cons_self) hps

end Edge

theorem within_ringEdges {o : Operand} {polygon k : ℕ} {rs : List (List (Point Float))}
    (hg : g.Within w) (hr : ∀ ps ∈ rs, ∀ p ∈ ps, w.Holds p) :
    (∀ e ∈ (ringEdges o polygon g k rs).1, e.Within w) ∧
      (ringEdges o polygon g k rs).2.Within w := by
  induction rs generalizing g k with
  | nil => exact ⟨by simp [ringEdges],hg⟩
  | cons ps rs ih =>
    obtain ⟨hp,hr⟩ := List.forall_mem_cons.mp hr
    obtain ⟨hq,hg⟩ := hg.snapAll hp
    obtain ⟨he,hg⟩ := ih hg hr
    exact ⟨List.forall_mem_append.mpr ⟨Edge.within_ofRing hq,he⟩,hg⟩

theorem within_regionEdges {o : Operand} {k : ℕ} {rs : List (Region Float)}
    (hg : g.Within w) (hr : ∀ r ∈ rs, RegionWithin w r) :
    (∀ e ∈ (regionEdges o g k rs).1, e.Within w) ∧ (regionEdges o g k rs).2.Within w := by
  induction rs generalizing g k with
  | nil => exact ⟨by simp [regionEdges],hg⟩
  | cons r rs ih =>
    obtain ⟨hp,hr⟩ := List.forall_mem_cons.mp hr
    obtain ⟨hs,hg⟩ := within_ringEdges hg hp.holds
    obtain ⟨ht,hg⟩ := ih hg hr
    exact ⟨List.forall_mem_append.mpr ⟨hs,ht⟩,hg⟩

namespace Box

variable {a b : Box} {c d : Band} {x y z : Float}

theorem lesser_has (hx : c.Has x) (hy : c.Has y) : c.Has (lesser x y) := by
  unfold lesser
  split_ifs
  · exact hx
  · exact hy

theorem greater_has (hx : c.Has x) (hy : c.Has y) : c.Has (greater x y) := by
  unfold greater
  split_ifs
  · exact hy
  · exact hx

structure Within (w : Window) (b : Box) : Prop where
  low : w.Holds b.low
  high : w.Holds b.high

theorem Within.common? (ha : a.Within w) (hb : b.Within w) : ∀ c ∈ a.common? b, c.Within w := by
  unfold Box.common?
  split_ifs
  · simp
  · rintro _ ⟨⟩
    exact ⟨⟨greater_has ha.low.1 hb.low.1,greater_has ha.low.2 hb.low.2⟩,
      ⟨lesser_has ha.high.1 hb.high.1,lesser_has ha.high.2 hb.high.2⟩⟩

theorem Within.of_holds (hb : b.Within w) (h : b.holds p) : w.Holds p := by
  simp only [holds,Bool.and_eq_true,decide_eq_true_eq] at h
  obtain ⟨⟨⟨hl,hr⟩,hd⟩,hu⟩ := h
  exact ⟨hb.low.1.between hb.high.1 hl hr,hb.low.2.between hb.high.2 hd hu⟩

/-- What is clamped lies between the bounds, even if it is no number. -/
theorem clamp_has (hx : c.Has x) (hy : c.Has y) (z : Float) : c.Has (lesser (greater z x) y) := by
  unfold greater
  split_ifs with hl
  · exact lesser_has hx hy
  · unfold lesser
    split_ifs with hr
    · exact hx.between hy (le_of_not_lt hx.number (lt_iff.mp hr).1 hl) (le_of_lt hr)
    · exact hy

theorem Within.clamp (hb : b.Within w) (p : Point Float) : w.Holds (b.clamp p) :=
  ⟨clamp_has hb.low.1 hb.high.1 p.x,clamp_has hb.low.2 hb.high.2 p.y⟩

end Box

theorem Edge.Within.box (he : e.Within w) : e.box.Within w :=
  ⟨⟨he.left.1,Box.lesser_has he.left.2 he.right.2⟩,⟨he.right.1,Box.greater_has he.left.2 he.right.2⟩⟩

/-- A point that was looked for, and the grid afterwards. -/
structure Found (w : Window) (r : Option (Point Float) × Grid) : Prop where
  point : ∀ p ∈ r.1, w.Holds p
  grid : r.2.Within w

theorem Found.none (hg : g.Within w) : Found w (none,g) := ⟨by simp,hg⟩

theorem Found.some (hp : w.Holds p) (hg : g.Within w) : Found w (some p,g) := ⟨by simpa using hp,hg⟩

/-- Two edges meet in an end, or in a point of both of their boxes. -/
theorem Edge.Within.meet? (hg : g.Within w) (he : e.Within w) (hf : f.Within w) :
    Found w (Edge.meet? g e f) := by
  unfold Edge.meet?
  split
  · exact .none hg
  rename_i b hb
  dsimp only
  have hbox := he.box.common? hf.box b hb
  split
  · exact .some he.right hg
  · exact .some hf.right hg
  · exact .none hg
  · split_ifs
    · exact .none hg
    · exact .some he.left hg
  · split_ifs
    · exact .none hg
    · exact .some hf.left hg
  · exact .none hg
  · exact .some he.right hg
  · exact .some hf.right hg
  · split
    · rename_i p hp
      split_ifs with hh
      · obtain ⟨hq,hg⟩ := hg.snap (hbox.of_holds hh)
        exact .some hq hg
      · exact .none hg
    · exact .none hg

end Overlay
end ExtrusionProfile
