import ExtrusionProfile.Overlay.Combine
import ExtrusionProfile.Proofs.Overlay.Parts

/-! The rings of an overlay. A walk along a boundary goes from end to end of its edges, and the
written form of a ring drops and turns points but makes none. So union and difference stay in any
window that holds both operands and the origin, and every region of theirs has a point. -/
namespace ExtrusionProfile
namespace Overlay

variable {w : Window} {p q : Point Float} {e : Edge}

section Walks

structure Stride.Within (w : Window) (s : Stride) : Prop where
  source : w.Holds s.source
  target : w.Holds s.target

theorem Edge.Within.other (he : e.Within w) (p : Point Float) : w.Holds (e.other p) := by
  unfold Edge.other
  split_ifs
  · exact he.right
  · exact he.left

variable {s t : Stride} {ss : List Stride} {slots : List Slot}

theorem within_exits (hs : s.Within w) (ht : ∀ t ∈ slots, t.border.edge.Within w) :
    ∀ u ∈ exits slots s, u.Within w := by
  intro u hu
  obtain ⟨t,hm,hu⟩ := List.mem_filterMap.mp hu
  obtain ⟨-,hu⟩ := Option.ite_none_right_eq_some.mp hu
  cases hu
  exact ⟨hs.target,(ht t hm).other s.target⟩

theorem within_leftmost (back : Point Float) (hs : s.Within w) (ht : ∀ t ∈ ss, t.Within w) :
    (leftmost back s ss).Within w := by
  unfold leftmost
  induction ss generalizing s with
  | nil => exact hs
  | cons t ts ih =>
    obtain ⟨ht,hts⟩ := List.forall_mem_cons.mp ht
    rw [List.foldl_cons]
    split_ifs
    · exact ih ht hts
    · exact ih hs hts

theorem within_occupy (ring : List Stride) (ht : ∀ t ∈ slots, t.border.edge.Within w) :
    ∀ t ∈ occupy ring slots, t.border.edge.Within w := by
  intro u hu
  obtain ⟨t,hm,rfl⟩ := List.mem_map.mp hu
  split_ifs <;> exact ht t hm

namespace Walk

structure Within (w : Window) (v : Walk) : Prop where
  slots : ∀ t ∈ v.slots, t.border.edge.Within w
  path : ∀ s ∈ v.path, s.Within w
  rings : ∀ r ∈ v.rings, ∀ s ∈ r, s.Within w

variable {v u : Walk}

theorem Within.append_ring (hv : v.Within w) (hs : ∀ s ∈ ss, s.Within w) :
    ∀ r ∈ v.rings ++ [ss], ∀ s ∈ r, s.Within w :=
  List.forall_mem_append.mpr ⟨hv.rings,by simpa using hs⟩

theorem Within.setPath (hv : v.Within w) (hs : ∀ s ∈ ss, s.Within w) (bs : List Branch) :
    ({ v with path := ss, branches := bs } : Walk).Within w :=
  ⟨hv.slots,hs,hv.rings⟩

theorem Within.cutLoop (hv : v.Within w) (b : Branch) (bs : List Branch) :
    (v.cutLoop b bs).Within w where
  slots := within_occupy _ hv.slots
  path s hs := hv.path s (List.mem_of_mem_drop hs)
  rings := hv.append_ring fun s hs => hv.path s (List.mem_of_mem_take (List.mem_reverse.mp hs))

theorem Within.finish {start : Point Float} {n : ℕ} (hv : v.Within w) (hs : s.Within w)
    (h : Walk.finish start n s v = some u) : u.Within w := by
  induction n generalizing s v with
  | zero => cases h
  | succ n ih =>
    have hexits := within_exits hs hv.slots
    have hcons {t : Stride} (ht : t.Within w) := hv.setPath (List.forall_mem_cons.mpr ⟨ht,hv.path⟩)
    rw [Walk.finish] at h
    split_ifs at h
    · cases h
      exact ⟨within_occupy _ hv.slots,by simp,
        hv.append_ring fun s hs => hv.path s (List.mem_reverse.mp hs)⟩
    · split at h
      · cases h
      · rename_i t ht
        have ht : t.Within w := hexits t (by simp [ht])
        exact ih (hcons ht _) ht h
      · rename_i t ts _ ht
        split at h
        · exact ih (hv.cutLoop _ _) hs h
        · rw [ht,List.forall_mem_cons] at hexits
          have hl := within_leftmost s.source hexits.1 hexits.2
          exact ih (hcons hl _) hl h

end Walk

variable {bs : List Border}

theorem within_traceFrom {bound i : ℕ} {v u : Walk} (hv : v.Within w)
    (hb : ∀ b ∈ bs, b.edge.Within w) (h : traceFrom bound bs i v = some u) : u.Within w := by
  induction bs generalizing i v with
  | nil => cases h; exact hv
  | cons b bs ih =>
    obtain ⟨hb,hbs⟩ := List.forall_mem_cons.mp hb
    rw [traceFrom] at h
    split_ifs at h
    · dsimp only at h
      split at h
      · rename_i x hx
        have hs : (⟨i,b.edge.left,b.edge.right⟩ : Stride).Within w := ⟨hb.left,hb.right⟩
        exact ih ((hv.setPath (by simpa using hs) []).finish hs hx) hbs h
      · cases h
    · exact ih hv hbs h

theorem within_slotsFrom (i : ℕ) (hb : ∀ b ∈ bs, b.edge.Within w) :
    ∀ t ∈ slotsFrom i bs, t.border.edge.Within w := by
  induction bs generalizing i with
  | nil => simp [slotsFrom]
  | cons b bs ih =>
    obtain ⟨hb,hbs⟩ := List.forall_mem_cons.mp hb
    exact List.forall_mem_cons.mpr ⟨hb,ih (i+1) hbs⟩

theorem within_trace (hb : ∀ b ∈ bs, b.edge.Within w) :
    ∀ rings ∈ trace bs, ∀ r ∈ rings, ∀ s ∈ r, s.Within w := by
  intro rings hr
  obtain ⟨u,hu,rfl⟩ := Option.map_eq_some_iff.mp hr
  exact (within_traceFrom ⟨within_slotsFrom 0 hb,by simp,by simp⟩ hb hu).rings

end Walks

section Written

variable {ps : List (Point Float)}

theorem straighten_subset (stop p : Point Float) (ps : List (Point Float)) :
    straighten stop p ps ⊆ ps := by
  fun_induction straighten stop p ps with
  | case1 p q r rs h ih => exact List.Subset.trans ih (List.subset_cons_self _ _)
  | case2 p q r rs h ih => exact List.cons_subset_cons q ih
  | case3 => simp
  | case4 => simp
  | case5 => simp

theorem corners_subset (ps : List (Point Float)) : corners ps ⊆ ps := by
  cases ps with
  | nil => exact List.Subset.refl _
  | cons p ps =>
    have hs := straighten_subset p p ps
    rw [corners]
    split
    · simp
    · rename_i q qs hq
      rw [hq] at hs
      split_ifs
      · exact List.subset_cons_of_subset p hs
      · exact List.cons_subset_cons p hs

theorem fromLeast_subset (ps : List (Point Float)) : fromLeast ps ⊆ ps := by
  cases ps with
  | nil => exact List.Subset.refl _
  | cons p ps =>
    exact List.append_subset.mpr ⟨(List.dropWhile_sublist _).subset,(List.takeWhile_sublist _).subset⟩

theorem orient_subset (left : Bool) (ps : List (Point Float)) : orient left ps ⊆ ps := by
  cases ps with
  | nil => exact List.Subset.refl _
  | cons p ps =>
    rw [orient]
    split_ifs
    · exact List.Subset.refl _
    · exact List.cons_subset_cons p (List.reverse_subset.mpr (List.Subset.refl _))

theorem writtenRing_subset (left : Bool) (ps : List (Point Float)) : writtenRing left ps ⊆ ps := by
  have h : orient left (fromLeast (corners ps)) ⊆ ps :=
    List.Subset.trans (orient_subset left _)
      (List.Subset.trans (fromLeast_subset _) (corners_subset ps))
  exact List.append_subset.mpr ⟨h,fun q hq => h (List.mem_of_mem_take hq)⟩

end Written

section Pieces

structure Piece.Within (w : Window) (p : Piece) : Prop where
  outer : ∀ q ∈ p.outer, w.Holds q
  holes : ∀ h ∈ p.holes, ∀ q ∈ h, w.Holds q

variable {l : Loop} {ps : List Piece} {bs : List Border}

theorem holds_writtenRing (hl : ∀ s ∈ l.strides, s.Within w) (left : Bool) :
    ∀ q ∈ writtenRing left l.points, w.Holds q := by
  intro q hq
  obtain ⟨s,hs,rfl⟩ := List.mem_map.mp (writtenRing_subset left l.points hq)
  exact (hl s hs).source

theorem within_assemble (hl : ∀ s ∈ l.strides, s.Within w) (hp : ∀ p ∈ ps, p.Within w) :
    ∀ p ∈ assemble bs ps l, p.Within w := by
  unfold assemble
  split_ifs
  · refine List.forall_mem_append.mpr ⟨hp,?_⟩
    simpa using ⟨holds_writtenRing hl true,by simp⟩
  · intro p hm
    obtain ⟨r,hr,rfl⟩ := List.mem_map.mp hm
    have hr := hp r hr
    unfold Piece.addHole
    split_ifs
    · exact ⟨hr.outer,List.forall_mem_append.mpr ⟨hr.holes,by simpa using holds_writtenRing hl false⟩⟩
    · exact hr

theorem within_foldl_assemble {ls : List Loop} (hl : ∀ l ∈ ls, ∀ s ∈ l.strides, s.Within w)
    (hp : ∀ p ∈ ps, p.Within w) : ∀ p ∈ ls.foldl (assemble bs) ps, p.Within w := by
  induction ls generalizing ps with
  | nil => exact hp
  | cons l ls ih =>
    obtain ⟨hl,hls⟩ := List.forall_mem_cons.mp hl
    exact ih hls (within_assemble hl hp)

theorem within_region? {p : Piece} (hp : p.Within w) : ∀ r ∈ p.region?, RegionWithin w r := by
  unfold Piece.region?
  split_ifs with h
  · simp
  · rintro _ ⟨⟩
    refine ⟨fun h0 => h (by simpa using h0),List.forall_mem_cons.mpr ⟨hp.outer,?_⟩⟩
    intro ps hm
    exact hp.holes ps (List.mem_filter.mp (List.mem_mergeSort.mp hm)).1

theorem within_regionsOf {rings : List (List Stride)} (hr : ∀ r ∈ rings, ∀ s ∈ r, s.Within w) :
    ∀ r ∈ regionsOf bs rings, RegionWithin w r := by
  intro r hm
  obtain ⟨p,hp,hr'⟩ := List.mem_filterMap.mp (List.mem_mergeSort.mp hm)
  refine within_region? (within_foldl_assemble ?_ (by simp) p hp) r hr'
  intro l hl
  obtain ⟨ring,hring,hl⟩ := List.mem_filterMap.mp (List.mem_mergeSort.mp hl)
  obtain ⟨b,-,rfl⟩ := Option.map_eq_some_iff.mp hl
  exact hr ring hring

end Pieces

/-- Union and difference stay where the operands are. -/
theorem confines_combine (o : Operation) : Profile.Confines (combine o) := by
  intro w rs ss us ha hb h
  unfold combine at h
  split_ifs at h
  dsimp only at h
  split at h
  · rename_i rings ht
    cases h
    obtain ⟨hs,hg⟩ := within_regionEdges (o:=.subject) (k:=0) (Grid.within_initial w) ha
    obtain ⟨hc,hg⟩ := within_regionEdges (o:=.clip) (k:=0) hg hb
    have he := within_arrange hg (List.forall_mem_append.mpr ⟨hs,hc⟩)
    exact within_regionsOf (within_trace (within_borders o he) rings ht)
  · cases h

theorem confined_clipper : clipper.Confined := ⟨confines_combine .union,confines_combine .difference⟩

end Overlay
end ExtrusionProfile
