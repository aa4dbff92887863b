import ExtrusionProfile.Profile.Compose
import ExtrusionProfile.Proofs.Number.Order
import ExtrusionProfile.Proofs.Profile.Completeness
import ExtrusionProfile.Proofs.Profile.EvenOdd

/-! The footprint of a profile, whoever clips the regions. Two things are asked of a clipper: that what
it makes does not stick out of what it is given, and that it is exact. The footprint then lies where the
polygons lie, and it is empty when all that they fill is cut out again, and only then. -/
namespace ExtrusionProfile

open Binary64

/-- The doubles from one up to another, zero among them. -/
structure Band where
  low : Float
  high : Float
  low_le : low ≤ 0
  le_high : 0 ≤ high

namespace Band

variable {b : Band} {x y z : Float}

def Has (b : Band) (x : Float) : Prop := b.low ≤ x ∧ x ≤ b.high

theorem zero (b : Band) : b.Has 0 := ⟨b.low_le,b.le_high⟩

theorem Has.number (h : b.Has x) : x.isNaN = false := (le_iff.mp h.1).2.1

theorem Has.between (hx : b.Has x) (hy : b.Has y) (hl : x ≤ z) (hu : z ≤ y) : b.Has z :=
  ⟨le_trans hx.1 hl,le_trans hu hy.2⟩

end Band

/-- A box around the origin. -/
structure Window where
  across : Band
  upward : Band

def Window.Holds (w : Window) (p : Point Float) : Prop := w.across.Has p.x ∧ w.upward.Has p.y

/-- A region with points in a window, on its outer ring at least one. -/
structure RegionWithin (w : Window) (r : Region Float) : Prop where
  ne_nil : r.outer ≠ []
  holds : ∀ ps ∈ r.outer::r.holes, ∀ p ∈ ps, w.Holds p

namespace Profile

variable {ε X : Type}

theorem exists_of_overlayBy {clip : Clip ε} {s t : FootprintOr ε} {us : List (Region Float)}
    (h : overlayBy clip s t = .ok us) : ∃ rs ss, s = .ok rs ∧ t = .ok ss ∧ clip rs ss = .ok us := by
  cases s with
  | error e => cases h
  | ok rs =>
    cases t with
    | error e => cases h
    | ok ss => exact ⟨rs,ss,rfl,rfl,h⟩

section Confined

/-- Whether what is combined stays in every window that the operands lie in. -/
def Confines (clip : Clip ε) : Prop :=
  ∀ (w : Window) (rs ss us : List (Region Float)), (∀ r ∈ rs, RegionWithin w r) →
    (∀ r ∈ ss, RegionWithin w r) → clip rs ss = .ok us → ∀ r ∈ us, RegionWithin w r

structure Clipper.Confined (c : Clipper ε) : Prop where
  union : Confines c.union
  difference : Confines c.difference

/-- A footprint that could not be found, or whose regions lie in a window. -/
def FootprintWithin (w : Window) (s : FootprintOr ε) : Prop :=
  ∀ rs, s = .ok rs → ∀ r ∈ rs, RegionWithin w r

/-- A polygon with points, all of them in a window. -/
structure PolygonWithin (w : Window) (p : Polygon Float) : Prop where
  ne_nil : p.points ≠ []
  holds : ∀ q ∈ p.points, w.Holds q

variable {c : Clipper ε} {w : Window} {s t : FootprintOr ε} {a : Option (FootprintOr ε)}
  {p : Polygon Float} {ps : List (Polygon Float)}

theorem PolygonWithin.footprint (hp : PolygonWithin w p) :
    FootprintWithin w (polygonFootprint p.points : FootprintOr ε) := by
  rintro _ ⟨⟩
  simpa using (⟨hp.ne_nil,by simpa using hp.holds⟩ : RegionWithin w ⟨p.points,[]⟩)

theorem FootprintWithin.overlay {clip : Clip ε} (hc : Confines clip) (hs : FootprintWithin w s)
    (ht : FootprintWithin w t) : FootprintWithin w (overlayBy clip s t) := by
  intro us h
  obtain ⟨rs,ss,hrs,hss,h⟩ := exists_of_overlayBy h
  exact hc w rs ss us (hs rs hrs) (ht ss hss) h

theorem within_add (hc : c.Confined) (depth : Float) (ha : ∀ s ∈ a, FootprintWithin w s)
    (hp : PolygonWithin w p) : ∀ s ∈ add (footprintExtruderBy c) depth a p, FootprintWithin w s := by
  unfold add
  split
  · simp
  · simpa [footprintExtruderBy] using hp.footprint
  · simpa [footprintExtruderBy] using (ha _ rfl).overlay hc.union hp.footprint
  · simpa [footprintExtruderBy] using (ha _ rfl).overlay hc.difference hp.footprint

theorem within_foldl_add (hc : c.Confined) (depth : Float) (ha : ∀ s ∈ a, FootprintWithin w s)
    (hp : ∀ p ∈ ps, PolygonWithin w p) :
    ∀ s ∈ ps.foldl (add (footprintExtruderBy c) depth) a, FootprintWithin w s := by
  induction ps generalizing a with
  | nil => exact ha
  | cons p ps ih =>
    obtain ⟨hp,hps⟩ := List.forall_mem_cons.mp hp
    exact ih (within_add hc depth ha hp) hps

/-- A footprint lies in every window that the polygons lie in. -/
theorem within_footprintBy (hc : c.Confined) {r : Request Float}
    (hp : ∀ p ∈ r.polygons, PolygonWithin w p) : FootprintWithin w (footprintBy c r) := by
  have h := within_foldl_add hc r.depth (a:=none) (by simp) hp
  unfold footprintBy compose
  cases he : r.polygons.foldl (add (footprintExtruderBy c) r.depth) none with
  | none => rintro _ ⟨⟩; simp
  | some s => exact h s he

end Confined

section Exact

/-- The places that regions cover, with rings around the places `solid`. -/
def regionsSet (solid : List (Point Float) → Set X) (rs : List (Region Float)) : Set X :=
  ⋃ r ∈ rs, regionSet solid r

/-- Whether a combination covers what an operation on sets makes of what the operands cover, without
regions that cover nothing. -/
def Computes (clip : Clip ε) (solid : List (Point Float) → Set X)
    (op : Set X → Set X → Set X) : Prop :=
  ∀ rs ss us, clip rs ss = .ok us →
    regionsSet solid us = op (regionsSet solid rs) (regionsSet solid ss) ∧
      ∀ r ∈ us, (regionSet solid r).Nonempty

/-- A clipper that returns the exact region, by one way to tell what a ring is around. -/
structure Clipper.Exact (c : Clipper ε) (solid : List (Point Float) → Set X) : Prop where
  union : Computes c.union solid (· ∪ ·)
  difference : Computes c.difference solid (· \ ·)

variable {c : Clipper ε} {clip : Clip ε} {solid : List (Point Float) → Set X}
  {op : Set X → Set X → Set X} {s t : FootprintOr ε} {S T : Set X} {rs ss us : List (Region Float)}

theorem regionsSet_single (ps : List (Point Float)) : regionsSet solid [⟨ps,[]⟩] = solid ps := by
  simp [regionsSet,regionSet]

theorem eq_nil_iff_regionsSet (h : ∀ r ∈ rs, (regionSet solid r).Nonempty) :
    rs = [] ↔ regionsSet solid rs = ∅ := by
  constructor
  · rintro rfl
    simp [regionsSet]
  · intro he
    refine List.eq_nil_iff_forall_not_mem.mpr fun r hr => (h r hr).ne_empty ?_
    simp only [regionsSet,Set.iUnion_eq_empty] at he
    exact he r hr

theorem Clipper.Exact.difference_eq_nil (hc : c.Exact solid)
    (h : regionsSet solid rs ⊆ regionsSet solid ss) (hd : c.difference rs ss = .ok us) : us = [] := by
  obtain ⟨he,hn⟩ := hc.difference rs ss us hd
  rw [eq_nil_iff_regionsSet hn,he]
  exact Set.sdiff_eq_empty.mpr h

/-- A footprint that could not be found, or that covers these places. -/
def Covers (solid : List (Point Float) → Set X) (s : FootprintOr ε) (S : Set X) : Prop :=
  ∀ rs, s = .ok rs → regionsSet solid rs = S

/-- The same without regions that cover nothing. -/
structure Shows (solid : List (Point Float) → Set X) (s : FootprintOr ε) (S : Set X) : Prop where
  covers : Covers solid s S
  nonempty : ∀ rs, s = .ok rs → ∀ r ∈ rs, (regionSet solid r).Nonempty

theorem covers_polygonFootprint (ps : List (Point Float)) :
    Covers solid (polygonFootprint ps : FootprintOr ε) (solid ps) := by
  rintro _ ⟨⟩
  exact regionsSet_single ps

theorem Covers.overlay (hc : Computes clip solid op) (hs : Covers solid s S)
    (ht : Covers solid t T) : Shows solid (overlayBy clip s t) (op S T) := by
  constructor
  case covers =>
    intro us h
    obtain ⟨rs,ss,hrs,hss,h⟩ := exists_of_overlayBy h
    rw [← hs rs hrs,← ht ss hss]
    exact (hc rs ss us h).1
  case nonempty =>
    intro us h
    obtain ⟨rs,ss,-,-,h⟩ := exists_of_overlayBy h
    exact (hc rs ss us h).2

theorem Covers.attach (hc : c.Exact solid) (hs : Covers solid s S) (depth : Float)
    (p : Polygon Float) : Shows solid (attach (footprintExtruderBy c) depth s p)
      (attach (pointSets fun ps _ => solid ps) depth S p) := by
  have hp : Covers solid (polygonFootprint p.points : FootprintOr ε) (solid p.points) :=
    covers_polygonFootprint p.points
  unfold Profile.attach
  cases p.role with
  | fill => exact hs.overlay hc.union hp
  | hole => exact hs.overlay hc.difference hp

theorem Shows.foldl_attach (hc : c.Exact solid) (hs : Shows solid s S) (depth : Float)
    (ps : List (Polygon Float)) : Shows solid (ps.foldl (Profile.attach (footprintExtruderBy c) depth) s)
      (ps.foldl (Profile.attach (pointSets fun ps _ => solid ps) depth) S) := by
  induction ps generalizing s S with
  | nil => exact hs
  | cons p ps ih => exact ih (hs.covers.attach hc depth p)

/-- The footprint that begins with a fill is empty exactly when more polygons follow and nothing is left
of what is filled. -/
theorem footprintBy_eq_nil_iff (hc : c.Exact solid) {r : Request Float} {p : Polygon Float}
    {ps : List (Polygon Float)} (hr : r.polygons = p::ps) (hp : p.role = .fill)
    (h : footprintBy c r = .ok rs) :
    rs = [] ↔ ps ≠ [] ∧ compose (pointSets fun ps _ => solid ps) r = some ∅ := by
  rw [footprintBy,compose_eq_some _ hr hp] at h
  rw [compose_eq_some _ hr hp,Option.some_inj]
  cases ps with
  | nil =>
    cases h
    simp
  | cons q qs =>
    have hs := ((covers_polygonFootprint p.points).attach hc r.depth q).foldl_attach hc r.depth qs
    rw [eq_nil_iff_regionsSet (hs.nonempty rs h),hs.covers rs h]
    exact (and_iff_right (List.cons_ne_nil q qs)).symm

theorem footprintBy_eq_nil_of_subset (hc : c.Exact solid) {r : Request Float} {p q : Polygon Float}
    (hr : r.polygons = [p,q]) (hp : p.role = .fill) (hq : q.role = .hole)
    (hs : solid p.points ⊆ solid q.points) (h : footprintBy c r = .ok rs) : rs = [] := by
  rw [footprintBy,compose_eq_some _ hr hp] at h
  simp only [List.foldl_cons,List.foldl_nil,Profile.attach,hq] at h
  change overlayBy c.difference (polygonFootprint p.points) (polygonFootprint q.points) = _ at h
  obtain ⟨_,_,⟨⟩,⟨⟩,hd⟩ := exists_of_overlayBy h
  refine hc.difference_eq_nil ?_ hd
  rwa [regionsSet_single,regionsSet_single]

end Exact

section Wholes

/-- The outer rings of regions, but for those that are cut out themselves. -/
def wholes (rs : List (Region Float)) : List (List (Point Float)) :=
  (rs.filter fun r => r.outer ∉ r.holes).map Region.outer

/-- A clipper of rings that are either equal or apart. -/
def Clipper.ofWholes : Clipper ε where
  union rs ss := .ok ((wholes rs ++ wholes ss).map (⟨·,[]⟩))
  difference rs ss := .ok (((wholes rs).filter (· ∉ wholes ss)).map (⟨·,[]⟩))

variable {ps : List (Point Float)} {rs : List (Region Float)} {w : Window}

theorem mem_regionsSet_wholes : ps ∈ regionsSet ({·}) rs ↔ ps ∈ wholes rs := by
  simp only [regionsSet,regionSet,wholes,Set.mem_iUnion,Set.mem_sdiff,Set.mem_singleton_iff,
    List.mem_map,List.mem_filter,decide_eq_true_eq,exists_prop,not_exists,not_and]
  constructor
  · rintro ⟨r,hr,rfl,hn⟩
    exact ⟨r,⟨hr,fun hm => hn _ hm rfl⟩,rfl⟩
  · rintro ⟨r,⟨hr,hn⟩,rfl⟩
    exact ⟨r,hr,rfl,fun h hh he => hn (he ▸ hh)⟩

theorem regionsSet_map (pss : List (List (Point Float))) :
    regionsSet ({·}) (pss.map fun ps => (⟨ps,[]⟩ : Region Float)) = {ps | ps ∈ pss} := by
  ext ps
  rw [mem_regionsSet_wholes]
  simp [wholes]

theorem nonempty_map (pss : List (List (Point Float))) :
    ∀ r ∈ pss.map fun ps => (⟨ps,[]⟩ : Region Float), (regionSet ({·}) r).Nonempty :=
  List.forall_mem_map.mpr fun ps _ => ⟨ps,by simp [regionSet]⟩

theorem exact_ofWholes : (Clipper.ofWholes : Clipper ε).Exact ({·}) where
  union rs ss us h := by
    cases h
    refine ⟨?_,nonempty_map _⟩
    rw [regionsSet_map]
    ext ps
    simp [mem_regionsSet_wholes]
  difference rs ss us h := by
    cases h
    refine ⟨?_,nonempty_map _⟩
    rw [regionsSet_map]
    ext ps
    simp [mem_regionsSet_wholes]

theorem within_wholes (h : ∀ r ∈ rs, RegionWithin w r) :
    ∀ ps ∈ wholes rs, RegionWithin w ⟨ps,[]⟩ := by
  intro ps hps
  obtain ⟨r,hr,rfl⟩ := List.mem_map.mp hps
  have hw := h r (List.mem_filter.mp hr).1
  exact ⟨hw.ne_nil,by simpa using hw.holds r.outer List.mem_cons_self⟩

theorem confined_ofWholes : (Clipper.ofWholes : Clipper ε).Confined where
  union w rs ss us hr hs h := by
    cases h
    exact List.forall_mem_map.mpr (List.forall_mem_append.mpr ⟨within_wholes hr,within_wholes hs⟩)
  difference w rs ss us hr _ h := by
    cases h
    exact List.forall_mem_map.mpr fun ps hps => within_wholes hr ps (List.mem_filter.mp hps).1

end Wholes

end Profile
end ExtrusionProfile
