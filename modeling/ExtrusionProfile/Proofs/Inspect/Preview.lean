import ExtrusionProfile.Proofs.Inspect.Effects
import ExtrusionProfile.Proofs.Inspect.Frame
import ExtrusionProfile.Proofs.Overlay.Rings

/-! The preview that a run writes. It is of the footprint of what was read, whose vertices are no farther
out than those of the polygons. So its frame is usable whenever there is a footprint; but one that is
empty is not checked for, and it is empty when all that is filled is cut out again. -/
namespace ExtrusionProfile

open Binary64

theorem Binary64.Moderate.between {x y z : Float} (hx : Moderate x) (hy : Moderate y) (hl : x ≤ z)
    (hu : z ≤ y) : Moderate z := ⟨lt_trans_le hx.1 hl,le_trans_lt hu hy.2⟩

theorem exists_window {ps : List (Point Float)} (h : ∀ p ∈ ps, p.IsModerate) :
    ∃ w : Window, (∀ p ∈ ps, w.Holds p) ∧ ∀ q, w.Holds q → q.IsModerate := by
  have hm : ∀ p ∈ ⟨0,0⟩::ps, p.IsModerate := List.forall_mem_cons.mpr ⟨by decide +kernel,h⟩
  obtain ⟨b,hb⟩ := Bounds.exists_around? (List.cons_ne_nil ⟨0,0⟩ ps)
  have he := (Bounds.contains_around_iff hb).mp ((Bounds.contains_self_iff hb).mpr fun p hp =>
    ⟨isNaN_of_isFinite (hm p hp).1.bounded.isFinite,isNaN_of_isFinite (hm p hp).2.bounded.isFinite⟩)
  obtain ⟨h0,he⟩ := List.forall_mem_cons.mp he
  obtain ⟨⟨p,hp,hl⟩,⟨q,hq,hd⟩,⟨r,hr,hr'⟩,⟨s,hs,hu⟩⟩ := Bounds.exists_of_around? hb
  refine ⟨⟨⟨b.minX,b.maxX,h0.left,h0.right⟩,⟨b.minY,b.maxY,h0.low,h0.high⟩⟩,fun p hp => ?_,?_⟩
  · exact ⟨⟨(he p hp).left,(he p hp).right⟩,⟨(he p hp).low,(he p hp).high⟩⟩
  · rintro v ⟨⟨hvl,hvr⟩,⟨hvd,hvu⟩⟩
    exact ⟨(hm p hp).1.between (hm r hr).1 (hl ▸ hvl) (hr' ▸ hvr),
      (hm q hq).2.between (hm s hs).2 (hd ▸ hvd) (hu ▸ hvu)⟩

namespace Inspect

def infinitePreview : String :=
  "<svg xmlns=\"http://www.w3.org/2000/svg\" viewBox=\"Infinity Infinity -Infinity -Infinity\">" ++
    "\n\n</svg>\n"

theorem previewText_nil : previewText [] = infinitePreview := by
  decide +kernel

section Runs

variable {ε : Type} {t : Tools ε} {f : Folder} {a : Arguments} {args : List (List Char)}
  {p text : List Char}

theorem exists_of_preview (h : (examine t a f.entry).ending = .preview p text) :
    ∃ i rs, Imports t f a (some i) ∧ Profile.footprintBy t.clipper i.request = .ok rs ∧
      text = (previewText rs).toList := by
  unfold examine at h
  split at h
  · cases h
  rename_i path hp
  split at h
  · cases h
  · cases h
  rename_i d hf
  unfold examineText at h
  split at h
  · cases h
  rename_i r hr
  dsimp only at h
  split at h
  · cases h
  rename_i i hi
  unfold examineRequest at h
  dsimp only at h
  split at h
  · cases h
  rename_i rs hrs
  split at h
  · cases h
    exact ⟨i,rs,⟨path,d,r,hp,hf,hr,hi⟩,hrs,rfl⟩
  · cases h

/-- The path and the text of the preview that is to be written. -/
def Ending.preview? : Ending ε → Option (List Char × List Char)
  | .preview p text => some (p,text)
  | _ => none

theorem write_mem_acts_iff : .write p text ∈ acts t f args ↔
    (examine t (.ofList args) f.entry).ending.preview? = some (p,text) := by
  rw [acts,List.mem_append,or_iff_right (write_notMem_lines _ p text)]
  cases (examine t (.ofList args) f.entry).ending with
  | preview q u => simp [Ending.acts,Ending.preview?,eq_comm]
  | exit | fileFault | clipFault => simp [Ending.acts,Ending.preview?]

theorem exists_of_write_mem_acts (h : .write p text ∈ acts t f args) :
    ∃ i rs, Imports t f (.ofList args) (some i) ∧
      Profile.footprintBy t.clipper i.request = .ok rs ∧ text = (previewText rs).toList := by
  refine exists_of_preview (p:=p) ?_
  have hp := write_mem_acts_iff.mp h
  cases he : (examine t (.ofList args) f.entry).ending with
  | preview q u =>
    rw [he] at hp
    cases hp
    rfl
  | exit | fileFault | clipFault => rw [he] at hp; cases hp

theorem exists_complete {i : Drawing.Imported} (h : Imports t f a (some i)) :
    ∃ rings, i.request.Complete rings := by
  obtain ⟨path,d,r,-,-,hr,hi⟩ := h
  unfold importText Drawing.importProfileBy at hr
  cases hd : Drawing.readBy t.parse { name := some (String.ofList path) } d with
  | error e => rw [hd] at hr; cases hr
  | ok d =>
    rw [hd] at hr
    cases hr
    obtain ⟨s,-,hs⟩ := Option.bind_eq_some_iff.mp hi
    obtain ⟨q,hq,rfl⟩ := Option.map_eq_some_iff.mp hs
    exact ⟨_,Profile.complete_of_ofOutlineBy? hq⟩

theorem allPoints_eq_nil_iff {rs : List (Region Float)} (h : ∀ r ∈ rs, r.outer ≠ []) :
    allPoints rs = [] ↔ rs = [] := by
  refine ⟨fun he => ?_,by rintro rfl; rfl⟩
  cases rs with
  | nil => rfl
  | cons r rs =>
    simp only [allPoints,List.flatMap_cons,List.cons_append,List.flatten_cons,
      List.append_eq_nil_iff] at he
    exact absurd he.1 (h r List.mem_cons_self)

/-- The vertices of a footprint are as moderate as those of the polygons, and a footprint that is not
empty has some. -/
theorem moderate_footprint {i : Drawing.Imported} {rs : List (Region Float)}
    (hc : t.clipper.Confined) (h : Imports t f a (some i))
    (hm : ∀ q ∈ i.request.polygons, ∀ v ∈ q.points, v.IsModerate)
    (hrs : Profile.footprintBy t.clipper i.request = .ok rs) :
    (∀ v ∈ allPoints rs, v.IsModerate) ∧ (allPoints rs = [] ↔ rs = []) := by
  obtain ⟨rings,hr⟩ := exists_complete h
  have hv : ∀ v ∈ i.request.polygons.flatMap Polygon.points, v.IsModerate := fun v hv =>
    let ⟨q,hq,hv⟩ := List.mem_flatMap.mp hv
    hm q hq v hv
  obtain ⟨w,hw,hwm⟩ := exists_window hv
  have hp : ∀ q ∈ i.request.polygons, Profile.PolygonWithin w q := fun q hq =>
    ⟨List.ne_nil_of_length_pos (by have := (hr.shaped q hq).1; omega),
      fun v hv => hw v (List.mem_flatMap.mpr ⟨q,hq,hv⟩)⟩
  have hin := Profile.within_footprintBy hc hp rs hrs
  refine ⟨fun v hv => ?_,allPoints_eq_nil_iff fun r hr => (hin r hr).ne_nil⟩
  obtain ⟨ps,hps,hv⟩ := List.mem_flatten.mp hv
  obtain ⟨r,hr,hps⟩ := List.mem_flatMap.mp hps
  exact hwm v ((hin r hr).holds ps hps v hv)

/-- What a run finds to extrude, computed. -/
def imported? (t : Tools ε) (f : Folder) (a : Arguments) : Option Drawing.Imported :=
  match a.path with
  | none => none
  | some path =>
    match f.entry path with
    | .file d =>
      match importText t a path d with
      | .ok r => r.imported
      | .error _ => none
    | _ => none

theorem imports_iff {i : Drawing.Imported} :
    Imports t f a (some i) ↔ imported? t f a = some i := by
  unfold imported?
  constructor
  · rintro ⟨path,d,r,hp,hf,hr,hi⟩
    simp only [hp,hf,hr,hi]
  · intro h
    split at h
    · cases h
    rename_i path hp
    split at h
    · rename_i d hf
      split at h
      · rename_i r hr
        exact ⟨path,d,r,hp,hf,hr,h⟩
      · cases h
    · cases h

theorem imported?_clipper (t : Tools ε) (c : Profile.Clipper ε) :
    imported? { t with clipper := c } f a = imported? t f a := rfl

/-- A written preview has a usable frame, with the whole footprint in it, turned, exactly when there is
any footprint. Otherwise its view box is made of infinities. With a clipper that returns exact regions,
that is when several polygons were read and nothing is left of what they fill. -/
theorem preview_usable_iff (hc : t.clipper.Confined) (h : .write p text ∈ acts t f args)
    (hm : ∀ i, Imports t f (.ofList args) (some i) →
      ∀ q ∈ i.request.polygons, ∀ v ∈ q.points, v.IsModerate) :
    ∃ i rs, Imports t f (.ofList args) (some i) ∧
      Profile.footprintBy t.clipper i.request = .ok rs ∧ text = (previewText rs).toList ∧
      ((∃ g : Frame, g.ReadIn text ∧ (∀ g' : Frame, g'.ReadIn text → g' = g) ∧ g.Usable ∧
        ∀ v ∈ allPoints rs, g.box.Holds v.turned.exact) ↔ rs ≠ []) ∧
      (rs = [] → text = infinitePreview.toList) ∧
      ∀ {X : Type} (solid : List (Point Float) → Set X), t.clipper.Exact solid →
        (rs = [] ↔ 1 < i.request.polygons.length ∧
          Profile.compose (Profile.pointSets fun ps _ => solid ps) i.request = some ∅) := by
  obtain ⟨i,rs,hi,hrs,ht⟩ := exists_of_write_mem_acts h
  obtain ⟨hv,hn⟩ := moderate_footprint hc hi (hm i hi) hrs
  refine ⟨i,rs,hi,hrs,ht,⟨?_,fun he => ?_⟩,fun he => ?_,fun solid hs => ?_⟩
  · rintro ⟨g,hg,-⟩ he
    rw [ht] at hg
    exact Frame.not_readIn_of_isEmpty (hn.mpr he) hg
  · obtain ⟨hu,hb⟩ := Frame.usable_around hv (mt hn.mp he)
    have hr := Frame.readBack_readIn hu
    rw [← ht] at hr
    refine ⟨_,hr,fun g hg => hg.unique hr,Frame.usable_readBack hu,?_⟩
    rwa [Frame.box_readBack hu]
  · rw [ht,he,previewText_nil]
  · obtain ⟨rings,hr⟩ := exists_complete hi
    obtain ⟨q,qs,hq,-,hf,-⟩ := hr.composed
    rw [Profile.footprintBy_eq_nil_iff hs hq hf hrs,hq]
    simp [List.length_pos_iff]

def folderOf (text : String) : Folder := ⟨[(["a.svg".toList],text.toList)]⟩

def previewArguments : List (List Char) := ["a.svg".toList,"--preview".toList,"b.svg".toList]

def triangle : Folder :=
  folderOf "<svg viewBox=\"0 0 10 10\"><polygon points=\"0,0 10,1 3,7\"/></svg>"

set_option maxRecDepth 10000 in
theorem preview_usable_iff_triangle : Overlay.clipper.Confined ∧
    ∃ text, .write "b.svg".toList text ∈ acts .own triangle previewArguments ∧
    (∀ i, Imports .own triangle (.ofList previewArguments) (some i) →
      ∀ q ∈ i.request.polygons, ∀ v ∈ q.points, v.IsModerate) ∧
    ∃ rs, text = (previewText rs).toList ∧ rs ≠ [] ∧ ∃ g : Frame, g.ReadIn text ∧ g.Usable ∧
      ∀ v ∈ allPoints rs, g.box.Holds v.turned.exact := by
  have hp : (examine .own (.ofList previewArguments) triangle.entry).ending.preview?.map Prod.fst =
      some "b.svg".toList := by decide +kernel
  have hm : ∀ i ∈ imported? .own triangle (.ofList previewArguments),
      (∀ q ∈ i.request.polygons, ∀ v ∈ q.points, v.IsModerate) ∧
        (Profile.footprint i.request).toOption.map List.isEmpty = some false := by decide +kernel
  obtain ⟨⟨_,text⟩,ht,rfl⟩ := Option.map_eq_some_iff.mp hp
  have hw := write_mem_acts_iff.mpr ht
  have hi : ∀ i, Imports .own triangle (.ofList previewArguments) (some i) → _ := fun i hi =>
    hm i (imports_iff.mp hi)
  have hc := Overlay.confined_clipper
  obtain ⟨i,rs,h,hrs,ht,hu,-⟩ := preview_usable_iff (t:=.own) hc hw fun i h => (hi i h).1
  have he := (hi i h).2
  change (Profile.footprintBy Overlay.clipper i.request).toOption.map List.isEmpty = _ at he
  change Profile.footprintBy Overlay.clipper i.request = _ at hrs
  rw [hrs] at he
  have hn : rs ≠ [] := List.isEmpty_eq_false_iff.mp (Option.some.inj he)
  obtain ⟨g,hg,-,hg'⟩ := hu.mpr hn
  exact ⟨hc,text,hw,fun i h => (hi i h).1,rs,ht,hn,g,hg,hg'⟩

/-- A square with a hole that is as large. -/
def coveredSquare : Folder :=
  let square := "<rect width=\"10\" height=\"10\"/>"
  folderOf ("<svg viewBox=\"0 0 10 10\">" ++ square ++ square ++ "</svg>")

set_option maxRecDepth 10000 in
theorem moderate_coveredSquare :
    ∀ i ∈ imported? .own coveredSquare (.ofList previewArguments),
      (∀ q ∈ i.request.polygons, ∀ v ∈ q.points, v.IsModerate) ∧
      ∃ ps, i.request.polygons.map (fun q => (q.role,q.points)) = [(.fill,ps),(.hole,ps)] := by
  have hd : ∀ i ∈ imported? .own coveredSquare (.ofList previewArguments),
      let ps : List (Point Float) := [⟨-10,10⟩,⟨10,10⟩,⟨10,-10⟩,⟨-10,-10⟩]
      (∀ q ∈ i.request.polygons, ∀ v ∈ q.points, v.IsModerate) ∧
        i.request.polygons.map (fun q => (q.role,q.points)) = [(.fill,ps),(.hole,ps)] := by
    decide +kernel
  exact fun i hi => (hd i hi).imp_right (⟨_,·⟩)

/-- Whichever clipper returns exact regions, nothing is left of the square. -/
theorem footprint_coveredSquare {X : Type} {solid : List (Point Float) → Set X}
    {c : Profile.Clipper Overlay.Fault} {i : Drawing.Imported} {rs : List (Region Float)}
    (hc : c.Exact solid)
    (hi : Imports { Tools.own with clipper := c } coveredSquare (.ofList previewArguments) (some i))
    (hrs : Profile.footprintBy c i.request = .ok rs) : rs = [] := by
  rw [imports_iff,imported?_clipper] at hi
  obtain ⟨-,ps,hp⟩ := moderate_coveredSquare i hi
  obtain ⟨p,_,hr,hpf,h⟩ := List.map_eq_cons_iff.mp hp
  obtain ⟨q,_,rfl,hqh,h⟩ := List.map_eq_cons_iff.mp h
  cases List.map_eq_nil_iff.mp h
  obtain ⟨hf,hp⟩ := Prod.mk.inj hpf
  obtain ⟨hh,hq⟩ := Prod.mk.inj hqh
  exact Profile.footprintBy_eq_nil_of_subset hc hr hf hh (by rw [hp,hq]) hrs

/-- The tools with a clipper that is certainly exact where rings are equal. -/
def exactTools : Tools Overlay.Fault := { Tools.own with clipper := .ofWholes }

set_option maxRecDepth 10000 in
/-- What is left of the square is empty, and its preview has no usable frame. -/
theorem exists_preview_not_usable :
    .write "b.svg".toList infinitePreview.toList ∈ acts .own coveredSquare previewArguments ∧
    (∀ (X : Type) (solid : List (Point Float) → Set X) (c : Profile.Clipper Overlay.Fault)
      (text : List Char), c.Exact solid → .write "b.svg".toList text ∈
        acts { Tools.own with clipper := c } coveredSquare previewArguments →
      text = infinitePreview.toList) ∧
    exactTools.clipper.Confined ∧ exactTools.clipper.Exact ({·} : List (Point Float) → Set _) ∧
    .write "b.svg".toList infinitePreview.toList ∈ acts exactTools coveredSquare previewArguments ∧
    ∃ i, Imports exactTools coveredSquare (.ofList previewArguments) (some i) ∧
      (∀ q ∈ i.request.polygons, ∀ v ∈ q.points, v.IsModerate) ∧
      Profile.footprintBy exactTools.clipper i.request = .ok [] ∧
      ∀ g : Frame, ¬g.ReadIn infinitePreview.toList := by
  have ho : .write "b.svg".toList infinitePreview.toList ∈ acts .own coveredSquare previewArguments :=
    write_mem_acts_iff.mpr (by decide +kernel)
  have hw : .write "b.svg".toList infinitePreview.toList ∈
      acts exactTools coveredSquare previewArguments := write_mem_acts_iff.mpr (by decide +kernel)
  obtain ⟨i,rs,hi,hrs,-⟩ := exists_of_write_mem_acts hw
  have hn := footprint_coveredSquare Profile.exact_ofWholes hi hrs
  have him : i ∈ imported? .own coveredSquare (.ofList previewArguments) := by
    rw [← imported?_clipper .own .ofWholes]
    exact imports_iff.mp hi
  refine ⟨ho,fun X solid c text hc h => ?_,Profile.confined_ofWholes,Profile.exact_ofWholes,hw,i,hi,
    (moderate_coveredSquare i him).1,hn ▸ hrs,fun g hg => ?_⟩
  · obtain ⟨j,rs,hj,hrs,ht⟩ := exists_of_write_mem_acts h
    rw [ht,footprint_coveredSquare hc hj hrs,previewText_nil]
  · rw [← previewText_nil] at hg
    exact Frame.not_readIn_of_isEmpty rfl hg

end Runs

end Inspect
end ExtrusionProfile
