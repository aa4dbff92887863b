import ExtrusionProfile.Fit.Rings
import ExtrusionProfile.Proofs.Fit.Transform
import Mathlib.Data.Rat.Sqrt

/-! Where and how large a drawing is, and what fitting makes of it, in exact arithmetic. A drawing that
is enlarged and shifted is fitted to the same rings: its frame is enlarged and shifted like its points,
be it the declared one or the box of all points. A frame is fitted into a square around the origin, its
larger side from edge to edge. -/
namespace ExtrusionProfile

/-- An enlargement of the plane, and a shift behind it. -/
structure Rescaling where
  factor : ℚ
  shiftX : ℚ
  shiftY : ℚ
  factor_pos : 0 < factor

namespace Rescaling

variable (m : Rescaling)

def point (p : Point ℚ) : Point ℚ := ⟨m.factor*p.x+m.shiftX,m.factor*p.y+m.shiftY⟩

def bounds (b : Bounds ℚ) : Bounds ℚ :=
  ⟨m.factor*b.minX+m.shiftX,m.factor*b.minY+m.shiftY,m.factor*b.maxX+m.shiftX,
    m.factor*b.maxY+m.shiftY⟩

def viewBox (v : ViewBox ℚ) : ViewBox ℚ :=
  ⟨m.factor*v.minX+m.shiftX,m.factor*v.minY+m.shiftY,m.factor*v.width,m.factor*v.height⟩

def outline (o : Outline ℚ) : Outline ℚ :=
  ⟨o.subpaths.map (List.map m.point),m.viewBox o.viewBox⟩

/-- What is left to do behind the enlargement when `t` is to be done in all. -/
def transform (t : Transform ℚ) : Transform ℚ :=
  ⟨t.scale/m.factor,m.factor*t.centerX+m.shiftX,m.factor*t.centerY+m.shiftY⟩

theorem apply_transform (t : Transform ℚ) (p : Point ℚ) :
    (m.transform t).apply (m.point p) = t.apply p := by
  have hk := m.factor_pos.ne'
  simp only [Transform.apply_eq,Transform.alongX,Transform.alongY,transform,point,Point.mk.injEq]
  constructor <;> field_simp <;> ring

theorem applyAll_transform (t : Transform ℚ) (ps : List (Point ℚ)) :
    (m.transform t).applyAll (ps.map m.point) = t.applyAll ps := by
  rw [Transform.applyAll,List.map_map]
  exact List.map_congr_left fun p _ => m.apply_transform t p

theorem extend_bounds (b : Bounds ℚ) (p : Point ℚ) :
    (m.bounds b).extend (m.point p) = m.bounds (b.extend p) := by
  have hm : ∀ c, Monotone fun x => m.factor*x+c := fun c _ _ h =>
    add_le_add_left (mul_le_mul_of_nonneg_left h m.factor_pos.le) c
  simp only [Bounds.extend_rat,bounds,point,Bounds.mk.injEq]
  exact ⟨(hm _).map_min.symm,(hm _).map_min.symm,(hm _).map_max.symm,(hm _).map_max.symm⟩

theorem around?_point (ps : List (Point ℚ)) :
    Bounds.around? (ps.map m.point) = (Bounds.around? ps).map m.bounds :=
  Bounds.around?_map (fun _ => rfl) m.extend_bounds ps

theorem longerSide_viewBox (v : ViewBox ℚ) :
    (m.viewBox v).longerSide = m.factor*v.longerSide := by
  simp only [ViewBox.longerSide,Scalar.greatest_rat,viewBox,
    mul_max_of_nonneg _ _ m.factor_pos.le]

theorem lt_longerSide_viewBox (v : ViewBox ℚ) :
    Scalar.lt Scalar.zero (m.viewBox v).longerSide = Scalar.lt Scalar.zero v.longerSide := by
  rw [Bool.eq_iff_iff,Scalar.lt_rat,Scalar.lt_rat,longerSide_viewBox]
  exact mul_pos_iff_of_pos_left m.factor_pos

theorem ofBounds_bounds (b : Bounds ℚ) :
    ViewBox.ofBounds (m.bounds b) = m.viewBox (ViewBox.ofBounds b) := by
  simp only [ViewBox.ofBounds,Bounds.width,Bounds.height,bounds,viewBox,ViewBox.mk.injEq,true_and]
  constructor <;> ring

theorem extent?_outline (o : Outline ℚ) : (m.outline o).extent? = o.extent?.map m.viewBox := by
  have hl : ∀ v : ViewBox ℚ, Scalar.le (m.viewBox v).longerSide Scalar.zero =
      Scalar.le v.longerSide Scalar.zero := fun v => congrArg not (m.lt_longerSide_viewBox v)
  simp only [Outline.extent?,outline,← List.map_flatten,around?_point]
  cases Bounds.around? o.subpaths.flatten with
  | none => rfl
  | some b =>
    simp only [Option.map_some,ofBounds_bounds,hl]
    split <;> rfl

theorem frame?_outline (o : Outline ℚ) : (m.outline o).frame? = o.frame?.map m.viewBox := by
  have hv : (m.outline o).viewBox = m.viewBox o.viewBox := rfl
  rw [Outline.frame?,Outline.frame?,extent?_outline,hv,lt_longerSide_viewBox]
  split <;> rfl

theorem fit?_outline (targetSize userScale : ℚ) (o : Outline ℚ) :
    (m.outline o).fit? targetSize userScale = (o.fit? targetSize userScale).map m.transform := by
  rw [Outline.fit?,Outline.fit?,frame?_outline,Option.map_map,Option.map_map]
  congr 1
  funext v
  simp only [Function.comp_apply,longerSide_viewBox]
  simp only [transform,viewBox,Transform.mk.injEq]
  refine ⟨?_,?_,?_⟩ <;> ring

end Rescaling

namespace Outline

section Frame

/-- The rectangle that an outline is fitted by: the declared one, if it has a positive side, and
otherwise the box of all points. -/
def IsFrame (o : Outline ℚ) (v : ViewBox ℚ) : Prop :=
  if 0 < max o.viewBox.width o.viewBox.height then v = o.viewBox
  else ∃ b, Bounds.around? o.subpaths.flatten = some b ∧
    v = ⟨b.minX,b.minY,b.maxX-b.minX,b.maxY-b.minY⟩

theorem longerSide_rat (v : ViewBox ℚ) : v.longerSide = max v.width v.height :=
  Scalar.greatest_rat _ _

theorem extent?_eq_some_iff {o : Outline ℚ} {v : ViewBox ℚ} : o.extent? = some v ↔
    (∃ b, Bounds.around? o.subpaths.flatten = some b ∧
      v = ⟨b.minX,b.minY,b.maxX-b.minX,b.maxY-b.minY⟩) ∧ 0 < max v.width v.height := by
  unfold extent?
  cases Bounds.around? o.subpaths.flatten with
  | none => simp
  | some b =>
    simp only [Option.ite_none_left_eq_some,Scalar.le_rat,Scalar.zero_rat,not_le,longerSide_rat,
      Option.some_inj]
    constructor
    · rintro ⟨hl,rfl⟩
      exact ⟨⟨b,rfl,rfl⟩,hl⟩
    · rintro ⟨⟨_,rfl,rfl⟩,hl⟩
      exact ⟨hl,rfl⟩

theorem frame?_eq_some_iff {o : Outline ℚ} {v : ViewBox ℚ} :
    o.frame? = some v ↔ o.IsFrame v ∧ 0 < max v.width v.height := by
  unfold frame? IsFrame
  simp only [Scalar.lt_rat,Scalar.zero_rat,longerSide_rat]
  split_ifs with h
  · rw [Option.some_inj]
    constructor
    · rintro rfl
      exact ⟨rfl,h⟩
    · exact fun hv => hv.1.symm
  · exact extent?_eq_some_iff

/-- A transform fits a rectangle to a size when it fills a square of that size around the origin with
it, from edge to edge along its larger side, and turns it upside down. -/
structure Fits (t : Transform ℚ) (v : ViewBox ℚ) (size : ℚ) : Prop where
  inside : ∀ p, Bounds.Holds ⟨v.minX,v.minY,v.minX+v.width,v.minY+v.height⟩ p →
    Bounds.Holds ⟨-(size/2),-(size/2),size/2,size/2⟩ (t.apply p)
  wide : v.height ≤ v.width → ∀ y,
    (t.apply ⟨v.minX,y⟩).x = -(size/2) ∧ (t.apply ⟨v.minX+v.width,y⟩).x = size/2
  tall : v.width ≤ v.height → ∀ x,
    (t.apply ⟨x,v.minY⟩).y = size/2 ∧ (t.apply ⟨x,v.minY+v.height⟩).y = -(size/2)
  turned : ∀ p q, p.y < q.y ↔ (t.apply q).y < (t.apply p).y

variable {targetSize userScale : ℚ} {v : ViewBox ℚ}

theorem fits_of_longerSide {t : Transform ℚ} {size : ℚ} (ht : 0 < t.scale)
    (hs : t.scale*max v.width v.height = size) (hx : t.centerX = v.minX+v.width/2)
    (hy : t.centerY = v.minY+v.height/2) : Fits t v size := by
  have hw : t.scale*v.width ≤ size := hs ▸ mul_le_mul_of_nonneg_left (le_max_left _ _) ht.le
  have hh : t.scale*v.height ≤ size := hs ▸ mul_le_mul_of_nonneg_left (le_max_right _ _) ht.le
  -- An edge of the frame lies half a side away from the centre.
  have hl : t.alongX v.minX = -(t.scale*v.width/2) := by
    rw [Transform.alongX,hx]
    ring
  have hr : t.alongX (v.minX+v.width) = t.scale*v.width/2 := by
    rw [Transform.alongX,hx]
    ring
  have hb : t.alongY v.minY = t.scale*v.height/2 := by
    rw [Transform.alongY,hy]
    ring
  have hu : t.alongY (v.minY+v.height) = -(t.scale*v.height/2) := by
    rw [Transform.alongY,hy]
    ring
  have hmx := Transform.alongX_strictMono ht
  have hmy := Transform.alongY_strictAnti ht
  constructor
  · intro p hp
    have h₁ := hmx.monotone hp.left
    have h₂ := hmx.monotone hp.right
    have h₃ := hmy.antitone hp.low
    have h₄ := hmy.antitone hp.high
    constructor <;> simp only [Transform.apply_eq] <;> linarith
  · intro h y
    rw [max_eq_left h] at hs
    exact ⟨by rw [← hs]; exact hl,by rw [← hs]; exact hr⟩
  · intro h x
    rw [max_eq_right h] at hs
    exact ⟨by rw [← hs]; exact hb,by rw [← hs]; exact hu⟩
  · intro p q
    exact hmy.lt_iff_gt.symm

theorem fits_of_fit? {o : Outline ℚ} {t : Transform ℚ} (hs : 0 < targetSize) (hu : 0 < userScale)
    (h : o.fit? targetSize userScale = some t) :
    ∃ v, o.IsFrame v ∧ Fits t v (targetSize*userScale) := by
  obtain ⟨v,hv,rfl⟩ := Option.map_eq_some_iff.mp h
  obtain ⟨hf,hl⟩ := frame?_eq_some_iff.mp hv
  refine ⟨v,hf,fits_of_longerSide ?_ ?_ rfl rfl⟩
  · simp only [longerSide_rat]
    positivity
  · simp only [longerSide_rat]
    field_simp

end Frame

def fitted? (targetSize userScale : ℚ) (o : Outline ℚ) : Option (List (List (Point ℚ))) :=
  (o.fit? targetSize userScale).map fun t => o.subpaths.map t.applyAll

theorem fitted?_outline (targetSize userScale : ℚ) (m : Rescaling) (o : Outline ℚ) :
    (m.outline o).fitted? targetSize userScale = o.fitted? targetSize userScale := by
  rw [fitted?,fitted?,m.fit?_outline,Option.map_map]
  congr 1
  funext t
  simp only [Function.comp_apply,Rescaling.outline,List.map_map]
  exact List.map_congr_left fun ps _ => m.applyAll_transform t ps

theorem ringsBy_outline [Root ℚ] (simplify : Simplifier ℚ) (options : FitOptions ℚ)
    (m : Rescaling) (o : Outline ℚ) :
    (m.outline o).ringsBy simplify options = o.ringsBy simplify options := by
  have hr : ∀ t, ringBy? simplify options (m.transform t) ∘ List.map m.point =
      ringBy? simplify options t := fun t => by
    funext ps
    simp only [Function.comp_apply,ringBy?,m.applyAll_transform]
  rw [ringsBy,ringsBy,m.fit?_outline]
  cases o.fit? options.targetSize options.userScale with
  | none => rfl
  | some t => simp only [Option.map_some,Rescaling.outline,List.filterMap_map,hr]

/-- An outline that is enlarged and shifted is fitted as before: its points come to the same places,
and so, however distances are measured and lines simplified, do its rings. There is a fit when the
frame has a positive side, and to a positive size it fits the frame into the square. -/
theorem ringsBy_rescaled [Root ℚ] (simplify : Simplifier ℚ) (options : FitOptions ℚ)
    (m : Rescaling) (o : Outline ℚ) :
    (m.outline o).fitted? options.targetSize options.userScale =
        o.fitted? options.targetSize options.userScale ∧
      (m.outline o).ringsBy simplify options = o.ringsBy simplify options ∧
      ((o.fit? options.targetSize options.userScale).isSome ↔
        ∃ v, o.IsFrame v ∧ 0 < max v.width v.height) ∧
      ∀ t, o.fit? options.targetSize options.userScale = some t →
        0 < options.targetSize → 0 < options.userScale →
          ∃ v, o.IsFrame v ∧ Fits t v (options.targetSize*options.userScale) := by
  refine ⟨fitted?_outline _ _ m o,ringsBy_outline simplify options m o,?_,fun t h hs hu => ?_⟩
  · simp only [fit?,Option.isSome_map,Option.isSome_iff_exists,frame?_eq_some_iff]
  · exact fits_of_fit? hs hu h

deriving instance DecidableEq for Transform

/-- Roots of squares are exact. -/
instance : Root ℚ := ⟨Rat.sqrt⟩

/-- A triangle and a point that are declared without a size. -/
def undeclared : Outline ℚ := ⟨[[⟨3,5⟩,⟨7,5⟩,⟨7,8⟩],[⟨5,8⟩]],⟨1,1,0,-2⟩⟩

theorem ringsBy_rescaled_undeclared :
    let m : Rescaling := ⟨3/2,-4,1,by norm_num⟩
    (m.outline undeclared).ringsBy Simplify.line ⟨20,1/2,0,0⟩ =
        undeclared.ringsBy Simplify.line ⟨20,1/2,0,0⟩ ∧
      undeclared.ringsBy Simplify.line ⟨20,1/2,0,0⟩ = [[⟨-5,15/4⟩,⟨5,15/4⟩,⟨5,-15/4⟩]] ∧
      (m.outline undeclared).fitted? 20 (1/2) = undeclared.fitted? 20 (1/2) ∧
      undeclared.fit? 20 (1/2) = some ⟨5/2,5,13/2⟩ ∧ (0 : ℚ) < 20 ∧ (0 : ℚ) < 1/2 ∧
      ∃ v, undeclared.IsFrame v ∧ Fits ⟨5/2,5,13/2⟩ v (20*(1/2)) := by
  intro m
  have ht : undeclared.fit? 20 (1/2) = some ⟨5/2,5,13/2⟩ := by decide +kernel
  have hs : (0 : ℚ) < 20 := by norm_num
  have hu : (0 : ℚ) < 1/2 := by norm_num
  obtain ⟨hf,hr,-,hv⟩ := ringsBy_rescaled Simplify.line ⟨20,1/2,0,0⟩ m undeclared
  exact ⟨hr,by decide +kernel,hf,ht,hs,hu,hv _ ht hs hu⟩

end Outline
end ExtrusionProfile
