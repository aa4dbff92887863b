import ExtrusionProfile.Inspect.Run
import ExtrusionProfile.Proofs.Number.ArcCosine
import ExtrusionProfile.Proofs.Number.Margin
import ExtrusionProfile.Proofs.Number.Numeral
import ExtrusionProfile.Proofs.Number.Text
import ExtrusionProfile.Proofs.Plane.Enclosing
import ExtrusionProfile.Proofs.Plane.Bounds

/-! The frame of a preview. It is made of extremes over all points, with a margin that makes up for what
rounding loses of it. So all points are in it as long as there are any, and its numbers are read back
from the text that they are written in; but the extremes of no points are infinite, and then no numbers
can be read at all. -/
namespace ExtrusionProfile

open Binary64

section Moderate

/-- A finite double of a magnitude below `1e100`. -/
def Binary64.Moderate (x : Float) : Prop := -1e100 < x ∧ x < 1e100

def Point.IsModerate (p : Point Float) : Prop := Moderate p.x ∧ Moderate p.y

instance : DecidablePred Moderate := fun _ => inferInstanceAs (Decidable (_ ∧ _))

instance : DecidablePred Point.IsModerate := fun _ => inferInstanceAs (Decidable (_ ∧ _))

theorem Binary64.bounded_googol : Bounded 1e100 (2^(335 : ℤ)) := by
  have hn := near_ofScientific (n:=1) (by norm_num) false 100
  have ht : (10 : ℚ)^3 ≤ 2^10 := by norm_num
  have hp : (10 : ℚ)^100 ≤ 2^334 :=
    calc (10 : ℚ)^100 = (10^3)^33*10 := by rw [← pow_mul,← pow_succ]
      _ ≤ (2^10)^33*2^4 := mul_le_mul (pow_le_pow_left₀ (by norm_num) ht 33) (by norm_num)
        (by norm_num) (by positivity)
      _ = 2^334 := by rw [← pow_mul,← pow_add]
  refine hn.bounded_zpow (k:=334) ?_ (by norm_num) (by norm_num)
  rw [abs_of_nonneg (by positivity),if_neg Bool.false_ne_true]
  exact_mod_cast hp

theorem Binary64.Moderate.bounded {x : Float} (h : Moderate x) : Bounded x (2^(335 : ℤ)) := by
  have hf := isFinite_of_lt_of_lt h.1 h.2
  have hg := bounded_googol
  have hl := (lt_iff_toRat hg.neg.isFinite hf).mp h.1
  have hu := (lt_iff_toRat hf hg.isFinite).mp h.2
  have hb := (abs_le.mp hg.le).2
  rw [toRat_neg] at hl
  exact ⟨hf,abs_le.mpr ⟨by linarith,by linarith⟩⟩

end Moderate

def Point.turned (p : Point Float) : Point Float := ⟨p.x,-p.y⟩

/-- A point of finite coordinates as the rational point that it is. -/
def Point.exact (p : Point Float) : Point ℚ := ⟨toRat p.x,toRat p.y⟩

/-- A box with sides so far from overflowing that a margin around it does not either. -/
structure Bounds.Limited (b : Bounds Float) : Prop where
  minX : Bounded b.minX (2^(335 : ℤ))
  minY : Bounded b.minY (2^(335 : ℤ))
  maxX : Bounded b.maxX (2^(335 : ℤ))
  maxY : Bounded b.maxY (2^(335 : ℤ))
  alongX : toRat b.minX ≤ toRat b.maxX
  alongY : toRat b.minY ≤ toRat b.maxY

namespace Inspect
namespace Frame

/-- Four finite numbers, of which the lengths are not negative. -/
structure Usable (f : Frame) : Prop where
  minX : f.minX.isFinite
  minY : f.minY.isFinite
  width : f.width.isFinite
  height : f.height.isFinite
  width_nonneg : 0 ≤ f.width
  height_nonneg : 0 ≤ f.height

/-- The rectangle that a frame stands for, with ends that are not rounded. -/
def box (f : Frame) : Bounds ℚ :=
  ⟨toRat f.minX,toRat f.minY,toRat f.minX+toRat f.width,toRat f.minY+toRat f.height⟩

/-- A box with a twentieth of its longer side around it. -/
def ofBounds (b : Bounds Float) : Frame :=
  let pad := greatest b.width b.height*0.05
  ⟨b.minX-pad,b.minY-pad,b.width+pad*2,b.height+pad*2⟩

variable {rs : List (Region Float)} {b : Bounds Float}

theorem around_of_isEmpty (h : allPoints rs = []) : around rs = ⟨1/0,1/0,-1/0,-1/0⟩ := by
  unfold around
  rw [h]
  rfl

theorem around_eq_ofBounds (hf : ∀ p ∈ allPoints rs, p.IsFinite)
    (hb : Bounds.around? ((allPoints rs).map Point.turned) = some b) : around rs = ofBounds b := by
  unfold around
  cases hp : allPoints rs with
  | nil => rw [hp] at hb; cases hb
  | cons p ps =>
    rw [hp] at hf hb
    rw [List.map_cons,Bounds.around?_cons] at hb
    cases hb
    obtain ⟨hx,hy⟩ := hf p List.mem_cons_self
    obtain ⟨hl,hr⟩ := within_infinity hx
    obtain ⟨hd,hu⟩ := within_infinity (isFinite_neg hy)
    simp only [List.map_cons,List.foldl_cons,least_of_lt hr,least_of_lt hu,greatest_of_lt hl,
      greatest_of_lt hd,List.map_map]
    rfl

theorem limited_around (h : ∀ p ∈ allPoints rs, p.IsModerate)
    (hb : Bounds.around? ((allPoints rs).map Point.turned) = some b) : b.Limited := by
  have hx : ∀ q ∈ (allPoints rs).map Point.turned, Bounded q.x (2^(335 : ℤ)) :=
    List.forall_mem_map.mpr fun p hp => (h p hp).1.bounded
  have hy : ∀ q ∈ (allPoints rs).map Point.turned, Bounded q.y (2^(335 : ℤ)) :=
    List.forall_mem_map.mpr fun p hp => (h p hp).2.bounded.neg
  have hs := Bounds.spans_around hb fun q hq => ⟨(hx q hq).isFinite,(hy q hq).isFinite⟩
  obtain ⟨⟨p,hp,hl⟩,⟨q,hq,hd⟩,⟨r,hr,hr'⟩,⟨t,ht,hu⟩⟩ := Bounds.exists_of_around? hb
  exact ⟨hl ▸ hx p hp,hd ▸ hy q hq,hr' ▸ hx r hr,hu ▸ hy t ht,toRat_le hs.minX hs.maxX hs.alongX,
    toRat_le hs.minY hs.maxY hs.alongY⟩

section Limited

variable (h : b.Limited)

include h

theorem framed_sides : Framed b.minX b.maxX (greatest b.width b.height) ∧
    Framed b.minY b.maxY (greatest b.width b.height) := by
  have hw : Bounded b.width (2^(350 : ℤ)) := h.maxX.sub_zpow h.minX (by norm_num) (by norm_num)
  have hh : Bounded b.height (2^(350 : ℤ)) := h.maxY.sub_zpow h.minY (by norm_num) (by norm_num)
  have hm : Bounded (greatest b.width b.height) (2^(350 : ℤ)) := by
    rcases greatest_eq b.width b.height with he | he <;> rwa [he]
  have hg := toRat_greatest hw.isFinite hh.isFinite
  have hk : (335 : ℤ) ≤ 350 := by norm_num
  exact ⟨⟨h.minX.mono_zpow hk,h.maxX.mono_zpow hk,hm,h.alongX,hg ▸ le_max_left _ _⟩,
    ⟨h.minY.mono_zpow hk,h.maxY.mono_zpow hk,hm,h.alongY,hg ▸ le_max_right _ _⟩⟩

theorem usable_ofBounds : (ofBounds b).Usable := by
  obtain ⟨hx,hy⟩ := framed_sides h
  have hn {x : Float} (hf : x.isFinite) (h0 : 0 ≤ toRat x) : 0 ≤ x :=
    (le_iff_toRat isFinite_zero hf).mpr h0
  exact ⟨hx.bounded_begin.isFinite,hy.bounded_begin.isFinite,hx.bounded_extent.isFinite,
    hy.bounded_extent.isFinite,hn hx.bounded_extent.isFinite hx.extent_nonneg,
    hn hy.bounded_extent.isFinite hy.extent_nonneg⟩

theorem holds_ofBounds {p : Point Float} (hp : p.IsFinite) (he : b.Encloses p) :
    (ofBounds b).box.Holds p.exact := by
  obtain ⟨hx,hy⟩ := framed_sides h
  exact ⟨hx.begin_within.2.trans (toRat_le h.minX.isFinite hp.1 he.left),
    (toRat_le hp.1 h.maxX.isFinite he.right).trans hx.covers,
    hy.begin_within.2.trans (toRat_le h.minY.isFinite hp.2 he.low),
    (toRat_le hp.2 h.maxY.isFinite he.high).trans hy.covers⟩

end Limited

/-- Around moderate points, the frame is usable and has all of them in it. -/
theorem usable_around (h : ∀ p ∈ allPoints rs, p.IsModerate) (hn : allPoints rs ≠ []) :
    (around rs).Usable ∧ ∀ p ∈ allPoints rs, (around rs).box.Holds p.turned.exact := by
  have hf : ∀ p ∈ allPoints rs, p.IsFinite := fun p hp =>
    ⟨(h p hp).1.bounded.isFinite,(h p hp).2.bounded.isFinite⟩
  obtain ⟨b,hb⟩ := Bounds.exists_around? (mt List.map_eq_nil_iff.mp hn)
  have hl := limited_around h hb
  have ht : ∀ q ∈ (allPoints rs).map Point.turned, q.IsFinite :=
    List.forall_mem_map.mpr fun p hp => ⟨(hf p hp).1,isFinite_neg (hf p hp).2⟩
  have he := (Bounds.contains_around_iff hb).mp ((Bounds.contains_self_iff hb).mpr fun q hq =>
    ⟨isNaN_of_isFinite (ht q hq).1,isNaN_of_isFinite (ht q hq).2⟩)
  rw [around_eq_ofBounds hf hb]
  refine ⟨usable_ofBounds hl,fun p hp => ?_⟩
  have hm : p.turned ∈ (allPoints rs).map Point.turned := List.mem_map_of_mem hp
  exact holds_ofBounds hl (ht _ hm) (he _ hm)

end Frame

section Writing

open Literal

def opening : String := "<svg xmlns=\"http://www.w3.org/2000/svg\" viewBox=\""

def closing : String := "\">\n"

def spaced (a b c d : List Char) : List Char := a ++ ' '::(b ++ ' '::(c ++ ' '::d))

/-- Whether a frame is what can be read at the beginning of a preview: its numbers are those of the
four literals of the view box. -/
def Frame.ReadIn (f : Frame) (t : List Char) : Prop :=
  ∃ a b c d rest, t = opening.toList ++ (spaced a b c d ++ (closing.toList ++ rest)) ∧
    (∀ n ∈ [a,b,c,d], IsLiteral n) ∧ f = ⟨value a,value b,value c,value d⟩

theorem literal_append_cons_inj {a b r s : List Char} {c : Char} (ha : IsLiteral a)
    (hb : IsLiteral b) (hc : isBreak c) (h : a ++ c::r = b ++ c::s) : a = b ∧ r = s := by
  have hn {t u : List Char} (ht : IsLiteral (t ++ c::u)) : False :=
    not_isBreak_of_mem ht c (List.mem_append_right t List.mem_cons_self) hc
  rcases List.append_eq_append_iff.mp h with ⟨k,rfl,hk⟩ | ⟨k,rfl,hk⟩
  · cases k with
    | nil => exact ⟨(List.append_nil a).symm,(List.cons.inj hk).2⟩
    | cons d k =>
      obtain ⟨rfl,-⟩ := List.cons.inj hk
      exact (hn hb).elim
  · cases k with
    | nil => exact ⟨List.append_nil b,(List.cons.inj hk).2.symm⟩
    | cons d k =>
      obtain ⟨rfl,-⟩ := List.cons.inj hk
      exact (hn ha).elim

theorem Frame.ReadIn.unique {f g : Frame} {t : List Char} (hf : f.ReadIn t) (hg : g.ReadIn t) :
    f = g := by
  obtain ⟨a,b,c,d,rest,rfl,hl,rfl⟩ := hf
  obtain ⟨a',b',c',d',rest',ht,hl',rfl⟩ := hg
  have he : closing.toList = '\"'::">\n".toList := by decide +kernel
  simp only [List.append_cancel_left_eq,spaced,he,List.append_assoc,List.cons_append] at ht
  simp only [List.forall_mem_cons] at hl hl'
  obtain ⟨ha,hb,hc,hd,-⟩ := hl
  obtain ⟨ha',hb',hc',hd',-⟩ := hl'
  obtain ⟨rfl,h₁⟩ := literal_append_cons_inj ha ha' (by decide) ht
  obtain ⟨rfl,h₂⟩ := literal_append_cons_inj hb hb' (by decide) h₁
  obtain ⟨rfl,h₃⟩ := literal_append_cons_inj hc hc' (by decide) h₂
  obtain ⟨rfl,-⟩ := literal_append_cons_inj hd hd' (by decide) h₃
  rfl

theorem toList_intercalate_blank (a b c d : String) :
    (String.intercalate " " [a,b,c,d]).toList = spaced a.toList b.toList c.toList d.toList := by
  have hb : " ".toList = [' '] := rfl
  have hi : String.intercalate " " [a,b,c,d] = a ++ " " ++ b ++ " " ++ c ++ " " ++ d := rfl
  rw [hi]
  simp only [spaced,String.toList_append,hb,List.append_assoc,List.cons_append,List.nil_append]

theorem exists_previewText (rs : List (Region Float)) : ∃ rest, (previewText rs).toList =
    opening.toList ++ (spaced (NumberText.plain (Frame.around rs).minX)
      (NumberText.plain (Frame.around rs).minY) (NumberText.plain (Frame.around rs).width)
      (NumberText.plain (Frame.around rs).height) ++ (closing.toList ++ rest)) := by
  refine ⟨(String.intercalate "\n" (rs.map regionText) ++ "\n</svg>\n").toList,?_⟩
  unfold previewText
  simp only [plain,String.toList_append,toList_intercalate_blank,String.toList_ofList,opening,
    closing,List.append_assoc]

namespace Frame

variable {f g : Frame} {rs : List (Region Float)}

/-- A frame with the numbers that are read of its text. -/
def readBack (f : Frame) : Frame :=
  ⟨value (NumberText.plain f.minX),value (NumberText.plain f.minY),value (NumberText.plain f.width),
    value (NumberText.plain f.height)⟩

theorem readBack_readIn (hf : (around rs).Usable) :
    (around rs).readBack.ReadIn (previewText rs).toList := by
  obtain ⟨rest,hr⟩ := exists_previewText rs
  refine ⟨_,_,_,_,rest,hr,?_,rfl⟩
  simpa using ⟨(NumberText.reads_plain hf.minX).isLiteral,(NumberText.reads_plain hf.minY).isLiteral,
    (NumberText.reads_plain hf.width).isLiteral,(NumberText.reads_plain hf.height).isLiteral⟩

theorem box_readBack (hf : f.Usable) : f.readBack.box = f.box := by
  simp only [box,readBack,(NumberText.reads_plain hf.minX).toRat_eq,
    (NumberText.reads_plain hf.minY).toRat_eq,(NumberText.reads_plain hf.width).toRat_eq,
    (NumberText.reads_plain hf.height).toRat_eq]

theorem usable_readBack (hf : f.Usable) : f.readBack.Usable := by
  have hn {x : Float} (hx : x.isFinite) (h0 : 0 ≤ x) : 0 ≤ value (NumberText.plain x) := by
    obtain ⟨-,hv,he⟩ := NumberText.reads_plain hx
    rw [le_iff_toRat isFinite_zero hv,he]
    exact (le_iff_toRat isFinite_zero hx).mp h0
  exact ⟨(NumberText.reads_plain hf.minX).isFinite,(NumberText.reads_plain hf.minY).isFinite,
    (NumberText.reads_plain hf.width).isFinite,(NumberText.reads_plain hf.height).isFinite,
    hn hf.width hf.width_nonneg,hn hf.height hf.height_nonneg⟩

/-- The name of infinity is no number, so there is no frame to read of a preview without points. -/
theorem not_readIn_of_isEmpty (h : allPoints rs = []) : ¬g.ReadIn (previewText rs).toList := by
  rintro ⟨a,b,c,d,rest,ht,hl,-⟩
  obtain ⟨rest',hr⟩ := exists_previewText rs
  have hi : NumberText.plain (1/0) = 'I'::"nfinity".toList := by decide +kernel
  rw [ht,List.append_cancel_left_eq,around_of_isEmpty h,hi] at hr
  have ha := hl a List.mem_cons_self
  cases a with
  | nil => exact ne_nil_of_isLiteral ha rfl
  | cons e a =>
    obtain ⟨rfl,-⟩ := List.cons.inj hr
    exact not_isBreak_of_mem ha 'I' List.mem_cons_self (by decide)

end Frame

end Writing

end Inspect
end ExtrusionProfile
