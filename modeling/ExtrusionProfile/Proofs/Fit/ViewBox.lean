import ExtrusionProfile.Fit.Outline
import ExtrusionProfile.Proofs.Number.Numeral
import ExtrusionProfile.Proofs.Path.Spelling

/-! Which texts are view boxes. Blanks around it aside, such a text is four fields between runs of blanks
and commas, each beginning with a number. Where the fields are number literals from end to end, these
are the numbers that a search of the text finds. -/
namespace ExtrusionProfile

namespace ViewBox

open Text Literal
open ExtrusionProfile.Numeral (Begins)

/-- How runs of separators cut a text into fields. There is one between any two fields, and none of its
characters belongs to a field. -/
inductive Splits : List Char → List (List Char) → Prop
  | single {f : List Char} : (∀ c ∈ f, ¬isSeparator c) → Splits f [f]
  | cons {f g r : List Char} {fs : List (List Char)} : (∀ c ∈ f, ¬isSeparator c) →
      (∀ c ∈ g, isSeparator c) → g ≠ [] → (∀ c ∈ r.head?, ¬isSeparator c) → Splits r fs →
      Splits (f ++ (g ++ r)) (f::fs)

section Fields

variable {cs f g r : List Char} {fs : List (List Char)}

theorem fields_single (hf : ∀ c ∈ f, ¬isSeparator c) : fields f = [f] := by
  have hd : f.dropWhile (!isSeparator ·) = [] := by simpa using hf
  rw [fields]
  split
  · rfl
  · rename_i h
    rw [hd] at h
    cases h

theorem dropWhile_append {p : Char → Bool} (hg : ∀ c ∈ g, p c) (hr : ∀ c ∈ r.head?, ¬p c) :
    (g ++ r).dropWhile p = r := by
  rw [List.dropWhile_append_of_pos hg]
  cases r with
  | nil => rfl
  | cons c r => exact List.dropWhile_cons_of_neg (hr c rfl)

theorem fields_append (hf : ∀ c ∈ f, ¬isSeparator c) (hg : ∀ c ∈ g, isSeparator c) (hn : g ≠ [])
    (hr : ∀ c ∈ r.head?, ¬isSeparator c) : fields (f ++ (g ++ r)) = f::fields r := by
  obtain ⟨c,g,rfl⟩ := List.exists_cons_of_ne_nil hn
  obtain ⟨hc,hg⟩ := List.forall_mem_cons.mp hg
  have hp : ∀ c ∈ f, (!isSeparator c) = true := by simpa using hf
  have hd : (f ++ (c::g ++ r)).dropWhile (!isSeparator ·) = c::(g ++ r) :=
    dropWhile_append hp (by simpa using hc)
  have ht : (f ++ (c::g ++ r)).takeWhile (!isSeparator ·) = f := by
    rw [List.takeWhile_append_of_pos hp,List.cons_append,List.takeWhile_cons_of_neg (by simpa using hc),
      List.append_nil]
  rw [fields]
  split
  · rename_i h
    rw [hd] at h
    cases h
  · rename_i h
    rw [hd] at h
    cases h
    rw [ht]
    exact congrArg (fun q => f::fields q) (dropWhile_append hg hr)

theorem splits_fields (cs : List Char) : Splits cs (fields cs) := by
  fun_induction fields cs with
  | case1 cs h => exact .single (by simpa using h)
  | case2 cs c r h _ ih =>
    have hc := List.head?_dropWhile_not (!isSeparator ·) cs
    rw [h] at hc
    have hf : ∀ d ∈ cs.takeWhile (!isSeparator ·), ¬isSeparator d := fun d hd => by
      simpa using List.mem_takeWhile_imp hd
    have hg : ∀ d ∈ c::r.takeWhile isSeparator, isSeparator d :=
      List.forall_mem_cons.mpr ⟨by simpa using hc,fun d hd => List.mem_takeWhile_imp hd⟩
    have hr : ∀ d ∈ (r.dropWhile isSeparator).head?, ¬isSeparator d := fun d hd => by
      have hn := List.head?_dropWhile_not isSeparator r
      rw [Option.mem_def.mp hd] at hn
      simpa using hn
    have hs := Splits.cons hf hg (List.cons_ne_nil _ _) hr ih
    rwa [List.cons_append,List.takeWhile_append_dropWhile,← h,List.takeWhile_append_dropWhile] at hs

/-- The fields of a text are what runs of separators cut it into. -/
theorem fields_eq_iff : fields cs = fs ↔ Splits cs fs := by
  constructor
  · rintro rfl
    exact splits_fields cs
  · intro h
    induction h with
    | single hf => exact fields_single hf
    | cons hf hg hn hr _ ih => rw [fields_append hf hg hn hr,ih]

theorem Splits.not_isSeparator (h : Splits cs fs) : ∀ f ∈ fs, ∀ c ∈ f, ¬isSeparator c := by
  induction h with
  | single hf => exact List.forall_mem_singleton.mpr hf
  | cons hf _ _ _ _ ih => exact List.forall_mem_cons.mpr ⟨hf,ih⟩

end Fields

section Reading

variable {s : List Char} {v : ViewBox Float}

def sides (v : ViewBox Float) : List Float := [v.minX,v.minY,v.width,v.height]

theorem trim_nil : trim [] = [] := rfl

theorem ofText?_eq_some_iff_map :
    ofText? s = some v ↔ (fields (trim s)).map Numeral.leading? = v.sides.map some := by
  obtain ⟨x,y,w,h⟩ := v
  unfold ofText?
  split_ifs with hs
  · obtain rfl := List.isEmpty_iff.mp hs
    rw [trim_nil,fields_single (by simp)]
    simp [sides]
  · split
    · rename_i hm
      simp [hm,sides]
    · rename_i hm
      simp only [reduceCtorEq,false_iff]
      exact hm x y w h

theorem not_isBlank_of_not_isSeparator {c : Char} (h : ¬isSeparator c) : ¬isBlank c :=
  fun hb => h (by simp [isSeparator,hb])

theorem map_leading?_eq_iff {fs : List (List Char)} {xs : List Float}
    (h : ∀ f ∈ fs, ∀ c ∈ f, ¬isSeparator c) :
    fs.map Numeral.leading? = xs.map some ↔ List.Forall₂ Begins fs xs := by
  induction fs generalizing xs with
  | nil => cases xs <;> simp
  | cons f fs ih =>
    obtain ⟨hf,hfs⟩ := List.forall_mem_cons.mp h
    have hb : ∀ c ∈ f.head?, ¬isBlank c := fun c hc =>
      not_isBlank_of_not_isSeparator (hf c (List.mem_of_mem_head? hc))
    cases xs with
    | nil => simp
    | cons x xs =>
      rw [List.map_cons,List.map_cons,List.cons.injEq,ih hfs,List.forall₂_cons,
        Numeral.leading?_eq_some_iff hb]

/-- A view box is read off a text that splits into four fields with a number in front of each. -/
theorem ofText?_eq_some_iff : ofText? s = some v ↔
    ∃ fs, Splits (trim s) fs ∧ fs.length = 4 ∧ [] ∉ fs ∧ List.Forall₂ Begins fs v.sides := by
  rw [ofText?_eq_some_iff_map]
  constructor
  · intro hm
    refine ⟨_,splits_fields _,by simpa [sides] using congrArg List.length hm,fun hn => ?_,
      (map_leading?_eq_iff (splits_fields _).not_isSeparator).mp hm⟩
    have hn := List.mem_map_of_mem (f:=Numeral.leading?) hn
    rw [hm] at hn
    obtain ⟨x,-,hx⟩ := List.mem_map.mp hn
    cases hx
  · rintro ⟨fs,hs,-,-,h⟩
    rw [fields_eq_iff.mpr hs]
    exact (map_leading?_eq_iff hs.not_isSeparator).mpr h

end Reading

section Rows

/-- A number literal with the separators in front of it. -/
structure Entry where
  gap : List Char
  number : List Char
  gap_isSeparator : ∀ c ∈ gap, isSeparator c
  isLiteral : IsLiteral number

def Entry.text (e : Entry) : List Char := e.gap ++ e.number

/-- Number literals with separators between them, and blanks around. -/
structure Row where
  before : List Char
  entries : List Entry
  after : List Char
  before_isBlank : ∀ c ∈ before, isBlank c
  after_isBlank : ∀ c ∈ after, isBlank c
  first : ∀ e ∈ entries.head?, e.gap = []
  apart : ∀ e ∈ entries.tail, e.gap ≠ []

namespace Row

variable (r : Row)

def text : List Char := r.before ++ (r.entries.flatMap Entry.text ++ r.after)

def literals : List (List Char) := r.entries.map Entry.number

end Row

theorem isPathSeparator {c : Char} (h : isSeparator c) : Path.isSeparator c := by
  simp only [isSeparator,Bool.or_eq_true,decide_eq_true_eq] at h
  rcases h with h | rfl
  · exact Path.isSeparator_of_isBlank h
  · decide

theorem not_isSeparator_of_mem {t : List Char} (ht : IsLiteral t) : ∀ c ∈ t, ¬isSeparator c :=
  fun c hc h => not_isBreak_of_mem ht c hc (Path.isBreak_of_isSeparator (isPathSeparator h))

theorem leading?_literal {t : List Char} (ht : IsLiteral t) :
    Numeral.leading? t = some (value t) := by
  have hb : ∀ c ∈ t.head?, ¬isBlank c := fun c hc =>
    not_isBlank_of_not_isSeparator (not_isSeparator_of_mem ht c (List.mem_of_mem_head? hc))
  have hl : IsLongest t t := ⟨ht,List.prefix_rfl,fun u _ hu => hu.length_le⟩
  exact (Numeral.leading?_eq_some_iff hb).mpr (.literal hl (denotes_value ht))

theorem trim_append {b m a : List Char} (hb : ∀ c ∈ b, isBlank c) (ha : ∀ c ∈ a, isBlank c)
    (hm : m ≠ []) (hh : ∀ c ∈ m.head?, ¬isBlank c) (hl : ∀ c ∈ m.getLast?, ¬isBlank c) :
    trim (b ++ (m ++ a)) = m := by
  have hleft : trimLeft (b ++ (m ++ a)) = m ++ a :=
    dropWhile_append hb (by rwa [List.head?_append_of_ne_nil _ hm])
  have hright : (a.reverse ++ m.reverse).dropWhile isBlank = m.reverse :=
    dropWhile_append (by simpa using ha) (by rwa [List.head?_reverse])
  rw [trim,hleft,trimRight,List.reverse_append,hright,List.reverse_reverse]

section Text

variable (t : List Char) (es : List Entry)

theorem splits_entries (ht : IsLiteral t) (h : ∀ e ∈ es, e.gap ≠ []) :
    Splits (t ++ es.flatMap Entry.text) (t::es.map Entry.number) := by
  induction es generalizing t with
  | nil =>
    rw [List.flatMap_nil,List.append_nil]
    exact .single (not_isSeparator_of_mem ht)
  | cons e es ih =>
    obtain ⟨he,hes⟩ := List.forall_mem_cons.mp h
    have hn : ∀ c ∈ (e.number ++ es.flatMap Entry.text).head?, ¬isSeparator c := fun c hc => by
      rw [List.head?_append_of_ne_nil _ (ne_nil_of_isLiteral e.isLiteral)] at hc
      exact not_isSeparator_of_mem e.isLiteral c (List.mem_of_mem_head? hc)
    rw [List.flatMap_cons,Entry.text,List.append_assoc]
    exact .cons (not_isSeparator_of_mem ht) e.gap_isSeparator he hn (ih _ e.isLiteral hes)

theorem getLast?_entries (ht : IsLiteral t) :
    ∀ c ∈ (t ++ es.flatMap Entry.text).getLast?, ¬isSeparator c := by
  induction es generalizing t with
  | nil =>
    rw [List.flatMap_nil,List.append_nil]
    exact fun c hc => not_isSeparator_of_mem ht c (List.mem_of_getLast? hc)
  | cons e es ih =>
    have hn : e.number ++ es.flatMap Entry.text ≠ [] := by
      simp [ne_nil_of_isLiteral e.isLiteral]
    rw [List.flatMap_cons,Entry.text,List.append_assoc,← List.append_assoc,
      List.getLast?_append_of_ne_nil _ hn]
    exact ih _ e.isLiteral

end Text

namespace Row

theorem text_eq {e : Entry} {es : List Entry} (r : Row) (h : r.entries = e::es) :
    r.text = r.before ++ ((e.number ++ es.flatMap Entry.text) ++ r.after) := by
  have hg : e.gap = [] := r.first e (by rw [h]; rfl)
  rw [text,h,List.flatMap_cons,Entry.text,hg,List.nil_append]

theorem fields_trim (r : Row) (h : r.entries ≠ []) : fields (trim r.text) = r.literals := by
  obtain ⟨e,es,he⟩ := List.exists_cons_of_ne_nil h
  have hn := ne_nil_of_isLiteral e.isLiteral
  have hs := splits_entries e.number es e.isLiteral (by simpa [he] using r.apart)
  rw [r.text_eq he,trim_append r.before_isBlank r.after_isBlank (by simp [hn]),literals,he]
  · exact fields_eq_iff.mpr hs
  · intro c hc
    rw [List.head?_append_of_ne_nil _ hn] at hc
    exact not_isBlank_of_not_isSeparator
      (not_isSeparator_of_mem e.isLiteral c (List.mem_of_mem_head? hc))
  · exact fun c hc => not_isBlank_of_not_isSeparator (getLast?_entries _ _ e.isLiteral c hc)

theorem ofText?_text (r : Row) {v : ViewBox Float} :
    ofText? r.text = some v ↔ r.literals.map value = v.sides := by
  rw [ofText?_eq_some_iff_map]
  by_cases h : r.entries = []
  · -- Blanks alone are one empty field.
    have ht : trim r.text = [] := by
      have hb : r.text.dropWhile isBlank = [] := by
        simpa [text,h,or_imp,forall_and] using ⟨r.before_isBlank,r.after_isBlank⟩
      rw [trim,trimLeft,hb]
      rfl
    rw [ht,fields_single (by simp),literals,h]
    simp [sides]
  · have hl : ∀ t ∈ r.literals, Numeral.leading? t = some (value t) := by
      intro t ht
      obtain ⟨e,-,rfl⟩ := List.mem_map.mp ht
      exact leading?_literal e.isLiteral
    have hm : r.literals.map Numeral.leading? = (r.literals.map value).map some := by
      rw [List.map_map]
      exact List.map_congr_left hl
    rw [r.fields_trim h,hm]
    exact (List.map_injective_iff.mpr (Option.some_injective _)).eq_iff

end Row

end Rows

section Numbers

def Entry.word (e : Entry) : Path.Word where
  gap := e.gap
  lexeme := .literal e.number
  gap_isSeparator c hc := isPathSeparator (e.gap_isSeparator c hc)
  isProper := e.isLiteral

theorem isChain_word {es : List Entry} (h : ∀ e ∈ es.tail, e.gap ≠ []) :
    (es.map Entry.word).IsChain fun v w => w.gap ≠ [] ∨ v.lexeme.MayTouch w.lexeme := by
  induction es with
  | nil => exact .nil
  | cons e es ih =>
    cases es with
    | nil => exact .singleton _
    | cons d es =>
      obtain ⟨hd,hes⟩ := List.forall_mem_cons.mp h
      exact List.isChain_cons_cons.mpr ⟨.inl hd,ih hes⟩

theorem values_tokensOf (o : ℕ) (es : List Entry) :
    ((Path.tokensOf o (es.map Entry.word)).filterMap Path.Token.numeral?).map Path.Numeral.value =
      es.map fun e => value e.number := by
  induction es generalizing o with
  | nil => rfl
  | cons e es ih => exact congrArg (value e.number::·) (ih _)

theorem Row.numbers_text (r : Row) : numbers r.text = r.literals.map value := by
  have hb : ∀ c ∈ r.before, Path.isSeparator c := fun c hc =>
    Path.isSeparator_of_isBlank (r.before_isBlank c hc)
  have ha : ∀ c ∈ r.after, Path.isSeparator c := fun c hc =>
    Path.isSeparator_of_isBlank (r.after_isBlank c hc)
  have hw : r.entries.flatMap Entry.text = (r.entries.map Entry.word).flatMap Path.Word.text := by
    rw [List.flatMap_map]
    rfl
  rw [← Path.values_tokensFrom 0,text,Path.tokensFrom_gap hb,hw,
    Path.tokensFrom_words _ ha (isChain_word r.apart),values_tokensOf,literals,List.map_map]
  rfl

/-- Of number literals in a row, four are a view box with their values, as a search finds them, and
any others are none. A view box is read off any text that blanks and commas split into four fields,
none of them empty, with a number in front of each, and off no other. -/
theorem ofText?_fields (r : Row) (s : List Char) :
    (numbers r.text = r.literals.map value ∧ (∀ t ∈ r.literals, Denotes t (value t)) ∧
      ((ofText? r.text).isSome ↔ r.literals.length = 4) ∧
      ∀ v, ofText? r.text = some v ↔ v.sides = numbers r.text) ∧
    ∀ v, ofText? s = some v ↔
      ∃ fs, Splits (trim s) fs ∧ fs.length = 4 ∧ [] ∉ fs ∧ List.Forall₂ Begins fs v.sides := by
  have hv : ∀ v, ofText? r.text = some v ↔ v.sides = numbers r.text := fun v => by
    rw [r.ofText?_text,r.numbers_text,eq_comm]
  refine ⟨⟨r.numbers_text,fun t ht => ?_,?_,hv⟩,fun v => ofText?_eq_some_iff⟩
  · obtain ⟨e,-,rfl⟩ := List.mem_map.mp ht
    exact denotes_value e.isLiteral
  · rw [Option.isSome_iff_exists,← List.length_map value,← r.numbers_text]
    constructor
    · rintro ⟨v,h⟩
      rw [← (hv v).mp h]
      rfl
    · intro h
      match hn : numbers r.text,h with
      | [x,y,w,h],_ => exact ⟨⟨x,y,w,h⟩,(hv _).mpr hn.symm⟩

deriving instance DecidableEq for ViewBox

/-- Four numbers, with a comma between them, or a blank, or all kinds of both. -/
def mixedRow : Row where
  before := [' ']
  entries := [
    ⟨[],"-10".toList,by simp,by decide +kernel⟩,
    ⟨[','],"-5".toList,by simp; decide,by decide +kernel⟩,
    ⟨[' ',',',Char.ofNat 0x2003],"20.".toList,by simp; decide,by decide +kernel⟩,
    ⟨['\t'],".5e1".toList,by simp; decide,by decide +kernel⟩]
  after := ['\n']
  before_isBlank := by simp; decide
  after_isBlank := by simp; decide
  first := by simp
  apart := by simp

/-- They are a view box, and so are fields that numbers are only in front of. -/
theorem ofText?_fields_mixedRow :
    ofText? mixedRow.text = some ⟨-10,-5,20,5⟩ ∧ [-10,-5,20,5] = numbers mixedRow.text ∧
      ".5e1".toList ∈ mixedRow.literals ∧ Denotes ".5e1".toList (value ".5e1".toList) ∧
      ofText? "0,-.5.5 10px,+Infinity%".toList = some ⟨0,-0.5,10,infinity⟩ ∧
      ∃ fs, Splits (trim "0,-.5.5 10px,+Infinity%".toList) fs ∧ fs.length = 4 ∧ [] ∉ fs ∧
        List.Forall₂ Begins fs [0,-0.5,10,infinity] := by
  have hr : ofText? mixedRow.text = some ⟨-10,-5,20,5⟩ := by decide +kernel
  have hs : ofText? "0,-.5.5 10px,+Infinity%".toList = some ⟨0,-0.5,10,infinity⟩ := by decide +kernel
  have hm : ".5e1".toList ∈ mixedRow.literals := by simp [mixedRow,Row.literals]
  obtain ⟨⟨-,hd,-,hv⟩,hf⟩ := ofText?_fields mixedRow "0,-.5.5 10px,+Infinity%".toList
  exact ⟨hr,(hv _).mp hr,hm,hd _ hm,hs,(hf _).mp hs⟩

end Numbers

end ViewBox

end ExtrusionProfile
