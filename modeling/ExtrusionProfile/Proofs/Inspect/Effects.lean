import ExtrusionProfile.Inspect.Folder
import Mathlib.Data.List.Basic

/-! What a run of the inspect command does to files, and how it ends. A run is a list of acts, done
one after another until one of them fails. The only act that touches a file is the writing of the
preview. It comes behind the whole report, and there is none in a run that refuses its arguments or
its document, finds nothing to extrude, or is asked for no preview. -/
namespace ExtrusionProfile
namespace Inspect

namespace Folder

variable {f g : Folder} {names : List (List Char)} {path text : List Char}

theorem file?_put_of_ne {others : List (List Char)} (h : others ≠ names) :
    (f.put names text).file? others = f.file? others := by
  have hb : (names == others) = false := beq_false_of_ne h.symm
  have hm : ∀ es : List (List (List Char) × List Char),
      (es.map fun e => if e.1 = names then (names,text) else e).find? (·.1 == others) =
        es.find? (·.1 == others) := by
    intro es
    induction es with
    | nil => rfl
    | cons e es ih =>
      rw [List.map_cons,List.find?_cons,List.find?_cons,ih]
      split_ifs with he
      · simp [he,hb]
      · rfl
  unfold put
  split
  · exact congrArg (Option.map Prod.snd) (hm f.files)
  · simp [file?,List.find?_append,hb]

theorem exists_of_write (h : f.write path text = .ok g) :
    ∃ names, f.locate? path = some names ∧ g = f.put names text := by
  unfold write at h
  split at h
  · cases h
  · rename_i names hn
    split at h
    · cases h
    · exact ⟨names,hn,(Except.ok.inj h).symm⟩

theorem file?_of_write (h : f.write path text = .ok g) (hn : f.locate? path ≠ some names) :
    g.file? names = f.file? names := by
  obtain ⟨names',hn',rfl⟩ := exists_of_write h
  refine file?_put_of_ne ?_
  rintro rfl
  exact hn hn'

end Folder

/-- One thing that a run does. -/
inductive Act (ε : Type)
  | out (line : String)
  | err (line : String)
  | write (path text : List Char)
  | exit (code : ℕ)
  | fail (fault : FileFault ⊕ ε)

variable {ε : Type}

/-- Do one thing; behind a fault nothing more is done. -/
def Answer.perform (a : Answer ε) (act : Act ε) : Answer ε :=
  match a.ending with
  | .error _ => a
  | .ok _ =>
    match act with
    | .out l => { a with lines := a.lines.append (.ofOut [l]) }
    | .err l => { a with lines := a.lines.append (.ofErr [l]) }
    | .write p t =>
      match a.folder.write p t with
      | .error e => { a with ending := .error (.inl e) }
      | .ok g => { a with folder := g }
    | .exit c => { a with ending := .ok c }
    | .fail e => { a with ending := .error e }

/-- Printing lines, each stream in order. -/
def Lines.acts (ls : Lines) : List (Act ε) := ls.out.map .out ++ ls.err.map .err

def Ending.acts : Ending ε → List (Act ε)
  | .exit c => [.exit c]
  | .fileFault e => [.fail (.inl e)]
  | .clipFault e => [.fail (.inr e)]
  | .preview p t => [.write p t,.out (wroteLine p)]

/-- What is done in a run in a folder, as far as nothing fails. -/
def acts (t : Tools ε) (f : Folder) (args : List (List Char)) : List (Act ε) :=
  let o := examine t (.ofList args) f.entry
  o.lines.acts ++ o.ending.acts

namespace Answer

variable {a : Answer ε} {c : ℕ}

theorem foldl_perform_out (h : a.ending = .ok c) (ls : List String) :
    (ls.map Act.out).foldl perform a = { a with lines := a.lines.append (.ofOut ls) } := by
  induction ls generalizing a with
  | nil => simp [Lines.append,Lines.ofOut]
  | cons l ls ih =>
    rw [List.map_cons,List.foldl_cons,ih (by simp [perform,h])]
    simp [perform,h,Lines.append,Lines.ofOut]

theorem foldl_perform_err (h : a.ending = .ok c) (ls : List String) :
    (ls.map Act.err).foldl perform a = { a with lines := a.lines.append (.ofErr ls) } := by
  induction ls generalizing a with
  | nil => simp [Lines.append,Lines.ofErr]
  | cons l ls ih =>
    rw [List.map_cons,List.foldl_cons,ih (by simp [perform,h])]
    simp [perform,h,Lines.append,Lines.ofErr]

theorem foldl_perform_lines (h : a.ending = .ok c) (ls : Lines) :
    ls.acts.foldl perform a = { a with lines := a.lines.append ls } := by
  rw [Lines.acts,List.foldl_append,foldl_perform_out h,
    foldl_perform_err (a:=⟨a.lines.append (.ofOut ls.out),a.ending,a.folder⟩) h]
  simp [Lines.append,Lines.ofOut,Lines.ofErr]

theorem folder_perform {act : Act ε} (h : ∀ p t, act ≠ .write p t) :
    (a.perform act).folder = a.folder := by
  unfold perform
  split
  · rfl
  · cases act with
    | write p t => exact absurd rfl (h p t)
    | out | err | exit | fail => rfl

theorem folder_foldl_perform {as : List (Act ε)} (h : ∀ p t, .write p t ∉ as) :
    (as.foldl perform a).folder = a.folder := by
  induction as generalizing a with
  | nil => rfl
  | cons act as ih =>
    rw [List.foldl_cons,ih fun p t hm => h p t (List.mem_cons_of_mem _ hm)]
    exact folder_perform fun p t he => h p t (he ▸ List.mem_cons_self)

theorem file?_perform_write {p t : List Char} {names : List (List Char)}
    (h : a.folder.locate? p ≠ some names) :
    (a.perform (.write p t)).folder.file? names = a.folder.file? names := by
  unfold perform
  split
  · rfl
  · dsimp only
    split
    · rfl
    · rename_i g hg
      exact Folder.file?_of_write hg h

end Answer

/-- A run prints its lines and then does what its ending asks for. -/
theorem runBy_eq (t : Tools ε) (f : Folder) (args : List (List Char)) :
    runBy t f args = (examine t (.ofList args) f.entry).ending.acts.foldl Answer.perform
      ⟨(examine t (.ofList args) f.entry).lines,.ok 0,f⟩ := by
  unfold runBy
  generalize examine t (.ofList args) f.entry = o
  rcases o with ⟨ls,e⟩
  cases e with
  | exit c => rfl
  | fileFault e => rfl
  | clipFault e => rfl
  | preview p t =>
    dsimp only
    cases hw : f.write p t <;> simp [Ending.acts,Answer.perform,hw]

theorem runBy_eq_foldl (t : Tools ε) (f : Folder) (args : List (List Char)) :
    runBy t f args = (acts t f args).foldl Answer.perform ⟨.none,.ok 0,f⟩ := by
  rw [runBy_eq,acts,List.foldl_append,Answer.foldl_perform_lines (c:=0) rfl]
  rfl

section Arguments

variable {args : List (List Char)} {flag v : List Char}

theorem valueOf?_eq_some_iff :
    valueOf? flag args = some v ↔ ∃ l r, args = l ++ flag::v::r ∧ flag ∉ l := by
  induction args with
  | nil => simp [valueOf?]
  | cons a args ih =>
    rw [valueOf?]
    split
    · rename_i ha
      subst ha
      constructor
      · intro h
        obtain ⟨r,rfl⟩ := List.head?_eq_some_iff.mp h
        exact ⟨[],r,rfl,List.not_mem_nil⟩
      · rintro ⟨l,r,he,hl⟩
        cases l with
        | nil => cases he; rfl
        | cons b l => cases he; exact absurd List.mem_cons_self hl
    · rename_i ha
      rw [ih]
      constructor
      · rintro ⟨l,r,rfl,hl⟩
        exact ⟨a::l,r,rfl,List.not_mem_cons_of_ne_of_not_mem (Ne.symm ha) hl⟩
      · rintro ⟨l,r,he,hl⟩
        cases l with
        | nil => cases he; exact absurd rfl ha
        | cons b l => cases he; exact ⟨l,r,rfl,fun hm => hl (List.mem_cons_of_mem _ hm)⟩

/-- Whether a text that is not empty stands right behind the first `--preview`. -/
def NamesPreview (args : List (List Char)) (p : List Char) : Prop :=
  ∃ l r, args = l ++ "--preview".toList::p::r ∧ "--preview".toList ∉ l ∧ p ≠ []

theorem preview_eq_some_iff {p : List Char} :
    (Arguments.ofList args).preview = some p ↔ NamesPreview args p := by
  change nonempty? (valueOf? "--preview".toList args) = some p ↔ _
  rw [nonempty?,Option.filter_eq_some_iff,valueOf?_eq_some_iff]
  constructor
  · rintro ⟨⟨l,r,he,hl⟩,hp⟩
    exact ⟨l,r,he,hl,by simpa using hp⟩
  · rintro ⟨l,r,he,hl,hp⟩
    exact ⟨⟨l,r,he,hl⟩,by simpa using hp⟩

end Arguments

/-- A run that ends before it has a document to report on. -/
inductive Refused (t : Tools ε) (f : Folder) (a : Arguments) : Prop
  | usage (h : a.path = none)
  | missing (path : List Char) (h : a.path = some path) (hf : f.entry path = .missing)
  | unreadable (path text : List Char) (e : Drawing.Fault) (h : a.path = some path)
      (hf : f.entry path = .file text)
      (hr : importText t a path text = .error e)

/-- A run that reads its document and finds this to extrude, or nothing. -/
def Imports (t : Tools ε) (f : Folder) (a : Arguments) (i : Option Drawing.Imported) : Prop :=
  ∃ path text r, a.path = some path ∧ f.entry path = .file text ∧
    importText t a path text = .ok r ∧ r.imported = i

/-- A run with the same arguments, but for the preview. -/
def report (t : Tools ε) (f : Folder) (a : Arguments) : Outcome ε :=
  examine t { a with preview := none } f.entry

/-- How a run goes, beside its report. -/
inductive Course (t : Tools ε) (f : Folder) (a : Arguments) (r : Outcome ε) : Outcome ε → Prop
  | refused (h : Refused t f a) (he : r.ending = .exit 1) : Course t f a r r
  | broken (e : FileFault ⊕ ε) (he : r.ending.acts = [.fail e])
      (h : ¬Refused t f a) : Course t f a r r
  | empty (h : Imports t f a none) (he : r.ending = .exit 0) : Course t f a r r
  | plain (i : Drawing.Imported) (h : Imports t f a (some i)) (hp : a.preview = none)
      (he : r.ending = .exit 0) : Course t f a r r
  | preview (i : Drawing.Imported) (p text : List Char) (h : Imports t f a (some i))
      (hp : a.preview = some p) (he : r.ending = .exit 0) : Course t f a r ⟨r.lines,.preview p text⟩

section Course

variable {t : Tools ε} {f : Folder} {a : Arguments}

theorem not_refused_of_directory {path : List Char} (h : a.path = some path)
    (hf : f.entry path = .directory) : ¬Refused t f a := by
  rintro (hn | ⟨q,hq,hm⟩ | ⟨q,_,e,hq,ht,-⟩)
  · rw [h] at hn; cases hn
  · rw [h] at hq; cases hq; rw [hf] at hm; cases hm
  · rw [h] at hq; cases hq; rw [hf] at ht; cases ht

theorem Imports.not_refused {i : Option Drawing.Imported} (hi : Imports t f a i) :
    ¬Refused t f a := by
  obtain ⟨path,text,r,h,hf,hr,-⟩ := hi
  rintro (hn | ⟨q,hq,hm⟩ | ⟨q,_,e,hq,ht,he⟩)
  · rw [h] at hn; cases hn
  · rw [h] at hq; cases hq; rw [hf] at hm; cases hm
  · rw [h] at hq; cases hq; rw [hf] at ht; cases ht; rw [hr] at he; cases he

theorem Imports.unique {i j : Option Drawing.Imported} (hi : Imports t f a i)
    (hj : Imports t f a j) : i = j := by
  obtain ⟨path,text,r,h,hf,hr,rfl⟩ := hi
  obtain ⟨path',text',r',h',hf',hr',rfl⟩ := hj
  cases h.symm.trans h'
  cases hf.symm.trans hf'
  cases hr.symm.trans hr'
  rfl

theorem course_request {i : Drawing.Imported} (h : Imports t f a (some i)) (ls : Lines) :
    Course t f a (examineRequest t { a with preview := none } ls i) (examineRequest t a ls i) := by
  unfold examineRequest
  cases Profile.footprintBy t.clipper i.request with
  | error e => exact .broken (.inr e) rfl h.not_refused
  | ok regions =>
    cases hp : a.preview with
    | none => exact .plain i h hp rfl
    | some p => exact .preview i p _ h hp rfl

theorem course_text {path text : List Char} (hp : a.path = some path)
    (hf : f.entry path = .file text) (ls : Lines) :
    Course t f a (examineText t { a with preview := none } path text ls)
      (examineText t a path text ls) := by
  have ho : importText t { a with preview := none } path text = importText t a path text := rfl
  simp only [examineText,ho]
  cases hr : importText t a path text with
  | error e => exact .refused (.unreadable path text e hp hf hr) rfl
  | ok r =>
    dsimp only
    cases hi : r.imported with
    | none => exact .empty ⟨path,text,r,hp,hf,hr,hi⟩ rfl
    | some i => exact course_request ⟨path,text,r,hp,hf,hr,hi⟩ _

theorem course (t : Tools ε) (f : Folder) (a : Arguments) :
    Course t f a (report t f a) (examine t a f.entry) := by
  unfold report examine
  cases hp : a.path with
  | none => exact .refused (.usage hp) rfl
  | some path =>
    dsimp only
    cases hf : f.entry path with
    | missing => exact .refused (.missing path hp hf) rfl
    | directory => exact .broken (.inl .isDirectory) rfl (not_refused_of_directory hp hf)
    | file text =>
      have ht := course_text (t:=t) hp hf (.ofOut (header path))
      rwa [hp] at ht

end Course

theorem write_notMem_lines (ls : Lines) (p text : List Char) :
    (.write p text : Act ε) ∉ ls.acts := by
  simp [Lines.acts]

section Runs

variable (t : Tools ε) (f : Folder) (args : List (List Char))

/-- A run writes nothing, or a preview behind its whole report. -/
theorem acts_cases :
    (∀ p text, .write p text ∉ acts t f args) ∨
      ∃ i p text, Imports t f (.ofList args) (some i) ∧ NamesPreview args p ∧
        (report t f (.ofList args)).ending = .exit 0 ∧
        acts t f args =
          (report t f (.ofList args)).lines.acts ++ [.write p text,.out (wroteLine p)] := by
  have hc := course t f (.ofList args)
  unfold acts
  generalize examine t (.ofList args) f.entry = o at hc
  have hn : ∀ {ls : Lines} {e : List (Act ε)}, (∀ p text, .write p text ∉ e) →
      ∀ p text, (.write p text : Act ε) ∉ ls.acts ++ e := fun he p text hm =>
    (List.mem_append.mp hm).elim (write_notMem_lines _ p text) (he p text)
  cases hc with
  | refused h he => exact .inl (hn (by simp [he,Ending.acts]))
  | broken e he h => exact .inl (hn (by simp [he]))
  | empty h he => exact .inl (hn (by simp [he,Ending.acts]))
  | plain i h hp he => exact .inl (hn (by simp [he,Ending.acts]))
  | preview i p text h hp he => exact .inr ⟨i,p,text,h,preview_eq_some_iff.mp hp,he,rfl⟩

theorem ending_runBy :
    (Refused t f (.ofList args) ∧ (runBy t f args).ending = .ok 1) ∨
      (¬Refused t f (.ofList args) ∧ ∀ c, (runBy t f args).ending = .ok c → c = 0) := by
  have hc := course t f (.ofList args)
  rw [runBy_eq]
  generalize examine t (.ofList args) f.entry = o at hc
  have hz : ∀ c, (.ok 0 : Except (FileFault ⊕ ε) ℕ) = .ok c → c = 0 := fun c h =>
    (Except.ok.inj h).symm
  cases hc with
  | refused h he => exact .inl ⟨h,by rw [he]; rfl⟩
  | broken e he h =>
    refine .inr ⟨h,fun c hr => ?_⟩
    rw [he] at hr
    cases hr
  | empty h he => exact .inr ⟨h.not_refused,by rw [he]; exact hz⟩
  | plain i h hp he => exact .inr ⟨h.not_refused,by rw [he]; exact hz⟩
  | preview i p text h hp he =>
    refine .inr ⟨h.not_refused,fun c hr => ?_⟩
    cases hw : f.write p text with
    | error e => simp [Ending.acts,Answer.perform,hw] at hr
    | ok g =>
      simp only [Ending.acts,List.foldl_cons,List.foldl_nil,Answer.perform,hw] at hr
      exact hz c hr

theorem file?_foldl_perform {a : Answer ε} {l r : List (Act ε)} {p text : List Char}
    {names : List (List Char)} (hl : ∀ p text, .write p text ∉ l)
    (hr : ∀ p text, .write p text ∉ r) (h : a.folder.locate? p ≠ some names) :
    ((l ++ .write p text::r).foldl Answer.perform a).folder.file? names =
      a.folder.file? names := by
  rw [List.foldl_append,List.foldl_cons,Answer.folder_foldl_perform hr,
    Answer.file?_perform_write (by rwa [Answer.folder_foldl_perform hl]),
    Answer.folder_foldl_perform hl]

/-- No file is touched in a run that refuses its arguments or its document, finds nothing to extrude
or is asked for no preview. Any other run writes at most the file that the preview is to be, behind
the whole report. A run ends with 1 when it refuses, and else with 0 unless something breaks. -/
theorem run_effects :
    runBy t f args = (acts t f args).foldl Answer.perform ⟨.none,.ok 0,f⟩ ∧
    (Refused t f (.ofList args) ∨ Imports t f (.ofList args) none ∨ (∀ p, ¬NamesPreview args p) →
      (∀ p text, .write p text ∉ acts t f args) ∧ (runBy t f args).folder = f) ∧
    (∀ p, NamesPreview args p → ∀ names, f.locate? p ≠ some names →
      (runBy t f args).folder.file? names = f.file? names) ∧
    (∀ l p text r, acts t f args = l ++ .write p text::r → NamesPreview args p ∧
      l = (report t f (.ofList args)).lines.acts ∧ (report t f (.ofList args)).ending = .exit 0 ∧
        r = [.out (wroteLine p)]) ∧
    ((runBy t f args).ending = .ok 1 ↔ Refused t f (.ofList args)) ∧
    ∀ c, (runBy t f args).ending = .ok c → c = 0 ∨ c = 1 := by
  have hq : ∀ {p q}, NamesPreview args p → NamesPreview args q → p = q := fun hp hq =>
    Option.some.inj ((preview_eq_some_iff.mpr hp).symm.trans (preview_eq_some_iff.mpr hq))
  have ho : ∀ (q : List Char) p text, (.write p text : Act ε) ∉ [.out (wroteLine q)] := by simp
  refine ⟨runBy_eq_foldl t f args,?_,?_,?_,?_,?_⟩
  · intro h
    rcases acts_cases t f args with hn | ⟨i,p,text,hi,hp,-⟩
    · refine ⟨hn,?_⟩
      rw [runBy_eq_foldl,Answer.folder_foldl_perform hn]
    · rcases h with h | h | h
      · exact absurd h hi.not_refused
      · exact absurd (hi.unique h) (Option.some_ne_none i)
      · exact absurd hp (h p)
  · intro p hp names hl
    rw [runBy_eq_foldl]
    rcases acts_cases t f args with hn | ⟨i,q,text,-,hq',-,ha⟩
    · rw [Answer.folder_foldl_perform hn]
    · obtain rfl := hq hp hq'
      rw [ha]
      exact file?_foldl_perform (write_notMem_lines _) (ho p) hl
  · intro l p text r h
    rcases acts_cases t f args with hn | ⟨i,q,text',-,hq',he,ha⟩
    · exact absurd (h ▸ List.mem_append_right l List.mem_cons_self) (hn p text)
    · rw [ha,List.append_cons_inj_of_notMem (write_notMem_lines _ p text) (ho q p text)] at h
      obtain ⟨rfl,hw,rfl⟩ := h
      cases hw
      exact ⟨hq',rfl,he,rfl⟩
  · rcases ending_runBy t f args with ⟨hr,he⟩ | ⟨hr,he⟩
    · exact iff_of_true he hr
    · exact iff_of_false (fun h => absurd (he 1 h) (by decide)) hr
  · intro c h
    rcases ending_runBy t f args with ⟨-,he⟩ | ⟨-,he⟩
    · exact .inr (Except.ok.inj (h.symm.trans he))
    · exact .inl (he c h)

end Runs

end Inspect
end ExtrusionProfile
