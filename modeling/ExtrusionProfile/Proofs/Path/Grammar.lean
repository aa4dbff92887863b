import ExtrusionProfile.Proofs.Path.Canvas
import ExtrusionProfile.Proofs.Path.Groups
import Mathlib.Data.List.Basic

/-! The grammar of path data. Tokens are drawn when they begin with a moveto and no number
stands right behind a closepath, whatever else is missing or left over. A fault tells the
first place where they break one of the two rules. -/
namespace ExtrusionProfile
namespace Path

def leading : List Token → List Numeral
  | .number n::ts => n::leading ts
  | _ => []

/-- Tokens, if there are any, begin with a moveto. -/
def BeginsWithMoveto (ts : List Token) : Prop :=
  ∀ u ∈ ts.head?, ∃ c o, u = .command c o ∧ c.family = .moveto

/-- Somewhere a number stands right behind a closepath. -/
def NumberBehindClose (ts : List Token) : Prop :=
  ∃ ps c o n us, ts = ps ++ .command c o::.number n::us ∧ c.family = .closepath

/-- The fault that tokens are blamed for: a first token that is no moveto, and otherwise the
first numbers behind a closepath. Numbers are quoted up to the next command. -/
inductive Blamed : List Token → Fault → Prop
  | command {c : Command} {o : ℕ} {us : List Token} (h : c.family ≠ .moveto) :
    Blamed (.command c o::us) ⟨.noMoveto,[c.letter],o⟩
  | number {n : Numeral} {us : List Token} :
    Blamed (.number n::us) ⟨.noMoveto,spelled (n::leading us),n.offset⟩
  | close {ts ps : List Token} {c : Command} {o : ℕ} {n : Numeral} {us : List Token}
    (hm : BeginsWithMoveto ts) (h : ts = ps ++ .command c o::.number n::us)
    (hc : c.family = .closepath) (hp : ¬NumberBehindClose (ps ++ [.command c o])) :
    Blamed ts ⟨.numbersBehindClose c,spelled (n::leading us),n.offset⟩

section Runs

theorem leading_eq (ts : List Token) : leading ts = (runs ts).1 := by
  induction ts with
  | nil => rfl
  | cons t ts ih => cases t <;> simp [leading,runs,ih]

theorem runs_append_cons (ps : List Token) (c : Command) (o : ℕ) (us : List Token) :
    runs (ps ++ .command c o::us) =
      ((runs ps).1,(runs ps).2 ++ ⟨c,o,leading us⟩::(runs us).2) := by
  rw [leading_eq]
  exact runs_append_command ps _ rfl

theorem exists_tokens {ts : List Token} {qs ss : List Run} {r : Run}
    (h : (runs ts).2 = qs ++ r::ss) :
    ∃ ps us, ts = ps ++ .command r.command r.offset::(r.numbers.map .number ++ us) ∧
      (runs ps).2 = qs ∧ leading us = [] := by
  refine ⟨(runs ts).1.map .number ++ qs.flatMap Run.tokens,ss.flatMap Run.tokens,?_,?_,?_⟩
  · have ht := (runs_append ts).symm
    rw [h] at ht
    simpa [Run.tokens] using ht
  · rw [runs_number_append,runs_flatMap_tokens]
  · rw [leading_eq,runs_flatMap_tokens]

end Runs

def Run.fault? (r : Run) : Option Fault :=
  match r.command.family,r.numbers with
  | .closepath,n::ns => some (.stray (.numbersBehindClose r.command) n ns)
  | _,_ => none

theorem Run.fault?_eq_some_iff {r : Run} {f : Fault} :
    r.fault? = some f ↔ r.command.family = .closepath ∧
      ∃ n ns, r.numbers = n::ns ∧ f = .stray (.numbersBehindClose r.command) n ns := by
  unfold fault?
  split
  · rename_i n ns hf hn
    constructor
    · intro h
      exact ⟨hf,n,ns,hn,(Option.some.inj h).symm⟩
    · rintro ⟨-,m,ms,hm,rfl⟩
      cases hn.symm.trans hm
      rfl
  · rename_i h
    simp only [reduceCtorEq,false_iff]
    rintro ⟨hf,n,ns,hn,-⟩
    exact h n ns hf hn

theorem Run.fault?_eq_none {r : Run} (h : r.command.family ≠ .closepath) : r.fault? = none := by
  refine Option.eq_none_iff_forall_ne_some.mpr fun f hf => h ?_
  exact (Run.fault?_eq_some_iff.mp hf).1

namespace Canvas

variable (t : Tessellation) (k : Canvas)

theorem drawRun_eq_error_iff {r : Run} {f : Fault} :
    k.drawRun t r = .error f ↔ r.fault? = some f := by
  by_cases hf : r.command.family = .closepath
  · cases hn : r.numbers with
    | nil => simp [drawRun_close t k hf hn,Run.fault?,hf,hn]
    | cons n ns => simp [drawRun_stray t k hf hn,Run.fault?,hf,hn]
  · simp [drawRun_segments t k hf,Run.fault?_eq_none hf]

/-- Runs fail with the fault of the first run that has one. -/
theorem drawRuns_eq_error_iff {rs : List Run} {f : Fault} :
    k.drawRuns t rs = .error f ↔ rs.findSome? Run.fault? = some f := by
  induction rs generalizing k with
  | nil => simp [drawRuns]
  | cons r rs ih =>
    rw [drawRuns,List.findSome?_cons]
    cases hr : k.drawRun t r with
    | error g =>
      rw [(drawRun_eq_error_iff t k).mp hr]
      simp [Except.bind]
    | ok c =>
      have hn : r.fault? = none := by
        rw [Option.eq_none_iff_forall_ne_some]
        intro g hg
        rw [(drawRun_eq_error_iff t k).mpr hg] at hr
        cases hr
      rw [hn]
      exact ih c

end Canvas

section Tokens

variable {ts : List Token} {f : Fault}

theorem NumberBehindClose.append (h : NumberBehindClose ts) (us : List Token) :
    NumberBehindClose (ts ++ us) := by
  obtain ⟨ps,c,o,n,vs,rfl,hc⟩ := h
  exact ⟨ps,c,o,n,vs ++ us,by simp,hc⟩

theorem numberBehindClose_iff :
    NumberBehindClose ts ↔ ∃ r ∈ (runs ts).2, ∃ f, r.fault? = some f := by
  constructor
  · rintro ⟨ps,c,o,n,us,rfl,hc⟩
    refine ⟨⟨c,o,n::leading us⟩,?_,_,Run.fault?_eq_some_iff.mpr ⟨hc,n,leading us,rfl,rfl⟩⟩
    rw [runs_append_cons]
    exact List.mem_append_right _ List.mem_cons_self
  · rintro ⟨r,hr,f,hf⟩
    obtain ⟨qs,ss,hs⟩ := List.append_of_mem hr
    obtain ⟨ps,us,rfl,-⟩ := exists_tokens hs
    obtain ⟨hc,n,ns,hn,-⟩ := Run.fault?_eq_some_iff.mp hf
    exact ⟨ps,r.command,r.offset,n,ns.map .number ++ us,by simp [hn],hc⟩

theorem findSome?_fault?_runs :
    (runs ts).2.findSome? Run.fault? = some f ↔
      ∃ ps c o n us, ts = ps ++ .command c o::.number n::us ∧ c.family = .closepath ∧
        ¬NumberBehindClose (ps ++ [.command c o]) ∧
          f = .stray (.numbersBehindClose c) n (leading us) := by
  rw [List.findSome?_eq_some_iff]
  constructor
  · rintro ⟨qs,r,ss,hs,hf,hq⟩
    obtain ⟨hc,n,ns,hn,rfl⟩ := Run.fault?_eq_some_iff.mp hf
    obtain ⟨ps,us,hts,hp,hl⟩ := exists_tokens hs
    refine ⟨ps,r.command,r.offset,n,ns.map .number ++ us,by simp [hts,hn],hc,?_,?_⟩
    · -- A number behind an earlier closepath belongs to a run in front of `r`.
      intro hb
      obtain ⟨q,hm,g,hg⟩ := numberBehindClose_iff.mp hb
      rw [runs_append_cons,hp] at hm
      rcases List.mem_append.mp hm with hm | hm
      · simp [hq q hm] at hg
      · obtain rfl : q = ⟨r.command,r.offset,[]⟩ := by simpa [runs,leading] using hm
        obtain ⟨-,m,ms,hm,-⟩ := Run.fault?_eq_some_iff.mp hg
        cases hm
    · rw [leading_eq,runs_number_append,← leading_eq us,hl,List.append_nil]
  · rintro ⟨ps,c,o,n,us,rfl,hc,hb,rfl⟩
    refine ⟨(runs ps).2,⟨c,o,n::leading us⟩,(runs us).2,?_,?_,?_⟩
    · rw [runs_append_cons,leading,runs]
    · exact Run.fault?_eq_some_iff.mpr ⟨hc,n,leading us,rfl,rfl⟩
    · intro q hq
      refine Option.eq_none_iff_forall_ne_some.mpr fun g hg => hb ?_
      exact (numberBehindClose_iff.mpr ⟨q,hq,g,hg⟩).append _

theorem openingFault?_eq_none_iff : openingFault? (runs ts) = none ↔ BeginsWithMoveto ts := by
  cases ts with
  | nil => simp [runs,openingFault?,BeginsWithMoveto]
  | cons u us =>
    cases u with
    | command c o => simp [runs,openingFault?,BeginsWithMoveto]
    | number n => simp [runs,openingFault?,BeginsWithMoveto]

theorem blamed_iff (hm : BeginsWithMoveto ts) :
    Blamed ts f ↔ (runs ts).2.findSome? Run.fault? = some f := by
  rw [findSome?_fault?_runs]
  constructor
  · intro hb
    cases hb with
    | command h => simp [BeginsWithMoveto,h] at hm
    | number => simp [BeginsWithMoveto] at hm
    | close _ h hc hp => exact ⟨_,_,_,_,_,h,hc,hp,rfl⟩
  · rintro ⟨ps,c,o,n,us,h,hc,hp,rfl⟩
    exact .close hm h hc hp

theorem blamed_iff_openingFault? (hm : ¬BeginsWithMoveto ts) :
    Blamed ts f ↔ openingFault? (runs ts) = some f := by
  constructor
  · intro hb
    cases hb with
    | command h => simp [runs,openingFault?,h]
    | number => simp [runs,openingFault?,leading_eq,Fault.stray]
    | close h => contradiction
  · intro h
    cases ts with
    | nil => cases h
    | cons u us =>
      cases u with
      | command c o =>
        have hc : c.family ≠ .moveto := fun hc => hm (by simp [BeginsWithMoveto,hc])
        simp only [runs,openingFault?,hc,if_false,Option.some.injEq] at h
        exact h ▸ .command hc
      | number n =>
        simp only [runs,openingFault?,← leading_eq,Option.some.injEq] at h
        exact h ▸ .number

end Tokens

theorem interpret_eq_error_iff {t : Tessellation} {ts : List Token} {f : Fault} :
    interpret t ts = .error f ↔ Blamed ts f := by
  by_cases hm : BeginsWithMoveto ts
  · rw [blamed_iff hm,← Canvas.drawRuns_eq_error_iff t .empty,interpret,
      openingFault?_eq_none_iff.mpr hm]
    cases Canvas.empty.drawRuns t (runs ts).2 <;> simp [Except.map]
  · rw [blamed_iff_openingFault? hm,interpret]
    cases ho : openingFault? (runs ts) with
    | none => exact absurd (openingFault?_eq_none_iff.mp ho) hm
    | some g => simp

theorem exists_interpret (t : Tessellation) {ts : List Token} (h : ∀ f, ¬Blamed ts f) :
    ∃ a, interpret t ts = .ok a := by
  cases hi : interpret t ts with
  | ok a => exact ⟨a,rfl⟩
  | error f => exact absurd (interpret_eq_error_iff.mp hi) (h f)

theorem exists_blamed_iff {ts : List Token} :
    (∃ f, Blamed ts f) ↔ ¬BeginsWithMoveto ts ∨ NumberBehindClose ts := by
  by_cases hm : BeginsWithMoveto ts
  · rw [numberBehindClose_iff,or_iff_right (not_not_intro hm)]
    constructor
    · rintro ⟨f,hf⟩
      obtain ⟨r,hr,hf⟩ := List.exists_of_findSome?_eq_some ((blamed_iff hm).mp hf)
      exact ⟨r,hr,f,hf⟩
    · rintro ⟨r,hr,f,hf⟩
      have hs : ((runs ts).2.findSome? Run.fault?).isSome :=
        List.findSome?_isSome_iff.mpr ⟨r,hr,Option.isSome_iff_exists.mpr ⟨f,hf⟩⟩
      obtain ⟨g,hg⟩ := Option.isSome_iff_exists.mp hs
      exact ⟨g,(blamed_iff hm).mpr hg⟩
  · cases ho : openingFault? (runs ts) with
    | none => exact absurd (openingFault?_eq_none_iff.mp ho) hm
    | some f => exact iff_of_true ⟨f,(blamed_iff_openingFault? hm).mpr ho⟩ (.inl hm)

/-- Tokens fail exactly when they begin with something else than a moveto or have a number
right behind a closepath, and they fail with the fault that they are blamed for. -/
theorem interpret_fails_iff (t : Tessellation) (ts : List Token) :
    ((∃ f, interpret t ts = .error f) ↔ ¬BeginsWithMoveto ts ∨ NumberBehindClose ts) ∧
      ∀ f, interpret t ts = .error f ↔ Blamed ts f := by
  refine ⟨?_,fun f => interpret_eq_error_iff⟩
  simp only [interpret_eq_error_iff,exists_blamed_iff]

example : interpret {} (tokens "M0 0L10zC1 2Z5,6.5M Z7".toList) =
    .error ⟨.numbersBehindClose ⟨.closepath,false⟩,"5 6.5".toList,13⟩ := by decide +kernel

end Path
end ExtrusionProfile
