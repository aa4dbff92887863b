import ExtrusionProfile.Inspect.Folder
import Mathlib.Data.List.Basic

/-! Where flags stand on the command line. Among flags that each have a value behind them, the path
may stand anywhere, and a run depends on nothing but the path and the first value of each flag that
is read. -/
namespace ExtrusionProfile
namespace Inspect

/-- A flag with a value behind it. -/
structure Setting where
  flag : List Char
  value : List Char
  isFlag_flag : isFlag flag = true
  isFlag_value : isFlag value = false

namespace Setting

def words (s : Setting) : List (List Char) := [s.flag,s.value]

/-- The value that a flag has where it stands first. -/
def first? (flag : List Char) (ss : List Setting) : Option (List Char) :=
  (ss.find? (·.flag = flag)).map value

/-- Keep the first setting of each of some flags, and no other. -/
def leading : List (List Char) → List Setting → List Setting
  | _,[] => []
  | fs,s::ss => if s.flag ∈ fs then s::leading (fs.erase s.flag) ss else leading fs ss

variable {flag path : List Char} {fs : List (List Char)} {ss : List Setting}

theorem first?_cons_self (s : Setting) (ss : List Setting) :
    first? s.flag (s::ss) = some s.value := by
  simp [first?]

theorem first?_cons_of_ne {s : Setting} (h : s.flag ≠ flag) (ss : List Setting) :
    first? flag (s::ss) = first? flag ss := by
  simp [first?,h]

theorem first?_leading (h : flag ∈ fs) : first? flag (leading fs ss) = first? flag ss := by
  induction ss generalizing fs with
  | nil => rfl
  | cons s ss ih =>
    rw [leading]
    by_cases he : s.flag = flag
    · subst he
      rw [if_pos h,first?_cons_self,first?_cons_self]
    · rw [first?_cons_of_ne he]
      split
      · rw [first?_cons_of_ne he]
        exact ih ((List.mem_erase_of_ne (Ne.symm he)).mpr h)
      · exact ih h

theorem freeArgument?_settings (ss : List Setting) (args : List (List Char)) :
    freeArgument? false (ss.flatMap words ++ args) = freeArgument? false args := by
  induction ss with
  | nil => rfl
  | cons s ss ih => simpa [words,freeArgument?,s.isFlag_flag,s.isFlag_value] using ih

theorem valueOf?_settings (h : isFlag flag = true) (ss : List Setting) (args : List (List Char)) :
    valueOf? flag (ss.flatMap words ++ args) = (first? flag ss).or (valueOf? flag args) := by
  induction ss with
  | nil => rfl
  | cons s ss ih =>
    have hv : s.value ≠ flag := by
      rintro rfl
      exact Bool.false_ne_true (s.isFlag_value.symm.trans h)
    by_cases he : s.flag = flag
    · subst he
      simp [words,valueOf?,first?_cons_self]
    · rw [first?_cons_of_ne he,← ih]
      simp [words,valueOf?,he,hv]

end Setting

def readFlags : List (List Char) := ["--target".toList,"--depth".toList,"--preview".toList]

/-- The arguments with the path behind the first `n` of some settings. -/
def arguments (path : List Char) (n : ℕ) (ss : List Setting) : List (List Char) :=
  (ss.take n).flatMap Setting.words ++ path::(ss.drop n).flatMap Setting.words

variable {path : List Char}

theorem freeArgument?_arguments (h : isFlag path = false) (n : ℕ) (ss : List Setting) :
    freeArgument? false (arguments path n ss) = some path := by
  rw [arguments,Setting.freeArgument?_settings]
  simp [freeArgument?,h]

theorem valueOf?_arguments (h : isFlag path = false) {flag : List Char} (hf : isFlag flag = true)
    (n : ℕ) (ss : List Setting) :
    valueOf? flag (arguments path n ss) = Setting.first? flag ss := by
  have hp : path ≠ flag := by
    rintro rfl
    exact Bool.false_ne_true (h.symm.trans hf)
  have hd := Setting.valueOf?_settings hf (ss.drop n) []
  rw [List.append_nil,valueOf?,Option.or_none] at hd
  rw [arguments,Setting.valueOf?_settings hf,valueOf?,if_neg hp,hd]
  conv => rhs; rw [← List.take_append_drop n ss]
  simp only [Setting.first?,List.find?_append,Option.map_or]

theorem isFlag_of_mem_readFlags : ∀ k ∈ readFlags, isFlag k = true := by decide

/-- What the arguments come to is decided by the path and the first values. -/
theorem ofList_arguments (h : isFlag path = false) (m n : ℕ) {ss ts : List Setting}
    (hf : ∀ k ∈ readFlags, Setting.first? k ss = Setting.first? k ts) :
    Arguments.ofList (arguments path m ss) = Arguments.ofList (arguments path n ts) := by
  have hv : ∀ k ∈ readFlags,
      valueOf? k (arguments path m ss) = valueOf? k (arguments path n ts) := by
    intro k hk
    have hi := isFlag_of_mem_readFlags k hk
    rw [valueOf?_arguments h hi,valueOf?_arguments h hi,hf k hk]
  simp only [readFlags,List.forall_mem_cons] at hv
  obtain ⟨ht,hd,hp,-⟩ := hv
  simp only [Arguments.ofList,numberOf?,freeArgument?_arguments h,ht,hd,hp]

/-- The path may stand anywhere, all settings but the first of each flag that is read may go, and
two lists of settings with the same first values are as good as each other. -/
theorem run_arguments {ε : Type} (t : Tools ε) (h : isFlag path = false) (f : Folder) (m : ℕ)
    (ss : List Setting) :
    runBy t f (arguments path m ss) = runBy t f (arguments path 0 (Setting.leading readFlags ss)) ∧
      ∀ n ts, (∀ k ∈ readFlags, Setting.first? k ss = Setting.first? k ts) →
        runBy t f (arguments path m ss) = runBy t f (arguments path n ts) := by
  have hr : ∀ n ts, (∀ k ∈ readFlags, Setting.first? k ss = Setting.first? k ts) →
      runBy t f (arguments path m ss) = runBy t f (arguments path n ts) := by
    intro n ts hf
    rw [runBy,runBy,ofList_arguments h m n hf]
  exact ⟨hr 0 _ fun k hk => (Setting.first?_leading hk).symm,hr⟩

def drawingAlone : Folder :=
  ⟨[(["a.svg".toList],"<svg><path d=\"M0 0H9V9Z\"/></svg>".toList)]⟩

/-- A flag that is not read, one repeated around the path, and the same in another order. -/
theorem run_arguments_repeated : isFlag "a.svg".toList = false ∧
    run drawingAlone
        (["--scale","3","--depth","5","a.svg","--depth","8","--preview","b.svg"].map String.toList) =
      run drawingAlone (["a.svg","--depth","5","--preview","b.svg"].map String.toList) ∧
    run drawingAlone
        (["--scale","3","--depth","5","a.svg","--depth","8","--preview","b.svg"].map String.toList) =
      run drawingAlone (["--preview","b.svg","a.svg","--depth","5"].map String.toList) := by
  let scale : Setting := ⟨"--scale".toList,"3".toList,by decide,by decide⟩
  let depth : Setting := ⟨"--depth".toList,"5".toList,by decide,by decide⟩
  let deeper : Setting := ⟨"--depth".toList,"8".toList,by decide,by decide⟩
  let preview : Setting := ⟨"--preview".toList,"b.svg".toList,by decide,by decide⟩
  have hp : isFlag "a.svg".toList = false := by decide
  obtain ⟨hl,hr⟩ := run_arguments .own hp drawingAlone 2 [scale,depth,deeper,preview]
  exact ⟨hp,hl,hr 1 [preview,depth] (by decide)⟩

end Inspect
end ExtrusionProfile
