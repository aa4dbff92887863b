import ExtrusionProfile.Text
import ExtrusionProfile.Proofs.Path.Lexemes
import ExtrusionProfile.Number.Literal

/-! Tokens written out and read again. Characters that belong to no token may stand between tokens
and have to where one would run into the next: two numbers only touch where the second begins with a
sign, or with a point that the first one cannot take. Searching a text for literals finds the numbers
that its tokens hold: where a token is a command letter the search goes on behind it, as no literal
has one. -/
namespace ExtrusionProfile
namespace Path

open Text Literal

/-- A token apart from its place. -/
inductive Lexeme
  | command (c : Command)
  | literal (t : List Char)

def Token.lexeme : Token → Lexeme
  | .command c _ => .command c
  | .number n => .literal n.text

namespace Lexeme

def text : Lexeme → List Char
  | .command c => [c.letter]
  | .literal t => t

def token (o : ℕ) : Lexeme → Token
  | .command c => .command c o
  | .literal t => .number ⟨t,value t,o⟩

def IsProper : Lexeme → Prop
  | .command _ => True
  | .literal t => IsLiteral t

/-- Whether the second may stand right behind the first. -/
def MayTouch : Lexeme → Lexeme → Prop
  | .literal t,.literal u =>
    u.head? = some '+' ∨ u.head? = some '-' ∨
      u.head? = some '.' ∧ ('.' ∈ t ∨ 'e' ∈ t ∨ 'E' ∈ t)
  | _,_ => True

/-- Whether a token ends where `r` follows. -/
def EndsBefore : Lexeme → List Char → Prop
  | .command _,_ => True
  | .literal t,r => Literal.EndsBefore t r

end Lexeme

/-- Whether a character belongs to no token. -/
def isSeparator (c : Char) : Bool := isBreak c && (Command.ofLetter? c).isNone

/-- A token with what stands in front of it. -/
structure Word where
  gap : List Char
  lexeme : Lexeme
  gap_isSeparator : ∀ c ∈ gap, isSeparator c
  isProper : lexeme.IsProper

def Word.text (w : Word) : List Char := w.gap ++ w.lexeme.text

/-- Tokens written one behind the other, and what stands behind the last one. -/
structure Spelling where
  words : List Word
  gap : List Char
  gap_isSeparator : ∀ c ∈ gap, isSeparator c
  apart : words.IsChain fun v w => w.gap ≠ [] ∨ v.lexeme.MayTouch w.lexeme

/-- The tokens of some words, the first of which stands at `o`. -/
def tokensOf (o : ℕ) : List Word → List Token
  | [] => []
  | w::ws => w.lexeme.token (o+units w.gap)::tokensOf (o+units w.text) ws

namespace Spelling

def text (s : Spelling) : List Char := s.words.flatMap Word.text ++ s.gap

def tokens (s : Spelling) : List Token := tokensOf 0 s.words

end Spelling

variable {o : ℕ} {c : Char} {r t : List Char} {x : Lexeme}

theorem isBreak_letter (k : Command) : isBreak k.letter := by
  obtain ⟨f,b⟩ := k
  cases f <;> cases b <;> decide

theorem ofLetter?_of_not_isBreak (h : ¬isBreak c) : Command.ofLetter? c = none := by
  cases hk : Command.ofLetter? c with
  | none => rfl
  | some k => exact absurd (letter_of_ofLetter? hk ▸ isBreak_letter k) h

theorem not_isBreak_of_scan {u : List Char} (h : scan (c::r) = some (t,u)) : ¬isBreak c := by
  intro hc
  rw [scan_break hc] at h
  cases h

theorem isBreak_of_isSeparator (h : isSeparator c) : isBreak c := (Bool.and_eq_true_iff.mp h).1

theorem tokensFrom_gap {g : List Char} (hg : ∀ c ∈ g, isSeparator c) :
    tokensFrom o (g ++ r) = tokensFrom (o+units g) r := by
  induction g generalizing o with
  | nil => rfl
  | cons c g ih =>
    obtain ⟨hc,hg⟩ := List.forall_mem_cons.mp hg
    have hk : Command.ofLetter? c = none := Option.isNone_iff_eq_none.mp (Bool.and_eq_true_iff.mp hc).2
    rw [List.cons_append,tokensFrom_other hk (scan_break (isBreak_of_isSeparator hc) _),ih hg,
      units_cons,Nat.add_assoc]

theorem tokensFrom_literal (ht : IsLiteral t) (hr : Literal.EndsBefore t r) :
    tokensFrom o (t ++ r) = .number ⟨t,value t,o⟩::tokensFrom (o+units t) r := by
  have hs := scan_literal ht hr
  obtain ⟨c,cs,rfl⟩ := List.exists_cons_of_ne_nil (ne_nil_of_isLiteral ht)
  exact tokensFrom_number (ofLetter?_of_not_isBreak (not_isBreak_of_scan hs)) hs

/-- A token is read as it was written when what follows does not go on it. -/
theorem tokensFrom_lexeme (hx : x.IsProper) (hr : x.EndsBefore r) :
    tokensFrom o (x.text ++ r) = x.token o::tokensFrom (o+units x.text) r := by
  cases x with
  | command k => exact tokensFrom_command (Command.ofLetter?_letter k)
  | literal t => exact tokensFrom_literal hx hr

theorem endsBefore_nil : x.EndsBefore [] := by
  cases x with
  | command k => trivial
  | literal t => simp [Lexeme.EndsBefore,Literal.EndsBefore]

theorem endsBefore_break (h : isBreak c) : x.EndsBefore (c::r) := by
  cases x with
  | command k => trivial
  | literal t =>
    obtain ⟨hd,_,_,hp,he,hE⟩ := isBreak_iff.mp h
    intro d hc
    cases hc
    exact ⟨Bool.eq_false_iff.mp hd,fun h => absurd h hp,he,hE⟩

theorem endsBefore_of_mayTouch {y : Lexeme} (hy : y.IsProper) (h : x.MayTouch y) :
    x.EndsBefore (y.text ++ r) := by
  cases y with
  | command k => exact endsBefore_break (isBreak_letter k)
  | literal u =>
    cases x with
    | command k => trivial
    | literal t =>
      obtain ⟨c,u,rfl⟩ := List.exists_cons_of_ne_nil (ne_nil_of_isLiteral hy)
      intro d hd
      cases hd
      simp only [Lexeme.MayTouch,List.head?_cons,Option.some_inj] at h
      rcases h with rfl | rfl | ⟨rfl,h⟩
      · exact ⟨by decide,fun he => absurd he (by decide),by decide⟩
      · exact ⟨by decide,fun he => absurd he (by decide),by decide⟩
      · exact ⟨by decide,fun _ => h,by decide⟩

theorem endsBefore_gap {g : List Char} (hg : ∀ c ∈ g, isSeparator c) : x.EndsBefore g := by
  cases g with
  | nil => exact endsBefore_nil
  | cons c g => exact endsBefore_break (isBreak_of_isSeparator (hg c List.mem_cons_self))

theorem endsBefore_word {w : Word} (h : w.gap ≠ [] ∨ x.MayTouch w.lexeme) :
    x.EndsBefore (w.text ++ r) := by
  rw [Word.text,List.append_assoc]
  cases hg : w.gap with
  | nil => exact endsBefore_of_mayTouch w.isProper (h.resolve_left (not_not.mpr hg))
  | cons c g =>
    refine endsBefore_break (isBreak_of_isSeparator (w.gap_isSeparator c ?_))
    simp [hg]

/-- Tokens are read as they were written, wherever the text begins. -/
theorem tokensFrom_words (o : ℕ) {ws : List Word} {g : List Char}
    (hg : ∀ c ∈ g, isSeparator c)
    (h : ws.IsChain fun v w => w.gap ≠ [] ∨ v.lexeme.MayTouch w.lexeme) :
    tokensFrom o (ws.flatMap Word.text ++ g) = tokensOf o ws := by
  induction ws generalizing o with
  | nil =>
    have ht := tokensFrom_gap (o:=o) (r:=[]) hg
    rw [List.append_nil] at ht
    rw [List.flatMap_nil,List.nil_append,ht,tokensFrom]
    rfl
  | cons w ws ih =>
    have hr : w.lexeme.EndsBefore (ws.flatMap Word.text ++ g) := by
      cases ws with
      | nil => exact endsBefore_gap hg
      | cons v ws =>
        rw [List.flatMap_cons,List.append_assoc]
        exact endsBefore_word (List.isChain_cons_cons.mp h).1
    rw [List.flatMap_cons,List.append_assoc,Word.text,List.append_assoc,
      tokensFrom_gap w.gap_isSeparator,tokensFrom_lexeme w.isProper hr,ih _ h.tail,tokensOf,
      Word.text,units_append,Nat.add_assoc]

theorem text_lexeme (a : Token) : a.lexeme.text = a.text := by cases a <;> rfl

theorem lexeme_token (o : ℕ) (x : Lexeme) : (x.token o).lexeme = x := by cases x <;> rfl

theorem isProper_of_mem_tokens {d : List Char} {a : Token} (h : a ∈ tokens d) :
    a.lexeme.IsProper := by
  obtain ⟨us,es,-,-,hb⟩ := tokensFrom_begins 0 d a h
  cases a with
  | command c o => trivial
  | number n => exact hb.1.isLiteral

theorem isSeparator_of_isBlank (h : isBlank c) : isSeparator c := by
  have hs : ∀ n ∈ 32::([9,10,11,12,13] ++ wideBlanks), isSeparator (Char.ofNat n) := by decide
  have hc : c.toNat ∈ 32::([9,10,11,12,13] ++ wideBlanks) := by
    simp only [isBlank,Bool.or_eq_true,Bool.and_eq_true,decide_eq_true_eq,
      List.contains_iff_mem] at h
    rcases h with (rfl | h) | h
    · exact List.mem_cons_self
    · refine List.mem_cons_of_mem _ (List.mem_append_left _ ?_)
      simp only [List.mem_cons,List.not_mem_nil,or_false]
      omega
    · exact List.mem_cons_of_mem _ (List.mem_append_right _ h)
  rw [← Char.ofNat_toNat c]
  exact hs _ hc

theorem tokensFrom_blanks (o : ℕ) {xs : List Lexeme} (h : ∀ x ∈ xs, x.IsProper) :
    (tokensFrom o ([' '].intercalate (xs.map Lexeme.text))).map Token.lexeme = xs := by
  induction xs generalizing o with
  | nil => simp [tokensFrom]
  | cons x xs ih =>
    obtain ⟨hx,hxs⟩ := List.forall_mem_cons.mp h
    cases xs with
    | nil =>
      have ht := tokensFrom_lexeme (o:=o) hx endsBefore_nil
      rw [List.append_nil] at ht
      simp [ht,tokensFrom,lexeme_token]
    | cons y ys =>
      have hi : [' '].intercalate ((x::y::ys).map Lexeme.text) =
          x.text ++ ' '::[' '].intercalate ((y::ys).map Lexeme.text) := by
        simp [List.intercalate_cons_cons]
      rw [hi,tokensFrom_lexeme hx (endsBefore_break (by decide)),tokensFrom_blank,List.map_cons,
        lexeme_token,ih _ hxs]

/-- Tokens that are written out are read again, with their texts, values and places. The tokens
of any text, put behind one another with single blanks, are the same apart from their places. -/
theorem tokens_text (s : Spelling) (d : List Char) :
    (tokens s.text = s.tokens ∧ ∀ n, .number n ∈ s.tokens → Denotes n.text n.value) ∧
      (tokens ([' '].intercalate ((tokens d).map Token.text))).map Token.lexeme =
        (tokens d).map Token.lexeme := by
  have ht : tokens s.text = s.tokens := tokensFrom_words 0 s.gap_isSeparator s.apart
  have hl : (tokens d).map Token.text = ((tokens d).map Token.lexeme).map Lexeme.text := by
    rw [List.map_map]
    exact List.map_congr_left fun a _ => (text_lexeme a).symm
  refine ⟨⟨ht,fun n hn => ?_⟩,?_⟩
  · rw [← ht] at hn
    obtain ⟨us,es,-,-,hb⟩ := tokensFrom_begins 0 s.text _ hn
    exact hb.2
  · rw [hl]
    refine tokensFrom_blanks 0 fun x hx => ?_
    obtain ⟨a,ha,rfl⟩ := List.mem_map.mp hx
    exact isProper_of_mem_tokens ha

def bareLiteral (t : List Char) (h : scan t = some (t,[])) : Word :=
  ⟨[],.literal t,by simp,isLiteral_of_scan h⟩

/-- A move to (1,-2.5) and a line to (.5e3,-4), without any separators but one. -/
def compact : Spelling where
  words := [⟨[' '],.command ⟨.moveto,false⟩,by simp; decide,trivial⟩,
    bareLiteral "1".toList (by decide +kernel),bareLiteral "-2.5".toList (by decide +kernel),
    bareLiteral ".5e3".toList (by decide +kernel),bareLiteral "-4".toList (by decide +kernel),
    ⟨[],.command ⟨.closepath,true⟩,by simp,trivial⟩]
  gap := []
  gap_isSeparator := by simp
  apart := by simp [bareLiteral,Lexeme.MayTouch]

theorem tokens_compact :
    compact.text = " M1-2.5.5e3-4z".toList ∧ tokens compact.text = compact.tokens ∧
      ∀ n, .number n ∈ compact.tokens → Denotes n.text n.value :=
  ⟨by decide +kernel,(tokens_text compact []).1⟩

end Path

namespace Literal

variable {c : Char} {cs t r : List Char}

theorem findAll_cons_some (h : scan (c::cs) = some (t,r)) : findAll (c::cs) = t::findAll r := by
  rw [findAll]
  split
  · rename_i hs
    rw [h] at hs
    cases hs
    rfl
  · rename_i hs
    rw [h] at hs
    cases hs

theorem findAll_cons_none (h : scan (c::cs) = none) : findAll (c::cs) = findAll cs := by
  rw [findAll]
  split
  · rename_i hs
    rw [h] at hs
    cases hs
  · rfl

end Literal

namespace Path

def Token.numeral? : Token → Option Numeral
  | .command .. => none
  | .number n => some n

theorem scan_letter {c : Char} {k : Command} (h : Command.ofLetter? c = some k) (cs : List Char) :
    Literal.scan (c::cs) = none := by
  rw [← letter_of_ofLetter? h]
  exact Literal.scan_break (isBreak_letter k) cs

theorem texts_tokensFrom (o : ℕ) (cs : List Char) :
    ((tokensFrom o cs).filterMap Token.numeral?).map Numeral.text = Literal.findAll cs := by
  fun_induction tokensFrom o cs with
  | case1 o => simp [Literal.findAll]
  | case2 o c cs k hk ih =>
    rw [Literal.findAll_cons_none (scan_letter hk cs),← ih]
    rfl
  | case3 o c cs hk t r hs _ ih =>
    rw [Literal.findAll_cons_some hs,← ih]
    rfl
  | case4 o c cs hk hs ih => rw [Literal.findAll_cons_none hs,ih]

theorem value_of_mem_tokensFrom {o : ℕ} {cs : List Char} {n : Numeral}
    (h : .number n ∈ tokensFrom o cs) : n.value = Literal.value n.text := by
  fun_induction tokensFrom o cs with
  | case1 o => cases h
  | case2 o c cs k hk ih =>
    rcases List.mem_cons.mp h with h | h
    · cases h
    · exact ih h
  | case3 o c cs hk t r hs _ ih =>
    rcases List.mem_cons.mp h with h | h
    · cases h
      rfl
    · exact ih h
  | case4 o c cs hk hs ih => exact ih h

theorem values_tokensFrom (o : ℕ) (cs : List Char) :
    ((tokensFrom o cs).filterMap Token.numeral?).map Numeral.value = Literal.numbers cs := by
  rw [Literal.numbers,← texts_tokensFrom o cs,List.map_map]
  refine List.map_congr_left fun n hn => ?_
  obtain ⟨a,ha,hn⟩ := List.mem_filterMap.mp hn
  cases a with
  | command k o => cases hn
  | number m =>
    cases hn
    exact value_of_mem_tokensFrom ha

/-- The numbers of any text are those of its number tokens, in their order: the search finds their
spellings, and so their values. -/
theorem numbers_eq_tokens (text : List Char) :
    Literal.findAll text = ((tokens text).filterMap Token.numeral?).map Numeral.text ∧
      Literal.numbers text = ((tokens text).filterMap Token.numeral?).map Numeral.value :=
  ⟨(texts_tokensFrom 0 text).symm,(values_tokensFrom 0 text).symm⟩

example : Literal.findAll "M1e+-.5.5ez3E-1-.c".toList =
    ["1".toList,"-.5".toList,".5".toList,"3E-1".toList] := by decide +kernel

end Path
end ExtrusionProfile
