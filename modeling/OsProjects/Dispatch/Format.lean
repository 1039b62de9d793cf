import OsProjects.Dispatch.Config
import OsProjects.Lib.Runs
import Mathlib.Data.List.Chain
import Mathlib.Data.List.Forall2

/-!
# Format — the configuration files that the reader accepts

A line of the format consists of a step, and of `C` with a number and `S` or `T`, or of `EXIT`. The
reader takes what `sscanf` gives it, which is more: `%s` does not ask for a blank before it, what
follows the last conversion is not looked at, and a string ends at its first NUL.
-/

namespace OsProjects.Dispatch

open Lib List

/-! ## The format -/

/-- The lines of a text, each with its newline. The second argument is the line begun, reversed. -/
def linesFrom : List Char → List Char → List (List Char)
  | [], [] => []
  | [], c :: cur => [(c :: cur).reverse]
  | c :: cs, cur =>
    if c = '\n' then (c :: cur).reverse :: linesFrom cs [] else linesFrom cs (c :: cur)

def lines (text : List Char) : List (List Char) := linesFrom text []

/-- A line is longer than the buffer of `fgets`. -/
def TooLong (text : List Char) : Prop := ∃ l ∈ lines text, 257 ≤ l.length

/-- The words of a line: its parts between white space. -/
def words (line : List Char) : List (List Char) := (line.splitOnP isspace).filter (· ≠ [])

def Blank (cs : List Char) : Prop := ∀ c ∈ cs, isspace c = true

def Digits (cs : List Char) : Prop := ∀ c ∈ cs, isdigit c = true

def signValue (sign : List Char) : Int := if sign = ['-'] then -1 else 1

/-- The word writes the number `n`. -/
def Numeral (w : List Char) (n : Int) : Prop :=
  ∃ sign digits, w = sign ++ digits ∧ (sign = [] ∨ sign = ['+'] ∨ sign = ['-']) ∧ Digits digits ∧
    digits ≠ [] ∧ n = signValue sign * number digits

/-- A line of the format with step `n`; the flag says that it is an EXIT line. -/
inductive LineFormat (line : List Char) (n : Int) : Bool → Prop
  | command {step digits verb : List Char} : words line = [step, 'C' :: digits, verb] →
      Numeral step n → Digits digits → digits ≠ [] → verb = ['S'] ∨ verb = ['T'] →
      LineFormat line n false
  | exit {step : List Char} : words line = [step, ['E', 'X', 'I', 'T']] → Numeral step n →
      LineFormat line n true

/-- The file has the format: steps from 0 on that do not decrease, and one EXIT line at most. -/
def WellFormed (file : List Char) : Prop :=
  ∃ xs : List (Int × Bool), Forall₂ (fun line x => LineFormat line x.1 x.2) (lines file) xs ∧
    (0 :: xs.map Prod.fst).IsChain (· ≤ ·) ∧ xs.countP (·.2) ≤ 1

/-- A line in which the conversions of `sscanf` find the words: it fits the buffer and has no NUL, a
number at its front fits an `int`, a digit is followed by a digit or a blank, and there is no fourth
word and no `C` by itself. -/
structure Tidy (line : List Char) : Prop where
  fits : line.length < 257
  nul : '\x00' ∉ line
  step : (scanNumber line).all (fun x => decide (FitsInt x.1)) = true
  apart : line.IsChain fun a b => isdigit a = true → isdigit b = true ∨ isspace b = true
  few : (words line).length ≤ 3
  numbered : ['C'] ∉ words line

instance (line : List Char) : Decidable (Tidy line) :=
  decidable_of_iff (line.length < 257 ∧ '\x00' ∉ line ∧
    (scanNumber line).all (fun x => decide (FitsInt x.1)) = true ∧
    (line.IsChain fun a b => isdigit a = true → isdigit b = true ∨ isspace b = true) ∧
    (words line).length ≤ 3 ∧ ['C'] ∉ words line)
    ⟨fun h => ⟨h.1, h.2.1, h.2.2.1, h.2.2.2.1, h.2.2.2.2.1, h.2.2.2.2.2⟩,
      fun h => ⟨h.1, h.2, h.3, h.4, h.5, h.6⟩⟩

/-- The lines are tidy, and the word EXIT occurs in one of them at most. -/
def Plain (file : List Char) : Prop :=
  (∀ line ∈ lines file, Tidy line) ∧
    (lines file).countP (fun line => ['E', 'X', 'I', 'T'] ∈ words line) ≤ 1

instance (file : List Char) : Decidable (Plain file) := inferInstanceAs (Decidable (_ ∧ _))

theorem visible_eq {line : List Char} (h : '\x00' ∉ line) : visible line = line :=
  takeWhile_eq_self_iff.mpr fun _ hc => decide_eq_true fun heq => h (heq ▸ hc)

/-! ## Words -/

section Words

variable {cs rest indent w : List Char} {c : Char}

theorem isdigit_of_isspace (h : isspace c = true) : isdigit c = false := by
  simp only [isspace, Bool.or_eq_true, decide_eq_true_eq] at h
  rcases h with ((((rfl | rfl) | rfl) | rfl) | rfl) | rfl
  all_goals rfl

theorem isspace_of_isdigit (h : isdigit c = true) : isspace c = false := by
  by_contra hc
  rw [isdigit_of_isspace (Bool.not_eq_false _ ▸ hc)] at h
  cases h

theorem words_indent (h : Blank indent) : words (indent ++ cs) = words cs := by
  induction indent with
  | nil => rfl
  | cons c indent ih =>
    rw [← ih fun d hd => h d (mem_cons_of_mem _ hd), words, cons_append,
      splitOnP_cons_eq_if_modifyHead, if_pos (h c mem_cons_self)]
    exact filter_cons_of_neg (by simp)

theorem words_append (hw : ∀ c ∈ w, isspace c = false) (hne : w ≠ [])
    (hrest : Stops (fun c => !isspace c) rest) : words (w ++ rest) = w :: words rest := by
  cases rest with
  | nil =>
    rw [append_nil, words, splitOnP_eq_singleton hw]
    exact filter_cons_of_pos (decide_eq_true hne)
  | cons c rest =>
    have hc : isspace c = true := by simpa using hrest c rfl
    have hblank : words (c :: rest) = words rest := words_indent (forall_mem_singleton.mpr hc)
    rw [hblank, words, splitOnP_append_cons_of_forall_mem hw _ hc]
    exact filter_cons_of_pos (decide_eq_true hne)

theorem scanWord_eq (cs : List Char) :
    scanWord cs = match (cs.dropWhile isspace).takeWhile fun c => !isspace c with
      | [] => none
      | w => some (w, (cs.dropWhile isspace).dropWhile fun c => !isspace c) := rfl

theorem scanWord_eq_some (h : scanWord cs = some (w, rest)) :
    ∃ indent, cs = indent ++ (w ++ rest) ∧ Blank indent ∧ (∀ c ∈ w, isspace c = false) ∧ w ≠ [] ∧
      Stops (fun c => !isspace c) rest := by
  rw [scanWord_eq] at h
  split at h
  · cases h
  · rename_i v hv
    obtain ⟨rfl, rfl⟩ := Prod.mk.inj (Option.some.inj h)
    refine ⟨cs.takeWhile isspace, ?_, fun c hc => mem_takeWhile_imp hc, fun c hc => ?_, hv,
      stops_dropWhile _ _⟩
    · rw [takeWhile_append_dropWhile, takeWhile_append_dropWhile]
    · have hword := mem_takeWhile_imp hc
      rwa [Bool.not_eq_true'] at hword

theorem scanWord_eq_none : scanWord cs = none ↔ Blank cs := by
  rw [scanWord_eq]
  cases hw : (cs.dropWhile isspace).takeWhile fun c => !isspace c with
  | nil =>
    refine iff_of_true rfl (dropWhile_eq_nil_iff.mp ?_)
    -- what is left would begin with a character that is not blank
    cases hrest : cs.dropWhile isspace with
    | nil => rfl
    | cons c rest =>
      have hc : isspace c = false := stops_dropWhile isspace cs c (by rw [hrest]; rfl)
      rw [hrest, takeWhile_cons_of_pos (by rw [hc]; rfl)] at hw
      cases hw
  | cons a w =>
    refine iff_of_false nofun fun hblank => ?_
    rw [dropWhile_eq_nil_iff.mpr hblank] at hw
    cases hw

theorem words_of_none (h : scanWord cs = none) : words cs = [] := by
  have hblank := @words_indent [] cs (scanWord_eq_none.mp h)
  rwa [append_nil] at hblank

theorem words_of_scanWord (h : scanWord cs = some (w, rest)) : words cs = w :: words rest := by
  obtain ⟨indent, rfl, hindent, hw, hne, hrest⟩ := scanWord_eq_some h
  rw [words_indent hindent, words_append hw hne hrest]

theorem scanWord_of_nil (h : words cs = []) : scanWord cs = none := by
  cases hword : scanWord cs with
  | none => rfl
  | some x =>
    rw [words_of_scanWord hword] at h
    cases h

theorem scanWord_of_cons {ws : List (List Char)} (h : words cs = w :: ws) :
    ∃ rest, scanWord cs = some (w, rest) ∧ words rest = ws := by
  cases hword : scanWord cs with
  | none =>
    rw [words_of_none hword] at h
    cases h
  | some x =>
    obtain ⟨v, rest⟩ := x
    rw [words_of_scanWord hword] at h
    obtain ⟨rfl, rfl⟩ := List.cons.inj h
    exact ⟨rest, rfl, rfl⟩

end Words

/-! ## Numbers -/

section Numbers

variable {cs rest indent sign digits w : List Char} {n : Int}

theorem ne_sign_of_isdigit {c : Char} (h : isdigit c = true) : c ≠ '-' ∧ c ≠ '+' := by
  constructor
  all_goals
    rintro rfl
    cases h

/-- The sign that `%d` reads. -/
def signed : List Char → Int × List Char
  | '-' :: cs => (-1, cs)
  | '+' :: cs => (1, cs)
  | cs => (1, cs)

theorem scanNumber_eq (cs : List Char) :
    scanNumber cs = match (signed (cs.dropWhile isspace)).2.takeWhile isdigit with
      | [] => none
      | ds => some ((signed (cs.dropWhile isspace)).1 * number ds,
          (signed (cs.dropWhile isspace)).2.dropWhile isdigit) := rfl

theorem signed_append (hsign : sign = [] ∨ sign = ['+'] ∨ sign = ['-']) (hdigits : Digits digits)
    (hne : digits ≠ []) : signed (sign ++ (digits ++ rest)) = (signValue sign, digits ++ rest) := by
  rcases hsign with rfl | rfl | rfl
  · obtain ⟨d, ds, rfl⟩ := exists_cons_of_ne_nil hne
    obtain ⟨hminus, hplus⟩ := ne_sign_of_isdigit (hdigits d mem_cons_self)
    unfold signed
    split
    · rename_i heq
      cases heq
      exact absurd rfl hminus
    · rename_i heq
      cases heq
      exact absurd rfl hplus
    · rfl
  · rfl
  · rfl

theorem signed_cases (cs : List Char) : ∃ sign, (sign = [] ∨ sign = ['+'] ∨ sign = ['-']) ∧
    cs = sign ++ (signed cs).2 ∧ (signed cs).1 = signValue sign := by
  unfold signed
  split
  · exact ⟨['-'], .inr (.inr rfl), rfl, rfl⟩
  · exact ⟨['+'], .inr (.inl rfl), rfl, rfl⟩
  · exact ⟨[], .inl rfl, rfl, rfl⟩

theorem scanNumber_append (hindent : Blank indent) (hw : Numeral w n) (hrest : Stops isdigit rest) :
    scanNumber (indent ++ (w ++ rest)) = some (n, rest) := by
  obtain ⟨sign, digits, rfl, hsign, hdigits, hne, rfl⟩ := hw
  rw [append_assoc]
  have hstops : Stops isspace (sign ++ (digits ++ rest)) := by
    rcases hsign with rfl | rfl | rfl
    · obtain ⟨d, ds, rfl⟩ := exists_cons_of_ne_nil hne
      exact .cons (isspace_of_isdigit (hdigits d mem_cons_self))
    · exact .cons rfl
    · exact .cons rfl
  rw [scanNumber_eq, dropWhile_run hindent hstops, signed_append hsign hdigits hne,
    takeWhile_run hdigits hrest, dropWhile_run hdigits hrest]
  obtain ⟨d, ds, rfl⟩ := exists_cons_of_ne_nil hne
  rfl

theorem scanNumber_eq_some (h : scanNumber cs = some (n, rest)) :
    ∃ indent w, cs = indent ++ (w ++ rest) ∧ Blank indent ∧ Numeral w n ∧ Stops isdigit rest := by
  rw [scanNumber_eq] at h
  obtain ⟨sign, hsign, hcut, hvalue⟩ := signed_cases (cs.dropWhile isspace)
  split at h
  · cases h
  · rename_i ds hds
    obtain ⟨hn, rfl⟩ := Prod.mk.inj (Option.some.inj h)
    refine ⟨cs.takeWhile isspace, sign ++ (signed (cs.dropWhile isspace)).2.takeWhile isdigit, ?_,
      fun c hc => mem_takeWhile_imp hc,
      ⟨sign, _, rfl, hsign, fun c hc => mem_takeWhile_imp hc, hds, ?_⟩, stops_dropWhile _ _⟩
    · rw [append_assoc, takeWhile_append_dropWhile, ← hcut, takeWhile_append_dropWhile]
    · rw [← hn, hvalue]

theorem Numeral.nonblank (h : Numeral w n) : (∀ c ∈ w, isspace c = false) ∧ w ≠ [] := by
  obtain ⟨sign, digits, rfl, hsign, hdigits, hne, -⟩ := h
  refine ⟨fun c hc => ?_, fun hnil => hne (append_eq_nil_iff.mp hnil).2⟩
  rcases mem_append.mp hc with hc | hc
  · rcases hsign with rfl | rfl | rfl
    · cases hc
    all_goals
      rw [mem_singleton.mp hc]
      rfl
  · exact isspace_of_isdigit (hdigits c hc)

theorem Numeral.getLast (h : Numeral w n) : ∃ c, w.getLast? = some c ∧ isdigit c = true := by
  obtain ⟨sign, digits, rfl, -, hdigits, hne, -⟩ := h
  refine ⟨digits.getLast hne, ?_, hdigits _ (getLast_mem hne)⟩
  rw [getLast?_append_of_ne_nil _ hne, getLast?_eq_some_getLast hne]

-- With a blank after the number, what follows it are the other words.
theorem words_of_scanNumber (happart : cs.IsChain fun a b =>
      isdigit a = true → isdigit b = true ∨ isspace b = true) (h : scanNumber cs = some (n, rest)) :
    ∃ w, Numeral w n ∧ words cs = w :: words rest := by
  obtain ⟨indent, w, rfl, hindent, hw, hstops⟩ := scanNumber_eq_some h
  refine ⟨w, hw, ?_⟩
  rw [words_indent hindent]
  refine words_append hw.nonblank.1 hw.nonblank.2 fun c hc => ?_
  obtain ⟨d, hlast, hd⟩ := hw.getLast
  rcases (isChain_append.mp happart.right_of_append).2.2 d hlast c hc hd with hdigit | hspace
  · rw [hstops c hc] at hdigit
    cases hdigit
  · exact congrArg not hspace

theorem scanNumber_of_words {ws : List (List Char)} (h : words cs = w :: ws) (hw : Numeral w n) :
    ∃ rest, scanNumber cs = some (n, rest) ∧ words rest = ws := by
  obtain ⟨rest, hword, hrest⟩ := scanWord_of_cons h
  obtain ⟨indent, rfl, hindent, -, -, hstops⟩ := scanWord_eq_some hword
  refine ⟨rest, scanNumber_append hindent hw fun c hc => ?_, hrest⟩
  exact isdigit_of_isspace (by simpa using hstops c hc)

end Numbers

/-! ## Lines -/

section Lines

variable {line w w' : List Char} {n : Int} {b : Bool}

theorem Tidy.scanInt_eq (h : Tidy line) : scanInt (visible line) = scanNumber line := by
  have hfits := h.step
  rw [visible_eq h.nul, scanInt]
  cases hnumber : scanNumber line with
  | none => rfl
  | some x =>
    rw [hnumber] at hfits
    rw [Option.map_some, toInt_of_fits (of_decide_eq_true hfits)]

theorem Tidy.sscanf_eq_two (h : Tidy line) :
    sscanf line = .two n w ↔ ∃ s, words line = [s, w] ∧ Numeral s n := by
  rw [sscanf, h.scanInt_eq]
  constructor
  · intro hscan
    split at hscan
    · cases hscan
    rename_i hnumber
    obtain ⟨s, hs, hwords⟩ := words_of_scanNumber h.apart hnumber
    split at hscan
    · cases hscan
    rename_i hword
    split at hscan
    · rename_i hnone
      cases hscan
      rw [words_of_scanWord hword, words_of_none hnone] at hwords
      exact ⟨s, hwords, hs⟩
    · cases hscan
  · rintro ⟨s, hwords, hs⟩
    obtain ⟨rest, hnumber, hrest⟩ := scanNumber_of_words hwords hs
    obtain ⟨rest', hword, hrest'⟩ := scanWord_of_cons hrest
    simp only [hnumber, hword, scanWord_of_nil hrest']

theorem Tidy.sscanf_eq_three (h : Tidy line) :
    sscanf line = .three n w w' ↔ ∃ s, words line = [s, w, w'] ∧ Numeral s n := by
  rw [sscanf, h.scanInt_eq]
  constructor
  · intro hscan
    split at hscan
    · cases hscan
    rename_i hnumber
    obtain ⟨s, hs, hwords⟩ := words_of_scanNumber h.apart hnumber
    split at hscan
    · cases hscan
    rename_i hword
    split at hscan
    · cases hscan
    rename_i rest' hword'
    cases hscan
    rw [words_of_scanWord hword, words_of_scanWord hword'] at hwords
    have hfew := h.few
    rw [hwords] at hfew
    have hnone : words rest' = [] :=
      eq_nil_of_length_eq_zero (by simp only [length_cons] at hfew; omega)
    rw [hnone] at hwords
    exact ⟨s, hwords, hs⟩
  · rintro ⟨s, hwords, hs⟩
    obtain ⟨rest, hnumber, hrest⟩ := scanNumber_of_words hwords hs
    obtain ⟨rest', hword, hrest'⟩ := scanWord_of_cons hrest
    obtain ⟨rest'', hword', -⟩ := scanWord_of_cons hrest'
    simp only [hnumber, hword, hword']

/-- The line gives an entry for step `n`, that of EXIT or another. -/
def Gives (line : List Char) (n : Int) (exit : Bool) : Prop :=
  ∃ e, lineEntry line = some (n, e) ∧ decide (e.command = .exit) = exit

theorem Tidy.gives_iff (h : Tidy line) : Gives line n b ↔ LineFormat line n b := by
  constructor
  · rintro ⟨e, hentry, rfl⟩
    unfold lineEntry at hentry
    split at hentry
    · cases hentry
    · rename_i hscan
      obtain ⟨rfl, heq⟩ := Option.ite_none_right_eq_some.mp hentry
      cases heq
      obtain ⟨s, hwords, hs⟩ := h.sscanf_eq_two.mp hscan
      exact .exit hwords hs
    · rename_i process command hscan
      obtain ⟨⟨hC, hdigits, hverb⟩, heq⟩ := Option.ite_none_right_eq_some.mp hentry
      cases heq
      obtain ⟨s, hwords, hs⟩ := h.sscanf_eq_three.mp hscan
      obtain ⟨digits, rfl⟩ : ∃ digits, process = 'C' :: digits := head?_eq_some_iff.mp hC
      have hne : digits ≠ [] := by
        rintro rfl
        exact h.numbered (by rw [hwords]; simp)
      have hcommand := LineFormat.command hwords hs (all_eq_true.mp hdigits) hne hverb
      rcases hverb with rfl | rfl
      all_goals exact hcommand
  · intro hformat
    cases hformat with
    | exit hwords hs =>
      refine ⟨⟨0, .exit, true⟩, ?_, rfl⟩
      simp only [lineEntry, h.sscanf_eq_two.mpr ⟨_, hwords, hs⟩, if_true]
    | @command s digits verb hwords hs hdigits hne hverb =>
      refine ⟨⟨atoi digits, if verb = ['S'] then .start else .terminate, true⟩, ?_, ?_⟩
      · simp only [lineEntry, h.sscanf_eq_three.mpr ⟨_, hwords, hs⟩]
        exact if_pos ⟨rfl, all_eq_true.mpr hdigits, hverb⟩
      · rcases hverb with rfl | rfl
        all_goals rfl

theorem forall₂_gives_iff {ls : List (List Char)} (h : ∀ line ∈ ls, Tidy line)
    (xs : List (Int × Bool)) : Forall₂ (fun line x => Gives line x.1 x.2) ls xs ↔
      Forall₂ (fun line x => LineFormat line x.1 x.2) ls xs := by
  induction ls generalizing xs with
  | nil => simp only [forall₂_nil_left_iff]
  | cons line ls ih =>
    simp only [forall₂_cons_left_iff, (h line mem_cons_self).gives_iff,
      ih fun l hl => h l (mem_cons_of_mem _ hl)]

end Lines

/-! ## Lines and the buffer of `fgets` -/

section Fgets

variable {n : Nat} {text cur : List Char}

-- The line begun is part of the first line.
theorem exists_line (d : Char) (cs cur : List Char) :
    ∃ l ∈ linesFrom (d :: cs) cur, cur.length < l.length := by
  induction cs generalizing d cur with
  | nil =>
    refine ⟨(d :: cur).reverse, ?_, by simp⟩
    rw [linesFrom]
    split <;> exact mem_cons_self
  | cons c cs ih =>
    rw [linesFrom]
    split
    · exact ⟨(d :: cur).reverse, mem_cons_self, by simp⟩
    · obtain ⟨l, hl, hlen⟩ := ih c (d :: cur)
      exact ⟨l, hl, by simp only [length_cons] at hlen; omega⟩

theorem fgetsFrom_of_fits (h : ∀ l ∈ linesFrom text cur, l.length < n) :
    fgetsFrom n text cur = linesFrom text cur := by
  induction text generalizing cur with
  | nil => cases cur <;> rfl
  | cons c cs ih =>
    rw [linesFrom] at h ⊢
    rw [fgetsFrom]
    by_cases hc : c = '\n'
    · rw [if_pos hc] at h ⊢
      rw [if_pos (.inl hc), ih fun l hl => h l (mem_cons_of_mem _ hl)]
    · rw [if_neg hc] at h ⊢
      by_cases hfull : cur.length + 2 = n
      · -- the buffer is full, so the text ends here
        cases cs with
        | nil =>
          rw [if_pos (.inr hfull)]
          rfl
        | cons d cs =>
          obtain ⟨l, hl, hlen⟩ := exists_line d cs (c :: cur)
          have hlt := h l hl
          rw [length_cons] at hlen
          omega
      · rw [if_neg (not_or.mpr ⟨hc, hfull⟩), ih h]

theorem fgetsAll_of_fits (h : ∀ l ∈ lines text, l.length < n) : fgetsAll n text = lines text :=
  fgetsFrom_of_fits h

end Fgets

/-! ## Acceptance -/

section Accept

variable {file : List Char}

-- The reader goes through the lines as long as each gives an entry, for a step not below the last.
theorem foldlM_readLine_iff (ls : List (List Char)) (r : Reader) :
    (∃ r', ls.foldlM Reader.readLine r = .ok r') ↔ ∃ xs : List (Int × Bool),
      Forall₂ (fun line x => Gives line x.1 x.2) ls xs ∧
        (r.lastStep :: xs.map Prod.fst).IsChain (· ≤ ·) := by
  induction ls generalizing r with
  | nil =>
    refine iff_of_true ⟨r, rfl⟩ ⟨[], .nil, .singleton _⟩
  | cons line ls ih =>
    constructor
    · rintro ⟨r', h⟩
      obtain ⟨r1, hline, h⟩ := bind_eq_ok.mp h
      obtain ⟨step, e, hentry, hle, rfl⟩ := Reader.readLine_eq_ok.mp hline
      obtain ⟨xs, hxs, hchain⟩ := (ih _).mp ⟨r', h⟩
      exact ⟨(step, decide (e.command = .exit)) :: xs, .cons ⟨e, hentry, rfl⟩ hxs,
        .cons_cons hle hchain⟩
    · rintro ⟨_, hlines, hchain⟩
      cases hlines with
      | @cons _ x _ xs hline hxs =>
        obtain ⟨e, hentry, -⟩ := hline
        obtain ⟨hle, hrest⟩ := isChain_cons_cons.mp hchain
        obtain ⟨r', h⟩ := (ih (r.take x.1 e)).mpr ⟨xs, hxs, hrest⟩
        refine ⟨r', ?_⟩
        rw [foldlM_cons, Reader.readLine_eq_ok.mpr ⟨x.1, e, hentry, hle, rfl⟩]
        exact h

theorem exits_le {ls : List (List Char)} {xs : List (Int × Bool)}
    (h : Forall₂ (fun line x => LineFormat line x.1 x.2) ls xs) :
    xs.countP (·.2) ≤ ls.countP fun line => ['E', 'X', 'I', 'T'] ∈ words line := by
  induction h with
  | nil => exact Nat.le_refl 0
  | @cons line x ls xs hline _ ih =>
    obtain ⟨n, exit⟩ := x
    cases exit with
    | false => exact ih.trans ((sublist_cons_self line ls).countP_le)
    | true =>
      have hmem : ['E', 'X', 'I', 'T'] ∈ words line := by
        cases hline with
        | exit hwords => simp [hwords]
      simpa [countP_cons, hmem] using ih

end Accept

end OsProjects.Dispatch
