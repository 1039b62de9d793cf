import Mathlib.Computability.Language

/-!
# Grep — the matcher of `grep.c`, and the regular expressions it implements

A string is the list of the bytes before its NUL.  A pattern is read as a sequence of items between
two optional anchors, and the items stand for a language.
-/

namespace OsProjects.User

open List

open Computability

/-! ## The matcher -/

-- `'*'`, `'.'`, `'^'` and `'$'`
abbrev STAR : UInt8 := 42
abbrev DOT : UInt8 := 46
abbrev CARET : UInt8 := 94
abbrev DOLLAR : UInt8 := 36

mutual

def matchhere (re text : List UInt8) : Bool :=
  match re with
  | [] => true
  | c :: re =>
    if re.head? = some STAR then matchstar c re.tail text
    else if c = DOLLAR ∧ re = [] then text = []
    else
      match text with
      | [] => false
      | t :: text => (c = DOT ∨ c = t) && matchhere re text
termination_by (re.length, text.length + 1)

def matchstar (c : UInt8) (re text : List UInt8) : Bool :=
  matchhere re text ||
    match text with
    | [] => false
    | t :: text => (t = c ∨ c = DOT) && matchstar c re text
termination_by (re.length, text.length + 2)

end

/-- The loop of `match`, which looks at the empty string as well. -/
def matchFrom (re : List UInt8) : List UInt8 → Bool
  | [] => matchhere re []
  | t :: text => matchhere re (t :: text) || matchFrom re text

/-- `match`, which is a keyword here. -/
def grepMatch (re text : List UInt8) : Bool :=
  if re.head? = some CARET then matchhere re.tail text else matchFrom re text

/-! ## Regular expressions -/

/-- A character or `.`, perhaps starred. -/
structure Item where
  c : UInt8
  starred : Bool

structure Regex where
  start : Bool
  items : List Item
  stop : Bool

/-- The one-letter words that a character of a pattern stands for. -/
def single (c : UInt8) : Language UInt8 := {w | ∃ t, w = [t] ∧ (c = DOT ∨ c = t)}

def Item.lang (i : Item) : Language UInt8 := if i.starred then (single i.c)∗ else single i.c

def Regex.lang (r : Regex) : Language UInt8 := (r.items.map Item.lang).prod

/-- Some substring of the text is in the language: a prefix or a suffix where the regular expression
is anchored. -/
def Regex.Matches (r : Regex) (text : List UInt8) : Prop :=
  ∃ pre, ∃ w ∈ r.lang, ∃ post, text = pre ++ w ++ post ∧ (r.start → pre = []) ∧ (r.stop → post = [])

def Regex.cons (i : Item) (r : Regex) : Regex := { r with items := i :: r.items }

/-- The items of a pattern from left to right, and whether a `$` ends it. -/
def readItems : List UInt8 → Regex
  | [] => ⟨false, [], false⟩
  | [c] => if c = DOLLAR then ⟨false, [], true⟩ else ⟨false, [⟨c, false⟩], false⟩
  | c :: d :: re =>
    if d = STAR then (readItems re).cons ⟨c, true⟩ else (readItems (d :: re)).cons ⟨c, false⟩

def readRegex (re : List UInt8) : Regex :=
  if re.head? = some CARET then { readItems re.tail with start := true } else readItems re

/-! ## The matcher decides the language -/

/-- The text begins with a word of `L`, and is one if `stop` is set. -/
def Begins (L : Language UInt8) (stop : Bool) (text : List UInt8) : Prop :=
  ∃ w ∈ L, ∃ post, text = w ++ post ∧ (stop → post = [])

section Begins

variable {L M : Language UInt8} {stop : Bool} {text : List UInt8} {c : UInt8}

theorem begins_one : Begins 1 stop text ↔ (stop → text = []) := by
  constructor
  · rintro ⟨w, rfl, post, rfl, hstop⟩
    exact hstop
  · exact fun hstop => ⟨[], rfl, text, rfl, hstop⟩

theorem begins_add : Begins (L + M) stop text ↔ Begins L stop text ∨ Begins M stop text := by
  constructor
  · rintro ⟨w, hw | hw, hrest⟩
    · exact .inl ⟨w, hw, hrest⟩
    · exact .inr ⟨w, hw, hrest⟩
  · rintro (⟨w, hw, hrest⟩ | ⟨w, hw, hrest⟩)
    · exact ⟨w, .inl hw, hrest⟩
    · exact ⟨w, .inr hw, hrest⟩

theorem begins_single_mul : Begins (single c * L) stop text ↔
    ∃ t ts, text = t :: ts ∧ (c = DOT ∨ c = t) ∧ Begins L stop ts := by
  constructor
  · rintro ⟨-, ⟨-, ⟨t, rfl, hfit⟩, w, hw, rfl⟩, post, rfl, hstop⟩
    exact ⟨t, w ++ post, rfl, hfit, w, hw, post, rfl, hstop⟩
  · rintro ⟨t, -, rfl, hfit, w, hw, post, rfl, hstop⟩
    exact ⟨t :: w, ⟨[t], ⟨t, rfl, hfit⟩, w, hw, rfl⟩, post, rfl, hstop⟩

-- No letter, or one and more of the same.
theorem begins_star_mul : Begins ((single c)∗ * L) stop text ↔ Begins L stop text ∨
    ∃ t ts, text = t :: ts ∧ (c = DOT ∨ c = t) ∧ Begins ((single c)∗ * L) stop ts := by
  rw [← begins_single_mul, ← begins_add, ← mul_assoc]
  nth_rw 2 [← one_mul L]
  rw [← add_mul, Language.one_add_self_mul_kstar_eq_kstar]

end Begins

/-- The text begins as the items ask. -/
def Regex.Begins (r : Regex) (text : List UInt8) : Prop := User.Begins r.lang r.stop text

theorem matchstar_iff {c : UInt8} {re : List UInt8} {r : Regex}
    (hrest : ∀ text, matchhere re text = true ↔ r.Begins text) (text : List UInt8) :
    matchstar c re text = true ↔ (r.cons ⟨c, true⟩).Begins text := by
  change _ ↔ User.Begins ((single c)∗ * r.lang) r.stop text
  induction text with
  | nil =>
    rw [matchstar, begins_star_mul, Bool.or_false, hrest]
    exact (or_iff_left (by rintro ⟨t, ts, hnil, -⟩; cases hnil)).symm
  | cons t text ih =>
    rw [matchstar, begins_star_mul, Bool.or_eq_true, hrest, Bool.and_eq_true, ih, decide_eq_true_eq]
    refine or_congr_right ⟨fun ⟨hfit, h⟩ => ⟨t, text, rfl, ?_, h⟩, ?_⟩
    · exact hfit.symm.imp_right Eq.symm
    · rintro ⟨t', ts, heq, hfit, h⟩
      cases heq
      exact ⟨hfit.symm.imp_left Eq.symm, h⟩

-- An item without a star takes one letter.
theorem matchhere_one {c : UInt8} {re : List UInt8} {r : Regex} (hstar : re.head? ≠ some STAR)
    (hdollar : ¬ (c = DOLLAR ∧ re = [])) (hrest : ∀ text, matchhere re text = true ↔ r.Begins text)
    (text : List UInt8) : matchhere (c :: re) text = true ↔ (r.cons ⟨c, false⟩).Begins text := by
  change _ ↔ User.Begins (single c * r.lang) r.stop text
  rw [matchhere.eq_def, begins_single_mul]
  simp only [if_neg hstar, if_neg hdollar]
  cases text with
  | nil => exact iff_of_false nofun (by rintro ⟨t, ts, hnil, -⟩; cases hnil)
  | cons t text =>
    rw [Bool.and_eq_true, hrest, decide_eq_true_eq]
    refine ⟨fun ⟨hfit, h⟩ => ⟨t, text, rfl, hfit, h⟩, ?_⟩
    rintro ⟨t', ts, heq, hfit, h⟩
    cases heq
    exact ⟨hfit, h⟩

theorem matchhere_iff (re text : List UInt8) :
    matchhere re text = true ↔ (readItems re).Begins text := by
  have hnil : ∀ text, matchhere [] text = true ↔ (readItems []).Begins text := fun text => by
    rw [matchhere]
    exact iff_of_true rfl (begins_one.mpr nofun)
  fun_induction readItems re generalizing text with
  | case1 => exact hnil text
  | case2 =>
    rw [matchhere.eq_def]
    refine decide_eq_true_iff.trans ?_
    exact (begins_one.trans (forall_prop_of_true rfl)).symm
  | case3 c hdollar => exact matchhere_one (by simp) (fun h => hdollar h.1) hnil text
  | case4 c re ih =>
    rw [matchhere.eq_def]
    exact matchstar_iff ih text
  | case5 c d re hstar ih => exact matchhere_one (by simpa using hstar) (by simp) ih text

theorem matchFrom_iff (re text : List UInt8) :
    matchFrom re text = true ↔ ∃ pre post, text = pre ++ post ∧ (readItems re).Begins post := by
  induction text with
  | nil =>
    rw [matchFrom, matchhere_iff]
    refine ⟨fun h => ⟨[], [], rfl, h⟩, ?_⟩
    rintro ⟨pre, post, heq, h⟩
    rwa [(append_eq_nil_iff.mp heq.symm).2] at h
  | cons t text ih =>
    rw [matchFrom, Bool.or_eq_true, matchhere_iff, ih]
    constructor
    · rintro (h | ⟨pre, post, rfl, h⟩)
      · exact ⟨[], t :: text, rfl, h⟩
      · exact ⟨t :: pre, post, rfl, h⟩
    · rintro ⟨_ | ⟨t', pre⟩, post, heq, h⟩
      · cases heq
        exact .inl h
      · cases heq
        exact .inr ⟨pre, post, rfl, h⟩

theorem readItems_start (re : List UInt8) : (readItems re).start = false := by
  fun_induction readItems re with
  | case1 | case2 | case3 => rfl
  | case4 c re ih | case5 c d re hd ih => exact ih

/-- The matcher implements its regular expressions. -/
theorem grepMatch_iff (pattern text : List UInt8) :
    grepMatch pattern text = true ↔ (readRegex pattern).Matches text := by
  unfold grepMatch readRegex Regex.Matches
  by_cases hcaret : pattern.head? = some CARET
  · rw [if_pos hcaret, if_pos hcaret, matchhere_iff]
    constructor
    · rintro ⟨w, hw, post, heq, hstop⟩
      exact ⟨[], w, hw, post, heq, fun _ => rfl, hstop⟩
    · rintro ⟨pre, w, hw, post, heq, hstart, hstop⟩
      rw [hstart rfl] at heq
      exact ⟨w, hw, post, heq, hstop⟩
  · rw [if_neg hcaret, if_neg hcaret, matchFrom_iff, readItems_start]
    constructor
    · rintro ⟨pre, -, rfl, w, hw, post, rfl, hstop⟩
      exact ⟨pre, w, hw, post, (append_assoc ..).symm, nofun, hstop⟩
    · rintro ⟨pre, w, hw, post, heq, -, hstop⟩
      exact ⟨pre, w ++ post, by rw [heq, append_assoc], w, hw, post, rfl, hstop⟩

/-! ## The lines of the input -/

abbrev NL : UInt8 := 10

/-- `strchr(p, '\n')`: what is before and behind the first newline of the string at `p`. -/
def strchr : List UInt8 → Option (List UInt8 × List UInt8)
  | [] => none
  | b :: p =>
    if b = 0 then none
    else if b = NL then some ([], p)
    else (strchr p).map fun (line, rest) => (b :: line, rest)

theorem strchr_some {p line rest : List UInt8} (h : strchr p = some (line, rest)) :
    p = line ++ NL :: rest ∧ NL ∉ line := by
  fun_induction strchr p generalizing line with
  | case1 | case2 => cases h
  | case3 p => cases h; exact ⟨rfl, not_mem_nil⟩
  | case4 b p hnul hnl ih =>
    obtain ⟨⟨line', rest'⟩, hp, heq⟩ := Option.map_eq_some_iff.mp h
    cases heq
    obtain ⟨rfl, hnot⟩ := ih hp
    exact ⟨rfl, not_mem_cons_of_ne_of_not_mem (Ne.symm hnl) hnot⟩

theorem strchr_none {p : List UInt8} (h : strchr p = none) (hnul : 0 ∉ p) : NL ∉ p := by
  fun_induction strchr p with
  | case1 => exact not_mem_nil
  | case2 p => exact absurd mem_cons_self hnul
  | case3 p => cases h
  | case4 b p _ hnl ih =>
    exact not_mem_cons_of_ne_of_not_mem (Ne.symm hnl)
      (ih (Option.map_eq_none_iff.mp h) fun hmem => hnul (mem_cons_of_mem b hmem))

/-- The inner loop of `grep`: what is written, and the bytes from `p` on. -/
def scan (pattern p : List UInt8) : List UInt8 × List UInt8 :=
  match _h : strchr p with
  | none => ([], p)
  | some (line, rest) =>
    match scan pattern rest with
    | (out, p) => ((if grepMatch pattern line then line ++ [NL] else []) ++ out, p)
termination_by p.length
decreasing_by
  rw [(strchr_some _h).1]
  simp only [length_append, length_cons]
  omega

/-- `read`: a part of the input that is not empty if there is input and room; `split`
says how much. -/
def readSome (split : Nat → Nat) (count : Nat) (input : List UInt8) : List UInt8 :=
  input.take (min count (split input.length + 1))

/-- The outer loop, with the first `m` bytes of `buf`. -/
def grepLoop (pattern : List UInt8) (split : Nat → Nat) (buf input : List UInt8) : List UInt8 :=
  let got := readSome split (1024 - buf.length - 1) input
  if _h : got = [] then []
  else
    match scan pattern (buf ++ got) with
    | (out, p) => out ++ grepLoop pattern split p (input.drop got.length)
termination_by input.length
decreasing_by
  have hpos : 0 < (readSome split (1024 - buf.length - 1) input).length := length_pos_iff.mpr _h
  have hle : (readSome split (1024 - buf.length - 1) input).length ≤ input.length :=
    length_take_le' _ _
  rw [length_drop]
  omega

def grep (pattern : List UInt8) (split : Nat → Nat) (input : List UInt8) : List UInt8 :=
  grepLoop pattern split [] input

/-- The newline-terminated lines. -/
def lines (input : List UInt8) : List (List UInt8) := (input.splitOn NL).dropLast

/-- The lines that match, in order. -/
def emit (pattern : List UInt8) (ls : List (List UInt8)) : List UInt8 :=
  (ls.filter (grepMatch pattern)).flatMap (· ++ [NL])

section Lines

variable {pattern p line rest buf input : List UInt8}

theorem lines_of_not_mem (h : NL ∉ p) : lines p = [] := by
  rw [lines, splitOn_eq_singleton h]
  rfl

theorem lines_append_cons (h : NL ∉ line) : lines (line ++ NL :: rest) = line :: lines rest := by
  have hline : ∀ b ∈ line, (b == NL) = false := fun b hb =>
    beq_false_of_ne fun heq => h (heq ▸ hb)
  rw [lines, List.splitOn, splitOnP_append_cons_of_forall_mem hline NL (beq_self_eq_true _),
    dropLast_cons_of_ne_nil (splitOnP_ne_nil _ _)]
  rfl

theorem emit_append (pattern : List UInt8) (ls ls' : List (List UInt8)) :
    emit pattern (ls ++ ls') = emit pattern ls ++ emit pattern ls' := by
  rw [emit, filter_append, flatMap_append]
  rfl

-- The inner loop deals with the lines that are complete, however the input goes on.
theorem scan_spec (pattern : List UInt8) (hnul : 0 ∉ p) : ∃ ls rest,
    scan pattern p = (emit pattern ls, rest) ∧ NL ∉ rest ∧ rest <:+ p ∧
    (∀ line ∈ ls, line.length < p.length) ∧
    ∀ input, lines (p ++ input) = ls ++ lines (rest ++ input) := by
  fun_induction scan pattern p with
  | case1 p h => exact ⟨[], p, rfl, strchr_none h hnul, suffix_rfl, nofun, fun _ => rfl⟩
  | case2 p line rest h out q hscan ih =>
    obtain ⟨rfl, hnl⟩ := strchr_some h
    obtain ⟨ls, q', hq, hlast, hsuffix, hshort, hlines⟩ := ih fun hmem => hnul (by simp [hmem])
    have hrest : rest <:+ line ++ NL :: rest := ⟨line ++ [NL], by simp⟩
    cases hscan.symm.trans hq
    refine ⟨line :: ls, q, ?_, hlast, hsuffix.trans hrest, forall_mem_cons.mpr ⟨?_, ?_⟩,
      fun input => ?_⟩
    · unfold emit
      rw [filter_cons]
      split <;> rfl
    · rw [length_append, length_cons]
      omega
    · exact fun line hline => (hshort line hline).trans_le hrest.length_le
    · rw [append_assoc, cons_append, lines_append_cons hnl, hlines, cons_append]

-- What is in the buffer belongs to the next line.
theorem lines_append (input : List UInt8) (h : NL ∉ buf) : lines (buf ++ input) = [] ∨
    ∃ w ls, lines (buf ++ input) = (buf ++ w) :: ls := by
  by_cases hnl : NL ∈ input
  · obtain ⟨w, rest, rfl, hw⟩ := eq_append_cons_of_mem hnl
    rw [← append_assoc]
    exact .inr ⟨w, lines rest, lines_append_cons (by simp [h, hw])⟩
  · exact .inl (lines_of_not_mem (by simp [h, hnl]))

theorem readSome_eq_nil {split : Nat → Nat} {count : Nat} (h : readSome split count input = []) :
    count = 0 ∨ input = [] := by
  rw [readSome, take_eq_nil_iff] at h
  exact h.imp_left fun hmin => by omega

/-- However the input is split, `grep` writes the matching lines before the first long one. -/
theorem grepLoop_eq (split : Nat → Nat) (hnl : NL ∉ buf) (hlen : buf.length ≤ 1023)
    (hnul : 0 ∉ buf ++ input) : grepLoop pattern split buf input =
      emit pattern ((lines (buf ++ input)).takeWhile (·.length < 1023)) := by
  fun_induction grepLoop pattern split buf input with
  | case1 buf input got hgot =>
    rcases lines_append input hnl with hnone | ⟨w, ls, hfirst⟩
    · rw [hnone]
      rfl
    · rcases readSome_eq_nil hgot with hfull | rfl
      · rw [hfirst, takeWhile_cons_of_neg (by simp; omega)]
        rfl
      · rw [append_nil, lines_of_not_mem hnl]
        rfl
  | case2 buf input got hgot out p hscan ih =>
    have hinput : input = got ++ input.drop got.length :=
      prefix_iff_eq_append.mp ( take_prefix _ _) |>.symm
    have hgot : got.length ≤ 1023 - buf.length := (length_take_le _ _).trans (by omega)
    generalize input.drop got.length = later at *
    rw [hinput, ← append_assoc, mem_append, not_or] at hnul
    obtain ⟨ls, q, hq, hlast, hsuffix, hshort, hlines⟩ := scan_spec pattern hnul.1
    cases hscan.symm.trans hq
    have hle := hsuffix.length_le
    rw [length_append] at hle hshort
    have hnul' : 0 ∉ p ++ later := fun hmem =>
      (mem_append.mp hmem).elim (fun hp => hnul.1 (hsuffix.subset hp)) hnul.2
    rw [ih hlast (by omega) hnul', hinput, ← append_assoc, hlines,
      takeWhile_append_of_pos fun line hline => ?_, emit_append]
    exact decide_eq_true ((hshort line hline).trans_le (by omega))

theorem grep_eq (split : Nat → Nat) (hnul : 0 ∉ input) : grep pattern split input =
    emit pattern ((lines input).takeWhile (·.length < 1023)) :=
  grepLoop_eq split not_mem_nil (Nat.zero_le _) hnul

theorem emit_eq_nil {ls : List (List UInt8)} :
    emit pattern ls = [] ↔ ∀ line ∈ ls, grepMatch pattern line = false := by
  simp [emit]

/-- `grep` writes the lines that match, however its input is split, exactly when no line matches
from the first one on that does not fit into the buffer. -/
theorem grep_writes_matches_iff (pattern : List UInt8) (split : Nat → Nat) (hnul : 0 ∉ input) :
    grep pattern split input = emit pattern (lines input) ↔
      ∀ line ∈ (lines input).dropWhile (·.length < 1023), grepMatch pattern line = false := by
  rw [grep_eq split hnul, ← emit_eq_nil]
  nth_rw 2 [← takeWhile_append_dropWhile (p := (·.length < 1023)) (l := lines input)]
  rw [emit_append, self_eq_append_right]

theorem lines_singleton (h : NL ∉ line) : lines (line ++ [NL]) = [line] := by
  rw [lines_append_cons h, lines_of_not_mem not_mem_nil]

end Lines

-- A line of ten bytes, read byte by byte.
theorem grep_writes_matches_short : grep [97] (fun _ => 0) (List.replicate 10 97 ++ [NL]) =
    emit [97] (lines (List.replicate 10 97 ++ [NL])) := by
  refine (grep_writes_matches_iff [97] (fun _ => 0) (by decide)).mpr fun line hline => ?_
  cases hline

/-- A line of 1023 bytes fills the buffer, and the next `read` has no room for its end. -/
theorem grep_loses_long_line : grep [CARET] (fun _ => 0) (List.replicate 1023 97 ++ [NL]) ≠
    emit [CARET] (lines (List.replicate 1023 97 ++ [NL])) := by
  have hnl : NL ∉ List.replicate 1023 (97 : UInt8) := fun h => by cases eq_of_mem_replicate h
  have hnul : 0 ∉ List.replicate 1023 (97 : UInt8) ++ [NL] := by
    rw [mem_append, mem_replicate, mem_singleton]
    decide
  rw [grep_eq _ hnul, lines_singleton hnl,
    takeWhile_cons_of_neg (by rw [length_replicate]; decide)]
  refine Ne.symm (mt emit_eq_nil.mp fun h => ?_)
  have hmatch : matchhere [] (List.replicate 1023 97) = false := h _ (mem_singleton_self _)
  rw [matchhere] at hmatch
  cases hmatch

end OsProjects.User
