import OsProjects.Dispatch.Format

/-!
# TextLoad — the text as `main` stores it

The first pass counts the strings that `fgets` returns, the second stores them in
`text_file_content`. Of every string but the last one the last character is cut off; that is the
newline, unless the line was longer than the buffer.
-/

namespace OsProjects.Dispatch

open List

/-- The loop over `text_file_content`: `n` rows are left after the first `i`, and `fgets` will
return the strings in the list.  `none` is the return after "Error reading line". -/
def loadRows (count : Nat) : (n i : Nat) → List (List Char) → Option (List (List Char))
  | 0, _, _ => some []
  | _ + 1, _, [] => none
  | n + 1, i, line :: rest =>
    -- `strncpy` stops at a NUL; the byte at `strlen(line1) - 1` becomes one
    let row := if i < count - 1 then (visible line).dropLast else visible line
    (loadRows count n (i + 1) rest).map (row :: ·)

/-- The strings in `text_file_content`. -/
def loadText (text : List Char) : Option (List (List Char)) :=
  let count := (fgetsAll 257 text).length
  loadRows count count 0 (fgetsAll 257 text)

/-- The characters other than newlines. -/
def printed (text : List Char) : List Char := text.filter (· ≠ '\n')

/-- What is stored of the strings: each without its last character, but for the last string. -/
def clipped : List (List Char) → List (List Char)
  | [] => []
  | [line] => [line]
  | line :: next :: rest => line.dropLast :: clipped (next :: rest)

theorem loadRows_eq {count i : Nat} {rest : List (List Char)} (hcount : i + rest.length = count)
    (hnul : ∀ line ∈ rest, '\x00' ∉ line) :
    loadRows count rest.length i rest = some (clipped rest) := by
  induction rest generalizing i with
  | nil => rfl
  | cons line rest ih =>
    have hrest := @ih (i + 1) (by simp only [length_cons] at hcount; omega)
      fun l hl => hnul l (mem_cons_of_mem line hl)
    rw [length_cons, loadRows, hrest, visible_eq (hnul line mem_cons_self)]
    cases rest with
    | nil =>
      rw [if_neg (by simp only [length_cons, length_nil] at hcount; omega)]
      rfl
    | cons next rest =>
      rw [if_pos (by simp only [length_cons] at hcount; omega)]
      rfl

theorem flatten_fgetsFrom (n : Nat) (text cur : List Char) :
    (fgetsFrom n text cur).flatten = cur.reverse ++ text := by
  induction text generalizing cur with
  | nil =>
    cases cur with
    | nil | cons c cur => rfl
  | cons c cs ih =>
    rw [fgetsFrom]
    split
    · rw [flatten_cons, ih, reverse_cons, append_assoc]
      rfl
    · rw [ih, reverse_cons, append_assoc]
      rfl

variable {text l : List Char}

theorem loadText_eq (hnul : '\x00' ∉ text) :
    loadText text = some (clipped (fgetsAll 257 text)) := by
  apply loadRows_eq (Nat.zero_add _)
  intro line hline hmem
  have hflat := flatten_fgetsFrom 257 text []
  apply hnul
  rw [reverse_nil, nil_append] at hflat
  rw [← hflat]
  exact mem_flatten.mpr ⟨line, hline, hmem⟩

/-! ## What is lost -/

theorem printed_append (l l' : List Char) : printed (l ++ l') = printed l ++ printed l' :=
  filter_append ..

theorem printed_concat {c : Char} :
    printed (l ++ [c]) = if c = '\n' then printed l else printed l ++ [c] := by
  rw [printed_append]
  split
  next hc =>
    rw [hc]
    exact append_nil _
  next hc =>
    congr 1
    exact filter_cons_of_pos (by simpa using hc)

theorem clipped_sublist (lines : List (List Char)) :
    (clipped lines).flatten.Sublist lines.flatten := by
  induction lines with
  | nil => exact List.Sublist.refl _
  | cons line rest ih =>
    cases rest with
    | nil => exact List.Sublist.refl _
    | cons next rest =>
      rw [clipped, flatten_cons, flatten_cons]
      exact (dropLast_sublist line).append ih

-- Nothing but newlines is cut off, or something is missing in the end.
theorem printed_clipped_iff {lines : List (List Char)} (hne : ∀ l ∈ lines, l ≠ []) :
    printed (clipped lines).flatten = printed lines.flatten ↔
      ∀ l ∈ lines.dropLast, l.getLast? = some '\n' := by
  induction lines with
  | nil => simp [clipped]
  | cons line rest ih =>
    cases rest with
    | nil => simp [clipped]
    | cons next rest =>
      have ih := ih fun l hl => hne l (mem_cons_of_mem line hl)
      obtain ⟨init, c, rfl⟩ : ∃ init c, line = init ++ [c] := by
        rcases eq_nil_or_concat line with rfl | ⟨init, c, rfl⟩
        · exact absurd rfl (hne [] mem_cons_self)
        · exact ⟨init, c, concat_eq_append⟩
      rw [clipped, flatten_cons, flatten_cons, printed_append, printed_append,
        dropLast_concat, printed_concat, dropLast_cons_of_ne_nil (cons_ne_nil _ _),
        forall_mem_cons, ← ih, List.getLast?_concat, Option.some_inj]
      split
      next hc =>
        rw [append_cancel_left_eq]
        exact (and_iff_right hc).symm
      next hc =>
        refine iff_of_false (fun heq => ?_) fun h => hc h.1
        have hlen := congrArg List.length heq
        have hle := ((clipped_sublist (next :: rest)).filter (· ≠ '\n')).length_le
        unfold printed at hlen
        simp only [length_append, length_singleton] at hlen
        omega

/-! ## Lines that fit the buffer -/

-- A string that is not the last ends with a newline, unless the buffer was full within a line.
theorem fgetsFrom_end_iff {n : Nat} (text cur : List Char) (hcur : cur.length + 2 ≤ n) :
    (∀ l ∈ (fgetsFrom n text cur).dropLast, l.getLast? = some '\n') ↔
      ∀ l ∈ linesFrom text cur, l.length < n := by
  induction text generalizing cur with
  | nil =>
    cases cur with
    | nil => exact iff_of_true (fun _ h => by cases h) (fun _ h => by cases h)
    | cons c cur =>
      refine iff_of_true (fun _ h => by cases h) (forall_mem_singleton.mpr ?_)
      rw [length_reverse]
      omega
  | cons c cs ih =>
    rw [fgetsFrom, linesFrom]
    by_cases hc : c = '\n'
    · rw [if_pos (.inl hc), if_pos hc, forall_mem_cons, ← ih [] (by simp; omega), length_reverse,
        length_cons]
      cases fgetsFrom n cs [] with
      | nil => simp; omega
      | cons l ls =>
        rw [dropLast_cons_of_ne_nil (cons_ne_nil _ _), forall_mem_cons, hc]
        simp; omega
    · rw [if_neg hc]
      by_cases hfull : cur.length + 2 = n
      · rw [if_pos (.inr hfull)]
        cases cs with
        | nil =>
          refine iff_of_true (fun _ h => by cases h) (forall_mem_singleton.mpr ?_)
          rw [length_reverse, length_cons]
          omega
        | cons d cs =>
          -- the string ends within the line
          have hne : fgetsFrom n (d :: cs) [] ≠ [] := by
            intro hnil
            have hflat := flatten_fgetsFrom n (d :: cs) []
            rw [hnil] at hflat
            cases hflat
          obtain ⟨l, hl, hlen⟩ := exists_line d cs (c :: cur)
          refine iff_of_false (fun h => ?_) fun h => ?_
          · rw [dropLast_cons_of_ne_nil hne] at h
            have hlast := h _ mem_cons_self
            rw [reverse_cons, List.getLast?_concat] at hlast
            exact hc (Option.some.inj hlast)
          · have hlt := h l hl
            rw [length_cons] at hlen
            omega
      · rw [if_neg (not_or.mpr ⟨hc, hfull⟩), ih]
        rw [length_cons]
        omega

theorem pieces_end_iff (text : List Char) :
    (∀ l ∈ (fgetsAll 257 text).dropLast, l.getLast? = some '\n') ↔ ¬TooLong text := by
  rw [fgetsAll, fgetsFrom_end_iff text [] (by decide)]
  simp only [TooLong, lines, not_exists, not_and, Nat.not_le]

theorem ne_nil_of_mem_fgetsFrom {n : Nat} {cur : List Char} (hl : l ∈ fgetsFrom n text cur) :
    l ≠ [] := by
  induction text generalizing cur with
  | nil =>
    cases cur with
    | nil => cases hl
    | cons c cur =>
      rw [mem_singleton.mp hl]
      simp
  | cons c cs ih =>
    rw [fgetsFrom] at hl
    split at hl
    · rcases mem_cons.mp hl with rfl | hl
      · simp
      · exact ih hl
    · exact ih hl

/-- The stored strings hold every printed character, once and in order, exactly when no line of the
text is longer than the buffer.  A longer one loses a character wherever it is broken. -/
theorem loadText_lossless_iff (text : List Char) (hnul : '\x00' ∉ text) :
    (∃ rows, loadText text = some rows ∧ printed rows.flatten = printed text) ↔ ¬TooLong text := by
  have hflat : (fgetsAll 257 text).flatten = text := flatten_fgetsFrom 257 text []
  have hne : ∀ l ∈ fgetsAll 257 text, l ≠ [] := fun l hl => ne_nil_of_mem_fgetsFrom hl
  rw [loadText_eq hnul, ← pieces_end_iff, ← printed_clipped_iff hne, hflat]
  simp

theorem loadText_lossless_iff_short :
    '\x00' ∉ "ab\ncd".toList ∧
      ((∃ rows, loadText "ab\ncd".toList = some rows ∧
        printed rows.flatten = printed "ab\ncd".toList) ↔ ¬TooLong "ab\ncd".toList) :=
  ⟨by decide, loadText_lossless_iff _ (by decide)⟩

-- Of 256 letters and a newline the buffer takes the letters, and the last one is lost.
theorem loadText_loses_char :
    let text := List.replicate 256 'a' ++ ['\n']
    let rows := [List.replicate 255 'a', ['\n']]
    '\x00' ∉ text ∧ loadText text = some rows ∧ printed rows.flatten ≠ printed text := by
  decide +kernel

end OsProjects.Dispatch
