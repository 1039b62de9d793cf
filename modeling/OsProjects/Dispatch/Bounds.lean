import OsProjects.Dispatch.Commands

/-!
# Bounds — the arrays of the dispatcher and their lengths

`commandsstruct` is declared with `last_number` entries, the number on the last line of the file;
`child_pid_name` and `active` have `MAX_CHILDREN`.
-/

namespace OsProjects.Dispatch

open Lib List

/-! ## Indices of the command table -/

/-- `last_number`, from the pass over the file before the table is declared. A token that does not
fit `col[3]` or `status[2]`, such as EXIT, is written over what is next to them. -/
def lastNumber (file : List Char) : Option Int :=
  (fgetsAll 257 file).foldlM (fun last line =>
    match sscanf line with
    | .fewer => some last
    | .two number col => if col.length < 3 then some number else none
    | .three number col status =>
      if col.length < 3 ∧ status.length < 2 then some number else none) 0

/-- The indices `step` of the table that are used for a line. -/
def Reader.touches (r : Reader) (line : List Char) : List Int :=
  match r.readLine line with
  | .error _ => []
  | .ok _ =>
    match sscanf line with
    | .fewer => []
    | .two step _ => if r.exitStepFound = false then [step] else []
    | .three step _ _ => [step]

/-- The indices used for the lines, up to one that is rejected. -/
def readTouches : Reader → List (List Char) → List Int
  | _, [] => []
  | r, line :: lines =>
    r.touches line ++
      match r.readLine line with
      | .error _ => []
      | .ok r' => readTouches r' lines

/-- The indices that the next step of the parent uses: `i`, and in `choose_random_active_child` the
ones up to `query_step`. -/
def State.touches {M : Nat} (cfg : Config) (s : State M) : List Nat :=
  match s.pc with
  | .top i => if (i : Int) ≤ cfg.finalStep then [i] else []
  | .register i _ => [i]
  | .select i => if s.running > 0 ∧ (i : Int) ≤ cfg.finalStep then List.range (i + 1) else []
  | _ => []

/-- Every index is one of a table of that length. -/
structure TableInRange (file : List Char) (length : Int) : Prop where
  reading : ∀ n ∈ readTouches .init (fgetsAll 257 file), 0 ≤ n ∧ n < length
  looping : ∀ cfg, readConfig file = .ok cfg → ∀ (M : Nat) (content : List Line) (s : State M),
    s.Reached cfg content → ∀ i ∈ s.touches cfg, (i : Int) < length

/-! ## What is stored of a file -/

/-- The lines before the first that is malformed or has a lower step than the one before it. -/
def leading : Int → List (List Char) → List (Int × Opcommand)
  | _, [] => []
  | last, line :: lines =>
    match lineEntry line with
    | none => []
    | some x => if last ≤ x.1 then x :: leading x.1 lines else []

/-- The steps of the commands and of the first EXIT; `found` says whether one came before. -/
def storedSteps : Bool → List (Int × Opcommand) → List Int
  | _, [] => []
  | found, (step, e) :: xs =>
    (if found = true ∧ e.command = .exit then [] else [step]) ++
      storedSteps (found || decide (e.command = .exit)) xs

/-- No command line, and not the first EXIT line, has the number of the last line or
a greater one. -/
def EndsHigher (file : List Char) : Prop :=
  ∀ last ∈ lastNumber file, ∀ n ∈ storedSteps false (leading 0 (fgetsAll 257 file)), n < last

section Reading

variable {r r' : Reader} {line : List Char} {lines : List (List Char)}

theorem Reader.touches_take {step : Int} {e : Opcommand} (hentry : lineEntry line = some (step, e))
    (hread : r.readLine line = .ok r') : r.touches line =
      if r.exitStepFound = true ∧ e.command = .exit then [] else [step] := by
  unfold lineEntry at hentry
  simp only [Reader.touches, hread]
  cases hscan : sscanf line with
  | fewer => simp [hscan] at hentry
  | two n command =>
    simp only [hscan, Option.ite_none_right_eq_some] at hentry
    obtain ⟨-, heq⟩ := hentry
    cases heq
    cases r.exitStepFound <;> rfl
  | three n process command =>
    simp only [hscan, Option.ite_none_right_eq_some] at hentry
    obtain ⟨-, heq⟩ := hentry
    cases heq
    have hne : (if command = ['S'] then Verb.start else .terminate) ≠ .exit := by
      split <;> nofun
    simp [hne]

theorem readTouches_eq (r : Reader) (lines : List (List Char)) :
    readTouches r lines = storedSteps r.exitStepFound (leading r.lastStep lines) := by
  induction lines generalizing r with
  | nil => rfl
  | cons line lines ih =>
    rw [readTouches, leading]
    cases hread : r.readLine line with
    | error msg =>
      simp only [Reader.touches, hread]
      cases hentry : lineEntry line with
      | none => rfl
      | some x =>
        have hlate : ¬ r.lastStep ≤ x.1 := by
          intro hle
          rw [Reader.readLine_eq_ok.mpr ⟨x.1, x.2, hentry, hle, rfl⟩] at hread
          cases hread
        simp only [if_neg hlate]
        rfl
    | ok r' =>
      obtain ⟨step, e, hentry, hle, rfl⟩ := Reader.readLine_eq_ok.mp hread
      simp only [Reader.touches_take hentry hread, hentry, if_pos hle, ih, storedSteps]
      rfl

theorem nonneg_of_mem_leading {last : Int} (hlast : 0 ≤ last) {x : Int × Opcommand}
    (hx : x ∈ leading last lines) : 0 ≤ x.1 := by
  induction lines generalizing last with
  | nil => cases hx
  | cons line lines ih =>
    rw [leading] at hx
    split at hx
    · cases hx
    · split at hx
      · rename_i hle
        rcases mem_cons.mp hx with rfl | hx
        · exact hlast.trans hle
        · exact ih (hlast.trans hle) hx
      · cases hx

theorem exists_of_mem_storedSteps {found : Bool} {xs : List (Int × Opcommand)} {n : Int}
    (hn : n ∈ storedSteps found xs) : ∃ x ∈ xs, x.1 = n := by
  induction xs generalizing found with
  | nil => cases hn
  | cons x xs ih =>
    rcases mem_append.mp hn with hn | hn
    · refine ⟨x, mem_cons_self, ?_⟩
      split at hn
      · cases hn
      · exact (mem_singleton.mp hn).symm
    · obtain ⟨y, hy, heq⟩ := ih hn
      exact ⟨y, mem_cons_of_mem x hy, heq⟩

-- `final_step` is a step that was written, or still -1.
theorem finalStep_touched (h : lines.foldlM Reader.readLine r = .ok r') :
    r'.finalStep = r.finalStep ∨ r'.finalStep ∈ readTouches r lines := by
  induction lines generalizing r with
  | nil =>
    cases h
    exact .inl rfl
  | cons line lines ih =>
    obtain ⟨r1, hread, h⟩ := bind_eq_ok.mp h
    obtain ⟨step, e, hentry, -, rfl⟩ := Reader.readLine_eq_ok.mp hread
    simp only [readTouches, hread, mem_append]
    rcases ih h with heq | hmem
    · rw [heq, Reader.touches_take hentry hread]
      show (if _ then step else r.finalStep) = _ ∨ (if _ then step else r.finalStep) ∈ _ ∨ _
      split
      · rename_i hnew
        rw [if_neg fun hold => by rw [hnew.2] at hold; cases hold.1]
        exact .inr (.inl mem_cons_self)
      · exact .inl rfl
    · exact .inr (.inr hmem)

end Reading

/-! ## The step loop -/

section Loop

variable {M : Nat} {s s' : State M} {cfg : Config} {content : List Line} {i : Nat}

/-- Inside the loop the step is at most `final_step`; and `child_pid_name` has no more entries than
there were start commands. -/
def ParentPc.Filled (cfg : Config) (count : Nat) : ParentPc M → Prop
  | .top i => i ≤ cfg.steps ∧ count ≤ starts cfg.commandsstruct i
  | .register i _ => i < cfg.steps ∧ count < starts cfg.commandsstruct (i + 1)
  | .awaitCommand i | .tell i _ | .tellStep i _ | .scan i .. | .clear i _ | .wake i _ | .select i
  | .put i .. | .post i .. | .awaitLine i =>
    i < cfg.steps ∧ count ≤ starts cfg.commandsstruct (i + 1)
  | _ => count ≤ starts cfg.commandsstruct cfg.steps

theorem filled_top (hpc : s.pc = .top i) (h : s.pc.Filled cfg s.childPidName.length) {c : Choice}
    (hok : s.parentStep cfg content c = .ok s') : s'.pc.Filled cfg s'.childPidName.length := by
  rw [hpc] at h
  have hall := h.2.trans (starts_mono cfg.commandsstruct h.1)
  have hnext := h.2.trans (starts_mono cfg.commandsstruct (Nat.le_succ i))
  cases parentStep_top hpc hok with
  | start hlast _ hverb hstart =>
    have hi := Config.lt_steps.mpr hlast
    rcases start_cases hstart with ⟨-, rfl⟩ | ⟨pid, -, -, -, rfl⟩
    · exact hall
    · refine ⟨hi, ?_⟩
      rw [starts_succ, if_pos hverb]
      exact Nat.lt_succ_of_le h.2
  | terminate hlast _ hverb =>
    have hi := Config.lt_steps.mpr hlast
    have hlen := @length_terminateEntries s.childPidName (cfg.commandsstruct i).process
    unfold State.terminate
    split
    · rename_i entries pid hfound
      rw [hfound] at hlen
      refine ⟨hi, ?_⟩
      rwa [hlen]
    · exact ⟨hi, hnext⟩
  | leave | finish => exact hall
  | pass hlast => exact ⟨Config.lt_steps.mpr hlast, hnext⟩

theorem filled_parentStep (h : s.pc.Filled cfg s.childPidName.length) {c : Choice}
    (hok : s.parentStep cfg content c = .ok s') : s'.pc.Filled cfg s'.childPidName.length := by
  cases hpc : s.pc with
  | top i => exact filled_top hpc h hok
  | register i pid =>
    rw [hpc] at h
    simp only [State.parentStep, hpc] at hok
    split at hok
    · refine Except.ok.inj hok ▸ ⟨h.1, ?_⟩
      rw [length_append]
      exact h.2
    · exact Except.ok.inj hok ▸ h.2.le.trans (starts_mono _ h.1)
  | select i =>
    rw [hpc] at h
    simp only [State.parentStep, hpc] at hok
    cases hok
    rcases select_cases s cfg content i c with ⟨k, line, hpc⟩ | hpc | hpc <;> rw [hpc]
    · exact h
    · exact h
    · exact h.2.trans (starts_mono _ h.1)
  | reap j =>
    rw [hpc] at h
    simp only [State.parentStep, hpc] at hok
    split at hok
    · exact Except.ok.inj hok ▸ h
    · split at hok
      · exact Except.ok.inj hok ▸ h
      · split at hok
        · refine Except.ok.inj hok ▸ ?_
          rwa [length_set]
        · cases hok
  | _ =>
    rw [hpc] at h
    simp only [State.parentStep, hpc] at hok
    repeat' split at hok
    all_goals first
      | exact Except.ok.inj hok ▸ h
      | cases hok

theorem State.Reached.filled (h : s.Reached cfg content) :
    s.pc.Filled cfg s.childPidName.length := by
  apply Reach.invariant h ⟨Nat.zero_le _, Nat.zero_le _⟩
  intro s e s' hs _ hok
  cases e with
  | child q =>
    obtain ⟨hpc, hentries, -⟩ := childStep_parent hok
    rwa [hpc, hentries]
  | parent c => exact filled_parentStep hs hok

theorem parentStep_running {c : Choice} (hok : s.parentStep cfg content c = .ok s') :
    s'.running ≤ s.running ∨ 0 < starts cfg.commandsstruct cfg.steps := by
  cases hpc : s.pc with
  | top i =>
    cases parentStep_top hpc hok with
    | start hlast _ hverb => exact .inr (starts_pos (Config.lt_steps.mpr hlast) hverb)
    | terminate =>
      left
      unfold State.terminate
      split
      · exact Int.sub_le_self _ (by decide)
      · exact le_rfl
    | leave | finish | pass => exact .inl le_rfl
  | _ =>
    simp only [State.parentStep, hpc] at hok
    repeat' split at hok
    all_goals first
      | cases hok; exact .inl le_rfl
      | cases hok

-- Somebody runs only if there is a start command.
theorem State.Reached.starts_pos (h : s.Reached cfg content) (hrun : s.running > 0) :
    0 < starts cfg.commandsstruct cfg.steps := by
  by_contra hnone
  have hle : s.running ≤ 0 := by
    apply Reach.invariant h
    · exact le_rfl
    · intro s e s' hs _ hok
      cases e with
      | child q => rwa [(childStep_parent hok).2.2]
      | parent c => exact ((parentStep_running hok).resolve_right hnone).trans hs
  omega

theorem State.Reached.touches_le (h : s.Reached cfg content) (hi : i ∈ s.touches cfg) :
    (i : Int) ≤ cfg.finalStep := by
  have hfilled := h.filled
  unfold State.touches at hi
  split at hi
  · split at hi
    · rw [mem_singleton.mp hi]
      assumption
    · cases hi
  · rename_i n pid hpc
    rw [hpc] at hfilled
    rw [mem_singleton.mp hi]
    exact Config.lt_steps.mp hfilled.1
  · split at hi
    · rename_i hcond
      have hle := mem_range.mp hi
      omega
    · cases hi
  · cases hi

end Loop

/-- If the tokens fit the buffers of the pass, the indices are in range exactly when what is stored
has lower steps than the last line. -/
theorem table_in_range_iff {file : List Char} {last : Int} (hlast : lastNumber file = some last) :
    TableInRange file last ↔ EndsHigher file := by
  have htouches : readTouches .init (fgetsAll 257 file) =
      storedSteps false (leading 0 (fgetsAll 257 file)) := readTouches_eq _ _
  constructor
  · intro h last' hlast' n hn
    rw [← htouches] at hn
    rw [← Option.some.inj (hlast.symm.trans hlast')]
    exact (h.reading n hn).2
  · intro h
    have h := h last hlast
    refine ⟨fun n hn => ?_, fun cfg hread M content s hs i hi => ?_⟩
    · rw [htouches] at hn
      obtain ⟨x, hx, rfl⟩ := exists_of_mem_storedSteps hn
      exact ⟨nonneg_of_mem_leading le_rfl hx, h x.1 hn⟩
    · have hle := hs.touches_le hi
      obtain ⟨r, hlines, rfl⟩ := readConfig_eq_ok.mp hread
      rcases finalStep_touched hlines with hnone | hmem
      · have hfinal : r.finalStep = -1 := hnone
        change (i : Int) ≤ r.finalStep at hle
        omega
      · rw [htouches] at hmem
        exact lt_of_le_of_lt hle (h r.finalStep hmem)

-- The last line is rejected, after the first two were stored.
theorem table_in_range_rejected : lastNumber "0 C1 S\n2 C2 T\n5 X\n".toList = some 5 ∧
    TableInRange "0 C1 S\n2 C2 T\n5 X\n".toList 5 := by
  have hlast : lastNumber "0 C1 S\n2 C2 T\n5 X\n".toList = some 5 := by decide +kernel
  refine ⟨hlast, (table_in_range_iff hlast).mpr fun last hlast' => ?_⟩
  rw [← Option.some.inj (hlast.symm.trans hlast')]
  decide +kernel

-- The table gets one entry, and the second line is written to another.
theorem last_out_of_range : lastNumber "0 C1 S\n1 C2 S\n".toList = some 1 ∧
    ¬ TableInRange "0 C1 S\n1 C2 S\n".toList 1 := by
  refine ⟨by decide +kernel, fun h => ?_⟩
  have hmem : (1 : Int) ∈ readTouches .init (fgetsAll 257 "0 C1 S\n1 C2 S\n".toList) := by
    decide +kernel
  exact absurd (h.reading 1 hmem).2 (lt_irrefl 1)

/-! ## Children -/

/-- `child_pid_name` has room for the entries it has, and for the one that comes next; and the
numbers that `choose_random_active_child` reads are indices of `active`. -/
structure State.ChildrenInRange {M : Nat} (cfg : Config) (s : State M) : Prop where
  count : s.childPidName.length ≤ MAX_CHILDREN
  register : ∀ i pid, s.pc = .register i pid → s.childPidName.length < MAX_CHILDREN
  active : ∀ i, s.pc = .select i → s.running > 0 → ∀ j ≤ i,
    (cfg.commandsstruct j).command = .start ∨ (cfg.commandsstruct j).command = .terminate →
      0 ≤ (cfg.commandsstruct j).process ∧ (cfg.commandsstruct j).process < MAX_CHILDREN

theorem ParentPc.Filled.count_le {M : Nat} {cfg : Config} {count : Nat} {pc : ParentPc M}
    (h : pc.Filled cfg count) : count ≤ starts cfg.commandsstruct cfg.steps := by
  cases pc with
  | top i => exact h.2.trans (starts_mono _ h.1)
  | register i pid => exact h.2.le.trans (starts_mono _ h.1)
  | awaitCommand | tell | tellStep | scan | clear | wake | select | put | post | awaitLine =>
    exact h.2.trans (starts_mono _ h.1)
  | _ => exact h

/-- In every run of a table with at most 100 start commands and numbers from 0 to 99, under any
limit, the indices of the two arrays are in range. -/
theorem children_in_range {cfg : Config} (hcfg : cfg.ChildrenFit) {M : Nat} {content : List Line}
    {s : State M} (h : s.Reached cfg content) : s.ChildrenInRange cfg := by
  have hfilled := h.filled
  refine ⟨hfilled.count_le.trans hcfg.1, fun i pid hpc => ?_, fun i hpc hrun j hj => ?_⟩
  · rw [hpc] at hfilled
    exact lt_of_lt_of_le hfilled.2 ((starts_mono _ hfilled.1).trans hcfg.1)
  · have hstarts := h.starts_pos hrun
    rw [hpc] at hfilled
    exact hcfg.2 hstarts j (lt_of_le_of_lt hj hfilled.1)

theorem children_in_range_one : ∃ cfg, readConfig "0 C1 S\n5 EXIT\n".toList = .ok cfg ∧
    cfg.ChildrenFit ∧ ∃ s : State 2, s.Reached cfg [hi] ∧ s.pc = .select 0 ∧ s.running > 0 ∧
      s.ChildrenInRange cfg := by
  obtain ⟨cfg, hread, s, hs, hp⟩ := exists_reached "0 C1 S\n5 EXIT\n".toList [hi] (startEvents 7 0)
    (fun cfg (s : State 2) => decide (cfg.ChildrenFit ∧ s.pc = .select 0 ∧ s.running > 0))
    (by decide +kernel)
  obtain ⟨hcfg, hpc, hrun⟩ := of_decide_eq_true hp
  exact ⟨cfg, hread, hcfg, s, hs, hpc, hrun, children_in_range hcfg hs⟩

-- `C100` is started, and `active[100]` is set.
theorem number_out_of_range : ∃ cfg, readConfig "0 C100 S\n1 EXIT\n".toList = .ok cfg ∧
    ∃ s : State 1, s.Reached cfg [hi] ∧ ¬ s.ChildrenInRange cfg := by
  obtain ⟨cfg, hread, s, hs, hp⟩ := exists_reached "0 C100 S\n1 EXIT\n".toList [hi]
    (startEvents 7 0) (fun cfg (s : State 1) => decide (s.pc = .select 0 ∧ s.running > 0 ∧
      cfg.commandsstruct 0 = ⟨100, .start, true⟩)) (by decide +kernel)
  obtain ⟨hpc, hrun, hentry⟩ := of_decide_eq_true hp
  refine ⟨cfg, hread, s, hs, fun h => ?_⟩
  have hlt := h.active 0 hpc hrun 0 le_rfl (by rw [hentry]; exact .inl rfl)
  rw [hentry] at hlt
  exact absurd hlt.2 (lt_irrefl _)

end OsProjects.Dispatch
