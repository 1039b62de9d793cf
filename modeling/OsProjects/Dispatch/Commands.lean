import OsProjects.Dispatch.Alive
import OsProjects.Lib.Writes
import Mathlib.Data.List.Sort
import Mathlib.Data.List.TakeWhile

/-!
# Commands — from the lines of the configuration to the commands that the parent performs

The table has one entry for each step, so of two lines with the same step the later one stays.
-/

namespace OsProjects.Dispatch

open Lib List

/-- A start or terminate command. -/
structure Command where
  step : Nat
  process : Int
  verb : Verb
  deriving DecidableEq

def Command.entry (c : Command) : Opcommand := ⟨c.process, c.verb, true⟩

/-- What a line asks for. -/
inductive Item
  | command (c : Command)
  | exit (step : Nat)
  deriving DecidableEq

def Item.step : Item → Nat
  | .command c => c.step
  | .exit n => n

def Item.command? : Item → Option Command
  | .command c => some c
  | .exit _ => none

def Item.exit? : Item → Option Nat
  | .command _ => none
  | .exit n => some n

/-- What the reader makes of a line of the right form. -/
def item (line : List Char) : Option Item :=
  (lineEntry line).map fun x => if x.2.command = .exit then .exit x.1.toNat
    else .command ⟨x.1.toNat, x.2.process, x.2.command⟩

def items (file : List Char) : List Item := (fgetsAll 257 file).filterMap item

/-- What the line says, with the numbers as they are written. -/
def written (line : List Char) : Option Item :=
  match scanNumber (visible line), sscanf line with
  | some (n, _), .three _ process command => some (.command ⟨n.toNat, number process.tail,
      if command = ['S'] then .start else .terminate⟩)
  | some (n, _), .two _ _ => some (.exit n.toNat)
  | _, _ => none

def writtenItems (file : List Char) : List Item := (fgetsAll 257 file).filterMap written

/-- What follows the `C`. -/
def Scan.digits : Scan → List Char
  | .three _ process _ => process.tail
  | _ => []

/-- The numbers of the line fit an `int`. -/
def NumbersFit (line : List Char) : Prop :=
  (scanNumber (visible line)).all (fun x => decide (FitsInt x.1)) = true ∧
    FitsInt (number (sscanf line).digits)

instance (line : List Char) : Decidable (NumbersFit line) := inferInstanceAs (Decidable (_ ∧ _))

/-- The step of the first EXIT line. -/
def firstExit (xs : List Item) : Option Nat := xs.findSome? Item.exit?

def commands (xs : List Item) : List Command := xs.filterMap Item.command?

/-- The command lines up to the step of the first EXIT line. -/
def wanted (xs : List Item) : List Command :=
  (commands xs).filter fun c => match firstExit xs with
    | none => true
    | some n => c.step ≤ n

/-- The command of the entry at step `i`. -/
def Opcommand.command? (e : Opcommand) (i : Nat) : Option Command :=
  if e.commandExists = true ∧ (e.command = .start ∨ e.command = .terminate) then
    some ⟨i, e.process, e.command⟩
  else Option.none

/-- The commands of the first `n` entries of a table. -/
def commandsUpTo (table : Nat → Opcommand) (n : Nat) : List Command :=
  (List.range n).filterMap fun i => (table i).command? i

/-- The commands that the step loop comes upon. -/
def Config.commands (cfg : Config) : List Command := commandsUpTo cfg.commandsstruct cfg.steps

/-! ## What the reader writes -/

/-- The writes to the table; `found` says whether an EXIT line came before. -/
def writes : Bool → List Item → List (Nat × Opcommand)
  | _, [] => []
  | found, .command c :: xs => (c.step, c.entry) :: writes found xs
  | false, .exit n :: xs => (n, ⟨0, .exit, true⟩) :: writes true xs
  | true, .exit _ :: xs => writes true xs

/-- `final_step` after the lines. -/
def finalStep : Bool → Int → List Item → Int
  | _, last, [] => last
  | found, last, .command c :: xs =>
    finalStep found (if last < c.step ∧ found = false then c.step else last) xs
  | false, _, .exit n :: xs => finalStep true n xs
  | true, last, .exit _ :: xs => finalStep true last xs

/-- The reader after a line. -/
structure Reads (r : Reader) (x : Item) (r' : Reader) : Prop where
  ascending : r.lastStep ≤ x.step
  lastStep : r'.lastStep = x.step
  table : r'.commandsstruct = applyWrites r.commandsstruct (writes r.exitStepFound [x])
  finalStep : r'.finalStep = finalStep r.exitStepFound r.finalStep [x]
  found : r'.exitStepFound = (r.exitStepFound || x.exit?.isSome)
  verb : ∀ c, x = .command c → c.verb = .start ∨ c.verb = .terminate

theorem Reader.readLine_reads {r r' : Reader} {line : List Char} (hlast : 0 ≤ r.lastStep)
    (h : r.readLine line = .ok r') : ∃ x, item line = some x ∧ Reads r x r' := by
  obtain ⟨step, e, hentry, hle, rfl⟩ := Reader.readLine_eq_ok.mp h
  have hstep : ((step.toNat : Nat) : Int) = step := by omega
  have hitem : item line = _ := congrArg (Option.map _) hentry
  rw [Option.map_some] at hitem
  refine ⟨_, hitem, ?_⟩
  rcases lineEntry_cases hentry with rfl | ⟨hverb, hexists⟩
  · -- the first EXIT line is stored, a later one is passed over
    rw [if_pos rfl]
    cases hfound : r.exitStepFound
    all_goals
      refine ⟨hstep.symm ▸ hle, hstep.symm, ?_, ?_, ?_, fun _ h => by cases h⟩
      all_goals simp [Reader.take, Reader.store, writes, Dispatch.finalStep, Item.exit?, hfound,
        hstep]
  · have hne : e.command ≠ .exit := by
      rcases hverb with hverb | hverb
      all_goals
        rw [hverb]
        decide
    rw [if_neg hne]
    refine ⟨hstep.symm ▸ hle, hstep.symm, ?_, ?_, ?_, fun c hc => ?_⟩
    · obtain ⟨process, command, commandExists⟩ := e
      cases hexists
      simp [Reader.take, Reader.store, writes, Command.entry, hne]
    · simp [Reader.take, Dispatch.finalStep, hne, hstep]
    · simp [Reader.take, Item.exit?, hne]
    · cases hc
      exact hverb

theorem writes_cons (found : Bool) (x : Item) (xs : List Item) :
    writes found (x :: xs) = writes found [x] ++ writes (found || x.exit?.isSome) xs := by
  cases x with
  | command c =>
    rw [show (Item.command c).exit?.isSome = false from rfl, Bool.or_false]
    rfl
  | exit n => cases found <;> rfl

theorem finalStep_cons (found : Bool) (last : Int) (x : Item) (xs : List Item) :
    finalStep found last (x :: xs) =
      finalStep (found || x.exit?.isSome) (finalStep found last [x]) xs := by
  cases x with
  | command c =>
    rw [show (Item.command c).exit?.isSome = false from rfl, Bool.or_false]
    rfl
  | exit n => cases found <;> rfl

/-- The reader after all lines. -/
structure ReadsAll (r : Reader) (xs : List Item) (r' : Reader) : Prop where
  ascending : ∀ x ∈ xs, r.lastStep ≤ x.step
  sorted : xs.Pairwise fun x y => x.step ≤ y.step
  table : r'.commandsstruct = applyWrites r.commandsstruct (writes r.exitStepFound xs)
  finalStep : r'.finalStep = finalStep r.exitStepFound r.finalStep xs
  verb : ∀ c, .command c ∈ xs → c.verb = .start ∨ c.verb = .terminate

theorem foldlM_readsAll {lines : List (List Char)} {r r' : Reader} (hlast : 0 ≤ r.lastStep)
    (h : lines.foldlM Reader.readLine r = .ok r') : ReadsAll r (lines.filterMap item) r' := by
  induction lines generalizing r with
  | nil =>
    cases h
    exact ⟨nofun, .nil, rfl, rfl, nofun⟩
  | cons line lines ih =>
    rw [foldlM_cons] at h
    cases hline : r.readLine line with
    | error msg =>
      rw [hline] at h
      cases h
    | ok r1 =>
      rw [hline] at h
      obtain ⟨x, hx, hreads⟩ := Reader.readLine_reads hlast hline
      have hlast1 : 0 ≤ r1.lastStep := by
        rw [hreads.lastStep]
        exact Int.natCast_nonneg _
      have hall := ih hlast1 h
      rw [filterMap_cons_some hx]
      refine ⟨?_, ?_, ?_, ?_, ?_⟩
      · intro y hy
        rcases mem_cons.mp hy with rfl | hy
        · exact hreads.ascending
        · exact hreads.ascending.trans (hreads.lastStep ▸ hall.ascending y hy)
      · refine pairwise_cons.mpr ⟨fun y hy => ?_, hall.sorted⟩
        have hle := hall.ascending y hy
        rw [hreads.lastStep] at hle
        exact Int.ofNat_le.mp hle
      · rw [hall.table, hreads.table, hreads.found, ← applyWrites_append, ← writes_cons]
      · rw [hall.finalStep, hreads.finalStep, hreads.found, ← finalStep_cons]
      · intro c hc
        rcases mem_cons.mp hc with heq | hc
        · exact hreads.verb c heq.symm
        · exact hall.verb c hc

variable {file : List Char} {i n : Nat}

theorem scanNumber_of_sscanf {line : List Char} {step : Int} {w w' : List Char}
    (h : sscanf line = .two step w ∨ sscanf line = .three step w w') :
    ∃ n rest, scanNumber (visible line) = some (n, rest) ∧ toInt n = step := by
  unfold sscanf scanInt at h
  cases hnumber : scanNumber (visible line) with
  | none => simp [hnumber] at h
  | some x =>
    refine ⟨x.1, x.2, rfl, ?_⟩
    simp only [hnumber, Option.map_some] at h
    split at h
    · simp at h
    · split at h
      · simp_all
      · simp_all

theorem written_eq_item {line : List Char} (hfits : NumbersFit line)
    (hentry : (lineEntry line).isSome) : written line = item line := by
  unfold lineEntry at hentry
  unfold item written lineEntry
  obtain ⟨hstep, hprocess⟩ := hfits
  cases hscan : sscanf line with
  | fewer => simp [hscan] at hentry
  | two step command =>
    obtain ⟨n, rest, hnumber, rfl⟩ := @scanNumber_of_sscanf line step command [] (.inl hscan)
    rw [hnumber] at hstep
    simp only [hscan, hnumber] at hentry ⊢
    split at hentry
    · rename_i hexit
      simp [hexit, toInt_of_fits (of_decide_eq_true hstep)]
    · cases hentry
  | three step process command =>
    obtain ⟨n, rest, hnumber, rfl⟩ := scanNumber_of_sscanf (.inr hscan)
    rw [hnumber] at hstep
    simp only [hscan, hnumber, Scan.digits] at hentry hprocess ⊢
    split at hentry
    · rename_i hform
      have hne : (if command = ['S'] then Verb.start else .terminate) ≠ .exit := by
        split <;> nofun
      rw [if_pos hform]
      simp [hne, atoi, toInt_of_fits (of_decide_eq_true hstep), toInt_of_fits hprocess]
    · cases hentry

theorem readConfig_readsAll {cfg : Config} (h : readConfig file = .ok cfg) :
    ∃ r, ReadsAll .init (items file) r ∧ ⟨r.commandsstruct, r.finalStep⟩ = cfg := by
  obtain ⟨r, hread, rfl⟩ := readConfig_eq_ok.mp h
  exact ⟨r, foldlM_readsAll le_rfl hread, rfl⟩

theorem writtenItems_eq {cfg : Config} (hread : readConfig file = .ok cfg)
    (hfits : ∀ line ∈ fgetsAll 257 file, NumbersFit line) : writtenItems file = items file := by
  obtain ⟨r, h, -⟩ := readConfig_eq_ok.mp hread
  refine filterMap_congr fun line hline => written_eq_item (hfits line hline) ?_
  refine @foldlM_establishes _ _ _ _ (fun _ => True) (fun _ => (lineEntry line).isSome) _ _ hline
    (fun _ _ _ _ _ => trivial) (fun _ _ _ hsome _ => hsome) (fun _ _ _ hread => ?_) _ _ trivial h
  obtain ⟨step, e, hentry, -⟩ := Reader.readLine_eq_ok.mp hread
  rw [hentry]
  rfl

/-! ## The table and the lines -/

section Table

variable {xs : List Item} {c : Command} {n : Nat} {found : Bool}

theorem mem_commands : c ∈ commands xs ↔ .command c ∈ xs := by
  rw [commands, mem_filterMap]
  constructor
  · rintro ⟨x, hx, heq⟩
    cases x with
    | command d => exact Option.some.inj heq ▸ hx
    | exit n => cases heq
  · exact fun hc => ⟨_, hc, rfl⟩

theorem mem_wanted : c ∈ wanted xs ↔ .command c ∈ xs ∧ ∀ n, firstExit xs = some n → c.step ≤ n := by
  rw [wanted, mem_filter, mem_commands]
  cases firstExit xs with
  | none => simp only [reduceCtorEq, false_implies, implies_true]
  | some n => simp only [decide_eq_true_eq, Option.some.injEq, forall_eq']

theorem mem_writes_of_command (hc : .command c ∈ xs) : (c.step, c.entry) ∈ writes found xs := by
  induction xs generalizing found with
  | nil => cases hc
  | cons x xs ih =>
    rw [writes_cons]
    rcases mem_cons.mp hc with rfl | hc
    · exact mem_append_left _ mem_cons_self
    · exact mem_append_right _ (ih hc)

theorem mem_writes {w : Nat × Opcommand} (hw : w ∈ writes found xs) :
    (∃ c, .command c ∈ xs ∧ w = (c.step, c.entry)) ∨
      found = false ∧ ∃ n, firstExit xs = some n ∧ w = (n, ⟨0, .exit, true⟩) := by
  induction xs generalizing found with
  | nil => cases hw
  | cons x xs ih =>
    rw [writes_cons] at hw
    rcases mem_append.mp hw with hw | hw
    · cases x with
      | command c => exact .inl ⟨c, mem_cons_self, mem_singleton.mp hw⟩
      | exit n =>
        cases found with
        | true => cases hw
        | false => exact .inr ⟨rfl, n, rfl, mem_singleton.mp hw⟩
    · rcases ih hw with ⟨c, hc, heq⟩ | ⟨hfound, n, hn, heq⟩
      · exact .inl ⟨c, mem_cons_of_mem _ hc, heq⟩
      · rw [Bool.or_eq_false_iff] at hfound
        refine .inr ⟨hfound.1, n, ?_, heq⟩
        cases x with
        | command c => exact hn
        | exit m => cases hfound.2

theorem finalStep_found (last : Int) : finalStep true last xs = last := by
  induction xs with
  | nil => rfl
  | cons x xs ih =>
    cases x with
    | command c =>
      rwa [finalStep, if_neg fun h => Bool.noConfusion h.2]
    | exit n => exact ih

theorem finalStep_of_firstExit {last : Int} (h : firstExit xs = some n) :
    finalStep false last xs = n := by
  induction xs generalizing last with
  | nil => cases h
  | cons x xs ih =>
    cases x with
    | command c => exact ih h
    | exit m =>
      cases h
      exact finalStep_found _

theorem le_finalStep {last : Int} (h : firstExit xs = none) :
    last ≤ finalStep false last xs ∧ ∀ c, .command c ∈ xs → c.step ≤ finalStep false last xs := by
  induction xs generalizing last with
  | nil => exact ⟨le_rfl, nofun⟩
  | cons x xs ih =>
    cases x with
    | exit m => cases h
    | command c =>
      rw [finalStep]
      obtain ⟨hle, hall⟩ := @ih (if last < c.step ∧ false = false then c.step else last) h
      have hmax : last ≤ (if last < c.step ∧ false = false then (c.step : Int) else last) ∧
          c.step ≤ (if last < c.step ∧ false = false then (c.step : Int) else last) := by
        by_cases hlt : last < c.step
        · rw [if_pos ⟨hlt, rfl⟩]
          omega
        · rw [if_neg fun h => hlt h.1]
          omega
      refine ⟨hmax.1.trans hle, fun d hd => ?_⟩
      rcases mem_cons.mp hd with heq | hd
      · cases heq
        exact hmax.2.trans hle
      · exact hall d hd

-- The lines before the first EXIT line, that line and the lines after it.
theorem split_firstExit (h : firstExit xs = some n) :
    ∃ after, xs = (xs.takeWhile fun x => x.exit? = none) ++ .exit n :: after := by
  induction xs with
  | nil => cases h
  | cons x xs ih =>
    cases x with
    | exit m =>
      cases h
      exact ⟨xs, rfl⟩
    | command c =>
      obtain ⟨after, hafter⟩ := ih h
      refine ⟨after, ?_⟩
      rw [takeWhile_cons_of_pos rfl, cons_append, ← hafter]

theorem firstExit_takeWhile : firstExit (xs.takeWhile fun x => x.exit? = none) = none := by
  apply List.findSome?_eq_none_iff.mpr
  intro x hx
  simpa using mem_takeWhile_imp hx

theorem writes_append_of_firstExit {ys : List Item} (h : firstExit xs = none) :
    writes found (xs ++ ys) = writes found xs ++ writes found ys := by
  induction xs with
  | nil => rfl
  | cons x xs ih =>
    cases x with
    | exit m => cases h
    | command c =>
      show (c.step, c.entry) :: writes found (xs ++ ys) = _
      rw [ih h]
      rfl

end Table

/-! ## Nothing is lost -/

/-- No two of the wanted commands have the same step, and none before the first EXIT line has its
step. -/
def OneEach (xs : List Item) : Prop :=
  (wanted xs).Pairwise (fun c c' => c.step ≠ c'.step) ∧
    ∀ n, firstExit xs = some n → ∀ c ∈ commands (xs.takeWhile fun x => x.exit? = none), c.step ≠ n

/-- The wanted commands are in the table, each at its step; the EXIT line gives the last step; and
the step loop comes upon the wanted commands in the order of the file. -/
structure NothingLost (xs : List Item) (cfg : Config) : Prop where
  present : ∀ c ∈ wanted xs, cfg.commandsstruct c.step = c.entry
  final : ∀ n, firstExit xs = some n → cfg.finalStep = n
  inOrder : cfg.commands = wanted xs

section Kept

variable {xs : List Item} {r : Reader} {c : Command} {cfg : Config}

theorem Opcommand.command?_eq_some {e : Opcommand} :
    e.command? i = some c ↔ c.step = i ∧ e = c.entry ∧ (c.verb = .start ∨ c.verb = .terminate) := by
  unfold Opcommand.command?
  constructor
  · intro h
    split at h
    · rename_i hexists
      obtain ⟨process, command, commandExists⟩ := e
      cases h
      refine ⟨rfl, ?_, hexists.2⟩
      rw [Command.entry, show commandExists = true from hexists.1]
    · cases h
  · rintro ⟨rfl, rfl, hverb⟩
    exact if_pos ⟨rfl, hverb⟩

theorem Config.mem_commands :
    c ∈ cfg.commands ↔ c.step < cfg.steps ∧ cfg.commandsstruct c.step = c.entry ∧
      (c.verb = .start ∨ c.verb = .terminate) := by
  rw [Config.commands, commandsUpTo, mem_filterMap]
  constructor
  · rintro ⟨i, hi, heq⟩
    obtain ⟨rfl, hentry⟩ := Opcommand.command?_eq_some.mp heq
    exact ⟨mem_range.mp hi, hentry⟩
  · rintro ⟨hlt, hentry⟩
    exact ⟨c.step, mem_range.mpr hlt, Opcommand.command?_eq_some.mpr ⟨rfl, hentry⟩⟩

theorem Config.commands_sorted (cfg : Config) :
    cfg.commands.Pairwise fun c c' => c.step < c'.step := by
  refine pairwise_filterMap.mpr (pairwise_lt_range.imp ?_)
  intro i j hij c hc c' hc'
  rwa [(Opcommand.command?_eq_some.mp hc).1, (Opcommand.command?_eq_some.mp hc').1]

variable (h : ReadsAll .init xs r)

include h

theorem ReadsAll.final (hn : firstExit xs = some n) : r.finalStep = n := by
  rw [h.finalStep]
  exact finalStep_of_firstExit hn

-- The loop reaches the step of every wanted command.
theorem ReadsAll.lt_steps (hc : c ∈ wanted xs) :
    c.step < Config.steps ⟨r.commandsstruct, r.finalStep⟩ := by
  rw [Config.lt_steps]
  obtain ⟨hmem, hle⟩ := mem_wanted.mp hc
  cases hexit : firstExit xs with
  | some n =>
    rw [h.final hexit]
    exact Int.ofNat_le.mpr (hle n hexit)
  | none =>
    rw [h.finalStep]
    exact (le_finalStep hexit).2 c hmem

-- A command that the loop comes upon is that of a line.
theorem ReadsAll.wanted_of_command
    (hc : c ∈ Config.commands ⟨r.commandsstruct, r.finalStep⟩) : c ∈ wanted xs := by
  obtain ⟨hlt, hentry, hverb⟩ := Config.mem_commands.mp hc
  have hle : (c.step : Int) ≤ r.finalStep := Config.lt_steps.mp hlt
  have hentry : applyWrites Reader.init.commandsstruct (writes false xs) c.step = c.entry :=
    (congrFun h.table c.step).symm.trans hentry
  rcases applyWrites_cases Reader.init.commandsstruct (writes false xs) c.step with
    ⟨-, hnone⟩ | hmem
  · have hblank : false = true := congrArg Opcommand.commandExists (hnone.symm.trans hentry)
    cases hblank
  · rw [hentry] at hmem
    rcases mem_writes hmem with ⟨d, hd, heq⟩ | ⟨-, n, -, heq⟩
    · have hcd : c = d := by
        obtain ⟨step, process, verb⟩ := c
        cases heq
        rfl
      refine mem_wanted.mpr ⟨hcd ▸ hd, fun n hn => ?_⟩
      have hfinal := h.final hn
      omega
    · obtain ⟨-, hval⟩ := Prod.mk.inj heq
      rw [show c.verb = .exit from congrArg Opcommand.command hval] at hverb
      rcases hverb with hverb | hverb
      all_goals cases hverb

omit h in
-- The command of the step is the only one.
theorem OneEach.unique (hone : OneEach xs) (hc : c ∈ wanted xs) {d : Command} (hd : .command d ∈ xs)
    (hstep : d.step = c.step) : d = c := by
  by_contra hne
  have hwanted : d ∈ wanted xs :=
    mem_wanted.mpr ⟨hd, fun n hn => hstep ▸ (mem_wanted.mp hc).2 n hn⟩
  have hsymm : Std.Symm fun c c' : Command => c.step ≠ c'.step := ⟨fun _ _ hxy heq => hxy heq.symm⟩
  exact hone.1.forall hwanted hc hne hstep

theorem ReadsAll.present (hone : OneEach xs) (hc : c ∈ wanted xs) :
    r.commandsstruct c.step = c.entry := by
  have hmem := (mem_wanted.mp hc).1
  have hcommand : ∀ d v, .command d ∈ xs → (c.step, v) = (d.step, d.entry) → v = c.entry := by
    intro d v hd heq
    obtain ⟨hstep, rfl⟩ := Prod.mk.inj heq
    rw [hone.unique hc hd hstep.symm]
  rw [h.table]
  rcases applyWrites_cases Reader.init.commandsstruct (writes false xs) c.step with
    ⟨hnone, -⟩ | hval
  · exact absurd rfl (hnone _ (mem_writes_of_command hmem))
  rcases mem_writes hval with ⟨d, hd, heq⟩ | ⟨-, n, hn, heq⟩
  · exact hcommand d _ hd heq
  · -- the EXIT line has this step, so the command comes after it
    obtain ⟨hstep, -⟩ := Prod.mk.inj heq
    obtain ⟨after, hsplit⟩ := split_firstExit hn
    have hafter : .command c ∈ after := by
      rw [hsplit] at hmem
      rcases mem_append.mp hmem with hbefore | hrest
      · exact absurd hstep (hone.2 n hn c (mem_commands.mpr hbefore))
      · exact (mem_cons.mp hrest).resolve_left nofun
    rw [hsplit, writes_append_of_firstExit firstExit_takeWhile, applyWrites_append]
    generalize applyWrites Reader.init.commandsstruct _ = table
    rcases applyWrites_cases (Function.update table n ⟨0, .exit, true⟩) (writes true after) c.step
      with ⟨hnone, -⟩ | hval
    · exact absurd rfl (hnone _ (mem_writes_of_command hafter))
    · rcases mem_writes hval with ⟨d, hd, heq⟩ | ⟨hfound, -⟩
      · refine hcommand d _ ?_ heq
        rw [hsplit]
        exact mem_append_right _ (mem_cons_of_mem _ hd)
      · cases hfound

theorem ReadsAll.wanted_sorted (hone : OneEach xs) :
    (wanted xs).Pairwise fun c c' => c.step < c'.step := by
  have hle : (wanted xs).Pairwise fun c c' => c.step ≤ c'.step := by
    refine List.Pairwise.filter _ (pairwise_filterMap.mpr (h.sorted.imp ?_))
    rintro x y hxy c hc c' hc'
    cases x with
    | exit n => cases hc
    | command d =>
      cases y with
      | exit n => cases hc'
      | command d' =>
        cases hc
        cases hc'
        exact hxy
  exact (hle.and hone.1).imp fun hboth => Nat.lt_of_le_of_ne hboth.1 hboth.2

theorem ReadsAll.nothingLost (hone : OneEach xs) :
    NothingLost xs ⟨r.commandsstruct, r.finalStep⟩ where
  present c hc := h.present hone hc
  final n hn := h.final hn
  inOrder := by
    have hirrefl : Std.Irrefl fun c c' : Command => c.step < c'.step :=
      ⟨fun c => Nat.lt_irrefl c.step⟩
    have hasymm : Std.Asymm fun c c' : Command => c.step < c'.step := ⟨fun c c' => Nat.lt_asymm⟩
    refine (Config.commands_sorted _).eq_of_mem_iff (h.wanted_sorted hone) ?_
    intro c
    refine ⟨h.wanted_of_command,
      fun hc => Config.mem_commands.mpr ⟨h.lt_steps hc, h.present hone hc, ?_⟩⟩
    exact h.verb c (mem_wanted.mp hc).1

theorem ReadsAll.oneEach (hkept : NothingLost xs ⟨r.commandsstruct, r.finalStep⟩) : OneEach xs := by
  have hapart : (wanted xs).Pairwise fun c c' => c.step ≠ c'.step := by
    rw [← hkept.inOrder]
    exact (Config.commands_sorted _).imp Nat.ne_of_lt
  refine ⟨hapart, fun n hn c hc hstep => ?_⟩
  obtain ⟨after, hsplit⟩ := split_firstExit hn
  have hcmem : .command c ∈ xs := by
    rw [hsplit]
    exact mem_append_left _ (mem_commands.mp hc)
  have hcwanted : c ∈ wanted xs :=
    mem_wanted.mpr ⟨hcmem, fun m hm => by rw [hstep, Option.some.inj (hn.symm.trans hm)]⟩
  -- a command after the EXIT line with this step would be the second wanted one
  have hlast : ∀ w ∈ writes true after, w.1 ≠ n := by
    intro w hw heq
    rcases mem_writes hw with ⟨d, hd, rfl⟩ | ⟨hfound, -⟩
    · have heq : d.step = n := heq
      have hdwanted : d ∈ wanted xs := by
        refine mem_wanted.mpr ⟨?_, fun m hm => by rw [heq, Option.some.inj (hn.symm.trans hm)]⟩
        rw [hsplit]
        exact mem_append_right _ (mem_cons_of_mem _ hd)
      have hparts : commands xs =
          commands (xs.takeWhile fun x => x.exit? = none) ++ commands after := by
        conv_lhs => rw [hsplit]
        exact filterMap_append
      have hpairs := hapart
      rw [wanted, hparts, filter_append] at hpairs
      refine (pairwise_append.mp hpairs).2.2 c ?_ d ?_ (hstep.trans heq.symm)
      · exact mem_filter.mpr ⟨hc, (mem_filter.mp hcwanted).2⟩
      · exact mem_filter.mpr ⟨mem_commands.mpr hd, (mem_filter.mp hdwanted).2⟩
    · cases hfound
  have htable : r.commandsstruct n = ⟨0, .exit, true⟩ := by
    rw [h.table, hsplit, show Reader.init.exitStepFound = false from rfl,
      writes_append_of_firstExit firstExit_takeWhile]
    exact applyWrites_last _ _ _ _ hlast
  have hentry := hkept.present c hcwanted
  rw [hstep] at hentry
  have hexit : c.verb = .exit := congrArg Opcommand.command (hentry.symm.trans htable)
  have hverb := h.verb c hcmem
  rw [hexit] at hverb
  rcases hverb with hverb | hverb
  all_goals cases hverb

-- An entry that is no command is the EXIT entry, at the last step.
theorem ReadsAll.last_of_no_command (hexists : (r.commandsstruct i).commandExists = true)
    (hnone : (r.commandsstruct i).command? i = none) : r.finalStep = i := by
  have htable : r.commandsstruct i = applyWrites Reader.init.commandsstruct (writes false xs) i :=
    congrFun h.table i
  rcases applyWrites_cases Reader.init.commandsstruct (writes false xs) i with ⟨-, heq⟩ | hmem
  · rw [htable, heq] at hexists
    cases hexists
  · rcases mem_writes hmem with ⟨d, hd, heq⟩ | ⟨-, n, hn, heq⟩
    · obtain ⟨hstep, hval⟩ := Prod.mk.inj heq
      rw [htable, hval, Opcommand.command?_eq_some.mpr ⟨hstep.symm, rfl, h.verb d hd⟩] at hnone
      cases hnone
    · obtain ⟨rfl, -⟩ := Prod.mk.inj heq
      exact h.final hn

end Kept

/-! ## The step loop -/

section Loop

variable {M : Nat} {cfg : Config} {content : List Line} {s s' : State M} {c : Choice}

/-- The command that a step of the machine takes up: the parent is at the head of its loop. -/
def State.takesUp (cfg : Config) (s : State M) : Event → Option Command
  | .child _ => none
  | .parent _ =>
    match s.pc with
    | .top i => if (i : Int) ≤ cfg.finalStep then (cfg.commandsstruct i).command? i else none
    | _ => none

/-- The states that runs reach, with the commands taken up on the way. -/
inductive State.Performed (cfg : Config) (content : List Line) : State M → List Command → Prop
  | init : Performed cfg content (State.init M) []
  | step {s s' : State M} {l : List Command} {e : Event} : Performed cfg content s l →
      s.step cfg content e = .ok s' → Performed cfg content s' (l ++ (s.takesUp cfg e).toList)

/-- The first `n` entries have been taken up. -/
def ParentPc.TakenUp (cfg : Config) (n : Nat) : ParentPc M → Prop
  | .top i => n = i
  | .register i _ | .awaitCommand i | .tell i _ | .tellStep i _ | .scan i .. | .clear i _
  | .wake i _ | .select i | .put i .. | .post i .. | .awaitLine i => n = i + 1
  | .tellAll _ | .tellAllStep _ | .wakeAll _ | .reap _ | .done => n = cfg.steps
  | .failed | .undefined => True

theorem commandsUpTo_succ (table : Nat → Opcommand) (n : Nat) :
    commandsUpTo table (n + 1) = commandsUpTo table n ++ ((table n).command? n).toList := by
  rw [commandsUpTo, commandsUpTo, range_succ, filterMap_append]
  congr 1

theorem ParentPc.Inside.takenUp_iff {pc : ParentPc M} (h : pc.Inside i) :
    pc.TakenUp cfg n ↔ n = i + 1 := by
  cases pc with
  | top | tellAll | tellAllStep | wakeAll | reap | done | failed | undefined => exact h.elim
  | _ =>
    rw [← show _ = i from h]
    exact Iff.rfl

theorem takenUp_inside (h : s.pc.Inside i)
    (hok : s.parentStep cfg content c = .ok s') : s'.pc.TakenUp cfg (i + 1) := by
  rcases parentStep_inside h hok with hpc | hpc | hpc
  · exact hpc.takenUp_iff.mpr rfl
  · rw [hpc]
    rfl
  · rw [hpc]
    trivial

theorem takenUp_top (hread : readConfig file = .ok cfg) (hpc : s.pc = .top i)
    (hi : i ≤ cfg.steps) (hok : s.parentStep cfg content c = .ok s') :
    ∃ n ≤ cfg.steps, s'.pc.TakenUp cfg n ∧ commandsUpTo cfg.commandsstruct n =
      commandsUpTo cfg.commandsstruct i ++ (s.takesUp cfg (.parent c)).toList := by
  have htakes : s.takesUp cfg (.parent c) =
      if (i : Int) ≤ cfg.finalStep then (cfg.commandsstruct i).command? i else none := by
    simp only [State.takesUp, hpc]
  have hnext : (i : Int) ≤ cfg.finalStep → commandsUpTo cfg.commandsstruct (i + 1) =
      commandsUpTo cfg.commandsstruct i ++ (s.takesUp cfg (.parent c)).toList := by
    intro hlast
    rw [htakes, if_pos hlast, commandsUpTo_succ]
  cases parentStep_top hpc hok with
  | start hlast _ _ hstart =>
    refine ⟨i + 1, Config.lt_steps.mpr hlast, ?_, hnext hlast⟩
    rcases start_cases hstart with ⟨-, rfl⟩ | ⟨pid, -, -, -, rfl⟩
    · trivial
    · rfl
  | terminate hlast =>
    refine ⟨i + 1, Config.lt_steps.mpr hlast, ?_, hnext hlast⟩
    rcases terminate_pc s i (cfg.commandsstruct i).process with hpc' | ⟨pid, hpc'⟩
    · rw [hpc']
      rfl
    · rw [hpc']
      rfl
  | leave hlast hexists hstart hterminate =>
    refine ⟨i + 1, Config.lt_steps.mpr hlast, ?_, hnext hlast⟩
    -- the loop is left at the EXIT entry, which is the last
    obtain ⟨r, hr, hcfg⟩ := readConfig_readsAll hread
    have hnone : (cfg.commandsstruct i).command? i = none := by
      exact if_neg fun h => h.2.elim hstart hterminate
    have hfinal : cfg.finalStep = i := by
      rw [← hcfg] at hexists hnone ⊢
      exact hr.last_of_no_command hexists hnone
    show i + 1 = cfg.steps
    unfold Config.steps
    omega
  | pass hlast => exact ⟨i + 1, Config.lt_steps.mpr hlast, rfl, hnext hlast⟩
  | finish hlast =>
    have hge : i = cfg.steps := by
      have hnot := mt Config.lt_steps.mp hlast
      omega
    refine ⟨i, hi, hge, ?_⟩
    rw [htakes, if_neg hlast]
    exact (append_nil _).symm

-- After the loop nothing is taken up any more.
theorem takenUp_outside (h : s.pc.Outside) (htaken : s.pc.TakenUp cfg n)
    (hok : s.parentStep cfg content c = .ok s') : s'.pc.TakenUp cfg n := by
  obtain ⟨hout, -, hne⟩ := parentStep_outside h hok
  obtain rfl : n = cfg.steps := by
    cases hpc : s.pc with
    | tellAll | tellAllStep | wakeAll | reap | done => rwa [hpc] at htaken
    | undefined => exact absurd hpc hne
    | _ =>
      rw [hpc] at h
      exact h.elim
  cases hpc : s'.pc with
  | tellAll | tellAllStep | wakeAll | reap | done => rfl
  | undefined => trivial
  | _ =>
    rw [hpc] at hout
    exact hout.elim

theorem takesUp_eq_none (h : ∀ i, s.pc ≠ .top i) (c : Choice) :
    s.takesUp cfg (.parent c) = none := by
  unfold State.takesUp
  cases hpc : s.pc with
  | top i => exact absurd hpc (h i)
  | _ => rfl

theorem takenUp_parentStep (hread : readConfig file = .ok cfg)
    (hn : n ≤ cfg.steps) (htaken : s.pc.TakenUp cfg n) (hok : s.parentStep cfg content c = .ok s') :
    ∃ m ≤ cfg.steps, s'.pc.TakenUp cfg m ∧ commandsUpTo cfg.commandsstruct m =
      commandsUpTo cfg.commandsstruct n ++ (s.takesUp cfg (.parent c)).toList := by
  have hsame : (∀ i, s.pc ≠ .top i) → s'.pc.TakenUp cfg n →
      ∃ m ≤ cfg.steps, s'.pc.TakenUp cfg m ∧ commandsUpTo cfg.commandsstruct m =
        commandsUpTo cfg.commandsstruct n ++ (s.takesUp cfg (.parent c)).toList := by
    intro htop htaken'
    refine ⟨n, hn, htaken', ?_⟩
    rw [takesUp_eq_none htop]
    exact (append_nil _).symm
  rcases s.pc.place with ⟨i, hpc⟩ | ⟨i, hin⟩ | hout | hpc
  · obtain rfl : n = i := by rwa [hpc] at htaken
    exact takenUp_top hread hpc hn hok
  · obtain rfl : n = i + 1 := hin.takenUp_iff.mp htaken
    exact hsame (fun i hpc => by rw [hpc] at hin; exact hin) (takenUp_inside hin hok)
  · exact hsame (fun i hpc => by rw [hpc] at hout; exact hout) (takenUp_outside hout htaken hok)
  · simp only [State.parentStep, hpc, reduceCtorEq] at hok

theorem State.Performed.takenUp (hread : readConfig file = .ok cfg) {l : List Command}
    (h : s.Performed cfg content l) : ∃ n ≤ cfg.steps, s.pc.TakenUp cfg n ∧
      l = commandsUpTo cfg.commandsstruct n := by
  induction h with
  | init => exact ⟨0, Nat.zero_le _, rfl, rfl⟩
  | @step s s' l e _ hok ih =>
    obtain ⟨n, hn, htaken, rfl⟩ := ih
    cases e with
    | child q =>
      refine ⟨n, hn, ?_, append_nil _⟩
      rwa [(childStep_parent hok).1]
    | parent c =>
      obtain ⟨m, hm, htaken', heq⟩ := takenUp_parentStep hread hn htaken hok
      exact ⟨m, hm, htaken', heq.symm⟩

/-- The parent has left its loop, at its end or at EXIT. -/
def ParentPc.PastLoop : ParentPc M → Prop
  | .tellAll _ | .tellAllStep _ | .wakeAll _ | .reap _ | .done => True
  | _ => False

theorem commandsUpTo_mono (table : Nat → Opcommand) {m : Nat} (h : m ≤ n) :
    commandsUpTo table m <+: commandsUpTo table n := by
  obtain ⟨k, rfl⟩ := Nat.exists_eq_add_of_le h
  rw [commandsUpTo, commandsUpTo, range_add, filterMap_append]
  exact prefix_append _ _

end Loop

/-- The commands of an accepted file whose numbers fit an `int` are kept, and met by the loop in the
order of the file, exactly when each has a step of its own; and every run takes up the commands of
the table one by one in that order, all of them if it comes to the end of the loop. -/
theorem commands_kept_iff {file : List Char} {cfg : Config} (hread : readConfig file = .ok cfg) :
    ((∀ line ∈ fgetsAll 257 file, NumbersFit line) →
      (NothingLost (writtenItems file) cfg ↔ OneEach (writtenItems file))) ∧
    ∀ (M : Nat) (content : List Line) (s : State M) (l : List Command), s.Performed cfg content l →
      l <+: cfg.commands ∧ (s.pc.PastLoop → l = cfg.commands) := by
  obtain ⟨r, hr, rfl⟩ := readConfig_readsAll hread
  refine ⟨fun hfits => ?_, fun M content s l h => ?_⟩
  · rw [writtenItems_eq hread hfits]
    exact ⟨hr.oneEach, hr.nothingLost⟩
  obtain ⟨n, hn, htaken, rfl⟩ := h.takenUp hread
  refine ⟨commandsUpTo_mono _ hn, fun hpast => ?_⟩
  have heq : n = Config.steps ⟨r.commandsstruct, r.finalStep⟩ := by
    cases hpc : s.pc with
    | tellAll | tellAllStep | wakeAll | reap | done =>
      rwa [hpc] at htaken
    | _ =>
      rw [hpc] at hpast
      exact hpast.elim
  rw [heq]
  rfl

theorem commands_kept_three : ∃ cfg, readConfig "0 C1 S\n2 C1 T\n3 EXIT\n".toList = .ok cfg ∧
    OneEach (writtenItems "0 C1 S\n2 C1 T\n3 EXIT\n".toList) ∧
    NothingLost (writtenItems "0 C1 S\n2 C1 T\n3 EXIT\n".toList) cfg := by
  obtain ⟨cfg, hread, -⟩ := exists_reached "0 C1 S\n2 C1 T\n3 EXIT\n".toList [] []
    (fun _ (_ : State 1) => true) (by decide +kernel)
  have hexit : firstExit (writtenItems "0 C1 S\n2 C1 T\n3 EXIT\n".toList) = some 3 := by
    decide +kernel
  have hone : OneEach (writtenItems "0 C1 S\n2 C1 T\n3 EXIT\n".toList) := by
    refine ⟨by decide +kernel, fun n hn => ?_⟩
    cases hexit.symm.trans hn
    decide +kernel
  exact ⟨cfg, hread, hone, ((commands_kept_iff hread).1 (by decide +kernel)).mpr hone⟩

-- The second start command takes the place of the first.
theorem command_overwritten : ∃ cfg, readConfig "0 C1 S\n0 C2 S\n".toList = .ok cfg ∧
    ⟨0, 1, .start⟩ ∈ wanted (writtenItems "0 C1 S\n0 C2 S\n".toList) ∧
    ¬ NothingLost (writtenItems "0 C1 S\n0 C2 S\n".toList) cfg := by
  obtain ⟨cfg, hread, s, -, hp⟩ := exists_reached "0 C1 S\n0 C2 S\n".toList [] []
    (fun cfg (_ : State 1) => decide (cfg.commandsstruct 0 = ⟨2, .start, true⟩)) (by decide +kernel)
  have hwanted : ⟨0, 1, .start⟩ ∈ wanted (writtenItems "0 C1 S\n0 C2 S\n".toList) := by
    decide +kernel
  refine ⟨cfg, hread, hwanted, fun h => ?_⟩
  have hentry := h.present _ hwanted
  rw [of_decide_eq_true hp] at hentry
  cases hentry

end OsProjects.Dispatch
