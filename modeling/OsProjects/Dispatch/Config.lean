import OsProjects.Lib.FoldM
import Mathlib.Logic.Function.Basic
import Mathlib.Data.List.Defs

/-!
# Config — the command table of the dispatcher and its reader

`main` of `ergasia1.c` reads the configuration file with `fgets` and `sscanf`, line by line, into
the table `commandsstruct`, indexed by step. Tokens are taken to fit their buffers. The table is
modelled as memory that any step may index: the entry at `last_number`, one past the end of the
array as declared, is an entry like the others.
-/

namespace OsProjects.Dispatch

open Function

/-- The string in `command`: `" "`, `"S"`, `"T"` or `"E"`. -/
inductive Verb
  | blank
  | start
  | terminate
  | exit
  deriving DecidableEq, Repr

structure Opcommand where
  process : Int
  command : Verb
  commandExists : Bool
  deriving DecidableEq, Repr

/-- An entry as `main` initialises it. -/
def Opcommand.none : Opcommand := ⟨0, .blank, false⟩

/-! ## `fgets` and `sscanf` -/

/-- The strings that `fgets(line, n, file)` returns one after another: each ends after a newline,
after `n - 1` characters or with the file. The second argument is the string begun, reversed. -/
def fgetsFrom (n : Nat) : List Char → List Char → List (List Char)
  | [], [] => []
  | [], c :: cur => [(c :: cur).reverse]
  | c :: cs, cur =>
    if c = '\n' ∨ cur.length + 2 = n then (c :: cur).reverse :: fgetsFrom n cs []
    else fgetsFrom n cs (c :: cur)

def fgetsAll (n : Nat) (text : List Char) : List (List Char) := fgetsFrom n text []

def isspace (c : Char) : Bool :=
  c = ' ' || c = '\t' || c = '\n' || c = '\x0b' || c = '\x0c' || c = '\r'

def isdigit (c : Char) : Bool := '0' ≤ c && c ≤ '9'

/-- The number that decimal digits write. -/
def number (digits : List Char) : Nat :=
  digits.foldl (fun n c => 10 * n + (c.toNat - '0'.toNat)) 0

/-- What an `int` holds of a number: `strtol` stops at the ends of a `long`, of which the low half
is kept. -/
def toInt (n : Int) : Int := (max (-0x8000000000000000) (min n 0x7fffffffffffffff)).bmod 0x100000000

def atoi (digits : List Char) : Int := toInt (number digits)

def FitsInt (n : Int) : Prop := -0x80000000 ≤ n ∧ n < 0x80000000

instance (n : Int) : Decidable (FitsInt n) := inferInstanceAs (Decidable (_ ∧ _))

theorem toInt_of_fits {n : Int} (h : FitsInt n) : toInt n = n := by
  obtain ⟨hlow, hhigh⟩ := h
  rw [toInt, show max _ (min n _) = n by omega, Int.bmod_eq_of_le (by omega) (by omega)]

/-- The number at the front, as it is written, and what follows it. -/
def scanNumber (input : List Char) : Option (Int × List Char) :=
  let cs := input.dropWhile isspace
  let (sign, cs) : Int × List Char := match cs with
    | '-' :: cs => (-1, cs)
    | '+' :: cs => (1, cs)
    | cs => (1, cs)
  match cs.takeWhile isdigit with
  | [] => .none
  | ds => some (sign * number ds, cs.dropWhile isdigit)

/-- The conversion `%d`. -/
def scanInt (input : List Char) : Option (Int × List Char) :=
  (scanNumber input).map fun x => (toInt x.1, x.2)

/-- The conversion `%s`. -/
def scanWord (input : List Char) : Option (List Char × List Char) :=
  let cs := input.dropWhile isspace
  match cs.takeWhile fun c => !isspace c with
  | [] => .none
  | w => some (w, cs.dropWhile fun c => !isspace c)

/-- What `sscanf(line, "%d %s %s", ..)` converts. The source scans a line that gave two values again
with `"%d %s"`, which converts the same two. -/
inductive Scan
  | fewer
  | two (step : Int) (command : List Char)
  | three (step : Int) (process command : List Char)
  deriving DecidableEq, Repr

/-- The string up to its first NUL. -/
def visible (cs : List Char) : List Char := cs.takeWhile (· ≠ '\x00')

def sscanf (line : List Char) : Scan :=
  match scanInt (visible line) with
  | .none => .fewer
  | some (step, rest) =>
    match scanWord rest with
    | .none => .fewer
    | some (w, rest) =>
      match scanWord rest with
      | .none => .two step w
      | some (w', _) => .three step w w'

/-! ## The reader -/

/-- The variables of the loop that fills the table. -/
structure Reader where
  commandsstruct : Nat → Opcommand
  lastStep : Int
  finalStep : Int
  exitStepFound : Bool

def Reader.init : Reader := ⟨fun _ => .none, 0, -1, false⟩

def Reader.store (r : Reader) (step : Int) (c : Opcommand) : Nat → Opcommand :=
  update r.commandsstruct step.toNat c

/-- The body of the loop for a line of three tokens. -/
def Reader.command (r : Reader) (step : Int) (process command : List Char) :
    Except String Reader :=
  if r.lastStep > step then .error "Error, commands are not in ascending order\n"
  else if process.head? ≠ some 'C' then .error "Error character\n"
  else if ¬ process.tail.all isdigit then .error "Error not digit\n"
  else if command ≠ ['S'] ∧ command ≠ ['T'] then .error "Error isnt S or T\n"
  else
    let verb := if command = ['S'] then Verb.start else .terminate
    .ok { r with
      commandsstruct := r.store step ⟨atoi process.tail, verb, true⟩
      finalStep := if r.finalStep < step ∧ r.exitStepFound = false then step else r.finalStep
      lastStep := step }

/-- The body of the loop for a line of two tokens. -/
def Reader.exit (r : Reader) (step : Int) (command : List Char) : Except String Reader :=
  if r.lastStep > step then .error "Error, commands are not in ascending order\n"
  else if command ≠ ['E', 'X', 'I', 'T'] then .error "Error double exit\n"
  else if r.exitStepFound = false then
    .ok { r with
      commandsstruct := r.store step ⟨0, .exit, true⟩
      finalStep := step
      exitStepFound := true
      lastStep := step }
  else .ok { r with lastStep := step }

def Reader.readLine (r : Reader) (line : List Char) : Except String Reader :=
  match sscanf line with
  | .three step process command => r.command step process command
  | .two step command => r.exit step command
  | .fewer => .error "Error command in config file in wrong format\n"

/-- What the step loop is given. -/
structure Config where
  commandsstruct : Nat → Opcommand
  finalStep : Int

def readConfig (file : List Char) : Except String Config :=
  ((fgetsAll 257 file).foldlM Reader.readLine .init).map fun r => ⟨r.commandsstruct, r.finalStep⟩

example : (readConfig "0 C1 S\n2 C10 T\n3 EXIT\n".toList).toOption.map
    (fun cfg => (cfg.finalStep, (List.range 4).map cfg.commandsstruct)) =
    some (3, [⟨1, .start, true⟩, .none, ⟨10, .terminate, true⟩, ⟨0, .exit, true⟩]) := by
  decide +kernel

/-! ## What the reader does with a line -/

/-- The step and the entry of a line of the right form. -/
def lineEntry (line : List Char) : Option (Int × Opcommand) :=
  match sscanf line with
  | .fewer => .none
  | .two step command =>
    if command = ['E', 'X', 'I', 'T'] then some (step, ⟨0, .exit, true⟩) else .none
  | .three step process command =>
    if process.head? = some 'C' ∧ process.tail.all isdigit ∧
        (command = ['S'] ∨ command = ['T']) then
      some (step, ⟨atoi process.tail, if command = ['S'] then .start else .terminate, true⟩)
    else .none

/-- The reader after such a line. -/
def Reader.take (r : Reader) (step : Int) (e : Opcommand) : Reader where
  commandsstruct :=
    if e.command = .exit ∧ r.exitStepFound = true then r.commandsstruct else r.store step e
  lastStep := step
  finalStep :=
    if (r.finalStep < step ∨ e.command = .exit) ∧ r.exitStepFound = false then step else r.finalStep
  exitStepFound := r.exitStepFound || decide (e.command = .exit)

theorem Reader.exit_eq_ok {r r' : Reader} {step : Int} {command : List Char} :
    r.exit step command = .ok r' ↔ command = ['E', 'X', 'I', 'T'] ∧ r.lastStep ≤ step ∧
      r.take step ⟨0, .exit, true⟩ = r' := by
  unfold Reader.exit
  by_cases horder : r.lastStep > step
  · simp [horder, Int.not_le.mpr horder]
  by_cases hexit : command = ['E', 'X', 'I', 'T']
  · cases hfound : r.exitStepFound
    all_goals simp [horder, Int.not_lt.mp horder, hexit, hfound, Reader.take]
  · simp [horder, hexit]

theorem Reader.command_eq_ok {r r' : Reader} {step : Int} {process command : List Char} :
    r.command step process command = .ok r' ↔
      (process.head? = some 'C' ∧ process.tail.all isdigit ∧ (command = ['S'] ∨ command = ['T'])) ∧
        r.lastStep ≤ step ∧ r.take step
          ⟨atoi process.tail, if command = ['S'] then .start else .terminate, true⟩ = r' := by
  unfold Reader.command
  by_cases horder : r.lastStep > step
  · simp [horder, Int.not_le.mpr horder]
  by_cases hC : process.head? = some 'C'
  swap
  · simp [horder, hC]
  by_cases hdigits : process.tail.all isdigit = true
  swap
  · simp [horder, hC, hdigits]
  by_cases hverb : command = ['S'] ∨ command = ['T']
  swap
  · simp [horder, hC, hdigits, not_or.mp hverb]
  have hnot : ¬ (command ≠ ['S'] ∧ command ≠ ['T']) := by tauto
  have hne : (if command = ['S'] then Verb.start else .terminate) ≠ .exit := by
    split <;> nofun
  simp [horder, Int.not_lt.mp horder, hC, hdigits, hnot, hverb, Reader.take, hne]

-- The reader takes the lines of the right form that are in order, and refuses the others.
theorem Reader.readLine_eq_ok {r r' : Reader} {line : List Char} : r.readLine line = .ok r' ↔
    ∃ step e, lineEntry line = some (step, e) ∧ r.lastStep ≤ step ∧ r.take step e = r' := by
  unfold Reader.readLine lineEntry
  cases sscanf line with
  | fewer => simp
  | two step command => simp [Reader.exit_eq_ok]
  | three step process command => simp [Reader.command_eq_ok]

theorem lineEntry_cases {line : List Char} {step : Int} {e : Opcommand}
    (h : lineEntry line = some (step, e)) : e = ⟨0, .exit, true⟩ ∨
      (e.command = .start ∨ e.command = .terminate) ∧ e.commandExists = true := by
  unfold lineEntry at h
  split at h
  · cases h
  · obtain ⟨-, heq⟩ := Option.ite_none_right_eq_some.mp h
    cases heq
    exact .inl rfl
  · obtain ⟨-, heq⟩ := Option.ite_none_right_eq_some.mp h
    cases heq
    refine .inr ⟨?_, rfl⟩
    split
    · exact .inl rfl
    · exact .inr rfl

theorem readConfig_eq_ok {file : List Char} {cfg : Config} : readConfig file = .ok cfg ↔
    ∃ r, (fgetsAll 257 file).foldlM Reader.readLine .init = .ok r ∧
      ⟨r.commandsstruct, r.finalStep⟩ = cfg := by
  unfold readConfig
  cases (fgetsAll 257 file).foldlM Reader.readLine Reader.init with
  | error msg => simp [Except.map]
  | ok r => simp [Except.map]

-- An entry that no line wrote is as `main` initialised it.
theorem eq_none_of_readConfig {file : List Char} {cfg : Config} (h : readConfig file = .ok cfg)
    (i : Nat) : (cfg.commandsstruct i).commandExists = true ∨ cfg.commandsstruct i = .none := by
  obtain ⟨r, hread, rfl⟩ := readConfig_eq_ok.mp h
  revert i
  refine @Lib.foldlM_invariant Reader _ _ Reader.readLine (fun r => ∀ i,
    (r.commandsstruct i).commandExists = true ∨ r.commandsstruct i = .none) _ ?_ _ _ ?_ hread
  · intro r line r' _ hr hline i
    obtain ⟨step, e, hentry, -, rfl⟩ := Reader.readLine_eq_ok.mp hline
    have he : e.commandExists = true := by
      rcases lineEntry_cases hentry with rfl | ⟨-, he⟩
      · rfl
      · exact he
    simp only [Reader.take, Reader.store]
    split
    · exact hr i
    · by_cases hi : i = step.toNat
      · rw [hi, update_self]
        exact .inl he
      · rw [update_of_ne hi]
        exact hr i
  · exact fun _ => .inr rfl

end OsProjects.Dispatch
