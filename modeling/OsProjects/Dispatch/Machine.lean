import OsProjects.Dispatch.Config
import OsProjects.Lib.Reach
import Mathlib.Data.List.FinRange

/-!
# Machine — the parent and its children

The step loop of `main`, the code of a started child and `child_process` (`ergasia1.c`), as
processes that take turns in any order: a step is one access to the shared memory, one `fork`, one
operation on a semaphore, or the local work up to the next of these. Private memory is the parent's
`child_pid_name` and the count of running processes; the pid table, the command word, the step word,
the line and the semaphores are shared. Diagnostic output is left out, the lines and the farewells
that children print are recorded.

An access outside an array, a remainder by zero, and what follows them, is undefined: the parent
stops there.
-/

namespace OsProjects.Dispatch

open Lib Function

abbrev MAX_CHILDREN : Nat := 100

/-- A line of the text, as `fgets` with a buffer of 257 bytes has it. -/
abbrev Line := { l : List Char // l.length ≤ 256 }

/-- An entry of `child_pid_name`. -/
structure Runningprocess where
  pid : Nat
  name : Int
  deriving DecidableEq, Repr

/-! ## The search of a terminate command and the choice of a child -/

/-- The loop of a terminate command: every entry of the name is cleared, the last one gives the pid
to be terminated. -/
def terminateEntries (name : Int) : List Runningprocess → List Runningprocess × Option Nat
  | [] => ([], none)
  | e :: es =>
    let (rest, later) := terminateEntries name es
    if e.name = name ∧ e.pid ≠ 0 then (⟨0, 0⟩ :: rest, later <|> some e.pid)
    else (e :: rest, later)

/-- The index of an array of length `M`. -/
def inRange? (M : Nat) (i : Int) : Option (Fin M) :=
  if h : 0 ≤ i ∧ i < M then some ⟨i.toNat, by omega⟩ else none

/-- `active[]` after the first `n` entries of the table. -/
def replay (commands : Nat → Opcommand) : Nat → Option (Nat → Bool)
  | 0 => some fun _ => false
  | n + 1 =>
    (replay commands n).bind fun active =>
      let process := (commands n).process
      match (commands n).command with
      | .start => (inRange? MAX_CHILDREN process).map fun k => update active k.val true
      | .terminate => (inRange? MAX_CHILDREN process).map fun k => update active k.val false
      | _ => some active

def activeChildren (active : Nat → Bool) : List Nat := (List.range MAX_CHILDREN).filter active

/-- `rand` stands for the number that `rand()` returns. -/
def chooseRandomActiveChild (commands : Nat → Opcommand) (maxStep : Int) (queryStep rand : Nat) :
    Option Int :=
  if (queryStep : Int) > maxStep then some (-1)
  else (replay commands (queryStep + 1)).map fun active =>
    match (activeChildren active)[rand % (activeChildren active).length]? with
    | some name => name
    | none => -1

/-- The pid of the last entry with the name; `junk` is what the variable held before. -/
def pidChosen (entries : List Runningprocess) (name junk : Int) : Int :=
  entries.foldl (fun pid e => if e.name = name then e.pid else pid) junk

/-- The first slot with the pid; without one the variable keeps the name. -/
def chosenIndex {M : Nat} (slots : Fin M → Nat) (name pid : Int) : Int :=
  match (List.finRange M).find? fun k => (slots k : Int) = pid with
  | some k => k.val
  | none => name

/-! ## States -/

/-- Where the parent is; `i` is the step of the loop. -/
inductive ParentPc (M : Nat)
  /-- Head of the loop. -/
  | top (i : Nat)
  /-- After `fork`, before the entry of `child_pid_name` is written. -/
  | register (i pid : Nat)
  /-- `sem_wait(par_sem)` of a start or of a terminate command. -/
  | awaitCommand (i : Nat)
  | tell (i pid : Nat)
  | tellStep (i pid : Nat)
  /-- Slot `j` of the pid table is read next. -/
  | scan (i pid j : Nat)
  | clear (i : Nat) (k : Fin M)
  | wake (i : Nat) (k : Fin M)
  /-- The selection block. -/
  | select (i : Nat)
  | put (i : Nat) (k : Fin M) (line : Line)
  | post (i : Nat) (k : Fin M) (line : Line)
  | awaitLine (i : Nat)
  /-- The broadcast after the loop, with `track_of_step`. -/
  | tellAll (track : Int)
  | tellAllStep (track : Int)
  | wakeAll (j : Nat)
  /-- `waitpid` for entry `j` of `child_pid_name`. -/
  | reap (j : Nat)
  | done
  /-- An error return. -/
  | failed
  | undefined
  deriving DecidableEq

/-- Where a child is; `k` is its `my_index`. -/
inductive ChildPc (M : Nat)
  | absent
  /-- Slot `j` of the pid table is read next. -/
  | seek (j : Nat)
  | claim (k : Fin M)
  | hello (k : Fin M)
  /-- The search ended without a slot: `my_index` is not set. -/
  | lost
  /-- `sem_wait(child_sem)`. -/
  | waiting (k : Fin M)
  | woken (k : Fin M)
  | printing (k : Fin M)
  | printed (k : Fin M)
  | leaving (command step : Int)
  | bye (step : Int)
  | exited
  deriving DecidableEq

structure Child (M : Nat) where
  pc : ChildPc M
  startingStep : Nat
  messages : Nat

/-- What happened so far, as far as the hand-over is concerned. -/
inductive Act (M : Nat)
  /-- The parent posted semaphore `k` with the line in shared memory. -/
  | sent (k : Fin M) (line : Line)
  /-- The child of slot `k` printed the line. -/
  | printed (pid : Nat) (k : Fin M) (line : Line)
  /-- The parent put the pid into the command word. -/
  | told (pid : Nat)
  /-- The child left, with the messages and the steps that it reports. -/
  | left (pid messages : Nat) (steps : Int)
  deriving DecidableEq

structure State (M : Nat) where
  pc : ParentPc M
  running : Int
  childPidName : List Runningprocess
  child : Nat → Child M
  pidSlot : Fin M → Nat
  command : Int
  terminateStep : Int
  text : Line
  semaphore : Fin M → Nat
  parSem : Nat
  history : List (Act M)

def State.init (M : Nat) : State M where
  pc := .top 0
  running := 0
  childPidName := []
  child := fun _ => ⟨.absent, 0, 0⟩
  pidSlot := fun _ => 0
  command := 0
  terminateStep := 0
  text := ⟨[], by decide⟩
  semaphore := fun _ => 0
  parSem := 0
  history := []

/-- What the environment decides for the parent: the pid that `fork` returns (none if it fails), the
numbers that `rand` returns for the child and for the line, the initial content of `pid_chosen`. -/
structure Choice where
  fork : Option Nat
  child : Nat
  line : Nat
  junk : Int
  deriving DecidableEq

inductive Event
  | parent (c : Choice)
  | child (pid : Nat)
  deriving DecidableEq

/-! ## Steps -/

namespace State

variable {M : Nat}

def postSem (s : State M) (k : Fin M) : State M :=
  { s with semaphore := update s.semaphore k (s.semaphore k + 1) }

def setChild (s : State M) (p : Nat) (c : Child M) : State M :=
  { s with child := update s.child p c }

def setChildPc (s : State M) (p : Nat) (pc : ChildPc M) : State M :=
  s.setChild p { s.child p with pc := pc }

/-- A start command. A new pid is one that no child has had: none is reaped before the loop ends. -/
def start (s : State M) (i : Nat) (fork : Option Nat) : Except Unit (State M) :=
  if s.running + 1 > M then .ok { s with running := s.running + 1, pc := .failed }
  else match fork with
    | none => .ok { s with running := s.running + 1, pc := .failed }
    | some pid =>
      if 0 < pid ∧ (s.child pid).pc = .absent then
        .ok { s.setChild pid ⟨.seek 0, i, 0⟩ with
          running := s.running + 1, pc := .register i pid }
      else .error ()

/-- A terminate command, up to the first write to the shared memory. -/
def terminate (s : State M) (i : Nat) (name : Int) : State M :=
  match terminateEntries name s.childPidName with
  | (entries, some pid) =>
    { s with childPidName := entries, running := s.running - 1, pc := .tell i pid }
  | (_, none) => { s with pc := .top (i + 1) }

/-- The selection block, up to the copy of the line. -/
def select (cfg : Config) (content : List Line) (s : State M) (i : Nat) (c : Choice) :
    ParentPc M :=
  if s.running > 0 then
    match chooseRandomActiveChild cfg.commandsstruct cfg.finalStep i c.child with
    | none => .undefined
    | some name =>
      match inRange? M (chosenIndex s.pidSlot name (pidChosen s.childPidName name c.junk)),
        content[c.line % content.length]? with
      | some k, some line => .put i k line
      | _, _ => .undefined
  else .top (i + 1)

def parentStep (cfg : Config) (content : List Line) (s : State M) (c : Choice) :
    Except Unit (State M) :=
  match s.pc with
  | .top i =>
    if (i : Int) ≤ cfg.finalStep then
      if (cfg.commandsstruct i).commandExists then
        match (cfg.commandsstruct i).command with
        | .start => s.start i c.fork
        | .terminate => .ok (s.terminate i (cfg.commandsstruct i).process)
        | _ => .ok { s with pc := .tellAll i }
      else .ok { s with pc := .select i }
    else .ok { s with pc := .tellAll ((i : Int) - 1) }
  | .register i pid =>
    if s.childPidName.length < MAX_CHILDREN then
      .ok { s with
        childPidName := s.childPidName ++ [⟨pid, (cfg.commandsstruct i).process⟩]
        pc := .awaitCommand i }
    else .ok { s with pc := .undefined }
  | .awaitCommand i =>
    if 0 < s.parSem then .ok { s with parSem := s.parSem - 1, pc := .select i } else .error ()
  | .tell i pid =>
    .ok { s with command := pid, history := s.history ++ [.told pid], pc := .tellStep i pid }
  | .tellStep i pid => .ok { s with terminateStep := i, pc := .scan i pid 0 }
  | .scan i pid j =>
    if h : j < M then
      if s.pidSlot ⟨j, h⟩ = pid then .ok { s with pc := .clear i ⟨j, h⟩ }
      else .ok { s with pc := .scan i pid (j + 1) }
    else .ok { s with pc := .select i }
  | .clear i k =>
    .ok { s with pidSlot := update s.pidSlot k 0, pc := .wake i k }
  | .wake i k => .ok { s.postSem k with pc := .awaitCommand i }
  | .select i => .ok { s with pc := s.select cfg content i c }
  | .put i k line => .ok { s with text := line, pc := .post i k line }
  | .post i k line =>
    .ok { s.postSem k with history := s.history ++ [.sent k line], pc := .awaitLine i }
  | .awaitLine i =>
    if 0 < s.parSem then .ok { s with parSem := s.parSem - 1, pc := .top (i + 1) }
    else .error ()
  | .tellAll track => .ok { s with command := -1, pc := .tellAllStep track }
  | .tellAllStep track => .ok { s with terminateStep := track, pc := .wakeAll 0 }
  | .wakeAll j =>
    if h : j < M then .ok { s.postSem ⟨j, h⟩ with pc := .wakeAll (j + 1) }
    else .ok { s with pc := .reap 0 }
  | .reap j =>
    match s.childPidName[j]? with
    | none => .ok { s with pc := .done }
    | some e =>
      if e.pid = 0 then .ok { s with pc := .reap (j + 1) }
      else if (s.child e.pid).pc = .exited then
        .ok { s with childPidName := s.childPidName.set j ⟨0, 0⟩, pc := .reap (j + 1) }
      else .error ()
  | .done | .failed | .undefined => .error ()

def childStep (s : State M) (p : Nat) : Except Unit (State M) :=
  match (s.child p).pc with
  | .seek j =>
    if h : j < M then
      if s.pidSlot ⟨j, h⟩ = 0 then .ok (s.setChildPc p (.claim ⟨j, h⟩))
      else .ok (s.setChildPc p (.seek (j + 1)))
    else .ok (s.setChildPc p .lost)
  | .claim k =>
    .ok { s.setChildPc p (.hello k) with pidSlot := update s.pidSlot k p }
  | .hello k => .ok { s.setChildPc p (.waiting k) with parSem := s.parSem + 1 }
  | .waiting k =>
    if 0 < s.semaphore k then
      .ok { s.setChildPc p (.woken k) with
        semaphore := update s.semaphore k (s.semaphore k - 1) }
    else .error ()
  | .woken k =>
    if s.command ≠ p ∧ s.command ≠ -1 then .ok (s.setChildPc p (.printing k))
    else .ok (s.setChildPc p (.leaving s.command s.terminateStep))
  | .printing k =>
    .ok { s.setChild p ⟨.printed k, (s.child p).startingStep, (s.child p).messages + 1⟩ with
      history := s.history ++ [.printed p k s.text] }
  | .printed k => .ok { s.setChildPc p (.waiting k) with parSem := s.parSem + 1 }
  | .leaving command step =>
    .ok { s.setChildPc p (.bye step) with command := if command ≠ -1 then 0 else s.command }
  | .bye step =>
    .ok { s.setChildPc p .exited with
      parSem := s.parSem + 1
      history := s.history ++ [.left p (s.child p).messages (step - (s.child p).startingStep)] }
  | .absent | .lost | .exited => .error ()

/-- One step of one process; a process that is blocked, or has ended, takes none. -/
def step (cfg : Config) (content : List Line) (s : State M) : Event → Except Unit (State M)
  | .parent c => s.parentStep cfg content c
  | .child p => s.childStep p

/-- The states that the program reaches under the limit `M`, over all choices and interleavings. -/
def Reached (cfg : Config) (content : List Line) : State M → Prop :=
  Reach (step cfg content) (fun _ _ => True) (init M)

end State

end OsProjects.Dispatch
