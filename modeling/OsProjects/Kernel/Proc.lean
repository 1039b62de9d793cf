import OsProjects.Lib.Reach
import Mathlib.Data.List.FinRange
import Mathlib.Algebra.GroupWithZero.Nat
import Mathlib.Logic.Function.Basic

/-!
# Proc — the process table, and the calls that change it

`fork`, `exit`, `wait` and `kill` (`proc.c`) by any process of a table with `NPROC` slots, with the
scheduler, `sleep` and `wakeup` around them.  A step is a critical section: one slot visited by
`allocproc` or `kill` under its lock, the whole of a section under `wait_lock`.  `int`s have 32
bits, `nextpid` included.
-/

namespace OsProjects.Kernel.Procs

open Lib Function

/-- `enum procstate`. -/
inductive ProcState
  | unused | used | sleeping | runnable | running | zombie
deriving DecidableEq

variable {NPROC : Nat}

/-- What a process can sleep on: `wait` takes the address of its own slot, other calls that of some
other object. -/
inductive Chan (NPROC : Nat)
  | proc (p : Fin NPROC)
  | other (n : Nat)
deriving DecidableEq

/-- `struct proc`, as far as other processes look at it. -/
structure Proc (NPROC : Nat) where
  state : ProcState
  chan : Option (Chan NPROC)
  killed : Int
  xstate : BitVec 32
  pid : BitVec 32
  parent : Option (Fin NPROC)
deriving DecidableEq

/-- Where a process is. -/
inductive Pc (NPROC : Nat)
  /-- In user space or in another call; `r` is what the last call returned. -/
  | user (r : Int)
  /-- `fork`, with the scan of `allocproc` at slot `i`. -/
  | allocproc (i : Nat)
  /-- `fork`, where it takes `wait_lock`. -/
  | adopt (np : Fin NPROC) (pid : BitVec 32)
  /-- `fork`, where it takes `np->lock` again. -/
  | start (np : Fin NPROC) (pid : BitVec 32)
  /-- `exit`, before it takes `wait_lock`. -/
  | exit (status : BitVec 32)
  /-- `exit`, in `sched`. -/
  | dead
  | wait (addr : BitVec 64)
  /-- `kill`, with its scan at slot `i`. -/
  | kill (pid : BitVec 32) (i : Nat)
deriving DecidableEq

/-- `asleep p`: the process is in `sleep`, past its call of `sched`.  The last four fields are
history.  Processes are numbered in the order of their creation: `serial p` is the number of the one
in slot `p`, and `born` has for each number that of the process that forked it and the pid. -/
structure State (NPROC : Nat) where
  proc : Fin NPROC → Proc NPROC
  nextpid : BitVec 32
  pc : Fin NPROC → Pc NPROC
  asleep : Fin NPROC → Bool
  serial : Fin NPROC → Nat
  born : List (Nat × BitVec 32)
  exited : List Nat
  reaped : List Nat

inductive Syscall
  | fork
  | exit (status : BitVec 32)
  | wait (addr : BitVec 64)
  | kill (pid : BitVec 32)

/-- `run p ok`: the next critical section of `p`; `ok` says whether the memory that it asks for is
there, or whether its `copyout` succeeds. -/
inductive Event (NPROC : Nat)
  | call (p : Fin NPROC) (c : Syscall)
  | run (p : Fin NPROC) (ok : Bool)
  | sleep (p : Fin NPROC) (chan : Nat)
  /-- A `wakeup(chan)` comes to slot `p`. -/
  | wakeup (p : Fin NPROC) (chan : Nat)
  | schedule (p : Fin NPROC)
  | yield (p : Fin NPROC)
  | setkilled (p : Fin NPROC)

inductive Halt
  | blocked
  | panic (msg : String)
deriving DecidableEq

/-! ## The table -/

abbrev Table (NPROC : Nat) := Fin NPROC → Proc NPROC

namespace Table

/-- `freeproc`: no field keeps its value. -/
def freeproc (t : Table NPROC) (p : Fin NPROC) : Table NPROC :=
  update t p ⟨.unused, none, 0, 0, 0, none⟩

/-- `wakeup(chan)` by the process `self`. -/
def wakeup (t : Table NPROC) (self : Fin NPROC) (chan : Option (Chan NPROC)) : Table NPROC :=
  fun p =>
    if p ≠ self ∧ (t p).state = .sleeping ∧ (t p).chan = chan then { t p with state := .runnable }
    else t p

/-- `reparent(p)` at slot `pp`. -/
def reparentAt (p initproc : Fin NPROC) (t : Table NPROC) (pp : Fin NPROC) : Table NPROC :=
  if (t pp).parent = some p then
    wakeup (update t pp { t pp with parent := some initproc }) p (some (.proc initproc))
  else t

def reparent (t : Table NPROC) (p initproc : Fin NPROC) : Table NPROC :=
  (List.finRange NPROC).foldl (reparentAt p initproc) t

/-- `kill` at a slot with the pid. -/
def kill (t : Table NPROC) (p : Fin NPROC) : Table NPROC :=
  update t p
    { t p with killed := 1, state := if (t p).state = .sleeping then .runnable else (t p).state }

def zombieChild (t : Table NPROC) (p : Fin NPROC) : Option (Fin NPROC) :=
  (List.finRange NPROC).find? fun pp => (t pp).parent = some p ∧ (t pp).state = .zombie

def havekids (t : Table NPROC) (p : Fin NPROC) : Bool :=
  (List.finRange NPROC).any fun pp => (t pp).parent = some p

end Table

/-! ## The machine -/

namespace State

variable [NeZero NPROC]

/-- The slot that `userinit` gets: the first. -/
def initproc : Fin NPROC := 0

/-- The state that `procinit` and `userinit` leave. -/
def boot : State NPROC where
  proc := update (fun _ => ⟨.unused, none, 0, 0, 0, none⟩) initproc ⟨.runnable, none, 0, 0, 1, none⟩
  nextpid := 2
  pc _ := .user 0
  asleep _ := false
  serial _ := 0
  born := [(0, 1)]
  exited := []
  reaped := []

def setProc (s : State NPROC) (p : Fin NPROC) (x : Proc NPROC) : State NPROC :=
  { s with proc := update s.proc p x }

def setPc (s : State NPROC) (p : Fin NPROC) (c : Pc NPROC) : State NPROC :=
  { s with pc := update s.pc p c }

/-- `allocproc` by `p` has found slot `np`; if there is memory enough, `fork` goes on up to the
`release` of `np->lock`, and if not, `allocproc` or `fork` gives the slot back. -/
def forkAt (s : State NPROC) (p np : Fin NPROC) (ok : Bool) : State NPROC :=
  let t := update s.proc np { s.proc np with pid := s.nextpid, state := .used }
  if ok then
    { s with
      proc := t
      nextpid := s.nextpid + 1
      pc := update (update s.pc np (.user 0)) p (.adopt np s.nextpid)
      asleep := update s.asleep np false
      serial := update s.serial np s.born.length
      born := s.born ++ [(s.serial p, s.nextpid)] }
  else
    { s.setPc p (.user (-1)) with
      proc := Table.freeproc t np
      nextpid := s.nextpid + 1 }

/-- `exit`, from `acquire(&wait_lock)` on. -/
def exit (s : State NPROC) (p : Fin NPROC) (status : BitVec 32) : State NPROC :=
  let t := Table.reparent s.proc p initproc
  let t := t.wakeup p ((t p).parent.map .proc)
  { s.setPc p .dead with
    proc := update t p { t p with xstate := status, state := .zombie }
    exited := s.serial p :: s.exited }

/-- `wait`, from `acquire(&wait_lock)` to its release. -/
def wait (s : State NPROC) (p : Fin NPROC) (addr : BitVec 64) (ok : Bool) : State NPROC :=
  match Table.zombieChild s.proc p with
  | some pp =>
    if addr ≠ 0 ∧ ok = false then s.setPc p (.user (-1))
    else
      { s.setPc p (.user (s.proc pp).pid.toInt) with
        proc := Table.freeproc s.proc pp
        reaped := s.serial pp :: s.reaped }
  | none =>
    if Table.havekids s.proc p = false ∨ (s.proc p).killed ≠ 0 then s.setPc p (.user (-1))
    else
      { s.setProc p { s.proc p with chan := some (.proc p), state := .sleeping } with
        asleep := update s.asleep p true }

/-- The next critical section of `p`. -/
def run (s : State NPROC) (p : Fin NPROC) (ok : Bool) : Except Halt (State NPROC) :=
  match s.pc p with
  | .user _ => .error .blocked
  | .allocproc i =>
    if h : i < NPROC then
      if (s.proc ⟨i, h⟩).state = .unused then .ok (s.forkAt p ⟨i, h⟩ ok)
      else .ok (s.setPc p (.allocproc (i + 1)))
    else .ok (s.setPc p (.user (-1)))
  | .adopt np pid =>
    .ok ((s.setProc np { s.proc np with parent := some p }).setPc p (.start np pid))
  | .start np pid =>
    .ok ((s.setProc np { s.proc np with state := .runnable }).setPc p (.user pid.toInt))
  | .exit status => .ok (s.exit p status)
  | .dead => .error (.panic "zombie exit")
  | .wait addr => .ok (s.wait p addr ok)
  | .kill pid i =>
    if h : i < NPROC then
      if (s.proc ⟨i, h⟩).pid = pid then
        .ok { s.setPc p (.user 0) with proc := Table.kill s.proc ⟨i, h⟩ }
      else .ok (s.setPc p (.kill pid (i + 1)))
    else .ok (s.setPc p (.user (-1)))

def call (s : State NPROC) (p : Fin NPROC) : Syscall → Except Halt (State NPROC)
  | .fork => .ok (s.setPc p (.allocproc 0))
  | .exit status =>
    if p = initproc then .error (.panic "init exiting") else .ok (s.setPc p (.exit status))
  | .wait addr => .ok (s.setPc p (.wait addr))
  | .kill pid => .ok (s.setPc p (.kill pid 0))

/-- Only a process that is running acts. -/
def step (s : State NPROC) : Event NPROC → Except Halt (State NPROC)
  | .call p c =>
    match (s.proc p).state, s.pc p with
    | .running, .user _ => s.call p c
    | _, _ => .error .blocked
  | .run p ok => if (s.proc p).state = .running then s.run p ok else .error .blocked
  | .sleep p chan =>
    -- another call may sleep, and so may `exit` while it closes the files
    match (s.proc p).state, s.pc p with
    | .running, .user _ | .running, .exit _ =>
      .ok { s.setProc p { s.proc p with chan := some (.other chan), state := .sleeping } with
        asleep := update s.asleep p true }
    | _, _ => .error .blocked
  | .wakeup p chan =>
    if (s.proc p).state = .sleeping ∧ (s.proc p).chan = some (.other chan) then
      .ok (s.setProc p { s.proc p with state := .runnable })
    else .error .blocked
  | .schedule p =>
    if (s.proc p).state = .runnable then
      .ok { s.setProc p { s.proc p with
          state := .running
          chan := if s.asleep p then none else (s.proc p).chan } with
        asleep := update s.asleep p false }
    else .error .blocked
  | .yield p =>
    if (s.proc p).state = .running then .ok (s.setProc p { s.proc p with state := .runnable })
    else .error .blocked
  | .setkilled p =>
    if (s.proc p).state = .running then .ok (s.setProc p { s.proc p with killed := 1 })
    else .error .blocked

end State

/-! ## What the table functions do -/

/-- The state of a process that has started and has not exited. -/
def ProcState.Live : ProcState → Prop
  | .sleeping | .runnable | .running => True
  | .unused | .used | .zombie => False

/-- A change that concerns scheduling and `killed` only. -/
structure Proc.Touches (x y : Proc NPROC) : Prop where
  pid : y.pid = x.pid
  parent : y.parent = x.parent
  state : y.state = x.state ∧ y.chan = x.chan ∨ x.state.Live ∧ y.state.Live

theorem Proc.Touches.refl (x : Proc NPROC) : x.Touches x := ⟨rfl, rfl, .inl ⟨rfl, rfl⟩⟩

theorem Proc.Touches.trans {x y z : Proc NPROC} (hxy : x.Touches y) (hyz : y.Touches z) :
    x.Touches z := by
  refine ⟨hyz.pid.trans hxy.pid, hyz.parent.trans hxy.parent, ?_⟩
  rcases hxy.state with ⟨hstate, hchan⟩ | ⟨hx, hy⟩
  · rcases hyz.state with ⟨hstate', hchan'⟩ | ⟨hy, hz⟩
    · exact .inl ⟨hstate'.trans hstate, hchan'.trans hchan⟩
    · exact .inr ⟨hstate ▸ hy, hz⟩
  · rcases hyz.state with ⟨hstate', -⟩ | ⟨-, hz⟩
    · exact .inr ⟨hx, hstate' ▸ hy⟩
    · exact .inr ⟨hx, hz⟩

namespace Table

theorem wakeup_touches (t : Table NPROC) (self : Fin NPROC) (chan : Option (Chan NPROC))
    (p : Fin NPROC) : (t p).Touches (t.wakeup self chan p) := by
  unfold wakeup
  split
  · rename_i h
    exact ⟨rfl, rfl, .inr ⟨h.2.1 ▸ trivial, trivial⟩⟩
  · exact .refl _

/-- The slot `x` once `reparent(p)` has visited it. -/
def adopted (x : Proc NPROC) (p initproc : Fin NPROC) : Proc NPROC :=
  { x with parent := if x.parent = some p then some initproc else x.parent }

theorem reparentAt_touches (t : Table NPROC) (p initproc pp q : Fin NPROC) :
    (if q = pp then adopted (t q) p initproc else t q).Touches (t.reparentAt p initproc pp q) := by
  unfold reparentAt adopted
  by_cases hparent : (t pp).parent = some p
  · rw [if_pos hparent]
    refine .trans ?_ (wakeup_touches _ _ _ q)
    by_cases hq : q = pp
    · rw [hq, if_pos rfl, if_pos hparent, update_self]
      exact .refl _
    · rw [if_neg hq, update_of_ne hq]
      exact .refl _
  · rw [if_neg hparent]
    by_cases hq : q = pp
    · rw [hq, if_pos rfl, if_neg hparent]
      exact .refl _
    · rw [if_neg hq]
      exact .refl _

theorem adopted_touches {x y : Proc NPROC} (h : x.Touches y) (p initproc : Fin NPROC) :
    (adopted x p initproc).Touches (adopted y p initproc) := by
  refine ⟨h.pid, ?_, h.state⟩
  unfold adopted
  rw [h.parent]

theorem adopted_adopted (x : Proc NPROC) (p initproc : Fin NPROC) :
    adopted (adopted x p initproc) p initproc = adopted x p initproc := by
  unfold adopted
  by_cases hparent : x.parent = some p
  · simp only [hparent, if_true]
    split <;> rfl
  · simp only [hparent, if_false]

-- The induction is on the slots still to be visited.
theorem foldl_reparentAt (l : List (Fin NPROC)) (t : Table NPROC) (p initproc q : Fin NPROC) :
    (if q ∈ l then adopted (t q) p initproc else t q).Touches
    (l.foldl (reparentAt p initproc) t q) := by
  induction l generalizing t with
  | nil =>
    exact .refl _
  | cons pp l ih =>
    refine .trans ?_ (ih (t.reparentAt p initproc pp))
    have hvisit := reparentAt_touches t p initproc pp q
    by_cases hl : q ∈ l
    · rw [if_pos hl, if_pos (List.mem_cons_of_mem _ hl)]
      split at hvisit
      · exact adopted_adopted (t q) p initproc ▸ adopted_touches hvisit p initproc
      · exact adopted_touches hvisit p initproc
    · rw [if_neg hl]
      split at hvisit
      next hq =>
        rwa [if_pos (List.mem_cons.mpr (.inl hq))]
      next hq =>
        rwa [if_neg (List.mem_cons.not.mpr (not_or.mpr ⟨hq, hl⟩))]

theorem reparent_touches (t : Table NPROC) (p initproc q : Fin NPROC) :
    (adopted (t q) p initproc).Touches (t.reparent p initproc q) := by
  have h := foldl_reparentAt (List.finRange NPROC) t p initproc q
  rwa [if_pos (List.mem_finRange q)] at h

theorem zombieChild_some {t : Table NPROC} {p pp : Fin NPROC} (h : t.zombieChild p = some pp) :
    (t pp).parent = some p ∧ (t pp).state = .zombie := by
  have hfound := List.find?_some h
  exact of_decide_eq_true hfound

theorem zombieChild_isSome {t : Table NPROC} {p pp : Fin NPROC} (hparent : (t pp).parent = some p)
    (hstate : (t pp).state = .zombie) : ∃ pp', t.zombieChild p = some pp' := by
  refine Option.isSome_iff_exists.mp (List.find?_isSome.mpr ⟨pp, List.mem_finRange pp, ?_⟩)
  exact decide_eq_true ⟨hparent, hstate⟩

end Table

end OsProjects.Kernel.Procs
