import OsProjects.Kernel.Commit
import OsProjects.Kernel.Log
import OsProjects.Lib.Discipline
import Mathlib.Data.Multiset.Basic
import Mathlib.Data.List.FinRange

/-!
# Bcache — the buffer cache of `bio.c` and the log that runs on it

Each critical section under `bcache.lock` or `log.lock` is one action, and so is each operation on
the sleep-lock of a buffer, each transfer to or from the disk and each `memmove` into a buffer that
is locked. Any number of processes take part; a caller of the cache is a process that calls `bread`,
`brelse`, `begin_op`, `end_op`, and `write`: a modification of a buffer that it holds, followed by
`log_write`. `end_op` of the last operation goes on to `commit()`, which is itself a client of the
cache.
-/

namespace OsProjects.Kernel.Bio

open Lib Function

abbrev NBUF : Nat := MAXOPBLOCKS * 3
abbrev ROOTDEV : Nat := 1

/-- `log.start` and `log.size`. -/
structure LogArea where
  start : Nat
  size : Nat

/-- The block is one of the header and the log blocks. -/
def LogArea.Has (lg : LogArea) (b : Nat) : Prop := lg.start ≤ b ∧ b < lg.start + lg.size

instance (lg : LogArea) (b : Nat) : Decidable (lg.Has b) :=
  inferInstanceAs (Decidable (_ ∧ _))

/-- What the holder of the lock has done with a buffer: taken the lock only; read it; changed it;
copied the contents of block `src` into it. -/
inductive Mode
  | unloaded
  | clean
  | dirty
  | moved (src : Nat)
  deriving DecidableEq

/-- The fields of `struct buf` for each buffer (`lock` is the process that holds the sleep-lock),
the list through `prev` and `next` from `head.next` on, the disk and the log. The rest is
bookkeeping that the kernel does not do: the references that each process has taken and not given
back, with the block each is for; the mode of each locked buffer; what was last logged for each
block; how many blocks of the header the commit in progress has written to the log and installed;
and how many references the committing process had before. -/
structure State (N : Nat) where
  dev : Fin NBUF → Nat
  blockno : Fin NBUF → Nat
  valid : Fin NBUF → Bool
  refcnt : Fin NBUF → Nat
  lock : Fin NBUF → Option (Fin N)
  data : Fin NBUF → Block
  lru : List (Fin NBUF)
  disk : Disk
  log : LogState
  refs : Fin N → Multiset (Fin NBUF × Nat)
  mode : Fin NBUF → Mode
  logged : Nat → Option Block
  written : Nat
  installed : Nat
  carried : Nat

/-- After `binit` and a recovery that found an empty log. -/
def State.init (N : Nat) (disk : Disk) : State N where
  dev _ := 0
  blockno _ := 0
  valid _ := false
  refcnt _ := 0
  lock _ := none
  data _ := .zero
  lru := (List.finRange NBUF).reverse
  disk := disk
  log := .init
  refs _ := 0
  mode _ := .unloaded
  logged _ := none
  written := 0
  installed := 0
  carried := 0

inductive Act
  | bget (b : Nat)
  | acquiresleep (k : Fin NBUF)
  /-- The end of `bread`: a buffer that is not valid is read from the disk. -/
  | load (k : Fin NBUF)
  /-- `bread` of block `b` has returned the buffer. -/
  | got (k : Fin NBUF) (b : Nat)
  | setData (k : Fin NBUF) (data : Block)
  | logWrite (k : Fin NBUF)
  | bwrite (k : Fin NBUF)
  | releasesleep (k : Fin NBUF)
  /-- The end of `brelse`, under `bcache.lock`. -/
  | unref (k : Fin NBUF)
  | bunpin (k : Fin NBUF)
  | memmove (dst src : Fin NBUF)
  /-- The stores of `write_head` into the header block. -/
  | setHead (k : Fin NBUF)
  | beginOp
  | endOp
  | lh
  /-- `log.lh.n = 0`. -/
  | clear
  /-- The critical section after `commit()`. -/
  | finish

def Reply : Act → Type
  | .bget _ => Fin NBUF
  | .endOp => Bool
  | .lh => List Nat
  | _ => Unit

inductive Stop
  | blocked
  | panic (msg : String)
  deriving DecidableEq

section Exec

variable {N : Nat} (lg : LogArea)

/-- One more reference of `p` to the buffer, for block `b`. -/
def State.addRef (s : State N) (p : Fin N) (k : Fin NBUF) (b : Nat) : State N :=
  { s with refs := update s.refs p ((k, b) ::ₘ s.refs p) }

def State.setMode (s : State N) (k : Fin NBUF) (m : Mode) : State N :=
  { s with mode := update s.mode k m }

/-- The loops of `bget`: the buffer that has the block, or else the least recently used one without
references. -/
def bget (s : State N) (p : Fin N) (b : Nat) : Except Stop (Fin NBUF × State N) :=
  match s.lru.find? fun k => s.dev k = ROOTDEV ∧ s.blockno k = b with
  | some k =>
    .ok (k, { s.addRef p k b with refcnt := update s.refcnt k (s.refcnt k + 1) })
  | none =>
    match s.lru.reverse.find? fun k => s.refcnt k = 0 with
    | some k =>
      .ok (k, { s.addRef p k b with
        dev := update s.dev k ROOTDEV
        blockno := update s.blockno k b
        valid := update s.valid k false
        refcnt := update s.refcnt k 1 })
    | none => .error (.panic "bget: no buffers")

/-- One reference of `p` to the buffer is given back. -/
def dropRef (s : State N) (p : Fin N) (k : Fin NBUF) : State N :=
  { s with
    refcnt := update s.refcnt k (s.refcnt k - 1)
    refs := update s.refs p ((s.refs p).erase (k, s.blockno k)) }

def unref (s : State N) (p : Fin N) (k : Fin NBUF) : State N :=
  if s.refcnt k - 1 = 0 then { dropRef s p k with lru := k :: s.lru.erase k }
  else dropRef s p k

def logWrite (s : State N) (p : Fin N) (k : Fin NBUF) : Except Stop (State N) :=
  match s.log.logWrite lg.size p (s.blockno k) with
  | .error msg => .error (.panic msg)
  | .ok log =>
    let s' := { s.setMode k .clean with
      log := log, logged := update s.logged (s.blockno k) (some (s.data k)) }
    -- a block that is new in the header is pinned
    if s.blockno k ∈ s.log.lh then .ok s'
    else .ok { s' with refcnt := update s.refcnt k (s.refcnt k + 1) }

/-- A write to the header, to a log block (a block of the header is copied to the log) or to a home
block (it is installed, and the pin becomes a reference of the committing process). -/
def bwrite (s : State N) (p : Fin N) (k : Fin NBUF) : State N :=
  let s' := { s.setMode k .clean with disk := update s.disk (s.blockno k) (s.data k) }
  if s.blockno k = lg.start then s'
  else if lg.Has (s.blockno k) then { s' with written := s.written + 1 }
  else { s'.addRef p k (s.blockno k) with installed := s.installed + 1 }

/-- The block whose contents a buffer has: a log block that is installed next has those of its home
block. -/
def source (s : State N) (k : Fin NBUF) : Nat :=
  if lg.Has (s.blockno k) then s.log.lh.getD s.installed 0 else s.blockno k

def exec (p : Fin N) : (a : Act) → State N → Except Stop (Reply a × State N)
  | .bget b, s => bget s p b
  | .acquiresleep k, s =>
    match s.lock k with
    | none => .ok ((), { s.setMode k .unloaded with lock := update s.lock k (some p) })
    | some _ => .error .blocked
  | .load k, s =>
    if s.valid k then .ok ((), s.setMode k .clean)
    else .ok ((), { s.setMode k .clean with
      valid := update s.valid k true
      data := update s.data k (s.disk (s.blockno k)) })
  | .got _ _, s => .ok ((), s)
  | .setData k data, s =>
    .ok ((), { s.setMode k .dirty with data := update s.data k data })
  | .logWrite k, s => (logWrite lg s p k).map fun s => ((), s)
  | .bwrite k, s =>
    if s.lock k ≠ some p then .error (.panic "bwrite") else .ok ((), bwrite lg s p k)
  | .releasesleep k, s =>
    if s.lock k ≠ some p then .error (.panic "brelse")
    else .ok ((), { s with lock := update s.lock k none })
  | .unref k, s => .ok ((), unref s p k)
  | .bunpin k, s => .ok ((), dropRef s p k)
  | .memmove dst src, s =>
    .ok ((), { s.setMode dst (.moved (source lg s src)) with
      data := update s.data dst (s.data src) })
  | .setHead k, s =>
    .ok ((), { s.setMode k .dirty with
      data := update s.data k (packHead (s.data k) s.log.lh) })
  | .beginOp, s =>
    -- the process sleeps until it is admitted
    if s.log.committing ∨ s.log.lh.length + (s.log.outstanding + 1) * MAXOPBLOCKS > LOGSIZE then
      .error .blocked
    else .ok ((), { s with log := s.log.beginOp p })
  | .endOp, s =>
    match s.log.endOp p with
    | .error msg => .error (.panic msg)
    | .ok log =>
      if log.committing then
        .ok (true, { s with log := log, written := 0, installed := 0, carried := (s.refs p).card })
      else .ok (false, { s with log := log })
  | .lh, s => .ok (s.log.lh, s)
  | .clear, s =>
    .ok ((), { s with
      log := { s.log.setPhase p .cleared with lh := [] }, written := 0, installed := 0 })
  | .finish, s => .ok ((), { s with log := { s.log.setPhase p .idle with committing := false } })

end Exec

/-! ## The code -/

abbrev Code := Prog Act Reply

def act (a : Act) : Code (Reply a) := Prog.call a

/-- `log.lh.block[0..n)`. -/
def header : Code (List Nat) := act .lh

def bread (b : Nat) : Code (Fin NBUF) := do
  let k : Fin NBUF ← act (.bget b)
  act (.acquiresleep k)
  act (.load k)
  pure k

def brelse (k : Fin NBUF) : Code Unit := do
  act (.releasesleep k)
  act (.unref k)

section Code

variable (lg : LogArea)

/-- The loop of `write_log`; `lh.n` never exceeds `LOGSIZE`, which bounds the rounds. -/
def writeLog : (rounds tail : Nat) → Code Unit
  | 0, _ => pure ()
  | rounds + 1, tail => do
    let lh ← header
    if tail < lh.length then
      let toBuf ← bread (lg.start + tail + 1)
      let lh ← header
      let fromBuf ← bread (lh.getD tail 0)
      act (.memmove toBuf fromBuf)
      act (.bwrite toBuf)
      brelse fromBuf
      brelse toBuf
      writeLog rounds (tail + 1)
    else pure ()

def writeHead : Code Unit := do
  let buf ← bread lg.start
  act (.setHead buf)
  act (.bwrite buf)
  brelse buf

def installTrans : (rounds tail : Nat) → Code Unit
  | 0, _ => pure ()
  | rounds + 1, tail => do
    let lh ← header
    if tail < lh.length then
      let lbuf ← bread (lg.start + tail + 1)
      let lh ← header
      let dbuf ← bread (lh.getD tail 0)
      act (.memmove dbuf lbuf)
      act (.bwrite dbuf)
      act (.bunpin dbuf)
      brelse lbuf
      brelse dbuf
      installTrans rounds (tail + 1)
    else pure ()

def commit : Code Unit := do
  let lh ← header
  if 0 < lh.length then
    writeLog lg LOGSIZE 0
    writeHead lg
    installTrans lg LOGSIZE 0
    act .clear
    writeHead lg
  else pure ()

def endOp : Code Unit := do
  let doCommit : Bool ← act .endOp
  if doCommit then
    commit lg
    act .finish
  else pure ()

/-- What the users of the cache call. -/
inductive Call
  | beginOp
  | endOp
  | bread (b : Nat)
  | write (k : Fin NBUF) (data : Block)
  | brelse (k : Fin NBUF)

def Call.code : Call → Code Unit
  | .beginOp => act .beginOp
  | .endOp => Bio.endOp lg
  | .bread b => do
    let k ← Bio.bread b
    act (.got k b)
  | .write k data => do
    act (.setData k data)
    act (.logWrite k)
  | .brelse k => Bio.brelse k

end Code

end OsProjects.Kernel.Bio
