import OsProjects.Kernel.Param
import OsProjects.Lib.Discipline
import Mathlib.Data.List.FinRange

/-!
# Files — the open-file table and the descriptors of the processes

`file.c`, and the calls that make or give up references to a `struct file`: `sys_open`, `sys_dup`,
`sys_close`, `sys_pipe`, `fork` and `exit`, by any number of processes, one critical section under
`ftable.lock` or one access to a descriptor table at a time.  What the calls do besides is a
parameter: the inode that the path of `sys_open` leads to, whether there is memory, whether
`copyout` succeeds, and the slot that `allocproc` comes upon.  `wait` is there so that slots are
used again.
-/

namespace OsProjects.Kernel.Files

open Lib Function

inductive FdType
  | none | pipe | inode | device
deriving DecidableEq

/-- `struct file`; a pipe is known by its number.  `serial` is history: the number of the `sys_open`
that filled the file in. -/
structure File where
  type : FdType
  ref : Nat
  readable : Bool
  writable : Bool
  pipe : Nat
  ip : Nat
  serial : Nat
deriving DecidableEq

/-- What is given up once when nobody refers to a file any more: an end of a pipe, or the reference
to the inode `ip` that the call number `n` of those that opened one has got. -/
inductive Obj
  | pipeEnd (pipe : Nat) (writable : Bool)
  | opening (n ip : Nat)
deriving DecidableEq

def File.obj (g : File) : Option Obj :=
  match g.type with
  | .none => none
  | .pipe => some (.pipeEnd g.pipe g.writable)
  | .inode | .device => some (.opening g.serial g.ip)

/-- The file as `pipealloc` fills it in. -/
def File.piped (g : File) (pipe : Nat) (writable : Bool) : File :=
  { g with type := .pipe, readable := !writable, writable := writable, pipe := pipe }

/-- The file as `sys_open` fills it in. -/
def File.opened (g : File) (serial ip : Nat) (device readable writable : Bool) : File :=
  { g with
    type := if device then .device else .inode
    ip := ip
    readable := readable
    writable := writable
    serial := serial }

/-- A slot of the process table.  `running` is all of `SLEEPING`, `RUNNABLE` and `RUNNING`. -/
inductive Life
  | unused | used | running | zombie
deriving DecidableEq

/-- The last three fields are history: the number of pipes made, the inode of every file opened, and
what has been given up. -/
structure Sys (P : Type) where
  file : Fin NFILE → File
  ofile : P → Fin NOFILE → Option (Fin NFILE)
  life : P → Life
  pipes : Nat
  opens : List Nat
  released : List Obj

/-- After `userinit`, with `init` the first process. -/
def Sys.boot {P : Type} [DecidableEq P] (init : P) : Sys P where
  file _ := ⟨.none, 0, false, false, 0, 0, 0⟩
  ofile _ _ := none
  life p := if p = init then .running else .unused
  pipes := 0
  opens := []
  released := []

inductive Act (P : Type)
  /-- A process that is running begins a call. -/
  | enter
  | filealloc
  | filedup (f : Fin NFILE)
  /-- The critical section of `fileclose`: the file as it was if this was its last reference. -/
  | dropFile (f : Fin NFILE)
  | pipeclose (pipe : Nat) (writable : Bool)
  /-- `iput(ff.ip)`. -/
  | iput (serial ip : Nat)
  | argfd (fd : Int)
  /-- `p->ofile[fd]` -/
  | ofile (fd : Fin NOFILE)
  | fdalloc (f : Fin NFILE)
  /-- `p->ofile[fd] = 0` -/
  | clearFd (fd : Fin NOFILE)
  /-- The end of `pipealloc`. -/
  | initPipe (f₀ f₁ : Fin NFILE)
  /-- `sys_open` fills in the file. -/
  | initInode (f : Fin NFILE) (ip : Nat) (device readable writable : Bool)
  | allocproc (np : P)
  | freeproc (np : P)
  /-- `np->ofile[fd] = f` -/
  | giveFd (np : P) (fd : Fin NOFILE) (f : Fin NFILE)
  /-- `np->state = RUNNABLE` -/
  | start (np : P)
  /-- `p->state = ZOMBIE` -/
  | zombie
  /-- `wait` frees the slot of a zombie. -/
  | reap (q : P)

abbrev Act.Reply {P : Type} : Act P → Type
  | .filealloc => Option (Fin NFILE)
  | .dropFile _ => Option File
  | .argfd _ => Option (Fin NOFILE × Fin NFILE)
  | .ofile _ => Option (Fin NFILE)
  | .fdalloc _ => Option (Fin NOFILE)
  | _ => Unit

inductive Stop
  | wait
  | panic (msg : String)
deriving DecidableEq

section Exec

variable {P : Type} [DecidableEq P]

namespace Sys

def setFile (s : Sys P) (f : Fin NFILE) (g : File) : Sys P :=
  { s with file := update s.file f g }

def setFd (s : Sys P) (p : P) (fd : Fin NOFILE) (f : Option (Fin NFILE)) : Sys P :=
  { s with ofile := update s.ofile p (update (s.ofile p) fd f) }

def setLife (s : Sys P) (p : P) (x : Life) : Sys P := { s with life := update s.life p x }

/-- The first entry of `ftable.file` with no reference. -/
def findFile (s : Sys P) : Option (Fin NFILE) :=
  (List.finRange NFILE).find? fun f => (s.file f).ref == 0

end Sys

/-- The first free descriptor. -/
def findFd (ofile : Fin NOFILE → Option (Fin NFILE)) : Option (Fin NOFILE) :=
  (List.finRange NOFILE).find? fun fd => ofile fd == none

def lookupFd (ofile : Fin NOFILE → Option (Fin NFILE)) (fd : Int) :
    Option (Fin NOFILE × Fin NFILE) :=
  if h : 0 ≤ fd ∧ fd < NOFILE then
    let n : Fin NOFILE := ⟨fd.toNat, (Int.toNat_lt h.1).mpr h.2⟩
    (ofile n).map fun f => (n, f)
  else none

/-- The action of process `p`. -/
def exec (p : P) : (a : Act P) → Sys P → Except Stop (a.Reply × Sys P)
  | .enter, s => if s.life p = .running then .ok ((), s) else .error .wait
  | .filealloc, s =>
    match s.findFile with
    | some f => .ok (some f, s.setFile f { s.file f with ref := 1 })
    | none => .ok (none, s)
  | .filedup f, s =>
    if (s.file f).ref < 1 then .error (.panic "filedup")
    else .ok ((), s.setFile f { s.file f with ref := (s.file f).ref + 1 })
  | .dropFile f, s =>
    if (s.file f).ref < 1 then .error (.panic "fileclose")
    else if (s.file f).ref - 1 > 0 then
      .ok (none, s.setFile f { s.file f with ref := (s.file f).ref - 1 })
    else .ok (some (s.file f), s.setFile f { s.file f with ref := 0, type := .none })
  | .pipeclose pipe writable,
      s => .ok ((), { s with released := .pipeEnd pipe writable :: s.released })
  | .iput serial ip, s => .ok ((), { s with released := .opening serial ip :: s.released })
  | .argfd fd, s => .ok (lookupFd (s.ofile p) fd, s)
  | .ofile fd, s => .ok (s.ofile p fd, s)
  | .fdalloc f, s =>
    match findFd (s.ofile p) with
    | some fd => .ok (some fd, s.setFd p fd (some f))
    | none => .ok (none, s)
  | .clearFd fd, s => .ok ((), s.setFd p fd none)
  | .initPipe f₀ f₁, s =>
    let s' := s.setFile f₀ ((s.file f₀).piped s.pipes false)
    .ok ((), { s'.setFile f₁ ((s'.file f₁).piped s.pipes true) with pipes := s.pipes + 1 })
  | .initInode f ip device readable writable, s =>
    .ok ((), { s.setFile f ((s.file f).opened s.opens.length ip device readable writable) with
      opens := s.opens ++ [ip] })
  | .allocproc np, s => if s.life np = .unused then .ok ((), s.setLife np .used) else .error .wait
  | .freeproc np, s => .ok ((), s.setLife np .unused)
  | .giveFd np fd f, s => .ok ((), s.setFd np fd (some f))
  | .start np, s => .ok ((), s.setLife np .running)
  | .zombie, s => .ok ((), s.setLife p .zombie)
  | .reap q, s => if s.life q = .zombie then .ok ((), s.setLife q .unused) else .error .wait

end Exec

/-! ## The code -/

section Code

variable {P : Type}

abbrev Code (P : Type) := Prog (Act P) Act.Reply

def act (a : Act P) : Code P a.Reply := Prog.call a

/-- The end of `fileclose`, for a file without references. -/
def release (ff : File) : Code P Unit :=
  match ff.type with
  | .none => pure ()
  | .pipe => act (.pipeclose ff.pipe ff.writable)
  | .inode | .device => act (.iput ff.serial ff.ip)

def fileclose (f : Fin NFILE) : Code P Unit := do
  match ← act (.dropFile f) with
  | none => pure ()
  | some ff => release ff

/-- `found` is the inode that the path leads to, and whether it is a device. -/
def sysOpen (found : Option (Nat × Bool)) (readable writable : Bool) : Code P Int := do
  match found with
  | none => pure (-1)
  | some (ip, device) =>
    match ← act .filealloc with
    | none => pure (-1)
    | some f =>
      match ← act (.fdalloc f) with
      | none =>
        fileclose f
        pure (-1)
      | some fd =>
        act (.initInode f ip device readable writable)
        pure fd

def sysDup (fd : Int) : Code P Int := do
  match ← act (.argfd fd) with
  | none => pure (-1)
  | some (_, f) =>
    match ← act (.fdalloc f) with
    | none => pure (-1)
    | some fd =>
      act (.filedup f)
      pure fd

def sysClose (fd : Int) : Code P Int := do
  match ← act (.argfd fd) with
  | none => pure (-1)
  | some (fd, f) =>
    act (.clearFd fd)
    fileclose f
    pure 0

/-- `memory`: `kalloc` has a page for the pipe. -/
def pipealloc (memory : Bool) : Code P (Option (Fin NFILE × Fin NFILE)) := do
  match ← act .filealloc with
  | none => pure none
  | some f₀ =>
    match ← act .filealloc with
    | none =>
      fileclose f₀
      pure none
    | some f₁ =>
      if memory then
        act (.initPipe f₀ f₁)
        pure (some (f₀, f₁))
      else
        fileclose f₀
        fileclose f₁
        pure none

/-- `copied`: both descriptors can be copied out. -/
def sysPipe (memory copied : Bool) : Code P Int := do
  match ← pipealloc memory with
  | none => pure (-1)
  | some (rf, wf) =>
    match ← act (.fdalloc rf) with
    | none =>
      fileclose rf
      fileclose wf
      pure (-1)
    | some fd0 =>
      match ← act (.fdalloc wf) with
      | none =>
        act (.clearFd fd0)
        fileclose rf
        fileclose wf
        pure (-1)
      | some fd1 =>
        if copied then pure 0
        else
          act (.clearFd fd0)
          act (.clearFd fd1)
          fileclose rf
          fileclose wf
          pure (-1)

/-- The loop of `fork` over the descriptors. -/
def copyFds (np : P) : List (Fin NOFILE) → Code P Unit
  | [] => pure ()
  | fd :: fds => do
    match ← act (.ofile fd) with
    | some f =>
      act (.filedup f)
      act (.giveFd np fd f)
    | none => pure ()
    copyFds np fds

/-- `slot` is the slot that `allocproc` comes upon; `memory`: there is enough for the child. -/
def fork (slot : Option P) (memory : Bool) : Code P Int := do
  match slot with
  | none => pure (-1)
  | some np =>
    act (.allocproc np)
    if memory then
      copyFds np (List.finRange NOFILE)
      act (.start np)
      pure 0
    else
      act (.freeproc np)
      pure (-1)

/-- The loop of `exit` over the descriptors. -/
def closeFds : List (Fin NOFILE) → Code P Unit
  | [] => pure ()
  | fd :: fds => do
    match ← act (.ofile fd) with
    | some f =>
      fileclose f
      act (.clearFd fd)
    | none => pure ()
    closeFds fds

def exit : Code P Int := do
  closeFds (List.finRange NOFILE)
  act .zombie
  pure 0

inductive Call (P : Type)
  | open (found : Option (Nat × Bool)) (readable writable : Bool)
  | dup (fd : Int)
  | close (fd : Int)
  | pipe (memory copied : Bool)
  | fork (slot : Option P) (memory : Bool)
  | exit
  | wait (q : P)

def Call.code (c : Call P) : Code P Int := do
  act .enter
  match c with
  | .open found readable writable => sysOpen found readable writable
  | .dup fd => sysDup fd
  | .close fd => sysClose fd
  | .pipe memory copied => sysPipe memory copied
  | .fork slot memory => Files.fork slot memory
  | .exit => Files.exit
  | .wait q => do
    act (.reap q)
    pure 0

/-- The configurations of the runs in which any processes make any of these calls. -/
def Reached [DecidableEq P] (init : P) : Config (Sys P) P (Act P) Act.Reply Int → Prop :=
  Reach (Config.step exec Call.code) (Config.Admits fun _ _ _ => True) ⟨.boot init, fun _ => none⟩

end Code

end OsProjects.Kernel.Files
