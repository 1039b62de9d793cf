import OsProjects.Lib.Discipline
import Mathlib.Data.List.FinRange
import Mathlib.Algebra.GroupWithZero.Nat

/-!
# Vm — page tables, and the calls that make, grow, copy and free them

`kalloc.c`, the user half of `vm.c`, the memory side of `proc.c` and `exec.c`, by any number of
processes: each load and store of a page-table entry, each `kalloc` and `kfree` and each access to a
`struct proc` is one action.  What the data in a user page is does not matter here, nor do the parts
of the calls that touch no memory: the slot that `allocproc` comes upon, what `exec` reads from the
file, whether the arguments fit and whether the `copyout` of `wait` succeeds are parameters.
-/

namespace OsProjects.Kernel.Vm

open Lib Function

/-! ## `riscv.h` and `memlayout.h` -/

abbrev PGSIZE : Nat := 4096
abbrev KERNBASE : Nat := 0x80000000
abbrev PHYSTOP : Nat := KERNBASE + 128 * 1024 * 1024
abbrev MAXVA : Nat := 2 ^ 38
abbrev TRAMPOLINE : Nat := MAXVA - PGSIZE
abbrev TRAPFRAME : Nat := TRAMPOLINE - PGSIZE
abbrev USERSTACK : Nat := 1
abbrev MAXARG : Nat := 32

abbrev PTE_V : Nat := 1
abbrev PTE_R : Nat := 2
abbrev PTE_W : Nat := 4
abbrev PTE_X : Nat := 8
abbrev PTE_U : Nat := 16

/-- `uint64` arithmetic. -/
abbrev WORD : Nat := 2 ^ 64

def PGROUNDUP (sz : Nat) : Nat := (sz + PGSIZE - 1) % WORD / PGSIZE * PGSIZE

def PA2PTE (pa : Nat) : Nat := pa >>> 12 <<< 10

def PTE2PA (pte : Nat) : Nat := (pte >>> 10 <<< 12) % WORD

def PTE_FLAGS (pte : Nat) : Nat := pte % 1024

/-- An index into a page-table page. -/
abbrev Idx := Fin 512

@[irreducible] def indices : List Idx := List.finRange 512

theorem mem_indices (i : Idx) : i ∈ indices := by
  unfold indices
  exact List.mem_finRange i

def PX (level va : Nat) : Idx := Fin.ofNat 512 (va >>> (12 + 9 * level))

/-- What the linker decides: where the kernel ends, and where the trampoline is in it. -/
structure Image where
  «end» : Nat
  trampoline : Nat
  base_le : KERNBASE ≤ trampoline
  trampoline_lt : trampoline < «end»
  aligned : trampoline % PGSIZE = 0

/-! ## The machine -/

/-- The fields of `struct proc` that have to do with memory; a null pointer is 0. -/
structure Proc where
  sz : Nat
  pagetable : Nat
  trapframe : Nat
deriving DecidableEq

def Proc.zero : Proc := ⟨0, 0, 0⟩

/-- `running` is all of `SLEEPING`, `RUNNABLE` and `RUNNING`; `freeing` is a `ZOMBIE` whose lock
`wait` has. -/
inductive Life
  | unused | used | running | zombie | freeing
deriving DecidableEq

/-- A page of memory as page-table entries. -/
abbrev Words := Idx → Nat

/-- `freelist` is `kmem.freelist`.  The `kalloc` number `n` fails if `fails n`, whatever is free:
other parts of the kernel may have got there first. -/
structure Sys (P : Type) where
  mem : Nat → Words
  freelist : List Nat
  fails : Nat → Bool
  kallocs : Nat
  proc : P → Proc
  life : P → Life
  booted : Bool

inductive Act (P : Type)
  /-- `userinit` runs once, for the slot of `init`. -/
  | boot
  /-- A process that is running begins a call. -/
  | enter
  | panic (msg : String)
  /-- Boot has run out of memory. -/
  | halt
  | kalloc
  | kfree (pa : Nat)
  | load (page : Nat) (i : Idx)
  | store (page : Nat) (i : Idx) (pte : Nat)
  /-- `memset(page, 0, PGSIZE)` -/
  | zero (page : Nat)
  /-- `memmove(dst, src, PGSIZE)` -/
  | copy (dst src : Nat)
  /-- The fields of the process itself, or of a slot whose lock it has. -/
  | proc (q : Option P)
  | setProc (q : Option P) (x : Proc)
  /-- `allocproc` takes an `UNUSED` slot. -/
  | found (np : P)
  /-- `p->state = UNUSED` -/
  | freed (np : P)
  /-- `np->state = RUNNABLE` -/
  | start (np : P)
  /-- `p->state = ZOMBIE` -/
  | zombie
  /-- `wait` comes upon a zombie. -/
  | reap (q : P)
  /-- `wait` leaves it alone after all. -/
  | unreap (q : P)

abbrev Act.Reply {P : Type} : Act P → Type
  | .panic _ | .halt => Empty
  | .kalloc | .load _ _ => Nat
  | .proc _ => Proc
  | _ => Unit

inductive Stop
  | wait
  | panic (msg : String)
deriving DecidableEq

section Perform

variable {P : Type} [DecidableEq P]

namespace Sys

def setMem (s : Sys P) (page : Nat) (t : Words) : Sys P := { s with mem := update s.mem page t }

def setProc (s : Sys P) (p : P) (x : Proc) : Sys P := { s with proc := update s.proc p x }

def setLife (s : Sys P) (p : P) (x : Life) : Sys P := { s with life := update s.life p x }

end Sys

variable (k : Image) (init : P)

/-- The action of process `p`. -/
def perform (p : P) : (a : Act P) → Sys P → Except Stop (a.Reply × Sys P)
  | .boot, s =>
    if p = init ∧ s.booted = false then .ok ((), { s with booted := true }) else .error .wait
  | .enter, s => if s.life p = .running then .ok ((), s) else .error .wait
  | .panic msg, _ => .error (.panic msg)
  | .halt, _ => .error .wait
  | .kalloc, s =>
    let s' := { s with kallocs := s.kallocs + 1 }
    if s.fails s.kallocs then .ok (0, s')
    else match s.freelist with
      | [] => .ok (0, s')
      | pa :: freelist => .ok
        (pa, { s' with freelist := freelist }.setMem pa fun _ => 0x0505050505050505)
  | .kfree pa, s =>
    if pa % PGSIZE ≠ 0 ∨ pa < k.end ∨ pa ≥ PHYSTOP then .error (.panic "kfree")
    else .ok ((), { s with freelist := pa :: s.freelist }.setMem pa fun _ => 0x0101010101010101)
  | .load page i, s => .ok (s.mem page i, s)
  | .store page i pte, s => .ok ((), s.setMem page (update (s.mem page) i pte))
  | .zero page, s => .ok ((), s.setMem page fun _ => 0)
  | .copy dst src, s => .ok ((), s.setMem dst (s.mem src))
  | .proc q, s => .ok (s.proc (q.getD p), s)
  | .setProc q x, s => .ok ((), s.setProc (q.getD p) x)
  | .found np, s => if s.life np = .unused then .ok ((), s.setLife np .used) else .error .wait
  | .freed np, s => .ok ((), s.setLife np .unused)
  | .start np, s => .ok ((), s.setLife np .running)
  | .zombie, s =>
    if p = init then .error (.panic "init exiting") else .ok ((), s.setLife p .zombie)
  | .reap q, s => if s.life q = .zombie then .ok ((), s.setLife q .freeing) else .error .wait
  | .unreap q, s => .ok ((), s.setLife q .zombie)

end Perform

/-! ## `vm.c` -/

section Code

variable {P : Type}

abbrev Code (P : Type) := Prog (Act P) Act.Reply

def act (a : Act P) : Code P a.Reply := Prog.call a

def panic {α : Type} (msg : String) : Code P α := Prog.act (.panic msg) nofun

def halt {α : Type} : Code P α := Prog.act .halt nofun

/-- The loop of `walk`, from the table of level `level` on. -/
def walkFrom (alloc : Bool) (va : Nat) :
    (level : Nat) → (pagetable : Nat) → Code P (Option (Nat × Idx))
  | 0, pagetable => pure (some (pagetable, PX 0 va))
  | level + 1, pagetable => do
    let pte ← act (.load pagetable (PX (level + 1) va))
    if pte &&& PTE_V ≠ 0 then walkFrom alloc va level (PTE2PA pte)
    else if alloc then
      let child ← act .kalloc
      if child = 0 then pure none
      else
        act (.zero child)
        act (.store pagetable (PX (level + 1) va) (PA2PTE child ||| PTE_V))
        walkFrom alloc va level child
    else pure none

/-- A pointer to an entry is the page it is in and its index there. -/
def walk (pagetable va : Nat) (alloc : Bool) : Code P (Option (Nat × Idx)) :=
  if va ≥ MAXVA then panic "walk" else walkFrom alloc va 2 pagetable

/-- 0 if not mapped. -/
def walkaddr (pagetable va : Nat) : Code P Nat := do
  if va ≥ MAXVA then pure 0
  else
    match ← walk pagetable va false with
    | none => pure 0
    | some (page, i) =>
      let pte ← act (.load page i)
      if pte &&& PTE_V = 0 then pure 0
      else if pte &&& PTE_U = 0 then pure 0
      else pure (PTE2PA pte)

/-- The loop of `mappages`: the page at `a`, and `n` more. -/
def mapFrom (pagetable perm : Nat) : (n a pa : Nat) → Code P Int
  | n, a, pa => do
    match ← walk pagetable a true with
    | none => pure (-1)
    | some (page, i) =>
      let pte ← act (.load page i)
      if pte &&& PTE_V ≠ 0 then panic "mappages: remap"
      else
        act (.store page i (PA2PTE pa ||| perm ||| PTE_V))
        match n with
        | 0 => pure 0
        | n + 1 => mapFrom pagetable perm n (a + PGSIZE) (pa + PGSIZE)

def mappages (pagetable va size pa perm : Nat) : Code P Int :=
  if va % PGSIZE ≠ 0 then panic "mappages: va not aligned"
  else if size % PGSIZE ≠ 0 then panic "mappages: size not aligned"
  else if size = 0 then panic "mappages: size"
  else mapFrom pagetable perm (size / PGSIZE - 1) va pa

/-- The loop of `uvmunmap` over `n` pages from `a` on. -/
def unmapFrom (pagetable : Nat) (doFree : Bool) : (n a : Nat) → Code P Unit
  | 0, _ => pure ()
  | n + 1, a => do
    match ← walk pagetable a false with
    | none => panic "uvmunmap: walk"
    | some (page, i) =>
      let pte ← act (.load page i)
      if pte &&& PTE_V = 0 then panic "uvmunmap: not mapped"
      else if PTE_FLAGS pte = PTE_V then panic "uvmunmap: not a leaf"
      else
        if doFree then act (.kfree (PTE2PA pte))
        act (.store page i 0)
        unmapFrom pagetable doFree n (a + PGSIZE)

def uvmunmap (pagetable va npages : Nat) (doFree : Bool) : Code P Unit :=
  if va % PGSIZE ≠ 0 then panic "uvmunmap: not aligned" else unmapFrom pagetable doFree npages va

/-- 0 if there is no memory. -/
def uvmcreate : Code P Nat := do
  let pagetable ← act .kalloc
  if pagetable = 0 then pure 0
  else
    act (.zero pagetable)
    pure pagetable

/-- A process has less than `2 ^ 31` pages, so `int npages` is the number itself. -/
def uvmdealloc (pagetable oldsz newsz : Nat) : Code P Nat := do
  if newsz ≥ oldsz then pure oldsz
  else
    if PGROUNDUP newsz < PGROUNDUP oldsz then
      uvmunmap pagetable (PGROUNDUP newsz) ((PGROUNDUP oldsz - PGROUNDUP newsz) / PGSIZE) true
    pure newsz

/-- The loop of `uvmalloc` over `n` pages from `a` on; `oldsz` is rounded. -/
def allocFrom (pagetable oldsz xperm : Nat) : (n a : Nat) → Code P Bool
  | 0, _ => pure true
  | n + 1, a => do
    let mem ← act .kalloc
    if mem = 0 then
      let _ ← uvmdealloc pagetable a oldsz
      pure false
    else
      act (.zero mem)
      if (← mappages pagetable a PGSIZE mem (PTE_R ||| PTE_U ||| xperm)) ≠ 0 then
        act (.kfree mem)
        let _ ← uvmdealloc pagetable a oldsz
        pure false
      else allocFrom pagetable oldsz xperm n (a + PGSIZE)

/-- 0 on failure. -/
def uvmalloc (pagetable oldsz newsz xperm : Nat) : Code P Nat := do
  if newsz < oldsz then pure oldsz
  else
    let first := PGROUNDUP oldsz
    if ← allocFrom pagetable first xperm ((newsz - first + PGSIZE - 1) / PGSIZE) first then
      pure newsz
    else pure 0

/-- The loop of `freewalk` over entries; `below` is the call for a lower table. -/
def freeEntries (below : Nat → Code P Unit) (pagetable : Nat) : List Idx → Code P Unit
  | [] => pure ()
  | i :: is => do
    let pte ← act (.load pagetable i)
    if pte &&& PTE_V ≠ 0 ∧ pte &&& (PTE_R ||| PTE_W ||| PTE_X) = 0 then
      below (PTE2PA pte)
      act (.store pagetable i 0)
    else if pte &&& PTE_V ≠ 0 then panic "freewalk: leaf"
    freeEntries below pagetable is

/-- The recursion follows the entries; `depth` is as many levels as there can be. -/
def freewalk : (depth pagetable : Nat) → Code P Unit
  | 0, _ => panic "freewalk: depth"
  | depth + 1, pagetable => do
    freeEntries (freewalk depth) pagetable indices
    act (.kfree pagetable)

def uvmfree (pagetable sz : Nat) : Code P Unit := do
  if sz > 0 then uvmunmap pagetable 0 (PGROUNDUP sz / PGSIZE) true
  freewalk 3 pagetable

/-- The loop of `uvmcopy` over `n` pages from `i` on. -/
def copyFrom (old new : Nat) : (n i : Nat) → Code P Int
  | 0, _ => pure 0
  | n + 1, i => do
    match ← walk old i false with
    | none => panic "uvmcopy: pte should exist"
    | some (page, j) =>
      let pte ← act (.load page j)
      if pte &&& PTE_V = 0 then panic "uvmcopy: page not present"
      else
        let mem ← act .kalloc
        if mem = 0 then
          uvmunmap new 0 (i / PGSIZE) true
          pure (-1)
        else
          act (.copy mem (PTE2PA pte))
          if (← mappages new i PGSIZE mem (PTE_FLAGS pte)) ≠ 0 then
            act (.kfree mem)
            uvmunmap new 0 (i / PGSIZE) true
            pure (-1)
          else copyFrom old new n (i + PGSIZE)

def uvmcopy (old new sz : Nat) : Code P Int := copyFrom old new ((sz + PGSIZE - 1) / PGSIZE) 0

def uvmclear (pagetable va : Nat) : Code P Unit := do
  match ← walk pagetable va false with
  | none => panic "uvmclear"
  | some (page, i) =>
    let pte ← act (.load page i)
    act (.store page i (pte &&& (WORD - 1 - PTE_U)))

/-! ## `proc.c` -/

/-- 0 if there is no memory. -/
def procPagetable (k : Image) (trapframe : Nat) : Code P Nat := do
  let pagetable ← uvmcreate
  if pagetable = 0 then pure 0
  else if (← mappages pagetable TRAMPOLINE PGSIZE k.trampoline (PTE_R ||| PTE_X)) < 0 then
    uvmfree pagetable 0
    pure 0
  else if (← mappages pagetable TRAPFRAME PGSIZE trapframe (PTE_R ||| PTE_W)) < 0 then
    uvmunmap pagetable TRAMPOLINE 1 false
    uvmfree pagetable 0
    pure 0
  else pure pagetable

def procFreepagetable (pagetable sz : Nat) : Code P Unit := do
  uvmunmap pagetable TRAMPOLINE 1 false
  uvmunmap pagetable TRAPFRAME 1 false
  uvmfree pagetable sz

/-- The lock of `p` is held. -/
def freeproc (p : P) : Code P Unit := do
  let x ← act (.proc (some p))
  if x.trapframe ≠ 0 then act (.kfree x.trapframe)
  act (.setProc (some p) { x with trapframe := 0 })
  if x.pagetable ≠ 0 then procFreepagetable x.pagetable x.sz
  act (.setProc (some p) .zero)
  act (.freed p)

/-- From `found` on; false if there is no memory. -/
def allocproc (k : Image) (p : P) : Code P Bool := do
  act (.found p)
  let x ← act (.proc (some p))
  let trapframe ← act .kalloc
  act (.setProc (some p) { x with trapframe := trapframe })
  if trapframe = 0 then
    freeproc p
    pure false
  else
    let pagetable ← procPagetable k trapframe
    act (.setProc (some p) { x with trapframe := trapframe, pagetable := pagetable })
    if pagetable = 0 then
      freeproc p
      pure false
    else pure true

/-- `uvmfirst` and `userinit`, which do not check whether there is memory; a boot without enough of
it is left out. -/
def userinit (k : Image) (init : P) : Code P Unit := do
  if ← allocproc k init then
    let x ← act (.proc (some init))
    let mem ← act .kalloc
    if mem = 0 then halt
    else
      act (.zero mem)
      if (← mappages x.pagetable 0 PGSIZE mem (PTE_W ||| PTE_R ||| PTE_X ||| PTE_U)) ≠ 0 then
        halt
      else
        act (.setProc (some init) { x with sz := PGSIZE })
        act (.start init)
  else halt

def growproc (n : Int) : Code P Int := do
  let x ← act (.proc none)
  let newsz := ((x.sz + n) % WORD).toNat
  if n > 0 then
    let sz ← uvmalloc x.pagetable x.sz newsz PTE_W
    if sz = 0 then pure (-1)
    else
      act (.setProc none { x with sz := sz })
      pure 0
  else if n < 0 then
    let sz ← uvmdealloc x.pagetable x.sz newsz
    act (.setProc none { x with sz := sz })
    pure 0
  else pure 0

def sysSbrk (n : Int) : Code P Int := do
  let addr := (← act (.proc none)).sz
  if (← growproc n) < 0 then pure (-1) else pure addr

/-- `slot` is the slot that `allocproc` comes upon. -/
def fork (k : Image) (slot : Option P) : Code P Int := do
  match slot with
  | none => pure (-1)
  | some np =>
    if ← allocproc k np then
      let x ← act (.proc none)
      let y ← act (.proc (some np))
      if (← uvmcopy x.pagetable y.pagetable x.sz) < 0 then
        freeproc np
        pure (-1)
      else
        act (.setProc (some np) { y with sz := x.sz })
        act (.start np)
        pure 0
    else pure (-1)

def exit : Code P Int := do
  act .zombie
  pure 0

/-- `q` is the zombie that `wait` comes upon; `copied`: its status can be copied out. -/
def wait (q : P) (copied : Bool) : Code P Int := do
  act (.reap q)
  if copied then
    freeproc q
    pure 0
  else
    act (.unreap q)
    pure (-1)

/-! ## `exec.c` -/

/-- `struct proghdr`; `reads i` tells whether the `readi` for page `i` of the
segment is complete. -/
structure Proghdr where
  load : Bool
  flags : Nat
  vaddr : BitVec 64
  filesz : BitVec 64
  memsz : BitVec 64
  reads : Nat → Bool

def flags2perm (flags : Nat) : Nat :=
  (if flags &&& 1 ≠ 0 then PTE_X else 0) ||| (if flags &&& 2 ≠ 0 then PTE_W else 0)

/-- The loop of `loadseg`: `n` pages from page `i` of the segment on. -/
def loadFrom (pagetable va : Nat) (reads : Nat → Bool) : (n i : Nat) → Code P Int
  | 0, _ => pure 0
  | n + 1, i => do
    if (← walkaddr pagetable (va + i * PGSIZE)) = 0 then panic "loadseg: address should exist"
    else if reads i then loadFrom pagetable va reads n (i + 1)
    else pure (-1)

/-- `filesz` is passed as a `uint`. -/
def loadseg (pagetable : Nat) (ph : Proghdr) : Code P Int :=
  loadFrom pagetable ph.vaddr.toNat ph.reads ((ph.filesz.toNat % 2 ^ 32 + PGSIZE - 1) / PGSIZE) 0

/-- The loop of `exec` over the program headers; `none` is one that cannot be read.  The size
reached, and whether all went well. -/
def loadAll (pagetable : Nat) : List (Option Proghdr) → (sz : Nat) → Code P (Bool × Nat)
  | [], sz => pure (true, sz)
  | none :: _, sz => pure (false, sz)
  | some ph :: phs, sz => do
    if !ph.load then loadAll pagetable phs sz
    else if ph.memsz < ph.filesz then pure (false, sz)
    else if ph.vaddr + ph.memsz < ph.vaddr then pure (false, sz)
    else if ph.vaddr.toNat % PGSIZE ≠ 0 then pure (false, sz)
    else
      let sz1 ← uvmalloc pagetable sz (ph.vaddr + ph.memsz).toNat (flags2perm ph.flags)
      if sz1 = 0 then pure (false, sz)
      else if (← loadseg pagetable ph) < 0 then pure (false, sz1)
      else loadAll pagetable phs sz1

/-- `image` is none if the file cannot be read or is not an ELF file; `fits`: the arguments fit on
the stack. -/
def exec (k : Image) (image : Option (List (Option Proghdr))) (fits : Bool) : Code P Int := do
  match image with
  | none => pure (-1)
  | some phs =>
    let x ← act (.proc none)
    let pagetable ← procPagetable k x.trapframe
    if pagetable = 0 then pure (-1)
    else
      let (ok, sz) ← loadAll pagetable phs 0
      if !ok then
        procFreepagetable pagetable sz
        pure (-1)
      else
        let sz := PGROUNDUP sz
        let sz1 ← uvmalloc pagetable sz ((sz + (USERSTACK + 1) * PGSIZE) % WORD) PTE_W
        if sz1 = 0 then
          procFreepagetable pagetable sz
          pure (-1)
        else
          uvmclear pagetable (sz1 - (USERSTACK + 1) * PGSIZE)
          if !fits then
            procFreepagetable pagetable sz1
            pure (-1)
          else
            act (.setProc none { x with pagetable := pagetable, sz := sz1 })
            procFreepagetable x.pagetable x.sz
            pure 0

/-! ## `sysfile.c` -/

/-- An argument of `sys_exec`: its address or the string itself may not be readable. -/
inductive Arg
  | noAddr | noString | string
deriving DecidableEq

/-- The loop of `sys_exec`: the pages allocated so far, and whether all went well. -/
def fetchArgs : List Arg → (argv : List Nat) → Code P (Bool × List Nat)
  | args, argv =>
    if argv.length ≥ MAXARG then pure (false, argv)
    else match args with
      | [] => pure (true, argv)
      | .noAddr :: _ => pure (false, argv)
      | arg :: args => do
        let mem ← act .kalloc
        if mem = 0 then pure (false, argv)
        else if arg = .noString then pure (false, argv ++ [mem])
        else fetchArgs args (argv ++ [mem])

def freeArgs (argv : List Nat) : Code P Unit := argv.forM fun mem => act (.kfree mem)

def sysExec (k : Image) (args : List Arg) (image : Option (List (Option Proghdr))) (fits : Bool) :
    Code P Int := do
  let (ok, argv) ← fetchArgs args []
  if ok then
    let ret ← exec k image fits
    freeArgs argv
    pure ret
  else
    freeArgs argv
    pure (-1)

inductive Call (P : Type)
  | userinit
  | sbrk (n : Int)
  | fork (slot : Option P)
  | exec (args : List Arg) (image : Option (List (Option Proghdr))) (fits : Bool)
  | exit
  | wait (q : P) (copied : Bool)

def Call.code (k : Image) (init : P) : Call P → Code P Int
  | .userinit => do
    act .boot
    Vm.userinit k init
    pure 0
  | .sbrk n => do
    act .enter
    sysSbrk n
  | .fork slot => do
    act .enter
    Vm.fork k slot
  | .exec args image fits => do
    act .enter
    sysExec k args image fits
  | .exit => do
    act .enter
    Vm.exit
  | .wait q copied => do
    act .enter
    Vm.wait q copied

end Code

end OsProjects.Kernel.Vm
