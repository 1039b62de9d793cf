import OsProjects.Kernel.Dirent
import OsProjects.Kernel.FileArray
import OsProjects.Kernel.Packing
import OsProjects.Lib.Prog
import Mathlib.Data.List.FinRange

/-!
# Vfs — the state of the file-system calls and its atomic actions

An inode is known by its number: the inode table has at most one entry in use for each, all on
`ROOTDEV`.  `ino i` is inode `i` as the holder of its lock sees it; a change to it and the `iupdate`
that follows are one action, since nobody else looks in between.  The file content is a byte string,
as `files_refine_arrays` allows, and of the blocks below an inode only the number is kept: `bmap`
asks for them in order, and a write ends with the first that it does not get.  Of `begin_op` and
`end_op` the model has the count of operations; that they may delay a call is left out.
-/

namespace OsProjects.Kernel.Vfs

open Lib Function

abbrev O_RDONLY : UInt32 := 0x000
abbrev O_WRONLY : UInt32 := 0x001
abbrev O_RDWR : UInt32 := 0x002
abbrev O_CREATE : UInt32 := 0x200
abbrev O_TRUNC : UInt32 := 0x400
abbrev O_NOFOLLOW : UInt32 := 0x800

abbrev CONSOLE : Int16 := 1
abbrev PGSIZE : Nat := 4096

/-- The `type` of an inode; `free` is 0. -/
inductive FileType
  | free | dir | file | device | symlink
deriving DecidableEq

structure Vinode where
  type : FileType
  major : Int16
  minor : Int16
  nlink : Int16
  data : List UInt8
deriving DecidableEq

/-- The inode that `ialloc` leaves on the disk. -/
def blank (type : FileType) : Vinode := ⟨type, 0, 0, 0, []⟩

/-- The entry of the inode table for an inode: free when `ref` is zero.  `lock` is the holder of the
sleep-lock. -/
structure Mem (P : Type) where
  ref : Nat
  valid : Bool
  lock : Option P

inductive FdType
  | none | inode | device
deriving DecidableEq

structure File where
  type : FdType
  ref : Nat
  readable : Bool
  writable : Bool
  ip : Nat
  off : Nat
  major : Int16

structure Proc where
  cwd : Nat
  ofile : Fin NOFILE → Option (Fin NFILE)

/-- The blocks of the disk: which of the coming requests for one are met (all, once the list is used
up; one that `balloc` answers with the boot block is not), how many blocks inode `i` has beyond
those of its content, and whether the bit of the boot block is clear. -/
structure Room where
  answers : List Bool := []
  spare : Nat → Nat := fun _ => 0
  bootFree : Bool := false

/-- The state that the processes `P` share.  `ninodes` is that of the superblock, `outstanding` that
of the log; `inUse` is the number of entries of the inode table with a reference.  The rest is
history: `born i` is the time of inode `i`'s allocation, and `stamp d k` that of the inode which
slot `k` of directory `d` was written for. -/
structure Sys (P : Type) where
  ninodes : Nat
  ino : Nat → Vinode
  mem : Nat → Mem P
  inUse : Nat
  file : Fin NFILE → File
  proc : P → Proc
  room : Room
  console : List String
  outstanding : Int
  born : Nat → Nat
  stamp : Nat → Nat → Nat
  clock : Nat

/-! ## Blocks -/

/-- The blocks of inode `i` when its content has `size` bytes. -/
def Room.blocks (room : Room) (i size : Nat) : Nat := blocksFor (blocksOf size) + room.spare i

/-- A new inode has no block. -/
def Room.clear (room : Room) (i : Nat) : Room := { room with spare := update room.spare i 0 }

/-- `itrunc` frees a zero entry of the double-indirect block like any other, as block 0; when the
bit of that is clear already, it panics. -/
def Room.truncate (room : Room) (i size : Nat) : Option Room :=
  if 2 ≤ absentEntries (room.blocks i size) + room.bootFree.toNat then none
  else some { room.clear i with
    bootFree := room.bootFree || absentEntries (room.blocks i size) == 1 }

theorem Room.truncate_answers {room room' : Room} {i size : Nat}
    (h : room.truncate i size = some room') : room'.answers = room.answers := by
  unfold truncate at h
  split at h
  · cases h
  · cases h
    rfl

theorem Room.truncate_empty {room : Room} {i : Nat} (h : room.spare i = 0) :
    room.truncate i 0 = some room := by
  have hnone : absentEntries (room.blocks i 0) = 0 := by
    rw [blocks, h]
    rfl
  have hone := room.bootFree.toNat_le
  have hspare : update room.spare i 0 = room.spare := by rw [← h, update_eq_self]
  rw [truncate, hnone, if_neg (by omega), clear, hspare]
  exact congrArg (fun b => some { room with bootFree := b }) (Bool.or_false _)

/-! ## Writing to a byte string -/

/-- How many of `k` requests for a block are met before one is refused. -/
def takeRoom : List Bool → Nat → Nat × List Bool
  | room, 0 => (0, room)
  | [], k => (k, [])
  | true :: room, k + 1 => ((takeRoom room k).1 + 1, (takeRoom room k).2)
  | false :: room, _ + 1 => (0, room)

/-- `writei` on the content of inode `i`: the return value, the content and the blocks afterwards.
The bytes that fit into the blocks granted are written. -/
def writeData (room : Room) (i : Nat) (data : List UInt8) (off : Nat) (bytes : List UInt8) :
    Int × List UInt8 × Room :=
  if Refused data.length off bytes.length then (-1, data, room)
  else
    let asked := blocksFor (blocksOf (off + bytes.length)) - room.blocks i data.length
    let granted := takeRoom room.answers asked
    let blocks := room.blocks i data.length + granted.1
    let tot := min bytes.length (dataBlocks blocks * BSIZE - off)
    let content := FlatArray.write data off (bytes.take tot)
    (tot, content, ⟨granted.2, update room.spare i (blocks - blocksFor (blocksOf content.length)),
      room.bootFree && asked == 0⟩)

theorem takeRoom_fst_le (room : List Bool) (k : Nat) : (takeRoom room k).1 ≤ k := by
  induction room generalizing k with
  | nil =>
    cases k with
    | zero | succ k => exact le_rfl
  | cons b room ih =>
    cases k with
    | zero => exact le_rfl
    | succ k =>
      cases b with
      | false => exact Nat.zero_le _
      | true => exact Nat.succ_le_succ (ih k)

-- The requests are met exactly when each of them is.
theorem takeRoom_eq_iff (room : List Bool) (k : Nat) :
    (takeRoom room k).1 = k ↔ ∀ b ∈ room.take k, b = true := by
  induction room generalizing k with
  | nil => cases k <;> simp [takeRoom]
  | cons b room ih =>
    cases k with
    | zero => simp [takeRoom]
    | succ k =>
      cases b with
      | false => simp [takeRoom]
      | true => simpa [takeRoom] using ih k

theorem takeRoom_snd (room : List Bool) (k : Nat) : ∃ n ≤ k, (takeRoom room k).2 = room.drop n ∧
    ((takeRoom room k).1 = k → n = k) := by
  induction room generalizing k with
  | nil => exact ⟨k, le_rfl, by cases k <;> simp [takeRoom], fun _ => rfl⟩
  | cons b room ih =>
    cases k with
    | zero => exact ⟨0, le_rfl, rfl, fun _ => rfl⟩
    | succ k =>
      cases b with
      | false => exact ⟨1, by omega, rfl, fun h => by cases h⟩
      | true =>
        obtain ⟨n, hn, hdrop, hall⟩ := ih k
        exact ⟨n + 1, by omega, hdrop, fun h => by rw [hall (Nat.succ.inj h)]⟩

-- A write that gets its blocks is a write to the byte string.
theorem writeData_granted {room : Room} {i : Nat} {data bytes : List UInt8} {off : Nat}
    (h : ¬ Refused data.length off bytes.length)
    (hroom : ∀ b ∈ room.answers.take
      (blocksFor (blocksOf (off + bytes.length)) - room.blocks i data.length), b = true) :
    (writeData room i data off bytes).1 = bytes.length ∧
      (writeData room i data off bytes).2.1 = FlatArray.write data off bytes := by
  have hgranted := (takeRoom_eq_iff _ _).mpr hroom
  have hfits : off + bytes.length ≤ dataBlocks (room.blocks i data.length +
      (blocksFor (blocksOf (off + bytes.length)) - room.blocks i data.length)) * BSIZE :=
    le_trans (le_blocksOf _) (Nat.mul_le_mul_right _ (le_dataBlocks_iff.mpr (by omega)))
  rw [writeData, if_neg h]
  simp only [hgranted]
  rw [min_eq_left (by omega), List.take_length]
  exact ⟨rfl, rfl⟩

-- The blocks of another inode do not matter.
theorem writeData_clear {room : Room} {d i : Nat} (hne : d ≠ i) (data : List UInt8) (off : Nat)
    (bytes : List UInt8) : writeData (room.clear i) d data off bytes =
      ((writeData room d data off bytes).1, (writeData room d data off bytes).2.1,
        (writeData room d data off bytes).2.2.clear i) := by
  have hblocks : (room.clear i).blocks d data.length = room.blocks d data.length := by
    simp only [Room.blocks, Room.clear, update_of_ne hne]
  unfold writeData
  rw [hblocks]
  split
  · rfl
  · simp only [Room.clear, update_comm hne]

/-! ## The actions -/

inductive Act
  | panic (msg : String)
  /-- Use of memory that was never written, a stack overrun. -/
  | undefined
  | printf (msg : String)
  | beginOp
  | endOp
  /-- `sb.ninodes` -/
  | ninodes
  | cwd
  /-- `p->cwd = ip` -/
  | setCwd (i : Nat)
  | iget (i : Nat)
  | idup (i : Nat)
  | ilock (i : Nat)
  | iunlock (i : Nat)
  /-- The fields of the inode, and its content through `readi`. -/
  | inode (i : Nat)
  /-- `ip->major = major; ip->minor = minor; ip->nlink = 1; iupdate(ip)` -/
  | initInode (i : Nat) (major minor : Int16)
  /-- `ip->nlink += k; iupdate(ip)` -/
  | addNlink (i : Nat) (k : Int16)
  /-- `ip->nlink = 0; iupdate(ip)` -/
  | clearNlink (i : Nat)
  | writei (i off : Nat) (bytes : List UInt8)
  /-- `writei` of a `struct dirent` -/
  | writeDirent (d off : Nat) (de : Dirent)
  | itrunc (i : Nat)
  /-- One round of the loop of `ialloc`: whether the inode was free and is now marked. -/
  | tryAlloc (i : Nat) (type : FileType)
  /-- The first critical section of `iput`: whether the inode is to be freed, and locked for it;
  otherwise the reference is dropped. -/
  | iputLast (i : Nat)
  /-- `iput` between its critical sections: truncate, free, unlock. -/
  | ifree (i : Nat)
  /-- The last critical section of `iput` when it has freed the inode. -/
  | idrop (i : Nat)
  | filealloc
  | fdalloc (f : Fin NFILE)
  /-- `sys_open` fills in the file: a device with its `major`, or an inode. -/
  | fileInit (f : Fin NFILE) (major : Option Int16) (ip : Nat) (readable writable : Bool)
  /-- The critical section of `fileclose`: what the file was when this was its last reference. -/
  | dropFile (f : Fin NFILE)
  | argfd (fd : Int)
  /-- `argfd`, then `myproc()->ofile[fd] = 0` -/
  | takeFd (fd : Int)
  | getFile (f : Fin NFILE)
  | setOff (f : Fin NFILE) (off : Nat)
  /-- `devsw[major].write` -/
  | devWrite (major : Int16) (bytes : List UInt8)

abbrev Act.Reply : Act → Type
  | .panic _ | .undefined => Empty
  | .ninodes | .cwd => Nat
  | .inode _ => Vinode
  | .writei _ _ _ | .writeDirent _ _ _ | .devWrite _ _ => Int
  | .tryAlloc _ _ | .iputLast _ => Bool
  | .filealloc | .argfd _ | .takeFd _ => Option (Fin NFILE)
  | .fdalloc _ => Option (Fin NOFILE)
  | .dropFile _ => Option (FdType × Nat)
  | .getFile _ => File
  | _ => Unit

/-- Why an action is not performed: the lock is held, or the kernel stops. -/
inductive Stop
  | wait
  | panic (msg : String)
  | undefined
deriving DecidableEq

namespace Sys

variable {P : Type}

def setIno (s : Sys P) (i : Nat) (v : Vinode) : Sys P := { s with ino := update s.ino i v }

def setMem (s : Sys P) (i : Nat) (m : Mem P) : Sys P := { s with mem := update s.mem i m }

def setProc [DecidableEq P] (s : Sys P) (p : P) (q : Proc) : Sys P :=
  { s with proc := update s.proc p q }

def setFile (s : Sys P) (f : Fin NFILE) (g : File) : Sys P :=
  { s with file := update s.file f g }

/-- `ip->ref--` -/
def dropRef (s : Sys P) (i : Nat) : Sys P :=
  { s.setMem i { s.mem i with ref := (s.mem i).ref - 1 } with
    inUse := if (s.mem i).ref = 1 then s.inUse - 1 else s.inUse }

/-- The file behind a descriptor. -/
def fd (s : Sys P) (p : P) (n : Int) : Option (Fin NFILE) :=
  if h : 0 ≤ n ∧ n.toNat < NOFILE then (s.proc p).ofile ⟨n.toNat, h.2⟩ else none

def findFile (s : Sys P) : Option (Fin NFILE) :=
  (List.finRange NFILE).find? fun f => (s.file f).ref == 0

def findFd (s : Sys P) (p : P) : Option (Fin NOFILE) :=
  (List.finRange NOFILE).find? fun n => (s.proc p).ofile n == none

/-- What `ilock` comes upon when it reads inode `i`: a number behind the last inode block, or an
inode that is not allocated. -/
def unreadable (s : Sys P) (i : Nat) : Option Stop :=
  if s.ninodes ≤ i then some .undefined
  else if (s.ino i).type = .free then some (.panic "ilock: no type")
  else none

theorem unreadable_eq_none {s : Sys P} {i : Nat} :
    s.unreadable i = none ↔ i < s.ninodes ∧ (s.ino i).type ≠ .free := by
  unfold unreadable
  by_cases hi : s.ninodes ≤ i
  · simp [hi]
  · by_cases hfree : (s.ino i).type = .free
    · simp [hi, hfree]
    · simp [hi, hfree, not_le.mp hi]

@[simp] theorem setIno_ino (s : Sys P) (i : Nat) (v : Vinode) (j : Nat) :
    (s.setIno i v).ino j = if j = i then v else s.ino j := update_apply _ _ _ _

@[simp] theorem setMem_mem (s : Sys P) (i : Nat) (x : Mem P) (j : Nat) :
    (s.setMem i x).mem j = if j = i then x else s.mem j := update_apply _ _ _ _

@[simp] theorem setProc_proc [DecidableEq P] (s : Sys P) (p : P) (x : Proc) (q : P) :
    (s.setProc p x).proc q = if q = p then x else s.proc q := update_apply _ _ _ _

@[simp] theorem setFile_file (s : Sys P) (f : Fin NFILE) (x : File) (g : Fin NFILE) :
    (s.setFile f x).file g = if g = f then x else s.file g := update_apply _ _ _ _

@[simp] theorem setMem_ino (s : Sys P) (i : Nat) (x : Mem P) : (s.setMem i x).ino = s.ino := rfl

@[simp] theorem setIno_mem (s : Sys P) (i : Nat) (v : Vinode) : (s.setIno i v).mem = s.mem := rfl

@[simp] theorem dropRef_mem (s : Sys P) (i j : Nat) : (s.dropRef i).mem j =
    if j = i then { s.mem i with ref := (s.mem i).ref - 1 } else s.mem j :=
  update_apply _ _ _ _

@[simp] theorem dropRef_ino (s : Sys P) (i : Nat) : (s.dropRef i).ino = s.ino := rfl

end Sys

variable {P : Type} [DecidableEq P]

/-- The action `a` of process `p`. -/
def exec (p : P) : (a : Act) → Sys P → Except Stop (a.Reply × Sys P)
  | .panic msg, _ => .error (.panic msg)
  | .undefined, _ => .error .undefined
  | .printf msg, s => .ok ((), { s with console := msg :: s.console })
  | .beginOp, s => .ok ((), { s with outstanding := s.outstanding + 1 })
  | .endOp, s => .ok ((), { s with outstanding := s.outstanding - 1 })
  | .ninodes, s => .ok (s.ninodes, s)
  | .cwd, s => .ok ((s.proc p).cwd, s)
  | .setCwd i, s => .ok ((), s.setProc p { s.proc p with cwd := i })
  | .iget i, s =>
    if 0 < (s.mem i).ref then .ok ((), s.setMem i { s.mem i with ref := (s.mem i).ref + 1 })
    else if s.inUse < NINODE then
      .ok ((), { s.setMem i { s.mem i with ref := 1, valid := false } with inUse := s.inUse + 1 })
    else .error (.panic "iget: no inodes")
  | .idup i, s => .ok ((), s.setMem i { s.mem i with ref := (s.mem i).ref + 1 })
  | .ilock i, s =>
    if (s.mem i).ref < 1 then .error (.panic "ilock")
    else if (s.mem i).lock ≠ none then .error .wait
    else if (s.mem i).valid then .ok ((), s.setMem i { s.mem i with lock := some p })
    else
      match s.unreadable i with
      | some stop => .error stop
      | none => .ok ((), s.setMem i { s.mem i with lock := some p, valid := true })
  | .iunlock i, s =>
    if (s.mem i).lock ≠ some p ∨ (s.mem i).ref < 1 then .error (.panic "iunlock")
    else .ok ((), s.setMem i { s.mem i with lock := none })
  | .inode i, s => .ok (s.ino i, s)
  | .initInode i major minor, s =>
    .ok ((), s.setIno i { s.ino i with major := major, minor := minor, nlink := 1 })
  | .addNlink i k, s => .ok ((), s.setIno i { s.ino i with nlink := (s.ino i).nlink + k })
  | .clearNlink i, s => .ok ((), s.setIno i { s.ino i with nlink := 0 })
  | .writei i off bytes, s =>
    .ok ((writeData s.room i (s.ino i).data off bytes).1,
      { s.setIno i { s.ino i with data := (writeData s.room i (s.ino i).data off bytes).2.1 } with
        room := (writeData s.room i (s.ino i).data off bytes).2.2 })
  | .writeDirent d off de, s =>
    .ok ((writeData s.room d (s.ino d).data off de.encode).1,
      { s.setIno d { s.ino d with
          data := (writeData s.room d (s.ino d).data off de.encode).2.1 } with
        room := (writeData s.room d (s.ino d).data off de.encode).2.2
        stamp := if (writeData s.room d (s.ino d).data off de.encode).1 = SIZEOF_DIRENT then
            update s.stamp d
              (update (s.stamp d) (off / SIZEOF_DIRENT) (s.born de.inum))
          else s.stamp })
  | .itrunc i, s =>
    match s.room.truncate i (s.ino i).data.length with
    | none => .error (.panic "freeing free block")
    | some room => .ok ((), { s.setIno i { s.ino i with data := [] } with room := room })
  | .tryAlloc i type, s =>
    if (s.ino i).type = .free then
      .ok (true, { s.setIno i (blank type) with
        room := s.room.clear i, born := update s.born i s.clock, clock := s.clock + 1 })
    else .ok (false, s)
  | .iputLast i, s =>
    if (s.mem i).ref = 1 ∧ (s.mem i).valid = true ∧ (s.ino i).nlink = 0 then
      if (s.mem i).lock ≠ none then .error .wait
      else .ok (true, s.setMem i { s.mem i with lock := some p })
    else .ok (false, s.dropRef i)
  | .ifree i, s =>
    match s.room.truncate i (s.ino i).data.length with
    | none => .error (.panic "freeing free block")
    | some room =>
      .ok ((), { (s.setIno i { s.ino i with type := .free, data := [] }).setMem i
        { s.mem i with valid := false, lock := none } with room := room })
  | .idrop i, s => .ok ((), s.dropRef i)
  | .filealloc, s =>
    match s.findFile with
    | some f => .ok (some f, s.setFile f { s.file f with ref := 1 })
    | none => .ok (none, s)
  | .fdalloc f, s =>
    match s.findFd p with
    | some n => .ok (some n, s.setProc p
        { s.proc p with ofile := update (s.proc p).ofile n (some f) })
    | none => .ok (none, s)
  | .fileInit f major ip readable writable, s =>
    .ok ((), s.setFile f (match major with
      | some major => { s.file f with
          type := .device, major := major, ip := ip, readable := readable, writable := writable }
      | none => { s.file f with
          type := .inode, off := 0, ip := ip, readable := readable, writable := writable }))
  | .dropFile f, s =>
    if (s.file f).ref < 1 then .error (.panic "fileclose")
    else if (s.file f).ref > 1 then
      .ok (none, s.setFile f { s.file f with ref := (s.file f).ref - 1 })
    else .ok (some ((s.file f).type, (s.file f).ip),
      s.setFile f { s.file f with ref := 0, type := .none })
  | .argfd n, s => .ok (s.fd p n, s)
  | .takeFd n, s =>
    .ok (s.fd p n, if h : 0 ≤ n ∧ n.toNat < NOFILE then
      s.setProc p { s.proc p with ofile := update (s.proc p).ofile ⟨n.toNat, h.2⟩ none }
      else s)
  | .getFile f, s => .ok (s.file f, s)
  | .setOff f off, s => .ok ((), s.setFile f { s.file f with off := off })
  | .devWrite major bytes, s =>
    -- `consoleinit` is the only driver to enter itself in `devsw`
    if major = CONSOLE then
      .ok (bytes.length, { s with
        console := String.ofList (bytes.map fun b => Char.ofNat b.toNat) :: s.console })
    else .ok (-1, s)

/-! ## What an action that is performed has met and done -/

section Cases

variable {p : P} {s s' : Sys P} {i : Nat} {r : Unit} {f : Fin NFILE}

theorem exec_iget (h : exec p (.iget i) s = .ok (r, s')) :
    (0 < (s.mem i).ref ∧ s' = s.setMem i { s.mem i with ref := (s.mem i).ref + 1 }) ∨
    ((s.mem i).ref = 0 ∧ s' = { s.setMem i { s.mem i with ref := 1, valid := false } with
      inUse := s.inUse + 1 }) := by
  simp only [exec] at h
  split at h
  next href =>
    rw [Except.ok.injEq, Prod.mk.injEq] at h
    exact .inl ⟨href, h.2.symm⟩
  · split at h
    · rw [Except.ok.injEq, Prod.mk.injEq] at h
      exact .inr ⟨by omega, h.2.symm⟩
    · cases h

theorem exec_ilock (h : exec p (.ilock i) s = .ok (r, s')) :
    0 < (s.mem i).ref ∧ (s.mem i).lock = none ∧
      ((s.mem i).valid = true ∨ s.unreadable i = none) ∧
      s' = s.setMem i { s.mem i with lock := some p, valid := true } := by
  simp only [exec] at h
  split at h
  · cases h
  split at h
  · cases h
  rename_i hlock
  refine ⟨by omega, not_not.mp hlock, ?_⟩
  split at h
  next hvalid =>
    rw [Except.ok.injEq, Prod.mk.injEq] at h
    refine ⟨.inl hvalid, ?_⟩
    rw [← h.2, ← hvalid]
  cases hread : s.unreadable i with
  | some stop =>
    rw [hread] at h
    cases h
  | none =>
    rw [hread, Except.ok.injEq, Prod.mk.injEq] at h
    exact ⟨.inr rfl, h.2.symm⟩

theorem exec_iunlock (h : exec p (.iunlock i) s = .ok (r, s')) :
    (s.mem i).lock = some p ∧ s' = s.setMem i { s.mem i with lock := none } := by
  simp only [exec] at h
  split at h
  · cases h
  next hbad =>
    rw [Except.ok.injEq, Prod.mk.injEq] at h
    rw [not_or, not_not] at hbad
    exact ⟨hbad.1, h.2.symm⟩

theorem exec_iputLast {r : Bool} (h : exec p (.iputLast i) s = .ok (r, s')) :
    (r = true ∧ (s.mem i).ref = 1 ∧ (s.mem i).valid = true ∧ (s.ino i).nlink = 0 ∧
      (s.mem i).lock = none ∧ s' = s.setMem i { s.mem i with lock := some p }) ∨
    (r = false ∧ ¬ ((s.mem i).ref = 1 ∧ (s.mem i).valid = true ∧ (s.ino i).nlink = 0) ∧
      s' = s.dropRef i) := by
  simp only [exec] at h
  split at h
  next hlast =>
    split at h
    · cases h
    next hlock =>
      rw [Except.ok.injEq, Prod.mk.injEq] at h
      exact .inl ⟨h.1.symm, hlast.1, hlast.2.1, hlast.2.2, not_not.mp hlock, h.2.symm⟩
  next hlast =>
    rw [Except.ok.injEq, Prod.mk.injEq] at h
    exact .inr ⟨h.1.symm, hlast, h.2.symm⟩

theorem exec_tryAlloc {type : FileType} {r : Bool} (h : exec p (.tryAlloc i type) s = .ok (r, s')) :
    (r = true ∧ (s.ino i).type = .free ∧ s' = { s.setIno i (blank type) with
      room := s.room.clear i, born := update s.born i s.clock, clock := s.clock + 1 }) ∨
    (r = false ∧ (s.ino i).type ≠ .free ∧ s' = s) := by
  simp only [exec] at h
  split at h
  next htype =>
    rw [Except.ok.injEq, Prod.mk.injEq] at h
    exact .inl ⟨h.1.symm, htype, h.2.symm⟩
  next htype =>
    rw [Except.ok.injEq, Prod.mk.injEq] at h
    exact .inr ⟨h.1.symm, htype, h.2.symm⟩

theorem exec_itrunc (h : exec p (.itrunc i) s = .ok (r, s')) :
    ∃ room, s.room.truncate i (s.ino i).data.length = some room ∧
      s' = { s.setIno i { s.ino i with data := [] } with room := room } := by
  simp only [exec] at h
  cases htrunc : s.room.truncate i (s.ino i).data.length with
  | none =>
    rw [htrunc] at h
    cases h
  | some room =>
    rw [htrunc, Except.ok.injEq, Prod.mk.injEq] at h
    exact ⟨room, rfl, h.2.symm⟩

theorem exec_ifree (h : exec p (.ifree i) s = .ok (r, s')) :
    ∃ room, s.room.truncate i (s.ino i).data.length = some room ∧
      s' = { (s.setIno i { s.ino i with type := .free, data := [] }).setMem i
        { s.mem i with valid := false, lock := none } with room := room } := by
  simp only [exec] at h
  cases htrunc : s.room.truncate i (s.ino i).data.length with
  | none =>
    rw [htrunc] at h
    cases h
  | some room =>
    rw [htrunc, Except.ok.injEq, Prod.mk.injEq] at h
    exact ⟨room, rfl, h.2.symm⟩

theorem exec_filealloc {r : Option (Fin NFILE)} (h : exec p .filealloc s = .ok (r, s')) :
    (∃ f, r = some f ∧ (s.file f).ref = 0 ∧ s' = s.setFile f { s.file f with ref := 1 }) ∨
    (r = none ∧ s' = s) := by
  simp only [exec] at h
  cases hfind : s.findFile with
  | none =>
    rw [hfind, Except.ok.injEq, Prod.mk.injEq] at h
    exact .inr ⟨h.1.symm, h.2.symm⟩
  | some f =>
    rw [hfind, Except.ok.injEq, Prod.mk.injEq] at h
    exact .inl ⟨f, h.1.symm, by simpa using List.find?_some hfind, h.2.symm⟩

theorem exec_fdalloc {r : Option (Fin NOFILE)} (h : exec p (.fdalloc f) s = .ok (r, s')) :
    (∃ n, r = some n ∧ (s.proc p).ofile n = none ∧ s' = s.setProc p
      { s.proc p with ofile := update (s.proc p).ofile n (some f) }) ∨
    (r = none ∧ s' = s) := by
  simp only [exec] at h
  cases hfind : s.findFd p with
  | none =>
    rw [hfind, Except.ok.injEq, Prod.mk.injEq] at h
    exact .inr ⟨h.1.symm, h.2.symm⟩
  | some n =>
    rw [hfind, Except.ok.injEq, Prod.mk.injEq] at h
    exact .inl ⟨n, h.1.symm, by simpa using List.find?_some hfind, h.2.symm⟩

theorem exec_dropFile {r : Option (FdType × Nat)} (h : exec p (.dropFile f) s = .ok (r, s')) :
    (r = none ∧ 1 < (s.file f).ref ∧
      s' = s.setFile f { s.file f with ref := (s.file f).ref - 1 }) ∨
    (r = some ((s.file f).type, (s.file f).ip) ∧ (s.file f).ref = 1 ∧
      s' = s.setFile f { s.file f with ref := 0, type := .none }) := by
  simp only [exec] at h
  split at h
  · cases h
  split at h
  next hmore =>
    rw [Except.ok.injEq, Prod.mk.injEq] at h
    exact .inl ⟨h.1.symm, hmore, h.2.symm⟩
  · rw [Except.ok.injEq, Prod.mk.injEq] at h
    exact .inr ⟨h.1.symm, by omega, h.2.symm⟩

end Cases

end OsProjects.Kernel.Vfs
