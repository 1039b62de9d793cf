import OsProjects.Kernel.FileIo
import OsProjects.Kernel.Itrunc
import Mathlib.Data.List.FinRange

/-!
# Itable — the table of in-memory inodes, and the calls of `fs.c` on it

An entry of `itable` is free when its reference count is zero.  The calls take entries as the
kernel takes pointers to them; a call is one step, as between `ilock` and `iunlock`.
-/

namespace OsProjects.Kernel

open Lib Function

/-- `struct inode`; `din` is the copy of the disk inode, of use only when `valid`. -/
structure Inode where
  inum : Nat
  ref : Nat
  valid : Bool
  din : Dinode

structure FsState where
  machine : Machine
  itable : Fin NINODE → Inode

namespace FsState

/-- The disk as the buffer cache shows it. -/
def disk (s : FsState) : Disk := s.machine.disk

def setInode (s : FsState) (p : Fin NINODE) (ip : Inode) : FsState :=
  { s with itable := update s.itable p ip }

/-- The entry that holds inode `inum`, if it is in use. -/
def findInode (s : FsState) (inum : Nat) : Option (Fin NINODE) :=
  (List.finRange NINODE).find? fun p => decide ((s.itable p).ref > 0 ∧ (s.itable p).inum = inum)

def findEmpty (s : FsState) : Option (Fin NINODE) :=
  (List.finRange NINODE).find? fun p => decide ((s.itable p).ref = 0)

def iget (s : FsState) (inum : Nat) : Except String (Fin NINODE × FsState) :=
  match s.findInode inum with
  | some p => .ok (p, s.setInode p { s.itable p with ref := (s.itable p).ref + 1 })
  | none =>
    match s.findEmpty with
    | some p => .ok (p, s.setInode p { s.itable p with inum := inum, ref := 1, valid := false })
    | none => .error "iget: no inodes"

def idup (s : FsState) (p : Fin NINODE) : FsState :=
  s.setInode p { s.itable p with ref := (s.itable p).ref + 1 }

def ilock (sb : Superblock) (s : FsState) (p : Fin NINODE) : Except String FsState :=
  if (s.itable p).ref < 1 then .error "ilock"
  else if (s.itable p).valid = false then
    if (getDinode sb s.disk (s.itable p).inum).type = 0 then .error "ilock: no type"
    else .ok (s.setInode p { s.itable p with
      valid := true, din := getDinode sb s.disk (s.itable p).inum })
  else .ok s

/-- The inode number that `ialloc` takes. -/
def findFreeInode (sb : Superblock) (s : FsState) : Option Nat :=
  (List.range sb.ninodes).find? fun i => decide (1 ≤ i ∧ (getDinode sb s.disk i).type = 0)

def ialloc (sb : Superblock) (s : FsState) (type : Int16) :
    Except String (Option (Fin NINODE) × FsState) :=
  match s.findFreeInode sb with
  | some i =>
    match iget { s with machine := iupdate sb s.machine i (freshDinode type) } i with
    | .error e => .error e
    | .ok (p, s) => .ok (some p, s)
  | none => .ok (none, { s with machine := s.machine.printf "ialloc: no inodes\n" })

def iput (sb : Superblock) (s : FsState) (p : Fin NINODE) : Except String FsState :=
  let ip := s.itable p
  if ip.ref = 1 ∧ ip.valid = true ∧ ip.din.nlink = 0 then
    match itrunc sb s.machine ip.inum ip.din with
    | .error e => .error e
    | .ok (din, m) =>
      let din := { din with type := 0 }
      .ok ({ s with machine := iupdate sb m ip.inum din }.setInode p
        { ip with ref := ip.ref - 1, valid := false, din := din })
  else .ok (s.setInode p { ip with ref := ip.ref - 1 })

end FsState

/-- The calls; `setNlink` stands for an assignment to `ip->nlink` with its `iupdate`. -/
inductive FsOp where
  | ialloc (type : Int16)
  | iget (inum : Nat)
  | idup (p : Fin NINODE)
  | ilock (p : Fin NINODE)
  | writei (p : Fin NINODE) (src : Source) (off n : UInt32)
  | itrunc (p : Fin NINODE)
  | setNlink (p : Fin NINODE) (nlink : Int16)
  | iput (p : Fin NINODE)

open FsState in
def fsStep (sb : Superblock) (s : FsState) : FsOp → Except String FsState
  | .ialloc type => (ialloc sb s type).map Prod.snd
  | .iget inum => (iget s inum).map Prod.snd
  | .idup p => .ok (idup s p)
  | .ilock p => ilock sb s p
  | .writei p src off n =>
    match writei sb s.machine (s.itable p).inum (s.itable p).din src off.toNat n.toNat with
    | .error e => .error e
    | .ok (_, din, m) => .ok ({ s with machine := m }.setInode p { s.itable p with din := din })
  | .itrunc p =>
    match itrunc sb s.machine (s.itable p).inum (s.itable p).din with
    | .error e => .error e
    | .ok (din, m) => .ok ({ s with machine := m }.setInode p { s.itable p with din := din })
  | .setNlink p nlink =>
    let din := { (s.itable p).din with nlink := nlink }
    .ok ({ s with machine := iupdate sb s.machine (s.itable p).inum din }.setInode p
      { s.itable p with din := din })
  | .iput p => iput sb s p

/-- An inode in use. -/
def Allocated (sb : Superblock) (d : Disk) (i : Nat) : Prop :=
  1 ≤ i ∧ i < sb.ninodes ∧ (getDinode sb d i).type ≠ 0

/-- What the callers promise: pointers are to entries in use, content is touched only after
`ilock`, `iget` is called with the number of an inode in use, `ialloc` with a type. -/
def Calls (sb : Superblock) (s : FsState) : FsOp → Prop
  | .ialloc type => type ≠ 0
  | .iget inum => Allocated sb s.disk inum
  | .idup p => 0 < (s.itable p).ref
  | .ilock p => 0 < (s.itable p).ref
  | .writei p _ _ _ => 0 < (s.itable p).ref ∧ (s.itable p).valid = true
  | .itrunc p => 0 < (s.itable p).ref ∧ (s.itable p).valid = true
  | .setNlink p _ => 0 < (s.itable p).ref ∧ (s.itable p).valid = true
  | .iput p => 0 < (s.itable p).ref

/-- `iget(inum)` finds an entry: the inode's own, or a free one. -/
def HasRoom (s : FsState) (inum : Nat) : Prop :=
  (∃ p, 0 < (s.itable p).ref ∧ (s.itable p).inum = inum) ∨ ∃ p, (s.itable p).ref = 0

/-! ## Entries -/

namespace FsState

variable {s s' : FsState} {p : Fin NINODE} {inum : Nat}

theorem setInode_self (s : FsState) (p : Fin NINODE) (ip : Inode) :
    (s.setInode p ip).itable p = ip :=
  update_self ..

theorem setInode_of_ne {q : Fin NINODE} (hq : q ≠ p) (s : FsState) (ip : Inode) :
    (s.setInode p ip).itable q = s.itable q := update_of_ne hq ..

theorem setInode_setInode (s : FsState) (p : Fin NINODE) (m : Machine) (ip ip' : Inode) :
    ({ s.setInode p ip with machine := m } : FsState).setInode p ip' =
      { s with machine := m }.setInode p ip' := by
  simp only [setInode, update_idem]

theorem findInode_some (h : s.findInode inum = some p) :
    0 < (s.itable p).ref ∧ (s.itable p).inum = inum := by
  simpa using List.find?_some h

theorem findInode_none (h : s.findInode inum = none) (p : Fin NINODE) (hp : 0 < (s.itable p).ref) :
    (s.itable p).inum ≠ inum := by
  intro heq
  have hnone := List.find?_eq_none.mp h p (List.mem_finRange p)
  exact hnone (decide_eq_true ⟨hp, heq⟩)

theorem findEmpty_some (h : s.findEmpty = some p) : (s.itable p).ref = 0 := by
  simpa using List.find?_some h

theorem findEmpty_of_room (h : ∃ p, (s.itable p).ref = 0) : ∃ p, s.findEmpty = some p := by
  obtain ⟨p, hp⟩ := h
  apply Option.ne_none_iff_exists'.mp
  intro hnone
  exact List.find?_eq_none.mp hnone p (List.mem_finRange p) (decide_eq_true hp)

-- `iget` either raises a count or takes over a free entry.
theorem iget_cases {inum : Nat} (hroom : HasRoom s inum) :
    (∃ p, iget s inum = .ok (p, s.setInode p { s.itable p with ref := (s.itable p).ref + 1 }) ∧
      0 < (s.itable p).ref ∧ (s.itable p).inum = inum) ∨
    ∃ p, iget s inum = .ok (p, s.setInode p
        { s.itable p with inum := inum, ref := 1, valid := false }) ∧
      ∀ q, 0 < (s.itable q).ref → q ≠ p ∧ (s.itable q).inum ≠ inum := by
  unfold iget
  cases hfind : s.findInode inum with
  | some p => exact .inl ⟨p, rfl, findInode_some hfind⟩
  | none =>
    obtain ⟨p, hempty⟩ := findEmpty_of_room (hroom.resolve_left fun ⟨q, hq, heq⟩ =>
      findInode_none hfind q hq heq)
    rw [hempty]
    refine .inr ⟨p, rfl, fun q hq => ⟨?_, findInode_none hfind q hq⟩⟩
    rintro rfl
    rw [findEmpty_some hempty] at hq
    omega

theorem findFreeInode_some {sb : Superblock} {i : Nat} (h : s.findFreeInode sb = some i) :
    1 ≤ i ∧ i < sb.ninodes ∧ (getDinode sb s.disk i).type = 0 := by
  have hprop : 1 ≤ i ∧ (getDinode sb s.disk i).type = 0 := by simpa using List.find?_some h
  exact ⟨hprop.1, List.mem_range.mp (List.mem_of_find?_eq_some h), hprop.2⟩

end FsState

end OsProjects.Kernel
