import OsProjects.Kernel.Paths

/-!
# CreateLink — `create` for a symbolic link, run alone

A name that is there is returned whatever inode it names.  A new one takes the first free inode and
an entry of the parent directory; when the entry cannot be written, the inode is given back.
-/

namespace OsProjects.Kernel.Vfs

open Lib Function Multiset
open Prog (after_bind after_call after_iff after_pure)

variable {P : Type}

/-- No call is under way, and every inode that is referenced exists. -/
structure AtRest (s : Sys P) (p : P) : Prop extends Quiet s p where
  alive : ∀ i, 0 < (s.mem i).ref → s.unreadable i = none

variable {s s' t t' : Sys P} {p : P} {m : Multiset Nat} {k : Option Nat} {i dp ip off : Nat}
  {path name : List UInt8}

/-! ## Changes to inodes -/

-- Inodes that exist keep their kind and their links, and a new one has links.
theorem AtRest.change (h : AtRest s p) (hmem : s'.mem = s.mem) (hnum : s'.ninodes = s.ninodes)
    (hproc : s'.proc = s.proc) (hfile : s'.file = s.file) (hold : ∀ i, (s.ino i).type ≠ .free →
      (s'.ino i).type = (s.ino i).type ∧ (s'.ino i).nlink = (s.ino i).nlink)
    (hnew : ∀ i, (s.ino i).type = .free → (s'.ino i).type = .free ∨ (s'.ino i).nlink ≠ 0) :
    AtRest s' p := by
  have hread : ∀ i, s.unreadable i = none → s'.unreadable i = none := by
    intro i hi
    rw [Sys.unreadable_eq_none] at hi ⊢
    rwa [hnum, (hold i hi.2).1]
  refine ⟨⟨?_, ?_, ?_, ?_, ?_⟩, ?_⟩
  · rw [hmem]
    exact h.unlocked
  · intro i href hvalid
    rw [hmem] at href hvalid
    exact hread i (h.valid i href hvalid)
  · intro i htype hnlink
    rw [hmem]
    by_cases hfree : (s.ino i).type = .free
    · rcases hnew i hfree with hfree' | hlinked
      · exact absurd hfree' htype
      · exact absurd hnlink hlinked
    · exact h.linked i hfree ((hold i hfree).2 ▸ hnlink)
  · rw [hmem, hproc]
    exact h.cwd
  · rw [hfile]
    exact h.files
  · intro i href
    rw [hmem] at href
    exact hread i (h.alive i href)

theorem AtRest.free_unused (h : AtRest s p) (hfree : (s.ino i).type = .free) :
    (s.mem i).ref = 0 := by
  by_contra hne
  exact (Sys.unreadable_eq_none.mp (h.alive i (Nat.pos_of_ne_zero hne))).2 hfree

-- What is held stays held while the content of the disk changes.
theorem Held.change (h : Held s p m k t) (halike : Alike s' t') (hs : s'.mem = s.mem)
    (huse : s'.inUse = s.inUse) (ht : t'.mem = t.mem) (huse' : t'.inUse = t.inUse)
    (hread : ∀ i, s.unreadable i = none → s'.unreadable i = none) : Held s' p m k t' := by
  have hextra : s'.extra m = s.extra m := by simp only [Sys.extra, hs]
  refine ⟨halike, ?_, ?_, ?_, ?_⟩
  · rw [hs, ht]
    exact h.ref
  · rw [ht]
    exact h.lock
  · rw [huse', huse, hextra]
    exact h.inUse
  · rw [ht]
    exact fun i href hvalid => hread i (h.valid i href hvalid)

-- With nothing held, the state is at rest again.
theorem AtRest.of_held (hr : AtRest s p) (h : Held s p 0 none t) : AtRest t p := by
  have href : ∀ i, (t.mem i).ref = (s.mem i).ref := fun i => (h.ref i).trans (by simp)
  refine ⟨⟨h.lock, ?_, ?_, ?_, ?_⟩, ?_⟩
  · intro i hpos hvalid
    rw [h.alike.unreadable]
    exact h.valid i hpos hvalid
  · intro i htype hnlink
    rw [h.alike.ino] at htype hnlink
    rw [href]
    exact hr.linked i htype hnlink
  · rw [h.alike.proc, href]
    exact hr.cwd
  · rw [h.alike.file]
    exact hr.files
  · intro i hpos
    rw [h.alike.unreadable]
    exact hr.alive i (href i ▸ hpos)

/-- Inode `ip` as `create` initialises it for a symbolic link. -/
def Sys.newLink (s : Sys P) (ip : Nat) : Sys P :=
  { s.setIno ip { blank .symlink with nlink := 1 } with
    room := s.room.clear ip, born := update s.born ip s.clock, clock := s.clock + 1 }

/-- What `writei` returns for the entry `de` in directory `dp`. -/
def Sys.entryWritten (s : Sys P) (dp off : Nat) (de : Dirent) : Int :=
  (writeData s.room dp (s.ino dp).data off de.encode).1

/-- The state after that `writei`. -/
def Sys.putEntry (s : Sys P) (dp off : Nat) (de : Dirent) : Sys P :=
  { s.setIno dp { s.ino dp with
      data := (writeData s.room dp (s.ino dp).data off de.encode).2.1 } with
    room := (writeData s.room dp (s.ino dp).data off de.encode).2.2
    stamp := if s.entryWritten dp off de = SIZEOF_DIRENT then
        update s.stamp dp (update (s.stamp dp) (off / SIZEOF_DIRENT)
          (s.born de.inum))
      else s.stamp }

/-- The entry of `dp` for a new inode. -/
def linkEntry (name : List UInt8) (ip : Nat) : Dirent := direntFor name (ip % 2 ^ 16)

theorem linkEntry_fits (name : List UInt8) (ip : Nat) : (linkEntry name ip).Fits :=
  direntFor_fits (Nat.mod_lt ip (by decide))

/-- A new link at `ip` with its entry in `dp`. -/
def Sys.made (s : Sys P) (dp ip off : Nat) (name : List UInt8) : Sys P :=
  (s.newLink ip).putEntry dp off (linkEntry name ip)

/-- The same after the entry failed and the inode was given back. -/
def Sys.undone (s : Sys P) (dp ip off : Nat) (name : List UInt8) : Sys P :=
  (s.made dp ip off name).setIno ip (blank .free)

theorem Sys.made_ino (s : Sys P) (hne : dp ≠ ip) (j : Nat) : (s.made dp ip off name).ino j =
    if j = dp then { s.ino dp with
      data := (writeData s.room dp (s.ino dp).data off (linkEntry name ip).encode).2.1 }
    else if j = ip then { blank .symlink with nlink := 1 } else s.ino j := by
  simp only [made, putEntry, newLink, setIno_ino, if_neg hne, writeData_clear hne]

-- The new inode has no block.
theorem Sys.made_spare (hne : dp ≠ ip) : (s.made dp ip off name).room.spare ip = 0 := by
  simp only [made, putEntry, newLink, setIno_ino, if_neg hne, writeData_clear hne]
  exact update_self _ _ _

theorem Sys.undone_ino (s : Sys P) (hne : dp ≠ ip) (j : Nat) : (s.undone dp ip off name).ino j =
    if j = dp then { s.ino dp with
      data := (writeData s.room dp (s.ino dp).data off (linkEntry name ip).encode).2.1 }
    else if j = ip then blank .free else s.ino j := by
  rw [undone, setIno_ino, s.made_ino hne]
  by_cases hip : j = ip
  · simp [hip, hne.symm]
  · simp [hip]

/-! ## The pieces of `create` -/

variable [DecidableEq P]

theorem Finds.after {β : Type} {inum : β → Nat} {r : Except Stop (Option β)}
    {x : Kprog (Option β)} (h : Finds s p inum r (x.run (exec p) t)) :
    x.After (exec p) t fun y t' => r = .ok y ∧ Held s p (y.elim 0 fun z => {inum z}) none t' := by
  rw [after_iff]
  intro y t' hrun
  match r with
  | .error stop =>
    rw [hrun] at h
    cases h
  | .ok none | .ok (some z) =>
    obtain ⟨u, hu, hheld⟩ := h
    rw [hrun, Except.ok.injEq, Prod.mk.injEq] at hu
    rw [hu.1, hu.2]
    exact ⟨rfl, hheld⟩

theorem Held.ilock_ok (h : Held s p m none t) (hi : 0 < (t.mem i).ref) {r : Unit}
    (hexec : exec p (.ilock i) t = .ok (r, t')) :
    s.unreadable i = none ∧ Held s p m (some i) t' := by
  cases hread : s.unreadable i with
  | some stop =>
    rw [h.ilock_stops hi hread] at hexec
    cases hexec
  | none =>
    obtain ⟨u, hu, hheld⟩ := h.ilock hi hread
    rw [hu, Except.ok.injEq, Prod.mk.injEq] at hexec
    rw [← hexec.2]
    exact ⟨rfl, hheld⟩

theorem Held.iget_ok (h : Held s p m k t) {r : Unit} (hexec : exec p (.iget i) t = .ok (r, t')) :
    ¬ s.NoEntry m i ∧ Held s p (i ::ₘ m) k t' := by
  by_cases hfull : s.NoEntry m i
  · rw [h.iget_full hfull] at hexec
    cases hexec
  · obtain ⟨u, hu, hheld⟩ := h.iget hfull
    rw [hu, Except.ok.injEq, Prod.mk.injEq] at hexec
    rw [← hexec.2]
    exact ⟨hfull, hheld⟩

theorem Held.iunlockput_after (hq : Quiet s p) (h : Held s p (i ::ₘ m) (some i) t) :
    (Vfs.iunlockput i).After (exec p) t fun _ t' => Held s p m none t' := by
  obtain ⟨u, hrun, hheld⟩ := h.iunlockput hq
  rw [after_iff]
  intro y t' hy
  rw [hrun, Except.ok.injEq, Prod.mk.injEq] at hy
  rwa [← hy.2]

theorem Held.dirlookup_after (h : Held s p m k t) (hdir : (s.ino i).type = .dir)
    (name : List UInt8) : (Vfs.dirlookup i name).After (exec p) t fun r t' =>
      match r with
      | none => lookupEntry (s.ino i).data name = .ok none ∧ t' = t
      | some (next, off) => lookupEntry (s.ino i).data name = .ok (some (off, next)) ∧
        ¬ s.NoEntry m next ∧ Held s p (next ::ₘ m) k t' := by
  have hlookup := h.dirlookup hdir name
  rw [after_iff]
  intro r t' hrun
  match hlook : lookupEntry (s.ino i).data name with
  | .error msg =>
    rw [hlook] at hlookup
    rw [hlookup] at hrun
    cases hrun
  | .ok none =>
    rw [hlook] at hlookup
    rw [hlookup, Except.ok.injEq, Prod.mk.injEq] at hrun
    obtain ⟨rfl, rfl⟩ := hrun
    exact ⟨rfl, rfl⟩
  | .ok (some (off, next)) =>
    simp only [hlook] at hlookup
    by_cases hfull : s.NoEntry m next
    · rw [hlookup.1 hfull] at hrun
      cases hrun
    · obtain ⟨u, hu, hheld⟩ := hlookup.2 hfull
      rw [hu, Except.ok.injEq, Prod.mk.injEq] at hrun
      obtain ⟨rfl, rfl⟩ := hrun
      exact ⟨rfl, hfull, hheld⟩

-- `dirlink` of a name that is not there.
theorem dirlink_after (hdir : (t.ino dp).type = .dir)
    (hlook : lookupEntry (t.ino dp).data name = .ok none) (ip : Nat) :
    (dirlink dp name ip).After (exec p) t fun r t' => ∃ off, freeSlot (t.ino dp).data = .ok off ∧
      r = (if t.entryWritten dp off (linkEntry name ip) ≠ SIZEOF_DIRENT then -1 else 0) ∧
      t' = t.putEntry dp off (linkEntry name ip) := by
  unfold dirlink dirlookup
  simp only [after_bind, after_call]
  intro v u hread
  cases hread
  rw [if_neg (by simp [hdir]), hlook]
  simp only [after_pure, after_bind, after_call]
  intro v u hread
  cases hread
  cases hslot : freeSlot (t.ino dp).data with
  | error msg => exact fun r => r.elim
  | ok off =>
    intro n u hwrite
    cases hwrite
    exact ⟨off, rfl, rfl, rfl⟩

/-- The free inode that `ialloc` comes upon. -/
structure Sys.Free (s : Sys P) (i : Nat) : Prop where
  pos : 0 < i
  lt : i < s.ninodes
  free : (s.ino i).type = .free

/-- The state once `ialloc` has marked inode `ip`. -/
def Sys.marked (s : Sys P) (ip : Nat) : Sys P :=
  { s.setIno ip (blank .symlink) with
    room := s.room.clear ip, born := update s.born ip s.clock, clock := s.clock + 1 }

omit [DecidableEq P] in
theorem Sys.marked_unreadable (hi : s.unreadable i = none) : (s.marked ip).unreadable i = none := by
  rw [unreadable_eq_none] at hi ⊢
  refine ⟨hi.1, ?_⟩
  show ((s.setIno ip (blank .symlink)).ino i).type ≠ .free
  rw [setIno_ino]
  split
  · decide
  · exact hi.2

theorem Held.iallocFrom (h : Held s p m k t) (inums : List Nat) :
    (iallocFrom .symlink inums).After (exec p) t fun r t' =>
      match r with
      | none => (∀ i ∈ inums, (s.ino i).type ≠ .free) ∧ Held s p m k t'
      | some ip => ip ∈ inums ∧ (s.ino ip).type = .free ∧ ¬ s.NoEntry m ip ∧
        Held (s.marked ip) p (ip ::ₘ m) k t' := by
  induction inums with
  | nil =>
    unfold Vfs.iallocFrom
    intro _ u hprint
    cases hprint
    exact ⟨by simp, ⟨h.alike.table _ _ _ _, h.ref, h.lock, h.inUse, h.valid⟩⟩
  | cons inum rest ih =>
    unfold Vfs.iallocFrom
    simp only [after_bind, after_call]
    intro b u htry
    rcases exec_tryAlloc htry with ⟨rfl, hfree, rfl⟩ | ⟨rfl, hused, rfl⟩
    · intro _ u hget
      rw [h.alike.ino] at hfree
      have halike : Alike (s.marked inum) (t.marked inum) := by
        have ha := h.alike
        refine ⟨ha.ninodes, ?_, ha.file, ha.proc, ?_, ?_, ha.stamp, ?_⟩
        · simp only [Sys.marked, Sys.setIno, ha.ino]
        · simp only [Sys.marked, ha.room]
        · simp only [Sys.marked, ha.born, ha.clock]
        · simp only [Sys.marked, ha.clock]
      have hmarked : Held (s.marked inum) p m k (t.marked inum) :=
        h.change halike rfl rfl rfl rfl fun _ => Sys.marked_unreadable
      obtain ⟨hroom, hheld⟩ := hmarked.iget_ok hget
      exact ⟨List.mem_cons_self, hfree, hroom, hheld⟩
    · rw [h.alike.ino] at hused
      refine ih.mono fun r u hr => ?_
      cases r with
      | none => exact ⟨List.forall_mem_cons.mpr ⟨hused, hr.1⟩, hr.2⟩
      | some ip => exact ⟨List.mem_cons_of_mem _ hr.1, hr.2⟩

theorem Held.ialloc (h : Held s p m k t) : (ialloc .symlink).After (exec p) t fun r t' =>
      match r with
      | none => (∀ i, ¬ s.Free i) ∧ Held s p m k t'
      | some ip => s.Free ip ∧ ¬ s.NoEntry m ip ∧ Held (s.marked ip) p (ip ::ₘ m) k t' := by
  unfold Vfs.ialloc
  intro n u hnum
  cases hnum
  rw [h.alike.ninodes]
  refine (h.iallocFrom _).mono fun r u hr => ?_
  cases r with
  | none =>
    refine ⟨fun i hi => hr.1 i ?_ hi.free, hr.2⟩
    have hpos := hi.pos
    have hlt := hi.lt
    rw [List.mem_range'_1]
    omega
  | some ip =>
    have hmem := List.mem_range'_1.mp hr.1
    exact ⟨⟨by omega, by omega, hr.2.1⟩, hr.2.2⟩

/-! ## Two locks -/

omit [DecidableEq P] in
-- The lock of `i` is taken besides that of `dp`, which then is released.
theorem Held.relock (h : Held s p m (some dp) t) (hne : dp ≠ i) (hread : s.unreadable i = none)
    (x y : Mem P) (hx : x = { t.mem i with lock := some p, valid := true })
    (hy : y = { t.mem dp with lock := none }) :
    Held s p m (some i) ((t.setMem i x).setMem dp y) := by
  have hcomm : (t.setMem i x).setMem dp y = (t.setMem dp y).setMem i x := by
    simp only [Sys.setMem, update_comm hne.symm]
  have hfirst : Held s p m none (t.setMem dp y) := by
    refine h.setMem y t.inUse (fun _ _ => rfl) (fun j hj => ?_) ?_ ?_ ?_ h.inUse
    · simp [hj.symm]
    · rw [hy]
      exact h.ref dp
    · rw [hy]
      rfl
    · rw [hy]
      exact h.valid dp
  rw [hcomm]
  refine hfirst.setMem x t.inUse (fun _ _ => rfl) (fun j hj => ?_) ?_ ?_ (fun _ _ => hread) h.inUse
  · simp [hj.symm]
  · rw [hx]
    exact h.ref i
  · rw [hx]
    simp

omit [DecidableEq P] in
-- Or it is taken and released itself; the inode has been read meanwhile.
theorem Held.unlock (h : Held s p m (some dp) t) (hne : dp ≠ i) (hread : s.unreadable i = none)
    (x y : Mem P) (hx : x = { t.mem i with lock := some p, valid := true })
    (hy : y = { x with lock := none }) :
    Held s p m (some dp) ((t.setMem i x).setMem i y) := by
  have hsame : (t.setMem i x).setMem i y = t.setMem i y := by
    simp only [Sys.setMem, update_idem]
  rw [hsame]
  refine h.setMem y t.inUse (fun _ _ => rfl) (fun _ _ => Iff.rfl) ?_ ?_ (fun _ _ => hread) h.inUse
  · rw [hy, hx]
    exact h.ref i
  · rw [hy, if_neg (by simp [hne])]

-- The last reference to an inode without links and blocks.
theorem Held.iput_frees (h : Held s p (i ::ₘ m) k t) (hk : k ≠ some i) (hold : (s.mem i).ref = 0)
    (hnew : i ∉ m) (hvalid : (t.mem i).valid = true) (hnlink : (s.ino i).nlink = 0)
    (hdata : (s.ino i).data = []) (hspare : s.room.spare i = 0) :
    (Vfs.iput i).After (exec p) t fun _ t' =>
      Held (s.setIno i { s.ino i with type := .free, data := [] }) p m k t' := by
  have hone : (t.mem i).ref = 1 := by
    rw [h.ref, hold, count_cons_self, count_eq_zero.mpr hnew]
  have hextra := Sys.extra_cons_of_new hold hnew
  have hinUse := h.inUse
  intro b u hput
  rcases exec_iputLast hput with ⟨rfl, -, -, -, -, rfl⟩ | ⟨rfl, hnot, -⟩
  · intro _ u hfree _ u' hdrop
    obtain ⟨room, htrunc, rfl⟩ := exec_ifree hfree
    cases hdrop
    have ha := h.alike
    have hroom : room = s.room := by
      rw [Sys.setMem_ino, ha.ino, hdata] at htrunc
      exact (Option.some.inj
        (htrunc.symm.trans (Room.truncate_empty (by rwa [← ha.room] at hspare)))).trans ha.room
    refine ⟨⟨ha.ninodes, ?_, ha.file, ha.proc, hroom, ha.born, ha.stamp, ha.clock⟩, fun j => ?_,
      fun j => ?_, ?_, fun j => ?_⟩
    · simp only [Sys.dropRef, Sys.setMem, Sys.setIno, ha.ino]
    · by_cases hj : j = i
      · simp [hj, hone, hold, count_eq_zero.mpr hnew]
      · simp [hj, h.ref, count_cons_of_ne hj]
    · by_cases hj : j = i
      · subst hj
        simp [hk]
      · simp [hj, h.lock]
    · simp only [Sys.dropRef, Sys.setMem, Sys.setIno, update_self, hone, if_true]
      show t.inUse - 1 = s.inUse + s.extra m
      omega
    · by_cases hj : j = i
      · simp [hj, hone]
      · simp only [Sys.dropRef_mem, Sys.setMem_mem, Sys.setIno_mem, if_neg hj]
        intro hpos hvalid
        have hread := h.valid j hpos hvalid
        rw [Sys.unreadable_eq_none] at hread ⊢
        rwa [Sys.setIno_ino, if_neg hj]
  · exact absurd ⟨hone, hvalid, by rw [h.alike.ino]; exact hnlink⟩ hnot

/-- The state with `i` locked besides. -/
def Sys.lockToo (s : Sys P) (p : P) (i : Nat) : Sys P :=
  s.setMem i { s.mem i with lock := some p, valid := true }

-- `dp` is released, and `i` stays locked.
theorem Held.iunlockput_other (hq : Quiet s p) (h : Held s p (dp ::ₘ m) (some dp) t) (hne : dp ≠ i)
    (hread : s.unreadable i = none) :
    (Vfs.iunlockput dp).After (exec p) (t.lockToo p i) fun _ t' => Held s p m (some i) t' := by
  intro _ u hunlock
  obtain ⟨-, rfl⟩ := exec_iunlock hunlock
  have hsame : (t.lockToo p i).mem dp = t.mem dp := by
    rw [Sys.lockToo, Sys.setMem_mem, if_neg hne]
  have hheld := h.relock hne hread _ _ rfl
    (congrArg (fun x : Mem P => { x with lock := none }) hsame)
  obtain ⟨u, hrun, hput⟩ := hheld.iput hq
  rw [after_iff]
  intro _ t' ht'
  obtain ⟨-, rfl⟩ := Prod.mk.inj (Except.ok.inj (hrun.symm.trans ht'))
  exact hput

-- `i` is released and freed, and `dp` stays locked.
theorem Held.iunlockput_frees (h : Held s p (i ::ₘ m) (some dp) t) (hne : dp ≠ i)
    (hread : s.unreadable i = none) (hold : (s.mem i).ref = 0) (hnew : i ∉ m)
    (hnlink : (s.ino i).nlink = 0) (hdata : (s.ino i).data = []) (hspare : s.room.spare i = 0) :
    (Vfs.iunlockput i).After (exec p) (t.lockToo p i) fun _ t' =>
      Held (s.setIno i { s.ino i with type := .free, data := [] }) p m (some dp) t' := by
  intro _ u hunlock
  obtain ⟨-, rfl⟩ := exec_iunlock hunlock
  have hheld := h.unlock hne hread _ { (t.lockToo p i).mem i with lock := none } rfl
    (by simp [Sys.lockToo])
  apply hheld.iput_frees (by simp [hne]) hold hnew _ hnlink hdata hspare
  simp [Sys.lockToo]

/-! ## `create` -/

/-- The parent of the path is `dp`, which has no entry `name`; inode `ip` is free, and an entry of
`dp` is at `off`. -/
structure NewName (s : Sys P) (p : P) (path : List UInt8) (dp ip off : Nat) (name : List UInt8) :
    Prop where
  found : s.found p path true = .ok (some (dp, name))
  absent : lookupEntry (s.ino dp).data name = .ok none
  inode : s.Free ip
  room : ¬ s.NoEntry {dp} ip
  slot : freeSlot (s.ino dp).data = .ok off

omit [DecidableEq P] in
theorem NewName.ne (h : NewName s p path dp ip off name) : dp ≠ ip := by
  rintro rfl
  have hdir := (Sys.found_parent h.found).2.2
  rw [h.inode.free] at hdir
  cases hdir

/-- What `create` returns for a symbolic link at `path`, and the state it leaves. -/
inductive Created (s : Sys P) (p : P) (path : List UInt8) : Option Nat → Sys P → Prop
  | missing (hfound : s.found p path true = .ok none) : Created s p path none s
  | existing {dp ip off : Nat} {name : List UInt8}
      (hfound : s.found p path true = .ok (some (dp, name)))
      (hlook : lookupEntry (s.ino dp).data name = .ok (some (off, ip)))
      (hroom : ¬ s.NoEntry {dp} ip) (hread : s.unreadable ip = none) : Created s p path (some ip) s
  | full {dp : Nat} {name : List UInt8} (hfound : s.found p path true = .ok (some (dp, name)))
      (hlook : lookupEntry (s.ino dp).data name = .ok none) (hfull : ∀ i, ¬ s.Free i) :
      Created s p path none s
  | undone {dp ip off : Nat} {name : List UInt8} (hnew : NewName s p path dp ip off name)
      (hfails : s.entryWritten dp off (linkEntry name ip) ≠ SIZEOF_DIRENT) :
      Created s p path none (s.undone dp ip off name)
  | made {dp ip off : Nat} {name : List UInt8} (hnew : NewName s p path dp ip off name)
      (hwritten : s.entryWritten dp off (linkEntry name ip) = SIZEOF_DIRENT) :
      Created s p path (some ip) (s.made dp ip off name)

omit [DecidableEq P] in
theorem NewName.made_atRest (hr : AtRest s p) (h : NewName s p path dp ip off name) :
    AtRest (s.made dp ip off name) p := by
  refine hr.change rfl rfl rfl rfl (fun i hi => ?_) fun i hi => ?_
  · rw [s.made_ino h.ne]
    by_cases hdp : i = dp
    · rw [if_pos hdp, hdp]
      exact ⟨rfl, rfl⟩
    · have hip : i ≠ ip := fun hip => hi (hip ▸ h.inode.free)
      rw [if_neg hdp, if_neg hip]
      exact ⟨rfl, rfl⟩
  · rw [s.made_ino h.ne]
    split
    next hdp =>
      exact .inl (hdp ▸ hi)
    · split
      · exact .inr (by decide)
      · exact .inl hi

omit [DecidableEq P] in
theorem NewName.undone_atRest (hr : AtRest s p) (h : NewName s p path dp ip off name) :
    AtRest (s.undone dp ip off name) p := by
  refine hr.change rfl rfl rfl rfl (fun i hi => ?_) fun i hi => .inl ?_
  · rw [s.undone_ino h.ne]
    by_cases hdp : i = dp
    · rw [if_pos hdp, hdp]
      exact ⟨rfl, rfl⟩
    · have hip : i ≠ ip := fun hip => hi (hip ▸ h.inode.free)
      rw [if_neg hdp, if_neg hip]
      exact ⟨rfl, rfl⟩
  · rw [s.undone_ino h.ne]
    split
    next hdp =>
      exact hdp ▸ hi
    · split
      · rfl
      · exact hi

/-- The references that go with an inode `create` has returned. -/
def holding (r : Option Nat) : Multiset Nat := r.elim 0 fun i => {i}

/-- The outcome `s'` of `create`, of which `t` is the state where the inode returned is held. -/
def Outcome (s : Sys P) (p : P) (path : List UInt8) (r : Option Nat) (t : Sys P) : Prop :=
  ∃ s', Created s p path r s' ∧ AtRest s' p ∧ Held s' p (holding r) r t

omit [DecidableEq P] in
-- The entry goes into the parent as it was before the inode was taken.
theorem Sys.putEntry_alike (h : Alike (s.newLink ip) t) (de : Dirent) :
    Alike ((s.newLink ip).putEntry dp off de) (t.putEntry dp off de) := by
  refine ⟨h.ninodes, ?_, h.file, h.proc, ?_, h.born, ?_, h.clock⟩
  · simp only [putEntry, setIno, h.ino, h.room]
  · simp only [putEntry, h.ino, h.room]
  · simp only [putEntry, entryWritten, h.ino, h.room, h.stamp, h.born]
    rfl

-- The entry of the new inode in its parent.
theorem createEntries_after (hfound : s.found p path true = .ok (some (dp, name)))
    (hlook : lookupEntry (s.ino dp).data name = .ok none) (hfree : s.Free ip)
    (hroom : ¬ s.NoEntry {dp} ip) (hne : dp ≠ ip) (halike : Alike (s.newLink ip) t) :
    (createEntries dp name ip .symlink).After (exec p) t fun b t' =>
      ∃ off, NewName s p path dp ip off name ∧ t' = t.putEntry dp off (linkEntry name ip) ∧
        (b = true ↔ s.entryWritten dp off (linkEntry name ip) = SIZEOF_DIRENT) := by
  have hsame : t.ino dp = s.ino dp := by
    rw [halike.ino]
    show (s.setIno ip _).ino dp = _
    rw [Sys.setIno_ino, if_neg hne]
  have hdir := (Sys.found_parent hfound).2.2
  unfold createEntries
  rw [← hsame] at hlook hdir
  refine (dirlink_after hdir hlook ip).bind fun r t' ⟨off, hslot, hr, ht'⟩ => ?_
  have hnew : NewName s p path dp ip off name :=
    ⟨hfound, hsame ▸ hlook, hfree, hroom, hsame ▸ hslot⟩
  have hwritten : t.entryWritten dp off (linkEntry name ip) =
      s.entryWritten dp off (linkEntry name ip) := by
    simp only [Sys.entryWritten, hsame, halike.room, Sys.newLink, writeData_clear hne]
  rw [hwritten] at hr
  split at hr
  next hfails =>
    rw [hr, if_pos (by decide)]
    exact ⟨off, hnew, ht', nofun, fun hwritten => absurd hwritten hfails⟩
  next hfails =>
    rw [hr, if_neg (by decide)]
    exact ⟨off, hnew, ht', by simpa using hfails⟩

omit [DecidableEq P] in
theorem NewName.made_readable (h : NewName s p path dp ip off name) :
    (s.made dp ip off name).unreadable ip = none := by
  rw [Sys.unreadable_eq_none]
  refine ⟨h.inode.lt, ?_⟩
  rw [s.made_ino h.ne, if_neg h.ne.symm, if_pos rfl]
  decide

omit [DecidableEq P] in
theorem Sys.putEntry_unreadable (de : Dirent) (i : Nat) :
    (s.putEntry dp off de).unreadable i = s.unreadable i := by
  have htype : ((s.putEntry dp off de).ino i).type = (s.ino i).type := by
    show ((s.setIno dp _).ino i).type = _
    rw [setIno_ino]
    by_cases hdp : i = dp
    · rw [if_pos hdp, hdp]
    · rw [if_neg hdp]
  simp only [unreadable, htype]
  rfl

-- The inode that has no entry is given back.
theorem NewName.giveBack (hr : AtRest s p) (hnew : NewName s p path dp ip off name)
    (hfails : s.entryWritten dp off (linkEntry name ip) ≠ SIZEOF_DIRENT)
    (h : Held (s.made dp ip off name) p (ip ::ₘ {dp}) (some dp) t) : ((do
      clearNlink ip
      iunlockput ip
      iunlockput dp
      pure none) : Kprog (Option Nat)).After (exec p) (t.lockToo p ip) (Outcome s p path) := by
  have hino : (s.made dp ip off name).ino ip = { blank .symlink with nlink := 1 } := by
    rw [s.made_ino hnew.ne, if_neg hnew.ne.symm, if_pos rfl]
  let s1 := (s.made dp ip off name).setIno ip (blank .symlink)
  have hino1 : s1.ino ip = blank .symlink := by rw [Sys.setIno_ino, if_pos rfl]
  have hread : ∀ i, (s.made dp ip off name).unreadable i = none → s1.unreadable i = none := by
    intro i hi
    rw [Sys.unreadable_eq_none] at hi ⊢
    refine ⟨hi.1, ?_⟩
    rw [Sys.setIno_ino]
    split
    · decide
    · exact hi.2
  simp only [after_bind, after_call]
  intro _ t1 hclear
  cases hclear
  have h1 : Held s1 p (ip ::ₘ {dp}) (some dp) (t.setIno ip { t.ino ip with nlink := 0 }) := by
    have ha := h.alike
    refine h.change ⟨ha.ninodes, ?_, ha.file, ha.proc, ha.room, ha.born, ha.stamp, ha.clock⟩
      rfl rfl rfl rfl hread
    simp only [s1, Sys.setIno, ha.ino, hino]
    rfl
  have hfreed : s1.setIno ip { s1.ino ip with type := .free, data := [] } =
      s.undone dp ip off name := by
    simp only [hino1]
    simp only [s1, Sys.undone, Sys.setIno, update_idem]
    rfl
  refine (h1.iunlockput_frees hnew.ne (hread ip hnew.made_readable)
    (hr.free_unused hnew.inode.free) (by simpa using hnew.ne.symm) (by rw [hino1]; rfl)
    (by rw [hino1]; rfl) (Sys.made_spare hnew.ne)).mono fun _ t2 h2 => ?_
  rw [hfreed] at h2
  refine (Held.iunlockput_after (m := 0) (hnew.undone_atRest hr).toQuiet h2).mono fun _ t3 h3 => ?_
  exact ⟨_, .undone hnew hfails, hnew.undone_atRest hr, h3⟩

theorem Held.createInode (hr : AtRest s p) (h : Held s p {dp} (some dp) t)
    (hfound : s.found p path true = .ok (some (dp, name)))
    (hlook : lookupEntry (s.ino dp).data name = .ok none) :
    (createInode dp name .symlink 0 0).After (exec p) t (Outcome s p path) := by
  refine h.ialloc.bind fun r t1 h1 => ?_
  cases r with
  | none =>
    refine (Held.iunlockput_after (m := 0) hr.toQuiet h1.2).bind fun _ t2 h2 => ?_
    exact ⟨s, .full hfound hlook h1.1, hr, h2⟩
  | some ip =>
    obtain ⟨hfree, hroom, h1⟩ := h1
    have hne : dp ≠ ip := by
      rintro rfl
      have hdir := (Sys.found_parent hfound).2.2
      rw [hfree.free] at hdir
      cases hdir
    simp only [after_bind, after_call]
    intro _ t2 hlock _ t3 hinit
    obtain ⟨-, -, -, rfl⟩ := exec_ilock hlock
    cases hinit
    -- initialised as if it were not locked yet
    let u := t1.setIno ip { t1.ino ip with major := 0, minor := 0, nlink := 1 }
    have halike : Alike (s.newLink ip) u := by
      have ha := h1.alike
      refine ⟨ha.ninodes, ?_, ha.file, ha.proc, ha.room, ha.born, ha.stamp, ha.clock⟩
      simp only [u, Sys.newLink, Sys.setIno, ha.ino, Sys.marked, update_self,
        update_idem]
      rfl
    have hu : Held (s.newLink ip) p (ip ::ₘ {dp}) (some dp) u := by
      refine h1.change halike rfl rfl rfl rfl fun i hi => ?_
      rw [Sys.unreadable_eq_none] at hi ⊢
      refine ⟨hi.1, fun htype => hi.2 ?_⟩
      rw [← htype]
      show ((s.setIno ip _).ino i).type = ((s.setIno ip _).ino i).type
      rw [Sys.setIno_ino, Sys.setIno_ino]
      by_cases hip : i = ip
      · rw [if_pos hip, if_pos hip]
      · rw [if_neg hip, if_neg hip]
    refine (createEntries_after (t := u.lockToo p ip) hfound hlook hfree hroom hne
      (halike.table _ _ _ _)).mono fun b t4 h4 => ?_
    obtain ⟨off, hnew, ht4, hb⟩ := h4
    have hmade : Held (s.made dp ip off name) p (ip ::ₘ {dp}) (some dp)
        (u.putEntry dp off (linkEntry name ip)) :=
      hu.change (Sys.putEntry_alike halike _) rfl rfl rfl rfl
        fun i hi => (Sys.putEntry_unreadable _ i).trans hi
    have ht4' : t4 = (u.putEntry dp off (linkEntry name ip)).lockToo p ip := ht4
    rw [ht4']
    cases b with
    | true =>
      have hswap : ip ::ₘ {dp} = dp ::ₘ ({ip} : Multiset Nat) := cons_swap ip dp 0
      rw [hswap] at hmade
      refine (hmade.iunlockput_other (hnew.made_atRest hr).toQuiet hne hnew.made_readable).bind
        fun _ t5 h5 => ?_
      exact ⟨_, .made hnew (hb.mp rfl), hnew.made_atRest hr, h5⟩
    | false =>
      exact hnew.giveBack hr (by simpa using hb) hmade

theorem Held.create (hr : AtRest s p) (h : Held s p 0 none t) (path : List UInt8) :
    (create path .symlink 0 0).After (exec p) t (Outcome s p path) := by
  refine (namex_finds hr.toQuiet h path true).after.bind fun r t1 h1 => ?_
  obtain ⟨hfound, h1⟩ := h1
  cases r with
  | none => exact ⟨s, .missing hfound, hr, h1⟩
  | some found =>
    obtain ⟨dp, name⟩ := found
    obtain ⟨-, -, hdir⟩ := Sys.found_parent hfound
    change Held s p {dp} none t1 at h1
    have hpos : 0 < (t1.mem dp).ref := by
      rw [h1.ref, count_singleton_self]
      omega
    simp only [after_bind, after_call]
    intro _ t2 hlock
    obtain ⟨-, h2⟩ := h1.ilock_ok hpos hlock
    refine (h2.dirlookup_after hdir name).mono fun r t3 h3 => ?_
    cases r with
    | none =>
      obtain ⟨hlook, rfl⟩ := h3
      exact h2.createInode hr hfound hlook
    | some found =>
      obtain ⟨ip, off⟩ := found
      obtain ⟨hlook, hroom, h3⟩ := h3
      -- the directory is put back, the inode stays
      have hswap : ip ::ₘ {dp} = dp ::ₘ ({ip} : Multiset Nat) := cons_swap ip dp 0
      rw [hswap] at h3
      refine (h3.iunlockput_after hr.toQuiet).bind fun _ t4 h4 => ?_
      have hpos' : 0 < (t4.mem ip).ref := by
        rw [h4.ref, count_singleton_self]
        omega
      simp only [after_bind, after_call]
      intro _ t5 hlock' v t6 hinode
      cases hinode
      obtain ⟨hread, h5⟩ := h4.ilock_ok hpos' hlock'
      exact ⟨s, .existing hfound hlook hroom hread, hr, h5⟩

end OsProjects.Kernel.Vfs
