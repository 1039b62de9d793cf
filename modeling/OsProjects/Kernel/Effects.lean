import OsProjects.Kernel.Sysfile
import Mathlib.Data.Multiset.Basic
import Mathlib.Data.Finset.Card
import Mathlib.Data.Fintype.Basic

/-!
# Effects — what looking up and letting go do to the state

`iput`, `dirlookup` and `dirlink` are everywhere in the calls.  Run without interruption they
change no inode but for the content of directories, except that an inode without links is freed with
its last reference; and they keep the books on the references.
-/

namespace OsProjects.Kernel.Vfs

open Lib Multiset

open Prog (after_bind after_call after_pure)

variable {P : Type}

/-- An inode before and after: kept, but for the content of a directory, or freed for
want of links. -/
def Spared (v w : Vinode) : Prop :=
  (w.type = v.type ∧ w.nlink = v.nlink ∧ (v.type ≠ .dir → w.data = v.data)) ∨
  (v.nlink = 0 ∧ w.nlink = 0 ∧ w.type = .free)

theorem Spared.refl (v : Vinode) : Spared v v := Or.inl ⟨rfl, rfl, fun _ => rfl⟩

theorem Spared.trans {u v w : Vinode} (h : Spared u v) (h' : Spared v w) : Spared u w := by
  rcases h with ⟨htype, hnlink, hdata⟩ | ⟨hu, hv, hfree⟩
  · rcases h' with ⟨htype', hnlink', hdata'⟩ | ⟨hv, hw, hfree⟩
    · refine .inl ⟨htype'.trans htype, hnlink'.trans hnlink, fun hdir => ?_⟩
      rw [hdata' (by rwa [htype]), hdata hdir]
    · exact .inr ⟨hnlink ▸ hv, hw, hfree⟩
  · rcases h' with ⟨htype', hnlink', -⟩ | ⟨-, hw, hfree'⟩
    · exact .inr ⟨hu, hnlink'.trans hv, htype'.trans hfree⟩
    · exact .inr ⟨hu, hw, hfree'⟩

-- What is left of a linked inode.
theorem Spared.of_linked {v w : Vinode} (h : Spared v w) (hlink : v.nlink ≠ 0) :
    w.type = v.type ∧ w.nlink = v.nlink ∧ (v.type ≠ .dir → w.data = v.data) :=
  h.resolve_right fun hfreed => hlink hfreed.1

variable [Fintype P] [DecidableEq P]

/-- The references to inode `i` that open files and the current directories of processes other than
`p` hold. -/
def Sys.holders (s : Sys P) (p : P) (i : Nat) : Nat :=
  (Finset.univ.filter fun q => q ≠ p ∧ (s.proc q).cwd = i).card +
    (Finset.univ.filter fun f => (s.file f).type ≠ .none ∧ (s.file f).ip = i).card

/-- The references are those of the holders and those, `m`, of the call that process `p` is in; and
inodes with references exist.  Only `x`, found in a directory just now, may not. -/
structure Sound (p : P) (m : Multiset Nat) (x : Option Nat) (s : Sys P) : Prop where
  counted : ∀ i, (s.mem i).ref = s.holders p i + m.count i
  alive : ∀ i, 0 < (s.mem i).ref → (s.ino i).type ≠ .free ∨
    (x = some i ∧ (s.mem i).ref = 1 ∧ (s.mem i).valid = false)

/-- From `s` to `t`, where the call holds `m'` instead of `m`; at most `n` blocks are asked for.
Whatever else the call holds, `F`, it goes on to hold, and as valid as it was. -/
structure Leaves (p : P) (m m' : Multiset Nat) (x x' : Option Nat) (n : Nat) (s t : Sys P) :
    Prop where
  ino : ∀ i, Spared (s.ino i) (t.ino i)
  file : t.file = s.file
  proc : t.proc = s.proc
  room : ∃ k ≤ n, t.room.answers = s.room.answers.drop k
  sound : ∀ F, Sound p (m + F) x s → Sound p (m' + F) x' t ∧
    ∀ i ∈ F, (s.mem i).valid = true → (t.mem i).valid = true

variable {p : P} {s t u s' : Sys P} {m m' m'' : Multiset Nat} {x x' x'' : Option Nat} {i n n' : Nat}
  {r : Unit}

theorem Leaves.refl (p : P) (m : Multiset Nat) (x : Option Nat) (s : Sys P) :
    Leaves p m m x x 0 s s :=
  ⟨fun _ => .refl _, rfl, rfl, ⟨0, le_rfl, rfl⟩, fun _ hs => ⟨hs, fun _ _ => id⟩⟩

theorem Leaves.trans (h : Leaves p m m' x x' n s t) (h' : Leaves p m' m'' x' x'' n' t u) :
    Leaves p m m'' x x'' (n + n') s u := by
  obtain ⟨k, hk, hroom⟩ := h.room
  obtain ⟨k', hk', hroom'⟩ := h'.room
  refine ⟨fun i => (h.ino i).trans (h'.ino i), h'.file.trans h.file, h'.proc.trans h.proc,
    ⟨k + k', by omega, ?_⟩, fun F hs => ?_⟩
  · rw [hroom', hroom, List.drop_drop]
  · have hmid := h.sound F hs
    have hend := h'.sound F hmid.1
    exact ⟨hend.1, fun i hi => hend.2 i hi ∘ hmid.2 i hi⟩

theorem Sys.holders_congr (hfile : t.file = s.file) (hproc : t.proc = s.proc) (p : P) (i : Nat) :
    t.holders p i = s.holders p i := by
  simp only [holders, hfile, hproc]

theorem Leaves.frame (h : Leaves p m m' x x' n s t) (G : Multiset Nat) :
    Leaves p (m + G) (m' + G) x x' n s t := by
  refine ⟨h.ino, h.file, h.proc, h.room, fun F hs => ?_⟩
  rw [Multiset.add_assoc] at hs ⊢
  have hsound := h.sound (G + F) hs
  exact ⟨hsound.1, fun i hi => hsound.2 i (mem_add.mpr (.inr hi))⟩

-- A call may be careful about an inode that exists.
theorem Leaves.weaken (h : Leaves p m m' x none n s t) (x' : Option Nat) :
    Leaves p m m' x x' n s t :=
  ⟨h.ino, h.file, h.proc, h.room, fun F hs => ⟨⟨(h.sound F hs).1.counted, fun j hpos =>
    .inl (((h.sound F hs).1.alive j hpos).resolve_right nofun)⟩, (h.sound F hs).2⟩⟩

-- The books stay in order when they do for the one inode whose entry changes.
theorem Sound.step (h : Sound p m x s) (i : Nat) (hfile : t.file = s.file) (hproc : t.proc = s.proc)
    (hmem : ∀ j, j ≠ i → t.mem j = s.mem j) (htype : ∀ j, j ≠ i → (t.ino j).type = (s.ino j).type)
    (hm : ∀ j, j ≠ i → m'.count j = m.count j) (hx : ∀ j, j ≠ i → x = some j → x' = some j)
    (hcount : (t.mem i).ref = s.holders p i + m'.count i)
    (halive : 0 < (t.mem i).ref → (t.ino i).type ≠ .free ∨
      (x' = some i ∧ (t.mem i).ref = 1 ∧ (t.mem i).valid = false)) : Sound p m' x' t := by
  refine ⟨fun j => ?_, fun j hpos => ?_⟩
  · rw [Sys.holders_congr hfile hproc]
    by_cases hj : j = i
    · rwa [hj]
    · rw [hmem j hj, hm j hj, h.counted j]
  · by_cases hj : j = i
    · rw [hj] at hpos ⊢
      exact halive hpos
    · rw [hmem j hj] at hpos ⊢
      rw [htype j hj]
      exact (h.alive j hpos).imp_right fun hold => ⟨hx j hj hold.1, hold.2⟩

-- An action on the entry of the inode table alone.
theorem Leaves.of_setMem (y : Mem P) (inUse : Nat) (hsound : ∀ F, Sound p (m + F) x s →
      Sound p (m' + F) x' { s.setMem i y with inUse := inUse } ∧
        (i ∈ F → (s.mem i).valid = true → y.valid = true)) :
    Leaves p m m' x x' 0 s { s.setMem i y with inUse := inUse } := by
  refine ⟨fun _ => .refl _, rfl, rfl, ⟨0, le_rfl, rfl⟩,
    fun F hs => ⟨(hsound F hs).1, fun j hj => ?_⟩⟩
  by_cases hij : j = i
  · subst hij
    simpa using (hsound F hs).2 hj
  · simp [hij]

/-! ## Inodes -/

theorem ilock_leaves (m : Multiset Nat)
    (h : exec p (.ilock i) s = .ok (r, s')) (hx : ∀ j, x = some j → j = i) :
    Leaves p m m x none 0 s s' := by
  obtain ⟨hpos, -, hread, rfl⟩ := exec_ilock h
  refine .of_setMem _ _ fun F hs => ⟨hs.step i rfl rfl (fun j hj => ?_) (fun _ _ => rfl)
    (fun _ _ => rfl) (fun j hj hxj => absurd (hx j hxj) hj) ?_ fun _ => .inl ?_, fun _ _ => rfl⟩
  · simp [hj]
  · simpa using hs.counted i
  · -- an inode that was found in a dangling entry is not valid, so it has been read
    rcases hs.alive i hpos with htype | ⟨-, -, hvalid⟩
    · exact htype
    · rcases hread with hval | hread
      · rw [hval] at hvalid
        cases hvalid
      · exact (Sys.unreadable_eq_none.mp hread).2

theorem iunlock_leaves (m : Multiset Nat) (x : Option Nat)
    (h : exec p (.iunlock i) s = .ok (r, s')) : Leaves p m m x x 0 s s' := by
  obtain ⟨-, rfl⟩ := exec_iunlock h
  refine .of_setMem _ _ fun F hs => ⟨hs.step i rfl rfl (fun j hj => ?_) (fun _ _ => rfl)
    (fun _ _ => rfl) (fun _ _ => id) ?_ ?_, fun _ => id⟩
  · simp [hj]
  · simpa using hs.counted i
  · simpa using hs.alive i

theorem iget_leaves (m : Multiset Nat)
    (h : exec p (.iget i) s = .ok (r, s')) : Leaves p m (i ::ₘ m) none (some i) 0 s s' := by
  rcases exec_iget h with ⟨hpos, rfl⟩ | ⟨hzero, rfl⟩
  · refine .of_setMem _ _ fun F hs => ⟨hs.step i rfl rfl (fun j hj => ?_) (fun _ _ => rfl)
      (fun j hj => ?_) (fun _ _ => nofun) ?_ fun _ => .inl ?_, fun _ => id⟩
    · simp [hj]
    · rw [cons_add, count_cons_of_ne hj]
    · have hold := hs.counted i
      rw [cons_add, count_cons_self]
      simp only [Sys.setMem_mem, if_true]
      omega
    · exact (hs.alive i hpos).resolve_right nofun
  · refine .of_setMem _ _ fun F hs => ⟨hs.step i rfl rfl (fun j hj => ?_) (fun _ _ => rfl)
      (fun j hj => ?_) (fun _ _ => nofun) ?_ fun _ => .inr ?_, fun hi => ?_⟩
    · simp [hj]
    · rw [cons_add, count_cons_of_ne hj]
    · have hold := hs.counted i
      rw [cons_add, count_cons_self]
      simp only [Sys.setMem_mem, if_true]
      omega
    · simp
    · -- it is not among what the call holds
      have hold := hs.counted i
      have hmem := count_pos.mpr hi
      rw [count_add] at hold
      omega

theorem idup_leaves (hi : i ∈ m) (h : exec p (.idup i) s = .ok (r, s')) :
    Leaves p m (i ::ₘ m) none none 0 s s' := by
  cases h
  refine .of_setMem _ _ fun F hs => ⟨hs.step i rfl rfl (fun j hj => ?_) (fun _ _ => rfl)
    (fun j hj => ?_) (fun _ _ => nofun) ?_ fun _ => .inl ?_, fun _ => id⟩
  · simp [hj]
  · rw [cons_add, count_cons_of_ne hj]
  · have hold := hs.counted i
    rw [cons_add, count_cons_self]
    simp only [Sys.setMem_mem, if_true]
    omega
  · have hold := hs.counted i
    have hmem := count_pos.mpr hi
    rw [count_add] at hold
    exact (hs.alive i (by omega)).resolve_right nofun

theorem iput_leaves (i : Nat) (m : Multiset Nat) (x x' : Option Nat)
    (hx : ∀ j, x = some j → j = i ∨ x' = some j) (s : Sys P) :
    (iput i).After (exec p) s fun _ t => Leaves p (i ::ₘ m) m x x' 0 s t := by
  have hcount : ∀ F j, j ≠ i → (m + F).count j = (i ::ₘ m + F).count j := by
    intro F j hj
    rw [cons_add, count_cons_of_ne hj]
  have hself : ∀ F, (i ::ₘ m + F).count i = (m + F).count i + 1 := by
    intro F
    rw [cons_add, count_cons_self]
  have hxj : ∀ j, j ≠ i → x = some j → x' = some j := fun j hj hxj => (hx j hxj).resolve_left hj
  intro b s1 h
  rcases exec_iputLast h with ⟨rfl, hone, -, hnlink, -, rfl⟩ | ⟨rfl, -, rfl⟩
  · -- the inode goes with its last reference
    intro _ s2 h2 _ s3 h3
    obtain ⟨room, htrunc, rfl⟩ := exec_ifree h2
    cases h3
    refine ⟨fun j => ?_, rfl, rfl, ⟨0, le_rfl, Room.truncate_answers htrunc⟩,
      fun F hs => ⟨hs.step i rfl rfl (fun j hj => ?_)
      (fun j hj => ?_) (hcount F) hxj ?_ fun hpos => ?_, fun j hj => ?_⟩⟩
    · by_cases hj : j = i
      · subst hj
        exact .inr ⟨hnlink, by simpa using hnlink, by simp⟩
      · simp [hj, Spared.refl]
    · simp [hj]
    · simp [hj]
    · have hold := hs.counted i
      rw [hself] at hold
      simp only [Sys.dropRef_mem, Sys.setMem_mem, if_true]
      omega
    · simp only [Sys.dropRef_mem, Sys.setMem_mem, if_true] at hpos
      omega
    · have hji : j ≠ i := by
        rintro rfl
        have hold := hs.counted j
        have hmem := count_pos.mpr hj
        rw [hself, count_add] at hold
        omega
      simp [hji]
  · refine ⟨fun _ => .refl _, rfl, rfl, ⟨0, le_rfl, rfl⟩, fun F hs => ⟨hs.step i rfl rfl
      (fun j hj => ?_) (fun _ _ => rfl) (hcount F) hxj ?_ fun hpos => ?_, fun j _ => ?_⟩⟩
    · simp [hj]
    · have hold := hs.counted i
      rw [hself] at hold
      simp only [Sys.dropRef_mem, if_true]
      omega
    · simp only [Sys.dropRef_mem, if_true] at hpos ⊢
      refine (hs.alive i (by omega)).imp_right fun hstale => ?_
      omega
    · by_cases hj : j = i
      · simp [hj]
      · simp [hj]

theorem iunlockput_leaves (i : Nat) (m : Multiset Nat) (x x' : Option Nat)
    (hx : ∀ j, x = some j → j = i ∨ x' = some j) (s : Sys P) :
    (iunlockput i).After (exec p) s fun _ t => Leaves p (i ::ₘ m) m x x' 0 s t := by
  intro _ s1 h
  exact (iput_leaves i m x x' hx s1).mono fun _ t ht => (iunlock_leaves _ x h).trans ht

omit [Fintype P] in
-- What `iput` does to inodes.
theorem iput_ino (i : Nat) (s : Sys P) :
    (iput i).After (exec p) s fun _ t => (∀ j, j ≠ i → t.ino j = s.ino j ∧ t.mem j = s.mem j) ∧
      ((s.mem i).ref = 1 ∧ (s.mem i).valid = true ∧ (s.ino i).nlink = 0 ∧ (t.ino i).type = .free ∨
        ¬((s.mem i).ref = 1 ∧ (s.mem i).valid = true ∧ (s.ino i).nlink = 0) ∧ t.ino i = s.ino i ∧
          (t.mem i).valid = (s.mem i).valid) := by
  intro b s1 hput
  rcases exec_iputLast hput with ⟨rfl, hone, hvalid, hnlink, -, rfl⟩ | ⟨rfl, hnot, rfl⟩
  · intro _ s2 hfree _ s3 hdrop
    obtain ⟨_, -, rfl⟩ := exec_ifree hfree
    cases hdrop
    exact ⟨fun j hj => by simp [hj], .inl ⟨hone, hvalid, hnlink, by simp⟩⟩
  · exact ⟨fun j hj => by simp [hj], .inr ⟨hnot, rfl, by simp⟩⟩

omit [Fintype P] in
-- The last reference to an inode without links.
theorem iunlockput_frees (hone : (s.mem i).ref = 1) (hvalid : (s.mem i).valid = true)
    (hnlink : (s.ino i).nlink = 0) :
    (iunlockput i).After (exec p) s fun _ t => (t.ino i).type = .free := by
  intro _ s1 hunlock
  obtain ⟨-, rfl⟩ := exec_iunlock hunlock
  refine (iput_ino i _).mono fun _ t ⟨_, hself⟩ => ?_
  rcases hself with ⟨-, -, -, hfree⟩ | ⟨hnot, -⟩
  · exact hfree
  · exact absurd ⟨by simpa using hone, by simpa using hvalid, hnlink⟩ hnot

/-! ## Directories -/

/-- The references with that to the inode found, if one was. -/
def plus {β : Type} (r : Option β) (inum : β → Nat) (m : Multiset Nat) : Multiset Nat :=
  match r with
  | none => m
  | some y => inum y ::ₘ m

theorem dirlookup_leaves (dp : Nat) (name : List UInt8) (m : Multiset Nat) (s : Sys P) :
    (dirlookup dp name).After (exec p) s fun r t =>
      Leaves p m (plus r Prod.fst m) none (r.map Prod.fst) 0 s t ∧ (s.ino dp).type = .dir ∧
        t.ino = s.ino := by
  unfold dirlookup
  simp only [after_bind, after_call]
  intro v s1 h
  cases h
  split
  · exact fun r => r.elim
  rename_i hdir
  rcases lookupEntry (s.ino dp).data name with msg | _ | ⟨off, inum⟩
  · exact fun r => r.elim
  · exact ⟨.refl _ _ _ _, not_not.mp hdir, rfl⟩
  · intro _ s2 h2
    refine ⟨iget_leaves m h2, not_not.mp hdir, ?_⟩
    rcases exec_iget h2 with ⟨-, rfl⟩ | ⟨-, rfl⟩
    · rfl
    · rfl

-- A write of an entry asks for a block and those on the way to it.
theorem writeDirent_room (room : Room) (d : Nat) {data bytes : List UInt8} {off : Nat}
    (hoff : off ≤ data.length) (hbytes : bytes.length ≤ BSIZE) :
    ∃ k ≤ 3, (writeData room d data off bytes).2.2.answers = room.answers.drop k := by
  unfold writeData
  split
  · exact ⟨0, by omega, rfl⟩
  · obtain ⟨k, hk, hdrop, -⟩ := takeRoom_snd room.answers
      (blocksFor (blocksOf (off + bytes.length)) - room.blocks d data.length)
    refine ⟨k, hk.trans ?_, hdrop⟩
    have hone : blocksOf (off + bytes.length) ≤ blocksOf data.length + 1 := by
      unfold blocksOf
      simp only [BSIZE] at *
      omega
    have hmono := (blocksFor_mono hone).trans (blocksFor_succ_le _)
    rw [Room.blocks]
    omega

theorem writeDirent_leaves (m : Multiset Nat) (x : Option Nat) {d off : Nat} {de : Dirent} {r : Int}
    (h : exec p (.writeDirent d off de) s = .ok (r, t)) (hdir : (s.ino d).type = .dir)
    (hoff : off ≤ (s.ino d).data.length) (hde : de.Fits) : Leaves p m m x x 3 s t := by
  cases h
  refine ⟨fun j => ?_, rfl, rfl, ?_, fun F hs => ⟨⟨hs.counted, fun j hpos => ?_⟩, fun _ _ => id⟩⟩
  · by_cases hj : j = d
    · subst hj
      exact .inl ⟨by simp, by simp, fun hne => absurd hdir hne⟩
    · simp [hj, Spared.refl]
  · apply writeDirent_room
    · exact hoff
    · rw [hde.length_encode]
      decide
  · have hold := hs.alive j hpos
    by_cases hj : j = d
    · subst hj
      simpa using hold
    · simpa [hj] using hold

theorem dirlink_leaves (dp : Nat) (name : List UInt8) (inum : Nat) (m : Multiset Nat) (s : Sys P) :
    (dirlink dp name inum).After (exec p) s fun _ t => Leaves p m m none none 3 s t := by
  refine (dirlookup_leaves dp name m s).bind fun r s1 ⟨h1, hdir, hino⟩ => ?_
  match r with
  | some (ip, _) =>
    refine (iput_leaves ip m _ none (fun j hj => .inl (Option.some.inj hj).symm) s1).bind
      fun _ s2 h2 => ?_
    obtain ⟨hino', hfile, hproc, ⟨k, hk, hroom⟩, hsound⟩ := h1.trans h2
    exact ⟨hino', hfile, hproc, ⟨k, by omega, hroom⟩, hsound⟩
  | none =>
    simp only [after_bind, after_call]
    intro v s2 h2
    cases h2
    cases hslot : freeSlot (s1.ino dp).data with
    | error msg => exact fun r => r.elim
    | ok off =>
      obtain ⟨k, rfl, hk, -⟩ := freeSlot_ok hslot
      intro w s3 h3
      refine h1.trans (writeDirent_leaves m none h3 (by rwa [hino]) ?_
        (direntFor_fits (Nat.mod_lt inum (by decide))))
      rw [length_entries] at hk
      simp only [SIZEOF_DIRENT] at *
      omega

/-! ## New inodes -/

/-- From `s` to `t` inode `ip` is allocated; if the books are in order nobody else refers to it. -/
structure Takes (p : P) (m : Multiset Nat) (type : FileType) (ip : Nat) (s t : Sys P) : Prop where
  free : (s.ino ip).type = .free
  ino : t.ino = Function.update s.ino ip (blank type)
  file : t.file = s.file
  proc : t.proc = s.proc
  room : t.room.answers = s.room.answers
  sound : type ≠ .free → Sound p m none s → Sound p (ip ::ₘ m) none t ∧ (t.mem ip).ref = 1

theorem iallocFrom_takes (type : FileType) (l : List Nat) (m : Multiset Nat) (s : Sys P) :
    (iallocFrom type l).After (exec p) s fun r t =>
      match r with
      | none => Leaves p m m none none 0 s t
      | some ip => Takes p m type ip s t := by
  induction l generalizing s with
  | nil =>
    intro _ s1 h
    cases h
    exact ⟨fun _ => .refl _, rfl, rfl, ⟨0, le_rfl, rfl⟩, fun F hs => ⟨⟨hs.counted, hs.alive⟩,
      fun _ _ => id⟩⟩
  | cons inum rest ih =>
    unfold iallocFrom
    simp only [after_bind, after_call]
    intro b s1 h
    rcases exec_tryAlloc h with ⟨rfl, hfree, rfl⟩ | ⟨rfl, -, rfl⟩
    · intro _ s2 hget
      -- nobody refers to an inode that is free
      have hzero : Sound p m none s → (s.mem inum).ref = 0 := by
        intro hs
        by_contra hpos
        exact ((hs.alive inum (Nat.pos_of_ne_zero hpos)).resolve_right (by simp)) hfree
      have hself := count_cons_self inum m
      rcases exec_iget hget with ⟨hpos, rfl⟩ | ⟨-, rfl⟩
      · refine ⟨hfree, rfl, rfl, rfl, rfl, fun _ hs => absurd (hzero hs) ?_⟩
        exact Nat.pos_iff_ne_zero.mp hpos
      · refine ⟨hfree, rfl, rfl, rfl, rfl, fun htype hs => ⟨hs.step inum rfl rfl (fun j hj => ?_)
          (fun j hj => ?_) (fun j hj => count_cons_of_ne hj m) (fun _ _ => id) ?_
          fun _ => .inl ?_, ?_⟩⟩
        · simp [hj]
        · simp [hj]
        · have hold := hs.counted inum
          rw [hzero hs] at hold
          simp only [Sys.setMem_mem, if_true]
          omega
        · simpa [blank] using htype
        · simp
    · exact ih _

theorem ialloc_takes (type : FileType) (m : Multiset Nat) (s : Sys P) :
    (ialloc type).After (exec p) s fun r t =>
      match r with
      | none => Leaves p m m none none 0 s t
      | some ip => Takes p m type ip s t := by
  intro k s1 h
  cases h
  exact iallocFrom_takes type _ m s

-- For anything but a directory only the name in the parent is entered.
theorem createEntries_leaves {type : FileType} (htype : type ≠ .dir) (dp : Nat) (name : List UInt8)
    (ip : Nat) (m : Multiset Nat) (s : Sys P) :
    (createEntries dp name ip type).After (exec p) s fun _ t => Leaves p m m none none 3 s t := by
  unfold createEntries
  rw [if_neg htype]
  refine (dirlink_leaves dp name ip m s).bind fun r t h => ?_
  split
  · exact h
  · exact h

end OsProjects.Kernel.Vfs
