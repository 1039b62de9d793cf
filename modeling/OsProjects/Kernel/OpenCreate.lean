import OsProjects.Kernel.Paths

/-!
# OpenCreate — `sys_open` with `O_CREATE` on a path that exists

`create` gives back an inode that is there already if it is a file or a device.  It refuses a
symbolic link, which `sys_open` would have followed.
-/

namespace OsProjects.Kernel.Vfs

open Lib

open Prog (run_bind_ok run_call run_call_ok)

variable {P : Type} {s t : Sys P} {p : P} {omode : UInt32} {i k : Nat} {path : List UInt8}

theorem has_or (omode flags flag : UInt32) :
    has (omode ||| flags) flag = (has omode flag || has flags flag) := by
  have hand : (omode ||| flags) &&& flag = omode &&& flag ||| flags &&& flag := by
    apply UInt32.toBitVec_inj.mp
    ext j
    simp [Bool.and_or_distrib_right]
  rw [Bool.eq_iff_iff]
  simp only [has, hand, bne_iff_ne, ne_eq, UInt32.or_eq_zero_iff, Bool.or_eq_true, not_and_or]

theorem Sys.locate_eq_some (h : s.locate p path = .ok (some i)) :
    s.resolve p path = .ok (some i) ∧ s.unreadable i = none := by
  unfold locate at h
  split at h
  · split at h
    · cases h
    · cases h
      exact ⟨‹_›, ‹_›⟩
  · exact absurd h (‹∀ i, s.resolve p path = .ok (some i) → False› i)

theorem Sys.lookupIn_some {dp : Nat} {name : List UInt8} (h : s.lookupIn dp name = .ok (some i)) :
    ∃ off, lookupEntry (s.ino dp).data name = .ok (some (off, i)) ∧ ¬ s.NoEntry {dp} i := by
  unfold lookupIn at h
  split at h
  · cases h
  · cases h
  · split at h
    · cases h
    · cases h
      exact ⟨_, ‹_›, ‹_›⟩

/-- `create` gives the inode of the path back. -/
def Sys.Reuses (s : Sys P) (path : List UInt8) (i : Nat) : Prop :=
  components path ≠ [] ∧ ((s.ino i).type = .file ∨ (s.ino i).type = .device)

variable [DecidableEq P]

-- The two flags differ in nothing that the file or the inode keeps.
theorem Sys.opened_create (f : Fin NFILE) (n : Fin NOFILE) :
    s.opened p i (omode ||| O_CREATE) f n = s.opened p i omode f n := by
  have htrunc : has O_CREATE O_TRUNC = false := rfl
  have hwronly : has O_CREATE O_WRONLY = false := rfl
  have hrdwr : has O_CREATE O_RDWR = false := rfl
  simp only [opened, has_or, htrunc, hwronly, hrdwr, Bool.or_false]

omit [DecidableEq P] in
theorem Sys.cutPanics_create : s.CutPanics (omode ||| O_CREATE) i ↔ s.CutPanics omode i := by
  have htrunc : has O_CREATE O_TRUNC = false := rfl
  simp only [CutPanics, has_or, htrunc, Bool.or_false]

theorem create_existing (hq : Quiet s p) (h : Held s p 0 none t)
    (hloc : s.locate p path = .ok (some i)) :
    (s.Reuses path i → ∃ t', (create path .file 0 0).run (exec p) t = .ok (some i, t') ∧
      Held s p {i} (some i) t') ∧
    (¬ s.Reuses path i → ∃ t', (create path .file 0 0).run (exec p) t = .ok (none, t') ∧
      Held s p 0 none t') := by
  obtain ⟨hresolve, hread⟩ := Sys.locate_eq_some hloc
  have hfinds := namex_finds hq h path true
  have hfold : s.fold p path (components path) = pure i := by
    rw [← s.resolve_eq_fold, hresolve]
    rfl
  rcases List.eq_nil_or_concat' (components path) with hnil | ⟨names, name, hlast⟩
  · -- `/` and the like have no parent
    obtain ⟨j, hstart, -⟩ := bind_some.mp hfold
    have hfound : s.found p path true = .ok none := by
      have heq := @Sys.found_eq P s p path true
      rwa [hstart, hnil, pure_bind] at heq
    rw [hfound] at hfinds
    obtain ⟨t', hrun, h'⟩ := hfinds
    exact ⟨fun hreuse => absurd hnil hreuse.1, fun _ => ⟨t', run_bind_ok _ hrun, h'⟩⟩
  · have hparent := @Sys.fold_eq_parent P s p path names name hlast
    rw [hresolve] at hparent
    obtain ⟨⟨dp, name'⟩, hdp, hlook⟩ := bind_some.mp hparent.symm
    have hfound : s.found p path true = .ok (some (dp, name')) :=
      (Sys.found_eq_parent hlast).trans hdp
    obtain ⟨-, hreadp, hdir⟩ := Sys.found_parent hfound
    rw [hfound] at hfinds
    obtain ⟨t1, hrun1, h1⟩ := hfinds
    obtain ⟨t2, hrun2, h2⟩ := h1.ilock (by rw [h1.ref, Multiset.count_singleton_self]; omega) hreadp
    obtain ⟨off, hentry, hroom⟩ := Sys.lookupIn_some hlook
    have hdirlookup := h2.dirlookup hdir name'
    rw [hentry] at hdirlookup
    obtain ⟨t3, hrun3, h3⟩ := hdirlookup.2 hroom
    have hswap : i ::ₘ ({dp} : Multiset Nat) = dp ::ₘ {i} := Multiset.cons_swap i dp 0
    rw [hswap] at h3
    obtain ⟨t4, hrun4, h4⟩ := h3.iunlockput hq
    obtain ⟨t5, hrun5, h5⟩ := h4.ilock (by rw [h4.ref, Multiset.count_singleton_self]; omega) hread
    unfold create
    rw [nameiparent, run_bind_ok _ hrun1]
    rw [run_call_ok _ hrun2, run_bind_ok _ hrun3]
    rw [run_bind_ok _ hrun4, run_call_ok _ hrun5, run_call_ok _ h5.inode]
    have hiff : s.Reuses path i ↔
        FileType.file = .file ∧ ((s.ino i).type = .file ∨ (s.ino i).type = .device) := by
      simp [Sys.Reuses, hlast]
    rw [hiff]
    split
    · exact ⟨fun _ => ⟨t5, rfl, h5⟩, fun hnot => absurd ‹_› hnot⟩
    · obtain ⟨t6, hrun6, h6⟩ := Held.iunlockput (m := 0) hq h5
      exact ⟨fun hreuse => absurd hreuse ‹_›, fun _ => ⟨t6, run_bind_ok _ hrun6, h6⟩⟩

theorem sysOpen_existing (hq : Quiet s p) (hcreate : has omode O_CREATE = true) {path : CStr}
    (hloc : s.locate p path.bytes = .ok (some i)) :
    (s.Reuses path.bytes i → Opens s p omode i ((sysOpen path omode).run (exec p) s)) ∧
    (¬ s.Reuses path.bytes i → FailsCleanly s p ((sysOpen path omode).run (exec p) s)) := by
  have hopen : openInode path.bytes omode = create path.bytes .file 0 0 := by
    rw [openInode, hcreate]
    rfl
  obtain ⟨hreuse, hrefuse⟩ := create_existing hq (hq.held.ops (s.outstanding + 1)) hloc
  rw [sysOpen, hopen, run_bind_ok _ (run_call (exec p) .beginOp s)]
  refine ⟨fun h => ?_, fun h => ?_⟩
  · obtain ⟨t1, hrun1, h1⟩ := hreuse h
    have hlink : (s.ino i).type ≠ .symlink := by rcases h.2 with htype | htype <;> simp [htype]
    have hlinks : (followLinks omode 9 i).run (exec p) t1 = .ok (some i, t1) := by
      unfold followLinks
      rw [run_call_ok _ h1.inode, if_neg hlink]
      rfl
    rw [run_bind_ok _ hrun1]
    rw [run_bind_ok _ hlinks]
    exact openFile_opens hq h1
  · obtain ⟨t1, hrun1, h1⟩ := hrefuse h
    exact ⟨_, run_bind_ok _ hrun1, h1.ops _⟩

/-! ## With and without the flag -/

/-- Both runs open `i` and change nothing else, or both fail, or both panic as they truncate `i`. -/
def OpenAlike (s : Sys P) (p : P) (omode : UInt32) (i : Nat)
    (run run' : Except Stop (Int × Sys P)) : Prop :=
  FailsCleanly s p run ∧ FailsCleanly s p run' ∨
    (∃ f n, ∀ r ∈ [run, run'],
      ∃ t, r = .ok (n.val, t) ∧ Held (s.opened p i omode f n) p {i} none t) ∨
    s.CutPanics omode i ∧ ∀ r ∈ [run, run'], r = .error (.panic "freeing free block")

variable {run run' : Except Stop (Int × Sys P)}

theorem Opens.alike (h : Opens s p omode i run) (h' : Opens s p (omode ||| O_CREATE) i run')
    (hdev : ¬ BadDevice (s.ino i)) : OpenAlike s p omode i run run' := by
  by_cases hnone : s.findFile = none ∨ s.findFd p = none
  · exact .inl ⟨h.fails (.inr hnone), h'.fails (.inr hnone)⟩
  · obtain ⟨⟨f, hf⟩, n, hn⟩ := (not_or.mp hnone).imp Option.ne_none_iff_exists'.mp
      Option.ne_none_iff_exists'.mp
    have hopens := h.opens f n hdev hf hn
    have hopens' := h'.opens f n hdev hf hn
    simp only [Sys.opened_create, Sys.cutPanics_create] at hopens'
    by_cases hpanic : s.CutPanics omode i
    · rw [if_pos hpanic] at hopens hopens'
      exact .inr (.inr ⟨hpanic, by simp [hopens, hopens']⟩)
    · rw [if_neg hpanic] at hopens hopens'
      exact .inr (.inl ⟨f, n, by simp [hopens, hopens']⟩)

theorem Opens.alike_iff_of_fails (h : Opens s p omode i run) (h' : FailsCleanly s p run')
    (hdev : ¬ BadDevice (s.ino i)) :
    OpenAlike s p omode i run run' ↔ s.findFile = none ∨ s.findFd p = none := by
  refine ⟨fun halike => ?_, fun hnone => .inl ⟨h.fails (.inr hnone), h'⟩⟩
  by_contra hnone
  obtain ⟨⟨f, hf⟩, n, hn⟩ := (not_or.mp hnone).imp Option.ne_none_iff_exists'.mp
    Option.ne_none_iff_exists'.mp
  have hopens := h.opens f n hdev hf hn
  obtain ⟨t', hrun', -⟩ := h'
  rcases halike with ⟨⟨t1, hfail, -⟩, -⟩ | ⟨f1, n1, hboth⟩ | ⟨-, hboth⟩
  · -- the first run opens the file or panics
    rw [hfail] at hopens
    split at hopens
    · cases hopens
    · obtain ⟨t, hrun, -⟩ := hopens
      cases hrun
  · obtain ⟨t1, hrun1, -⟩ := hboth run' (by simp)
    rw [hrun'] at hrun1
    cases hrun1
  · have hrun1 := hboth run' (by simp)
    rw [hrun'] at hrun1
    cases hrun1

/-- `O_CREATE` makes no difference exactly where the path itself is no symbolic link, or where
neither call can open anything, or both have the flag. -/
theorem sysOpen_create_alike_iff (hq : Quiet s p) (path : CStr)
    (hfollow : has omode O_NOFOLLOW = false) (hk : k ≤ 9)
    (hi : s.chain p path.bytes k = .ok (some i))
    (htype : (s.ino i).type = .file ∨ (s.ino i).type = .device ∧ ¬ BadDevice (s.ino i)) :
    OpenAlike s p omode i ((sysOpen path omode).run (exec p) s)
      ((sysOpen path (omode ||| O_CREATE)).run (exec p) s) ↔
    k = 0 ∧ components path.bytes ≠ [] ∨ has omode O_CREATE = true ∨ s.findFile = none ∨
      s.findFd p = none := by
  have hdev : ¬ BadDevice (s.ino i) :=
    htype.elim (fun hfile hbad => by simp [hbad.1] at hfile) And.right
  obtain ⟨i0, hzero⟩ := Sys.chain_zero_eq hi
  have hfirst : k = 0 ∧ i0 = i ∨ k ≠ 0 ∧ (s.ino i0).type = .symlink := by
    by_cases hk0 : k = 0
    · rw [hk0, hzero] at hi
      cases hi
      exact .inl ⟨hk0, rfl⟩
    · refine .inr ⟨hk0, by_contra fun hne => ?_⟩
      rw [Sys.chain_ends hzero hne (Nat.pos_of_ne_zero hk0)] at hi
      cases hi
  have hor : has (omode ||| O_CREATE) O_CREATE = true := by
    rw [has_or]
    exact Bool.or_true _
  obtain ⟨hreuse, hrefuse⟩ := sysOpen_existing hq hor hzero
  have hiff : s.Reuses path.bytes i0 ↔ k = 0 ∧ components path.bytes ≠ [] := by
    rcases hfirst with ⟨hk0, rfl⟩ | ⟨hk0, hlink⟩
    · simp [Sys.Reuses, hk0, htype.imp id And.left]
    · simp [Sys.Reuses, hk0, hlink]
  have hsame : s.Reuses path.bytes i0 → i0 = i :=
    fun h => hfirst.elim And.right fun hlink => absurd (hiff.mp h).1 hlink.1
  rw [← hiff]
  by_cases hcreate : has omode O_CREATE = true
  · obtain ⟨hreuse', hrefuse'⟩ := sysOpen_existing hq hcreate hzero
    refine iff_of_true ?_ (.inr (.inl hcreate))
    by_cases hr : s.Reuses path.bytes i0
    · obtain rfl := hsame hr
      exact (hreuse' hr).alike (hreuse hr) hdev
    · exact .inl ⟨hrefuse' hr, hrefuse hr⟩
  · have hfound := (sysOpen_found hq (Bool.eq_false_iff.mpr hcreate) hfollow path hk hi
      (by rcases htype with h | h <;> simp [h])).2 (by rcases htype with h | h <;> simp [h])
    by_cases hr : s.Reuses path.bytes i0
    · obtain rfl := hsame hr
      exact iff_of_true (hfound.alike (hreuse hr) hdev) (.inl hr)
    · simp only [hr, hcreate, false_or, Bool.false_eq_true]
      exact hfound.alike_iff_of_fails (hrefuse hr) hdev

theorem sysOpen_create_alike_file : OpenAlike linkedDisk () O_RDWR 2
    ((sysOpen ⟨[102], by decide, by decide⟩ O_RDWR).run (exec ()) linkedDisk)
    ((sysOpen ⟨[102], by decide, by decide⟩ (O_RDWR ||| O_CREATE)).run (exec ()) linkedDisk) :=
  (sysOpen_create_alike_iff linkedDisk_quiet ⟨[102], by decide, by decide⟩ (by decide)
    (show 0 ≤ 9 by decide) rfl (.inl rfl)).mpr (.inl ⟨rfl, by decide⟩)

/-- The link `l` leads to the file `f`, but `create` refuses it. -/
theorem sysOpen_create_link :
    linkedDisk.chain () [108] 1 = .ok (some 2) ∧ (linkedDisk.ino 2).type = .file ∧
    ((sysOpen ⟨[108], by decide, by decide⟩ O_RDWR).run (exec ()) linkedDisk).map Prod.fst = .ok 0 ∧
    ((sysOpen ⟨[108], by decide, by decide⟩ (O_RDWR ||| O_CREATE)).run (exec ()) linkedDisk).map
      Prod.fst = .ok (-1) :=
  ⟨rfl, rfl, rfl, rfl⟩

end OsProjects.Kernel.Vfs
