import OsProjects.Kernel.OpenLinks
import OsProjects.Kernel.Effects

/-!
# OpenDir — when `sys_open` opens a directory for writing

The check for directories looks at the inode that the path names.  The inode at the end of a chain
of symbolic links is not checked, and `create` gives no directory away.
-/

namespace OsProjects.Kernel.Vfs

open Lib

variable {P : Type} {s : Sys P} {p : P} {omode : UInt32} {run : Except Stop (Int × Sys P)}

/-- If the call returns a descriptor that is open for writing, it is not one of a directory. -/
def NoWritableDir (p : P) (run : Except Stop (Int × Sys P)) : Prop :=
  ∀ fd t f, run = .ok (fd, t) → t.fd p fd = some f → (t.file f).writable = true →
    (t.ino (t.file f).ip).type ≠ .dir

theorem FailsCleanly.noWritableDir (h : FailsCleanly s p run) : NoWritableDir p run := by
  obtain ⟨t, rfl, -⟩ := h
  intro fd t' f hrun hfd
  cases hrun
  cases hfd

variable [DecidableEq P]

theorem noWritableDir_of_after {path : CStr} (h : (sysOpen path omode).After (exec p) s fun fd t =>
      ∀ f, t.fd p fd = some f → (t.ino (t.file f).ip).type ≠ .dir) :
    NoWritableDir p ((sysOpen path omode).run (exec p) s) :=
  fun _ _ f hrun hfd _ => h.of_run hrun f hfd

/-! ## Without `O_CREATE` -/

-- What is opened is a directory open for writing just when the inode and the mode say so.
theorem Opens.noWritableDir_iff {i : Nat} (h : Opens s p omode i run) :
    NoWritableDir p run ↔ ¬ ((s.ino i).type = .dir ∧
      (has omode O_WRONLY = true ∨ has omode O_RDWR = true) ∧ s.findFile ≠ none ∧
      s.findFd p ≠ none) := by
  cases hf : s.findFile with
  | none => exact iff_of_true (h.fails (.inr (.inl hf))).noWritableDir (by simp)
  | some f =>
    cases hn : s.findFd p with
    | none => exact iff_of_true (h.fails (.inr (.inr hn))).noWritableDir (by simp)
    | some n =>
      by_cases hbad : BadDevice (s.ino i)
      · exact iff_of_true (h.fails (.inl hbad)).noWritableDir (by simp [hbad.1])
      · have hopen := h.opens f n hbad hf hn
        split at hopen
        next hpanic =>
          refine iff_of_true ?_ fun hdir => absurd (hdir.1.symm.trans hpanic.1.2) (by decide)
          rw [hopen]
          exact fun _ _ _ => nofun
        obtain ⟨t, rfl, ht⟩ := hopen
        have hfd : t.fd p n.val = some f := by
          rw [Sys.fd, dif_pos ⟨by omega, by simp⟩, ht.alike.proc]
          simp [Sys.opened]
        have htype : (t.ino (t.file f).ip).type = (s.ino i).type := by
          rw [ht.alike.ino, ht.alike.file, Sys.opened_type]
          simp [Sys.opened]
        have hwritable : (t.file f).writable = (has omode O_WRONLY || has omode O_RDWR) := by
          rw [ht.alike.file]
          simp [Sys.opened]
        constructor
        · rintro hno ⟨hdir, hmode, -, -⟩
          exact hno _ _ f rfl hfd (by rw [hwritable]; simpa using hmode) (htype.trans hdir)
        · intro hnot fd t' f' hrun hfd' hw hdir
          cases hrun
          obtain rfl := Option.some.inj (hfd.symm.trans hfd')
          exact hnot ⟨htype.symm.trans
            hdir, by rw [hwritable] at hw; simpa using hw, by simp, by simp⟩

/-! ## With `O_CREATE` -/

theorem openFile_keeps_kind {i : Nat} (hkind : (s.ino i).type ≠ .dir) :
    (openFile omode i).After (exec p) s fun fd t =>
      ∀ f, t.fd p fd = some f → (t.ino (t.file f).ip).type ≠ .dir := by
  have hfail : ∀ (x : Kprog Unit) (s' : Sys P), ((do
      x
      endOp
      pure (-1)) : Kprog Int).After (exec p) s'
      fun fd t => ∀ f, t.fd p fd = some f → (t.ino (t.file f).ip).type ≠ .dir := by
    intro x s'
    refine (Prog.After.trivial x s').bind fun _ s'' _ => ?_
    refine (Prog.After.trivial _ s'').bind fun _ t _ f hfd => ?_
    cases hfd
  unfold openFile
  simp only [Prog.after_bind, Prog.after_call]
  intro v s1 hread
  cases hread
  split
  · exact hfail _ s
  simp only [Prog.after_bind, Prog.after_call]
  intro r s1 halloc
  rcases exec_filealloc halloc with ⟨f, rfl, -, rfl⟩ | ⟨rfl, rfl⟩
  · simp only [Prog.after_bind, Prog.after_call]
    intro r s2 hfdalloc
    rcases exec_fdalloc hfdalloc with ⟨n, rfl, -, rfl⟩ | ⟨rfl, rfl⟩
    · intro _ s3 hinit
      -- the new file refers to the inode, whose type stays
      have hopen : s3.fd p n.val = some f ∧ (s3.file f).ip = i ∧ s3.ino = s.ino := by
        cases hinit
        refine ⟨?_, ?_, rfl⟩
        · rw [Sys.fd, dif_pos ⟨by omega, by simp⟩]
          simp [Sys.setFile]
        · by_cases hdev : (s.ino i).type = .device
          · simp [hdev]
          · simp [hdev]
      have hdone : ∀ s4 : Sys P, s4.fd p n.val = some f → (s4.file f).ip = i →
          (s4.ino i).type ≠ .dir → ((do
            iunlock i
            endOp
            pure (n.val : Int)) : Kprog Int).After (exec p) s4 fun fd t =>
              ∀ f, t.fd p fd = some f → (t.ino (t.file f).ip).type ≠ .dir := by
        intro s4 hfd hip htype _ s5 hunlock _ t hend f' hfd'
        obtain ⟨-, rfl⟩ := exec_iunlock hunlock
        cases hend
        obtain rfl := Option.some.inj (hfd.symm.trans hfd')
        exact hip.symm ▸ htype
      split
      · intro _ s4 hcut
        obtain ⟨room, -, rfl⟩ := exec_itrunc hcut
        exact hdone _ hopen.1 hopen.2.1 (by simpa [hopen.2.2] using hkind)
      · exact hdone s3 hopen.1 hopen.2.1 (by rwa [hopen.2.2])
    · exact (Prog.After.trivial _ _).bind fun _ s3 _ => hfail _ s3
  · exact hfail _ _

section Create

variable [Fintype P]

theorem createInode_gives_file (dp : Nat) (name : List UInt8) (major minor : Int16) (s : Sys P) :
    (createInode dp name .file major minor).After (exec p) s fun r t => ∀ ip, r = some ip →
      (t.ino ip).type = .file ∨ (t.ino ip).type = .device := by
  refine (ialloc_takes .file 0 s).bind fun r s1 h1 => ?_
  cases r with
  | none => exact (Prog.After.trivial _ s1).bind fun _ _ _ ip hip => by cases hip
  | some ip =>
    simp only [Prog.after_bind, Prog.after_call]
    intro _ s2 hlock _ s3 hinit
    -- from here on the new inode has a link, so it stays what it is
    have hino : (s3.ino ip).type = .file ∧ (s3.ino ip).nlink ≠ 0 := by
      obtain ⟨-, -, -, rfl⟩ := exec_ilock hlock
      cases hinit
      simp [h1.ino, blank]
    refine (createEntries_leaves (by simp) dp name ip 0 s3).mono fun b s4 h4 => ?_
    cases b with
    | false =>
      refine (Prog.After.trivial _ s4).bind fun _ s5 _ => ?_
      refine (Prog.After.trivial _ s5).bind fun _ s6 _ => ?_
      exact (Prog.After.trivial _ s6).bind fun _ _ _ ip hip => by cases hip
    | true =>
      refine (iunlockput_leaves dp 0 none none (by simp) s4).bind fun _ t ht => ?_
      intro ip' hip
      obtain rfl := Option.some.inj hip
      exact .inl ((((h4.ino ip).trans (ht.ino ip)).of_linked hino.2).1.trans hino.1)

theorem create_gives_file (path : List UInt8) (major minor : Int16) (s : Sys P) :
    (create path .file major minor).After (exec p) s fun r t => ∀ ip, r = some ip →
      (t.ino ip).type = .file ∨ (t.ino ip).type = .device := by
  refine (Prog.After.trivial _ s).bind fun r s1 _ => ?_
  cases r with
  | none => exact fun ip hip => by cases hip
  | some found =>
    obtain ⟨dp, name⟩ := found
    refine (Prog.After.trivial _ s1).bind fun _ s2 _ => ?_
    refine (Prog.After.trivial _ s2).bind fun r s3 _ => ?_
    cases r with
    | some found =>
      obtain ⟨ip, _⟩ := found
      refine (Prog.After.trivial _ s3).bind fun _ s4 _ => ?_
      refine (Prog.After.trivial _ s4).bind fun _ s5 _ => ?_
      simp only [Prog.after_bind, Prog.after_call]
      intro v s6 hread
      cases hread
      by_cases hkind : (s5.ino ip).type = .file ∨ (s5.ino ip).type = .device
      · rw [if_pos ⟨trivial, hkind⟩]
        intro ip' hip
        obtain rfl := Option.some.inj hip
        exact hkind
      · rw [if_neg fun h => hkind h.2, if_neg (by simp)]
        exact (Prog.After.trivial _ s5).bind fun _ _ _ ip hip => by cases hip
    | none => exact createInode_gives_file dp name major minor s3

theorem sysOpen_create (hcreate : has omode O_CREATE = true) (path : CStr) :
    NoWritableDir p ((sysOpen path omode).run (exec p) s) := by
  apply noWritableDir_of_after
  unfold sysOpen openInode
  rw [if_pos hcreate]
  refine (Prog.After.trivial _ s).bind fun _ s0 _ => ?_
  refine (create_gives_file path.bytes 0 0 s0).bind fun r s1 hgives => ?_
  cases r with
  | none =>
    refine (Prog.After.trivial _ s1).bind fun _ t _ f hfd => ?_
    cases hfd
  | some ip =>
    have hkind := hgives ip rfl
    have hlinks : (followLinks omode 9 ip).After (exec p) s1 fun r t => r = some ip ∧ t = s1 := by
      unfold followLinks
      simp only [Prog.after_bind, Prog.after_call]
      intro v s2 hread
      cases hread
      rw [if_neg (by rcases hkind with h | h <;> simp [h])]
      exact ⟨rfl, rfl⟩
    refine hlinks.bind fun r s2 h2 => ?_
    obtain ⟨rfl, rfl⟩ := h2
    exact openFile_keeps_kind (by rcases hkind with h | h <;> simp [h])

end Create

/-! ## `sys_open` -/

/-- The path leads through links, at least one and at most nine, to a directory that `sys_open` is
to open for writing. -/
def OpensDirThroughLinks (s : Sys P) (p : P) (path : CStr) (omode : UInt32) : Prop :=
  has omode O_CREATE = false ∧ has omode O_NOFOLLOW = false ∧
    (has omode O_WRONLY = true ∨ has omode O_RDWR = true) ∧
    (∃ k i, 1 ≤ k ∧ k ≤ 9 ∧ s.chain p path.bytes k = .ok (some i) ∧ (s.ino i).type = .dir) ∧
    s.findFile ≠ none ∧ s.findFd p ≠ none

-- The mode bits are part of `omode`, so a mode that has one is not `O_RDONLY`.
theorem ne_rdonly_of_has {flag : UInt32} (h : has omode flag = true) : omode ≠ O_RDONLY := by
  rintro rfl
  simp [has] at h

theorem sysOpen_nofollow_dir (hq : Quiet s p) (hcreate : has omode O_CREATE = false)
    (hnofollow : has omode O_NOFOLLOW = true) (path : CStr) :
    NoWritableDir p ((sysOpen path omode).run (exec p) s) := by
  have hstart := sysOpen_starts hq hcreate path
  match hzero : s.chain p path.bytes 0 with
  | .error e =>
    rw [hzero] at hstart
    rw [hstart]
    exact fun _ _ _ => nofun
  | .ok none =>
    rw [hzero] at hstart
    exact FailsCleanly.noWritableDir hstart
  | .ok (some i) =>
    simp only [hzero] at hstart
    by_cases hdir : (s.ino i).type = .dir
    · exact FailsCleanly.noWritableDir (hstart.1 ⟨hdir, ne_rdonly_of_has hnofollow⟩)
    · rw [(sysOpen_nofollow hq hcreate hnofollow path hzero (by simp [hdir])).noWritableDir_iff]
      simp [hdir]

/-- `linkedDisk` with an empty directory in place of the file: the link `l` leads to it. -/
def linkedDirDisk : Sys Unit :=
  { linkedDisk with ino := Function.update linkedDisk.ino 2 ⟨.dir, 0, 0, 1,
      (direntFor dot 2).encode ++ (direntFor dotdot ROOTINO).encode⟩ }

/-- The link is followed to the directory, which is opened for reading and writing. -/
theorem sysOpen_writable_dir : ¬ NoWritableDir ()
    ((sysOpen ⟨[108], by decide, by decide⟩ O_RDWR).run (exec ()) linkedDirDisk) := by
  intro h
  have hopen : ∃ t, (sysOpen ⟨[108], by decide, by decide⟩ O_RDWR).run (exec ()) linkedDirDisk =
      .ok (0, t) ∧ t.fd () 0 = some 0 ∧ (t.file 0).writable = true ∧
      (t.ino (t.file 0).ip).type = .dir := ⟨_, rfl, rfl, rfl, rfl⟩
  obtain ⟨t, hrun, hfd, hwritable, hdir⟩ := hopen
  exact h 0 t 0 hrun hfd hwritable hdir

/-- Run alone, `sys_open` hands out write access to a directory just when the path leads to it
through links and the mode asks for it. -/
theorem sysOpen_noWritableDir_iff [Fintype P] (hq : Quiet s p) (path : CStr) (omode : UInt32) :
    NoWritableDir p ((sysOpen path omode).run (exec p) s) ↔
      ¬ OpensDirThroughLinks s p path omode := by
  cases hcreate : has omode O_CREATE with
  | true =>
    exact iff_of_true (sysOpen_create hcreate path) (by simp [OpensDirThroughLinks, hcreate])
  | false =>
    cases hfollow : has omode O_NOFOLLOW with
    | true =>
      exact iff_of_true (sysOpen_nofollow_dir hq hcreate hfollow path)
        (by simp [OpensDirThroughLinks, hfollow])
    | false =>
      by_cases hfound : ∃ k ≤ 9, ∃ i, s.chain p path.bytes k = .ok (some i) ∧
          (s.ino i).type ≠ .symlink
      · obtain ⟨k, hk, i, hi, hne⟩ := hfound
        have hend := sysOpen_found hq hcreate hfollow path hk hi hne
        by_cases hbad : k = 0 ∧ (s.ino i).type = .dir ∧ omode ≠ O_RDONLY
        · refine iff_of_true (hend.1 hbad).noWritableDir ?_
          rintro ⟨-, -, -, ⟨m, j, hm, -, hj, hdir⟩, -⟩
          have hsame := Sys.chain_unique hi hne hj (by simp [hdir])
          omega
        · rw [(hend.2 hbad).noWritableDir_iff]
          apply not_congr
          constructor
          · rintro ⟨hdir, hmode, hfree⟩
            refine ⟨hcreate, hfollow, hmode, ⟨k, i, ?_, hk, hi, hdir⟩, hfree⟩
            by_contra hzero
            exact hbad ⟨by omega, hdir, hmode.elim ne_rdonly_of_has ne_rdonly_of_has⟩
          · rintro ⟨-, -, hmode, ⟨m, j, -, -, hj, hdir⟩, hfree⟩
            obtain ⟨-, rfl⟩ := Sys.chain_unique hi hne hj (by simp [hdir])
            exact ⟨hdir, hmode, hfree⟩
      · have hno : ¬ OpensDirThroughLinks s p path omode := by
          rintro ⟨-, -, -, ⟨k, i, -, hk, hi, hdir⟩, -⟩
          exact hfound ⟨k, hk, i, hi, by simp [hdir]⟩
        refine iff_of_true ?_ hno
        by_cases hstop : ∃ k ≤ 9, ∃ e, s.chain p path.bytes k = .error e
        · obtain ⟨k, hk, e, he⟩ := hstop
          rw [sysOpen_stops hq hcreate hfollow path hk he]
          exact fun _ _ _ => nofun
        · apply FailsCleanly.noWritableDir
          apply sysOpen_missing hq hcreate hfollow path
          · intro k hk i hi
            by_contra hne
            exact hfound ⟨k, hk, i, hi, hne⟩
          · intro k hk e he
            exact hstop ⟨k, hk, e, he⟩

/-- The link is followed to a file, which is opened for reading and writing. -/
theorem sysOpen_noWritableDir_linkedFile :
    (∃ t, (sysOpen ⟨[108], by decide, by decide⟩ O_RDWR).run (exec ()) linkedDisk = .ok (0, t) ∧
      t.fd () 0 = some 0 ∧ (t.file 0).writable = true) ∧
    NoWritableDir () ((sysOpen ⟨[108], by decide, by decide⟩ O_RDWR).run (exec ()) linkedDisk) := by
  refine ⟨⟨_, rfl, rfl, rfl⟩,
    (sysOpen_noWritableDir_iff linkedDisk_quiet ⟨[108], by decide, by decide⟩ O_RDWR).mpr ?_⟩
  rintro ⟨-, -, -, ⟨k, i, -, -, hi, hdir⟩, -⟩
  have hfile : linkedDisk.chain () [108] 1 = .ok (some 2) := rfl
  obtain ⟨-, rfl⟩ := Sys.chain_unique hfile (by decide) hi (by simp [hdir])
  exact absurd hdir (by decide)

end OsProjects.Kernel.Vfs
