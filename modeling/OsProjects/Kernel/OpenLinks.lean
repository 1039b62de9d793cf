import OsProjects.Kernel.Resolve

/-!
# OpenLinks — `sys_open` and chains of symbolic links

The chain of a path is the inode it names, then the inode that link names, and so on.  Run alone,
`sys_open` opens the first inode of the chain that is no link, if at most nine links come before it.
-/

namespace OsProjects.Kernel.Vfs

open Lib Function Nat
open Prog (run_bind_error run_bind_ok run_call run_call_error run_call_ok)

variable {P : Type}

/-! ## Records -/

/-- The content begins with what `sys_symlink` writes for `target`; it is longer where a longer
record was there before. -/
structure IsRecord (data target : List UInt8) : Prop where
  start : linkRecord target <+: data
  noNul : 0 ∉ target
  short : target.length < MAXPATH

-- The two calls of `readi` in `sys_open` get the length and the whole of the string.
theorem IsRecord.reads {data target : List UInt8} (h : IsRecord data target) :
    FlatArray.read data 0 4 = leBytes 4 target.length ∧
      FlatArray.read data 4 (target.length + 1) = target ++ [0] := by
  obtain ⟨rest, rfl⟩ := h.start
  have hlen := length_leBytes 4 target.length
  constructor
  · rw [FlatArray.read, linkRecord, List.drop_zero, List.append_assoc, List.take_left' hlen]
  · rw [FlatArray.read, linkRecord, List.append_assoc, List.drop_left' hlen,
      List.take_left' (by simp)]

theorem IsRecord.length_le {data target : List UInt8} (h : IsRecord data target) :
    4 + target.length + 1 ≤ data.length := by
  obtain ⟨rest, rfl⟩ := h.start
  rw [List.length_append, linkRecord, List.length_append, List.length_append, length_leBytes,
    List.length_singleton]
  omega

theorem intValue_leBytes {n : Nat} (h : n < 2 ^ 31) : intValue (leBytes 4 n) = n := by
  have hmod : n % 256 ^ 4 = n := mod_eq_of_lt (by omega)
  rw [intValue, leValue_leBytes, hmod, if_pos h]

theorem linkTarget_of_record {data target : List UInt8} (h : IsRecord data target) :
    linkTarget data = some target := by
  have hshort := h.short
  simp only [MAXPATH] at hshort
  have hlen := h.length_le
  obtain ⟨hfirst, hsecond⟩ := h.reads
  have hvalue : intValue (leBytes 4 target.length) = target.length := intValue_leBytes (by omega)
  have htake : (target ++ [0]).takeWhile (· != 0) = target := by
    have hne : ∀ c ∈ target, (c != 0) = true := by
      intro c hc
      rw [bne_iff_ne]
      rintro rfl
      exact h.noNul hc
    rw [List.takeWhile_append_of_pos hne]
    simp
  unfold linkTarget
  rw [hfirst, hvalue]
  simp only [Int.toNat_natCast]
  rw [hsecond, if_pos, htake]
  exact ⟨by omega, Int.natCast_nonneg _, by simp only [PGSIZE]; omega, by simp⟩

/-! ## Chains -/

/-- The `k`-th inode of the chain: an error where the kernel stops, `none` where it has ended. -/
def Sys.chain (s : Sys P) (p : P) (path : List UInt8) : Nat → Except Stop (Option Nat)
  | 0 => s.locate p path
  | k + 1 =>
    match s.chain p path k with
    | .ok (some i) =>
      if (s.ino i).type = .symlink then
        match linkTarget (s.ino i).data with
        | some target => s.locate p target
        | none => .error .undefined
      else .ok none
    | r => r

/-- Where the loop of `sys_open` arrives from `i` in at most `n` hops. -/
def Sys.follow (s : Sys P) (p : P) : Nat → Nat → Except Stop (Option Nat)
  | 0, i => if (s.ino i).type = .symlink then .ok none else .ok (some i)
  | n + 1, i =>
    if (s.ino i).type = .symlink then
      match linkTarget (s.ino i).data with
      | some target =>
        match s.locate p target with
        | .ok (some j) => s.follow p n j
        | r => r
      | none => .error .undefined
    else .ok (some i)

variable {s t : Sys P} {p : P} {path : List UInt8} {r : Except Stop (Option Nat)} {i k : Nat}

theorem Sys.chain_stays (h : s.chain p path k = r)
    (hr : ∀ i, r ≠ .ok (some i)) (m : Nat) : s.chain p path (k + m) = r := by
  induction m with
  | zero => exact h
  | succ m ih =>
    rw [← add_assoc, chain, ih]
    match r with
    | .error _ | .ok none => rfl
    | .ok (some i) => exact absurd rfl (hr i)

theorem Sys.chain_zero_eq (h : s.chain p path k = .ok (some i)) :
    ∃ j, s.chain p path 0 = .ok (some j) := by
  match hzero : s.chain p path 0 with
  | .ok (some j) => exact ⟨j, rfl⟩
  | .ok none | .error e =>
    rw [← zero_add k, chain_stays hzero nofun] at h
    cases h

-- Behind an inode that is no link the chain ends.
theorem Sys.chain_ends {m : Nat} (h : s.chain p path k = .ok (some i))
    (hne : (s.ino i).type ≠ .symlink) (hm : k < m) : s.chain p path m = .ok none := by
  have hnext : s.chain p path (k + 1) = .ok none := by
    rw [chain, h]
    exact if_neg hne
  obtain ⟨n, rfl⟩ := Nat.exists_eq_add_of_lt hm
  rw [Nat.add_right_comm]
  exact chain_stays hnext nofun n

theorem Sys.chain_unique {m j : Nat} (hi : s.chain p path k = .ok (some i))
    (hne : (s.ino i).type ≠ .symlink) (hj : s.chain p path m = .ok (some j))
    (hne' : (s.ino j).type ≠ .symlink) : k = m ∧ i = j := by
  rcases lt_trichotomy k m with hlt | rfl | hgt
  · rw [chain_ends hi hne hlt] at hj
    cases hj
  · rw [hi] at hj
    exact ⟨rfl, Option.some.inj (Except.ok.inj hj)⟩
  · rw [chain_ends hj hne' hgt] at hi
    cases hi

/-- A verdict on the chain from its `k`-th inode on, looking `n` hops ahead: it is the first inode
that is no link; or there is none, and the chain breaks off; or the kernel stops on the way. -/
structure Verdict (s : Sys P) (p : P) (path : List UInt8) (k n : Nat)
    (r : Except Stop (Option Nat)) : Prop where
  found : ∀ m ≤ n, ∀ j, s.chain p path (k + m) = .ok (some j) → (s.ino j).type ≠ .symlink →
    r = .ok (some j)
  missing : (∀ m ≤ n, ∀ j, s.chain p path (k + m) = .ok (some j) → (s.ino j).type = .symlink) →
    (∀ m ≤ n, ∀ e, s.chain p path (k + m) ≠ .error e) → r = .ok none
  stops : ∀ m ≤ n, ∀ e, s.chain p path (k + m) = .error e → r = .error e

section Verdict

variable {n : Nat}

theorem Verdict.ended (h : s.chain p path k = r) (hr : ∀ j, r ≠ .ok (some j)) :
    Verdict s p path k n r := by
  have hstay := Sys.chain_stays h hr
  refine ⟨fun m _ j hj _ => ?_, fun _ hno => ?_, fun m _ e he => ?_⟩
  · rw [← hstay m, hj]
  · match r with
    | .error e => exact absurd h (hno 0 (Nat.zero_le n) e)
    | .ok none => rfl
    | .ok (some j) => exact absurd rfl (hr j)
  · rw [← hstay m, he]

variable (hi : s.chain p path k = .ok (some i))
include hi

theorem Verdict.here (hne : (s.ino i).type ≠ .symlink) : Verdict s p path k n (.ok (some i)) := by
  have hends : ∀ m ≠ 0, s.chain p path (k + m) = .ok none :=
    fun m hm => Sys.chain_ends hi hne (by omega)
  refine ⟨fun m _ j hj _ => ?_, fun hall _ => absurd (hall 0 (Nat.zero_le n) i hi) hne,
    fun m _ e he => ?_⟩
  · by_cases hm : m = 0
    · rw [← hj, hm, add_zero, hi]
    · rw [hends m hm] at hj
      cases hj
  · by_cases hm : m = 0
    · rw [hm, add_zero, hi] at he
      cases he
    · rw [hends m hm] at he
      cases he

-- Behind a link there is one hop less to go.
theorem Verdict.step (hlink : (s.ino i).type = .symlink) (h : Verdict s p path (k + 1) n r) :
    Verdict s p path k (n + 1) r := by
  have hshift : ∀ m, s.chain p path (k + (m + 1)) = s.chain p path (k + 1 + m) := fun m => by
    rw [add_right_comm, add_assoc]
  refine ⟨fun m hm j hj hne => ?_, fun hall hno => ?_, fun m hm e he => ?_⟩
  · cases m with
    | zero =>
      rw [add_zero, hi] at hj
      cases hj
      exact absurd hlink hne
    | succ m => exact h.found m (by omega) j ((hshift m).symm.trans hj) hne
  · exact h.missing (fun m hm j hj => hall (m + 1) (by omega) j ((hshift m).trans hj))
      fun m hm e he => hno (m + 1) (by omega) e ((hshift m).trans he)
  · cases m with
    | zero =>
      rw [add_zero, hi] at he
      cases he
    | succ m => exact h.stops m (by omega) e ((hshift m).symm.trans he)

theorem Sys.follow_verdict (n : Nat) : Verdict s p path k n (s.follow p n i) := by
  induction n generalizing k i with
  | zero =>
    unfold follow
    split
    next hlink =>
      refine ⟨fun m hm j hj hne => ?_, fun _ _ => rfl, fun m hm e he => ?_⟩
      all_goals obtain rfl := le_zero.mp hm
      · rw [add_zero, hi] at hj
        cases hj
        exact absurd hlink hne
      · rw [add_zero, hi] at he
        cases he
    next hne => exact .here hi hne
  | succ n ih =>
    rw [follow]
    split
    next hlink =>
      have hnext : s.chain p path (k + 1) = match linkTarget (s.ino i).data with
          | some target => s.locate p target
          | none => .error .undefined := by
        rw [chain, hi]
        exact if_pos hlink
      refine .step hi hlink ?_
      cases htarget : linkTarget (s.ino i).data with
      | none =>
        rw [htarget] at hnext
        exact .ended hnext nofun
      | some target =>
        rw [htarget] at hnext
        simp only at hnext ⊢
        match hloc : s.locate p target with
        | .error e | .ok none => exact .ended (hnext.trans hloc) nofun
        | .ok (some j) => exact ih (hnext.trans hloc)
    next hne => exact .here hi hne

end Verdict

variable [DecidableEq P] {m : Multiset Nat} {omode : UInt32} {k : Option Nat} {f : Fin NFILE}

/-! ## The loop of `sys_open` -/

-- `namei`, and `ilock` of what it has found.
theorem locate_ends (hq : Quiet s p) (h : Held s p 0 none t) (path : List UInt8) :
    match s.locate p path with
    | .error stop => (namei path).run (exec p) t = .error stop ∨
      ∃ i t', (namei path).run (exec p) t = .ok (some i, t') ∧ exec p (.ilock i) t' = .error stop
    | .ok none => ∃ t', (namei path).run (exec p) t = .ok (none, t') ∧ Held s p 0 none t'
    | .ok (some i) => ∃ t' t'', (namei path).run (exec p) t = .ok (some i, t') ∧
      exec p (.ilock i) t' = .ok ((), t'') ∧ Held s p {i} (some i) t'' := by
  have hends := namei_ends hq h path
  unfold Sys.locate
  match hres : s.resolve p path with
  | .error stop =>
    rw [hres] at hends
    exact .inl hends
  | .ok none =>
    rwa [hres] at hends
  | .ok (some i) =>
    rw [hres] at hends
    obtain ⟨x, t', rfl, hrun, h'⟩ := hends
    simp only [id_eq] at h' ⊢
    have hpos : 0 < (t'.mem x).ref := by
      rw [h'.ref, Multiset.count_singleton_self]
      omega
    cases hread : s.unreadable x with
    | some stop => exact .inr ⟨x, t', hrun, h'.ilock_stops hpos hread⟩
    | none =>
      obtain ⟨t'', hlock, h''⟩ := h'.ilock hpos hread
      exact ⟨t', t'', hrun, hlock, h''⟩

theorem followLinks_ends (hq : Quiet s p) (hfollow : has omode O_NOFOLLOW = false)
    (n : Nat) (h : Held s p {i} (some i) t) :
    Ends s p id some (s.follow p n i) ((followLinks omode n i).run (exec p) t) := by
  induction n generalizing i t with
  | zero =>
    unfold followLinks Sys.follow
    rw [run_call_ok _ h.inode]
    by_cases hlink : (s.ino i).type = .symlink
    · have hprint : Held s p {i} (some i) { t with
          console := "symbolic link is a loop" :: t.console } :=
        ⟨h.alike.table _ _ _ _, h.ref, h.lock, h.inUse, h.valid⟩
      obtain ⟨t', hput, h'⟩ := Held.iunlockput (m := 0) hq hprint
      rw [if_pos hlink, if_pos hlink]
      refine ⟨t', ?_, h'⟩
      rw [run_bind_ok _ (run_call _ _ _), run_bind_ok _ hput]
      rfl
    · rw [if_neg hlink, if_neg hlink]
      exact ⟨i, t, rfl, rfl, h⟩
  | succ n ih =>
    unfold followLinks Sys.follow
    rw [run_call_ok _ h.inode]
    by_cases hlink : (s.ino i).type = .symlink
    · rw [if_pos hlink, if_pos hlink, if_neg (by simp [hfollow])]
      cases htarget : linkTarget (s.ino i).data with
      | none => rfl
      | some target =>
        obtain ⟨t1, hput, h1⟩ := Held.iunlockput (m := 0) hq h
        simp only
        rw [run_bind_ok _ hput]
        have hlocate := locate_ends hq h1 target
        match hloc : s.locate p target with
        | .error stop =>
          rw [hloc] at hlocate
          rcases hlocate with hnamei | ⟨j, t2, hnamei, hlock⟩
          · exact run_bind_error _ hnamei
          · exact (run_bind_ok _ hnamei).trans
              (run_call_error _ hlock)
        | .ok none =>
          rw [hloc] at hlocate
          obtain ⟨t2, hnamei, h2⟩ := hlocate
          exact ⟨t2, run_bind_ok _ hnamei, h2⟩
        | .ok (some j) =>
          rw [hloc] at hlocate
          obtain ⟨t2, t3, hnamei, hlock, h3⟩ := hlocate
          rw [run_bind_ok _ hnamei]
          rw [run_call_ok _ hlock]
          exact ih h3
    · rw [if_neg hlink, if_neg hlink]
      exact ⟨i, t, rfl, rfl, h⟩

/-! ## The end of `sys_open` -/

/-- What `itrunc` makes of the blocks. -/
def Sys.cut (s : Sys P) (i : Nat) : Option Room := s.room.truncate i (s.ino i).data.length

/-- The truncation that goes with `O_TRUNC` panics. -/
def Sys.CutPanics (s : Sys P) (omode : UInt32) (i : Nat) : Prop :=
  (has omode O_TRUNC = true ∧ (s.ino i).type = .file) ∧ (s.cut i).isNone

instance (s : Sys P) (omode : UInt32) (i : Nat) : Decidable (s.CutPanics omode i) :=
  inferInstanceAs (Decidable (_ ∧ _))

/-- The state with inode `i` open as file `f`, descriptor `n`. -/
def Sys.opened (s : Sys P) (p : P) (i : Nat) (omode : UInt32) (f : Fin NFILE) (n : Fin NOFILE) :
    Sys P :=
  { s with
    ino := if has omode O_TRUNC = true ∧ (s.ino i).type = .file then
        update s.ino i { s.ino i with data := [] }
      else s.ino
    room := if has omode O_TRUNC = true ∧ (s.ino i).type = .file then (s.cut i).getD s.room
      else s.room
    file := update s.file f
      { s.file f with
        ref := 1
        type := if (s.ino i).type = .device then .device else .inode
        major := if (s.ino i).type = .device then (s.ino i).major else (s.file f).major
        off := if (s.ino i).type = .device then (s.file f).off else 0
        ip := i
        readable := !has omode O_WRONLY
        writable := has omode O_WRONLY || has omode O_RDWR }
    proc := update s.proc p
      { s.proc p with ofile := update (s.proc p).ofile n (some f) } }

/-- `run` fails and leaves the state as it was. -/
def FailsCleanly (s : Sys P) (p : P) (run : Except Stop (Int × Sys P)) : Prop :=
  ∃ t, run = .ok (-1, t) ∧ Held s p 0 none t

/-- `run` opens `i`, or fails because of the device number or for want of a file or a descriptor, or
panics in the truncation. -/
structure Opens (s : Sys P) (p : P) (omode : UInt32) (i : Nat) (run : Except Stop (Int × Sys P)) :
    Prop where
  fails : BadDevice (s.ino i) ∨ s.findFile = none ∨ s.findFd p = none → FailsCleanly s p run
  opens : ∀ f n, ¬ BadDevice (s.ino i) → s.findFile = some f → s.findFd p = some n →
    if s.CutPanics omode i then run = .error (.panic "freeing free block")
    else ∃ t, run = .ok (n.val, t) ∧ Held (s.opened p i omode f n) p {i} none t

omit [DecidableEq P] in
theorem Sys.findFile_some (h : s.findFile = some f) : (s.file f).ref = 0 := by
  simpa using List.find?_some h

-- The file that was allocated in vain is closed again: it was of no type, and is so again.
theorem Held.fileclose (hq : Quiet s p) (h : Held s p m k t) (hf : s.findFile = some f) :
    ∃ t', (fileclose f).run (exec p) (t.setFile f { t.file f with ref := 1 }) = .ok ((), t') ∧
      Held s p m k t' := by
  have href := Sys.findFile_some hf
  have htype := hq.files f href
  rw [← h.alike.file] at href htype
  have hdrop : exec p (.dropFile f) (t.setFile f { t.file f with ref := 1 }) =
      .ok (some ((t.file f).type, (t.file f).ip), (t.setFile f { t.file f with ref := 1 }).setFile f
        { t.file f with ref := 0, type := .none }) := by
    simp [exec]
  refine ⟨(t.setFile f { t.file f with ref := 1 }).setFile f
    { t.file f with ref := 0, type := .none },
    ?_, ⟨h.alike.ninodes, h.alike.ino, ?_, h.alike.proc, h.alike.room, h.alike.born, h.alike.stamp,
    h.alike.clock⟩, h.ref, h.lock, h.inUse, h.valid⟩
  · rw [Vfs.fileclose, run_call_ok _ hdrop, htype]
    rfl
  · rw [← h.alike.file]
    funext g
    by_cases hg : g = f
    · simp only [Sys.setFile_file, hg, if_true]
      rw [← href, ← htype]
    · simp only [Sys.setFile_file, hg, if_false]

-- Truncating leaves the type.
theorem Sys.opened_type (s : Sys P) (p : P) (i : Nat) (omode : UInt32) (f : Fin NFILE)
    (n : Fin NOFILE) (j : Nat) : ((s.opened p i omode f n).ino j).type = (s.ino j).type := by
  unfold opened
  by_cases htrunc : has omode O_TRUNC = true ∧ (s.ino i).type = .file
  · by_cases hj : j = i
    · simp [htrunc, hj]
    · simp [htrunc, hj]
  · simp [htrunc]

theorem Held.opened (h : Held s p m k t) (i : Nat) (omode : UInt32) (f : Fin NFILE)
    (n : Fin NOFILE) : Held (s.opened p i omode f n) p m k (t.opened p i omode f n) := by
  refine ⟨⟨h.alike.ninodes, ?_, ?_, ?_, ?_, h.alike.born, h.alike.stamp, h.alike.clock⟩,
    h.ref, h.lock, h.inUse, fun j hpos hvalid => ?_⟩
  · simp only [Sys.opened, h.alike.ino]
  · simp only [Sys.opened, h.alike.ino, h.alike.file]
  · simp only [Sys.opened, h.alike.proc]
  · simp only [Sys.opened, Sys.cut, h.alike.ino, h.alike.room]
  · rw [Sys.unreadable, Sys.opened_type]
    exact h.valid j hpos hvalid

-- Filling in the file and truncating the inode, after `filealloc` and `fdalloc`.
theorem fileInit_opened (i : Nat) (omode : UInt32) (f : Fin NFILE) (n : Fin NOFILE) : ((do
      fileInit f (if (t.ino i).type = .device then some (t.ino i).major else none) i
        (!has omode O_WRONLY) (has omode O_WRONLY || has omode O_RDWR)
      (if has omode O_TRUNC = true ∧ (t.ino i).type = .file then itrunc i else pure ())) :
      Kprog Unit).run (exec p) ((t.setFile f { t.file f with ref := 1 }).setProc p
        { t.proc p with ofile := update (t.proc p).ofile n (some f) }) =
      if t.CutPanics omode i then .error (.panic "freeing free block")
      else .ok ((), t.opened p i omode f n) := by
  rw [run_bind_ok _ (run_call _ _ _)]
  split
  next htrunc =>
    have hroom : t.room.truncate i (t.ino i).data.length = t.cut i := rfl
    rw [run_call]
    cases hcut : t.cut i with
    | none =>
      have hpanics : t.CutPanics omode i := ⟨htrunc, by rw [hcut]; rfl⟩
      rw [if_pos hpanics]
      simp only [exec, Sys.setFile, Sys.setProc, hroom, hcut]
    | some room =>
      have hnot : ¬ t.CutPanics omode i := by
        rintro ⟨-, hnone⟩
        rw [hcut] at hnone
        cases hnone
      rw [if_neg hnot]
      simp only [exec, Sys.opened, Sys.setIno, Sys.setFile, Sys.setProc, htrunc, if_false, and_self,
        hroom, hcut, update_idem, update_self, if_true, Option.getD_some, reduceCtorEq]
  next htrunc =>
    have hnot : ¬ t.CutPanics omode i := fun hpanic => htrunc hpanic.1
    rw [Prog.run_pure, if_neg hnot]
    by_cases hdev : (t.ino i).type = .device
    · simp only [Sys.opened, Sys.setFile, Sys.setProc, hdev, if_true, update_idem,
        update_self, if_false, reduceCtorEq, and_false]
    · simp only [Sys.opened, Sys.setFile, Sys.setProc, htrunc, hdev, update_idem,
        update_self, if_false]

theorem openFile_opens (hq : Quiet s p) (h : Held s p {i} (some i) t) :
    Opens s p omode i ((openFile omode i).run (exec p) t) := by
  have hread := (run_call (exec p) (.inode i) t).trans h.inode
  have hfail : ∃ t', ((do iunlockput i; endOp; pure (-1)) : Kprog Int).run (exec p) t =
      .ok (-1, t') ∧ Held s p 0 none t' := by
    obtain ⟨t', hput, h'⟩ := Held.iunlockput (m := 0) hq h
    exact ⟨_, run_bind_ok _ hput, h'.ops _⟩
  unfold openFile
  rw [run_bind_ok _ hread]
  split
  next hbad =>
    exact ⟨fun _ => hfail, fun _ _ hgood => absurd hbad hgood⟩
  rename_i hbad
  have hfind : t.findFile = s.findFile := by simp only [Sys.findFile, h.alike.file]
  cases hf : s.findFile with
  | none =>
    have halloc : exec p .filealloc t = .ok (none, t) := by simp only [exec, hfind, hf]
    refine ⟨fun _ => ?_, fun f n _ hsome => by rw [hf] at hsome; cases hsome⟩
    rwa [run_call_ok _ halloc]
  | some f =>
    have halloc : exec p .filealloc t = .ok (some f, t.setFile f { t.file f with ref := 1 }) := by
      simp only [exec, hfind, hf]
    rw [run_call_ok _ halloc]
    have hfd : (t.setFile f { t.file f with ref := 1 }).findFd p = s.findFd p := by
      simp only [Sys.findFd, Sys.setFile, h.alike.proc]
    cases hn : s.findFd p with
    | none =>
      have hfdalloc : exec p (.fdalloc f) (t.setFile f { t.file f with ref := 1 }) =
          .ok (none, t.setFile f { t.file f with ref := 1 }) := by simp only [exec, hfd, hn]
      obtain ⟨t1, hclose, h1⟩ := h.fileclose hq hf
      obtain ⟨t2, hput, h2⟩ := Held.iunlockput (m := 0) hq h1
      refine ⟨fun _ => ⟨_, ?_, h2.ops (t2.outstanding - 1)⟩, fun _ n _ _ hsome => by
        rw [hn] at hsome; cases hsome⟩
      rw [run_call_ok _ hfdalloc, run_bind_ok _ hclose,
        run_bind_ok _ hput]
      rfl
    | some n =>
      have hfdalloc : exec p (.fdalloc f) (t.setFile f { t.file f with ref := 1 }) =
          .ok (some n, (t.setFile f { t.file f with ref := 1 }).setProc p
            { t.proc p with ofile := update (t.proc p).ofile n (some f) }) := by
        simp only [exec, hfd, hn]
        rfl
      have hinit := fileInit_opened (t := t) (p := p) i omode f n
      obtain ⟨t1, hunlock, h1⟩ := (h.opened i omode f n).iunlock (by
        rw [(h.opened i omode f n).ref, Multiset.count_singleton_self]
        omega)
      refine ⟨fun hnone => ?_, fun f' n' _ hf' hn' => ?_⟩
      · rcases hnone with hdev | hnone | hnone
        · exact absurd hdev hbad
        · rw [hf] at hnone
          cases hnone
        · rw [hn] at hnone
          cases hnone
      · obtain rfl := Option.some.inj (hf.symm.trans hf')
        obtain rfl := Option.some.inj (hn.symm.trans hn')
        have hpanics : t.CutPanics omode i ↔ s.CutPanics omode i := by
          simp only [Sys.CutPanics, Sys.cut, h.alike.ino, h.alike.room]
        rw [run_call_ok _ hfdalloc]
        simp only [← h.alike.ino]
        rw [← bind_assoc]
        split
        next hpanic => exact run_bind_error _ (hinit.trans (if_pos (hpanics.mpr hpanic)))
        next hno =>
          refine ⟨_, ?_, h1.ops (t1.outstanding - 1)⟩
          rw [run_bind_ok _ (hinit.trans (if_neg (hno ∘ hpanics.mp))), run_call_ok _ hunlock]
          rfl

/-! ## `sys_open` -/

variable {omode : UInt32}

-- The first inode of the chain, and what is left to do with it.
theorem sysOpen_starts (hq : Quiet s p) (hcreate : has omode O_CREATE = false) (path : CStr) :
    match s.chain p path.bytes 0 with
    | .error stop => (sysOpen path omode).run (exec p) s = .error stop
    | .ok none => FailsCleanly s p ((sysOpen path omode).run (exec p) s)
    | .ok (some i) =>
      ((s.ino i).type = .dir ∧ omode ≠ O_RDONLY →
        FailsCleanly s p ((sysOpen path omode).run (exec p) s)) ∧
      (¬ ((s.ino i).type = .dir ∧ omode ≠ O_RDONLY) → ∃ t, Held s p {i} (some i) t ∧
        (sysOpen path omode).run (exec p) s = (do
          match ← followLinks omode 9 i with
          | none => do
            endOp
            pure (-1)
          | some ip => openFile omode ip : Kprog Int).run (exec p) t) := by
  have hlocate := locate_ends hq (hq.held.ops (s.outstanding + 1)) path.bytes
  have hopen : openInode path.bytes omode = (do
      match ← namei path.bytes with
      | none => pure none
      | some ip => do
        ilock ip
        let v ← inode ip
        if v.type = .dir ∧ omode ≠ O_RDONLY then do
          iunlockput ip
          pure none
        else pure (some ip) : Kprog (Option Nat)) := by
    rw [openInode, hcreate]
    rfl
  have hbegin := run_call (exec p) .beginOp s
  rw [Sys.chain, sysOpen, hopen, run_bind_ok _ hbegin]
  match hloc : s.locate p path.bytes with
  | .error stop =>
    rw [hloc] at hlocate
    apply run_bind_error
    rcases hlocate with hnamei | ⟨i, t, hnamei, hlock⟩
    · exact run_bind_error _ hnamei
    · exact (run_bind_ok _ hnamei).trans
        (run_call_error _ hlock)
  | .ok none =>
    rw [hloc] at hlocate
    obtain ⟨t, hnamei, h⟩ := hlocate
    refine ⟨_, ?_, h.ops (t.outstanding - 1)⟩
    rw [bind_assoc, run_bind_ok _ hnamei]
    rfl
  | .ok (some i) =>
    rw [hloc] at hlocate
    obtain ⟨t1, t2, hnamei, hlock, h2⟩ := hlocate
    have hread := (run_call (exec p) (.inode i) t2).trans h2.inode
    simp only [bind_assoc]
    rw [run_bind_ok _ hnamei]
    simp only [bind_assoc]
    rw [run_call_ok _ hlock, run_bind_ok _ hread]
    refine ⟨fun hdir => ?_, fun hdir => ⟨t2, h2, ?_⟩⟩
    · obtain ⟨t3, hput, h3⟩ := Held.iunlockput (m := 0) hq h2
      refine ⟨_, ?_, h3.ops (t3.outstanding - 1)⟩
      rw [if_pos hdir, bind_assoc, run_bind_ok _ hput]
      rfl
    · rw [if_neg hdir]
      rfl

section Chain

variable {k i : Nat} (hq : Quiet s p) (hcreate : has omode O_CREATE = false)
  (hfollow : has omode O_NOFOLLOW = false) (path : CStr)
include hq hcreate hfollow

theorem sysOpen_found (hk : k ≤ 9)
    (hi : s.chain p path.bytes k = .ok (some i)) (hne : (s.ino i).type ≠ .symlink) :
    (k = 0 ∧ (s.ino i).type = .dir ∧ omode ≠ O_RDONLY →
      FailsCleanly s p ((sysOpen path omode).run (exec p) s)) ∧
    (¬ (k = 0 ∧ (s.ino i).type = .dir ∧ omode ≠ O_RDONLY) →
      Opens s p omode i ((sysOpen path omode).run (exec p) s)) := by
  obtain ⟨i0, hzero⟩ := Sys.chain_zero_eq hi
  have hstart := sysOpen_starts hq hcreate path
  simp only [hzero] at hstart
  by_cases hdir : (s.ino i0).type = .dir ∧ omode ≠ O_RDONLY
  · -- a directory is no link, so it is the end of the chain
    have hk0 : k = 0 := by
      by_contra hpos
      rw [Sys.chain_ends hzero (by simp [hdir.1]) (pos_of_ne_zero hpos)] at hi
      cases hi
    subst hk0
    obtain rfl := Option.some.inj (Except.ok.inj (hzero.symm.trans hi))
    exact ⟨fun _ => hstart.1 hdir, fun hnot => absurd ⟨rfl, hdir⟩ hnot⟩
  · obtain ⟨t, h, hrun⟩ := hstart.2 hdir
    have hends := followLinks_ends hq hfollow 9 h
    rw [(Sys.follow_verdict hzero 9).found k hk i (by rwa [zero_add]) hne] at hends
    obtain ⟨x, t', rfl, hlinks, h'⟩ := hends
    refine ⟨fun hbad => ?_, fun _ => ?_⟩
    · obtain ⟨rfl, hbad⟩ := hbad
      obtain rfl := Option.some.inj (Except.ok.inj (hzero.symm.trans hi))
      exact absurd hbad hdir
    · rw [hrun, run_bind_ok _ hlinks]
      exact openFile_opens hq h'

theorem sysOpen_missing
    (hall : ∀ k ≤ 9, ∀ i, s.chain p path.bytes k = .ok (some i) → (s.ino i).type = .symlink)
    (hno : ∀ k ≤ 9, ∀ e, s.chain p path.bytes k ≠ .error e) :
    FailsCleanly s p ((sysOpen path omode).run (exec p) s) := by
  have hstart := sysOpen_starts hq hcreate path
  match hzero : s.chain p path.bytes 0 with
  | .error e => exact absurd hzero (hno 0 (by omega) e)
  | .ok none =>
    rwa [hzero] at hstart
  | .ok (some i0) =>
    simp only [hzero] at hstart
    obtain ⟨t, h, hrun⟩ := hstart.2 (by simp [hall 0 (by omega) i0 hzero])
    have hends := followLinks_ends hq hfollow 9 h
    rw [(Sys.follow_verdict hzero 9).missing (fun k hk i => by rw [zero_add]; exact hall k hk i)
      fun k hk e => by rw [zero_add]; exact hno k hk e] at hends
    obtain ⟨t', hlinks, h'⟩ := hends
    rw [hrun]
    exact ⟨_, run_bind_ok _ hlinks, h'.ops _⟩

theorem sysOpen_stops (hk : k ≤ 9) {e : Stop}
    (he : s.chain p path.bytes k = .error e) : (sysOpen path omode).run (exec p) s = .error e := by
  have hstart := sysOpen_starts hq hcreate path
  match hzero : s.chain p path.bytes 0 with
  | .error e0 =>
    rw [← zero_add k, Sys.chain_stays hzero nofun] at he
    rwa [hzero, he] at hstart
  | .ok none =>
    rw [← zero_add k, Sys.chain_stays hzero nofun] at he
    cases he
  | .ok (some i0) =>
    simp only [hzero] at hstart
    by_cases hdir : (s.ino i0).type = .dir ∧ omode ≠ O_RDONLY
    · have hk0 : k = 0 := by
        by_contra hpos
        rw [Sys.chain_ends hzero (by simp [hdir.1]) (pos_of_ne_zero hpos)] at he
        cases he
      rw [hk0, hzero] at he
      cases he
    · obtain ⟨t, h, hrun⟩ := hstart.2 hdir
      have hends := followLinks_ends hq hfollow 9 h
      rw [(Sys.follow_verdict hzero 9).stops k hk e (by rwa [zero_add])] at hends
      rw [hrun]
      exact run_bind_error _ hends

end Chain

theorem sysOpen_nofollow (hq : Quiet s p) (hcreate : has omode O_CREATE = false)
    (hnofollow : has omode O_NOFOLLOW = true) (path : CStr)
    (hi : s.chain p path.bytes 0 = .ok (some i))
    (hdir : ¬ ((s.ino i).type = .dir ∧ omode ≠ O_RDONLY)) :
    Opens s p omode i ((sysOpen path omode).run (exec p) s) := by
  have hstart := sysOpen_starts hq hcreate path
  simp only [hi] at hstart
  obtain ⟨t, h, hrun⟩ := hstart.2 hdir
  have hlinks : (followLinks omode 9 i).run (exec p) t = .ok (some i, t) := by
    unfold followLinks
    rw [run_call_ok _ h.inode]
    by_cases hlink : (s.ino i).type = .symlink
    · rw [if_pos hlink, if_pos hnofollow]
      rfl
    · rw [if_neg hlink]
      rfl
  rw [hrun, run_bind_ok _ hlinks]
  exact openFile_opens hq h

/-- Run alone and without `O_CREATE`, `sys_open` goes along the chain of the path.  Without
`O_NOFOLLOW` it opens the first inode that is no link, if at most nine links lead to it; a directory
is refused for writing only where the path names it itself.  If there is no such inode it fails and
leaves everything as it was; it stops where a `namei` or `ilock` on the way stops.  With
`O_NOFOLLOW` it opens the link that the path names. -/
theorem sysOpen_follows_chain (hq : Quiet s p) (hcreate : has omode O_CREATE = false)
    (path : CStr) :
    (has omode O_NOFOLLOW = false →
      (∀ k ≤ 9, ∀ i, s.chain p path.bytes k = .ok (some i) → (s.ino i).type ≠ .symlink →
        (k = 0 ∧ (s.ino i).type = .dir ∧ omode ≠ O_RDONLY →
          FailsCleanly s p ((sysOpen path omode).run (exec p) s)) ∧
        (¬ (k = 0 ∧ (s.ino i).type = .dir ∧ omode ≠ O_RDONLY) →
          Opens s p omode i ((sysOpen path omode).run (exec p) s))) ∧
      ((∀ k ≤ 9, ∀ i, s.chain p path.bytes k = .ok (some i) → (s.ino i).type = .symlink) →
        (∀ k ≤ 9, ∀ e, s.chain p path.bytes k ≠ .error e) →
        FailsCleanly s p ((sysOpen path omode).run (exec p) s)) ∧
      ∀ k ≤ 9, ∀ e, s.chain p path.bytes k = .error e →
        (sysOpen path omode).run (exec p) s = .error e) ∧
    (has omode O_NOFOLLOW = true → ∀ i, s.chain p path.bytes 0 = .ok (some i) →
      (s.ino i).type = .symlink →
      Opens s p omode i ((sysOpen path omode).run (exec p) s)) := by
  refine ⟨fun hfollow => ⟨fun k hk i hi hne => ?_, fun hall hno => ?_, fun k hk e he => ?_⟩,
    fun hnofollow i hi hlink => ?_⟩
  · exact sysOpen_found hq hcreate hfollow path hk hi hne
  · exact sysOpen_missing hq hcreate hfollow path hall hno
  · exact sysOpen_stops hq hcreate hfollow path hk he
  · exact sysOpen_nofollow hq hcreate hnofollow path hi (by simp [hlink])

/-- A root directory with a file `f` and a symbolic link `l` to it. -/
def linkedDisk : Sys Unit where
  ninodes := 4
  ino i :=
    if i = ROOTINO then ⟨.dir, 0, 0, 1, (direntFor dot ROOTINO).encode ++
      (direntFor dotdot ROOTINO).encode ++ (direntFor [102] 2).encode ++ (direntFor [108] 3).encode⟩
    else if i = 2 then ⟨.file, 0, 0, 1, []⟩
    else if i = 3 then ⟨.symlink, 0, 0, 1, linkRecord [102]⟩
    else blank .free
  mem i := if i = ROOTINO then ⟨1, true, none⟩ else ⟨0, false, none⟩
  inUse := 1
  file _ := ⟨.none, 0, false, false, 0, 0, 0⟩
  proc _ := ⟨ROOTINO, fun _ => none⟩
  room := {}
  console := []
  outstanding := 0
  born _ := 0
  stamp _ _ := 0
  clock := 1

theorem linkedDisk_quiet : Quiet linkedDisk () := by
  refine ⟨fun i => ?_, fun i href => ?_, fun i htype hnlink => ?_, by decide, fun _ _ => rfl⟩
  · unfold linkedDisk
    by_cases hi : i = ROOTINO <;> simp [hi]
  · by_cases hi : i = ROOTINO
    · intro _
      rw [hi]
      rfl
    · simp [linkedDisk, hi] at href
  · unfold linkedDisk at htype hnlink
    by_cases hi : i = ROOTINO
    · simp [hi] at hnlink
    · by_cases hfile : i = 2
      · simp [hfile] at hnlink
      · by_cases hlink : i = 3
        · simp [hlink] at hnlink
        · simp [hi, hfile, hlink, blank] at htype

theorem sysOpen_follows_chain_oneLink :
    ∃ t, (sysOpen ⟨[108], by decide, by decide⟩ O_RDWR).run (exec ()) linkedDisk = .ok (0, t) ∧
      Held (linkedDisk.opened () 2 O_RDWR 0 0) () {2} none t := by
  have hopens := (sysOpen_follows_chain linkedDisk_quiet (by decide : has O_RDWR O_CREATE = false)
    ⟨[108], by decide, by decide⟩).1 (by decide)
  exact ((hopens.1 1 (by decide) 2 rfl (by decide)).2 (by decide)).opens 0 0 (by decide) rfl rfl

/-- `linkedDisk` with 49 unlinked files, held open by three processes with all their descriptors and
by a fourth: the inode table is full. -/
def fullTable : Sys (Fin 4) where
  ninodes := 53
  ino i := if 4 ≤ i ∧ i < 53 then ⟨.file, 0, 0, 0, []⟩ else linkedDisk.ino i
  mem i := if i = ROOTINO then ⟨4, true, none⟩
    else if 4 ≤ i ∧ i < 53 then ⟨1, true, none⟩ else ⟨0, false, none⟩
  inUse := NINODE
  file f := if f.val < 49 then ⟨.inode, 1, true, true, f.val + 4, 0, 0⟩ else linkedDisk.file f
  proc p := ⟨ROOTINO, fun n =>
    if NOFILE * p.val + n.val < 49 then some (Fin.ofNat NFILE (NOFILE * p.val + n.val)) else none⟩
  room := {}
  console := []
  outstanding := 0
  born _ := 0
  stamp _ _ := 0
  clock := 1

theorem fullTable_quiet : Quiet fullTable 3 := by
  refine ⟨fun i => ?_, fun i href _ => ?_, fun i htype hnlink => ?_, by decide, fun f hf => ?_⟩
  · simp only [fullTable]
    split
    · rfl
    · split <;> rfl
  · by_cases hi : i < 53
    · interval_cases i <;> first | rfl | exact absurd href (by decide)
    · simp [fullTable, show i ≠ ROOTINO by simp only [ROOTINO]; omega, hi] at href
  · simp only [fullTable] at htype hnlink ⊢
    split
    · decide
    · next hroot =>
      split
      · decide
      · next hfile =>
        simp only [if_neg hfile] at htype hnlink
        simpa [linkedDisk, hroot] using linkedDisk_quiet.linked i htype hnlink
  · simp only [fullTable] at hf ⊢
    split at hf
    · cases hf
    · next hlt =>
      rw [if_neg hlt]
      rfl

/-- There is no entry of the inode table for the link, so `iget` panics. -/
theorem sysOpen_panics_on_full_table : Quiet fullTable 3 ∧
    fullTable.inUse = (List.range fullTable.ninodes).countP (fun i => 0 < (fullTable.mem i).ref) ∧
    (∀ i, (fullTable.ino i).type = .symlink → (fullTable.ino i).data = linkRecord [102]) ∧
    (sysOpen ⟨[108], by decide, by decide⟩ O_RDWR).run (exec 3) fullTable =
      .error (.panic "iget: no inodes") := by
  refine ⟨fullTable_quiet, by decide, fun i hlink => ?_, rfl⟩
  by_cases hi : i < 53
  · interval_cases i <;> first | rfl | exact absurd hlink (by decide)
  · have hfree : fullTable.ino i = blank .free := by
      simp [fullTable, linkedDisk, hi, show i ≠ ROOTINO by simp only [ROOTINO]; omega,
        show i ≠ 2 by omega, show i ≠ 3 by omega]
    rw [hfree] at hlink
    cases hlink

end OsProjects.Kernel.Vfs
