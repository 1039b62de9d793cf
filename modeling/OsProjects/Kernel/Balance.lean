import OsProjects.Kernel.Accounts
import Mathlib.Data.Finset.Insert
import Mathlib.Data.Finset.Erase

/-!
# Balance — what a call takes it gives back

Operations begun, inode locks and inode references are counted from the state in which the call
starts.  On every path that returns, operations and locks are back where they were, and so are the
references but for those kept in a file or in the current directory.
-/

namespace OsProjects.Kernel.Vfs

open Lib Function Multiset
open Prog (after_bind after_call)

variable {P : Type} [DecidableEq P]

/-- In `t` the call that process `p` began in `s₀` holds the references `m` and the locks `L`, and
is `n` operations deep. -/
structure Carries (s₀ : Sys P) (p : P) (m : Multiset Nat) (L : Finset Nat) (n : Int) (t : Sys P) :
    Prop where
  ref : ∀ i, (t.mem i).ref = (s₀.mem i).ref + m.count i
  lock : ∀ i, (t.mem i).lock = if i ∈ L then some p else (s₀.mem i).lock
  unlocked : ∀ i ∈ L, (s₀.mem i).lock = none
  ops : t.outstanding = s₀.outstanding + n
  file : t.file = s₀.file
  proc : t.proc = s₀.proc

variable {p : P} {s₀ s t : Sys P} {m l k : Multiset Nat} {L : Finset Nat} {n : Int} {i : Nat}
  {x : Option Nat} {r : Unit} {f : Fin NFILE}

omit [DecidableEq P] in
theorem Carries.init (s : Sys P) (p : P) : Carries s p 0 ∅ 0 s where
  ref _ := rfl
  lock _ := rfl
  unlocked _ hi := absurd hi (Finset.notMem_empty _)
  ops := (Int.add_zero _).symm
  file := rfl
  proc := rfl

/-! ## Actions -/

omit [DecidableEq P] in
-- An action on none of the counts.
theorem Carries.congr (h : Carries s₀ p m L n s) (hmem : t.mem = s.mem)
    (hops : t.outstanding = s.outstanding) (hfile : t.file = s.file) (hproc : t.proc = s.proc) :
    Carries s₀ p m L n t where
  ref i := by rw [hmem, h.ref]
  lock i := by rw [hmem, h.lock]
  unlocked := h.unlocked
  ops := hops.trans h.ops
  file := hfile.trans h.file
  proc := hproc.trans h.proc

omit [DecidableEq P] in
-- An action on one entry of the inode table.
theorem Carries.step {m' : Multiset Nat} {L' : Finset Nat} (h : Carries s₀ p m L n s) (i : Nat)
    (hmem : ∀ j, j ≠ i → t.mem j = s.mem j) (hops : t.outstanding = s.outstanding)
    (hfile : t.file = s.file) (hproc : t.proc = s.proc)
    (hm : ∀ j, j ≠ i → m'.count j = m.count j) (hL : ∀ j, j ≠ i → (j ∈ L' ↔ j ∈ L))
    (href : (t.mem i).ref = (s₀.mem i).ref + m'.count i)
    (hlock : (t.mem i).lock = if i ∈ L' then some p else (s₀.mem i).lock)
    (hfree : i ∈ L' → (s₀.mem i).lock = none) : Carries s₀ p m' L' n t where
  ref j := by
    by_cases hj : j = i
    · rw [hj, href]
    · rw [hmem j hj, hm j hj, h.ref]
  lock j := by
    by_cases hj : j = i
    · rw [hj, hlock]
    · rw [hmem j hj, h.lock]
      simp only [hL j hj]
  unlocked j hj := by
    by_cases hji : j = i
    · rw [hji] at hj ⊢
      exact hfree hj
    · exact h.unlocked j ((hL j hji).mp hj)
  ops := hops.trans h.ops
  file := hfile.trans h.file
  proc := hproc.trans h.proc

theorem Carries.beginOp (h : Carries s₀ p m L n s)
    (hop : exec p .beginOp s = .ok (r, t)) : Carries s₀ p m L (n + 1) t := by
  cases hop
  refine ⟨h.ref, h.lock, h.unlocked, ?_, h.file, h.proc⟩
  show s.outstanding + 1 = _
  rw [h.ops]
  omega

theorem Carries.endOp (h : Carries s₀ p m L (n + 1) s)
    (hop : exec p .endOp s = .ok (r, t)) : Carries s₀ p m L n t := by
  cases hop
  refine ⟨h.ref, h.lock, h.unlocked, ?_, h.file, h.proc⟩
  show s.outstanding - 1 = _
  rw [h.ops]
  omega

omit [DecidableEq P] in
-- One more reference to `i`.
theorem Carries.more (h : Carries s₀ p m L n s) (i : Nat) (x : Mem P) (inUse : Nat)
    (href : x.ref = (s.mem i).ref + 1) (hlock : x.lock = (s.mem i).lock) :
    Carries s₀ p (i ::ₘ m) L n { s.setMem i x with inUse := inUse } := by
  refine h.step i (fun j hj => ?_) rfl rfl rfl (fun j hj => count_cons_of_ne hj m)
    (fun _ _ => Iff.rfl) ?_ ?_ (h.unlocked i)
  · simp [hj]
  · simp only [Sys.setMem_mem, if_true, href, h.ref, count_cons_self]
    omega
  · simp only [Sys.setMem_mem, if_true, hlock, h.lock]

theorem Carries.iget (h : Carries s₀ p m L n s) (hget : exec p (.iget i) s = .ok (r, t)) :
    Carries s₀ p (i ::ₘ m) L n t := by
  rcases exec_iget hget with ⟨-, rfl⟩ | ⟨hzero, rfl⟩
  · exact h.more i _ s.inUse rfl rfl
  · exact h.more i _ (s.inUse + 1) (by simp [hzero]) rfl

theorem Carries.idup (h : Carries s₀ p m L n s) (hdup : exec p (.idup i) s = .ok (r, t)) :
    Carries s₀ p (i ::ₘ m) L n t := by
  cases hdup
  exact h.more i _ s.inUse rfl rfl

theorem Carries.ilock (h : Carries s₀ p m L n s)
    (hlock : exec p (.ilock i) s = .ok (r, t)) : Carries s₀ p m (insert i L) n t ∧ i ∉ L := by
  obtain ⟨-, hnone, -, rfl⟩ := exec_ilock hlock
  have hi : i ∉ L := by
    intro hi
    rw [h.lock, if_pos hi] at hnone
    cases hnone
  refine ⟨h.step i (fun j hj => ?_) rfl rfl rfl (fun _ _ => rfl) (fun j hj => ?_) ?_ ?_ fun _ => ?_,
    hi⟩
  · simp [hj]
  · simp [hj]
  · simp [h.ref]
  · simp
  · rwa [h.lock, if_neg hi] at hnone

theorem Carries.iunlock (h : Carries s₀ p m (insert i L) n s) (hi : i ∉ L)
    (hunlock : exec p (.iunlock i) s = .ok (r, t)) : Carries s₀ p m L n t := by
  obtain ⟨-, rfl⟩ := exec_iunlock hunlock
  refine h.step i (fun j hj => ?_) rfl rfl rfl (fun _ _ => rfl) (fun j hj => ?_) ?_ ?_
    fun hmem => absurd hmem hi
  · simp [hj]
  · simp [hj]
  · simp [h.ref]
  · simp [hi, h.unlocked i (Finset.mem_insert_self i L)]

omit [DecidableEq P] in
theorem Carries.dropRef (h : Carries s₀ p (i ::ₘ m) L n s) : Carries s₀ p m L n (s.dropRef i) := by
  refine h.step i (fun j hj => ?_) rfl rfl rfl
    (fun j hj => (count_cons_of_ne hj m).symm) (fun _ _ => Iff.rfl) ?_ ?_ (h.unlocked i)
  · simp [hj]
  · simp [h.ref]
  · simp [h.lock]

omit [DecidableEq P] in
-- A reference that the call finds in `s₀` and may drop.
theorem Carries.lend (h : Carries s₀ p m L n s) (hi : 0 < (s₀.mem i).ref) :
    Carries (s₀.dropRef i) p (i ::ₘ m) L n s where
  ref j := by
    rw [h.ref]
    by_cases hj : j = i
    · rw [hj, count_cons_self, Sys.dropRef_mem, if_pos rfl]
      show _ = (s₀.mem i).ref - 1 + _
      omega
    · rw [count_cons_of_ne hj, Sys.dropRef_mem, if_neg hj]
  lock j := by
    rw [h.lock, Sys.dropRef_mem]
    by_cases hj : j = i
    · simp [hj]
    · simp [hj]
  unlocked j hj := by
    rw [Sys.dropRef_mem]
    split
    next hji =>
      rw [← hji]
      exact h.unlocked j hj
    · exact h.unlocked j hj
  ops := h.ops
  file := h.file
  proc := h.proc

/-! ## Inodes and directories -/

theorem Carries.iput (h : Carries s₀ p (i ::ₘ m) L n s) :
    (iput i).After (exec p) s fun _ t => Carries s₀ p m L n t := by
  unfold Vfs.iput
  simp only [after_bind, after_call]
  intro last s1 hlast
  rcases exec_iputLast hlast with ⟨rfl, -, -, -, hnone, rfl⟩ | ⟨rfl, -, rfl⟩
  · rw [if_pos rfl]
    simp only [after_bind, after_call]
    intro _ s2 hfree _ s3 hdrop
    obtain ⟨room, -, rfl⟩ := exec_ifree hfree
    cases hdrop
    -- the lock is taken and released within `iput`
    apply Carries.dropRef
    refine h.step i (fun j hj => ?_) rfl rfl rfl (fun _ _ => rfl) (fun _ _ => Iff.rfl) ?_ ?_
      (h.unlocked i)
    · simp [hj]
    · simp [h.ref]
    · rw [← h.lock, hnone]
      simp
  · exact h.dropRef

-- Whichever inode is taken was free, and no other is touched.
theorem Carries.iallocFrom (h : Carries s₀ p m L n s) (type : FileType) (l : List Nat) :
    (iallocFrom type l).After (exec p) s fun r t => Carries s₀ p (plus r id m) L n t ∧
      (∀ i, r ≠ some i → t.ino i = s.ino i) ∧ ∀ i, r = some i → (s.ino i).type = .free := by
  induction l generalizing s with
  | nil =>
    intro _ s1 hprint
    cases hprint
    exact ⟨h.congr rfl rfl rfl rfl, fun _ _ => rfl, nofun⟩
  | cons inum rest ih =>
    unfold Vfs.iallocFrom
    simp only [after_bind, after_call]
    intro b s1 halloc
    rcases exec_tryAlloc halloc with ⟨rfl, hfree, rfl⟩ | ⟨rfl, -, rfl⟩
    · rw [if_pos rfl]
      intro _ s2 hget
      refine ⟨Carries.iget (s := { s.setIno inum (blank type) with
        room := s.room.clear inum, born := update s.born inum s.clock, clock := s.clock + 1 }) ?_
          hget, fun i hi => ?_,
        fun i hi => Option.some.inj hi ▸ hfree⟩
      · exact h.congr rfl rfl rfl rfl
      · have hne : i ≠ inum := fun h => hi (h ▸ rfl)
        rcases exec_iget hget with ⟨-, rfl⟩ | ⟨-, rfl⟩
        · simp [hne]
        · simp [hne]
    · rw [if_neg (by simp)]
      exact ih h

theorem Carries.ialloc (h : Carries s₀ p m L n s) (type : FileType) :
    (ialloc type).After (exec p) s fun r t => Carries s₀ p (plus r id m) L n t ∧
      (∀ i, r ≠ some i → t.ino i = s.ino i) ∧ ∀ i, r = some i → (s.ino i).type = .free := by
  unfold Vfs.ialloc
  simp only [after_bind, after_call]
  intro k s1 hread
  cases hread
  exact h.iallocFrom type _

/-- The account of what a call carries; a lock is held once. -/
def carried (s₀ : Sys P) (p : P) : Account P :=
  fun n m L _ s => Carries s₀ p m L.toFinset n s ∧ L.Nodup

theorem carried_tracks (s₀ : Sys P) (p : P) : TracksAll p (fun _ => True) (carried s₀ p) where
  begins h hop := ⟨h.1.beginOp hop, h.2⟩
  ends h hop := ⟨h.1.endOp hop, h.2⟩
  gets h hget := ⟨h.1.iget hget, h.2⟩
  dups h hdup := ⟨h.1.idup hdup, h.2⟩
  locks h _ hlock := by
    obtain ⟨h1, hi⟩ := h.1.ilock hlock
    rw [mem_toFinset] at hi
    exact ⟨by rwa [toFinset_cons], nodup_cons.mpr ⟨hi, h.2⟩⟩
  unlocks h hunlock := by
    obtain ⟨hi, hL⟩ := nodup_cons.mp h.2
    have h1 := h.1
    rw [toFinset_cons] at h1
    exact ⟨h1.iunlock (by rwa [mem_toFinset]) hunlock, hL⟩
  puts h _ := (Carries.iput h.1).mono fun _ _ ht => ⟨ht, h.2⟩
  forgets h _ := h
  sets h _ _ _ _ := ⟨h.1.congr rfl rfl rfl rfl, h.2⟩
  enters h _ hwrite := by
    cases hwrite
    exact ⟨h.1.congr rfl rfl rfl rfl, h.2⟩
  prints h _ := ⟨h.1.congr rfl rfl rfl rfl, h.2⟩
  takes _ h := (h.1.ialloc _).mono fun _ _ ht => ⟨ht.1, h.2⟩

/-! ## The calls that leave nothing behind -/

omit [DecidableEq P] in
-- An action on none of what is counted.
theorem carried.congr (h : carried s₀ p n l k x s) (hmem : t.mem = s.mem)
    (hops : t.outstanding = s.outstanding) (hfile : t.file = s.file) (hproc : t.proc = s.proc) :
    carried s₀ p n l k x t := ⟨h.1.congr hmem hops hfile hproc, h.2⟩

theorem carried.sysSymlink (h : carried s₀ p n m 0 none s) (target path : CStr) :
    (sysSymlink target path).After (exec p) s fun _ t => carried s₀ p n m 0 none t := by
  have hK := carried_tracks s₀ p
  unfold Vfs.sysSymlink
  simp only [after_bind, after_call]
  intro _ s1 hop
  refine (hK.create trivial (hK.begins h hop) path.bytes).mono fun r s2 h2 => ?_
  cases r with
  | none => exact hK.returns h2 (-1)
  | some ip =>
    simp only [after_bind, after_call]
    intro w s3 hwrite
    have h3 : carried s₀ p (n + 1) (ip ::ₘ m) (ip ::ₘ 0) none s3 := by
      cases hwrite
      exact carried.congr h2 rfl rfl rfl rfl
    by_cases hw : w ≠ 4
    · rw [if_pos hw]
      exact hK.releases h3 (-1)
    rw [if_neg hw]
    simp only [after_bind, after_call]
    intro w' s4 hwrite'
    have h4 : carried s₀ p (n + 1) (ip ::ₘ m) (ip ::ₘ 0) none s4 := by
      obtain ⟨-, rfl⟩ := Prod.mk.inj (Except.ok.inj hwrite')
      exact h3.congr rfl rfl rfl rfl
    split
    · exact hK.releases h4 (-1)
    · exact hK.releases h4 0

/-! ## The calls that keep a reference -/

/-- What `sys_open` and `sys_chdir` rely on: the current directory is referenced, and a file not in
use is `FD_NONE`, as `fileclose` leaves it. -/
structure Tidy (s : Sys P) (p : P) : Prop where
  cwd : 0 < (s.mem (s.proc p).cwd).ref
  files : ∀ f, (s.file f).ref = 0 → (s.file f).type = .none

/-- No reference is kept. -/
structure Unkept (s t : Sys P) : Prop where
  ref : ∀ i, (t.mem i).ref = (s.mem i).ref
  file : t.file = s.file
  proc : t.proc = s.proc

/-- One reference is kept, in file `f`, which was free and is now behind descriptor `n`. -/
structure KeptInFile (s t : Sys P) (p : P) (f : Fin NFILE) (n : Fin NOFILE) : Prop where
  free : (s.file f).ref = 0
  file : ∀ g, g ≠ f → t.file g = s.file g
  opened : (t.file f).ref = 1 ∧ (t.file f).type ≠ .none
  proc : t.proc = update s.proc p
    { s.proc p with ofile := update (s.proc p).ofile n (some f) }
  ref : ∀ i, (t.mem i).ref = (s.mem i).ref + if i = (t.file f).ip then 1 else 0

/-- The reference to the current directory is exchanged. -/
structure Moved (s t : Sys P) (p : P) : Prop where
  file : t.file = s.file
  proc : t.proc = update s.proc p { s.proc p with cwd := (t.proc p).cwd }
  ref : ∀ i, (t.mem i).ref + (if i = (s.proc p).cwd then 1 else 0) =
    (s.mem i).ref + if i = (t.proc p).cwd then 1 else 0

/-- Operations and locks are back where they were. -/
structure GivenBack (s t : Sys P) : Prop where
  ops : t.outstanding = s.outstanding
  lock : ∀ i, (t.mem i).lock = (s.mem i).lock

omit [DecidableEq P] in
theorem carried.unkept (h : carried s₀ p 0 0 0 x t) : GivenBack s₀ t ∧ Unkept s₀ t where
  left := ⟨h.1.ops.trans (Int.add_zero _), h.1.lock⟩
  right := ⟨h.1.ref, h.1.file, h.1.proc⟩

theorem carried.changeDir (h : carried s₀ p 1 0 0 none s) (hs : Tidy s₀ p) (path : List UInt8) :
    (changeDir path).After (exec p) s fun r t =>
      GivenBack s₀ t ∧ (r = -1 ∧ Unkept s₀ t ∨ r = 0 ∧ Moved s₀ t p) := by
  have hK := carried_tracks s₀ p
  unfold Vfs.changeDir
  refine (hK.namei h path).bind fun r s1 h1 => ?_
  match r with
  | none =>
    intro _ t hop
    have ht := carried.unkept (hK.ends (n := 0) h1 hop)
    exact ⟨ht.1, Or.inl ⟨rfl, ht.2⟩⟩
  | some ip =>
    simp only [after_bind, after_call]
    intro _ s2 hlock v s3 hread
    have h2 := hK.locks_found h1 hlock
    cases hread
    split
    · refine (hK.iunlockput (m := 0) h2).bind fun _ s3 h3 => ?_
      intro _ t hop
      have ht := carried.unkept (hK.ends (n := 0) h3 hop)
      exact ⟨ht.1, Or.inl ⟨rfl, ht.2⟩⟩
    simp only [after_bind, after_call]
    intro _ s3 hunlock c s4 hcwd
    cases hcwd
    have h3 : Carries s₀ p (ip ::ₘ 0) ∅ 1 s3 := (hK.unlocks h2 hunlock).1
    -- the reference to drop is one that the process has had all along
    have hlent := h3.lend hs.cwd
    rw [h3.proc]
    refine hlent.iput.mono fun _ s5 h5 => ?_
    intro _ s6 hop _ t hset
    cases hset
    have h6 := Carries.endOp (n := 0) h5 hop
    refine ⟨⟨h6.ops.trans (Int.add_zero _), fun i => ?_⟩, Or.inr ⟨rfl, h6.file, ?_, fun i => ?_⟩⟩
    · show (s6.mem i).lock = _
      rw [h6.lock, if_neg (Finset.notMem_empty i), Sys.dropRef_mem]
      by_cases hi : i = (s₀.proc p).cwd
      · rw [if_pos hi, hi]
      · rw [if_neg hi]
    · show update s6.proc p _ = _
      rw [h6.proc]
      simp [Sys.setProc, Sys.dropRef, Sys.setMem]
    · show (s6.mem i).ref + _ = _
      have hpos := hs.cwd
      rw [h6.ref, Sys.dropRef_mem]
      simp only [Sys.setProc_proc, if_true, count_cons, count_zero]
      by_cases hi : i = (s₀.proc p).cwd
      · rw [if_pos hi, if_pos hi, hi]
        show (s₀.mem (s₀.proc p).cwd).ref - 1 + _ + 1 = _
        omega
      · rw [if_neg hi, if_neg hi]
        omega

/-! ## `sys_open` -/

omit [DecidableEq P] in
-- The files and the processes are another matter.
theorem Carries.rebase (h : Carries s₀ p m L n s) (hmem : t.mem = s.mem)
    (hops : t.outstanding = s.outstanding) :
    Carries { s₀ with file := t.file, proc := t.proc } p m L n t where
  ref i := by rw [hmem, h.ref]
  lock i := by rw [hmem, h.lock]
  unlocked := h.unlocked
  ops := hops.trans h.ops
  file := rfl
  proc := rfl

-- A file that has been allocated and got no descriptor is free again.
theorem carried.fileclose (h : carried s₀ p n l k x s) (href : (s.file f).ref = 0)
    (htype : (s.file f).type = .none) :
    (fileclose f).After (exec p) (s.setFile f { s.file f with ref := 1 })
      fun _ t => carried s₀ p n l k x t := by
  unfold Vfs.fileclose
  simp only [after_bind, after_call]
  intro r s1 hdrop
  rcases exec_dropFile hdrop with ⟨-, hmore, -⟩ | ⟨rfl, -, rfl⟩
  · simp at hmore
  · simp only [Sys.setFile_file, if_true, htype]
    have hsame : ({ s.file f with type := .none, ref := 0 } : File) = s.file f := by
      rw [← htype, ← href]
    refine h.congr rfl rfl ?_ rfl
    funext g
    by_cases hg : g = f
    · simp [hg, hsame]
    · simp [hg]

theorem carried.fillFile {fd : Fin NOFILE} {ip : Nat}
    (h : carried s₀ p 1 (ip ::ₘ 0) (ip ::ₘ 0) none s) (href : (s₀.file f).ref = 0) (v : Vinode)
    (omode : UInt32) {s₁ : Sys P} (hmem : s₁.mem = s.mem) (hops : s₁.outstanding = s.outstanding)
    (hfile : s₁.file = update s₀.file f { s₀.file f with ref := 1 })
    (hproc : s₁.proc = update s₀.proc p
      { s₀.proc p with ofile := update (s₀.proc p).ofile fd (some f) }) :
    ((do
      fileInit f (if v.type = .device then some v.major else none) ip (!has omode O_WRONLY)
        (has omode O_WRONLY || has omode O_RDWR)
      (if has omode O_TRUNC = true ∧ v.type = .file then itrunc ip else pure ())
      Vfs.iunlock ip
      Vfs.endOp
      pure (fd.val : Int)) : Kprog Int).After (exec p) s₁ fun r t =>
        GivenBack s₀ t ∧ r = fd.val ∧ KeptInFile s₀ t p f fd := by
  intro _ s2 hinit
  have hnew : s2.mem = s.mem ∧ s2.outstanding = s.outstanding ∧ s2.proc = s₁.proc ∧
      (∀ g, g ≠ f → s2.file g = s₀.file g) ∧ (s2.file f).ref = 1 ∧ (s2.file f).type ≠ .none ∧
      (s2.file f).ip = ip := by
    cases hinit
    refine ⟨hmem, hops, rfl, fun g hg => ?_, ?_⟩
    · simp [hg, hfile]
    · by_cases hdev : v.type = .device
      · simp [hdev, hfile]
      · simp [hdev, hfile]
  obtain ⟨hmem2, hops2, hproc2, hothers, href2, htype2, hip2⟩ := hnew
  have h2 : carried { s₀ with file := s2.file, proc := s2.proc } p 1 (ip ::ₘ 0)
      (ip ::ₘ 0) none s2 :=
    ⟨h.1.rebase hmem2 hops2, h.2⟩
  have htrunc : ((if has omode O_TRUNC = true ∧ v.type = .file then itrunc ip else pure ()) :
      Kprog Unit).After (exec p) s2 fun _ t =>
        carried { s₀ with file := s2.file, proc := s2.proc } p 1 (ip ::ₘ 0) (ip ::ₘ 0) none t := by
    split
    · intro _ s3 hdo
      obtain ⟨room, -, rfl⟩ := exec_itrunc hdo
      exact h2.congr rfl rfl rfl rfl
    · exact h2
  refine htrunc.bind fun _ s3 h3 => ?_
  intro _ s4 hunlock _ t hop
  have hK := carried_tracks { s₀ with file := s2.file, proc := s2.proc } p
  have ht := (hK.ends (n := 0) (hK.unlocks h3 hunlock) hop).1
  refine ⟨⟨ht.ops.trans (Int.add_zero _), ht.lock⟩, rfl, href, ?_, ?_, ?_, fun i => ?_⟩
  · rwa [ht.file]
  · rw [ht.file]
    exact ⟨href2, htype2⟩
  · rw [ht.proc]
    exact hproc2.trans hproc
  · rw [ht.ref, ht.file]
    rw [hip2, count_cons, count_zero, Nat.zero_add]

theorem carried.openFile {ip : Nat} (h : carried s₀ p 1 (ip ::ₘ 0) (ip ::ₘ 0) none s)
    (hs : Tidy s₀ p) (omode : UInt32) : (openFile omode ip).After (exec p) s fun r t =>
      GivenBack s₀ t ∧ (r = -1 ∧ Unkept s₀ t ∨ ∃ f fd, r = fd.val ∧ KeptInFile s₀ t p f fd) := by
  have hK := carried_tracks s₀ p
  have hfails {s1 : Sys P} (h1 : carried s₀ p 1 (ip ::ₘ 0) (ip ::ₘ 0) none s1) :
      ((do
        Vfs.iunlockput ip
        Vfs.endOp
        pure (-1)) : Kprog Int).After (exec p) s1 fun r t =>
          GivenBack s₀ t ∧ (r = -1 ∧ Unkept s₀ t ∨
            ∃ f fd, r = fd.val ∧ KeptInFile s₀ t p f fd) := by
    refine (hK.iunlockput h1).bind fun _ s2 h2 => ?_
    intro _ t hop
    have ht := carried.unkept (hK.ends (n := 0) h2 hop)
    exact ⟨ht.1, Or.inl ⟨rfl, ht.2⟩⟩
  unfold Vfs.openFile
  rw [after_bind, after_call]
  intro v s1 hread
  cases hread
  split
  · exact hfails h
  rw [after_bind, after_call]
  intro r s1 halloc
  rcases exec_filealloc halloc with ⟨f, rfl, hfree, hs1⟩ | ⟨rfl, rfl⟩
  · have hfree0 : (s₀.file f).ref = 0 := by rwa [← h.1.file]
    have htype : (s.file f).type = .none := by
      rw [h.1.file]
      exact hs.files f hfree0
    rw [after_bind, after_call]
    intro r s2 hfd
    rcases exec_fdalloc hfd with ⟨fd, rfl, -, hs2⟩ | ⟨rfl, rfl⟩
    · have hproc : s1.proc = s₀.proc := by
        rw [hs1, ← h.1.proc]
        rfl
      refine (h.fillFile hfree0 (s.ino ip) omode ?_ ?_ ?_ ?_).mono fun r t ht =>
        ⟨ht.1, Or.inr ⟨f, fd, ht.2⟩⟩
      · rw [hs2, hs1]
        rfl
      · rw [hs2, hs1]
        rfl
      · rw [hs2, hs1, ← h.1.file]
        rfl
      · rw [hs2, ← hproc]
        rfl
    · rw [hs1]
      exact (h.fileclose hfree htype).bind fun _ s3 h3 => hfails h3
  · exact hfails h

theorem carried.sysOpen (h : carried s₀ p 0 0 0 none s) (hs : Tidy s₀ p) (path : CStr)
    (omode : UInt32) : (sysOpen path omode).After (exec p) s fun r t =>
      GivenBack s₀ t ∧ (r = -1 ∧ Unkept s₀ t ∨ ∃ f fd, r = fd.val ∧ KeptInFile s₀ t p f fd) := by
  unfold Vfs.sysOpen
  simp only [after_bind, after_call]
  intro _ s1 hop
  have hK := carried_tracks s₀ p
  have hfails {s1 : Sys P} (h1 : carried s₀ p 1 0 0 none s1) :
      ((do
        Vfs.endOp
        pure (-1)) : Kprog Int).After (exec p) s1 fun r t =>
          GivenBack s₀ t ∧ (r = -1 ∧ Unkept s₀ t ∨
            ∃ f fd, r = fd.val ∧ KeptInFile s₀ t p f fd) := by
    intro _ t hop
    have ht := carried.unkept (hK.ends (n := 0) h1 hop)
    exact ⟨ht.1, Or.inl ⟨rfl, ht.2⟩⟩
  refine (hK.openInode trivial (hK.begins h hop) path.bytes omode).mono fun r s2 h2 => ?_
  cases r with
  | none => exact hfails h2
  | some ip =>
    refine (hK.followLinks (m := 0) omode 9 h2).bind fun r s3 h3 => ?_
    cases r with
    | none => exact hfails h3
    | some ip => exact carried.openFile h3 hs omode

/-! ## Every call -/

/-- What is kept of the references when the call has returned `r`. -/
def Call.Keeps (c : Call) (p : P) (s t : Sys P) (r : Int) : Prop :=
  match c with
  | .openFile _ _ => r = -1 ∧ Unkept s t ∨ ∃ f fd, r = (fd : Fin NOFILE).val ∧ KeptInFile s t p f fd
  | .chdir _ => r = -1 ∧ Unkept s t ∨ r = 0 ∧ Moved s t p
  | _ => Unkept s t

/-- Every call but `close` that returns has ended each operation that it began, has released each
lock that it took, and keeps no reference but in a newly opened file or for
the current directory. -/
theorem calls_balanced (c : Call) (hc : ∀ fd, c ≠ .close fd) {r : Int} (hs : Tidy s p)
    (hrun : c.code.run (exec p) s = .ok (r, t)) : GivenBack s t ∧ c.Keeps p s t r := by
  have h : carried s p 0 0 0 none s := ⟨Carries.init s p, nodup_zero⟩
  have hK := carried_tracks s p
  suffices hafter : c.code.After (exec p) s fun r t => GivenBack s t ∧ c.Keeps p s t r from
    hafter.of_run hrun
  cases c with
  | openFile path omode =>
    exact argstr_after ⟨h.unkept.1, .inl ⟨rfl, h.unkept.2⟩⟩ fun path => h.sysOpen hs path omode
  | mkdir path => exact (hK.sysMkdir trivial h path).mono fun _ _ ht => carried.unkept ht
  | mknod path major minor =>
    exact (hK.sysMknod trivial h path).mono fun _ _ ht => carried.unkept ht
  | symlink target path =>
    exact argstr_after h.unkept fun target => argstr_after h.unkept fun path =>
      (h.sysSymlink target path).mono fun _ _ ht => carried.unkept ht
  | link old new =>
    exact argstr_after h.unkept fun old => argstr_after h.unkept fun new =>
      (hK.sysLink h old new).mono fun _ _ ht => carried.unkept ht
  | unlink path =>
    exact argstr_after h.unkept fun path => (hK.sysUnlink h path).mono fun _ _ ht =>
      carried.unkept ht
  | chdir path =>
    intro _ s1 hop
    have h1 := hK.begins h hop
    cases path with
    | some path => exact carried.changeDir h1 hs path.bytes
    | none =>
      intro _ t hop
      have ht := carried.unkept (hK.ends (n := 0) h1 hop)
      exact ⟨ht.1, .inl ⟨rfl, ht.2⟩⟩
  | close fd => exact absurd rfl (hc fd)

theorem boot_tidy (ninodes : Nat) (room : List Bool) : Tidy (Sys.boot Unit ninodes room) () where
  cwd := Nat.one_pos
  files _ _ := rfl

-- The first process creates a file.
theorem calls_balanced_create : ∃ t, (Call.openFile (some ⟨[97], by decide, by decide⟩)
      (O_CREATE ||| O_RDWR)).code.run (exec ()) (Sys.boot Unit 4 []) = .ok (0, t) ∧
    GivenBack (Sys.boot Unit 4 []) t ∧ ∃ f fd, KeptInFile (Sys.boot Unit 4 []) t () f fd := by
  have heval : ((Call.openFile (some ⟨[97], by decide, by decide⟩) (O_CREATE ||| O_RDWR)).code.run
      (exec ()) (Sys.boot Unit 4 [])).toOption.map Prod.fst = some 0 := by decide +kernel
  cases hrun : (Call.openFile (some ⟨[97], by decide, by decide⟩) (O_CREATE ||| O_RDWR)).code.run
      (exec ()) (Sys.boot Unit 4 []) with
  | error stop =>
    rw [hrun] at heval
    cases heval
  | ok y =>
    rw [hrun] at heval
    have hr : y.1 = 0 := Option.some.inj heval
    have h := calls_balanced _ (by simp) (boot_tidy 4 []) hrun
    refine ⟨y.2, by rw [← hr], h.1, ?_⟩
    rcases h.2 with ⟨hminus, -⟩ | ⟨f, fd, -, hkept⟩
    · rw [hr] at hminus
      cases hminus
    · exact ⟨f, fd, hkept⟩

end OsProjects.Kernel.Vfs
