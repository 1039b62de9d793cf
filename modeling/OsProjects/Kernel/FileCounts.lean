import OsProjects.Kernel.FileRefs

/-!
# FileCounts — references, reuse and release of open files over whole runs
-/

namespace OsProjects.Kernel.Files

open Lib Function Finset

section Run

variable {P : Type} [Fintype P] [DecidableEq P] {fd : Fin NOFILE} {f : Fin NFILE}

theorem sound : (rules (P := P)).Sound exec (fun _ _ _ => True) Inv := by
  intro s locs p a r s' h _ hpre hexec
  cases a with
  | enter =>
    simp only [exec] at hexec
    split at hexec
    · rename_i hrun
      cases hexec
      exact ⟨_, ⟨s.ofile p, rfl⟩, h.enter hrun hpre⟩
    · cases hexec
  | filealloc =>
    simp only [exec] at hexec
    split at hexec
    · rename_i f hfound
      cases hexec
      obtain ⟨hnew, hinv⟩ := h.filealloc hpre hfound
      exact ⟨_, ⟨hnew, rfl⟩, hinv⟩
    · cases hexec
      exact ⟨locs p, rfl, by rwa [update_eq_self]⟩
  | filedup f =>
    simp only [exec] at hexec
    obtain ⟨hactive, -, hpos, hfilled, hstale⟩ := hpre
    split at hexec
    · cases hexec
    · cases hexec
      exact ⟨_, rfl, (h.filedup hactive hpos hfilled hstale).2⟩
  | dropFile f =>
    simp only [exec] at hexec
    obtain ⟨-, hmore, hlast⟩ := h.dropFile hpre.1 hpre.2
    split at hexec
    · cases hexec
    · split at hexec
      · rename_i hpos
        cases hexec
        exact ⟨_, rfl, hmore hpos⟩
      · rename_i hpos
        cases hexec
        exact ⟨_, rfl, hlast hpos⟩
  | pipeclose pipe writable | iput serial ip =>
    cases hexec
    exact ⟨_, rfl, h.giveUp hpre⟩
  | argfd fd =>
    cases hexec
    have htable := (h.table p hpre.active).1
    exact ⟨locs p, ⟨by rw [htable], rfl⟩, by rwa [update_eq_self]⟩
  | ofile fd =>
    cases hexec
    obtain ⟨htable, hrun⟩ := h.table p hpre.active
    refine ⟨_, ⟨by rw [htable], rfl⟩, ?_⟩
    exact h.shift (fun _ _ => rfl) hrun hpre.active htable (fun _ => rfl) rfl rfl rfl
  | fdalloc f =>
    have htable := (h.table p hpre.1.active).1
    simp only [exec] at hexec
    split at hexec
    · rename_i fd hfound
      cases hexec
      exact ⟨_, ⟨htable ▸ hfound, rfl⟩, h.fdalloc hpre.1 hfound⟩
    · rename_i hfull
      cases hexec
      exact ⟨locs p, ⟨htable ▸ hfull, rfl⟩, by rwa [update_eq_self]⟩
  | clearFd fd =>
    cases hexec
    exact ⟨_, rfl, h.clearFd hpre.1 hpre.2.2⟩
  | initPipe f0 f1 =>
    cases hexec
    obtain ⟨hready, h0, h1, hne⟩ := hpre
    have hinv := h.initPipe hready h0 h1 hne
    have hkept : (s.setFile f0 ((s.file f0).piped s.pipes false)).file f1 = s.file f1 :=
      update_of_ne hne.symm ..
    rw [hkept]
    exact ⟨_, rfl, hinv⟩
  | initInode f ip device readable writable =>
    cases hexec
    exact ⟨_, rfl, h.initInode hpre.1 hpre.2 ip device readable writable⟩
  | allocproc np =>
    simp only [exec] at hexec
    split at hexec
    · rename_i hunused
      cases hexec
      exact ⟨_, rfl, h.allocproc hpre.1 hunused⟩
    · cases hexec
  | freeproc np =>
    cases hexec
    exact ⟨_, rfl, h.child_done hpre.1 hpre.2 fun _ _ => rfl⟩
  | giveFd np fd f =>
    cases hexec
    obtain ⟨hready, hheld, hfilled, t, hchild, hfree⟩ := hpre
    refine ⟨_, rfl, ?_⟩
    rw [hchild]
    exact h.giveFd hready hheld hfilled hchild hfree
  | start np =>
    cases hexec
    obtain ⟨hready, t, hchild⟩ := hpre
    exact ⟨_, rfl, h.child_done hready hchild nofun⟩
  | zombie =>
    cases hexec
    exact ⟨_, rfl, h.zombie hpre.1 hpre.2.1 hpre.2.2⟩
  | reap q =>
    simp only [exec] at hexec
    split at hexec
    · rename_i hzombie
      cases hexec
      exact ⟨_, rfl, h.reap hpre hzombie⟩
    · cases hexec

theorem inv_boot (init : P) : Inv (.boot init) fun _ : P => Loc.out := by
  refine ⟨fun f => ?_, fun _ _ => rfl, (fun _ h => by cases h),
    fun _ _ => ⟨rfl, rfl, rfl, rfl, rfl⟩, (fun _ _ h => by cases h), (fun _ _ _ h => by cases h),
    fun _ _ _ => rfl, fun o => ?_⟩
  · have hcount : ∀ p : P, count ((Sys.boot init).ofile p) (.out : Loc P) f = 0 := by
      intro p
      simp only [count, entries, Sys.boot, Loc.out, reduceCtorEq, false_and, if_false,
        sum_const_zero, Multiset.count_zero]
    exact (sum_eq_zero fun p _ => hcount p).symm
  · have hcloses : ∀ p : P, (Loc.out : Loc P).closes o = 0 := fun _ => if_neg (by simp [Loc.out])
    have hcarries : ∀ f, ((Sys.boot init).file f).carries o = 0 :=
      fun _ => if_neg (by simp [Sys.boot, File.obj])
    have hmade : ¬(Sys.boot init).Made o := by
      cases o with
      | pipeEnd k w => exact Nat.not_lt_zero k
      | opening n ip => simp [Sys.Made, Sys.boot]
    rw [if_neg hmade, sum_eq_zero fun p _ => hcloses p, sum_eq_zero fun f _ => hcarries f]
    rfl

theorem inv_of_reached {init : P} {c : Config (Sys P) P (Act P) Act.Reply Int}
    (h : Reached init c) : ∃ locs, Inv c.shared locs ∧ rules.Kept Loc.Idle locs c :=
  sound.reach keeps_code (inv_boot init) (fun _ => ⟨rfl, rfl, rfl, rfl, rfl⟩) h

/-! ## What a process in the middle of a call goes on to do -/

/-- The end of `fileclose` gives this up. -/
def Act.gives : Act P → Option Obj
  | .pipeclose pipe writable => some (.pipeEnd pipe writable)
  | .iput serial ip => some (.opening serial ip)
  | _ => none

/-- The descriptor that a process clears before it does anything else, the end
of `fileclose` aside. -/
def clears : Code P Int → Option (Fin NOFILE)
  | .act (.pipeclose _ _) k => clears (k ())
  | .act (.iput _ _) k => clears (k ())
  | .act (.clearFd fd) _ => some fd
  | _ => none

-- A descriptor that has lost its reference can only be cleared, as the file it names is not the
-- process's any more.
omit [Fintype P] [DecidableEq P] in
theorem clears_of_stale (x : Code P Int) (l : Loc P)
    (h : rules.Keeps x l fun _ => Loc.Idle) (hstale : l.stale = some fd) (hfd : l.fds fd = some f)
    (hlost : l.backed f = 0) : clears x = some fd := by
  induction x generalizing l with
  | ret y => cases hstale.symm.trans (Loc.Idle.stale h)
  | act a k ih =>
    have hnot : ¬l.Ready := fun hready => by cases hstale.symm.trans hready.stale
    obtain ⟨hpre, hrest⟩ := h
    cases a with
    | enter => cases hstale.symm.trans (Loc.Idle.stale hpre)
    | filealloc | argfd | ofile | reap => exact absurd hpre hnot
    | dropFile | fdalloc | initPipe | initInode | allocproc | freeproc | giveFd | start
    | zombie => exact absurd hpre.1 hnot
    | filedup g =>
      obtain ⟨-, -, hpos, -, hnone | ⟨fd', hfd', hg⟩⟩ := hpre
      · cases hstale.symm.trans hnone
      · cases hstale.symm.trans hfd'
        cases hfd.symm.trans hg
        omega
    | pipeclose pipe writable | iput serial ip => exact ih () _ (hrest () _ rfl) hstale hfd hlost
    | clearFd fd' =>
      rcases hpre.2.2 with hnone | hfd'
      · cases hstale.symm.trans hnone
      · exact hfd'.symm.trans hstale

omit [Fintype P] [DecidableEq P] in
theorem closing_of_pre {a : Act P} {l : Loc P} (h : pre a l) : l.closing = a.gives := by
  cases a with
  | pipeclose | iput => exact h
  | enter | filealloc | argfd | ofile | reap => exact h.closing
  | filedup | clearFd => exact h.2.1
  | dropFile | fdalloc | initPipe | initInode | allocproc | freeproc | giveFd | start
  | zombie => exact h.1.closing

section Kept

variable {c : Config (Sys P) P (Act P) Act.Reply Int} {locs : P → Loc P}

omit [Fintype P] [DecidableEq P] in
theorem closing_of_kept (h : rules.Kept Loc.Idle locs c) (p : P) :
    (locs p).closing = (c.next p).bind Act.gives := by
  have hp := h p
  unfold Config.next
  match hjob : c.jobs p with
  | none =>
    rw [hjob] at hp
    exact hp.closing
  | some (.ret y) =>
    rw [hjob] at hp
    exact Loc.Idle.closing hp
  | some (.act a k) =>
    rw [hjob] at hp
    exact closing_of_pre hp.1

omit [DecidableEq P] in
theorem Inv.lost (h : Inv c.shared locs) (hkept : rules.Kept Loc.Idle locs c)
    (hzero : (c.shared.file f).ref = 0) {q : P} (hfd : c.shared.ofile q fd = some f) :
    (c.jobs q).bind clears = some fd := by
  have hcount : count (c.shared.ofile q) (locs q) f = 0 := by
    have hle := h.count_le q f
    omega
  have hstale : (locs q).stale = some fd := by
    by_contra hstale
    have hpos := entries_pos hfd hstale
    unfold count at hcount
    omega
  have hactive : (locs q).active = true := by
    by_contra hout
    cases hstale.symm.trans (h.out q (Bool.not_eq_true _ ▸ hout)).stale
  have htable := (h.table q hactive).1
  have hq := hkept q
  cases hjob : c.jobs q with
  | none =>
    rw [hjob] at hq
    cases hstale.symm.trans (Loc.Idle.stale hq)
  | some x =>
    rw [hjob] at hq
    exact clears_of_stale x (locs q) hq hstale (htable ▸ hfd)
      (by rw [Loc.backed, ← htable]; exact hcount)

theorem Inv.no_panic (h : Inv c.shared locs) {p : P} {a : Act P} (hpre : pre a (locs p))
    (msg : String) : exec p a c.shared ≠ .error (.panic msg) := by
  intro hexec
  cases a with
  | filedup f =>
    obtain ⟨hactive, -, hpos, hfilled, hstale⟩ := hpre
    have href := (h.filedup hactive hpos hfilled hstale).1
    rw [exec, if_neg (Nat.not_lt.mpr href)] at hexec
    cases hexec
  | dropFile f =>
    have href := (h.dropFile hpre.1 hpre.2).1
    rw [exec, if_neg (Nat.not_lt.mpr href)] at hexec
    split at hexec <;> cases hexec
  | enter | filealloc | fdalloc | allocproc | reap =>
    simp only [exec] at hexec
    split at hexec <;> cases hexec
  | pipeclose | iput | argfd | ofile | clearFd | initPipe | initInode | freeproc | giveFd | start
  | zombie => cases hexec

omit [DecidableEq P] in
-- Between calls every reference is in a descriptor.
theorem Inv.ref_eq_card (h : Inv c.shared locs) (hidle : ∀ p, (locs p).Idle) (f : Fin NFILE) :
    (c.shared.file f).ref = Finset.card {x : P × Fin NOFILE | c.shared.ofile x.1 x.2 = some f} := by
  rw [h.ref, card_filter, Fintype.sum_prod_type]
  refine sum_congr rfl fun p _ => ?_
  simp only [count, (hidle p).stale, (hidle p).held, entries, ne_eq, reduceCtorEq,
    not_false_eq_true, and_true, Multiset.count_zero, Nat.add_zero]

omit [DecidableEq P] in
theorem Inv.once (h : Inv c.shared locs) (hkept : rules.Kept Loc.Idle locs c) (o : Obj) :
    c.shared.released.count o + Finset.card {p | (c.next p).bind Act.gives = some o} +
      Finset.card {f | (c.shared.file f).obj = some o} = if c.shared.Made o then 1 else 0 := by
  rw [card_filter, card_filter, ← h.objs o]
  simp only [Loc.closes, closing_of_kept hkept]
  rfl

end Kept

/-! ## Whole runs -/

/-- How files are counted in the middle of a run. -/
structure Counted (c : Config (Sys P) P (Act P) Act.Reply Int) : Prop where
  /-- Between calls the references of a file are the descriptors that point to it. -/
  ref : c.Quiescent → ∀ f,
    (c.shared.file f).ref = Finset.card {x : P × Fin NOFILE | c.shared.ofile x.1 x.2 = some f}
  /-- `filealloc` comes upon a file to which no descriptor points, apart from one that its
  process is about to clear, as `exit` does after `fileclose`. -/
  reuse : ∀ p f, c.next p = some .filealloc → c.shared.findFile = some f → ∀ q fd,
    c.shared.ofile q fd = some f → (c.jobs q).bind clears = some fd
  /-- An end of a pipe that was made, or an inode that was opened, has been given up once, or is
  about to be by one process, or is in one file. -/
  once : ∀ o, c.shared.released.count o + Finset.card {p | (c.next p).bind Act.gives = some o} +
    Finset.card {f | (c.shared.file f).obj = some o} = if c.shared.Made o then 1 else 0
  /-- Between calls it has been given up when no descriptor leads to it. -/
  last : c.Quiescent → ∀ o, c.shared.Made o →
    (o ∈ c.shared.released ↔ ∀ q fd f, c.shared.ofile q fd = some f →
      (c.shared.file f).obj ≠ some o)
  panic : ∀ p a msg, c.next p = some a → exec p a c.shared ≠ .error (.panic msg)

theorem files_counted (init : P) (c : Config (Sys P) P (Act P) Act.Reply Int) (h : Reached init c) :
    Counted c := by
  obtain ⟨locs, hinv, hkept⟩ := inv_of_reached h
  have href : c.Quiescent → ∀ f,
      (c.shared.file f).ref = Finset.card {x : P × Fin NOFILE | c.shared.ofile x.1 x.2 = some f} :=
    fun hquiet => hinv.ref_eq_card fun p => hkept.rests (hquiet p)
  refine ⟨href, fun p f _ hfound q fd hfd => hinv.lost hkept (findFile_some hfound) hfd,
    hinv.once hkept, fun hquiet o hmade => ⟨fun hgone q fd f _ hobj => ?_, fun hnone => ?_⟩,
    fun p a msg hnext => hinv.no_panic (hkept.pre hnext) msg⟩
  · have honce := hinv.once hkept o
    have hpos := List.count_pos_iff.mpr hgone
    have hcard : 0 < Finset.card {f | (c.shared.file f).obj = some o} :=
      card_pos.mpr ⟨f, mem_filter.mpr ⟨mem_univ f, hobj⟩⟩
    rw [if_pos hmade] at honce
    omega
  · by_contra hkeep
    have honce := hinv.once hkept o
    have hnext : Finset.card {p | (c.next p).bind Act.gives = some o} = 0 := by
      refine card_eq_zero.mpr (filter_eq_empty_iff.mpr fun p _ => ?_)
      rw [Config.next, hquiet p]
      simp
    rw [if_pos hmade, hnext, List.count_eq_zero.mpr hkeep] at honce
    -- a file still stands for it, so that file has a reference, which is in a descriptor
    obtain ⟨f, hf⟩ := card_pos.mp
      (show 0 < Finset.card {f | (c.shared.file f).obj = some o} by omega)
    have hobj := (mem_filter.mp hf).2
    have hpos : 0 < (c.shared.file f).ref := by
      by_contra hzero
      have htype := hinv.free f (Nat.eq_zero_of_not_pos hzero)
      rw [File.obj, htype] at hobj
      cases hobj
    rw [href hquiet f] at hpos
    obtain ⟨⟨q, fd⟩, hfd⟩ := card_pos.mp hpos
    exact hnone q fd f (mem_filter.mp hfd).2 hobj

end Run

-- `init` opens a file, duplicates the descriptor and closes the first.
theorem files_counted_dup : ∃ c : Config (Sys Bool) Bool (Act Bool) Act.Reply Int, Reached false c ∧
    c.Quiescent ∧ (c.shared.file 0).ref = 1 ∧ Counted c := by
  obtain ⟨c, hreach, hc⟩ := exists_reach_of_follow (Config.step exec Call.code)
    (Config.Admits fun _ _ _ => True) ⟨.boot false, fun _ => none⟩
    ([.start false (.open (some (7, false)) true false)] ++ List.replicate 4 (.run false) ++
      [.start false (.dup 0)] ++ List.replicate 4 (.run false) ++
      [.start false (.close 0)] ++ List.replicate 4 (.run false))
    (fun c => (c.jobs false).isNone && (c.jobs true).isNone && (c.shared.file 0).ref == 1)
    (by decide +kernel)
  simp only [Bool.and_eq_true, Option.isNone_iff_eq_none, beq_iff_eq] at hc
  exact ⟨c, hreach, Bool.forall_bool.mpr hc.1, hc.2, files_counted false c hreach⟩

def Act.isFilealloc : Act P → Bool
  | .filealloc => true
  | _ => false

-- The child of `init` has opened a file and is in `exit`, between the two critical sections of
-- `fileclose`; its descriptor still points to the file that the `filealloc` of `init` comes upon.
theorem filealloc_before_exit_clears : ∃ c : Config (Sys Bool) Bool (Act Bool) Act.Reply Int,
    Reached false c ∧ (∃ p, c.next p = some .filealloc) ∧ c.shared.findFile = some 0 ∧
      c.shared.ofile true 0 = some 0 := by
  obtain ⟨c, hreach, hc⟩ := exists_reach_of_follow (Config.step exec Call.code)
    (Config.Admits fun _ _ _ => True) ⟨.boot false, fun _ => none⟩
    ([.start false (.fork (some true) true)] ++ List.replicate 19 (.run false) ++
      [.start true (.open (some (7, false)) true false)] ++ List.replicate 4 (.run true) ++
      [.start true .exit] ++ List.replicate 3 (.run true) ++
      [.start false (.open (some (8, false)) true false), .run false])
    (fun c => (c.next false).any Act.isFilealloc &&
      c.shared.findFile == some 0 && c.shared.ofile true 0 == some 0) (by decide +kernel)
  simp only [Bool.and_eq_true, beq_iff_eq] at hc
  refine ⟨c, hreach, ⟨false, ?_⟩, hc.1.2, hc.2⟩
  obtain ⟨a, hnext, hact⟩ := (Option.any_eq_true _ _).mp hc.1.1
  cases a with
  | filealloc => exact hnext
  | _ => cases hact

end OsProjects.Kernel.Files
