import OsProjects.Kernel.ProcInv

/-!
# Reaping — every child is waited for once, by the right process
-/

namespace OsProjects.Kernel.Procs

open Function

open Lib

variable {NPROC : Nat} [NeZero NPROC] {s s' : State NPROC} {e : Event NPROC} {addr : BitVec 64}

omit [NeZero NPROC] in
theorem eq_of_update_freed {t : Table NPROC} {p q : Fin NPROC} {x : Proc NPROC}
    (hold : (t q).state ≠ .unused) (hnew : (update t p x q).state = .unused) : q = p := by
  by_contra hqp
  rw [update_of_ne hqp] at hnew
  exact hold hnew

-- Of the steps that make a slot unused, all but `wait` find it unused.
theorem State.Step.freed (hstep : s.Step e s') {q : Fin NPROC}
    (hold : (s.proc q).state ≠ .unused) (hnew : (s'.proc q).state = .unused) :
    ∃ p ok addr, e = .run p ok ∧ s.pc p = .wait addr ∧ (s.proc q).parent = some p ∧
      (s.proc q).state = .zombie := by
  cases hstep with
  | quiet hquiet hkilled
  | kill ok hpc hpid hquiet => exact absurd (((hquiet.proc q).state_iff id).mp hnew) hold
  | fork ok hrun hpc hfree =>
    cases ok with
    | false =>
      rw [State.forkAt_proc_false] at hnew
      cases eq_of_update_freed hold hnew
      exact absurd hfree hold
    | true =>
      cases eq_of_update_freed hold hnew
      exact absurd hfree hold
  | @adopt p np pid ok hrun hpc =>
    cases eq_of_update_freed hold hnew
    have hself : ((s.setProc q { s.proc q with parent := some p }).setPc p (.start q pid)).proc q =
      { s.proc q with parent := some p } := update_self ..
    rw [hself] at hnew
    exact absurd hnew hold
  | @start p np pid ok hrun hpc =>
    cases eq_of_update_freed hold hnew
    have hself :
        ((s.setProc q { s.proc q with state := .runnable }).setPc p (.user pid.toInt)).proc q =
      { s.proc q with state := .runnable } := update_self ..
    rw [hself] at hnew
    cases hnew
  | @exit p status ok hrun hpc =>
    by_cases hqp : q = p
    · subst hqp
      cases State.exit_proc_self.1.symm.trans hnew
    · exact absurd (((State.exit_proc_of_ne hqp).state_iff id).mp hnew) hold
  | @reap p pp addr ok hrun hpc hparent hzombie =>
    cases eq_of_update_freed hold hnew
    exact ⟨p, ok, addr, rfl, hpc, hparent, hzombie⟩

/-- The rules that parents and children follow. -/
structure State.Reaps (s : State NPROC) : Prop where
  parent_lives : ∀ q p, (s.proc q).state ≠ .unused → q ≠ State.initproc →
    (s.proc q).parent = some p → (s.proc p).state ≠ .unused ∧ (s.proc p).state ≠ .zombie
  /-- A slot in use is freed by a `wait` of the parent, and when it is a zombie. -/
  freed : ∀ e s' q, s.step e = .ok s' → (s.proc q).state ≠ .unused → (s'.proc q).state = .unused →
    ∃ p ok addr, e = .run p ok ∧ s.pc p = .wait addr ∧ (s.proc q).parent = some p ∧
      (s.proc q).state = .zombie
  /-- A `wait` that returns a pid returns that of a child which is then recorded as reaped. -/
  returned : ∀ p addr ok s', s.pc p = .wait addr → s.step (.run p ok) = .ok s' →
    s'.reaped = s.reaped ∧ (s'.proc = s.proc ∧ s'.pc p = .user (-1) ∨ s'.pc p = .wait addr) ∨
    ∃ q f, (s.proc q).parent = some p ∧ (s.proc q).state = .zombie ∧
      s.born[s.serial q]? = some (f, (s.proc q).pid) ∧ s'.pc p = .user (s.proc q).pid.toInt ∧
      s'.reaped = s.serial q :: s.reaped ∧ (f ∉ s.exited → s.serial p = f) ∧
      (f ∈ s.exited → p = State.initproc)
  once : s.reaped.Nodup
  /-- With a child to wait for, `wait` returns: -1, with the table as it was, when it cannot copy
  the status out, and the pid of a zombie otherwise. -/
  waitable : ∀ p q addr ok, s.pc p = .wait addr → (s.proc p).state = .running →
    (s.proc q).parent = some p → (s.proc q).state = .zombie →
    ∃ s', s.step (.run p ok) = .ok s' ∧
      if addr ≠ 0 ∧ ok = false then s'.proc = s.proc ∧ s'.pc p = .user (-1)
      else ∃ q', (s.proc q').parent = some p ∧ (s.proc q').state = .zombie ∧
        s'.pc p = .user (s.proc q').pid.toInt ∧ (s'.proc q').state = .unused

theorem children_reaped_once (h : Reach State.step (fun _ _ => True) State.boot s) : s.Reaps := by
  have hinv := State.inv_of_reach h
  refine ⟨fun q p _ _ hparent => ?_, fun e s' q hok => (State.step_ok hok).freed,
    fun p addr ok s' hpc hok => ?_, hinv.once, fun p q addr ok hpc hrun hparent hzombie => ?_⟩
  · have hlive := hinv.parent q p hparent
    constructor
    · intro hstate
      rwa [hstate] at hlive
    · intro hstate
      rwa [hstate] at hlive
  · -- it finds an exited child or none, and returns -1 or goes to sleep without one
    simp only [State.step, State.run, hpc] at hok
    split at hok
    · cases hok
      unfold State.wait
      cases hfound : Table.zombieChild s.proc p with
      | some q =>
        obtain ⟨hparent, hzombie⟩ := Table.zombieChild_some hfound
        obtain ⟨f, hf⟩ := hinv.recorded q (by simp [hzombie])
        simp only
        split
        · exact .inl ⟨rfl, .inl ⟨rfl, update_self ..⟩⟩
        · exact .inr ⟨q, f, hparent, hzombie, hf.born, update_self .., rfl, hf.parent p hparent⟩
      | none =>
        simp only
        split
        · exact .inl ⟨rfl, .inl ⟨rfl, update_self ..⟩⟩
        · exact .inl ⟨rfl, .inr hpc⟩
    · cases hok
  · -- with an exited child there are two outcomes, and `copyout` decides which
    obtain ⟨q', hfound⟩ := Table.zombieChild_isSome hparent hzombie
    obtain ⟨hparent', hzombie'⟩ := Table.zombieChild_some hfound
    have hstep : s.step (.run p ok) = .ok (s.wait p addr ok) := by
      simp only [State.step, State.run, hrun, if_true, hpc]
    refine ⟨s.wait p addr ok, hstep, ?_⟩
    unfold State.wait
    simp only [hfound]
    split
    · exact ⟨rfl, update_self ..⟩
    · refine ⟨q', hparent', hzombie', update_self .., ?_⟩
      have hself : Table.freeproc s.proc q' q' = ⟨.unused, none, 0, 0, 0, none⟩ := update_self ..
      exact congrArg Proc.state hself

-- `init` forks a child, which forks in turn and exits; `init` reaps it and then has the grandchild.
theorem children_reaped_once_orphan :
    ∃ s : State 64, Reach State.step (fun _ _ => True) State.boot s ∧
    s.pc 0 = .user 2 ∧ (s.proc 2).parent = some 0 ∧ s.reaped = [1] ∧ s.Reaps := by
  obtain ⟨s, hs, hp⟩ := exists_reach_of_follow State.step (fun _ _ => True) (State.boot : State 64)
    [.schedule 0, .call 0 .fork, .run 0 true, .run 0 true, .run 0 true, .run 0 true,
      .schedule 1, .call 1 .fork, .run 1 true, .run 1 true, .run 1 true, .run 1 true, .run 1 true,
      .call 1 (.exit 7), .run 1 true, .call 0 (.wait 0x1000), .run 0 false,
      .call 0 (.wait 0), .run 0 true]
    (fun s => decide (s.pc 0 = .user 2 ∧ (s.proc 2).parent = some 0 ∧ s.reaped = [1]))
    (by decide +kernel)
  obtain ⟨hpc, hparent, hreaped⟩ := of_decide_eq_true hp
  exact ⟨s, hs, hpc, hparent, hreaped, children_reaped_once hs⟩

-- `init` forks without memory: `freeproc` is applied to the slot that `allocproc` has just taken.
theorem fork_frees_slot : ∃ s s' : State 64, Reach State.step (fun _ _ => True) State.boot s ∧
    s.pc 0 = .allocproc 1 ∧ s.step (.run 0 false) = .ok s' ∧ ∃ t : Table 64,
      t = update s.proc 1 { s.proc 1 with pid := s.nextpid, state := .used } ∧
      s'.proc = t.freeproc 1 := by
  obtain ⟨s, hs, hp⟩ := exists_reach_of_follow State.step (fun _ _ => True) (State.boot : State 64)
    [.schedule 0, .call 0 .fork, .run 0 true]
    (fun s => decide (s.pc 0 = .allocproc 1 ∧ (s.proc 0).state = .running ∧
      (s.proc 1).state = .unused))
    (by decide +kernel)
  obtain ⟨hpc, hrun, hfree⟩ := of_decide_eq_true hp
  refine ⟨s, s.forkAt 0 1 false, hs, hpc, ?_, _, rfl, rfl⟩
  have hslot : (s.proc ⟨1, by decide⟩).state = .unused := hfree
  simp only [State.step, State.run, hrun, hpc, if_true, hslot]
  rfl

end OsProjects.Kernel.Procs
