import OsProjects.Kernel.ProcInv

/-!
# FreeSlots — what is left in the slot of a process that is gone

`allocproc` takes over `killed`, `chan` and `parent` of an unused slot as they are.  `kill` compares
its argument with the pid of every slot, and that of an unused one is 0.
-/

namespace OsProjects.Kernel.Procs

open Function

open Lib

variable {NPROC : Nat}

theorem Table.wakeup_killed (t : Table NPROC) (self : Fin NPROC) (chan : Option (Chan NPROC))
    (q : Fin NPROC) : (t.wakeup self chan q).killed = (t q).killed := by
  unfold wakeup
  split <;> rfl

theorem Table.reparent_killed (t : Table NPROC) (p initproc q : Fin NPROC) :
    (t.reparent p initproc q).killed = (t q).killed := by
  have hvisit : ∀ (t : Table NPROC) pp, (t.reparentAt p initproc pp q).killed = (t q).killed := by
    intro t pp
    unfold reparentAt
    split
    · rw [wakeup_killed]
      by_cases hq : q = pp
      · rw [hq, update_self]
      · rw [update_of_ne hq]
    · rfl
  have hloop : ∀ (l : List (Fin NPROC)) (t : Table NPROC),
      (l.foldl (reparentAt p initproc) t q).killed = (t q).killed := by
    intro l
    induction l with
    | nil => exact fun _ => rfl
    | cons pp l ih => exact fun t => (ih _).trans (hvisit t pp)
  exact hloop _ t

/-- The step is not one of a `kill(0)` that comes upon an unused slot. -/
def State.SparesFree (s : State NPROC) : Event NPROC → Prop
  | .run p _ => match s.pc p with
    | .kill pid i => ∀ q : Fin NPROC, q.val = i → pid = 0 → (s.proc q).state ≠ .unused
    | _ => True
  | _ => True

instance (s : State NPROC) (e : Event NPROC) : Decidable (s.SparesFree e) := by
  unfold State.SparesFree
  split
  · split <;> infer_instance
  · infer_instance

section Clean

variable [NeZero NPROC]

def State.Clean (s : State NPROC) : Prop :=
  ∀ q, (s.proc q).state = .unused → (s.proc q).killed = 0

variable {s s' : State NPROC} {e : Event NPROC} {p q : Fin NPROC} {t : Table NPROC}
  {pid : BitVec 32} {x : Proc NPROC}

theorem State.clean_boot : (State.boot : State NPROC).Clean := by
  intro q _
  rcases State.boot_cases q with ⟨-, hq⟩ | hq
  · rw [hq]
  · rw [hq]

omit [NeZero NPROC] in
theorem killed_update (h : ∀ q, (t q).state = .unused → (t q).killed = 0)
    (hx : x.state = .unused → x.killed = 0) (q : Fin NPROC)
    (hq : (update t p x q).state = .unused) : (update t p x q).killed = 0 := by
  by_cases hqp : q = p
  · rw [hqp, update_self] at hq ⊢
    exact hx hq
  · rw [update_of_ne hqp] at hq ⊢
    exact h q hq

-- The pid of an unused slot is 0.
theorem State.Inv.spared (hinv : s.Inv) {ok : Bool}
    (hpc : s.pc p = .kill pid q) (he : s.SparesFree (.run p ok)) (hpid : (s.proc q).pid = pid) :
    (s.proc q).state ≠ .unused := by
  intro hstate
  simp only [State.SparesFree, hpc] at he
  exact he q rfl (hpid.symm.trans (hinv.free q hstate).1) hstate

theorem State.Clean.step (hinv : s.Inv) (h : s.Clean) (he : s.SparesFree e) (hstep : s.Step e s') :
    s'.Clean := by
  cases hstep with
  | quiet hquiet hkilled =>
    intro q hq
    have hstate := ((hquiet.proc q).state_iff id).mp hq
    rw [hkilled q hstate]
    exact h q hstate
  | @kill p q pid ok hpc hpid hquiet =>
    intro q' hq'
    have hstate := ((hquiet.proc q').state_iff id).mp hq'
    have hne : q' ≠ q := by
      rintro rfl
      exact hinv.spared hpc he hpid hstate
    exact (congrArg Proc.killed (update_of_ne hne ..)).trans (h q' hstate)
  | fork ok hrun hpc hfree =>
    cases ok with
    | false =>
      unfold State.Clean
      rw [State.forkAt_proc_false]
      exact killed_update h fun _ => rfl
    | true => exact killed_update h nofun
  | adopt ok hrun hpc => exact killed_update h (h _)
  | start ok hrun hpc => exact killed_update h nofun
  | exit ok hrun hpc =>
    refine killed_update (fun q hq => ?_) nofun
    have hwoken := ((Table.wakeup_touches _ _ _ q).state_iff id).mp hq
    rw [Table.wakeup_killed, Table.reparent_killed]
    exact h q (((Table.reparent_touches s.proc _ State.initproc q).state_iff id).mp hwoken)
  | reap ok hrun hpc hparent hzombie => exact killed_update h fun _ => rfl

theorem State.clean_of_reach (h : Reach State.step State.SparesFree State.boot s) : s.Clean := by
  have hboth : s.Inv ∧ s.Clean := by
    refine @Reach.invariant _ _ _ State.step _ _ s (fun s => s.Inv ∧ s.Clean) h
      ⟨State.inv_boot, State.clean_boot⟩ fun s e s' ⟨hinv, hs⟩ he hok => ?_
    have hstep := State.step_ok hok
    exact ⟨hinv.step hstep, hs.step hinv he hstep⟩
  exact hboth.2

/-- A step of `kill`: it finds the process, and changes no other slot; or it changes nothing. -/
theorem State.Inv.kill_run {i : Nat} {ok : Bool} (hinv : s.Inv)
    (hpc : s.pc p = .kill pid i) (he : s.SparesFree (.run p ok))
    (hok : s.step (.run p ok) = .ok s') :
    (∃ q, (s.proc q).state ≠ .unused ∧ (s.proc q).pid = pid ∧ (∀ q' ≠ q, s'.proc q' = s.proc q') ∧
      s'.pc p = .user 0) ∨
    s'.proc = s.proc ∧ (s'.pc p = .kill pid (i + 1) ∨ s'.pc p = .user (-1)) := by
  simp only [State.step, State.run, hpc] at hok
  split at hok
  · split at hok
    · split at hok
      · rename_i hi hpid
        cases hok
        refine .inl ⟨⟨i, hi⟩, hinv.spared hpc he hpid, hpid, fun q' hq' => ?_, ?_⟩
        · exact update_of_ne hq' ..
        · exact update_self ..
      · cases hok
        exact .inr ⟨rfl, .inl (update_self ..)⟩
    · cases hok
      exact .inr ⟨rfl, .inr (update_self ..)⟩
  · cases hok

omit [NeZero NPROC] in
theorem eq_of_update_taken
    (hold : (t q).state = .unused) (hnew : (update t p x q).state ≠ .unused) : q = p := by
  by_contra hqp
  rw [update_of_ne hqp] at hnew
  exact hnew hold

-- A slot is taken by `fork` only, which sets nothing of it but state and pid.
theorem State.Inv.taken (hinv : s.Inv) (hstep : s.Step e s')
    (hold : (s.proc q).state = .unused) (hnew : (s'.proc q).state ≠ .unused) :
    (s'.proc q).killed = (s.proc q).killed := by
  cases hstep with
  | quiet hquiet hkilled => exact hkilled q hold
  | kill ok hpc hpid hquiet => exact absurd (((hquiet.proc q).state_iff id).mpr hold) hnew
  | @fork p np i ok hrun hpc hfree =>
    cases ok with
    | false =>
      rw [State.forkAt_proc_false] at hnew
      cases eq_of_update_taken hold hnew
      have hself : Table.freeproc s.proc q q = ⟨.unused, none, 0, 0, 0, none⟩ := update_self ..
      exact absurd (congrArg Proc.state hself) hnew
    | true =>
      cases eq_of_update_taken hold hnew
      have hself : (s.forkAt p q true).proc q =
          { s.proc q with pid := s.nextpid, state := .used } :=
        update_self ..
      rw [hself]
  | @adopt p np pid ok hrun hpc | @start p np pid ok hrun hpc =>
    cases eq_of_update_taken hold hnew
    cases hold.symm.trans (hinv.child p q (by rw [hpc]; rfl)).2.1
  | @exit p status ok hrun hpc =>
    have hqp : q ≠ p := by
      rintro rfl
      cases hold.symm.trans hrun
    exact absurd (((State.exit_proc_of_ne hqp).state_iff id).mpr hold) hnew
  | reap ok hrun hpc hparent hzombie =>
    cases eq_of_update_taken hold hnew
    cases hold.symm.trans hzombie

/-- As long as no `kill(0)` comes upon an unused slot, these slots are clean, `kill` changes the
slot of a process with the pid or nothing, and a new process has not been killed. -/
theorem free_slots_clean (h : Reach State.step State.SparesFree State.boot s) :
    (∀ q, (s.proc q).state = .unused →
      (s.proc q).killed = 0 ∧ (s.proc q).chan = none ∧ (s.proc q).parent = none) ∧
    (∀ p pid i ok s', s.pc p = .kill pid i → s.SparesFree (.run p ok) →
      s.step (.run p ok) = .ok s' →
      (∃ q, (s.proc q).state ≠ .unused ∧ (s.proc q).pid = pid ∧ (∀ q' ≠ q, s'.proc q' = s.proc q') ∧
        s'.pc p = .user 0) ∨
      s'.proc = s.proc ∧ (s'.pc p = .kill pid (i + 1) ∨ s'.pc p = .user (-1))) ∧
    ∀ e s' q, s.step e = .ok s' → (s.proc q).state = .unused → (s'.proc q).state ≠ .unused →
      (s'.proc q).killed = 0 := by
  have hinv := State.inv_of_reach h
  have hclean := State.clean_of_reach h
  refine ⟨fun q hq => ⟨hclean q hq, (hinv.free q hq).2⟩, fun p pid i ok s' hpc he hok =>
    hinv.kill_run hpc he hok, fun e s' q hok hold hnew => ?_⟩
  rw [hinv.taken (State.step_ok hok) hold hnew]
  exact hclean q hold

end Clean

-- `init` kills its child, which exits and is waited for.
theorem free_slots_clean_killed : ∃ s : State 64, Reach State.step State.SparesFree State.boot s ∧
    s.reaped = [1] ∧ s.pc 0 = .user 2 ∧ (s.proc 1).state = .unused ∧ (s.proc 1).killed = 0 ∧
      (s.proc 1).chan = none ∧ (s.proc 1).parent = none := by
  obtain ⟨s, hs, hp⟩ := exists_reach_of_follow State.step State.SparesFree (State.boot : State 64)
    [.schedule 0, .call 0 .fork, .run 0 true, .run 0 true, .run 0 true, .run 0 true,
      .call 0 (.kill 2), .run 0 true, .run 0 true, .schedule 1, .call 1 (.exit 1), .run 1 true,
      .call 0 (.wait 0), .run 0 true]
    (fun s => decide (s.reaped = [1] ∧ s.pc 0 = .user 2 ∧ (s.proc 1).state = .unused))
    (by decide +kernel)
  obtain ⟨hreaped, hpc, hfree⟩ := of_decide_eq_true hp
  exact ⟨s, hs, hreaped, hpc, hfree, (free_slots_clean hs).1 1 hfree⟩

/-- `init` calls `kill(0)`, which returns 0 for the first unused slot, and then forks: the child is
killed before it has run. -/
theorem kill_zero_marks_free_slot :
    (∃ s : State 64, Reach State.step (fun _ _ => True) State.boot s ∧
      (s.proc 1).state = .unused ∧ (s.proc 1).killed ≠ 0 ∧ s.pc 0 = .user 0) ∧
    ∃ s : State 64, Reach State.step (fun _ _ => True) State.boot s ∧
      (s.proc 1).state = .runnable ∧ (s.proc 1).killed ≠ 0 := by
  constructor
  · obtain ⟨s, hs, hp⟩ :=
      exists_reach_of_follow State.step (fun _ _ => True) (State.boot : State 64)
      [.schedule 0, .call 0 (.kill 0), .run 0 true, .run 0 true]
      (fun s => decide ((s.proc 1).state = .unused ∧ (s.proc 1).killed ≠ 0 ∧ s.pc 0 = .user 0))
      (by decide +kernel)
    exact ⟨s, hs, of_decide_eq_true hp⟩
  · obtain ⟨s, hs, hp⟩ :=
      exists_reach_of_follow State.step (fun _ _ => True) (State.boot : State 64)
      [.schedule 0, .call 0 (.kill 0), .run 0 true, .run 0 true, .call 0 .fork, .run 0 true,
        .run 0 true, .run 0 true, .run 0 true]
      (fun s => decide ((s.proc 1).state = .runnable ∧ (s.proc 1).killed ≠ 0)) (by decide +kernel)
    exact ⟨s, hs, of_decide_eq_true hp⟩

end OsProjects.Kernel.Procs
