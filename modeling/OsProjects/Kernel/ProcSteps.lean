import OsProjects.Kernel.Proc

/-!
# ProcSteps — what a step does to the process table

Most steps are quiet: they move a process within its call, or change how slots are scheduled.  The
others create a process, link it to its parent, start it, end it or free its slot.
-/

namespace OsProjects.Kernel.Procs

open Function

open Lib

variable {NPROC : Nat}

/-- The child that a process in `fork` has not started yet. -/
def Pc.child? : Pc NPROC → Option (Fin NPROC)
  | .adopt np _ | .start np _ => some np
  | _ => none

theorem live_running {state : ProcState} (h : state = .running) : state.Live := h ▸ trivial

section Steps

variable [NeZero NPROC]

/-- A step that neither creates nor ends a process, nor changes who its parent is. -/
structure State.Quiet (s s' : State NPROC) : Prop where
  proc : ∀ q, (s.proc q).Touches (s'.proc q)
  pc : ∀ q, s'.pc q = s.pc q ∨
    (s.pc q).child? = none ∧ (s'.pc q).child? = none ∧ ∀ status, s'.pc q = .exit status →
    q ≠ State.initproc
  serial : s'.serial = s.serial
  born : s'.born = s.born
  exited : s'.exited = s.exited
  reaped : s'.reaped = s.reaped

inductive State.Step (s : State NPROC) : Event NPROC → State NPROC → Prop
  | quiet {e : Event NPROC} {s' : State NPROC} (h : s.Quiet s')
      (hkilled : ∀ q, (s.proc q).state = .unused → (s'.proc q).killed = (s.proc q).killed) :
      s.Step e s'
  | kill {p q : Fin NPROC} {pid : BitVec 32} (ok : Bool) (hpc : s.pc p = .kill pid q)
      (hpid : (s.proc q).pid = pid)
      (h : s.Quiet { s.setPc p (.user 0) with proc := Table.kill s.proc q }) :
      s.Step (.run p ok) { s.setPc p (.user 0) with proc := Table.kill s.proc q }
  | fork {p np : Fin NPROC} {i : Nat} (ok : Bool) (hrun : (s.proc p).state = .running)
      (hpc : s.pc p = .allocproc i) (hfree : (s.proc np).state = .unused) :
      s.Step (.run p ok) (s.forkAt p np ok)
  | adopt {p np : Fin NPROC} {pid : BitVec 32} (ok : Bool) (hrun : (s.proc p).state = .running)
      (hpc : s.pc p = .adopt np pid) :
      s.Step (.run p ok) ((s.setProc np { s.proc np with parent := some p }).setPc p
        (.start np pid))
  | start {p np : Fin NPROC} {pid : BitVec 32} (ok : Bool) (hrun : (s.proc p).state = .running)
      (hpc : s.pc p = .start np pid) :
      s.Step (.run p ok) ((s.setProc np { s.proc np with state := .runnable }).setPc p
        (.user pid.toInt))
  | exit {p : Fin NPROC} {status : BitVec 32} (ok : Bool) (hrun : (s.proc p).state = .running)
      (hpc : s.pc p = .exit status) : s.Step (.run p ok) (s.exit p status)
  | reap {p pp : Fin NPROC} {addr : BitVec 64} (ok : Bool) (hrun : (s.proc p).state = .running)
      (hpc : s.pc p = .wait addr) (hparent : (s.proc pp).parent = some p)
      (hzombie : (s.proc pp).state = .zombie) :
      s.Step (.run p ok)
        { s.setPc p (.user (s.proc pp).pid.toInt) with
          proc := Table.freeproc s.proc pp
          reaped := s.serial pp :: s.reaped }

variable {s s' : State NPROC} {e : Event NPROC} {p : Fin NPROC} {x : Proc NPROC}

theorem State.Quiet.setPc {c : Pc NPROC} (hold : (s.pc p).child? = none) (hnew : c.child? = none)
    (hexit : ∀ status, c = .exit status → p ≠ State.initproc) : s.Quiet (s.setPc p c) := by
  refine ⟨fun q => .refl _, fun q => ?_, rfl, rfl, rfl, rfl⟩
  by_cases hq : q = p
  · subst hq
    have hself : (s.setPc q c).pc q = c := update_self ..
    rw [hself]
    exact .inr ⟨hold, hnew, hexit⟩
  · exact .inl (update_of_ne hq ..)

/-- The process moves on within its call. -/
theorem State.Step.move {c : Pc NPROC} (hold : (s.pc p).child? = none) (hnew : c.child? = none)
    (hexit : ∀ status, c = .exit status → p ≠ State.initproc) : s.Step e (s.setPc p c) :=
  .quiet (.setPc hold hnew hexit) fun _ _ => rfl

omit [NeZero NPROC] in
theorem touches_update {t : Table NPROC} (h : (t p).Touches x) (q : Fin NPROC) :
    (t q).Touches (update t p x q) := by
  by_cases hq : q = p
  · rwa [hq, update_self]
  · rw [update_of_ne hq]
    exact .refl _

/-- A change of a slot in use. -/
theorem State.Step.touch (h : (s.proc p).Touches x) (hlive : (s.proc p).state.Live)
    (asleep : Fin NPROC → Bool) : s.Step e { s.setProc p x with asleep := asleep } := by
  refine .quiet ⟨touches_update h, fun _ => .inl rfl, rfl, rfl, rfl, rfl⟩
    fun q hq => congrArg Proc.killed (update_of_ne ?_ ..)
  rintro rfl
  rwa [hq] at hlive

omit [NeZero NPROC] in
theorem touches_kill (t : Table NPROC) (p q : Fin NPROC) : (t q).Touches (t.kill p q) := by
  refine touches_update ?_ q
  refine ⟨rfl, rfl, ?_⟩
  by_cases hsleep : (t p).state = .sleeping
  · exact .inr ⟨hsleep ▸ trivial, by rw [if_pos hsleep]; trivial⟩
  · exact .inl ⟨if_neg hsleep, rfl⟩

theorem State.call_step {c : Syscall} (hpc : (s.pc p).child? = none) (h : s.call p c = .ok s') :
    s.Step (.call p c) s' := by
  cases c with
  | fork =>
    cases h
    exact .move hpc rfl nofun
  | exit status =>
    simp only [State.call] at h
    split at h
    · cases h
    · rename_i hinit
      cases h
      exact .move hpc rfl fun _ _ => hinit
  | wait addr | kill pid =>
    cases h
    exact .move hpc rfl nofun

theorem State.wait_step {addr : BitVec 64} {ok : Bool} (hrun : (s.proc p).state = .running)
    (hpc : s.pc p = .wait addr) : s.Step (.run p ok) (s.wait p addr ok) := by
  have hchild : (s.pc p).child? = none := by rw [hpc]; rfl
  unfold State.wait
  cases hfound : Table.zombieChild s.proc p with
  | some pp =>
    obtain ⟨hparent, hzombie⟩ := Table.zombieChild_some hfound
    simp only
    split
    · exact .move hchild rfl nofun
    · exact .reap ok hrun hpc hparent hzombie
  | none =>
    simp only
    split
    · exact .move hchild rfl nofun
    · refine .touch (p := p) ?_ (live_running hrun) _
      exact ⟨rfl, rfl, .inr ⟨live_running hrun, trivial⟩⟩

theorem State.run_step {ok : Bool} (hrun : (s.proc p).state = .running) (h : s.run p ok = .ok s') :
    s.Step (.run p ok) s' := by
  unfold State.run at h
  cases hpc : s.pc p with
  | user r =>
    rw [hpc] at h
    cases h
  | allocproc i =>
    have hchild : (s.pc p).child? = none := by rw [hpc]; rfl
    simp only [hpc] at h
    split at h
    · split at h
      · rename_i hfree
        cases h
        exact .fork ok hrun hpc hfree
      · cases h
        exact .move hchild rfl nofun
    · cases h
      exact .move hchild rfl nofun
  | adopt np pid =>
    simp only [hpc] at h
    cases h
    exact .adopt ok hrun hpc
  | start np pid =>
    simp only [hpc] at h
    cases h
    exact .start ok hrun hpc
  | exit status =>
    simp only [hpc] at h
    cases h
    exact .exit ok hrun hpc
  | dead =>
    rw [hpc] at h
    cases h
  | wait addr =>
    simp only [hpc] at h
    cases h
    exact State.wait_step hrun hpc
  | kill pid i =>
    have hchild : (s.pc p).child? = none := by rw [hpc]; rfl
    simp only [hpc] at h
    split at h
    · split at h
      · rename_i hpid
        cases h
        have hmove := @State.Quiet.setPc _ _ s p (.user 0) hchild rfl nofun
        exact .kill ok hpc hpid ⟨touches_kill s.proc _, hmove.pc, rfl, rfl, rfl, rfl⟩
      · cases h
        exact .move hchild rfl nofun
    · cases h
      exact .move hchild rfl nofun

theorem State.step_ok (h : s.step e = .ok s') : s.Step e s' := by
  cases e with
  | call p c =>
    simp only [State.step] at h
    split at h
    · rename_i hpc
      exact State.call_step (by rw [hpc]; rfl) h
    · cases h
  | run p ok =>
    simp only [State.step] at h
    split at h
    · rename_i hrun
      exact State.run_step hrun h
    · cases h
  | sleep p chan =>
    simp only [State.step] at h
    have hsleep : (s.proc p).state = .running → s.Step (.sleep p chan)
        { s.setProc p { s.proc p with chan := some (.other chan), state := .sleeping } with
          asleep := update s.asleep p true } := by
      intro hrun
      refine .touch (p := p) ?_ (live_running hrun) _
      exact ⟨rfl, rfl, .inr ⟨live_running hrun, trivial⟩⟩
    split at h
    · rename_i hrun _
      cases h
      exact hsleep hrun
    · rename_i hrun _
      cases h
      exact hsleep hrun
    · cases h
  | wakeup p chan =>
    simp only [State.step] at h
    split at h
    · rename_i hsleep
      have hlive : (s.proc p).state.Live := hsleep.1 ▸ trivial
      cases h
      refine .touch (p := p) ?_ hlive _
      exact ⟨rfl, rfl, .inr ⟨hlive, trivial⟩⟩
    · cases h
  | schedule p =>
    simp only [State.step] at h
    split at h
    · rename_i hrunnable
      have hlive : (s.proc p).state.Live := hrunnable ▸ trivial
      cases h
      refine .touch (p := p) ?_ hlive _
      exact ⟨rfl, rfl, .inr ⟨hlive, trivial⟩⟩
    · cases h
  | yield p =>
    simp only [State.step] at h
    split at h
    · rename_i hrun
      cases h
      refine .touch (p := p) ?_ (live_running hrun) _
      exact ⟨rfl, rfl, .inr ⟨live_running hrun, trivial⟩⟩
    · cases h
  | setkilled p =>
    simp only [State.step] at h
    split at h
    · rename_i hrun
      cases h
      refine .touch (p := p) ?_ (live_running hrun) _
      exact ⟨rfl, rfl, .inl ⟨rfl, rfl⟩⟩
    · cases h

end Steps

end OsProjects.Kernel.Procs
