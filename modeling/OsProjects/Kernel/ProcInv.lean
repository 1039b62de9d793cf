import OsProjects.Kernel.ProcSteps

/-!
# ProcInv — what holds of the process table in every run

A slot that is unused has no trace of the process that was in it, nothing points to it, and the
parent of a process has not exited.
-/

namespace OsProjects.Kernel.Procs

open Function

open Lib

variable {NPROC : Nat}

section Invariant

variable [NeZero NPROC]

/-- The history of the process in slot `q`: it has been forked by the process with number `f`, which
is its parent as long as that has not exited. -/
structure State.Recorded (s : State NPROC) (q : Fin NPROC) (f : Nat) : Prop where
  born : s.born[s.serial q]? = some (f, (s.proc q).pid)
  reaped : s.serial q ∉ s.reaped
  exited : (s.proc q).state ≠ .zombie → s.serial q ∉ s.exited
  parent : ∀ p, (s.proc q).parent = some p →
    (f ∉ s.exited → s.serial p = f) ∧ (f ∈ s.exited → p = State.initproc)

structure State.Inv (s : State NPROC) : Prop where
  init : (s.proc State.initproc).state.Live
  free : ∀ q, (s.proc q).state = .unused →
    (s.proc q).pid = 0 ∧ (s.proc q).chan = none ∧ (s.proc q).parent = none
  child : ∀ p np, (s.pc p).child? = some np → (s.proc p).state.Live ∧ (s.proc np).state = .used ∧
    ∃ pid, s.born[s.serial np]? = some (s.serial p, pid)
  unique : ∀ p q np, (s.pc p).child? = some np → (s.pc q).child? = some np → p = q
  parent : ∀ q p, (s.proc q).parent = some p → (s.proc p).state.Live
  exit : ∀ p status, s.pc p = .exit status → p ≠ State.initproc
  recorded : ∀ q, (s.proc q).state ≠ .unused → ∃ f, s.Recorded q f
  distinct : ∀ q q', (s.proc q).state ≠ .unused → (s.proc q').state ≠ .unused →
    s.serial q = s.serial q' → q = q'
  once : s.reaped.Nodup
  known : ∀ n, n ∈ s.reaped ∨ n ∈ s.exited → n < s.born.length

variable {s s' : State NPROC} {e : Event NPROC} {p q np : Fin NPROC} {status : BitVec 32}
  {pc : Fin NPROC → Pc NPROC} {c : Pc NPROC}

omit [NeZero NPROC] in
theorem Proc.Touches.live_iff {x y : Proc NPROC} (h : x.Touches y) :
    y.state.Live ↔ x.state.Live := by
  rcases h.state with ⟨hstate, -⟩ | ⟨hx, hy⟩
  · rw [hstate]
  · exact iff_of_true hy hx

omit [NeZero NPROC] in
theorem Proc.Touches.state_iff {x y : Proc NPROC} (h : x.Touches y) {state : ProcState}
    (hstate : ¬state.Live) : y.state = state ↔ x.state = state := by
  rcases h.state with ⟨heq, -⟩ | ⟨hx, hy⟩
  · rw [heq]
  · exact iff_of_false (fun heq => hstate (heq ▸ hy)) fun heq => hstate (heq ▸ hx)

omit [NeZero NPROC] in
theorem exit_of_update (hq : update pc p c q = .exit status) (hc : ∀ status, c ≠ .exit status) :
    pc q = .exit status := by
  by_cases hqp : q = p
  · rw [hqp, update_self] at hq
    exact absurd hq (hc status)
  · rwa [update_of_ne hqp] at hq

omit [NeZero NPROC] in
theorem child_of_update (hc : c.child? = none)
    (hq : (update pc p c q).child? = some np) : q ≠ p ∧ (pc q).child? = some np := by
  by_cases hqp : q = p
  · rw [hqp, update_self] at hq
    cases hc.symm.trans hq
  · rw [update_of_ne hqp] at hq
    exact ⟨hqp, hq⟩

theorem State.boot_cases (q : Fin NPROC) :
    q = State.initproc ∧ (State.boot : State NPROC).proc q = ⟨.runnable, none, 0, 0, 1, none⟩ ∨
      (State.boot : State NPROC).proc q = ⟨.unused, none, 0, 0, 0, none⟩ := by
  unfold State.boot
  simp only
  by_cases hq : q = State.initproc
  · rw [hq, update_self]
    exact .inl ⟨rfl, rfl⟩
  · rw [update_of_ne hq]
    exact .inr rfl

theorem State.boot_unused (hq : ((State.boot : State NPROC).proc q).state ≠ .unused) :
    q = State.initproc ∧ (State.boot : State NPROC).proc q = ⟨.runnable, none, 0, 0, 1, none⟩ := by
  refine (State.boot_cases q).resolve_right fun hzero => hq ?_
  rw [hzero]

theorem State.inv_boot : (State.boot : State NPROC).Inv := by
  have hparent : ∀ q, ((State.boot : State NPROC).proc q).parent = none := by
    intro q
    rcases State.boot_cases q with ⟨-, hq⟩ | hq
    · rw [hq]
    · rw [hq]
  refine ⟨?_, fun q hq => ?_, (fun _ _ h => by cases h), (fun _ _ _ h => by cases h),
    fun q p hq => ?_,
    (fun _ _ h => by cases h), fun q hq => ?_, fun q q' hq hq' _ => ?_,
    List.nodup_nil, by simp [State.boot]⟩
  · unfold State.boot
    trivial
  · rcases State.boot_cases q with ⟨-, heq⟩ | heq
    · rw [heq] at hq
      cases hq
    · rw [heq]
      exact ⟨rfl, rfl, rfl⟩
  · cases (hparent q).symm.trans hq
  · obtain ⟨-, heq⟩ := State.boot_unused hq
    refine ⟨0, ?_, by simp [State.boot], by simp [State.boot], fun p hp => ?_⟩
    · rw [heq]
      rfl
    · cases (hparent q).symm.trans hp
  · rw [(State.boot_unused hq).1, (State.boot_unused hq').1]

theorem State.Inv.quiet (h : s.Inv) (hquiet : s.Quiet s') : s'.Inv := by
  have hused : ¬ProcState.used.Live := id
  have hunused : ¬ProcState.unused.Live := id
  have hzombie : ¬ProcState.zombie.Live := id
  have hchild : ∀ {p np}, (s'.pc p).child? = some np → (s.pc p).child? = some np := by
    intro p np hp
    rcases hquiet.pc p with heq | ⟨-, hnone, -⟩
    · rwa [← heq]
    · cases hnone.symm.trans hp
  refine ⟨?_, fun q hq => ?_, fun p np hp => ?_, fun p q np hp hq => ?_, fun q p hq => ?_,
    fun p status hp => ?_, fun q hq => ?_, fun q q' hq hq' hserial => ?_, ?_, fun n hn => ?_⟩
  · exact (hquiet.proc _).live_iff.mpr h.init
  · have ht := hquiet.proc q
    have hfree := h.free q ((ht.state_iff hunused).mp hq)
    rcases ht.state with ⟨-, hchan⟩ | ⟨-, hlive⟩
    · exact ⟨ht.pid.trans hfree.1, hchan.trans hfree.2.1, ht.parent.trans hfree.2.2⟩
    · exact absurd (hq ▸ hlive) hunused
  · obtain ⟨hlive, hstate, pid, hborn⟩ := h.child p np (hchild hp)
    refine ⟨(hquiet.proc p).live_iff.mpr hlive, ((hquiet.proc np).state_iff hused).mpr hstate, pid,
      ?_⟩
    rwa [hquiet.born, hquiet.serial]
  · exact h.unique p q np (hchild hp) (hchild hq)
  · rw [(hquiet.proc q).parent] at hq
    exact (hquiet.proc p).live_iff.mpr (h.parent q p hq)
  · rcases hquiet.pc p with heq | ⟨-, -, hexit⟩
    · exact h.exit p status (heq.symm.trans hp)
    · exact hexit status hp
  · obtain ⟨f, hf⟩ := h.recorded q (mt ((hquiet.proc q).state_iff hunused).mpr hq)
    refine ⟨f, ?_, ?_, fun hstate => ?_, fun p hp => ?_⟩
    · rw [hquiet.born, hquiet.serial, (hquiet.proc q).pid, hf.born]
    · rw [hquiet.serial, hquiet.reaped]
      exact hf.reaped
    · rw [hquiet.serial, hquiet.exited]
      exact hf.exited (mt ((hquiet.proc q).state_iff hzombie).mpr hstate)
    · rw [hquiet.serial, hquiet.exited]
      exact hf.parent p ((hquiet.proc q).parent ▸ hp)
  · rw [hquiet.serial] at hserial
    exact h.distinct q q' (mt ((hquiet.proc q).state_iff hunused).mpr hq)
      (mt ((hquiet.proc q').state_iff hunused).mpr hq') hserial
  · rw [hquiet.reaped]
    exact h.once
  · rw [hquiet.reaped, hquiet.exited] at hn
    rw [hquiet.born]
    exact h.known n hn

omit [NeZero NPROC] in
theorem State.forkAt_proc_false : (s.forkAt p np false).proc = Table.freeproc s.proc np :=
  update_idem ..

theorem State.Inv.forkFail (h : s.Inv) (hpc : (s.pc p).child? = none)
    (hfree : (s.proc np).state = .unused) : (s.forkAt p np false).Inv := by
  obtain ⟨hpid, hchan, hparent⟩ := h.free np hfree
  have hmove := @State.Quiet.setPc _ _ s p (.user (-1)) hpc rfl nofun
  refine h.quiet ⟨fun q => ?_, hmove.pc, rfl, rfl, rfl, rfl⟩
  rw [State.forkAt_proc_false]
  exact touches_update ⟨hpid.symm, hparent.symm, .inl ⟨hfree.symm, hchan.symm⟩⟩ q

omit [NeZero NPROC] in
theorem State.forkAt_proc_of_ne (hq : q ≠ np) : (s.forkAt p np true).proc q = s.proc q :=
  update_of_ne hq ..

omit [NeZero NPROC] in
theorem State.forkAt_child {q np' : Fin NPROC}
    (hq : ((s.forkAt p np true).pc q).child? = some np') :
    q = p ∧ np' = np ∨ q ≠ np ∧ (s.pc q).child? = some np' := by
  have hq : (update (update s.pc np (.user 0)) p (.adopt np s.nextpid) q).child? =
    some np' := hq
  by_cases hqp : q = p
  · rw [hqp, update_self] at hq
    cases hq
    exact .inl ⟨hqp, rfl⟩
  · rw [update_of_ne hqp] at hq
    exact .inr (child_of_update rfl hq)

-- Nothing points to the slot that is taken, since it was unused.
theorem State.Inv.fork (h : s.Inv) (hrun : (s.proc p).state = .running)
    (hfree : (s.proc np).state = .unused) : (s.forkAt p np true).Inv := by
  have hdead : ¬(s.proc np).state.Live := hfree ▸ id
  have hpn : p ≠ np := fun heq => hdead (heq ▸ live_running hrun)
  have hnew : (s.forkAt p np true).proc np = { s.proc np with pid := s.nextpid, state := .used } :=
    update_self ..
  have hserialNew : (s.forkAt p np true).serial np = s.born.length := update_self ..
  have hserial : ∀ {q}, q ≠ np → (s.forkAt p np true).serial q = s.serial q := fun hq =>
    update_of_ne hq ..
  have hborn : ∀ {n x}, s.born[n]? = some x → (s.forkAt p np true).born[n]? = some x := fun hn =>
    (List.getElem?_append_left (List.getElem?_eq_some_iff.mp hn).1).trans hn
  have hbornNew : (s.forkAt p np true).born[s.born.length]? = some (s.serial p, s.nextpid) :=
    List.getElem?_concat_length
  have hold : ∀ {q}, q ≠ np → ((s.forkAt p np true).proc q).state ≠ .unused →
      ∃ f, s.Recorded q f := fun hq hstate =>
    h.recorded _ (by rwa [State.forkAt_proc_of_ne hq] at hstate)
  have hparent : ∀ {q p'}, ((s.forkAt p np true).proc q).parent = some p' →
      (s.proc q).parent = some p' := by
    intro q p' hq
    by_cases hqn : q = np
    · rw [hqn, hnew] at hq
      exact hqn ▸ hq
    · rwa [State.forkAt_proc_of_ne hqn] at hq
  have hkeep : ∀ {q}, (s.proc q).state.Live → q ≠ np := fun hq heq => hdead (heq ▸ hq)
  refine ⟨?_, fun q hq => ?_, fun q np' hq => ?_, fun q q' np' hq hq' => ?_, fun q p' hq => ?_,
    fun q status hq => ?_, fun q hq => ?_, fun q q' hq hq' heq => ?_, h.once, fun n hn => ?_⟩
  · rw [State.forkAt_proc_of_ne (hkeep h.init)]
    exact h.init
  · by_cases hqn : q = np
    · rw [hqn, hnew] at hq
      cases hq
    · rw [State.forkAt_proc_of_ne hqn] at hq ⊢
      exact h.free q hq
  · rcases State.forkAt_child hq with ⟨rfl, rfl⟩ | ⟨hqn, hq⟩
    · refine ⟨?_, by rw [hnew], s.nextpid, ?_⟩
      · rw [State.forkAt_proc_of_ne hpn]
        exact live_running hrun
      · rwa [hserialNew, hserial hpn]
    · obtain ⟨hlive, hused, pid, hpid⟩ := h.child q np' hq
      have hne : np' ≠ np := by
        rintro rfl
        cases hfree.symm.trans hused
      rw [State.forkAt_proc_of_ne hqn, State.forkAt_proc_of_ne hne, hserial hqn, hserial hne]
      exact ⟨hlive, hused, pid, hborn hpid⟩
  · have hstale : ∀ q, (s.pc q).child? ≠ some np := by
      intro q hq
      cases hfree.symm.trans (h.child q np hq).2.1
    rcases State.forkAt_child hq with ⟨hqp, hnp⟩ | ⟨-, hq⟩
    · rcases State.forkAt_child hq' with ⟨hqp', -⟩ | ⟨-, hq'⟩
      · exact hqp.trans hqp'.symm
      · exact absurd (hnp ▸ hq') (hstale q')
    · rcases State.forkAt_child hq' with ⟨-, hnp⟩ | ⟨-, hq'⟩
      · exact absurd (hnp ▸ hq) (hstale q)
      · exact h.unique q q' np' hq hq'
  · have hlive := h.parent q p' (hparent hq)
    rwa [State.forkAt_proc_of_ne (hkeep hlive)]
  · exact h.exit q status (exit_of_update (exit_of_update hq nofun) nofun)
  · by_cases hqn : q = np
    · subst hqn
      refine ⟨s.serial p, ?_, ?_, fun _ => ?_, fun p' hp' => ?_⟩
      · rwa [hserialNew, hnew]
      · rw [hserialNew]
        exact fun hmem => Nat.lt_irrefl _ (h.known _ (.inl hmem))
      · rw [hserialNew]
        exact fun hmem => Nat.lt_irrefl _ (h.known _ (.inr hmem))
      · cases (h.free q hfree).2.2.symm.trans (hparent hp')
    · obtain ⟨f, hf⟩ := hold hqn hq
      refine ⟨f, ?_, ?_, fun hstate => ?_, fun p' hp' => ?_⟩
      · rw [hserial hqn, State.forkAt_proc_of_ne hqn]
        exact hborn hf.born
      · rw [hserial hqn]
        exact hf.reaped
      · rw [hserial hqn]
        rw [State.forkAt_proc_of_ne hqn] at hstate
        exact hf.exited hstate
      · rw [hserial (hkeep (h.parent q p' (hparent hp')))]
        exact hf.parent p' (hparent hp')
  · have hlt : ∀ {q}, q ≠ np → ((s.forkAt p np true).proc q).state ≠ .unused →
        s.serial q ≠ s.born.length := by
      intro q hqn hq
      obtain ⟨f, hf⟩ := hold hqn hq
      exact (List.getElem?_eq_some_iff.mp hf.born).1.ne
    by_cases hqn : q = np
    · by_cases hqn' : q' = np
      · exact hqn.trans hqn'.symm
      · rw [hqn, hserialNew, hserial hqn'] at heq
        exact absurd heq.symm (hlt hqn' hq')
    · by_cases hqn' : q' = np
      · rw [hqn', hserialNew, hserial hqn] at heq
        exact absurd heq (hlt hqn hq)
      · rw [hserial hqn, hserial hqn'] at heq
        rw [State.forkAt_proc_of_ne hqn] at hq
        rw [State.forkAt_proc_of_ne hqn'] at hq'
        exact h.distinct q q' hq hq' heq
  · have hlen : (s.forkAt p np true).born.length = s.born.length + 1 := List.length_append
    rw [hlen]
    exact Nat.lt_succ_of_lt (h.known n hn)

-- A process moves on, and one slot is changed on the way.
theorem State.Inv.setSlot (h : s.Inv) {x : Proc NPROC} {reaped : List Nat}
    (hexit : ∀ status, c ≠ .exit status)
    (hchild : ∀ np', c.child? = some np' → (s.pc p).child? = some np')
    (hlive : (s.proc np).state.Live → x.state.Live)
    (hfree : x.state = .unused → x.pid = 0 ∧ x.chan = none ∧ x.parent = none)
    (hused : x.state ≠ .unused → (s.proc np).state ≠ .unused ∧ x.pid = (s.proc np).pid ∧
      (x.state ≠ .zombie → (s.proc np).state ≠ .zombie))
    (hstate : ∀ q, (update s.pc p c q).child? = some np → x.state = .used)
    (hparent : ∀ p', x.parent = some p' → (s.proc np).parent = some p' ∨ (s.proc p').state.Live ∧
      s.serial p' ∉ s.exited ∧ ∃ pid, s.born[s.serial np]? = some (s.serial p', pid))
    (hreaped : ∀ q, (update s.proc np x q).state ≠ .unused → s.serial q ∉ s.reaped →
      s.serial q ∉ reaped)
    (honce : reaped.Nodup) (hknown : ∀ n ∈ reaped, n < s.born.length) :
    ({ (s.setProc np x).setPc p c with reaped := reaped } : State NPROC).Inv := by
  set s' : State NPROC := { (s.setProc np x).setPc p c with reaped := reaped }
  have hnew : s'.proc np = x := update_self ..
  have hother : ∀ {q}, q ≠ np → s'.proc q = s.proc q := fun hq => update_of_ne hq ..
  have hlive : ∀ {q}, (s.proc q).state.Live → (s'.proc q).state.Live := by
    intro q hq
    by_cases hqn : q = np
    · rw [hqn, hnew]
      exact hlive (hqn ▸ hq)
    · rwa [hother hqn]
  have hexists : ∀ {q}, (s'.proc q).state ≠ .unused → (s.proc q).state ≠ .unused ∧
      (s'.proc q).pid = (s.proc q).pid ∧
      ((s'.proc q).state ≠ .zombie → (s.proc q).state ≠ .zombie) := by
    intro q hq
    by_cases hqn : q = np
    · rw [hqn, hnew] at hq ⊢
      exact hused hq
    · rw [hother hqn] at hq ⊢
      exact ⟨hq, rfl, id⟩
  have hchild : ∀ {q np'}, (s'.pc q).child? = some np' → (s.pc q).child? = some np' := by
    intro q np' hq
    have hq : (update s.pc p c q).child? = some np' := hq
    by_cases hqp : q = p
    · rw [hqp, update_self] at hq
      exact hqp ▸ hchild np' hq
    · rwa [update_of_ne hqp] at hq
  have hparent : ∀ {q p'}, (s'.proc q).parent = some p' → (s.proc q).parent = some p' ∨
      (s.proc p').state.Live ∧ s.serial p' ∉ s.exited ∧
        ∃ pid, s.born[s.serial q]? = some (s.serial p', pid) := by
    intro q p' hq
    by_cases hqn : q = np
    · rw [hqn, hnew] at hq
      exact hqn ▸ hparent p' hq
    · exact .inl (hother hqn ▸ hq)
  refine ⟨hlive h.init, fun q hq => ?_, fun q np' hq => ?_, fun q q' np' hq hq' => ?_,
    fun q p' hq => ?_,
    fun q status hq => ?_, fun q hq => ?_, fun q q' hq hq' heq => ?_, honce, fun n hn => ?_⟩
  · by_cases hqn : q = np
    · rw [hqn, hnew] at hq ⊢
      exact hfree hq
    · rw [hother hqn] at hq ⊢
      exact h.free q hq
  · obtain ⟨hl, hstate', hborn⟩ := h.child q np' (hchild hq)
    refine ⟨hlive hl, ?_, hborn⟩
    by_cases hn : np' = np
    · rw [hn, hnew]
      exact hstate q (hn ▸ hq)
    · rwa [hother hn]
  · exact h.unique q q' np' (hchild hq) (hchild hq')
  · rcases hparent hq with hq | ⟨hl, -⟩
    · exact hlive (h.parent q p' hq)
    · exact hlive hl
  · exact h.exit q status (exit_of_update hq hexit)
  · obtain ⟨hq', hpid, hzombie⟩ := hexists hq
    obtain ⟨f, hf⟩ := h.recorded q hq'
    refine ⟨f, hpid ▸ hf.born, hreaped q hq hf.reaped, fun hz => hf.exited (hzombie hz),
      fun p' hp' => ?_⟩
    rcases hparent hp' with hp' | ⟨-, hexited, pid, hborn⟩
    · exact hf.parent p' hp'
    · cases hf.born.symm.trans hborn
      exact ⟨fun _ => rfl, fun hmem => absurd hmem hexited⟩
  · exact h.distinct q q' (hexists hq).1 (hexists hq').1 heq
  · rcases hn with hn | hn
    · exact hknown n hn
    · exact h.known n (.inr hn)

theorem State.Inv.adopt (h : s.Inv) {pid : BitVec 32} (hrun : (s.proc p).state = .running)
    (hpc : s.pc p = .adopt np pid) :
    ((s.setProc np { s.proc np with parent := some p }).setPc p (.start np pid)).Inv := by
  have hchildp : (s.pc p).child? = some np := by rw [hpc]; rfl
  obtain ⟨-, hused, hborn⟩ := h.child p np hchildp
  refine h.setSlot nofun (fun np' hnp => hchildp.trans hnp) id (fun hfree => ?_)
    (fun hq => ⟨hq, rfl, id⟩) (fun _ _ => hused) (fun p' hp' => ?_) (fun _ _ => id) h.once
    fun n hn => h.known n (.inl hn)
  · cases hused.symm.trans hfree
  · -- the process that forks has not exited
    cases hp'
    obtain ⟨f, hf⟩ := h.recorded p (by rw [hrun]; nofun)
    exact .inr ⟨live_running hrun, hf.exited (by rw [hrun]; nofun), hborn⟩

theorem State.Inv.start (h : s.Inv) {pid : BitVec 32} (hpc : s.pc p = .start np pid) :
    ((s.setProc np { s.proc np with state := .runnable }).setPc p (.user pid.toInt)).Inv := by
  have hchildp : (s.pc p).child? = some np := by rw [hpc]; rfl
  obtain ⟨-, hused, -⟩ := h.child p np hchildp
  refine h.setSlot nofun nofun (fun _ => trivial) nofun (fun _ => ⟨?_, rfl, fun _ => ?_⟩)
    (fun q hq => ?_) (fun _ => .inl) (fun _ _ => id) h.once fun n hn => h.known n (.inl hn)
  · rw [hused]
    nofun
  · rw [hused]
    nofun
  · obtain ⟨hqp, hq⟩ := child_of_update rfl hq
    exact absurd (h.unique q p np hq hchildp) hqp

theorem State.exit_proc_of_ne (hq : q ≠ p) :
    (Table.adopted (s.proc q) p State.initproc).Touches ((s.exit p status).proc q) := by
  have hother : (s.exit p status).proc q = (Table.reparent s.proc p State.initproc).wakeup p
      ((Table.reparent s.proc p State.initproc p).parent.map .proc) q := update_of_ne hq ..
  rw [hother]
  exact (Table.reparent_touches s.proc p State.initproc q).trans (Table.wakeup_touches _ _ _ q)

theorem State.exit_proc_self {status : BitVec 32} :
    ((s.exit p status).proc p).state = .zombie ∧ ((s.exit p status).proc p).pid = (s.proc p).pid ∧
      ((s.exit p status).proc p).parent = (Table.adopted (s.proc p) p State.initproc).parent := by
  have htouch := (Table.reparent_touches s.proc p State.initproc p).trans
    (Table.wakeup_touches _ p ((Table.reparent s.proc p State.initproc p).parent.map .proc) p)
  have hself : (s.exit p status).proc p = { (Table.reparent s.proc p State.initproc).wakeup p
      ((Table.reparent s.proc p State.initproc p).parent.map .proc) p with
        xstate := status, state := .zombie } := update_self ..
  rw [hself]
  exact ⟨rfl, htouch.pid, htouch.parent⟩

-- The children of the process that exits are given to `init`, which does not exit.
theorem State.Inv.exits (h : s.Inv) (hrun : (s.proc p).state = .running)
    (hpc : s.pc p = .exit status) : (s.exit p status).Inv := by
  set s' := s.exit p status
  have hinit : State.initproc ≠ p := (h.exit p status hpc).symm
  obtain ⟨hzombie, hpidp, hparentp⟩ := @State.exit_proc_self _ _ s p status
  have hother : ∀ {q}, q ≠ p → (Table.adopted (s.proc q) p State.initproc).Touches (s'.proc q) :=
    State.exit_proc_of_ne
  have hpid : ∀ q, (s'.proc q).pid = (s.proc q).pid := by
    intro q
    by_cases hq : q = p
    · rwa [hq]
    · exact (hother hq).pid
  have hparent : ∀ {q p'}, (s'.proc q).parent = some p' →
      p' = State.initproc ∧ (s.proc q).parent = some p ∨ p' ≠ p ∧ (s.proc q).parent = some p' := by
    intro q p' hq
    have hq : (Table.adopted (s.proc q) p State.initproc).parent = some p' := by
      by_cases hqp : q = p
      · rw [hqp] at hq ⊢
        exact hparentp.symm.trans hq
      · exact (hother hqp).parent.symm.trans hq
    unfold Table.adopted at hq
    split at hq
    next hp =>
      cases hq
      exact .inl ⟨rfl, hp⟩
    next hp =>
      exact .inr ⟨fun heq => hp (heq ▸ hq), hq⟩
  have hlive : ∀ {q}, q ≠ p → (s.proc q).state.Live → (s'.proc q).state.Live := fun hq =>
    (hother hq).live_iff.mpr
  have hexists : ∀ {q}, (s'.proc q).state ≠ .unused → (s.proc q).state ≠ .unused := by
    intro q hq
    by_cases hqp : q = p
    · simp [hqp, hrun]
    · exact mt ((hother hqp).state_iff id).mpr hq
  have hchild : ∀ {q np}, (s'.pc q).child? = some np → q ≠ p ∧ (s.pc q).child? = some np :=
    fun hq => child_of_update rfl hq
  refine ⟨hlive hinit h.init, fun q hq => ?_, fun q np hq => ?_, fun q q' np hq hq' => ?_,
    fun q p' hq => ?_,
    fun q status' hq => ?_, fun q hq => ?_, fun q q' hq hq' heq => ?_, h.once, fun n hn => ?_⟩
  · have hqp : q ≠ p := by
      rintro rfl
      cases hzombie.symm.trans hq
    have ht := hother hqp
    obtain ⟨hfpid, hfchan, hfparent⟩ := h.free q ((ht.state_iff id).mp hq)
    refine ⟨(hpid q).trans hfpid, ?_, ?_⟩
    · rcases ht.state with ⟨-, hchan⟩ | ⟨-, hl⟩
      · exact hchan.trans hfchan
      · rw [hq] at hl
        exact hl.elim
    · rw [ht.parent, Table.adopted, hfparent]
      rfl
  · obtain ⟨hqp, hq⟩ := hchild hq
    obtain ⟨hlive', hused, hborn⟩ := h.child q np hq
    have hne : np ≠ p := by
      rintro rfl
      cases hrun.symm.trans hused
    exact ⟨hlive hqp hlive', ((hother hne).state_iff id).mpr hused, hborn⟩
  · exact h.unique q q' np (hchild hq).2 (hchild hq').2
  · rcases hparent hq with ⟨rfl, -⟩ | ⟨hne, hq⟩
    · exact hlive hinit h.init
    · exact hlive hne (h.parent q p' hq)
  · exact h.exit q status' (exit_of_update hq (by simp))
  · have hnot : ∀ {q}, (s.proc q).state ≠ .unused → q ≠ p → s.serial q ≠ s.serial p :=
      fun hq hne heq => hne (h.distinct _ p hq (by simp [hrun]) heq)
    obtain ⟨f, hf⟩ := h.recorded q (hexists hq)
    refine ⟨f, ?_, hf.reaped, fun hstate hmem => ?_, fun p' hp' => ?_⟩
    · rw [hpid]
      exact hf.born
    · have hqp : q ≠ p := by
        rintro rfl
        exact hstate hzombie
      rcases List.mem_cons.mp hmem with heq | hmem
      · exact hnot (hexists hq) hqp heq
      · exact hf.exited (mt ((hother hqp).state_iff id).mpr hstate) hmem
    · show (f ∉ s.serial p :: s.exited → s.serial p' = f) ∧
        (f ∈ s.serial p :: s.exited → p' = State.initproc)
      rcases hparent hp' with ⟨hinit', hp⟩ | ⟨hne, hp⟩
      · refine ⟨fun hnmem => absurd ?_ hnmem, fun _ => hinit'⟩
        by_cases hmem : f ∈ s.exited
        · exact List.mem_cons_of_mem _ hmem
        · rw [(hf.parent p hp).1 hmem]
          exact List.mem_cons_self
      · have hlive' := h.parent q p' hp
        have hserial : s.serial p' ≠ s.serial p :=
          hnot (fun heq => (heq ▸ hlive' : ProcState.unused.Live)) hne
        refine ⟨fun hnmem => (hf.parent p' hp).1 (fun hmem => hnmem (List.mem_cons_of_mem _ hmem)),
          ?_⟩
        intro hmem
        by_cases hold : f ∈ s.exited
        · exact (hf.parent p' hp).2 hold
        · have hf' := (List.mem_cons.mp hmem).resolve_right hold
          exact absurd (((hf.parent p' hp).1 hold).trans hf') hserial
  · exact h.distinct q q' (hexists hq) (hexists hq') heq
  · rcases hn with hn | hn
    · exact h.known n (.inl hn)
    · rcases List.mem_cons.mp hn with rfl | hn
      · obtain ⟨f, hf⟩ := h.recorded p (by simp [hrun])
        exact (List.getElem?_eq_some_iff.mp hf.born).1
      · exact h.known n (.inr hn)

theorem State.Inv.reap (h : s.Inv) {pp : Fin NPROC} {r : Int}
    (hzombie : (s.proc pp).state = .zombie) : ({ s.setPc p (.user r) with
      proc := Table.freeproc s.proc pp
      reaped := s.serial pp :: s.reaped } : State NPROC).Inv := by
  have hpp : (s.proc pp).state ≠ .unused := by
    rw [hzombie]
    nofun
  obtain ⟨f, hf⟩ := h.recorded pp hpp
  refine h.setSlot nofun nofun (fun hlive => ?_) (fun _ => ⟨rfl, rfl, rfl⟩)
    (fun hused => absurd rfl hused) (fun q hq => ?_) nofun (fun q hq hmem => ?_)
    (List.nodup_cons.mpr ⟨hf.reaped, h.once⟩) fun n hn => ?_
  · rw [hzombie] at hlive
    exact hlive.elim
  · cases hzombie.symm.trans (h.child q pp (child_of_update rfl hq).2).2.1
  · have hne : q ≠ pp := by
      rintro rfl
      exact hq (by rw [update_self])
    rw [update_of_ne hne] at hq
    exact List.not_mem_cons_of_ne_of_not_mem (fun heq => hne (h.distinct q pp hq hpp heq)) hmem
  · rcases List.mem_cons.mp hn with rfl | hn
    · exact (List.getElem?_eq_some_iff.mp hf.born).1
    · exact h.known n (.inl hn)

theorem State.Inv.step (h : s.Inv) (hstep : s.Step e s') : s'.Inv := by
  cases hstep with
  | quiet hquiet hkilled | kill ok hpc hpid hquiet => exact h.quiet hquiet
  | fork ok hrun hpc hfree =>
    cases ok with
    | false => exact h.forkFail (by rw [hpc]; rfl) hfree
    | true => exact h.fork hrun hfree
  | adopt ok hrun hpc => exact h.adopt hrun hpc
  | start ok hrun hpc => exact h.start hpc
  | exit ok hrun hpc => exact h.exits hrun hpc
  | reap ok hrun hpc hparent hzombie => exact h.reap hzombie

/-- What holds of the table in every run, whatever the calls. -/
theorem State.inv_of_reach {allowed : State NPROC → Event NPROC → Prop}
    (h : Reach State.step allowed State.boot s) : s.Inv := by
  refine h.invariant State.inv_boot fun s e s' hs _ hok => ?_
  exact hs.step (State.step_ok hok)

end Invariant

end OsProjects.Kernel.Procs
