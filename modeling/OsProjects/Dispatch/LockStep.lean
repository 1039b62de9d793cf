import OsProjects.Dispatch.Handover

/-!
# LockStep — slots, lines and farewells in every interleaving

What the phases say about the runs of the dispatcher: the slots of the pid table are those of the
children that run, and a line or a terminate command is answered, by the child it is meant for,
before the parent goes on.
-/

namespace OsProjects.Dispatch

open Lib

variable {M : Nat} {cfg : Config} {content : List Line} {s : State M} {phase : Phase M}

/-! ## Slots -/

-- A child without a slot is the one that was just started.
theorem Phase.Holds.not_grown (h : phase.Holds s) {p : Nat}
    (hpc : ¬ (s.child p).pc.Grown) : phase = .seeking p ∨ ∃ k, phase = .greeting p k := by
  have hgrown : ∀ {pc : ChildPc M}, s.ChildAt p pc → pc.Grown → False := by
    intro pc hat hp
    rw [← show (s.child p).pc = pc from hat] at hp
    exact hpc hp
  have hturn : (s.child p).pc.HasTurn := by
    cases hat : (s.child p).pc <;> first | trivial | exact hgrown hat trivial
  have hplace := h.child_hasTurn hturn
  cases phase with
  | seeking q =>
    cases hplace
    exact .inl rfl
  | greeting q k =>
    cases hplace
    exact .inr ⟨k, rfl⟩
  | departing q =>
    cases hplace
    rcases h.2.2.2 with ⟨-, ⟨k, hat⟩ | ⟨n, hat⟩⟩ | ⟨-, n, hat⟩
    all_goals exact (hgrown hat trivial).elim
  | reading q k line =>
    cases hplace
    rcases h.2.2.2.2.2.2.2 with ⟨-, -, hat | hat⟩ | ⟨-, hat⟩
    all_goals exact (hgrown hat trivial).elim
  | _ => cases hplace

-- It finds a slot.
theorem Phase.Holds.seek (h : phase.Holds s) (p : Nat) : (s.child p).pc ≠ .lost ∧
      ∀ j, (s.child p).pc = .seek j → ∃ k : Fin M, j ≤ k ∧ s.pidSlot k = 0 := by
  by_cases hgrown : (s.child p).pc.Grown
  · refine ⟨fun hat => ?_, fun j hat => ?_⟩
    all_goals
      rw [hat] at hgrown
      exact hgrown.elim
  · rcases h.not_grown hgrown with rfl | ⟨k, rfl⟩
    · obtain ⟨-, hset, -, hM, ⟨i, hat, hbelow⟩ | ⟨k, hat, -⟩⟩ := h
      · rw [show (s.child p).pc = .seek i from hat]
        refine ⟨nofun, fun j hj => ?_⟩
        cases hj
        obtain ⟨k, hk⟩ := hset.exists_free hM
        exact ⟨k, Nat.le_of_not_lt fun hlt => hbelow k hlt hk, hk⟩
      · rw [show (s.child p).pc = .claim k from hat]
        exact ⟨nofun, nofun⟩
    · rw [show (s.child p).pc = .hello k from h.2.2.2]
      exact ⟨nofun, nofun⟩

-- The search of a terminate command finds the slot of its pid.
theorem State.Inv.scan (h : s.Inv) {i p j : Nat} (hpc : s.pc = .scan i p j) :
    ∃ k : Fin M, j ≤ k ∧ s.pidSlot k = p := by
  rcases h with ⟨h, -⟩ | ⟨phase, h⟩
  · rw [hpc] at h
    exact h.elim
  · have hplace := h.parent_hasTurn (by rw [hpc]; trivial)
    cases phase with
    | parent =>
      have hwork := h.2.2.2.2
      rw [hpc] at hwork
      exact hwork.elim
    | found q k =>
      obtain ⟨n, hs⟩ := h.2.2.2.2
      cases hpc.symm.trans hs
    | telling q k =>
      obtain ⟨n, hs | ⟨m, hm, hs⟩ | hs⟩ := h.2.2.2
      · cases hpc.symm.trans hs
      · cases hpc.symm.trans hs
        exact ⟨k, hm, h.1.slot⟩
      · cases hpc.symm.trans hs
    | waking q k =>
      obtain ⟨n, hs⟩ := h.2.2.2.2.2
      cases hpc.symm.trans hs
    | _ => cases hplace

/-- Between two steps of the loop the slots in use are as many as the running processes, at most
`M`, and hold distinct pids; a child that was started and not told to leave has one slot and waits
on its semaphore. A new child finds an empty slot and a terminate command finds its pid. -/
theorem slots_match_children (h : s.Reached cfg content) :
    (∀ i, s.pc = .top i →
      ((occupied s.pidSlot).card : Int) = s.running ∧ s.running ≤ M ∧
      (∀ k k', s.pidSlot k = s.pidSlot k' → s.pidSlot k ≠ 0 → k = k') ∧
      ∀ p, (s.child p).pc ≠ .absent → .told p ∉ s.history →
        ∃ k, s.pidSlot k = p ∧ (∀ k', s.pidSlot k' = p → k' = k) ∧
          (s.child p).pc = .waiting k) ∧
    (s.pc ≠ .undefined → ∀ p, (s.child p).pc ≠ .lost ∧
      ∀ j, (s.child p).pc = .seek j → ∃ k : Fin M, j ≤ k ∧ s.pidSlot k = 0) ∧
    ∀ i p j, s.pc = .scan i p j → ∃ k : Fin M, j ≤ k ∧ s.pidSlot k = p := by
  have hinv := h.inv
  refine ⟨fun i hpc => ?_, fun hdef p => ?_, fun i p j hpc => hinv.scan hpc⟩
  · obtain ⟨hset, -⟩ := hinv.pastWait (by rw [hpc]; trivial)
    have hcount := hset.count
    have hle : (occupied s.pidSlot).card ≤ M := by
      simpa using Finset.card_le_univ (occupied s.pidSlot)
    refine ⟨by omega, by omega, hset.inj, fun p hstarted htold => ?_⟩
    rcases hset.parked p nofun with ⟨k, hk, hp, hat⟩ | ⟨-, hat | hat⟩
    · exact ⟨k, hk, fun k' hk' => hset.inj k' k (hk'.trans hk.symm) (hk' ▸ hp), hat⟩
    · exact absurd hat hstarted
    · exact absurd ((hset.left p nofun).mp hat) htold
  · rcases hinv with ⟨-, hgrown⟩ | ⟨phase, hphase⟩
    · have hp := hgrown hdef p
      refine ⟨fun hat => ?_, fun j hat => ?_⟩
      all_goals
        rw [hat] at hp
        exact hp.elim
    · exact hphase.seek p

/-- A choice in which only the pid that `fork` returns matters. -/
def Choice.forks (pid : Nat) : Choice := ⟨some pid, 0, 0, 0⟩

/-- Steps of the parent that need no choice. -/
def parentSteps (n : Nat) : List Event := List.replicate n (.parent (.forks 0))

/-- A start command: the parent forks `p`, registers it and waits; the child passes `n` slots, takes
the next one and answers. -/
def startEvents (p n : Nat) : List Event :=
  .parent (.forks p) :: parentSteps 1 ++ List.replicate (n + 3) (.child p) ++ parentSteps 1

/-- The selection block: the parent posts the semaphore of `p`, which prints the line. -/
def lineEvents (p : Nat) : List Event :=
  parentSteps 3 ++ List.replicate 4 (.child p) ++ parentSteps 1

def hi : Line := ⟨['h', 'i'], by decide⟩

theorem slots_match_children_started :
    ∃ cfg, readConfig "0 C1 S\n5 EXIT\n".toList = .ok cfg ∧
      ∃ s : State 2, s.Reached cfg [hi] ∧ s.pc = .top 1 ∧
        ((occupied s.pidSlot).card : Int) = s.running ∧ s.running = 1 ∧
        ∃ k, s.pidSlot k = 7 ∧ (s.child 7).pc = .waiting k := by
  obtain ⟨cfg, hread, s, hs, hp⟩ := exists_reached "0 C1 S\n5 EXIT\n".toList [hi]
    (startEvents 7 0 ++ lineEvents 7)
    (fun _ (s : State 2) => decide (s.pc = .top 1 ∧ s.running = 1 ∧
      (s.child 7).pc = .waiting 0 ∧ .told 7 ∉ s.history)) (by decide +kernel)
  obtain ⟨hpc, hrunning, hat, htold⟩ := of_decide_eq_true hp
  obtain ⟨hcount, -, -, hslot⟩ := (slots_match_children hs).1 1 hpc
  obtain ⟨k, hk, -, hwait⟩ := hslot 7 (by rw [hat]; nofun) htold
  exact ⟨cfg, hread, s, hs, hpc, hcount, hrunning, k, hk, hwait⟩

/-! ## Lock step -/

/-- The parent executes statements: it is neither at a `sem_wait` nor at its end. -/
def ParentPc.Running : ParentPc M → Prop
  | .awaitCommand _ | .awaitLine _ | .done | .failed => False
  | _ => True

theorem Phase.Holds.ordered (h : phase.Holds s) : Ordered s.history := by
  cases phase with
  | parent => exact h.2.2.2.1.ordered
  | found p k => exact h.2.2.1.ordered
  | telling p k => exact h.2.2.1.ordered_of_told
  | waking p k | dismissed p k | departing p => exact h.1.begun.ordered_of_told
  | seeking p | greeting p k => exact h.1.complete.ordered
  | posted k line => exact h.2.2.2.1.ordered_of_sent
  | reading p k line =>
    rcases h.2.2.2.2.2.2.2 with ⟨-, hbegun, -⟩ | ⟨hdone, -⟩
    · exact hbegun.ordered_of_sent
    · exact hdone.ordered
  | back => exact h.2.2.2.2.1.ordered
  | ended => exact h.2.2.1.ordered

theorem Phase.Holds.settled (h : phase.Holds s) : ∃ x d, s.Settled x d := by
  cases phase with
  | parent => exact ⟨_, _, h.1⟩
  | found p k | telling p k | waking p k | dismissed p k | departing p => exact ⟨_, _, h.1.settled⟩
  | seeking p | greeting p k => exact ⟨_, _, h.2.1⟩
  | posted k line | reading p k line | back | ended => exact ⟨_, _, h.1⟩

/-- The turn is in one place at a time. What happened is a sequence of finished exchanges, each line
printed by the child whose semaphore was posted and each terminate command obeyed by the child it
names, with at most one under way; past a `sem_wait` of the parent none is, and the command word is
reset. No child prints after it was told to leave. -/
theorem turn_in_lock_step (h : s.Reached cfg content) (hloop : ¬ s.pc.Outside) :
    (∀ x y, s.TurnAt x → s.TurnAt y → x = y) ∧ (∀ k, s.semaphore k ≤ 1) ∧ s.parSem ≤ 1 ∧
    Ordered s.history ∧ (s.pc.PastWait → s.command = 0 ∧ Complete s.history) ∧
    Silent s.history := by
  obtain ⟨phase, hphase⟩ := h.inv.resolve_left fun hout => hloop hout.1
  obtain ⟨x, d, hset⟩ := hphase.settled
  refine ⟨fun x y hx hy => ?_, fun k => ?_, ?_, hphase.ordered, fun hpc => ?_, hset.silent⟩
  · exact Option.some.inj ((hphase.turnAt hx).symm.trans (hphase.turnAt hy))
  · rw [hphase.semaphores.1 k]
    split <;> omega
  · rw [hphase.semaphores.2]
    split <;> omega
  · have hparent := h.inv.pastWait hpc
    exact ⟨hparent.2.2.1, hparent.2.2.2.1⟩

theorem turn_in_lock_step_printed :
    ∃ cfg, readConfig "0 C1 S\n5 EXIT\n".toList = .ok cfg ∧
      ∃ s : State 1, s.Reached cfg [hi] ∧ s.pc = .top 1 ∧ .printed 7 0 hi ∈ s.history ∧
        s.command = 0 ∧ Complete s.history := by
  obtain ⟨cfg, hread, s, hs, hp⟩ := exists_reached "0 C1 S\n5 EXIT\n".toList [hi]
    (startEvents 7 0 ++ lineEvents 7)
    (fun _ (s : State 1) => decide (s.pc = .top 1 ∧ .printed 7 0 hi ∈ s.history))
    (by decide +kernel)
  obtain ⟨hpc, hprinted⟩ := of_decide_eq_true hp
  have hloop : ¬ s.pc.Outside := by
    rw [hpc]
    exact id
  have hpast := (turn_in_lock_step hs hloop).2.2.2.2.1 (by rw [hpc]; trivial)
  exact ⟨cfg, hread, s, hs, hpc, hprinted, hpast⟩

-- Between `fork` and its `sem_wait` the parent runs beside the new child, which can be done by
-- then.
theorem parent_runs_beside_new_child :
    ∃ cfg, readConfig "0 C1 S\n5 EXIT\n".toList = .ok cfg ∧
      ∃ s : State 1, s.Reached cfg [hi] ∧ ¬ s.pc.Outside ∧ s.pc.Running ∧ s.parSem = 1 := by
  obtain ⟨cfg, hread, s, hs, hp⟩ := exists_reached "0 C1 S\n5 EXIT\n".toList [hi]
    (.parent (.forks 7) :: List.replicate 3 (.child 7))
    (fun _ (s : State 1) => decide (s.pc = .register 0 7 ∧ s.parSem = 1)) (by decide +kernel)
  obtain ⟨hpc, hsem⟩ := of_decide_eq_true hp
  refine ⟨cfg, hread, s, hs, ?_, ?_, hsem⟩
  · rw [hpc]
    exact id
  · rw [hpc]
    trivial

end OsProjects.Dispatch
