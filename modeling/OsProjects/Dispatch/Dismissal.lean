import OsProjects.Dispatch.Alive

/-!
# Dismissal — what becomes of the children when the parent ends

After its loop the parent writes -1 into the command word and posts every semaphore, so that each
child that is left comes out of its `sem_wait` and ends. The error returns inside the loop do
neither.
-/

namespace OsProjects.Dispatch

open Function

open Lib

variable {M : Nat}

/-- Every child that was started has ended, is on its way out, or has its pid or -1 in the command
word and its semaphore posted for it alone. -/
def State.Dismissed (s : State M) : Prop :=
  ∀ p : Nat, match (s.child p).pc with
    | .absent | .exited | .leaving .. | .bye _ => True
    | .woken _ => s.command = p ∨ s.command = -1
    | .waiting k => (s.command = p ∨ s.command = -1) ∧ 0 < s.semaphore k ∧
        ∀ q, (s.child q).pc = .waiting k → q = p
    | _ => False

/-- The parent is at a start command that it refuses: the limit is reached, or `fork` fails. -/
def State.Refuses (cfg : Config) (s : State M) : Event → Prop
  | .child _ => False
  | .parent c => ∃ i : Nat, s.pc = .top i ∧ i ≤ cfg.finalStep ∧
      (cfg.commandsstruct i).commandExists = true ∧ (cfg.commandsstruct i).command = .start ∧
      (s.running + 1 > M ∨ c.fork = none)

/-! ## The broadcast -/

/-- A child after the loop, when the semaphores below `j` have been posted. -/
def ChildPc.Leaves (slot semaphore : Fin M → Nat) (j p : Nat) : ChildPc M → Prop
  | .absent | .exited | .woken _ | .bye _ => True
  | .leaving command _ => command = -1
  | .waiting k => slot k = p ∧ p ≠ 0 ∧ (k.val < j → 0 < semaphore k)
  | _ => False

structure State.Sends (s : State M) (j : Nat) : Prop where
  command : s.command = -1
  inj : ∀ k k', s.pidSlot k = s.pidSlot k' → s.pidSlot k ≠ 0 → k = k'
  child : ∀ p, (s.child p).pc.Leaves s.pidSlot s.semaphore j p

/-- The state of the broadcast, by the place of the parent. -/
def State.Broadcast (s : State M) : Prop :=
  match s.pc with
  | .tellAll _ => s.Settled none 0 ∧ s.Quiet
  | .tellAllStep _ => s.Sends 0
  | .wakeAll j => s.Sends j
  | .reap _ | .done => s.Sends M
  | _ => True

section Steps

variable {s s' : State M} {p q : Nat} {j : Nat} {cfg : Config} {content : List Line} {c : Choice}

theorem ChildPc.Leaves.post {slot semaphore : Fin M → Nat} {pc : ChildPc M} {k : Fin M}
    (h : pc.Leaves slot semaphore k p) :
    pc.Leaves slot (update semaphore k (semaphore k + 1)) (k + 1) p := by
  cases pc with
  | waiting i =>
    refine ⟨h.1, h.2.1, fun hi => ?_⟩
    by_cases hik : i = k
    · rw [hik, update_self]
      exact Nat.succ_pos _
    · rw [update_of_ne hik]
      exact h.2.2 (by omega)
  | _ => exact h

-- A child moves on: its place is one of those of the broadcast, and it took at most its own post.
theorem State.Sends.setChild (h : s.Sends j) {c : Child M} {semaphore : Fin M → Nat}
    (hc : c.pc.Leaves s.pidSlot semaphore j q)
    (hsem : ∀ k, s.pidSlot k ≠ q → semaphore k = s.semaphore k) :
    ({ s.setChild q c with semaphore := semaphore } : State M).Sends j := by
  refine ⟨h.command, h.inj, fun p => ?_⟩
  show (update s.child q c p).pc.Leaves s.pidSlot semaphore j p
  by_cases hp : p = q
  · rwa [hp, update_self]
  · rw [update_of_ne hp]
    have hold := h.child p
    cases hpc : (s.child p).pc with
    | waiting k =>
      rw [hpc] at hold
      refine ⟨hold.1, hold.2.1, fun hk => ?_⟩
      rw [hsem k fun heq => hp (hold.1.symm.trans heq)]
      exact hold.2.2 hk
    | _ =>
      rwa [hpc] at hold

theorem State.Sends.childStep (h : s.Sends j) (hok : s.childStep q = .ok s') : s'.Sends j := by
  have hq := h.child q
  cases hpc : (s.child q).pc with
  | absent | exited | lost => simp only [State.childStep, hpc, reduceCtorEq] at hok
  | seek i | claim k | hello k | printing k | printed k =>
    rw [hpc] at hq
    exact hq.elim
  | waiting k =>
    rw [hpc] at hq
    simp only [State.childStep, hpc] at hok
    split at hok
    · cases hok
      refine h.setChild trivial fun i hi => ?_
      have hik : i ≠ k := fun heq => hi (by rw [heq, hq.1])
      exact update_of_ne hik ..
    · cases hok
  | woken k =>
    have hleave : ¬ (s.command ≠ q ∧ s.command ≠ -1) := fun hne => hne.2 h.command
    simp only [State.childStep, hpc, if_neg hleave] at hok
    cases hok
    exact h.setChild h.command fun _ _ => rfl
  | leaving command n =>
    rw [hpc] at hq
    simp only [State.childStep, hpc, show command = -1 from hq, ne_eq, not_true_eq_false, if_false]
      at hok
    cases hok
    exact h.setChild trivial fun _ _ => rfl
  | bye n =>
    simp only [State.childStep, hpc] at hok
    cases hok
    have hgone := @State.Sends.setChild M s q j h
      { s.child q with pc := .exited } s.semaphore trivial fun _ _ => rfl
    exact ⟨hgone.command, hgone.inj, hgone.child⟩

theorem State.Settled.sends (h : s.Settled none 0) :
    ({ s with command := -1 } : State M).Sends 0 := by
  refine ⟨rfl, h.inj, fun p => ?_⟩
  rcases h.parked p nofun with ⟨k, hk, hp, hpc⟩ | ⟨-, hpc | hpc⟩
  · rw [hpc]
    exact ⟨hk, hp, nofun⟩
  · rw [hpc]
    trivial
  · rw [hpc]
    trivial

theorem broadcast_childStep (h : s.Broadcast) (hok : s.childStep q = .ok s') : s'.Broadcast := by
  have hpc := (childStep_parent hok).1
  unfold State.Broadcast at h ⊢
  rw [hpc]
  cases hs : s.pc with
  | tellAll track =>
    rw [hs] at h
    cases h.1.childStep h.2 hok
  | tellAllStep | wakeAll | reap | done =>
    rw [hs] at h
    exact h.childStep hok
  | _ => trivial

-- Nothing is said of a parent that is not in the broadcast.
theorem broadcast_of_pc (h : ¬ s.pc.Outside ∨ s.pc = .undefined) : s.Broadcast := by
  unfold State.Broadcast
  cases hpc : s.pc with
  | tellAll | tellAllStep | wakeAll | reap | done =>
    rw [hpc] at h
    exact absurd trivial (h.resolve_right nofun)
  | _ => trivial

theorem broadcast_top (hinv : s.Inv) {i : Nat} (hpc : s.pc = .top i)
    (hok : s.parentStep cfg content c = .ok s') : s'.Broadcast := by
  obtain ⟨hset, hquiet, -⟩ := hinv.pastWait (by rw [hpc]; trivial)
  cases parentStep_top hpc hok with
  | start _ _ _ hstart =>
    rcases start_cases hstart with ⟨-, rfl⟩ | ⟨pid, -, -, -, rfl⟩ <;> trivial
  | terminate =>
    rcases terminate_pc s i (cfg.commandsstruct i).process with hpc' | ⟨pid, hpc'⟩
    · exact broadcast_of_pc (.inl (by rw [hpc']; nofun))
    · exact broadcast_of_pc (.inl (by rw [hpc']; nofun))
  | pass => trivial
  | leave | finish => exact ⟨hset, hquiet⟩

theorem broadcast_inside {i : Nat} (h : s.pc.Inside i)
    (hok : s.parentStep cfg content c = .ok s') : s'.Broadcast := by
  apply broadcast_of_pc
  rcases parentStep_inside h hok with hpc | hpc | hpc
  · refine .inl fun hout => ?_
    cases hs : s'.pc <;> rw [hs] at hpc hout <;> first | exact hpc | exact hout
  · rw [hpc]
    exact .inl nofun
  · exact .inr hpc

theorem broadcast_parentStep (hinv : s.Inv) (h : s.Broadcast)
    (hok : s.parentStep cfg content c = .ok s') : s'.Broadcast := by
  unfold State.Broadcast at h
  cases hpc : s.pc with
  | top i => exact broadcast_top hinv hpc hok
  | tellAll track =>
    rw [hpc] at h
    simp only [State.parentStep, hpc, Except.ok.injEq] at hok
    exact hok ▸ ⟨rfl, h.1.sends.inj, h.1.sends.child⟩
  | tellAllStep track =>
    rw [hpc] at h
    simp only [State.parentStep, hpc, Except.ok.injEq] at hok
    exact hok ▸ ⟨h.command, h.inj, h.child⟩
  | wakeAll j =>
    rw [hpc] at h
    simp only [State.parentStep, hpc] at hok
    split at hok
    next hj =>
      cases hok
      exact ⟨h.command, h.inj, fun p => @ChildPc.Leaves.post M p _ _ _ ⟨j, hj⟩ (h.child p)⟩
    · cases hok
      refine ⟨h.command, h.inj, fun p => ?_⟩
      have hp := h.child p
      cases hat : (s.child p).pc with
      | waiting k =>
        rw [hat] at hp
        exact ⟨hp.1, hp.2.1, fun _ => hp.2.2 (by omega)⟩
      | _ =>
        rwa [hat] at hp
  | reap j =>
    rw [hpc] at h
    simp only [State.parentStep, hpc] at hok
    split at hok
    · exact Except.ok.inj hok ▸ ⟨h.command, h.inj, h.child⟩
    · split at hok
      · exact Except.ok.inj hok ▸ ⟨h.command, h.inj, h.child⟩
      · split at hok
        · exact Except.ok.inj hok ▸ ⟨h.command, h.inj, h.child⟩
        · cases hok
  | undefined | done | failed => simp only [State.parentStep, hpc, reduceCtorEq] at hok
  | _ i => exact broadcast_inside (by rw [hpc]; exact rfl : s.pc.Inside i) hok

theorem State.Reached.broadcast (h : s.Reached cfg content) : s.Broadcast := by
  refine (@Reach.invariant _ _ _ (State.step cfg content) _ _ _ (fun s => s.Inv ∧ s.Broadcast) h
    ⟨State.inv_init, trivial⟩ ?_).2
  rintro s e s' ⟨hinv, hb⟩ - hok
  refine ⟨hinv.step hok, ?_⟩
  cases e with
  | child q => exact broadcast_childStep hb hok
  | parent c => exact broadcast_parentStep hinv hb hok

/-! ## The ends -/

theorem State.Sends.dismissed (h : s.Sends M) : s.Dismissed := by
  intro p
  have hp := h.child p
  cases hpc : (s.child p).pc with
  | waiting k =>
    rw [hpc] at hp
    refine ⟨.inr h.command, hp.2.2 k.isLt, fun q hq => ?_⟩
    have hslot := h.child q
    rw [hq] at hslot
    exact hslot.1.symm.trans hp.1
  | woken k => exact .inr h.command
  | absent | exited | leaving | bye => trivial
  | seek | claim | hello | lost | printing | printed =>
    rw [hpc] at hp
    exact hp.elim

-- The parent fails at a start command that it refuses, and nowhere else.
theorem refuses_of_failed (hok : s.parentStep cfg content c = .ok s') (hpc' : s'.pc = .failed) :
    s.Refuses cfg (.parent c) ∧ s' = { s with running := s.running + 1, pc := .failed } := by
  rcases s.pc.place with ⟨i, hpc⟩ | ⟨i, hin⟩ | hout | hpc
  · cases parentStep_top hpc hok with
    | start hlast hexists hverb hstart =>
      rcases start_cases hstart with ⟨hrefused, rfl⟩ | ⟨pid, -, -, -, rfl⟩
      · exact ⟨⟨i, hpc, hlast, hexists, hverb, hrefused⟩, rfl⟩
      · cases hpc'
    | terminate =>
      rcases terminate_pc s i (cfg.commandsstruct i).process with h | ⟨pid, h⟩
      · cases h.symm.trans hpc'
      · cases h.symm.trans hpc'
    | pass | leave | finish => cases hpc'
  · rcases parentStep_inside hin hok with h | h | h
    · rw [hpc'] at h
      exact h.elim
    · cases h.symm.trans hpc'
    · cases h.symm.trans hpc'
  · have h := (parentStep_outside hout hok).1
    rw [hpc'] at h
    exact h.elim
  · simp only [State.parentStep, hpc, reduceCtorEq] at hok

-- No child moves once the parent has failed.
theorem childStep_of_failed (hinv : s.Inv) (hpc : s.pc = .failed) : s.childStep q ≠ .ok s' := by
  intro hok
  rcases hinv with ⟨hout, -⟩ | ⟨phase, h⟩
  · rwa [hpc] at hout
  · cases phase with
    | ended => cases State.Settled.childStep h.1 h.2.1 hok
    | parent =>
      have hwork := h.2.2.2.2
      rwa [hpc] at hwork
    | found p k =>
      obtain ⟨i, hs⟩ := h.2.2.2.2
      cases hs.symm.trans hpc
    | telling p k =>
      obtain ⟨i, hs | ⟨j, -, hs⟩ | hs⟩ := h.2.2.2
      all_goals cases hs.symm.trans hpc
    | waking p k | dismissed p k =>
      obtain ⟨i, hs⟩ := h.2.2.2.2.2
      cases hs.symm.trans hpc
    | departing p =>
      obtain ⟨i, hs⟩ := h.2.2.1
      cases hs.symm.trans hpc
    | seeking p | greeting p k =>
      obtain ⟨i, ⟨hs, -⟩ | hs⟩ := h.1.starting
      all_goals cases hs.symm.trans hpc
    | posted k line =>
      obtain ⟨i, hs⟩ := h.2.2.2.2.2
      cases hs.symm.trans hpc
    | reading p k line =>
      obtain ⟨i, hs⟩ := h.2.2.2.2.2.2.1
      cases hs.symm.trans hpc
    | back =>
      obtain ⟨p, ⟨i, ⟨hs, -⟩ | hs⟩, -⟩ | ⟨i, hs | hs⟩ := h.2.2.2.2.2
      all_goals cases hs.symm.trans hpc

-- The children that are left wait, and nothing wakes them.
theorem dismissed_failed_iff (h : Phase.parent.Holds s) :
    ({ s with running := s.running + 1, pc := .failed } : State M).Dismissed ↔ s.running = 0 := by
  obtain ⟨hset, hquiet, hcmd, -⟩ := h
  have hcount : s.running = (occupied s.pidSlot).card := by
    have hcard := hset.count
    omega
  constructor
  · intro hdis
    by_contra hrun
    obtain ⟨k, hk⟩ : (occupied s.pidSlot).Nonempty := by
      apply Finset.card_pos.mp
      omega
    have hk0 : s.pidSlot k ≠ 0 := (Finset.mem_filter.mp hk).2
    have hwait : (s.child (s.pidSlot k)).pc = .waiting k := by
      rcases hset.parked (s.pidSlot k) nofun with ⟨j, hj, -, hpc⟩ | ⟨hnone, -⟩
      · rwa [hset.inj j k hj (hj ▸ hk0)] at hpc
      · exact absurd (hnone k rfl) hk0
    have hposted := hdis (s.pidSlot k)
    simp only [hwait, hquiet.1 k] at hposted
    exact Nat.lt_irrefl 0 hposted.2.1
  · intro hrun p
    have hnone : ∀ k, s.pidSlot k = 0 := by
      intro k
      by_contra hk
      have hpos : 0 < (occupied s.pidSlot).card :=
        Finset.card_pos.mpr ⟨k, Finset.mem_filter.mpr ⟨Finset.mem_univ k, hk⟩⟩
      omega
    rcases hset.parked p nofun with ⟨k, hk, hp, -⟩ | ⟨-, hpc | hpc⟩
    · exact absurd (hk.symm.trans (hnone k)) hp
    · simp only [hpc]
    · simp only [hpc]

/-- When the parent has ended, after the broadcast or with an error, its children are dismissed,
unless it refused a start command while children were running. -/
theorem children_dismissed_iff (hs : s.Reached cfg content) {e : Event}
    (hok : s.step cfg content e = .ok s') (hend : s'.pc = .done ∨ s'.pc = .failed) :
    s'.Dismissed ↔ (s.Refuses cfg e → s.running = 0) := by
  rcases hend with hpc' | hpc'
  · have hsends : s'.Sends M := by
      have hb := State.Reached.broadcast (hs.step trivial hok)
      unfold State.Broadcast at hb
      rwa [hpc'] at hb
    refine iff_of_true hsends.dismissed fun hrefuses => ?_
    cases e with
    | child q => exact hrefuses.elim
    | parent c =>
      obtain ⟨i, hpc, hlast, hexists, hverb, -⟩ := hrefuses
      cases parentStep_top hpc hok with
      | start _ _ _ hstart =>
        rcases start_cases hstart with ⟨-, rfl⟩ | ⟨pid, -, -, -, rfl⟩ <;> cases hpc'
      | terminate _ _ h => cases hverb.symm.trans h
      | pass | leave | finish => cases hpc'
  · cases e with
    | child q =>
      have hpc := (childStep_parent hok).1.symm.trans hpc'
      exact absurd hok (childStep_of_failed hs.inv hpc)
    | parent c =>
      obtain ⟨hrefuses, rfl⟩ := refuses_of_failed hok hpc'
      obtain ⟨i, hpc, -⟩ := id hrefuses
      rw [dismissed_failed_iff (hs.inv.pastWait (by rw [hpc]; trivial))]
      exact ⟨fun h _ => h, fun h => h hrefuses⟩

end Steps

/-- EXIT with the child `7` in the only slot, up to the end of the table of children. -/
def farewellEvents : List Event :=
  parentSteps 5 ++ List.replicate 4 (.child 7) ++ parentSteps 1

theorem children_dismissed_one : ∃ cfg, readConfig "0 C1 S\n1 EXIT\n".toList = .ok cfg ∧
    ∃ s s' : State 1, s.Reached cfg [hi] ∧ s.step cfg [hi] (.parent (.forks 0)) = .ok s' ∧
      s'.pc = .done ∧ (s'.child 7).pc = .exited ∧
      (s'.Dismissed ↔ (s.Refuses cfg (.parent (.forks 0)) → s.running = 0)) := by
  obtain ⟨cfg, hread, s, hs, hp⟩ := exists_reached "0 C1 S\n1 EXIT\n".toList [hi]
    (startEvents 7 0 ++ lineEvents 7 ++ farewellEvents)
    (fun _ (s : State 1) => decide (s.pc = .reap 1 ∧ s.childPidName[1]? = none ∧
      (s.child 7).pc = .exited)) (by decide +kernel)
  obtain ⟨hpc, hentry, hexited⟩ := of_decide_eq_true hp
  have hok : s.step cfg [hi] (.parent (.forks 0)) = .ok { s with pc := .done } := by
    simp only [State.step, State.parentStep, hpc, hentry]
  exact ⟨cfg, hread, s, _, hs, hok, rfl, hexited, children_dismissed_iff hs hok (.inl rfl)⟩

-- The second start command exceeds the limit: the first child waits for ever.
theorem child_left_behind : ∃ cfg, readConfig "0 C1 S\n1 C2 S\n".toList = .ok cfg ∧
    ∃ s : State 1, s.Reached cfg [hi] ∧ s.pc = .failed ∧ (s.child 7).pc = .waiting 0 ∧
      s.semaphore 0 = 0 ∧ ¬ s.Dismissed := by
  obtain ⟨cfg, hread, s, hs, hp⟩ := exists_reached "0 C1 S\n1 C2 S\n".toList [hi]
    (startEvents 7 0 ++ lineEvents 7 ++ parentSteps 1)
    (fun _ (s : State 1) => decide (s.pc = .failed ∧ (s.child 7).pc = .waiting 0 ∧
      s.semaphore 0 = 0)) (by decide +kernel)
  obtain ⟨hpc, hwait, hsem⟩ := of_decide_eq_true hp
  refine ⟨cfg, hread, s, hs, hpc, hwait, hsem, fun h => ?_⟩
  have hposted := h 7
  simp only [hwait, hsem] at hposted
  exact Nat.lt_irrefl 0 hposted.2.1

end OsProjects.Dispatch
