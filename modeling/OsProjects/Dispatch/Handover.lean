import OsProjects.Dispatch.Tables

/-!
# Handover — the turn passes between the parent and one child at a time

The semaphores pass a single turn around: the parent has it, or it waits in a semaphore, or one
child has it. `Phase` says where the turn is and what the exchange under way is about; `Phase.Holds`
says what the machine looks like meanwhile. Every step before the final broadcast leads from a phase
to a phase, so the facts read off the phases hold in every interleaving.
-/

namespace OsProjects.Dispatch

open Function Nat

open Lib

variable {M : Nat} {x : Option Nat} {d : Int}

/-! ## Phases -/

/-- Where the turn is. `p` is the child of the exchange under way and `k` its slot. -/
inductive Phase (M : Nat)
  /-- The parent has the turn, and no exchange is under way. -/
  | parent
  /-- It is about to tell `p` to leave, has told it and looks for the slot, has cleared the slot. -/
  | found (p : Nat) (k : Fin M)
  | telling (p : Nat) (k : Fin M)
  | waking (p : Nat) (k : Fin M)
  /-- The semaphore is posted for `p` to leave; `p` leaves. -/
  | dismissed (p : Nat) (k : Fin M)
  | departing (p : Nat)
  /-- The new child `p` looks for a slot; it has the slot. -/
  | seeking (p : Nat)
  | greeting (p : Nat) (k : Fin M)
  /-- The semaphore is posted for a line to be printed; `p` prints it. -/
  | posted (k : Fin M) (line : Line)
  | reading (p : Nat) (k : Fin M) (line : Line)
  /-- `par_sem` is posted. -/
  | back
  /-- The parent has returned an error. -/
  | ended

/-- The parent is at work with the turn in hand. -/
def ParentPc.AtWork (text : Line) : ParentPc M → Prop
  | .top _ | .select _ | .put .. => True
  | .post _ _ line => text = line
  | _ => False

namespace State

variable (s : State M)

def Settled (x : Option Nat) (d : Int) : Prop :=
  SettledAt s.child s.pidSlot s.childPidName s.running s.history x d

def Quiet : Prop := (∀ k, s.semaphore k = 0) ∧ s.parSem = 0

/-- Only the semaphore of slot `k` is posted. -/
def Posted (k : Fin M) : Prop := (∀ j, s.semaphore j = if j = k then 1 else 0) ∧ s.parSem = 0

def NoEntry (p : Nat) : Prop := ∀ e ∈ s.childPidName, e.pid ≠ p

def NoSlot (p : Nat) : Prop := ∀ k, s.pidSlot k = p → p = 0

abbrev ChildAt (p : Nat) (pc : ChildPc M) : Prop := (s.child p).pc = pc

/-- The parent has forked `p`, and waits for it or is about to write its entry. -/
def Starting (p : Nat) : Prop :=
  ∃ i, s.pc = .register i p ∧ s.NoEntry p ∨ s.pc = .awaitCommand i

/-- The child `p` has a slot still to be cleared, and no entry any more. -/
structure Doomed (p : Nat) (k : Fin M) : Prop where
  settled : s.Settled (some p) (-1)
  quiet : s.Quiet
  noEntry : s.NoEntry p
  slot : s.pidSlot k = p
  pid : p ≠ 0
  waits : s.ChildAt p (.waiting k)

/-- The child `p` was told to leave and has no slot any more. -/
structure Leaver (p : Nat) : Prop where
  settled : s.Settled (some p) 0
  begun : Begun s.history (.told p)
  noEntry : s.NoEntry p
  noSlot : s.NoSlot p
  pid : p ≠ 0

/-- The child `p` is new. -/
structure Newcomer (p : Nat) : Prop where
  quiet : s.Quiet
  command : s.command = 0
  complete : Complete s.history
  pid : p ≠ 0
  untold : .told p ∉ s.history
  starting : s.Starting p

end State

def Phase.Holds (s : State M) : Phase M → Prop
  | .parent =>
    s.Settled none 0 ∧ s.Quiet ∧ s.command = 0 ∧ Complete s.history ∧ s.pc.AtWork s.text
  | .found p k =>
    s.Doomed p k ∧ s.command = 0 ∧ Complete s.history ∧ .told p ∉ s.history ∧ ∃ i, s.pc = .tell i p
  | .telling p k =>
    s.Doomed p k ∧ s.command = p ∧ Begun s.history (.told p) ∧
      ∃ i, s.pc = .tellStep i p ∨ (∃ j ≤ k.val, s.pc = .scan i p j) ∨ s.pc = .clear i k
  | .waking p k =>
    s.Leaver p ∧ s.Quiet ∧ s.command = p ∧ s.pidSlot k = 0 ∧ s.ChildAt p (.waiting k) ∧
      ∃ i, s.pc = .wake i k
  | .dismissed p k =>
    s.Leaver p ∧ s.Posted k ∧ s.command = p ∧ s.pidSlot k = 0 ∧ s.ChildAt p (.waiting k) ∧
      ∃ i, s.pc = .awaitCommand i
  | .departing p =>
    s.Leaver p ∧ s.Quiet ∧ (∃ i, s.pc = .awaitCommand i) ∧
      (s.command = p ∧ ((∃ k, s.ChildAt p (.woken k)) ∨ ∃ n, s.ChildAt p (.leaving p n)) ∨
        s.command = 0 ∧ ∃ n, s.ChildAt p (.bye n))
  | .seeking p =>
    s.Newcomer p ∧ s.Settled (some p) 1 ∧ s.NoSlot p ∧ s.running ≤ M ∧
      ((∃ j, s.ChildAt p (.seek j) ∧ ∀ k : Fin M, k < j → s.pidSlot k ≠ 0) ∨
        ∃ k, s.ChildAt p (.claim k) ∧ s.pidSlot k = 0)
  | .greeting p k =>
    s.Newcomer p ∧ s.Settled (some p) 0 ∧ s.pidSlot k = p ∧ s.ChildAt p (.hello k)
  | .posted k line =>
    s.Settled none 0 ∧ s.Posted k ∧ s.command = 0 ∧ Begun s.history (.sent k line) ∧
      s.text = line ∧ ∃ i, s.pc = .awaitLine i
  | .reading p k line =>
    s.Settled (some p) 0 ∧ s.Quiet ∧ s.command = 0 ∧ s.pidSlot k = p ∧ p ≠ 0 ∧
      .told p ∉ s.history ∧ (∃ i, s.pc = .awaitLine i) ∧
      (s.text = line ∧ Begun s.history (.sent k line) ∧
          (s.ChildAt p (.woken k) ∨ s.ChildAt p (.printing k)) ∨
        Complete s.history ∧ s.ChildAt p (.printed k))
  | .back =>
    s.Settled none 0 ∧ (∀ k, s.semaphore k = 0) ∧ s.parSem = 1 ∧ s.command = 0 ∧
      Complete s.history ∧
      ((∃ p, s.Starting p ∧ p ≠ 0 ∧ ∃ k, s.pidSlot k = p) ∨
        ∃ i, s.pc = .awaitCommand i ∨ s.pc = .awaitLine i)
  | .ended => s.Settled none 1 ∧ s.Quiet ∧ Complete s.history ∧ s.command = 0 ∧ s.pc = .failed

/-- The parent has left its loop for the final broadcast, or what it does is undefined. -/
def ParentPc.Outside : ParentPc M → Prop
  | .tellAll _ | .tellAllStep _ | .wakeAll _ | .reap _ | .done | .undefined => True
  | _ => False

/-- The child has got its slot, or is not there. -/
def ChildPc.Grown : ChildPc M → Prop
  | .seek _ | .claim _ | .hello _ | .lost => False
  | _ => True

def State.Inv (s : State M) : Prop :=
  s.pc.Outside ∧ (s.pc ≠ .undefined → ∀ p, (s.child p).pc.Grown) ∨
    ∃ phase : Phase M, phase.Holds s

/-! ## Steps of parked children -/

section Steps

variable {s s' : State M} {p q i : Nat} {k : Fin M} {cfg : Config} {content : List Line} {e : Event}
  {c : Choice} {fork : Option Nat}

theorem childStep_of_parked (h : Parked s.child s.pidSlot q)
    (hsem : ∀ k, s.pidSlot k = q → q ≠ 0 → s.semaphore k = 0) : s.childStep q = .error () := by
  rcases h with ⟨k, hk, hq, hpc⟩ | ⟨-, hpc | hpc⟩
  · simp only [State.childStep, hpc, hsem k hk hq, lt_irrefl, if_false]
  · simp only [State.childStep, hpc]
  · simp only [State.childStep, hpc]

theorem Parked.grown (h : Parked s.child s.pidSlot q) : (s.child q).pc.Grown := by
  rcases h with ⟨k, -, -, hpc⟩ | ⟨-, hpc | hpc⟩
  all_goals
    rw [hpc]
    trivial

theorem State.Quiet.childStep (h : s.Quiet) (hq : Parked s.child s.pidSlot q) :
    s.childStep q = .error () :=
  childStep_of_parked hq fun k _ _ => h.1 k

theorem State.ChildAt.stuck (h : s.ChildAt p (.waiting k)) (hquiet : s.Quiet) :
    s.childStep p = .error () := by
  simp only [State.childStep, h, hquiet.1 k, lt_irrefl, if_false]

theorem State.Settled.childStep (h : s.Settled x d) (hquiet : s.Quiet)
    (hok : s.childStep q = .ok s') : x = some q := by
  by_contra hx
  rw [hquiet.childStep (h.parked q hx)] at hok
  cases hok

theorem State.Quiet.postSem (h : s.Quiet) (k : Fin M) : (s.postSem k).Posted k := by
  refine ⟨fun j => ?_, h.2⟩
  show update s.semaphore k (s.semaphore k + 1) j = _
  by_cases hj : j = k
  · rw [hj, update_self, if_pos rfl, h.1]
  · rw [update_of_ne hj, if_neg hj, h.1]

theorem State.Posted.pos (h : s.Posted k) : 0 < s.semaphore k := by
  rw [h.1, if_pos rfl]
  exact one_pos

theorem State.Posted.other (h : s.Posted k) {j : Fin M} (hj : j ≠ k) : s.semaphore j = 0 := by
  rw [h.1, if_neg hj]

-- The child whose semaphore is posted takes the turn.
theorem State.Posted.take (h : s.Posted k) (pc : ChildPc M) : ({ s.setChildPc p pc with
      semaphore := update s.semaphore k (s.semaphore k - 1) } : State M).Quiet := by
  refine ⟨fun j => ?_, h.2⟩
  show update s.semaphore k (s.semaphore k - 1) j = 0
  by_cases hj : j = k
  · rw [hj, update_self, h.1, if_pos rfl]
  · rw [update_of_ne hj, h.other hj]

theorem State.childAt_setChildPc (s : State M) (p : Nat) (pc : ChildPc M) :
    (s.setChildPc p pc).ChildAt p pc := by
  show (update s.child p { s.child p with pc := pc } p).pc = pc
  rw [update_self]

-- A child with a slot goes back to wait on its semaphore.
theorem State.Settled.settle (h : s.Settled (some p) 0) (hslot : s.pidSlot k = p) (hp : p ≠ 0)
    (htold : .told p ∉ s.history) : (s.setChildPc p (.waiting k)).Settled none 0 := by
  have hwait := s.childAt_setChildPc p (.waiting k)
  apply (h.setChild _).park
  · exact .inl ⟨k, hslot, hp, hwait⟩
  · refine ⟨fun hexit => ?_, fun h => absurd h htold⟩
    cases hwait.symm.trans hexit
  · exact fun _ _ _ _ => ⟨k, hslot⟩

/-! ## Steps of the loop -/

/-- The parent is behind the head of its loop, at step `i`. -/
def ParentPc.Inside (i : Nat) : ParentPc M → Prop
  | .register n _ | .awaitCommand n | .tell n _ | .tellStep n _ | .scan n .. | .clear n _
  | .wake n _ | .select n | .put n .. | .post n .. | .awaitLine n => n = i
  | _ => False

theorem ParentPc.place (pc : ParentPc M) :
    (∃ i, pc = .top i) ∨ (∃ i, pc.Inside i) ∨ pc.Outside ∨ pc = .failed := by
  cases pc with
  | top i => exact .inl ⟨i, rfl⟩
  | tellAll | tellAllStep | wakeAll | reap | done | undefined => exact .inr (.inr (.inl trivial))
  | failed => exact .inr (.inr (.inr rfl))
  | _ => exact .inr (.inl ⟨_, rfl⟩)

theorem select_cases (s : State M) (cfg : Config) (content : List Line) (i : Nat) (c : Choice) :
    (∃ k line, s.select cfg content i c = .put i k line) ∨ s.select cfg content i c = .top (i + 1) ∨
      s.select cfg content i c = .undefined := by
  unfold State.select
  split
  · split
    · exact .inr (.inr rfl)
    · split
      · exact .inl ⟨_, _, rfl⟩
      · exact .inr (.inr rfl)
  · exact .inr (.inl rfl)

theorem parentStep_inside (h : s.pc.Inside i) (hok : s.parentStep cfg content c = .ok s') :
    s'.pc.Inside i ∨ s'.pc = .top (i + 1) ∨ s'.pc = .undefined := by
  cases hpc : s.pc with
  | select n =>
    obtain rfl : n = i := by rwa [hpc] at h
    simp only [State.parentStep, hpc] at hok
    cases hok
    refine (select_cases s cfg content n c).imp_left ?_
    rintro ⟨k, line, hput⟩
    rw [hput]
    rfl
  | register n pid =>
    rw [hpc] at h
    simp only [State.parentStep, hpc] at hok
    split at hok
    · exact .inl (Except.ok.inj hok ▸ h)
    · exact .inr (.inr (Except.ok.inj hok ▸ rfl))
  | awaitLine n =>
    obtain rfl : n = i := by rwa [hpc] at h
    simp only [State.parentStep, hpc] at hok
    split at hok
    · exact .inr (.inl (Except.ok.inj hok ▸ rfl))
    · cases hok
  | awaitCommand | scan | tell | tellStep | clear | wake | put | post =>
    rw [hpc] at h
    simp only [State.parentStep, hpc] at hok
    repeat' split at hok
    all_goals first
      | exact .inl (Except.ok.inj hok ▸ h)
      | cases hok
  | _ =>
    rw [hpc] at h
    exact h.elim

/-- The parent at the head of its loop, by what it comes upon there. -/
inductive TopStep (cfg : Config) (s : State M) (i : Nat) (c : Choice) : State M → Prop
  | start {s' : State M} : (i : Int) ≤ cfg.finalStep → (cfg.commandsstruct i).commandExists = true →
      (cfg.commandsstruct i).command = .start → s.start i c.fork = .ok s' → TopStep cfg s i c s'
  | terminate : (i : Int) ≤ cfg.finalStep → (cfg.commandsstruct i).commandExists = true →
      (cfg.commandsstruct i).command = .terminate →
      TopStep cfg s i c (s.terminate i (cfg.commandsstruct i).process)
  | leave : (i : Int) ≤ cfg.finalStep → (cfg.commandsstruct i).commandExists = true →
      (cfg.commandsstruct i).command ≠ .start → (cfg.commandsstruct i).command ≠ .terminate →
      TopStep cfg s i c { s with pc := .tellAll i }
  | pass : (i : Int) ≤ cfg.finalStep → (cfg.commandsstruct i).commandExists = false →
      TopStep cfg s i c { s with pc := .select i }
  | finish : ¬ (i : Int) ≤ cfg.finalStep →
      TopStep cfg s i c { s with pc := .tellAll ((i : Int) - 1) }

theorem parentStep_top (hpc : s.pc = .top i)
    (hok : s.parentStep cfg content c = .ok s') : TopStep cfg s i c s' := by
  simp only [State.parentStep, hpc] at hok
  split at hok
  next hlast =>
    split at hok
    next hexists =>
      cases hverb : (cfg.commandsstruct i).command with
      | start =>
        rw [hverb] at hok
        exact .start hlast hexists hverb hok
      | terminate =>
        rw [hverb] at hok
        cases hok
        exact .terminate hlast hexists hverb
      | blank | exit =>
        rw [hverb] at hok
        cases hok
        exact .leave hlast hexists (by rw [hverb]; nofun) (by rw [hverb]; nofun)
    next hexists =>
      cases hok
      exact .pass hlast (Bool.not_eq_true _ ▸ hexists)
  next hlast =>
    cases hok
    exact .finish hlast

-- A start command is refused, or it forks.
theorem start_cases (hok : s.start i fork = .ok s') :
    (s.running + 1 > M ∨ fork = none) ∧ s' = { s with running := s.running + 1, pc := .failed } ∨
      ∃ pid, s.running + 1 ≤ M ∧ 0 < pid ∧ (s.child pid).pc = .absent ∧
        s' = { s.setChild pid ⟨.seek 0, i, 0⟩ with
          running := s.running + 1, pc := .register i pid } := by
  unfold State.start at hok
  split at hok
  next hfull => exact .inl ⟨.inl hfull, (Except.ok.inj hok).symm⟩
  next hroom =>
    cases fork with
    | none => exact .inl ⟨.inr rfl, (Except.ok.inj hok).symm⟩
    | some pid =>
      simp only at hok
      split at hok
      next hpid => exact .inr ⟨pid, by omega, hpid.1, hpid.2, (Except.ok.inj hok).symm⟩
      · cases hok

theorem terminate_pc (s : State M) (i : Nat) (name : Int) :
    (s.terminate i name).pc = .top (i + 1) ∨ ∃ pid, (s.terminate i name).pc = .tell i pid := by
  unfold State.terminate
  split
  · exact .inr ⟨_, rfl⟩
  · exact .inl rfl

/-! ## The parent at work -/

theorem inv_of_pc (h : Phase.parent.Holds s) {pc : ParentPc M}
    (hpc : pc.AtWork s.text ∨ pc.Outside) : ({ s with pc := pc } : State M).Inv := by
  rcases hpc with hpc | hpc
  · exact .inr ⟨.parent, h.1, h.2.1, h.2.2.1, h.2.2.2.1, hpc⟩
  · exact .inl ⟨hpc, fun _ p => (h.1.parked p nofun).grown⟩

-- An unstarted pid is nowhere in the tables.
theorem State.Settled.fresh (h : s.Settled none d) (hpc : (s.child p).pc = .absent) :
    s.NoSlot p ∧ .told p ∉ s.history ∧ (p ≠ 0 → s.NoEntry p) := by
  have hnone : s.NoSlot p := by
    rcases h.parked p nofun with ⟨k, -, -, hwait⟩ | ⟨hnone, -⟩
    · rw [hpc] at hwait
      cases hwait
    · exact hnone
  refine ⟨hnone, fun htold => ?_, fun hp e he heq => ?_⟩
  · rw [← h.left p nofun, hpc] at htold
    cases htold
  · obtain ⟨k, hk⟩ := (h.live e he (heq ▸ hp)).resolve_left nofun
    exact hp (hnone k (hk.trans heq))

-- A child that has a slot waits there, and was not told to leave.
theorem State.Settled.seated (h : s.Settled none d) (hk : s.pidSlot k = p) (hp : p ≠ 0) :
    s.ChildAt p (.waiting k) ∧ .told p ∉ s.history := by
  have hwait : s.ChildAt p (.waiting k) := by
    rcases h.parked p nofun with ⟨j, hj, -, hpc⟩ | ⟨hnone, -⟩
    · have hjk : j = k := h.inj j k (hj.trans hk.symm) (hj ▸ hp)
      exact hjk ▸ hpc
    · exact absurd (hnone k hk) hp
  refine ⟨hwait, ?_⟩
  rw [← h.left p nofun, hwait]
  nofun

theorem inv_start (h : Phase.parent.Holds s) (hok : s.start i fork = .ok s') : s'.Inv := by
  obtain ⟨hset, hquiet, hcmd, hdone, -⟩ := h
  rcases start_cases hok with ⟨-, rfl⟩ | ⟨p, hM, hpos, habsent, rfl⟩
  · exact .inr ⟨.ended, hset.addRunning 1, hquiet, hdone, hcmd, rfl⟩
  · obtain ⟨hslot, htold, hentry⟩ := hset.fresh habsent
    have hp0 : p ≠ 0 := ne_of_gt hpos
    exact .inr ⟨.seeking p, ⟨hquiet, hcmd, hdone, hp0, htold, i, .inl ⟨rfl, hentry hp0⟩⟩,
      ((hset.exempt p).setChild _).addRunning 1, hslot, hM,
      .inl ⟨0, congrArg Child.pc (update_self p _ s.child), nofun⟩⟩

theorem inv_terminate (h : Phase.parent.Holds s) (i : Nat) (name : Int) :
    (s.terminate i name).Inv := by
  obtain ⟨hset, hquiet, hcmd, hdone, -⟩ := id h
  unfold State.terminate
  cases hfound : terminateEntries name s.childPidName with
  | mk entries pid =>
    cases pid with
    | none => exact inv_of_pc h (.inl trivial)
    | some p =>
      have hsnd : (terminateEntries name s.childPidName).2 = some p := congrArg Prod.snd hfound
      have hfst : entries = (terminateEntries name s.childPidName).1 :=
        (congrArg Prod.fst hfound).symm
      obtain ⟨e, he, -, hpid, hp⟩ := terminateEntries_found hsnd
      obtain ⟨k, hk⟩ := (hset.live e he (hpid ▸ hp)).resolve_left nofun
      have hkp : s.pidSlot k = p := hk.trans hpid
      obtain ⟨hwait, htold⟩ := hset.seated hkp hp
      have hsettled : SettledAt s.child s.pidSlot entries (s.running - 1) s.history (some p) (-1) :=
        { (hset.exempt p).addRunning (-1) with
          live := fun a ha hne => by
            rw [hfst] at ha
            rcases mem_terminateEntries ha with rfl | ha
            · exact absurd rfl hne
            · exact (hset.exempt p).live a ha.1 hne
          apart := hfst ▸ hset.apart.terminateEntries name }
      refine .inr ⟨.found p k, ⟨hsettled, hquiet, ?_, hkp, hp, hwait⟩, hcmd, hdone, htold, i, rfl⟩
      exact hfst ▸ hset.apart.pid_ne_of_terminateEntries hsnd

theorem inv_parent (h : Phase.parent.Holds s) (hok : s.step cfg content e = .ok s') : s'.Inv := by
  obtain ⟨hset, hquiet, hcmd, hdone, hwork⟩ := id h
  cases e with
  | child q => cases hset.childStep hquiet hok
  | parent c =>
    change s.parentStep cfg content c = .ok s' at hok
    cases hpc : s.pc with
    | top i =>
      cases parentStep_top hpc hok with
      | start _ _ _ hstart => exact inv_start h hstart
      | terminate => exact inv_terminate h i _
      | leave => exact inv_of_pc h (.inr trivial)
      | pass => exact inv_of_pc h (.inl trivial)
      | finish => exact inv_of_pc h (.inr trivial)
    | select i =>
      simp only [State.parentStep, hpc] at hok
      cases hok
      apply inv_of_pc h
      rcases select_cases s cfg content i c with ⟨k, line, hpc⟩ | hpc | hpc <;> rw [hpc]
      · exact .inl trivial
      · exact .inl trivial
      · exact .inr trivial
    | put i k line =>
      simp only [State.parentStep, hpc, Except.ok.injEq] at hok
      exact hok ▸ .inr ⟨.parent, hset, hquiet, hcmd, hdone, rfl⟩
    | post i k line =>
      simp only [State.parentStep, hpc, Except.ok.injEq] at hok
      rw [hpc] at hwork
      subst hok
      exact .inr ⟨.posted k line, hset.append nofun nofun, hquiet.postSem k, hcmd,
        hdone.begun _, hwork, i, rfl⟩
    | _ =>
      rw [hpc] at hwork
      exact hwork.elim

/-! ## A child is told to leave -/

theorem inv_found (h : (Phase.found p k).Holds s) (hok : s.step cfg content e = .ok s') :
    s'.Inv := by
  obtain ⟨hdoom, hcmd, hdone, htold, i, hpc⟩ := h
  cases e with
  | child q =>
    -- the only child under way is `p`, which waits
    cases hdoom.settled.childStep hdoom.quiet hok
    cases (hdoom.waits.stuck hdoom.quiet).symm.trans hok
  | parent c =>
    simp only [State.step, State.parentStep, hpc] at hok
    cases hok
    refine .inr ⟨.telling p k, ?_, rfl, hdone.begun _, i, .inl rfl⟩
    exact { hdoom with settled := hdoom.settled.append (fun q hq => by cases hq; rfl) nofun }

theorem inv_telling (h : (Phase.telling p k).Holds s)
    (hok : s.step cfg content e = .ok s') : s'.Inv := by
  obtain ⟨hdoom, hcmd, hbegun, i, hpc⟩ := h
  cases e with
  | child q =>
    cases hdoom.settled.childStep hdoom.quiet hok
    cases (hdoom.waits.stuck hdoom.quiet).symm.trans hok
  | parent c =>
    rcases hpc with hpc | ⟨j, hj, hpc⟩ | hpc
    · simp only [State.step, State.parentStep, hpc] at hok
      cases hok
      exact .inr ⟨.telling p k, { hdoom with }, hcmd, hbegun, i, .inr (.inl ⟨0, zero_le _, rfl⟩)⟩
    · -- the search goes on to slot `k`, the only one with the pid
      have hjM : j < M := Nat.lt_of_le_of_lt hj k.isLt
      simp only [State.step, State.parentStep, hpc, dif_pos hjM] at hok
      split at hok
      next hslot =>
        rw [Except.ok.injEq] at hok
        have hjk : (⟨j, hjM⟩ : Fin M) = k :=
          hdoom.settled.inj _ _ (hslot.trans hdoom.slot.symm) (hslot ▸ hdoom.pid)
        subst hok
        exact .inr ⟨.telling p k, { hdoom with }, hcmd, hbegun, i, .inr (.inr (by rw [hjk]))⟩
      next hslot =>
        rw [Except.ok.injEq] at hok
        have hne : j ≠ k.val := fun heq => hslot (by
          rw [show (⟨j, hjM⟩ : Fin M) = k from Fin.ext heq]
          exact hdoom.slot)
        subst hok
        exact .inr ⟨.telling p k, { hdoom with }, hcmd, hbegun, i,
          .inr (.inl ⟨j + 1, by omega, rfl⟩)⟩
    · simp only [State.step, State.parentStep, hpc] at hok
      cases hok
      refine .inr ⟨.waking p k, ⟨hdoom.settled.vacate hdoom.slot hdoom.pid, hbegun,
        hdoom.noEntry, fun j hj => ?_, hdoom.pid⟩, hdoom.quiet, hcmd, update_self ..,
        hdoom.waits, i, rfl⟩
      by_cases hjk : j = k
      · rw [← hj, hjk]
        exact update_self ..
      · have hj' : s.pidSlot j = p := (update_of_ne hjk ..).symm.trans hj
        exact absurd (hdoom.settled.inj j k (hj'.trans hdoom.slot.symm) (hj' ▸ hdoom.pid)) hjk

theorem inv_waking (h : (Phase.waking p k).Holds s) (hok : s.step cfg content e = .ok s') :
    s'.Inv := by
  obtain ⟨hleaver, hquiet, hcmd, hslot, hwait, i, hpc⟩ := h
  cases e with
  | child q =>
    cases hleaver.settled.childStep hquiet hok
    cases (hwait.stuck hquiet).symm.trans hok
  | parent c =>
    simp only [State.step, State.parentStep, hpc] at hok
    cases hok
    exact .inr ⟨.dismissed p k, { hleaver with }, hquiet.postSem k, hcmd, hslot, hwait, i, rfl⟩

theorem inv_dismissed (h : (Phase.dismissed p k).Holds s)
    (hok : s.step cfg content e = .ok s') : s'.Inv := by
  obtain ⟨hleaver, hpost, hcmd, hslot, hwait, i, hpc⟩ := h
  cases e with
  | parent c =>
    simp only [State.step, State.parentStep, hpc, hpost.2, lt_irrefl, if_false, reduceCtorEq] at hok
  | child q =>
    change s.childStep q = .ok s' at hok
    by_cases hq : q = p
    · subst hq
      simp only [State.childStep, hwait, hpost.pos, if_true] at hok
      cases hok
      refine .inr ⟨.departing q, { hleaver with settled := hleaver.settled.setChild _ },
        hpost.take _, ⟨i, hpc⟩, .inl ⟨hcmd, .inl ⟨k, State.childAt_setChildPc ..⟩⟩⟩
    · -- no other child waits on the semaphore of a slot that is cleared
      rw [childStep_of_parked (hleaver.settled.parked q fun heq => hq (Option.some.inj heq).symm)
        fun j hj hq0 => hpost.other fun hjk => hq0 (by rw [← hj, hjk, hslot])] at hok
      cases hok

theorem inv_departing (h : (Phase.departing p).Holds s)
    (hok : s.step cfg content e = .ok s') : s'.Inv := by
  obtain ⟨hleaver, hquiet, ⟨i, hpc⟩, hat⟩ := h
  cases e with
  | parent c =>
    simp only [State.step, State.parentStep, hpc, hquiet.2, lt_irrefl, if_false, reduceCtorEq]
      at hok
  | child q =>
    cases hleaver.settled.childStep hquiet hok
    change s.childStep p = .ok s' at hok
    rcases hat with ⟨hcmd, ⟨k, hat⟩ | ⟨n, hat⟩⟩ | ⟨hcmd, n, hat⟩
    · simp only [State.childStep, hat, hcmd, ne_eq, not_true_eq_false,
        false_and, if_false, Except.ok.injEq] at hok
      subst hok
      exact .inr ⟨.departing p, { hleaver with settled := hleaver.settled.setChild _ }, hquiet,
        ⟨i, hpc⟩, .inl ⟨hcmd, .inr ⟨s.terminateStep, State.childAt_setChildPc ..⟩⟩⟩
    · have hne : (p : Int) ≠ -1 := by omega
      simp only [State.childStep, hat, if_pos hne] at hok
      cases hok
      exact .inr ⟨.departing p, { hleaver with settled := hleaver.settled.setChild _ }, hquiet,
        ⟨i, hpc⟩, .inr ⟨rfl, n, State.childAt_setChildPc ..⟩⟩
    · simp only [State.childStep, hat] at hok
      cases hok
      have hexited : (update s.child p { s.child p with pc := .exited } p).pc = .exited :=
        s.childAt_setChildPc p .exited
      have hset : SettledAt (update s.child p { s.child p with pc := .exited }) s.pidSlot
          s.childPidName s.running
          (s.history ++ [.left p (s.child p).messages (n - (s.child p).startingStep)]) none 0 := by
        refine SettledAt.park (SettledAt.append (hleaver.settled.setChild _) nofun nofun)
          (.inr ⟨hleaver.noSlot, .inr hexited⟩) ?_ fun a ha hp => absurd hp (hleaver.noEntry a ha)
        obtain ⟨before, -, heq⟩ := hleaver.begun
        simp [heq]
      exact .inr ⟨.back, hset, hquiet.1, by rw [hquiet.2], hcmd,
        hleaver.begun.finish (.leave p _ _) rfl, .inr ⟨i, .inl hpc⟩⟩

/-! ## A child is started -/

theorem State.Starting.register (h : s.Starting p)
    (hok : s.parentStep cfg content c = .ok s') (hsem : s.parSem = 0) :
    s'.pc = .undefined ∨ ∃ i name, s.NoEntry p ∧
      s' = { s with childPidName := s.childPidName ++ [⟨p, name⟩], pc := .awaitCommand i } := by
  obtain ⟨i, ⟨hpc, hno⟩ | hpc⟩ := h
  · simp only [State.parentStep, hpc] at hok
    split at hok
    · rw [Except.ok.injEq] at hok
      exact .inr ⟨i, _, hno, hok.symm⟩
    · rw [Except.ok.injEq] at hok
      exact .inl (hok ▸ rfl)
  · simp only [State.parentStep, hpc, hsem, lt_irrefl, if_false, reduceCtorEq] at hok

theorem Apart.register {entries : List Runningprocess} (h : Apart entries) {e : Runningprocess}
    (hno : ∀ a ∈ entries, a.pid ≠ e.pid) : Apart (entries ++ [e]) := by
  apply List.pairwise_append.mpr
  refine ⟨h, List.pairwise_singleton _ _, fun a ha b hb heq => ?_⟩
  rw [List.mem_singleton] at hb
  exact absurd (hb ▸ heq) (hno a ha)

theorem State.Settled.register {name : Int} (h : s.Settled x d)
    (hno : s.NoEntry p) (hp : x = some p ∨ ∃ k, s.pidSlot k = p) :
    SettledAt s.child s.pidSlot (s.childPidName ++ [⟨p, name⟩]) s.running s.history x d :=
  { h with
    live := fun a ha hne => by
      rcases List.mem_append.mp ha with ha | ha
      · exact h.live a ha hne
      · cases List.mem_singleton.mp ha
        exact hp
    apart := h.apart.register hno }

theorem inv_seeking (h : (Phase.seeking p).Holds s) (hok : s.step cfg content e = .ok s') :
    s'.Inv := by
  obtain ⟨hnew, hset, hslot, hM, hat⟩ := h
  cases e with
  | parent c =>
    rcases hnew.starting.register hok hnew.quiet.2 with hundef | ⟨i, name, hno, rfl⟩
    · exact .inl ⟨by rw [hundef]; trivial, fun hne => absurd hundef hne⟩
    · exact .inr ⟨.seeking p, { hnew with starting := ⟨i, .inr rfl⟩ }, hset.register hno (.inl rfl),
        hslot, hM, hat⟩
  | child q =>
    cases hset.childStep hnew.quiet hok
    change s.childStep p = .ok s' at hok
    rcases hat with ⟨j, hat, hbelow⟩ | ⟨k, hat, hk⟩
    · -- a slot is free, and none of those passed by is
      obtain ⟨k, hk⟩ := hset.exists_free hM
      have hjk : j ≤ k := Nat.le_of_not_lt fun hlt => hbelow k hlt hk
      have hjM : j < M := Nat.lt_of_le_of_lt hjk k.isLt
      simp only [State.childStep, hat, dif_pos hjM] at hok
      split at hok
      next hfree =>
        cases hok
        exact .inr ⟨.seeking p, { hnew with }, hset.setChild _, hslot, hM,
          .inr ⟨_, State.childAt_setChildPc .., hfree⟩⟩
      · cases hok
        refine .inr ⟨.seeking p, { hnew with }, hset.setChild _, hslot, hM,
          .inl ⟨j + 1, State.childAt_setChildPc .., fun i hi => ?_⟩⟩
        rcases Nat.lt_succ_iff_lt_or_eq.mp hi with hi | hi
        · exact hbelow i hi
        · rwa [show i = ⟨j, hjM⟩ from Fin.ext hi]
    · simp only [State.childStep, hat] at hok
      cases hok
      exact .inr ⟨.greeting p k, { hnew with }, (hset.setChild _).occupy hk hnew.pid hslot,
        update_self .., State.childAt_setChildPc ..⟩

theorem inv_greeting (h : (Phase.greeting p k).Holds s)
    (hok : s.step cfg content e = .ok s') : s'.Inv := by
  obtain ⟨hnew, hset, hslot, hat⟩ := h
  cases e with
  | parent c =>
    rcases hnew.starting.register hok hnew.quiet.2 with hundef | ⟨i, name, hno, rfl⟩
    · exact .inl ⟨by rw [hundef]; trivial, fun hne => absurd hundef hne⟩
    · exact .inr ⟨.greeting p k, { hnew with starting := ⟨i, .inr rfl⟩ },
        hset.register hno (.inl rfl), hslot, hat⟩
  | child q =>
    cases hset.childStep hnew.quiet hok
    change s.childStep p = .ok s' at hok
    simp only [State.childStep, hat] at hok
    cases hok
    exact .inr ⟨.back, hset.settle hslot hnew.pid hnew.untold, hnew.quiet.1, by rw [hnew.quiet.2],
      hnew.command, hnew.complete, .inl ⟨p, hnew.starting, hnew.pid, k, hslot⟩⟩

/-! ## A line is printed -/

theorem inv_posted {line : Line} (h : (Phase.posted k line).Holds s)
    (hok : s.step cfg content e = .ok s') : s'.Inv := by
  obtain ⟨hset, hpost, hcmd, hbegun, htext, i, hpc⟩ := h
  cases e with
  | parent c =>
    simp only [State.step, State.parentStep, hpc, hpost.2, lt_irrefl, if_false, reduceCtorEq] at hok
  | child q =>
    change s.childStep q = .ok s' at hok
    by_cases hq : s.pidSlot k = q ∧ q ≠ 0
    · obtain ⟨hwait, htold⟩ := hset.seated hq.1 hq.2
      simp only [State.childStep, hwait, hpost.pos, if_true] at hok
      cases hok
      exact .inr ⟨.reading q k line, (hset.exempt q).setChild _, hpost.take _, hcmd, hq.1, hq.2,
        htold, ⟨i, hpc⟩, .inl ⟨htext, hbegun, .inl (State.childAt_setChildPc ..)⟩⟩
    · rw [childStep_of_parked (hset.parked q nofun)
        fun j hj hq0 => hpost.other fun hjk => hq ⟨hjk ▸ hj, hq0⟩] at hok
      cases hok

theorem inv_reading {line : Line} (h : (Phase.reading p k line).Holds s)
    (hok : s.step cfg content e = .ok s') : s'.Inv := by
  obtain ⟨hset, hquiet, hcmd, hslot, hp, htold, ⟨i, hpc⟩, hat⟩ := h
  cases e with
  | parent c =>
    simp only [State.step, State.parentStep, hpc, hquiet.2, lt_irrefl, if_false, reduceCtorEq]
      at hok
  | child q =>
    cases hset.childStep hquiet hok
    change s.childStep p = .ok s' at hok
    rcases hat with ⟨htext, hbegun, hat | hat⟩ | ⟨hdone, hat⟩
    · -- the command word is neither the pid nor -1
      have hprint : s.command ≠ p ∧ s.command ≠ -1 := by omega
      simp only [State.childStep, hat, if_pos hprint] at hok
      cases hok
      exact .inr ⟨.reading p k line, hset.setChild _, hquiet, hcmd, hslot, hp, htold, ⟨i, hpc⟩,
        .inl ⟨htext, hbegun, .inr (State.childAt_setChildPc ..)⟩⟩
    · simp only [State.childStep, hat] at hok
      cases hok
      refine .inr ⟨.reading p k line, (hset.setChild _).append nofun fun q j l heq => ?_, hquiet,
        hcmd, hslot, hp, ?_, ⟨i, hpc⟩,
        .inr ⟨hbegun.finish (.line p k line) (by rw [htext]; rfl), ?_⟩⟩
      · cases heq
        exact htold
      · simpa using htold
      · show (update s.child p _ p).pc = _
        rw [update_self]
    · simp only [State.childStep, hat] at hok
      cases hok
      exact .inr ⟨.back, hset.settle hslot hp htold, hquiet.1, by rw [hquiet.2], hcmd, hdone,
        .inr ⟨i, .inr hpc⟩⟩

/-! ## The parent gets the turn back -/

theorem inv_back (h : (Phase.back : Phase M).Holds s)
    (hok : s.step cfg content e = .ok s') : s'.Inv := by
  obtain ⟨hset, hsem, hpar, hcmd, hdone, hpc⟩ := h
  have hquiet : ({ s with parSem := s.parSem - 1 } : State M).Quiet := ⟨hsem, by rw [hpar]⟩
  cases e with
  | child q =>
    change s.childStep q = .ok s' at hok
    rw [childStep_of_parked (hset.parked q nofun) fun j _ _ => hsem j] at hok
    cases hok
  | parent c =>
    change s.parentStep cfg content c = .ok s' at hok
    have hpos : 0 < s.parSem := by omega
    rcases hpc with ⟨p, ⟨i, ⟨hpc, hno⟩ | hpc⟩, hp, hslot⟩ | ⟨i, hpc | hpc⟩
    · simp only [State.parentStep, hpc] at hok
      split at hok
      · cases hok
        exact .inr ⟨.back, hset.register hno (.inr hslot), hsem, hpar, hcmd, hdone,
          .inr ⟨i, .inl rfl⟩⟩
      · cases hok
        exact .inl ⟨trivial, fun hne => absurd rfl hne⟩
    all_goals
      simp only [State.parentStep, hpc, if_pos hpos] at hok
      cases hok
      exact .inr ⟨.parent, hset, hquiet, hcmd, hdone, trivial⟩

theorem inv_ended (h : (Phase.ended : Phase M).Holds s)
    (hok : s.step cfg content e = .ok s') : s'.Inv := by
  obtain ⟨hset, hquiet, -, -, hpc⟩ := h
  cases e with
  | child q => cases hset.childStep hquiet hok
  | parent c => simp only [State.step, State.parentStep, hpc, reduceCtorEq] at hok

/-! ## Runs -/

-- A child does not touch the parent's own variables.
theorem childStep_parent (hok : s.childStep q = .ok s') :
    s'.pc = s.pc ∧ s'.childPidName = s.childPidName ∧ s'.running = s.running := by
  unfold State.childStep at hok
  split at hok <;> try split at hok
  all_goals try split at hok
  all_goals first | cases hok; exact ⟨rfl, rfl, rfl⟩ | cases hok

theorem childStep_grown (h : ∀ p, (s.child p).pc.Grown) (hok : s.childStep q = .ok s') :
    ∀ p, (s'.child p).pc.Grown := by
  have hset : ∀ c : Child M, c.pc.Grown → ∀ p, (update s.child q c p).pc.Grown := by
    intro c hc p
    by_cases hp : p = q
    · rwa [hp, update_self]
    · rw [update_of_ne hp]
      exact h p
  have hq := h q
  unfold State.childStep at hok
  cases hpc : (s.child q).pc with
  | seek j | claim k | hello k | lost =>
    rw [hpc] at hq
    exact hq.elim
  | absent | exited => simp only [hpc, reduceCtorEq] at hok
  | waiting k | woken k =>
    simp only [hpc] at hok
    split at hok
    all_goals first | cases hok; exact hset _ trivial | cases hok
  | printing k | printed k | leaving command n | bye n =>
    simp only [hpc, Except.ok.injEq] at hok
    exact hok ▸ hset _ trivial

-- The parent keeps out of its loop, and touches no child.
theorem parentStep_outside (h : s.pc.Outside) (hok : s.parentStep cfg content c = .ok s') :
    s'.pc.Outside ∧ s'.child = s.child ∧ s.pc ≠ .undefined := by
  cases hpc : s.pc with
  | tellAll | tellAllStep | wakeAll | reap | done | undefined =>
    simp only [State.parentStep, hpc] at hok
    repeat' split at hok
    all_goals first
      | exact Except.ok.inj hok ▸ ⟨trivial, rfl, nofun⟩
      | cases hok
  | _ =>
    rw [hpc] at h
    exact h.elim

theorem inv_outside (h : s.pc.Outside) (hgrown : s.pc ≠ .undefined → ∀ p, (s.child p).pc.Grown)
    (hok : s.step cfg content e = .ok s') : s'.Inv := by
  cases e with
  | child q =>
    have hpc := (childStep_parent hok).1
    refine .inl ⟨hpc ▸ h, fun hne => childStep_grown (hgrown ?_) hok⟩
    rwa [hpc] at hne
  | parent c =>
    obtain ⟨hout, hchild, hne⟩ := parentStep_outside h hok
    exact .inl ⟨hout, fun _ => hchild ▸ hgrown hne⟩

theorem State.Inv.step (h : s.Inv) {e : Event} (hok : s.step cfg content e = .ok s') : s'.Inv := by
  rcases h with ⟨h, hgrown⟩ | ⟨phase, h⟩
  · exact inv_outside h hgrown hok
  · cases phase with
    | parent => exact inv_parent h hok
    | found p k => exact inv_found h hok
    | telling p k => exact inv_telling h hok
    | waking p k => exact inv_waking h hok
    | dismissed p k => exact inv_dismissed h hok
    | departing p => exact inv_departing h hok
    | seeking p => exact inv_seeking h hok
    | greeting p k => exact inv_greeting h hok
    | posted k line => exact inv_posted h hok
    | reading p k line => exact inv_reading h hok
    | back => exact inv_back h hok
    | ended => exact inv_ended h hok

end Steps

theorem State.inv_init : (State.init M).Inv := by
  refine .inr ⟨.parent, ?_, ⟨fun _ => rfl, rfl⟩, rfl, ⟨[], rfl⟩, trivial⟩
  exact {
    inj := fun _ _ _ h => absurd rfl h
    parked := fun p _ => .inr ⟨fun _ h => h.symm, .inl rfl⟩
    left := fun p _ => ⟨nofun, nofun⟩
    count := by simp [State.init, occupied]
    live := nofun
    apart := .nil
    silent := fun before after pid h => by simp [State.init] at h }

theorem State.Reached.inv {cfg : Config} {content : List Line} {s : State M}
    (h : s.Reached cfg content) : s.Inv :=
  Reach.invariant h State.inv_init fun _ _ _ hinv _ hok => hinv.step hok

-- A file that is read and a list of events, evaluated, exhibit a reached state.
theorem exists_reached (file : List Char) (content : List Line) (events : List Event)
    (p : Config → State M → Bool) (h : (match readConfig file with
      | .ok cfg =>
        (follow (State.step cfg content) (fun _ _ => decide True) (State.init M) events).any (p cfg)
      | .error _ => false) = true) :
    ∃ cfg, readConfig file = .ok cfg ∧ ∃ s : State M, s.Reached cfg content ∧ p cfg s = true := by
  cases hread : readConfig file with
  | error msg =>
    rw [hread] at h
    cases h
  | ok cfg =>
    rw [hread] at h
    exact ⟨cfg, rfl, exists_reach_of_follow _ _ _ events _ h⟩

/-! ## Where the turn is -/

/-- The parent has the turn: from its return from `sem_wait` to its next `fork` or `sem_post`. -/
def ParentPc.HasTurn : ParentPc M → Prop
  | .register .. | .awaitCommand _ | .awaitLine _ | .failed => False
  | _ => True

/-- A child has the turn: from its start, or its return from `sem_wait`, to its `sem_post`. -/
def ChildPc.HasTurn : ChildPc M → Prop
  | .absent | .waiting _ | .exited => False
  | _ => True

inductive Place (M : Nat)
  | parent
  | childSem (k : Fin M)
  | child (p : Nat)
  | parSem
  deriving DecidableEq

def State.TurnAt (s : State M) : Place M → Prop
  | .parent => s.pc.HasTurn
  | .childSem k => 0 < s.semaphore k
  | .child p => (s.child p).pc.HasTurn
  | .parSem => 0 < s.parSem

def Phase.place : Phase M → Option (Place M)
  | .parent | .found .. | .telling .. | .waking .. => some .parent
  | .dismissed _ k | .posted k _ => some (.childSem k)
  | .departing p | .seeking p | .greeting p _ | .reading p .. => some (.child p)
  | .back => some .parSem
  | .ended => none

section Turn

variable {s : State M} {phase : Phase M} {p : Nat} {k : Fin M}

theorem Parked.not_hasTurn (h : Parked s.child s.pidSlot p) : ¬ (s.child p).pc.HasTurn := by
  rcases h with ⟨k, -, -, hpc⟩ | ⟨-, hpc | hpc⟩
  all_goals
    rw [hpc]
    exact id

theorem State.ChildAt.not_hasTurn (h : s.ChildAt p (.waiting k)) : ¬ (s.child p).pc.HasTurn := by
  rw [h]
  exact id

-- Only the child under way can have the turn.
theorem State.Settled.child_of_hasTurn (h : s.Settled x d)
    (hturn : (s.child p).pc.HasTurn) : x = some p := by
  by_contra hx
  exact (h.parked p hx).not_hasTurn hturn

theorem State.Starting.not_hasTurn (h : s.Starting p) : ¬ s.pc.HasTurn := by
  obtain ⟨i, ⟨hpc, -⟩ | hpc⟩ := h
  all_goals
    rw [hpc]
    exact id

theorem Phase.Holds.parent_hasTurn (h : phase.Holds s) (hturn : s.pc.HasTurn) :
    phase.place = some .parent := by
  cases phase with
  | parent | found p k | telling p k | waking p k => rfl
  | dismissed p k =>
    obtain ⟨i, hpc⟩ := h.2.2.2.2.2
    rw [hpc] at hturn
    exact hturn.elim
  | departing p =>
    obtain ⟨i, hpc⟩ := h.2.2.1
    rw [hpc] at hturn
    exact hturn.elim
  | seeking p | greeting p k => exact absurd hturn h.1.starting.not_hasTurn
  | posted k line =>
    obtain ⟨i, hpc⟩ := h.2.2.2.2.2
    rw [hpc] at hturn
    exact hturn.elim
  | reading p k line =>
    obtain ⟨i, hpc⟩ := h.2.2.2.2.2.2.1
    rw [hpc] at hturn
    exact hturn.elim
  | back =>
    rcases h.2.2.2.2.2 with ⟨p, hstart, -⟩ | ⟨i, hpc | hpc⟩
    · exact absurd hturn hstart.not_hasTurn
    all_goals
      rw [hpc] at hturn
      exact hturn.elim
  | ended =>
    rw [h.2.2.2.2] at hturn
    exact hturn.elim

theorem Phase.Holds.child_hasTurn (h : phase.Holds s) (hturn : (s.child p).pc.HasTurn) :
    phase.place = some (.child p) := by
  cases phase with
  | parent => cases h.1.child_of_hasTurn hturn
  | found q k | telling q k =>
    cases h.1.settled.child_of_hasTurn hturn
    exact absurd hturn h.1.waits.not_hasTurn
  | waking q k | dismissed q k =>
    cases h.1.settled.child_of_hasTurn hturn
    exact absurd hturn h.2.2.2.2.1.not_hasTurn
  | departing q =>
    cases h.1.settled.child_of_hasTurn hturn
    rfl
  | seeking q | greeting q k =>
    cases h.2.1.child_of_hasTurn hturn
    rfl
  | posted k line => cases h.1.child_of_hasTurn hturn
  | reading q k line =>
    cases h.1.child_of_hasTurn hturn
    rfl
  | back | ended => cases h.1.child_of_hasTurn hturn

theorem Phase.Holds.semaphores (h : phase.Holds s) :
    (∀ k, s.semaphore k = if phase.place = some (.childSem k) then 1 else 0) ∧
      s.parSem = if phase.place = some .parSem then 1 else 0 := by
  have hpost : ∀ j, s.Posted j → (∀ k, s.semaphore k =
      if some (.childSem j) = some (Place.childSem k) then 1 else 0) ∧ s.parSem = 0 := by
    intro j hj
    refine ⟨fun k => ?_, hj.2⟩
    rw [hj.1 k]
    simp only [Option.some.injEq, Place.childSem.injEq, eq_comm]
  cases phase with
  | parent => exact h.2.1
  | found p j | telling p j => exact h.1.quiet
  | waking p j => exact h.2.1
  | dismissed p j => exact hpost j h.2.1
  | departing p => exact h.2.1
  | seeking p | greeting p j => exact h.1.quiet
  | posted j line => exact hpost j h.2.1
  | reading p j line => exact h.2.1
  | back => exact ⟨h.2.1, h.2.2.1⟩
  | ended => exact h.2.1

theorem Phase.Holds.turnAt (h : phase.Holds s) {x : Place M} (hx : s.TurnAt x) :
    phase.place = some x := by
  cases x with
  | parent => exact h.parent_hasTurn hx
  | child p => exact h.child_hasTurn hx
  | childSem k =>
    by_contra hne
    have hpos : 0 < s.semaphore k := hx
    rw [h.semaphores.1 k, if_neg hne] at hpos
    exact lt_irrefl 0 hpos
  | parSem =>
    by_contra hne
    have hpos : 0 < s.parSem := hx
    rw [h.semaphores.2, if_neg hne] at hpos
    exact lt_irrefl 0 hpos

/-- The parent has just got past a `sem_wait`, or needed none. -/
def ParentPc.PastWait : ParentPc M → Prop
  | .top _ | .select _ => True
  | _ => False

theorem State.Inv.pastWait (h : s.Inv) (hpc : s.pc.PastWait) : Phase.parent.Holds s := by
  have hturn : s.pc.HasTurn := by
    cases hs : s.pc <;> first | trivial | (rw [hs] at hpc; exact hpc.elim)
  rcases h with ⟨hout, -⟩ | ⟨phase, h⟩
  · cases hs : s.pc <;> rw [hs] at hpc hout <;> first | exact hpc.elim | exact hout.elim
  · have hplace := h.parent_hasTurn hturn
    cases phase with
    | parent => exact h
    | found p k =>
      obtain ⟨i, hs⟩ := h.2.2.2.2
      rw [hs] at hpc
      exact hpc.elim
    | telling p k =>
      obtain ⟨i, hs | ⟨j, -, hs⟩ | hs⟩ := h.2.2.2
      all_goals
        rw [hs] at hpc
        exact hpc.elim
    | waking p k =>
      obtain ⟨i, hs⟩ := h.2.2.2.2.2
      rw [hs] at hpc
      exact hpc.elim
    | _ => cases hplace

end Turn

end OsProjects.Dispatch
