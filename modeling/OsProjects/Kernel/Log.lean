import OsProjects.Kernel.Param
import OsProjects.Lib.Reach
import Mathlib.Algebra.BigOperators.Group.Finset.Basic
import Mathlib.Algebra.Order.BigOperators.Group.Finset
import Mathlib.Data.List.Dedup
import Mathlib.Tactic.Linarith

/-!
# Log — `begin_op`, `log_write`, `end_op` and the commits they lead to

Each critical section under `log.lock` is one step; `commit()` runs without the lock and is many
steps.  Any number of processes take part, and the events may come in any order.
-/

namespace OsProjects.Kernel

open Lib List

/-- Where a process stands.  `inOp` remembers which block numbers its operation has passed to
`log_write` so far; the kernel keeps no such record. -/
inductive OpPhase where
  | idle
  | inOp (wrote : List Nat)
  | committing
  | cleared
deriving DecidableEq

def OpPhase.wrote? : OpPhase → Option (List Nat)
  | .inOp wrote => some wrote
  | _ => none

/-- `struct log` (`lh` is `lh.block[0..n)`) and the phase of every process. -/
structure LogState where
  lh : List Nat
  outstanding : Int
  committing : Bool
  phase : Nat → OpPhase

inductive LogEvent where
  | beginOp (p : Nat)
  | logWrite (p b : Nat)
  | endOp (p : Nat)
  | commitIo (p : Nat)
  | commitClear (p : Nat)
  | commitEnd (p : Nat)
deriving DecidableEq

variable {b : Nat} {lh : List Nat}

namespace LogState

def init : LogState := ⟨[], 0, false, fun _ => .idle⟩

def setPhase (s : LogState) (p : Nat) (ph : OpPhase) : LogState :=
  { s with phase := Function.update s.phase p ph }

/-- `log.lh.block[i] = b` at the first `i` with `block[i] == b`, or at `n`, which then grows. -/
def absorb (lh : List Nat) (b : Nat) : List Nat :=
  if lh.idxOf b = lh.length then lh ++ [b] else lh.set (lh.idxOf b) b

/-- One pass of the loop of `begin_op`: the process sleeps (and will try again) or is admitted. -/
def beginOp (s : LogState) (p : Nat) : LogState :=
  if s.committing then s
  else if s.lh.length + (s.outstanding + 1) * MAXOPBLOCKS > LOGSIZE then s
  else { s.setPhase p (.inOp []) with outstanding := s.outstanding + 1 }

def logWrite (logsize : Nat) (s : LogState) (p b : Nat) : Except String LogState :=
  if s.lh.length ≥ LOGSIZE ∨ (s.lh.length : Int) ≥ logsize - 1 then
    .error "too big a transaction"
  else if s.outstanding < 1 then .error "log_write outside of trans"
  else
    let s := { s with lh := absorb s.lh b }
    match s.phase p with
    | .inOp wrote => .ok (s.setPhase p (.inOp (wrote.insert b)))
    | _ => .ok s

/-- The critical section of `end_op`; the last operation goes on to commit. -/
def endOp (s : LogState) (p : Nat) : Except String LogState :=
  let s := { s with outstanding := s.outstanding - 1 }
  if s.committing then .error "log.committing"
  else if s.outstanding = 0 then .ok { s.setPhase p .committing with committing := true }
  else .ok (s.setPhase p .idle)

def step (logsize : Nat) (s : LogState) : LogEvent → Except String LogState
  | .beginOp p => .ok (s.beginOp p)
  | .logWrite p b => s.logWrite logsize p b
  | .endOp p => s.endOp p
  -- the reads and writes of `commit()` leave `struct log` alone
  | .commitIo _ => .ok s
  | .commitClear p => .ok { s.setPhase p .cleared with lh := [] }
  | .commitEnd p => .ok { s.setPhase p .idle with committing := false }

/-- What the callers promise: `log_write` and `end_op` come from a process inside an operation,
and an operation logs at most `MAXOPBLOCKS` distinct blocks. -/
def Calls (s : LogState) : LogEvent → Prop
  | .beginOp p => s.phase p = .idle
  | .logWrite p b => ∃ wrote ∈ (s.phase p).wrote?, (wrote.insert b).length ≤ MAXOPBLOCKS
  | .endOp p => (s.phase p).wrote?.isSome
  | .commitIo p => s.phase p = .committing
  | .commitClear p => s.phase p = .committing
  | .commitEnd p => s.phase p = .cleared

instance (s : LogState) : (e : LogEvent) → Decidable (s.Calls e)
  | .beginOp p => inferInstanceAs (Decidable (s.phase p = .idle))
  | .logWrite p b => inferInstanceAs
      (Decidable (∃ wrote ∈ (s.phase p).wrote?, (wrote.insert b).length ≤ MAXOPBLOCKS))
  | .endOp p => inferInstanceAs (Decidable ((s.phase p).wrote?.isSome = true))
  | .commitIo p => inferInstanceAs (Decidable (s.phase p = .committing))
  | .commitClear p => inferInstanceAs (Decidable (s.phase p = .committing))
  | .commitEnd p => inferInstanceAs (Decidable (s.phase p = .cleared))

/-- The step is no `log_write` of an already logged block into a full header: `log_write` tests
for a full header before it looks for absorption. -/
def AbsorbsWithRoom (s : LogState) : LogEvent → Prop
  | .logWrite _ b => ¬ (b ∈ s.lh ∧ s.lh.length = LOGSIZE)
  | _ => True

instance (s : LogState) (e : LogEvent) : Decidable (s.AbsorbsWithRoom e) := by
  unfold AbsorbsWithRoom
  split <;> infer_instance

theorem setPhase_phase (s : LogState) (p q : Nat) (ph : OpPhase) :
    (s.setPhase p ph).phase q = if q = p then ph else s.phase q :=
  Function.update_apply _ _ _ _

theorem absorb_of_mem (h : b ∈ lh) : absorb lh b = lh := by
  have hlt : lh.idxOf b < lh.length := idxOf_lt_length_iff.mpr h
  rw [absorb, if_neg (by omega)]
  apply ext_getElem (by rw [length_set])
  intro i hi hi'
  rw [getElem_set]
  split
  · rename_i heq
    subst heq
    exact (getElem_idxOf hlt).symm
  · rfl

theorem absorb_of_not_mem (h : b ∉ lh) : absorb lh b = lh ++ [b] := by
  rw [absorb, if_pos (idxOf_eq_length h)]

theorem mem_absorb {c : Nat} : c ∈ absorb lh b ↔ c ∈ lh ∨ c = b := by
  by_cases hb : b ∈ lh
  · rw [absorb_of_mem hb]
    constructor
    · exact .inl
    · rintro (hc | rfl)
      · exact hc
      · exact hb
  · rw [absorb_of_not_mem hb, mem_append, mem_singleton]

theorem nodup_absorb (h : lh.Nodup) : (absorb lh b).Nodup := by
  by_cases hb : b ∈ lh
  · rwa [absorb_of_mem hb]
  · rw [absorb_of_not_mem hb, nodup_append]
    refine ⟨h, nodup_singleton b, fun x hx y hy => ?_⟩
    rw [mem_singleton] at hy
    exact fun heq => hb (hy ▸ heq ▸ hx)

/-! ## Who is in an operation, who commits -/

end LogState

/-- A process that runs `commit()`. -/
def OpPhase.InCommit (ph : OpPhase) : Prop := ph = .committing ∨ ph = .cleared

variable {active : Finset Nat} {s : LogState} {p logsize : Nat} {ph : OpPhase} {wrote : List Nat}

namespace LogState

theorem inCommit_of_setPhase (s : LogState) {q : Nat} (hph : ¬ ph.InCommit)
    (h : ((s.setPhase p ph).phase q).InCommit) : (s.phase q).InCommit := by
  rw [setPhase_phase] at h
  by_cases hq : q = p
  · rw [if_pos hq] at h
    exact absurd h hph
  · rwa [if_neg hq] at h

theorem not_inCommit_inOp (wrote : List Nat) : ¬ (OpPhase.inOp wrote).InCommit := by
  rintro (h | h) <;> cases h

theorem not_inCommit_idle : ¬ OpPhase.idle.InCommit := by
  rintro (h | h) <;> cases h

theorem phase_of_wrote (hw : wrote ∈ (s.phase p).wrote?) : s.phase p = .inOp wrote := by
  cases hph : s.phase p with
  | inOp w =>
    rw [hph] at hw
    cases hw
    rfl
  | idle | committing | cleared => rw [hph] at hw; cases hw

/-- `outstanding` counts the processes in an operation, and at most one process commits, when there
are none. -/
structure Isolated (s : LogState) (active : Finset Nat) : Prop where
  mem : ∀ p, p ∈ active ↔ (s.phase p).wrote?.isSome
  count : s.outstanding = active.card
  quiet : s.committing = true → active = ∅
  commits : ∀ p, (s.phase p).InCommit → s.committing = true
  unique : ∀ p q, (s.phase p).InCommit → (s.phase q).InCommit → p = q

theorem isolated_init : init.Isolated ∅ where
  mem p := by simp [init, OpPhase.wrote?]
  count := rfl
  quiet _ := rfl
  commits p h := absurd h not_inCommit_idle
  unique p q h := absurd h not_inCommit_idle

theorem Isolated.not_committing (h : s.Isolated active)
    (hp : (s.phase p).wrote?.isSome) : s.committing = false := by
  rw [← Bool.not_eq_true]
  intro hc
  have hmem := (h.mem p).mpr hp
  rw [h.quiet hc] at hmem
  cases hmem

-- The process's own phase changes, for one that is not in `commit()`.
theorem Isolated.leaves {active' : Finset Nat} (h : s.Isolated active)
    {t : LogState} (hph : ¬ ph.InCommit)
    (hphase : t.phase = (s.setPhase p ph).phase) (hcommit : t.committing = s.committing)
    (hmem : ∀ q, q ∈ active' ↔ (t.phase q).wrote?.isSome) (hcount : t.outstanding = active'.card)
    (hquiet : s.committing = true → active' = ∅) : t.Isolated active' where
  mem := hmem
  count := hcount
  quiet hc := hquiet (by rwa [hcommit] at hc)
  commits q hq := by
    rw [hphase] at hq
    rw [hcommit]
    exact h.commits q (inCommit_of_setPhase s hph hq)
  unique q r hq hr := by
    rw [hphase] at hq hr
    exact h.unique q r (inCommit_of_setPhase s hph hq) (inCommit_of_setPhase s hph hr)

theorem mem_setPhase
    (hmem : ∀ q, q ∈ active ↔ (s.phase q).wrote?.isSome) (p : Nat) (wrote : List Nat) (q : Nat) :
    q ∈ insert p active ↔ ((s.setPhase p (.inOp wrote)).phase q).wrote?.isSome := by
  rw [setPhase_phase, Finset.mem_insert]
  by_cases hq : q = p
  · simp [hq, OpPhase.wrote?]
  · simp [hq, hmem]

theorem mem_setPhase_none (hmem : ∀ q, q ∈ active ↔ (s.phase q).wrote?.isSome) (p : Nat)
    (hph : ph.wrote? = none) (q : Nat) :
    q ∈ active.erase p ↔ ((s.setPhase p ph).phase q).wrote?.isSome := by
  rw [setPhase_phase, Finset.mem_erase]
  by_cases hq : q = p
  · simp [hq, hph]
  · simp [hq, hmem]

/-- `begin_op` lets the process wait or admits it. -/
theorem beginOp_cases (s : LogState) (p : Nat) : s.beginOp p = s ∨ (s.committing = false ∧
      s.lh.length + (s.outstanding + 1) * MAXOPBLOCKS ≤ LOGSIZE ∧
      s.beginOp p = { s.setPhase p (.inOp []) with outstanding := s.outstanding + 1 }) := by
  unfold beginOp
  split
  · exact .inl rfl
  rename_i hcommit
  split
  · exact .inl rfl
  · exact .inr ⟨by simpa using hcommit, not_lt.mp ‹_›, rfl⟩

theorem Isolated.begin (h : s.Isolated active)
    (hidle : s.phase p = .idle) (hcommit : s.committing = false) :
    ({ s.setPhase p (.inOp []) with outstanding := s.outstanding + 1 } : LogState).Isolated
      (insert p active) := by
  have hp : p ∉ active := by
    rw [h.mem, hidle]
    simp [OpPhase.wrote?]
  refine h.leaves (not_inCommit_inOp []) rfl rfl (mem_setPhase h.mem p []) ?_ fun hc => ?_
  · rw [Finset.card_insert_of_notMem hp, h.count]
    push_cast
    ring
  · rw [hcommit] at hc
    cases hc

theorem logWrite_inv {s' : LogState} (hp : (s.phase p).wrote?.isSome)
    (h : s.logWrite logsize p b = .ok s') :
    ∃ wrote, s' = { s.setPhase p (.inOp wrote) with lh := absorb s.lh b } := by
  obtain ⟨wrote, hw⟩ := Option.isSome_iff_exists.mp hp
  have hphase := phase_of_wrote hw
  unfold logWrite at h
  split at h
  · cases h
  split at h
  · cases h
  simp only [hphase, Except.ok.injEq] at h
  exact ⟨_, h.symm⟩

theorem Isolated.logs (h : s.Isolated active) (hp : (s.phase p).wrote?.isSome)
    (wrote lh : List Nat) :
    ({ s.setPhase p (.inOp wrote) with lh := lh } : LogState).Isolated active := by
  refine h.leaves (not_inCommit_inOp wrote) rfl rfl (fun q => ?_) h.count h.quiet
  have hmem := mem_setPhase h.mem p wrote q
  rwa [Finset.insert_eq_of_mem ((h.mem p).mpr hp)] at hmem

/-- `end_op` of a process in an operation does not panic; it goes on to commit or not. -/
theorem Isolated.endOp_cases (h : s.Isolated active) (hp : (s.phase p).wrote?.isSome) :
    (s.endOp p = .ok { s.setPhase p .idle with outstanding := s.outstanding - 1 } ∧
      ({ s.setPhase p .idle with outstanding := s.outstanding - 1 } : LogState).Isolated
        (active.erase p)) ∨
    (s.endOp p = .ok { s.setPhase p .committing with
        outstanding := s.outstanding - 1, committing := true } ∧
      ({ s.setPhase p .committing with
        outstanding := s.outstanding - 1, committing := true } : LogState).Isolated ∅) := by
  have hcommit := h.not_committing hp
  have hin := (h.mem p).mpr hp
  have hcard := Finset.card_erase_add_one hin
  have hcount := h.count
  unfold endOp
  simp only [hcommit, Bool.false_eq_true, if_false]
  split
  next hlast =>
    have hempty : active.erase p = ∅ := Finset.card_eq_zero.mp (by omega)
    refine .inr ⟨rfl, fun q => ?_, ?_, fun _ => rfl, fun _ _ => rfl, fun q r hq hr => ?_⟩
    · rw [← hempty]
      exact mem_setPhase_none h.mem p rfl q
    · rw [hlast]
      rfl
    · -- nobody was committing before
      have hself : ∀ q, ((s.setPhase p .committing).phase q).InCommit → q = p := by
        intro q hq
        rw [setPhase_phase] at hq
        by_contra hne
        rw [if_neg hne] at hq
        rw [h.commits q hq] at hcommit
        cases hcommit
      rw [hself q hq, hself r hr]
  · refine .inl ⟨by simp only [setPhase, hcommit],
      h.leaves not_inCommit_idle rfl rfl (mem_setPhase_none h.mem p rfl) ?_ ?_⟩
    · show s.outstanding - 1 = _
      omega
    · intro hc
      rw [hc] at hcommit
      cases hcommit

-- The steps of the process that commits.
theorem Isolated.cleared (h : s.Isolated active) (hp : s.phase p = .committing) (lh : List Nat) :
    ({ s.setPhase p .cleared with lh := lh } : LogState).Isolated active := by
  have hcommits : ∀ q, ((s.setPhase p .cleared).phase q).InCommit → (s.phase q).InCommit := by
    intro q hq
    rw [setPhase_phase] at hq
    by_cases heq : q = p
    · exact .inl (by rw [heq, hp])
    · rwa [if_neg heq] at hq
  refine ⟨fun q => ?_, h.count, h.quiet, fun q hq => h.commits q (hcommits q hq),
    fun q r hq hr => h.unique q r (hcommits q hq) (hcommits r hr)⟩
  have hmem := mem_setPhase_none h.mem p (rfl : OpPhase.cleared.wrote? = none) q
  rwa [h.quiet (h.commits p (.inl hp)), Finset.erase_empty,
    ← h.quiet (h.commits p (.inl hp))] at hmem

theorem Isolated.finished (h : s.Isolated active) (hp : s.phase p = .cleared) :
    ({ s.setPhase p .idle with committing := false } : LogState).Isolated active := by
  have hempty : active = ∅ := h.quiet (h.commits p (.inr hp))
  -- `p` was the only process in `commit()`
  have hnone : ∀ q, ¬ ((s.setPhase p .idle).phase q).InCommit := by
    intro q hq
    have heq := h.unique q p (inCommit_of_setPhase s not_inCommit_idle hq) (.inr hp)
    rw [setPhase_phase, if_pos heq] at hq
    exact not_inCommit_idle hq
  refine ⟨fun q => ?_, h.count, fun _ => hempty, fun q hq => absurd hq (hnone q),
    fun q _ hq => absurd hq (hnone q)⟩
  have hmem := mem_setPhase_none h.mem p (rfl : OpPhase.idle.wrote? = none) q
  rwa [hempty, Finset.erase_empty, ← hempty] at hmem

/-! ## The reservation -/

end LogState

/-- The number of further distinct blocks that an operation may still log. -/
def OpPhase.budget (ph : OpPhase) : Nat := MAXOPBLOCKS - (ph.wrote?.getD []).length

namespace LogState

/-- The invariant, over the set of processes that are inside an operation: what is logged and what
these operations may still log together fit the log. -/
structure Inv (s : LogState) (active : Finset Nat) : Prop extends isolated : Isolated s active where
  nodup : s.lh.Nodup
  logged : ∀ p, ∀ wrote ∈ (s.phase p).wrote?, ∀ b ∈ wrote, b ∈ s.lh
  room : s.lh.length + ∑ p ∈ active, (s.phase p).budget ≤ LOGSIZE

theorem inv_init : init.Inv ∅ :=
  ⟨isolated_init, nodup_nil, nofun, by simp [init]⟩

/-- The blocks still reserved for the operations in progress, were all of them new. -/
theorem sum_budget_le (s : LogState) (active : Finset Nat) :
    ∑ p ∈ active, (s.phase p).budget ≤ active.card * MAXOPBLOCKS := by
  have hle := Finset.sum_le_card_nsmul active (fun p => (s.phase p).budget) MAXOPBLOCKS
    fun p _ => Nat.sub_le _ _
  simpa using hle

theorem sum_budget_setPhase_of_not_mem (s : LogState) (ph : OpPhase) (hp : p ∉ active) :
    ∑ q ∈ active, ((s.setPhase p ph).phase q).budget = ∑ q ∈ active, (s.phase q).budget := by
  apply Finset.sum_congr rfl
  intro q hq
  rw [setPhase_phase, if_neg fun heq => hp (by rwa [heq] at hq)]

theorem sum_budget_erase (s : LogState) (hp : p ∈ active) :
    (s.phase p).budget + ∑ q ∈ active.erase p, (s.phase q).budget =
      ∑ q ∈ active, (s.phase q).budget :=
  Finset.add_sum_erase active (fun q => (s.phase q).budget) hp

-- A process that logs nothing more, or has not begun to.
theorem Inv.logged_setPhase (h : s.Inv active) (p : Nat) (hph : ∀ wrote ∈ ph.wrote?, wrote = []) :
    ∀ q, ∀ wrote ∈ ((s.setPhase p ph).phase q).wrote?, ∀ b ∈ wrote, b ∈ s.lh := by
  intro q wrote hw
  rw [setPhase_phase] at hw
  split at hw
  · rw [hph wrote hw]
    nofun
  · exact h.logged q wrote hw

theorem Inv.beginOp (h : s.Inv active)
    (hidle : s.phase p = .idle) : ∃ active', (s.beginOp p).Inv active' := by
  have hp : p ∉ active := by
    rw [h.mem, hidle]
    simp [OpPhase.wrote?]
  rcases s.beginOp_cases p with heq | ⟨hcommit, hadmit, heq⟩
  · exact ⟨active, by rwa [heq]⟩
  rw [heq]
  refine ⟨insert p active, h.isolated.begin hidle hcommit, h.nodup,
    h.logged_setPhase p fun wrote hw => by cases hw; rfl, ?_⟩
  -- `begin_op` reserves `MAXOPBLOCKS` blocks for every operation in progress and for this one
  rw [Finset.sum_insert hp, sum_budget_setPhase_of_not_mem s _ hp, setPhase_phase, if_pos rfl]
  have hsum := sum_budget_le s active
  have hcount := h.count
  change s.lh.length + (10 + _) ≤ 30
  simp only [MAXOPBLOCKS, LOGSIZE] at hadmit hsum
  omega

theorem Inv.mem_of_wrote (h : s.Inv active) (hw : wrote ∈ (s.phase p).wrote?) : p ∈ active := by
  rw [h.mem, Option.mem_def.mp hw]
  rfl

/-- What is logged and what an operation may still log fit the log together. -/
theorem Inv.length_add_budget_le (h : s.Inv active)
    (hp : p ∈ active) : s.lh.length + (s.phase p).budget ≤ LOGSIZE := by
  have hroom := h.room
  rw [← sum_budget_erase s hp] at hroom
  omega

/-- An operation that may log another block finds room for it, unless the block is already there
and the header is full. -/
theorem Inv.length_lt (h : s.Inv active)
    (hcalls : s.Calls (.logWrite p b)) (hroom : s.AbsorbsWithRoom (.logWrite p b)) :
    s.lh.length < LOGSIZE := by
  obtain ⟨wrote, hw, hmax⟩ := hcalls
  have hfit := h.length_add_budget_le (h.mem_of_wrote hw)
  by_cases hb : b ∈ s.lh
  · have hne : s.lh.length ≠ LOGSIZE := fun heq => hroom ⟨hb, heq⟩
    omega
  · have hnew : b ∉ wrote := fun hin => hb (h.logged p wrote hw b hin)
    rw [length_insert_of_not_mem hnew] at hmax
    have hbudget : (s.phase p).budget = MAXOPBLOCKS - wrote.length := by
      rw [OpPhase.budget, Option.mem_def.mp hw]
      rfl
    omega

theorem Inv.logWrite (h : s.Inv active)
    (hsize : LOGSIZE + 1 ≤ logsize) (hcalls : s.Calls (.logWrite p b))
    (hroom : s.AbsorbsWithRoom (.logWrite p b)) :
    ∃ s', s.logWrite logsize p b = .ok s' ∧ s'.Inv active := by
  have hlt := h.length_lt hcalls hroom
  obtain ⟨wrote, hw, hmax⟩ := hcalls
  have hp := h.mem_of_wrote hw
  have hphase := phase_of_wrote hw
  have hout : ¬ s.outstanding < 1 := by
    have hcard := Finset.card_pos.mpr ⟨p, hp⟩
    rw [h.count]
    omega
  refine ⟨{ s.setPhase p (.inOp (wrote.insert b)) with lh := absorb s.lh b }, ?_, ?_⟩
  · unfold LogState.logWrite
    rw [if_neg (by omega), if_neg hout]
    simp only [hphase]
    rfl
  -- the budget of the operation pays for the block if it is new
  have hbudget : (absorb s.lh b).length + (OpPhase.inOp (wrote.insert b)).budget ≤
      s.lh.length + (s.phase p).budget := by
    rw [hphase]
    change _ + (MAXOPBLOCKS - (wrote.insert b).length) ≤ _ + (MAXOPBLOCKS - wrote.length)
    by_cases hb : b ∈ s.lh
    · have hle : wrote.length ≤ (wrote.insert b).length := by
        by_cases hin : b ∈ wrote
        · rw [length_insert_of_mem hin]
        · rw [length_insert_of_not_mem hin]
          omega
      rw [absorb_of_mem hb]
      omega
    · have hnew : b ∉ wrote := fun hin => hb (h.logged p wrote hw b hin)
      rw [absorb_of_not_mem hb, length_append, length_singleton]
      rw [length_insert_of_not_mem hnew] at hmax ⊢
      omega
  refine ⟨h.isolated.logs ((h.mem p).mp hp) (wrote.insert b) (absorb s.lh b), nodup_absorb h.nodup,
    fun q w hqw c hc => mem_absorb.mpr ?_, ?_⟩
  · rw [setPhase_phase] at hqw
    split at hqw
    · cases hqw
      rcases mem_insert_iff.mp hc with heq | hin
      · exact .inr heq
      · exact .inl (h.logged p wrote hw c hin)
    · exact .inl (h.logged q w hqw c hc)
  · have hsum := sum_budget_erase s hp
    have hnew := sum_budget_erase (s.setPhase p (.inOp (wrote.insert b))) hp
    rw [sum_budget_setPhase_of_not_mem s _ (Finset.notMem_erase p active), setPhase_phase,
      if_pos rfl] at hnew
    have hold := h.room
    change (absorb s.lh b).length +
      ∑ q ∈ active, ((s.setPhase p (.inOp (wrote.insert b))).phase q).budget ≤ _
    omega

theorem Inv.endOp (h : s.Inv active)
    (hcalls : s.Calls (.endOp p)) : ∃ s' active', s.endOp p = .ok s' ∧ s'.Inv active' := by
  have hp : p ∈ active := (h.mem p).mpr hcalls
  have hroom := h.room
  have hsum := sum_budget_erase s hp
  rcases h.isolated.endOp_cases hcalls with ⟨heq, h'⟩ | ⟨heq, h'⟩
  · refine ⟨_, _, heq, h', h.nodup, h.logged_setPhase p nofun, ?_⟩
    show s.lh.length + ∑ q ∈ active.erase p, ((s.setPhase p .idle).phase q).budget ≤ LOGSIZE
    rw [sum_budget_setPhase_of_not_mem s _ (Finset.notMem_erase p active)]
    omega
  · refine ⟨_, _, heq, h', h.nodup, h.logged_setPhase p nofun, ?_⟩
    show s.lh.length + 0 ≤ LOGSIZE
    omega

theorem Inv.commitClear (h : s.Inv active) (hp : s.phase p = .committing) :
    ({ s.setPhase p .cleared with lh := [] } : LogState).Inv active := by
  have h' := h.isolated.cleared hp []
  have hempty : active = ∅ := h.quiet (h.commits p (.inl hp))
  refine ⟨h', nodup_nil, fun q wrote hw => ?_, by simp [hempty]⟩
  have hin : q ∈ active := (h'.mem q).mpr (Option.isSome_of_mem hw)
  rw [hempty] at hin
  cases hin

theorem Inv.commitEnd (h : s.Inv active) (hp : s.phase p = .cleared) :
    ({ s.setPhase p .idle with committing := false } : LogState).Inv active := by
  have hempty : active = ∅ := h.quiet (h.commits p (.inr hp))
  refine ⟨h.isolated.finished hp, h.nodup, h.logged_setPhase p nofun, ?_⟩
  have hroom := h.room
  rw [hempty] at hroom ⊢
  exact hroom

theorem Inv.step {s : LogState} {active : Finset Nat} (h : s.Inv active) {logsize : Nat}
    (hsize : LOGSIZE + 1 ≤ logsize) {e : LogEvent} (hcalls : s.Calls e)
    (hroom : s.AbsorbsWithRoom e) : ∃ s' active', s.step logsize e = .ok s' ∧ s'.Inv active' := by
  cases e with
  | beginOp p =>
    obtain ⟨active', h'⟩ := h.beginOp hcalls
    exact ⟨_, active', rfl, h'⟩
  | logWrite p b =>
    obtain ⟨s', hok, h'⟩ := h.logWrite hsize hcalls hroom
    exact ⟨s', active, hok, h'⟩
  | endOp p => exact h.endOp hcalls
  | commitIo p => exact ⟨s, active, rfl, h⟩
  | commitClear p => exact ⟨_, active, rfl, h.commitClear hcalls⟩
  | commitEnd p => exact ⟨_, active, rfl, h.commitEnd hcalls⟩

theorem inv_of_reach (hsize : LOGSIZE + 1 ≤ logsize)
    (h : Reach (step logsize) (fun s e => s.Calls e ∧ s.AbsorbsWithRoom e) init s) :
    ∃ active, s.Inv active := by
  apply h.invariant ⟨∅, inv_init⟩
  rintro s e s' ⟨active, hinv⟩ ⟨hcalls, hroom⟩ hok
  obtain ⟨t, active', hok', hinv'⟩ := hinv.step hsize hcalls hroom
  rw [hok] at hok'
  cases hok'
  exact ⟨active', hinv'⟩

end LogState

open LogState

/-- In every run of operations that log at most `MAXOPBLOCKS` blocks each, and in which no block is
logged again while the header is full, the header stays within `LOGSIZE`, lists no block twice,
and no step panics. -/
theorem log_reservation_sufficient {logsize : Nat} (hsize : LOGSIZE + 1 ≤ logsize) {s : LogState}
    (h : Reach (LogState.step logsize) (fun s e => s.Calls e ∧ s.AbsorbsWithRoom e)
      LogState.init s) :
    s.lh.length ≤ LOGSIZE ∧ s.lh.Nodup ∧
      ∀ e, s.Calls e → s.AbsorbsWithRoom e → ∃ s', s.step logsize e = .ok s' := by
  obtain ⟨active, hinv⟩ := inv_of_reach hsize h
  refine ⟨?_, hinv.nodup, fun e hcalls hroom => ?_⟩
  · have hroom := hinv.room
    omega
  · obtain ⟨s', _, hok, _⟩ := hinv.step hsize hcalls hroom
    exact ⟨s', hok⟩

/-- Three operations log `n` blocks, up to ten each. -/
def fillHeader (n : Nat) : List LogEvent :=
  [.beginOp 0, .beginOp 1, .beginOp 2] ++
    (List.range n).map fun i => .logWrite (i / 10) (100 + i)

-- With room for one more block, the last one is logged again, and then another fills the header.
theorem log_reservation_sufficient_full : LOGSIZE + 1 ≤ 31 ∧
    ∃ s, Reach (LogState.step 31) (fun s e => s.Calls e ∧ s.AbsorbsWithRoom e) LogState.init s ∧
      s.lh = (List.range 30).map (100 + ·) ∧ s.lh.length ≤ LOGSIZE ∧ s.lh.Nodup ∧
      ∀ e, s.Calls e → s.AbsorbsWithRoom e → ∃ s', s.step 31 e = .ok s' := by
  obtain ⟨s, hreach, hp⟩ := exists_reach_of_follow (LogState.step 31)
    (fun s e => s.Calls e ∧ s.AbsorbsWithRoom e) LogState.init
    (fillHeader 29 ++ [.logWrite 2 128, .logWrite 2 129])
    (fun s => decide (s.lh = (List.range 30).map (100 + ·))) (by decide +kernel)
  exact ⟨by decide, s, hreach, of_decide_eq_true hp, log_reservation_sufficient (by decide) hreach⟩

/-- With the header full, the third operation logs a block of its own again: absorption would need
no room, but the size test comes first. -/
theorem log_write_panics_on_full_header :
    ∃ s, Reach (LogState.step 31) LogState.Calls LogState.init s ∧
      s.Calls (.logWrite 2 129) ∧
      s.step 31 (.logWrite 2 129) = .error "too big a transaction" := by
  obtain ⟨s, hreach, hp⟩ := exists_reach_of_follow (LogState.step 31) LogState.Calls
    LogState.init (fillHeader 30)
    (fun s => decide (s.Calls (.logWrite 2 129)) && decide (LOGSIZE ≤ s.lh.length))
    (by decide +kernel)
  simp only [Bool.and_eq_true, decide_eq_true_eq] at hp
  refine ⟨s, hreach, hp.1, ?_⟩
  change s.logWrite 31 2 129 = _
  rw [LogState.logWrite, if_pos (.inl hp.2)]

end OsProjects.Kernel
