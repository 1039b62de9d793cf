import OsProjects.Kernel.Log
import Mathlib.Data.List.Basic

/-!
# GroupCommit — operations are committed whole

The machine of `Log` with the body of `commit()` taken step by step.  The content of a block is the
number of its `log_write`s so far: `cache b` is what the buffer of `b` holds, `slot i` what log
block `i + 1` on the disk holds, and `home b` what is installed.  A modification is visible from its
`log_write` on, since until then the caller has the buffer locked.
-/

namespace OsProjects.Kernel

open Lib Function List

/-- Where a process stands in `commit()`. -/
inductive Stage
  | test
  | writeLog (tail : Nat)
  | writeHead
  | install (tail : Nat)
  | clear
  | eraseHead
  | finish
deriving DecidableEq

/-- A `log_write` that has happened: of the operation with number `op`, making version `version` of
the block. -/
structure Write where
  op : Nat
  block : Nat
  version : Nat
deriving DecidableEq

/-- A block in a commit: the version in the log, and the version installed before. -/
structure Logged where
  block : Nat
  old : Nat
  new : Nat

/-- The commit makes this `log_write` durable. -/
def Contains (c : List Logged) (w : Write) : Prop :=
  ∃ x ∈ c, x.block = w.block ∧ x.old < w.version ∧ w.version ≤ x.new

/-- The log, the versions of the blocks, and the history: the number of the operation each process
is in, all `log_write`s and all commits. -/
structure CommitState where
  log : LogState
  stage : Nat → Option Stage
  cache : Nat → Nat
  slot : Nat → Nat
  head : List Nat
  home : Nat → Nat
  op : Nat → Nat
  nextOp : Nat
  writes : List Write
  commits : List (List Logged)

inductive CommitEvent
  | beginOp (p : Nat)
  | logWrite (p b : Nat)
  | endOp (p : Nat)
  | commit (p : Nat)
deriving DecidableEq

namespace CommitState

def init : CommitState where
  log := .init
  stage _ := none
  cache _ := 0
  slot _ := 0
  head := []
  home _ := 0
  op _ := 0
  nextOp := 0
  writes := []
  commits := []

def setStage (s : CommitState) (p : Nat) (st : Option Stage) : CommitState :=
  { s with stage := update s.stage p st }

/-- The log that `write_head` puts on the disk. -/
def logged (s : CommitState) : List Logged :=
  s.log.lh.zipIdx.map fun x => ⟨x.1, s.home x.1, s.slot x.2⟩

/-- The next step of `commit()`.  The loops look at `log.lh.n` in every round. -/
def commitStep (s : CommitState) (p : Nat) : Stage → CommitState
  | .test =>
    if 0 < s.log.lh.length then s.setStage p (some (.writeLog 0))
    else { s.setStage p (some .finish) with log := s.log.setPhase p .cleared }
  | .writeLog tail =>
    match s.log.lh[tail]? with
    | some b => { s.setStage p (some (.writeLog (tail + 1))) with
        slot := update s.slot tail (s.cache b) }
    | none => s.setStage p (some .writeHead)
  | .writeHead => { s.setStage p (some (.install 0)) with
      head := s.log.lh, commits := s.logged :: s.commits }
  | .install tail =>
    match s.log.lh[tail]? with
    | some b => { s.setStage p (some (.install (tail + 1))) with
        home := update s.home b (s.slot tail) }
    | none => s.setStage p (some .clear)
  | .clear => { s.setStage p (some .eraseHead) with
      log := { s.log.setPhase p .cleared with lh := [] } }
  | .eraseHead => { s.setStage p (some .finish) with head := s.log.lh }
  | .finish => { s.setStage p none with log := { s.log.setPhase p .idle with committing := false } }

def step (logsize : Nat) (s : CommitState) : CommitEvent → Except String CommitState
  | .beginOp p =>
    -- an operation that is admitted gets a number
    if ((s.log.beginOp p).phase p).wrote?.isSome then
      .ok { s with log := s.log.beginOp p, op := update s.op p s.nextOp, nextOp := s.nextOp + 1 }
    else .ok { s with log := s.log.beginOp p }
  | .logWrite p b =>
    match s.log.logWrite logsize p b with
    | .ok log => .ok { s with
        log := log
        cache := update s.cache b (s.cache b + 1)
        writes := ⟨s.op p, b, s.cache b + 1⟩ :: s.writes }
    | .error msg => .error msg
  | .endOp p =>
    match s.log.endOp p with
    | .ok log => .ok { s with
        log := log
        stage := if log.committing then update s.stage p (some .test) else s.stage }
    | .error msg => .error msg
  | .commit p =>
    match s.stage p with
    | some st => .ok (s.commitStep p st)
    | none => .ok s

/-- Callers pair `begin_op` with `end_op`, and log only in between. -/
def Paired (s : CommitState) : CommitEvent → Prop
  | .beginOp p => s.log.phase p = .idle
  | .logWrite p _ => (s.log.phase p).wrote?.isSome
  | .endOp p => (s.log.phase p).wrote?.isSome
  | .commit p => (s.stage p).isSome

instance (s : CommitState) : (e : CommitEvent) → Decidable (s.Paired e)
  | .beginOp p => inferInstanceAs (Decidable (s.log.phase p = .idle))
  | .logWrite p _ => inferInstanceAs (Decidable ((s.log.phase p).wrote?.isSome = true))
  | .endOp p => inferInstanceAs (Decidable ((s.log.phase p).wrote?.isSome = true))
  | .commit p => inferInstanceAs (Decidable ((s.stage p).isSome = true))

end CommitState

/-! ## What is where -/

/-- The phase of a process in `commit()`. -/
def Stage.phase : Stage → OpPhase
  | .eraseHead | .finish => .cleared
  | _ => .committing

theorem Stage.inCommit (st : Stage) : st.phase.InCommit := by
  cases st with
  | eraseHead | finish => exact .inr rfl
  | _ => exact .inl rfl

namespace CommitState

/-- Not installed yet. -/
def Pending (s : CommitState) (w : Write) : Prop := s.home w.block < w.version

/-- What `commit()` has done when it comes to a stage. -/
def AtStage (s : CommitState) : Stage → Prop
  | .test => True
  | .writeLog tail => ∀ i < tail, ∀ b ∈ s.log.lh[i]?, s.slot i = s.cache b
  | .writeHead => ∀ i, ∀ b ∈ s.log.lh[i]?, s.slot i = s.cache b
  | .install tail => (∀ i, ∀ b ∈ s.log.lh[i]?, s.slot i = s.cache b) ∧
    ∀ i < tail, ∀ b ∈ s.log.lh[i]?, s.home b = s.cache b
  | .clear => ∀ b, s.home b = s.cache b
  | .eraseHead | .finish => s.log.lh = []

/-- Blocks not in the header are installed; the writes of one operation are installed or not
together, except while `install_trans` runs; and no commit contains a part of an operation. -/
structure Inv (s : CommitState) (active : Finset Nat) : Prop where
  isolated : s.log.Isolated active
  phase : ∀ p, ∀ st ∈ s.stage p, s.log.phase p = st.phase
  atStage : ∀ p, ∀ st ∈ s.stage p, s.AtStage st
  ops : ∀ w ∈ s.writes, w.op < s.nextOp
  numbered : ∀ p ∈ active, s.op p < s.nextOp
  behind : ∀ b, s.home b ≤ s.cache b
  version : ∀ w ∈ s.writes, w.version ≤ s.cache w.block
  settled : ∀ b, b ∉ s.log.lh → s.home b = s.cache b
  pending : ∀ p ∈ active, ∀ w ∈ s.writes, w.op = s.op p → s.Pending w
  uniform : (∀ p tail, s.stage p ≠ some (.install tail)) →
    ∀ w ∈ s.writes, ∀ w' ∈ s.writes, w.op = w'.op → s.Pending w → s.Pending w'
  newest : ∀ c ∈ s.commits, ∀ x ∈ c, x.new ≤ s.cache x.block
  whole : ∀ c ∈ s.commits, ∀ w ∈ s.writes, ∀ w' ∈ s.writes, w.op = w'.op →
    Contains c w → Contains c w'
  apart : ∀ p ∈ active, ∀ c ∈ s.commits, ∀ w ∈ s.writes, w.op = s.op p → ¬ Contains c w

theorem inv_init : init.Inv ∅ where
  isolated := LogState.isolated_init
  phase _ _ h := by cases h
  atStage _ _ h := by cases h
  ops _ h := by cases h
  numbered _ h := by cases h
  behind _ := le_rfl
  version _ h := by cases h
  settled _ _ := rfl
  pending _ h := by cases h
  uniform _ _ h := by cases h
  newest _ h := by cases h
  whole _ h := by cases h
  apart _ h := by cases h

section Steps

variable {s : CommitState} {active : Finset Nat} {p b : Nat} {st : Stage}

-- With an operation in progress nobody commits.
theorem Inv.no_stage (h : s.Inv active) (hp : (s.log.phase p).wrote?.isSome) (q : Nat) :
    s.stage q = none := by
  cases hst : s.stage q with
  | none => rfl
  | some st =>
    have hin : (s.log.phase q).InCommit := by
      rw [h.phase q st hst]
      exact st.inCommit
    have hcommit := h.isolated.commits q hin
    rw [h.isolated.not_committing hp] at hcommit
    cases hcommit

-- A process in `commit()` is alone.
theorem Inv.alone (h : s.Inv active) (hst : s.stage p = some st) :
    active = ∅ ∧ ∀ q, q ≠ p → s.stage q = none := by
  have hin : ∀ q, ∀ st ∈ s.stage q, (s.log.phase q).InCommit := by
    intro q st hst
    rw [h.phase q st hst]
    exact st.inCommit
  refine ⟨h.isolated.quiet (h.isolated.commits p (hin p st hst)), fun q hq => ?_⟩
  cases hst' : s.stage q with
  | none => rfl
  | some st' => exact absurd (h.isolated.unique q p (hin q st' hst') (hin p st hst)) hq

theorem Inv.begin (h : s.Inv active) (hidle : s.log.phase p = .idle)
    (hcommit : s.log.committing = false) : ({ s with
      log := { s.log.setPhase p (.inOp []) with outstanding := s.log.outstanding + 1 }
      op := update s.op p s.nextOp
      nextOp := s.nextOp + 1 } : CommitState).Inv (insert p active) := by
  -- the number is new, so the operation has no writes yet
  have hnew : ∀ w ∈ s.writes, w.op ≠ s.nextOp := fun w hw => Nat.ne_of_lt (h.ops w hw)
  have hop : ∀ q ∈ insert p active, ∀ w ∈ s.writes,
      w.op = update s.op p s.nextOp q → q ∈ active ∧ w.op = s.op q := by
    intro q hq w hw heq
    by_cases hqp : q = p
    · rw [hqp, update_self] at heq
      exact absurd heq (hnew w hw)
    · rw [update_of_ne hqp] at heq
      exact ⟨Finset.mem_of_mem_insert_of_ne hq hqp, heq⟩
  have hidle' : ∀ q, ∀ st ∈ s.stage q, q ≠ p := by
    intro q st hst hqp
    have hphase := h.phase q st hst
    rw [hqp, hidle] at hphase
    exact LogState.not_inCommit_idle (hphase ▸ st.inCommit)
  refine ⟨h.isolated.begin hidle hcommit, fun q st hst => ?_, h.atStage,
    fun w hw => Nat.lt_succ_of_lt (h.ops w hw), fun q hq => ?_, h.behind, h.version, h.settled,
    fun q hq w hw heq => ?_, h.uniform, h.newest, h.whole, fun q hq c hc w hw heq => ?_⟩
  · rw [LogState.setPhase_phase, if_neg (hidle' q st hst)]
    exact h.phase q st hst
  · show update s.op p s.nextOp q < s.nextOp + 1
    by_cases hqp : q = p
    · rw [hqp, update_self]
      omega
    · rw [update_of_ne hqp]
      exact Nat.lt_succ_of_lt (h.numbered q (Finset.mem_of_mem_insert_of_ne hq hqp))
  · obtain ⟨hq', heq'⟩ := hop q hq w hw heq
    exact h.pending q hq' w hw heq'
  · obtain ⟨hq', heq'⟩ := hop q hq w hw heq
    exact h.apart q hq' c hc w hw heq'

theorem Inv.beginOp (h : s.Inv active) (hidle : s.log.phase p = .idle) (logsize : Nat) :
    ∃ s' active', s.step logsize (.beginOp p) = .ok s' ∧ s'.Inv active' := by
  rcases s.log.beginOp_cases p with heq | ⟨hcommit, -, heq⟩
  · refine ⟨s, active, ?_, h⟩
    rw [step, heq, hidle]
    rfl
  · refine ⟨_, _, ?_, h.begin hidle hcommit⟩
    rw [step, heq, if_pos]
    rw [LogState.setPhase_phase, if_pos rfl]
    rfl

theorem mem_absorb {lh : List Nat} {b c : Nat} : c ∈ LogState.absorb lh b ↔ c ∈ lh ∨ c = b := by
  by_cases hb : b ∈ lh
  · rw [LogState.absorb_of_mem hb]
    exact ⟨.inl, fun h => h.elim id fun heq => heq ▸ hb⟩
  · rw [LogState.absorb_of_not_mem hb, mem_append, mem_singleton]

theorem Inv.logWrite (h : s.Inv active) (hp : (s.log.phase p).wrote?.isSome) (wrote : List Nat) :
    ({ s with
      log := { s.log.setPhase p (.inOp wrote) with lh := LogState.absorb s.log.lh b }
      cache := update s.cache b (s.cache b + 1)
      writes := ⟨s.op p, b, s.cache b + 1⟩ :: s.writes } : CommitState).Inv active := by
  have hactive := (h.isolated.mem p).mpr hp
  have hle : ∀ c, s.cache c ≤ update s.cache b (s.cache b + 1) c := by
    intro c
    by_cases hc : c = b
    · rw [hc, update_self]
      omega
    · rw [update_of_ne hc]
  -- the write is newer than anything committed
  have hfresh : ∀ c ∈ s.commits, ¬ Contains c ⟨s.op p, b, s.cache b + 1⟩ := by
    rintro c hc ⟨x, hx, hblock, -, hnew⟩
    have hold := h.newest c hc x hx
    rw [show x.block = b from hblock] at hold
    exact absurd (hnew.trans hold) (Nat.not_succ_le_self _)
  have hpending : s.Pending ⟨s.op p, b, s.cache b + 1⟩ := Nat.lt_succ_of_le (h.behind b)
  have hnone := h.no_stage hp
  refine ⟨h.isolated.logs hp wrote _, fun q st hst => ?_, fun q st hst => ?_, fun w hw => ?_,
    h.numbered, fun c => (h.behind c).trans (hle c), fun w hw => ?_, fun c hc => ?_,
    fun q hq w hw heq => ?_, fun _ w hw w' hw' heq hpend => ?_,
    fun c hc x hx => (h.newest c hc x hx).trans (hle _), fun c hc w hw w' hw' heq hin => ?_,
    fun q hq c hc w hw heq => ?_⟩
  · rw [show s.stage q = none from hnone q] at hst
    cases hst
  · rw [show s.stage q = none from hnone q] at hst
    cases hst
  · rcases mem_cons.mp hw with rfl | hw
    · exact h.numbered p hactive
    · exact h.ops w hw
  · rcases mem_cons.mp hw with rfl | hw
    · exact le_of_eq (update_self b _ s.cache).symm
    · exact (h.version w hw).trans (hle _)
  · rw [mem_absorb, not_or] at hc
    rw [h.settled c hc.1]
    exact (update_of_ne hc.2 _ _).symm
  · rcases mem_cons.mp hw with rfl | hw
    · exact hpending
    · exact h.pending q hq w hw heq
  · rcases mem_cons.mp hw' with rfl | hw'
    · exact hpending
    rcases mem_cons.mp hw with rfl | hw
    · exact h.pending p hactive w' hw' heq.symm
    · exact h.uniform (fun q tail => by rw [hnone q]; nofun) w hw w' hw' heq hpend
  · rcases mem_cons.mp hw with rfl | hw
    · exact absurd hin (hfresh c hc)
    rcases mem_cons.mp hw' with rfl | hw'
    · exact absurd hin (h.apart p hactive c hc w hw heq)
    · exact h.whole c hc w hw w' hw' heq hin
  · rcases mem_cons.mp hw with rfl | hw
    · exact hfresh c hc
    · exact h.apart q hq c hc w hw heq

theorem Inv.endOp (h : s.Inv active) (hp : (s.log.phase p).wrote?.isSome) (logsize : Nat) :
    ∃ s' active', s.step logsize (.endOp p) = .ok s' ∧ s'.Inv active' := by
  have hcommit := h.isolated.not_committing hp
  have hnone := h.no_stage hp
  rcases h.isolated.endOp_cases hp with ⟨heq, hlog⟩ | ⟨heq, hlog⟩
  · refine ⟨{ s with log := { s.log.setPhase p .idle with outstanding := s.log.outstanding - 1 } },
      active.erase p, ?_, hlog, fun q st hst => ?_, h.atStage, h.ops,
      fun q hq => h.numbered q (Finset.mem_of_mem_erase hq), h.behind, h.version, h.settled,
      fun q hq => h.pending q (Finset.mem_of_mem_erase hq), h.uniform, h.newest, h.whole,
      fun q hq => h.apart q (Finset.mem_of_mem_erase hq)⟩
    · simp only [step, heq, LogState.setPhase, hcommit, Bool.false_eq_true, if_false]
    · rw [show s.stage q = none from hnone q] at hst
      cases hst
  · refine ⟨{ s.setStage p (some .test) with log := { s.log.setPhase p .committing with
        outstanding := s.log.outstanding - 1, committing := true } }, ∅, ?_, hlog,
      fun q st hst => ?_, fun q st hst => ?_, h.ops, by simp, h.behind, h.version,
      h.settled, by simp,
      fun _ => h.uniform fun q tail => by simp [hnone q], h.newest, h.whole, by simp⟩
    · simp only [step, heq, setStage, if_true]
    · change st ∈ update s.stage p (some .test) q at hst
      rw [LogState.setPhase_phase]
      by_cases hq : q = p
      · rw [hq, update_self] at hst
        cases hst
        rw [if_pos hq]
        rfl
      · rw [update_of_ne hq, hnone q] at hst
        cases hst
    · change st ∈ update s.stage p (some .test) q at hst
      by_cases hq : q = p
      · rw [hq, update_self] at hst
        cases hst
        trivial
      · rw [update_of_ne hq, hnone q] at hst
        cases hst

/-! ## The steps of `commit()` -/

-- Outside `install_trans` operations are installed whole.
theorem Inv.uniform_at (h : s.Inv active) (hst : s.stage p = some st)
    (hne : ∀ tail, st ≠ .install tail) :
    ∀ w ∈ s.writes, ∀ w' ∈ s.writes, w.op = w'.op → s.Pending w → s.Pending w' := by
  apply h.uniform
  intro q tail
  by_cases hq : q = p
  · rw [hq, hst]
    exact fun heq => hne tail (Option.some.inj heq)
  · rw [(h.alone hst).2 q hq]
    nofun

-- A step of the process that commits leaves the writes and the cache alone.
theorem Inv.commits_on (h : s.Inv active) (hst : s.stage p = some st) {s' : CommitState}
    (st' : Option Stage) (hstage : s'.stage = update s.stage p st')
    (hwrites : s'.writes = s.writes) (hnext : s'.nextOp = s.nextOp) (hcache : s'.cache = s.cache)
    (hlog : s'.log.Isolated active) (hphase : ∀ st ∈ st', s'.log.phase p = st.phase)
    (hat : ∀ st ∈ st', s'.AtStage st) (hbehind : ∀ b, s'.home b ≤ s.cache b)
    (hsettled : ∀ b, b ∉ s'.log.lh → s'.home b = s.cache b)
    (huniform : (∀ tail, st' ≠ some (.install tail)) →
      ∀ w ∈ s.writes, ∀ w' ∈ s.writes, w.op = w'.op → s'.Pending w → s'.Pending w')
    (hnewest : ∀ c ∈ s'.commits, ∀ x ∈ c, x.new ≤ s.cache x.block)
    (hwhole : ∀ c ∈ s'.commits, ∀ w ∈ s.writes, ∀ w' ∈ s.writes, w.op = w'.op →
      Contains c w → Contains c w') : s'.Inv active := by
  obtain ⟨hempty, hnone⟩ := h.alone hst
  have hself : ∀ q, ∀ st ∈ s'.stage q, q = p ∧ st ∈ st' := by
    intro q st hmem
    rw [hstage] at hmem
    by_cases hq : q = p
    · rw [hq, update_self] at hmem
      exact ⟨hq, hmem⟩
    · rw [update_of_ne hq, hnone q hq] at hmem
      cases hmem
  subst hempty
  refine ⟨hlog, fun q st hmem => ?_, fun q st hmem => hat st (hself q st hmem).2, ?_, by simp, ?_,
    ?_, ?_, by simp, fun hno => ?_, ?_, ?_, by simp⟩
  · obtain ⟨rfl, hmem⟩ := hself q st hmem
    exact hphase st hmem
  · rw [hwrites, hnext]
    exact h.ops
  · rwa [hcache]
  · rw [hwrites, hcache]
    exact h.version
  · rwa [hcache]
  · rw [hwrites]
    refine huniform fun tail heq => hno p tail ?_
    rw [hstage, update_self, heq]
  · rwa [hcache]
  · rwa [hwrites]

variable {st : Stage}

theorem mem_logged {x : Logged} (h : x ∈ s.logged) :
    ∃ i, s.log.lh[i]? = some x.block ∧ x.old = s.home x.block ∧ x.new = s.slot i := by
  obtain ⟨⟨b, i⟩, hmem, rfl⟩ := mem_map.mp h
  exact ⟨i, mem_zipIdx_iff_getElem?.mp hmem, rfl, rfl⟩

section

variable (h : s.Inv active) {tail : Nat}
include h

-- Once the log is written, it contains what is to be installed.
theorem Inv.contains_logged (hat : s.AtStage .writeHead) {w : Write}
    (hw : w ∈ s.writes) : Contains s.logged w ↔ s.Pending w := by
  constructor
  · rintro ⟨x, hx, hblock, hold, -⟩
    obtain ⟨i, -, hhome, -⟩ := mem_logged hx
    rwa [hhome, hblock] at hold
  · intro hpend
    have hversion := h.version w hw
    have hmem : w.block ∈ s.log.lh := by
      by_contra hout
      rw [← h.settled _ hout] at hversion
      exact absurd hpend (Nat.not_lt.mpr hversion)
    obtain ⟨i, hi⟩ := mem_iff_getElem?.mp hmem
    refine ⟨⟨w.block, s.home w.block, s.slot i⟩,
      mem_map.mpr ⟨(w.block, i), mem_zipIdx_iff_getElem?.mpr hi, rfl⟩, rfl, hpend, ?_⟩
    rwa [hat i _ hi]

theorem Inv.test_step (hst : s.stage p = some .test) : (s.commitStep p .test).Inv active := by
  have hphase := h.phase p _ hst
  have huniform := h.uniform_at hst nofun
  simp only [CommitState.commitStep]
  split
  · refine h.commits_on hst (some (.writeLog 0)) rfl rfl rfl rfl h.isolated ?_ ?_ h.behind h.settled
      (fun _ => huniform) h.newest h.whole
    · rintro _ ⟨⟩
      exact hphase
    · rintro _ ⟨⟩ i hi
      exact absurd hi (Nat.not_lt_zero i)
  next hlen =>
    refine h.commits_on hst (some .finish) rfl rfl rfl rfl
      (h.isolated.cleared hphase s.log.lh) ?_ ?_
      h.behind h.settled (fun _ => huniform) h.newest h.whole
    · rintro _ ⟨⟩
      rw [LogState.setPhase_phase, if_pos rfl]
      rfl
    · rintro _ ⟨⟩
      exact eq_nil_of_length_eq_zero (Nat.eq_zero_of_not_pos hlen)

theorem Inv.writeLog_step (hst : s.stage p = some (.writeLog tail)) :
    (s.commitStep p (.writeLog tail)).Inv active := by
  have hphase := h.phase p _ hst
  have hat := h.atStage p _ hst
  have huniform := h.uniform_at hst nofun
  cases hget : s.log.lh[tail]? with
  | some b =>
    simp only [CommitState.commitStep, hget]
    refine h.commits_on hst (some (.writeLog (tail + 1))) rfl rfl rfl rfl h.isolated ?_ ?_ h.behind
      h.settled (fun _ => huniform) h.newest h.whole
    · rintro _ ⟨⟩
      exact hphase
    · rintro _ ⟨⟩ i hi c hc
      show update s.slot tail (s.cache b) i = s.cache c
      by_cases heq : i = tail
      · rw [heq, update_self]
        change c ∈ s.log.lh[i]? at hc
        rw [heq, hget] at hc
        cases hc
        rfl
      · rw [update_of_ne heq]
        exact hat i (by omega) c hc
  | none =>
    simp only [CommitState.commitStep, hget]
    refine h.commits_on hst (some .writeHead) rfl rfl rfl rfl h.isolated ?_ ?_ h.behind h.settled
      (fun _ => huniform) h.newest h.whole
    · rintro _ ⟨⟩
      exact hphase
    · rintro _ ⟨⟩ i c hc
      have hlen := List.getElem?_eq_none_iff.mp hget
      obtain ⟨hi, -⟩ := List.getElem?_eq_some_iff.mp hc
      exact hat i (lt_of_lt_of_le hi hlen) c hc

theorem Inv.writeHead_step (hst : s.stage p = some .writeHead) :
    (s.commitStep p .writeHead).Inv active := by
  have hphase := h.phase p _ hst
  have hat := h.atStage p _ hst
  have huniform := h.uniform_at hst nofun
  refine h.commits_on hst (some (.install 0)) rfl rfl rfl rfl h.isolated ?_ ?_ h.behind h.settled
    (fun hno => absurd rfl (hno 0)) (fun c hc x hx => ?_) fun c hc w hw w' hw' heq hin => ?_
  · rintro _ ⟨⟩
    exact hphase
  · rintro _ ⟨⟩
    exact ⟨hat, fun i hi => absurd hi (Nat.not_lt_zero i)⟩
  · rcases mem_cons.mp hc with rfl | hc
    · obtain ⟨i, hi, -, hnew⟩ := mem_logged hx
      rw [hnew, hat i _ hi]
    · exact h.newest c hc x hx
  · rcases mem_cons.mp hc with rfl | hc
    · rw [h.contains_logged hat hw] at hin
      exact (h.contains_logged hat hw').mpr (huniform w hw w' hw' heq hin)
    · exact h.whole c hc w hw w' hw' heq hin

-- `install_trans` puts one block in its place.
theorem Inv.install_block (hst : s.stage p = some (.install tail))
    (hget : s.log.lh[tail]? = some b) : (s.commitStep p (.install tail)).Inv active := by
  have hphase := h.phase p _ hst
  have hat := h.atStage p _ hst
  have hslot := hat.1 tail b hget
  have hhome : ∀ c, update s.home b (s.slot tail) c =
      if c = b then s.cache c else s.home c := by
    intro c
    rw [update_apply, hslot]
    by_cases hc : c = b
    · rw [if_pos hc, if_pos hc, hc]
    · rw [if_neg hc, if_neg hc]
  simp only [CommitState.commitStep, hget]
  refine h.commits_on hst (some (.install (tail + 1))) rfl rfl rfl rfl h.isolated ?_ ?_
    (fun c => ?_) (fun c hc => ?_) (fun hno => absurd rfl (hno (tail + 1))) h.newest h.whole
  · rintro _ ⟨⟩
    exact hphase
  · rintro _ ⟨⟩
    refine ⟨hat.1, fun i hi c hc => ?_⟩
    refine (hhome c).trans ?_
    by_cases heq : c = b
    · exact if_pos heq
    · rw [if_neg heq]
      have hne : i ≠ tail := by
        rintro rfl
        change c ∈ s.log.lh[i]? at hc
        rw [hget] at hc
        cases hc
        exact heq rfl
      exact hat.2 i (by omega) c hc
  · refine (hhome c).trans_le ?_
    by_cases heq : c = b
    · rw [if_pos heq]
    · rw [if_neg heq]
      exact h.behind c
  · refine (hhome c).trans ?_
    by_cases heq : c = b
    · rw [if_pos heq]
    · rw [if_neg heq]
      exact h.settled c hc

theorem Inv.install_done (hst : s.stage p = some (.install tail))
    (hget : s.log.lh[tail]? = none) : (s.commitStep p (.install tail)).Inv active := by
  have hphase := h.phase p _ hst
  have hat := h.atStage p _ hst
  have hall : ∀ b, s.home b = s.cache b := by
    intro b
    by_cases hb : b ∈ s.log.lh
    · obtain ⟨i, hi⟩ := mem_iff_getElem?.mp hb
      have hlen := List.getElem?_eq_none_iff.mp hget
      obtain ⟨hlt, -⟩ := List.getElem?_eq_some_iff.mp hi
      exact hat.2 i (lt_of_lt_of_le hlt hlen) b hi
    · exact h.settled b hb
  simp only [CommitState.commitStep, hget]
  refine h.commits_on hst (some .clear) rfl rfl rfl rfl h.isolated ?_ ?_ h.behind h.settled
    (fun _ w hw w' _ _ hpend => ?_) h.newest h.whole
  · rintro _ ⟨⟩
    exact hphase
  · rintro _ ⟨⟩
    exact hall
  · -- everything is installed
    have hversion := h.version w hw
    rw [← hall] at hversion
    exact absurd hpend (Nat.not_lt.mpr hversion)

theorem Inv.commitStep (hst : s.stage p = some st) : (s.commitStep p st).Inv active := by
  have hphase := h.phase p st hst
  have hat := h.atStage p st hst
  cases st with
  | test => exact h.test_step hst
  | writeLog tail => exact h.writeLog_step hst
  | writeHead => exact h.writeHead_step hst
  | install tail =>
    cases hget : s.log.lh[tail]? with
    | some b => exact h.install_block hst hget
    | none => exact h.install_done hst hget
  | clear =>
    refine h.commits_on hst (some .eraseHead) rfl rfl rfl rfl (h.isolated.cleared hphase []) ?_ ?_
      h.behind (fun b _ => hat b) (fun _ => h.uniform_at hst nofun) h.newest h.whole
    · rintro _ ⟨⟩
      show (s.log.setPhase p .cleared).phase p = _
      rw [LogState.setPhase_phase, if_pos rfl]
      rfl
    · rintro _ ⟨⟩
      rfl
  | eraseHead =>
    refine h.commits_on hst (some .finish) rfl rfl rfl rfl h.isolated ?_ ?_ h.behind h.settled
      (fun _ => h.uniform_at hst nofun) h.newest h.whole
    · rintro _ ⟨⟩
      exact hphase
    · rintro _ ⟨⟩
      exact hat
  | finish =>
    exact h.commits_on hst none rfl rfl rfl rfl (h.isolated.finished hphase) (by simp) (by simp)
      h.behind h.settled (fun _ => h.uniform_at hst nofun) h.newest h.whole

end

end Steps

/-! ## Runs -/

section Runs

variable {s s' : CommitState} {active : Finset Nat} {logsize : Nat}

theorem Inv.step (h : s.Inv active) {e : CommitEvent} (hpaired : s.Paired e)
    (hok : s.step logsize e = .ok s') : ∃ active', s'.Inv active' := by
  cases e with
  | beginOp p =>
    obtain ⟨t, active', heq, ht⟩ := h.beginOp hpaired logsize
    rw [hok, Except.ok.injEq] at heq
    exact ⟨active', heq ▸ ht⟩
  | logWrite p b =>
    cases hlog : s.log.logWrite logsize p b with
    | error msg => simp only [CommitState.step, hlog, reduceCtorEq] at hok
    | ok log =>
      obtain ⟨wrote, rfl⟩ := LogState.logWrite_inv hpaired hlog
      simp only [CommitState.step, hlog, Except.ok.injEq] at hok
      exact ⟨active, hok ▸ h.logWrite hpaired wrote⟩
  | endOp p =>
    obtain ⟨t, active', heq, ht⟩ := h.endOp hpaired logsize
    rw [hok, Except.ok.injEq] at heq
    exact ⟨active', heq ▸ ht⟩
  | commit p =>
    obtain ⟨st, hst⟩ := Option.isSome_iff_exists.mp hpaired
    simp only [CommitState.step, hst, Except.ok.injEq] at hok
    exact ⟨active, hok ▸ h.commitStep hst⟩

theorem inv_of_reach (h : Reach (CommitState.step logsize) Paired init s) :
    ∃ active, s.Inv active := by
  apply h.invariant ⟨∅, inv_init⟩
  rintro s e s' ⟨active, hinv⟩ hpaired hok
  exact hinv.step hpaired hok

-- The only panic left is that of a transaction too big for the log.
theorem Inv.panics (h : s.Inv active) {e : CommitEvent} (hpaired : s.Paired e) {msg : String}
    (herr : s.step logsize e = .error msg) : msg = "too big a transaction" := by
  cases e with
  | beginOp p =>
    obtain ⟨t, active', heq, -⟩ := h.beginOp hpaired logsize
    rw [heq] at herr
    cases herr
  | logWrite p b =>
    have hpos : 0 < active.card := Finset.card_pos.mpr ⟨p, (h.isolated.mem p).mpr hpaired⟩
    have hcount := h.isolated.count
    simp only [CommitState.step, LogState.logWrite] at herr
    by_cases hfull : s.log.lh.length ≥ LOGSIZE ∨ (s.log.lh.length : Int) ≥ logsize - 1
    · rw [if_pos hfull] at herr
      exact (Except.error.inj herr).symm
    · obtain ⟨wrote, hw⟩ := Option.isSome_iff_exists.mp hpaired
      simp only [if_neg hfull, if_neg (show ¬ s.log.outstanding < 1 by omega),
        LogState.phase_of_wrote hw, reduceCtorEq] at herr
  | endOp p =>
    obtain ⟨t, active', heq, -⟩ := h.endOp hpaired logsize
    rw [heq] at herr
    cases herr
  | commit p =>
    obtain ⟨st, hst⟩ := Option.isSome_iff_exists.mp hpaired
    simp only [CommitState.step, hst, reduceCtorEq] at herr

end Runs

end CommitState

open CommitState

/-- In every run of paired callers: a commit runs only when no operation is outstanding, and no
`log_write` meets one; the two panics do not occur; and each commit contains all the `log_write`s of
an operation or none of them. -/
theorem group_commit_isolated {logsize : Nat} {s : CommitState}
    (h : Reach (CommitState.step logsize) Paired CommitState.init s) :
    (s.log.committing = true → s.log.outstanding = 0) ∧ 0 ≤ s.log.outstanding ∧
    (∀ p b, s.Paired (.logWrite p b) → s.log.committing = false ∧ ∀ q, s.stage q = none) ∧
    (∀ e, s.Paired e → s.step logsize e ≠ .error "log.committing" ∧
      s.step logsize e ≠ .error "log_write outside of trans") ∧
    ∀ c ∈ s.commits, ∀ o, (∀ w ∈ s.writes, w.op = o → Contains c w) ∨
      ∀ w ∈ s.writes, w.op = o → ¬ Contains c w := by
  obtain ⟨active, hinv⟩ := inv_of_reach h
  refine ⟨fun hc => ?_, ?_, fun p b hp => ⟨hinv.isolated.not_committing hp, hinv.no_stage hp⟩,
    fun e he => ⟨fun herr => ?_, fun herr => ?_⟩, fun c hc o => ?_⟩
  · rw [hinv.isolated.count, hinv.isolated.quiet hc]
    rfl
  · rw [hinv.isolated.count]
    exact Int.natCast_nonneg _
  · exact absurd (hinv.panics he herr) (by decide)
  · exact absurd (hinv.panics he herr) (by decide)
  · by_cases hsome : ∃ w ∈ s.writes, w.op = o ∧ Contains c w
    · obtain ⟨w, hw, rfl, hin⟩ := hsome
      exact .inl fun w' hw' heq => hinv.whole c hc w hw w' hw' heq.symm hin
    · exact .inr fun w hw heq hin => hsome ⟨w, hw, heq, hin⟩

/-- Two operations, overlapping, and the commit of both. -/
def twoOps : List CommitEvent :=
  [.beginOp 0, .logWrite 0 5, .beginOp 1, .logWrite 1 5, .endOp 0, .logWrite 1 6, .endOp 1] ++
    List.replicate 11 (.commit 1)

theorem group_commit_isolated_twoOps :
    ∃ s, Reach (CommitState.step 31) Paired CommitState.init s ∧
      (s.writes.length = 3 ∧ s.commits.length = 1 ∧ s.log.committing = false) ∧
      ∀ c ∈ s.commits, ∀ o, (∀ w ∈ s.writes, w.op = o → Contains c w) ∨
        ∀ w ∈ s.writes, w.op = o → ¬ Contains c w := by
  obtain ⟨s, hreach, hs⟩ :=
    exists_reach_of_follow (CommitState.step 31) Paired CommitState.init twoOps
    (fun s => decide (s.writes.length = 3 ∧ s.commits.length = 1 ∧ s.log.committing = false))
    (by decide +kernel)
  exact ⟨s, hreach, of_decide_eq_true hs, (group_commit_isolated hreach).2.2.2.2⟩

end OsProjects.Kernel
