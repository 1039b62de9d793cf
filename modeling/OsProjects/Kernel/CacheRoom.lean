import OsProjects.Kernel.CacheView
import Mathlib.Algebra.Order.BigOperators.Ring.Finset

/-!
# CacheRoom — when the buffer cache runs dry

The buffers in use are those that operations hold, those that the committing process holds and the
pinned ones.  `begin_op` reserves room in the log but none in the cache, and there are no more
buffers than log blocks.
-/

namespace OsProjects.Kernel.Bio

open Lib Function Multiset

variable {N b : Nat} {lg : LogArea} {disk₀ : Disk} {s s' : State N} {p : Fin N} {k : Fin NBUF}
  {a : Act}

/-! ## Counting buffers -/

theorem sum_countP_fst (m : Multiset (Fin NBUF × Nat)) :
    ∑ k, m.countP (fun x => x.1 = k) = m.card := by
  induction m using Multiset.induction_on with
  | empty => simp
  | cons x m ih =>
    simp only [countP_cons, Finset.sum_add_distrib, ih, Finset.sum_ite_eq, Finset.mem_univ,
      if_true, card_cons]

theorem sum_held (refs : Fin N → Multiset (Fin NBUF × Nat)) :
    ∑ k, held refs k = ∑ p, (refs p).card := by
  unfold held
  rw [Finset.sum_comm]
  simp only [sum_countP_fst]

namespace Inv

theorem card_pinned_le (h : Inv lg disk₀ s) :
    (Finset.univ.filter s.Pinned).card ≤ s.pending.length := by
  calc (Finset.univ.filter s.Pinned).card
      ≤ s.pending.toFinset.card := by
        apply Finset.card_le_card_of_injOn s.blockno
        · intro k hk
          exact List.mem_toFinset.mpr (Finset.mem_filter.mp hk).2.2
        · intro k hk k' hk' heq
          exact h.unique k k' _ ⟨(Finset.mem_filter.mp hk).2.1, heq⟩
            ⟨(Finset.mem_filter.mp hk').2.1, rfl⟩
    _ ≤ s.pending.length := s.pending.toFinset_card_le

theorem sum_refcnt_le (h : Inv lg disk₀ s) :
    ∑ k, s.refcnt k ≤ ∑ p, (s.refs p).card + s.log.lh.length := by
  have hpinned : ∑ k, (if s.Pinned k then 1 else 0) = (Finset.univ.filter s.Pinned).card := by
    rw [Finset.card_filter]
  have hpending : s.pending.length ≤ s.log.lh.length := (List.drop_sublist _ _).length_le
  have hcard := h.card_pinned_le
  simp only [h.counted, Finset.sum_add_distrib, sum_held, hpinned]
  omega

theorem exists_free (h : Inv lg disk₀ s)
    (hroom : ∑ p, (s.refs p).card + s.log.lh.length < NBUF) : ∃ k, s.refcnt k = 0 := by
  by_contra hnone
  have hone : ∀ k, 1 ≤ s.refcnt k := by
    intro k
    by_contra hk
    exact hnone ⟨k, by omega⟩
  have hsum : ∑ _k : Fin NBUF, 1 ≤ ∑ k, s.refcnt k := Finset.sum_le_sum fun k _ => hone k
  have hle := h.sum_refcnt_le
  rw [Finset.sum_const, Finset.card_univ, Fintype.card_fin, smul_eq_mul] at hsum
  omega

end Inv

/-! ## The callers -/

/-- The users of the cache are operations: between `begin_op` and `end_op` they hold at most three
buffers at a time and none at the end, and they log at most `MAXOPBLOCKS` distinct blocks. -/
def Operates (lg : LogArea) (s : State N) (p : Fin N) : Act → Prop
  | .bget _ => (s.log.phase p).InCommit ∨ ((s.log.phase p).wrote?.isSome ∧ (s.refs p).card ≤ 2)
  | .setData k _ => s.lock k = some p ∧ ¬ lg.Has (s.blockno k)
  | .logWrite k => (s.lock k = some p ∧ ¬ lg.Has (s.blockno k)) ∧
    s.log.Calls (.logWrite p (s.blockno k))
  | .beginOp => s.log.Calls (.beginOp p)
  | .endOp => s.log.Calls (.endOp p) ∧ (s.refs p).card = 0
  | _ => True

instance (lg : LogArea) (s : State N) (p : Fin N) : (a : Act) → Decidable (Operates lg s p a)
  | .bget _ => inferInstanceAs (Decidable ((s.log.phase p).InCommit ∨ (_ ∧ (s.refs p).card ≤ 2)))
  | .setData k _ => inferInstanceAs (Decidable (s.lock k = some p ∧ ¬ lg.Has (s.blockno k)))
  | .logWrite k => inferInstanceAs (Decidable ((s.lock k = some p ∧ ¬ lg.Has (s.blockno k)) ∧
      s.log.Calls (.logWrite p (s.blockno k))))
  | .beginOp => inferInstanceAs (Decidable (s.log.Calls (.beginOp p)))
  | .endOp => inferInstanceAs (Decidable (s.log.Calls (.endOp p) ∧ (s.refs p).card = 0))
  | .acquiresleep _ | .load _ | .got _ _ | .bwrite _ | .releasesleep _ | .unref _ | .bunpin _
  | .memmove _ _ | .setHead _ | .lh | .clear | .finish => .isTrue trivial

theorem Operates.touches (h : Operates lg s p a) : Touches lg s p a := by
  cases a with
  | setData k data => exact h
  | logWrite k => exact h.1
  | _ => trivial

/-- A block is added to the header only while the header leaves room for the three buffers of each
operation. -/
def LeavesRoom (s : State N) : Act → Prop
  | .logWrite k => s.blockno k ∈ s.log.lh ∨ s.log.lh.length + 3 * s.log.outstanding < NBUF
  | _ => True

instance (s : State N) : (a : Act) → Decidable (LeavesRoom s a)
  | .logWrite k => inferInstanceAs (Decidable (s.blockno k ∈ s.log.lh ∨
      s.log.lh.length + 3 * s.log.outstanding < NBUF))
  | .bget _ | .acquiresleep _ | .load _ | .got _ _ | .setData _ _ | .bwrite _ | .releasesleep _
  | .unref _ | .bunpin _ | .memmove _ _ | .setHead _ | .beginOp | .endOp | .lh | .clear | .finish =>
    .isTrue trivial

/-! ## The room that is left -/

/-- Who has references, and how many there can be. -/
structure RoomAt (refs : Fin N → Multiset (Fin NBUF × Nat)) (log : LogState) (carried : Nat) :
    Prop where
  idle : ∀ p : Fin N, log.phase p = .idle → refs p = 0
  few : ∀ p : Fin N, (log.phase p).wrote?.isSome → (refs p).card ≤ 3
  outstanding : log.outstanding = ∑ p : Fin N, if (log.phase p).wrote?.isSome then 1 else 0
  fits : log.lh.length + 3 * log.outstanding ≤ NBUF
  commit : log.committing = true → carried = 0 ∧ log.lh.length + 1 < NBUF

def Room (s : State N) : Prop := RoomAt s.refs s.log s.carried

theorem phase_cases (ph : OpPhase) : ph = .idle ∨ ph.wrote?.isSome ∨ ph.InCommit := by
  cases ph with
  | idle => exact .inl rfl
  | inOp wrote => exact .inr (.inl rfl)
  | committing => exact .inr (.inr (.inl rfl))
  | cleared => exact .inr (.inr (.inr rfl))

namespace RoomAt

variable {refs : Fin N → Multiset (Fin NBUF × Nat)} {log log' : LogState} {carried : Nat}

theorem setRefs (h : RoomAt refs log carried) {m : Multiset (Fin NBUF × Nat)}
    (hidle : log.phase p = .idle → m = 0) (hfew : (log.phase p).wrote?.isSome → m.card ≤ 3) :
    RoomAt (update refs p m) log carried :=
  { h with
    idle := fun q hq => by
      rw [update_apply]
      split
      · rename_i heq
        exact hidle (heq ▸ hq)
      · exact h.idle q hq
    few := fun q hq => by
      rw [update_apply]
      split
      · rename_i heq
        exact hfew (heq ▸ hq)
      · exact h.few q hq }

theorem erase (h : RoomAt refs log carried) (x : Fin NBUF × Nat) :
    RoomAt (update refs p ((refs p).erase x)) log carried := by
  apply h.setRefs
  · intro hp
    rw [h.idle p hp]
    rfl
  · intro hp
    exact (card_le_card (erase_le x _)).trans (h.few p hp)

-- Processes go on with what they were doing.
theorem relog (h : RoomAt refs log carried) (hlike : ∀ q : Fin N, (log'.phase q).Like (log.phase q))
    (hout : log'.outstanding = log.outstanding) (hcommitting : log'.committing = log.committing)
    (hfits : log'.lh.length + 3 * log.outstanding ≤ NBUF)
    (hcommit : log.committing = true → log'.lh.length ≤ log.lh.length) :
    RoomAt refs log' carried where
  idle q hq := by
    rcases hlike q with heq | ⟨hsome, _⟩
    · exact h.idle q (heq ▸ hq)
    · rw [hq] at hsome
      cases hsome
  few q hq := by
    rcases hlike q with heq | ⟨_, hsome⟩
    · exact h.few q (heq ▸ hq)
    · exact h.few q hsome
  outstanding := by
    rw [hout, h.outstanding]
    apply Finset.sum_congr rfl
    intro q _
    rcases hlike q with heq | ⟨hsome, hsome'⟩
    · rw [heq]
    · rw [if_pos hsome, if_pos hsome']
  fits := hout ▸ hfits
  commit hc := by
    rw [hcommitting] at hc
    obtain ⟨hzero, hlen⟩ := h.commit hc
    exact ⟨hzero, Nat.lt_of_le_of_lt (Nat.succ_le_succ (hcommit hc)) hlen⟩

theorem outstanding_pos (h : RoomAt refs log carried) (hp : (log.phase p).wrote?.isSome) :
    1 ≤ log.outstanding := by
  calc (1 : Int) = if (log.phase p).wrote?.isSome then 1 else 0 := (if_pos hp).symm
    _ ≤ ∑ q : Fin N, if (log.phase q).wrote?.isSome then 1 else 0 := by
      apply Finset.single_le_sum (f := fun q : Fin N =>
        if (log.phase q).wrote?.isSome then (1 : Int) else 0) _ (Finset.mem_univ p)
      intro q _
      split <;> omega
    _ = log.outstanding := h.outstanding.symm

theorem sum_setPhase (log : LogState) (p : Fin N) (ph : OpPhase) :
    (∑ q : Fin N, if ((log.setPhase p ph).phase q).wrote?.isSome then 1 else 0) +
        (if (log.phase p).wrote?.isSome then (1 : Int) else 0) =
      (∑ q : Fin N, if (log.phase q).wrote?.isSome then 1 else 0) +
        if ph.wrote?.isSome then 1 else 0 := by
  have hsum := sum_update_add (Finset.mem_univ p)
    (fun ph : OpPhase => if ph.wrote?.isSome then 1 else 0) (fun q : Fin N => log.phase q) ph
  have hphase : ∀ q : Fin N, (log.setPhase p ph).phase q =
      update (fun q : Fin N => log.phase q) p ph q := by
    intro q
    rw [LogState.setPhase_phase, update_apply]
    simp only [Fin.ext_iff]
  simp only [hphase]
  exact_mod_cast hsum

-- A process takes up another phase, and has what is allowed there.
theorem setPhase (h : RoomAt refs log carried) (p : Fin N) (ph : OpPhase) (lh : List Nat)
    (outstanding : Int) (committing : Bool) {carried' : Nat} (hidle : ph = .idle → refs p = 0)
    (hfew : ph.wrote?.isSome → (refs p).card ≤ 3)
    (hout : outstanding + (if (log.phase p).wrote?.isSome then 1 else 0) =
      log.outstanding + if ph.wrote?.isSome then 1 else 0)
    (hfits : lh.length + 3 * outstanding ≤ NBUF)
    (hcommit : committing = true → carried' = 0 ∧ lh.length + 1 < NBUF) :
    RoomAt refs ⟨lh, outstanding, committing, (log.setPhase p ph).phase⟩ carried' where
  idle q hq := by
    rw [LogState.setPhase_phase] at hq
    split at hq
    · rename_i heq
      exact Fin.ext heq ▸ hidle hq
    · exact h.idle q hq
  few q hq := by
    rw [LogState.setPhase_phase] at hq
    split at hq
    · rename_i heq
      exact Fin.ext heq ▸ hfew hq
    · exact h.few q hq
  outstanding := by
    have hsum := sum_setPhase log p ph
    rw [← h.outstanding] at hsum
    show outstanding = ∑ q : Fin N, if ((log.setPhase p ph).phase q).wrote?.isSome then 1 else 0
    omega
  fits := hfits
  commit := hcommit

end RoomAt

theorem room_of_booted (h : s.Booted) : Room s where
  idle p _ := h.refs p
  few p _ := by
    rw [h.refs]
    exact Nat.zero_le 3
  outstanding := by
    rw [h.log]
    simp [LogState.init, OpPhase.wrote?]
  fits := by
    rw [h.log]
    decide
  commit hc := by
    rw [h.log] at hc
    cases hc

theorem Inv.isSome_of_not_inCommit (h : Inv lg disk₀ s) (hc : s.log.committing = false)
    (p : Fin N) : s.log.phase p = .idle ∨ (s.log.phase p).wrote?.isSome := by
  rcases phase_cases (s.log.phase p) with hp | hp | hp
  · exact .inl hp
  · exact .inr hp
  · exact absurd hp (h.not_inCommit hc p)

-- A `bget` of a user or of the committing process finds a buffer.
theorem Room.sum_refs_lt (h : Inv lg disk₀ s) (hroom : Room s)
    (hoperates : Operates lg s p (.bget b)) (hpre : pre lg (.bget b) (loc s p)) :
    ∑ q, (s.refs q).card + s.log.lh.length < NBUF := by
  rcases hoperates with hin | ⟨hsome, htwo⟩
  · -- no operation is going on, so nobody else has references
    have hc := h.commits p hin
    obtain ⟨hzero, hlen⟩ := hroom.commit hc
    have hone : (s.refs p).card ≤ s.carried + 1 := hpre _ (mem_stage.mpr ⟨hin, rfl⟩)
    have hnone : ∀ q : Fin N, ¬ (s.log.phase q).wrote?.isSome := by
      intro q hq
      have hpos := RoomAt.outstanding_pos hroom hq
      rw [h.quiet hc] at hpos
      omega
    have hsum : ∑ q, (s.refs q).card = (s.refs p).card := by
      apply Finset.sum_eq_single p
      · intro q _ hq
        rcases phase_cases (s.log.phase q) with hidle | hs | hin'
        · rw [hroom.idle q hidle, card_zero]
        · exact absurd hs (hnone q)
        · exact absurd (Fin.ext (h.alone q p hin' hin)) hq
      · exact fun hp => absurd (Finset.mem_univ p) hp
    omega
  · have hc : s.log.committing = false := by
      apply h.not_committing
      have hpos := RoomAt.outstanding_pos hroom hsome
      omega
    have hle : ∀ q : Fin N, (s.refs q).card ≤ if (s.log.phase q).wrote?.isSome then 3 else 0 := by
      intro q
      rcases h.isSome_of_not_inCommit hc q with hq | hq
      · rw [hroom.idle q hq, card_zero]
        exact Nat.zero_le _
      · rw [if_pos hq]
        exact hroom.few q hq
    have hlt : ∑ q, (s.refs q).card <
        ∑ q : Fin N, if (s.log.phase q).wrote?.isSome then 3 else 0 := by
      apply Finset.sum_lt_sum (fun q _ => hle q)
      refine ⟨p, Finset.mem_univ p, ?_⟩
      rw [if_pos hsome]
      omega
    have hthree : ((∑ q : Fin N, if (s.log.phase q).wrote?.isSome then 3 else 0 : Nat) : Int) =
        3 * s.log.outstanding := by
      rw [hroom.outstanding, Finset.mul_sum, Nat.cast_sum]
      apply Finset.sum_congr rfl
      intro q _
      split <;> rfl
    have hfits := hroom.fits
    omega

/-! ## Each action -/

theorem Room.logWrite (h : Inv lg disk₀ s) (hroom : Room s) (hleaves : LeavesRoom s (.logWrite k))
    (hok : logWrite lg s p k = .ok s') : Room s' := by
  unfold Bio.logWrite at hok
  split at hok
  · cases hok
  · rename_i log hlog
    obtain ⟨⟨_, _, hout⟩, hlh, hout', hcommitting, hlike⟩ := LogState.logWrite_ok hlog
    have hfree := h.not_committing (by omega)
    have hfits : log.lh.length + 3 * s.log.outstanding ≤ NBUF := by
      rw [hlh]
      rcases hleaves with hmem | hlt
      · rw [LogState.absorb_of_mem hmem]
        exact hroom.fits
      · have hlen := LogState.length_absorb_le (b := s.blockno k) s.log.lh
        omega
    have hnext : RoomAt s.refs log s.carried := by
      apply RoomAt.relog hroom (fun q => hlike q) hout' hcommitting hfits
      intro hc
      rw [hfree] at hc
      cases hc
    split at hok <;> cases hok <;> exact hnext

theorem Room.bget (hroom : Room s) (hoperates : Operates lg s p (.bget b))
    (hok : bget s p b = .ok (k, s')) : Room s' := by
  have hnext : ∀ j, RoomAt (update s.refs p ((j, b) ::ₘ s.refs p)) s.log s.carried := by
    intro j
    apply RoomAt.setRefs hroom
    · intro hidle
      rcases hoperates with hin | ⟨hsome, _⟩
      · rw [hidle] at hin
        exact absurd hin LogState.not_inCommit_idle
      · rw [hidle] at hsome
        cases hsome
    · intro hsome
      rcases hoperates with hin | ⟨_, htwo⟩
      · exact absurd hin (OpPhase.not_inCommit_of_isSome hsome)
      · rw [card_cons]
        omega
  unfold Bio.bget at hok
  split at hok
  · cases hok
    exact hnext _
  · split at hok
    · cases hok
      exact hnext _
    · cases hok

-- The reference that stands for the pin belongs to the committing process.
theorem Room.bwrite (hroom : Room s) (hin : (s.log.phase p).InCommit) : Room (bwrite lg s p k) := by
  have hnext : RoomAt (update s.refs p ((k, s.blockno k) ::ₘ s.refs p)) s.log s.carried := by
    apply RoomAt.setRefs hroom
    · intro hidle
      rw [hidle] at hin
      exact absurd hin LogState.not_inCommit_idle
    · intro hsome
      exact absurd hin (OpPhase.not_inCommit_of_isSome hsome)
  unfold Bio.bwrite
  split
  · exact hroom
  · split
    · exact hroom
    · exact hnext

theorem Room.unref (hroom : Room s) : Room (unref s p k) := by
  unfold Bio.unref
  split <;> exact RoomAt.erase hroom _

theorem Room.beginOp (hroom : Room s) (hidle : s.log.phase p = .idle)
    (hfree : s.log.committing = false)
    (hspace : ¬ s.log.lh.length + (s.log.outstanding + 1) * MAXOPBLOCKS > LOGSIZE) :
    Room { s with log := s.log.beginOp p } := by
  have hzero : s.refs p = 0 := RoomAt.idle hroom p hidle
  have hout : 0 ≤ s.log.outstanding := by
    rw [RoomAt.outstanding hroom]
    apply Finset.sum_nonneg
    intro q _
    split <;> omega
  rw [LogState.beginOp_admitted hfree hspace]
  apply RoomAt.setPhase hroom p (.inOp []) s.log.lh (s.log.outstanding + 1) s.log.committing nofun
  · intro _
    rw [hzero]
    exact Nat.zero_le 3
  · simp [hidle, OpPhase.wrote?]
  · simp only [LOGSIZE, MAXOPBLOCKS, NBUF] at hspace ⊢
    omega
  · intro hc
    rw [hfree] at hc
    cases hc

theorem Room.endOp (hroom : Room s) {r : Bool} (hoperates : Operates lg s p .endOp)
    (hok : exec lg p .endOp s = .ok (r, s')) : Room s' := by
  obtain ⟨hsome, hnone⟩ := hoperates
  have hsome : (s.log.phase p).wrote?.isSome := hsome
  have hfits := RoomAt.fits hroom
  obtain ⟨hfree, ⟨hlast, rfl, rfl⟩ | ⟨rfl, rfl⟩⟩ := exec_endOp_ok hok
  · apply RoomAt.setPhase hroom p .committing s.log.lh (s.log.outstanding - 1) true nofun nofun
    · rw [if_pos hsome]
      exact (sub_add_cancel s.log.outstanding 1).trans (add_zero _).symm
    · omega
    · intro _
      refine ⟨hnone, ?_⟩
      omega
  · apply RoomAt.setPhase hroom p .idle s.log.lh (s.log.outstanding - 1) s.log.committing
    · exact fun _ => card_eq_zero.mp hnone
    · exact nofun
    · rw [if_pos hsome]
      exact (sub_add_cancel s.log.outstanding 1).trans (add_zero _).symm
    · omega
    · intro hc
      rw [hfree] at hc
      cases hc

theorem Room.clear (h : Inv lg disk₀ s) (hroom : Room s) (hin : (s.log.phase p).InCommit) :
    Room { s with
      log := { s.log.setPhase p .cleared with lh := [] }, written := 0, installed := 0 } := by
  have hc := h.commits p hin
  have hnot : ¬ (s.log.phase p).wrote?.isSome := fun hs => OpPhase.not_inCommit_of_isSome hs hin
  apply RoomAt.setPhase hroom p .cleared [] s.log.outstanding s.log.committing nofun nofun
  · rw [if_neg hnot]
    rfl
  · rw [h.quiet hc]
    decide
  · exact fun _ => ⟨(RoomAt.commit hroom hc).1, by decide⟩

theorem Room.finish (h : Inv lg disk₀ s) (hroom : Room s)
    (hpre : (loc s p).stage = some ⟨[], 0, 0, (loc s p).refs.card⟩) :
    Room { s with log := { s.log.setPhase p .idle with committing := false } } := by
  obtain ⟨hin, hstage⟩ := mem_stage.mp hpre
  have hnot : ¬ (s.log.phase p).wrote?.isSome := fun hs => OpPhase.not_inCommit_of_isSome hs hin
  have hcarried : s.carried = (s.refs p).card := by
    injection hstage
  have hzero := (RoomAt.commit hroom (h.commits p hin)).1
  apply RoomAt.setPhase hroom p .idle s.log.lh s.log.outstanding false
  · intro _
    apply card_eq_zero.mp
    omega
  · exact nofun
  · rw [if_neg hnot]
    rfl
  · exact RoomAt.fits hroom
  · exact nofun

theorem room_step {r : Reply a} (h : Inv lg disk₀ s) (hroom : Room s)
    (hoperates : Operates lg s p a) (hleaves : LeavesRoom s a) (hpre : pre lg a (loc s p))
    (hok : exec lg p a s = .ok (r, s')) : Room s' := by
  cases a with
  | bget b => exact Room.bget hroom hoperates hok
  | acquiresleep k =>
    obtain ⟨_, rfl⟩ := exec_acquiresleep_ok hok
    exact hroom
  | load k =>
    obtain rfl := exec_load_ok hok
    split <;> exact hroom
  | got k b | setData k data =>
    cases hok
    exact hroom
  | logWrite k => exact Room.logWrite h hroom hleaves (exec_logWrite_ok hok)
  | bwrite k =>
    obtain ⟨_, rfl⟩ := exec_bwrite_ok hok
    obtain ⟨c, hc, _⟩ := hpre
    exact Room.bwrite hroom (mem_stage.mp hc).1
  | releasesleep k =>
    obtain ⟨_, rfl⟩ := exec_releasesleep_ok hok
    exact hroom
  | unref k =>
    cases hok
    exact Room.unref hroom
  | bunpin k =>
    cases hok
    exact RoomAt.erase hroom _
  | memmove dst src | setHead k =>
    cases hok
    exact hroom
  | beginOp =>
    obtain ⟨hfree, hspace, rfl⟩ := exec_beginOp_ok hok
    exact Room.beginOp hroom hoperates hfree hspace
  | endOp => exact Room.endOp hroom hoperates hok
  | lh =>
    cases hok
    exact hroom
  | clear =>
    cases hok
    obtain ⟨_, c, hc, _⟩ := hpre
    exact Room.clear h hroom (mem_stage.mp hc).1
  | finish =>
    cases hok
    exact Room.finish h hroom hpre.2

theorem sound_room (lg : LogArea) (disk₀ : Disk) :
    (discipline lg).Sound (exec lg) (fun s (p : Fin N) a => Operates lg s p a ∧ LeavesRoom s a)
      fun s locs => (Inv lg disk₀ s ∧ locs = loc s) ∧ Room s := by
  intro s locs p a r s' h hallowed hpre hok
  obtain ⟨l, hpost, hinv⟩ := sound lg disk₀ s locs p a r s' h.1 hallowed.1.touches hpre hok
  obtain ⟨⟨hold, rfl⟩, hroom⟩ := h
  exact ⟨l, hpost, hinv, room_step hold hroom hallowed.1 hallowed.2 hpre hok⟩

/-! ## Every interleaving -/

/-- The states of the interleavings of operations. -/
abbrev Operations (lg : LogArea) (allowed : State N → Fin N → Act → Prop) (s₀ : State N) :
    Config (State N) (Fin N) Act Reply Unit → Prop :=
  Reach (Config.step (exec lg) (Call.code lg))
    (Config.Admits fun s p a => Operates lg s p a ∧ allowed s p a) ⟨s₀, fun _ => none⟩

/-- As long as every block is added to the header while there is room for the buffers of the
outstanding operations, a `bget` that misses finds a free buffer. -/
theorem bget_finds_buffer {s₀ : State N} {c : Config (State N) (Fin N) Act Reply Unit}
    (hboot : s₀.Booted) (h : Operations lg (fun s _ a => LeavesRoom s a) s₀ c) {p : Fin N} {b : Nat}
    (hnext : c.next p = some (.bget b)) (hoperates : Operates lg c.shared p (.bget b)) :
    (∃ k, c.shared.refcnt k = 0) ∧ ∃ y, exec lg p (.bget b) c.shared = .ok y := by
  obtain ⟨_, ⟨⟨hinv, rfl⟩, hroom⟩, hkept⟩ := (sound_room lg s₀.disk).reach keeps_code
    ⟨⟨hboot.inv lg, rfl⟩, room_of_booted hboot⟩ hboot.idle h
  have hpre : pre lg (.bget b) (loc c.shared p) := hkept.pre hnext
  obtain ⟨k, hfree⟩ := hinv.exists_free (Room.sum_refs_lt hinv hroom hoperates hpre)
  refine ⟨⟨k, hfree⟩, ?_⟩
  show ∃ y, bget c.shared p b = .ok y
  unfold bget
  split
  · exact ⟨_, rfl⟩
  · split
    · exact ⟨_, rfl⟩
    · rename_i hnone
      have hk := List.find?_eq_none.mp hnone k (List.mem_reverse.mpr (hinv.order k))
      exact absurd (decide_eq_true hfree) hk

/-- The block that is looked for. -/
def Act.bget? : Act → Option Nat
  | .bget b => some b
  | _ => none

theorem Act.eq_bget (h : a.bget? = some b) : a = .bget b := by
  cases a with
  | bget c =>
    cases h
    rfl
  | _ => cases h

/-- Three operations log up to nine blocks each, `n` in all; the first one then holds three other
buffers, and the second asks for a block. -/
def fillCache (n : Nat) : List (Event (Fin 3) Call) :=
  (List.finRange 3).flatMap (fun p => calls p .beginOp 1) ++
    (List.range n).flatMap (fun i =>
      calls (Fin.ofNat 3 (i / 9)) (.bread (100 + i)) 4 ++
      calls (Fin.ofNat 3 (i / 9)) (.write (Fin.ofNat 30 i) .zero) 2 ++
      calls (Fin.ofNat 3 (i / 9)) (.brelse (Fin.ofNat 30 i)) 2) ++
    (List.range 3).flatMap (fun i => calls 0 (.bread (200 + i)) 4) ++ calls 1 (.bread 300) 0

-- With 21 pinned buffers and three that are held, there is one for the second operation.
theorem bget_finds_buffer_tight :
    ∃ c, Operations ⟨2, 30⟩ (fun s _ a => LeavesRoom s a) (State.init 3 fun _ => .zero) c ∧
      (List.finRange NBUF).countP (fun k => c.shared.refcnt k ≠ 0) = 24 ∧
      c.next 1 = some (.bget 300) ∧ ∃ y, exec ⟨2, 30⟩ 1 (.bget 300) c.shared = .ok y := by
  obtain ⟨c, hreach, h⟩ := exists_reach_of_follow (Config.step (exec ⟨2, 30⟩) (Call.code ⟨2, 30⟩))
    (Config.Admits fun s p a => Operates ⟨2, 30⟩ s p a ∧ LeavesRoom s a)
    ⟨State.init 3 fun _ => .zero, fun _ => none⟩ (fillCache 21)
    (fun c => decide ((c.next 1).bind Act.bget? = some 300 ∧
      Operates ⟨2, 30⟩ c.shared 1 (.bget 300) ∧
      (List.finRange NBUF).countP (fun k => c.shared.refcnt k ≠ 0) = 24))
    (by decide +kernel)
  obtain ⟨hnext, hoperates, hcount⟩ := of_decide_eq_true h
  obtain ⟨a, hnext, hbget⟩ := Option.bind_eq_some_iff.mp hnext
  obtain rfl := Act.eq_bget hbget
  exact ⟨c, hreach, hcount, hnext, (bget_finds_buffer (booted_init _) hreach hnext hoperates).2⟩

theorem bget_panics (hmiss : ∀ k, ¬ s.Caches k b) (hbusy : ∀ k, s.refcnt k ≠ 0) :
    bget s p b = .error (.panic "bget: no buffers") := by
  have hnone : s.lru.find? (fun k => s.dev k = ROOTDEV ∧ s.blockno k = b) = none :=
    List.find?_eq_none.mpr fun k _ hk => hmiss k (of_decide_eq_true hk)
  have hnone' : s.lru.reverse.find? (fun k => s.refcnt k = 0) = none :=
    List.find?_eq_none.mpr fun k _ hk => hbusy k (of_decide_eq_true hk)
  simp only [bget, hnone, hnone']

/-- With 27 pinned buffers and three that are held, a second operation finds none. -/
theorem cache_runs_dry :
    ∃ c, Operations ⟨2, 30⟩ (fun _ _ _ => True) (State.init 3 fun _ => .zero) c ∧
      c.next 1 = some (.bget 300) ∧ Operates ⟨2, 30⟩ c.shared 1 (.bget 300) ∧
      exec ⟨2, 30⟩ 1 (.bget 300) c.shared = .error (.panic "bget: no buffers") := by
  obtain ⟨c, hreach, h⟩ := exists_reach_of_follow (Config.step (exec ⟨2, 30⟩) (Call.code ⟨2, 30⟩))
    (Config.Admits fun s p a => Operates ⟨2, 30⟩ s p a ∧ True)
    ⟨State.init 3 fun _ => .zero, fun _ => none⟩ (fillCache 27)
    (fun c => decide ((c.next 1).bind Act.bget? = some 300 ∧
      Operates ⟨2, 30⟩ c.shared 1 (.bget 300) ∧
      (∀ k, ¬ c.shared.Caches k 300) ∧ ∀ k, c.shared.refcnt k ≠ 0))
    (by decide +kernel)
  obtain ⟨hnext, hoperates, hmiss, hbusy⟩ := of_decide_eq_true h
  obtain ⟨a, hnext, hbget⟩ := Option.bind_eq_some_iff.mp hnext
  obtain rfl := Act.eq_bget hbget
  exact ⟨c, hreach, hnext, hoperates, bget_panics hmiss hbusy⟩

end OsProjects.Kernel.Bio
