import OsProjects.Kernel.CacheInv

/-!
# CacheCommit — logging and committing keep the invariant of the cache

`log_write` moves the view of a block and pins it; the writes of a commit bring the disk to the
view.
-/

namespace OsProjects.Kernel

open Lib Function List

/-- The same phase, up to what the operation has logged. -/
def OpPhase.Like (a b : OpPhase) : Prop := a = b ∨ (a.wrote?.isSome ∧ b.wrote?.isSome)

theorem OpPhase.not_inCommit_of_isSome {ph : OpPhase} (h : ph.wrote?.isSome) : ¬ ph.InCommit := by
  rintro (rfl | rfl) <;> cases h

theorem OpPhase.Like.inCommit {a b : OpPhase} (h : a.Like b) : a.InCommit ↔ b.InCommit := by
  rcases h with rfl | ⟨ha, hb⟩
  · rfl
  · exact iff_of_false (not_inCommit_of_isSome ha) (not_inCommit_of_isSome hb)

namespace LogState

variable {l l' : LogState} {p b : Nat} {lh : List Nat}

theorem length_absorb_le (lh : List Nat) : (absorb lh b).length ≤ lh.length + 1 := by
  by_cases hb : b ∈ lh
  · rw [absorb_of_mem hb]
    omega
  · rw [absorb_of_not_mem hb, length_append, length_singleton]

theorem beginOp_admitted (hfree : l.committing = false)
    (hroom : ¬ l.lh.length + (l.outstanding + 1) * MAXOPBLOCKS > LOGSIZE) :
    l.beginOp p = { l.setPhase p (.inOp []) with outstanding := l.outstanding + 1 } := by
  rw [beginOp, if_neg (by rw [hfree]; decide), if_neg hroom]

theorem logWrite_ok {logsize : Nat} (h : l.logWrite logsize p b = .ok l') :
    (l.lh.length < LOGSIZE ∧ l.lh.length + 1 < logsize ∧ 1 ≤ l.outstanding) ∧
      l'.lh = absorb l.lh b ∧ l'.outstanding = l.outstanding ∧ l'.committing = l.committing ∧
      ∀ q, (l'.phase q).Like (l.phase q) := by
  unfold logWrite at h
  split at h
  · cases h
  · rename_i hroom
    split at h
    · cases h
    · rename_i hout
      refine ⟨by omega, ?_⟩
      dsimp only at h
      split at h
      · rename_i wrote hp
        cases h
        refine ⟨rfl, rfl, rfl, fun q => ?_⟩
        rw [setPhase_phase]
        split
        · rename_i hq
          exact .inr ⟨rfl, by rw [hq, hp]; rfl⟩
        · exact .inl rfl
      · cases h
        exact ⟨rfl, rfl, rfl, fun _ => .inl rfl⟩

end LogState

namespace Bio

variable {N : Nat} {lg : LogArea} {disk₀ : Disk} {s s' : State N} {p : Fin N} {k : Fin NBUF}

namespace Inv

/-! ## `log_write` -/

-- While operations are going on nothing is being committed.
theorem logWrite_core (h : Inv lg disk₀ s) {log : LogState} {refcnt : Fin NBUF → Nat}
    (hlock : s.lock k = some p) (hmode : s.mode k = .dirty) (hhome : ¬ lg.Has (s.blockno k))
    (hlog : s.log.logWrite lg.size p (s.blockno k) = .ok log)
    (hself : refcnt k = held s.refs k + 1) (hother : ∀ j, j ≠ k → refcnt j = s.refcnt j) :
    Inv lg disk₀ { s.setMode k .clean with
      log := log
      logged := update s.logged (s.blockno k) (some (s.data k))
      refcnt := refcnt } := by
  obtain ⟨⟨hsize, harea, hout⟩, hlh, hout', hcommitting, hlike⟩ := LogState.logWrite_ok hlog
  have hphase : ∀ q, (log.phase q).InCommit ↔ (s.log.phase q).InCommit :=
    fun q => (hlike q).inCommit
  have hfree : s.log.committing = false := h.not_committing (by omega)
  have hidle : ∀ q, ¬ (s.log.phase q).InCommit := by
    intro q hq
    have hcommit := h.commits q hq
    rw [hfree] at hcommit
    cases hcommit
  obtain ⟨hwritten, hinstalled⟩ := h.rest hfree
  have hcaches := h.caches_of_lock hlock
  set s' : State N := { s.setMode k .clean with
    log := log
    logged := update s.logged (s.blockno k) (some (s.data k))
    refcnt := refcnt } with hs'
  have hpending : ∀ c, c ∈ s'.pending ↔ c ∈ s.pending ∨ c = s.blockno k := by
    intro c
    show c ∈ log.lh.drop s.installed ↔ c ∈ s.log.lh.drop s.installed ∨ _
    rw [hinstalled, drop_zero, drop_zero, hlh]
    exact LogState.mem_absorb
  have hview : s'.view (s.blockno k) = s.data k := by
    show (update s.logged _ _ _).getD _ = _
    rw [update_self, Option.getD_some]
  have hviewOther : ∀ c, c ≠ s.blockno k → s'.view c = s.view c := by
    intro c hc
    show (update s.logged _ _ _).getD _ = _
    rw [update_of_ne hc]
    rfl
  have hmodeOther : ∀ j, j ≠ k → s'.mode j = s.mode j := fun j hj => update_of_ne hj _ _
  have hblockno : ∀ j, j ≠ k → s.dev j = ROOTDEV → s.blockno j ≠ s.blockno k :=
    fun j hj hdev heq => hj (h.unique j k _ ⟨hdev, heq⟩ hcaches)
  have hvalid : s.valid k = true := h.loaded k p hlock (by rw [hmode]; nofun)
  exact { h with
    counted := fun j => by
      show refcnt j = held s.refs j + if s'.Pinned j then 1 else 0
      by_cases heq : j = k
      · subst heq
        have hpin : s'.Pinned j := ⟨hcaches.1, (hpending _).mpr (.inr rfl)⟩
        rw [if_pos hpin, hself]
      · have hiff : s'.Pinned j ↔ s.Pinned j := by
          apply and_congr_right
          intro hdev
          exact (hpending _).trans (or_iff_left (hblockno j heq hdev))
        rw [hother j heq, h.counted j]
        simp only [hiff]
    loaded := fun j q hq hm => by
      by_cases heq : j = k
      · exact heq ▸ hvalid
      · exact h.loaded j q hq (hmodeOther j heq ▸ hm)
    faithful := fun j hdev hjv hm => by
      by_cases heq : j = k
      · subst heq
        exact hview.symm
      · rw [hmodeOther j heq] at hm
        exact (h.faithful j hdev hjv hm).trans (hviewOther _ (hblockno j heq hdev)).symm
    moved := fun j q src hq hm => by
      by_cases heq : j = k
      · rw [heq, show s'.mode k = .clean from update_self ..] at hm
        cases hm
      · rw [hmodeOther j heq] at hm
        exact absurd (h.moved j q src hq hm).1 (hidle q)
    settled := fun b hb => by
      rw [hpending, not_or] at hb
      exact (h.settled b hb.1).trans (hviewOther b hb.2).symm
    kept := fun b hb => by
      rcases (hpending b).mp hb with hb | rfl
      · exact h.kept b hb
      · exact ⟨k, hcaches, hvalid⟩
    apart := fun b hb => by
      have hne : b ≠ s.blockno k := fun heq => hhome (heq ▸ hb)
      exact (update_of_ne hne _ _).trans (h.apart b hb)
    fresh := fun b hb hnone => by
      have hnone : update s.logged (s.blockno k) (some (s.data k)) b = none := hnone
      rw [update_apply] at hnone
      split at hnone
      · cases hnone
      · exact h.fresh b hb hnone
    copied := fun t b ht => by
      have ht : t < s.written := ht
      omega
    fits := by
      have hlen := LogState.length_absorb_le (b := s.blockno k) s.log.lh
      rw [hlh]
      refine ⟨by omega, .inr (by omega), fun b hb => ?_⟩
      rcases LogState.mem_absorb.mp hb with hb | rfl
      · exact h.fits.home b hb
      · exact hhome
    nodup := by
      rw [hlh]
      exact LogState.nodup_absorb h.nodup
    commits := fun q hq => absurd ((hphase q).mp hq) (hidle q)
    alone := fun q _ hq => absurd ((hphase q).mp hq) (hidle q)
    quiet := fun hc => by
      rw [show log.committing = true from hc] at hcommitting
      rw [hfree] at hcommitting
      cases hcommitting
    rest := fun _ => h.rest hfree }

theorem logWrite (h : Inv lg disk₀ s) (hlock : s.lock k = some p) (hmode : s.mode k = .dirty)
    (hhome : ¬ lg.Has (s.blockno k)) (hok : logWrite lg s p k = .ok s') : Inv lg disk₀ s' := by
  have hcaches := h.caches_of_lock hlock
  have hcounted := h.counted k
  unfold Bio.logWrite at hok
  split at hok
  · cases hok
  · rename_i log hlog
    obtain ⟨⟨_, _, hout⟩, _⟩ := LogState.logWrite_ok hlog
    have hinstalled := (h.rest (h.not_committing (by omega))).2
    have hpin : s.Pinned k ↔ s.blockno k ∈ s.log.lh := by
      rw [State.Pinned, State.pending, hinstalled, drop_zero]
      exact and_iff_right hcaches.1
    split at hok
    · rename_i hmem
      cases hok
      rw [if_pos (hpin.mpr hmem)] at hcounted
      exact h.logWrite_core hlock hmode hhome hlog hcounted fun _ _ => rfl
    · rename_i hmem
      cases hok
      rw [if_neg (hpin.not.mpr hmem)] at hcounted
      apply h.logWrite_core hlock hmode hhome hlog
      · rw [update_self, hcounted]
      · exact fun j hj => update_of_ne hj _ _

/-! ## The writes of a commit -/

-- The header and the log blocks belong to the log alone.
theorem bwrite_log (h : Inv lg disk₀ s) (written : Nat) (hlock : s.lock k = some p)
    (hmode : s.mode k ≠ .unloaded) (hin : (s.log.phase p).InCommit) (hhas : lg.Has (s.blockno k))
    (hcopied : ∀ t b, t < written → s.log.lh[t]? = some b →
      update s.disk (s.blockno k) (s.data k) (lg.start + t + 1) = s.view b) :
    Inv lg disk₀ { s.setMode k .clean with
      disk := update s.disk (s.blockno k) (s.data k)
      written := written } := by
  have hcaches := h.caches_of_lock hlock
  set s' : State N := { s.setMode k .clean with
    disk := update s.disk (s.blockno k) (s.data k)
    written := written } with hs'
  have hdisk : s'.disk (s.blockno k) = s.data k := update_self ..
  have hdiskOther : ∀ c, c ≠ s.blockno k → s'.disk c = s.disk c :=
    fun c hc => update_of_ne hc _ _
  have hview : s'.view (s.blockno k) = s.data k := by
    rw [State.view, show s'.logged (s.blockno k) = none from h.apart _ hhas, Option.getD_none,
      hdisk]
  have hviewOther : ∀ c, c ≠ s.blockno k → s'.view c = s.view c := by
    intro c hc
    rw [State.view, hdiskOther c hc]
    rfl
  have hhome : ∀ b ∈ s.log.lh, b ≠ s.blockno k := fun b hb heq => h.fits.home b hb (heq ▸ hhas)
  have hmodeOther : ∀ j, j ≠ k → s'.mode j = s.mode j := fun j hj => update_of_ne hj _ _
  exact { h with
    loaded := fun j q hq hm => by
      by_cases heq : j = k
      · exact heq ▸ h.loaded k p hlock hmode
      · exact h.loaded j q hq (hmodeOther j heq ▸ hm)
    faithful := fun j hdev hjv hm => by
      by_cases heq : j = k
      · subst heq
        exact hview.symm
      · have hne : s.blockno j ≠ s.blockno k := fun hb => heq (h.unique j k _ ⟨hdev, hb⟩ hcaches)
        rw [hmodeOther j heq] at hm
        exact (h.faithful j hdev hjv hm).trans (hviewOther _ hne).symm
    moved := fun j q src hq hm => by
      by_cases heq : j = k
      · rw [heq, show s'.mode k = .clean from update_self ..] at hm
        cases hm
      · rw [hmodeOther j heq] at hm
        obtain ⟨hq', hmem, hdata⟩ := h.moved j q src hq hm
        exact ⟨hq', hmem, hdata.trans (hviewOther _ (hhome src hmem)).symm⟩
    settled := fun b hb => by
      by_cases heq : b = s.blockno k
      · rw [heq, hdisk, hview]
      · rw [hdiskOther b heq, hviewOther b heq]
        exact h.settled b hb
    fresh := fun b hb hnone => by
      have hne : b ≠ s.blockno k := fun heq => hb (heq ▸ hhas)
      rw [hdiskOther b hne]
      exact h.fresh b hb hnone
    copied := fun t b ht hb => by
      rw [hviewOther b (hhome b (mem_of_getElem? hb))]
      exact hcopied t b ht hb
    rest := fun hc => by cases (h.commits p hin).symm.trans hc }

theorem bwrite_head (h : Inv lg disk₀ s) (hlock : s.lock k = some p) (hmode : s.mode k ≠ .unloaded)
    (hin : (s.log.phase p).InCommit) (hhas : lg.Has lg.start) (hblockno : s.blockno k = lg.start) :
    Inv lg disk₀ { s.setMode k .clean with
      disk := update s.disk (s.blockno k) (s.data k) } := by
  apply h.bwrite_log s.written hlock hmode hin (hblockno ▸ hhas)
  intro t b ht hb
  rw [update_of_ne (by omega)]
  exact h.copied t b ht hb

theorem bwrite_copy (h : Inv lg disk₀ s) {b : Nat} (hlock : s.lock k = some p)
    (hmode : s.mode k = .moved b) (hb : s.log.lh[s.written]? = some b)
    (hblockno : s.blockno k = lg.start + s.written + 1) : Inv lg disk₀ { s.setMode k .clean with
      disk := update s.disk (s.blockno k) (s.data k)
      written := s.written + 1 } := by
  obtain ⟨hin, hmem, hdata⟩ := h.moved k p b hlock hmode
  have hlt : s.written < s.log.lh.length := (List.getElem?_eq_some_iff.mp hb).1
  apply h.bwrite_log (s.written + 1) hlock (by rw [hmode]; nofun) hin (hblockno ▸ h.fits.has hlt)
  intro t c ht hc
  by_cases heq : t = s.written
  · subst heq
    cases hb.symm.trans hc
    rwa [hblockno, update_self]
  · rw [update_of_ne (by omega)]
    exact h.copied t c (by omega) hc

-- The pin of the block becomes a reference of the committing process, which `bunpin` gives back.
theorem bwrite_install (h : Inv lg disk₀ s) {b : Nat} (hlock : s.lock k = some p)
    (hmode : s.mode k = .moved b) (hb : s.log.lh[s.installed]? = some b)
    (hblockno : s.blockno k = b) : Inv lg disk₀ { s.setMode k .clean with
      disk := update s.disk b (s.data k)
      refs := update s.refs p ((k, b) ::ₘ s.refs p)
      installed := s.installed + 1 } := by
  obtain ⟨hin, hmem, hdata⟩ := h.moved k p b hlock hmode
  have hhome : ¬ lg.Has b := h.fits.home b hmem
  have hcaches : s.Caches k b := hblockno ▸ h.caches_of_lock hlock
  obtain ⟨hlt, hget⟩ := List.getElem?_eq_some_iff.mp hb
  set s' : State N := { s.setMode k .clean with
    disk := update s.disk b (s.data k)
    refs := update s.refs p ((k, b) ::ₘ s.refs p)
    installed := s.installed + 1 } with hs'
  have hpending : s.pending = b :: s'.pending := by
    show s.log.lh.drop s.installed = b :: s.log.lh.drop (s.installed + 1)
    rw [drop_eq_getElem_cons hlt, hget]
  have hgone : b ∉ s'.pending := by
    have hnodup : s.pending.Nodup := h.nodup.sublist (drop_sublist _ _)
    rw [hpending] at hnodup
    exact (nodup_cons.mp hnodup).1
  have hdisk : s'.disk b = s.view b := (update_self ..).trans hdata
  have hdiskOther : ∀ c, c ≠ b → s'.disk c = s.disk c := fun c hc => update_of_ne hc _ _
  have hview : ∀ c, s'.view c = s.view c := by
    intro c
    by_cases heq : c = b
    · subst heq
      show (s.logged c).getD (s'.disk c) = _
      rw [hdisk, State.view]
      cases s.logged c <;> rfl
    · rw [State.view, hdiskOther c heq]
      rfl
  have hmodeOther : ∀ j, j ≠ k → s'.mode j = s.mode j := fun j hj => update_of_ne hj _ _
  have hlog : ∀ t, t < s.log.lh.length → lg.start + t + 1 ≠ b :=
    fun t ht heq => hhome (heq ▸ h.fits.has ht)
  exact { h with
    named := fun q x hx => by
      rcases mem_update_cons.mp hx with ⟨_, rfl⟩ | hx
      · exact hcaches
      · exact h.named q x hx
    counted := fun j => by
      show s.refcnt j = held (update _ _ _) j + if s'.Pinned j then 1 else 0
      rw [held_cons, h.counted j]
      by_cases heq : j = k
      · subst heq
        have hpin : s.Pinned j := ⟨hcaches.1, hpending ▸ hcaches.2 ▸ mem_cons_self⟩
        have hpin' : ¬ s'.Pinned j := fun hpin' => hgone (hcaches.2 ▸ hpin'.2)
        rw [if_pos hpin, if_neg hpin', if_pos rfl]
      · have hiff : s'.Pinned j ↔ s.Pinned j := by
          apply and_congr_right
          intro hdev
          have hne : s.blockno j ≠ b := fun hj => heq (h.unique j k b ⟨hdev, hj⟩ hcaches)
          rw [hpending, mem_cons, or_iff_right hne]
          rfl
        rw [if_neg (Ne.symm heq)]
        simp only [hiff, Nat.add_zero]
    holder := fun j q hq => mem_update_cons.mpr (.inr (h.holder j q hq))
    loaded := fun j q hq hm => by
      by_cases heq : j = k
      · exact heq ▸ h.loaded k p hlock (by simp [hmode])
      · exact h.loaded j q hq (hmodeOther j heq ▸ hm)
    faithful := fun j hdev hjv hm => by
      rw [hview]
      by_cases heq : j = k
      · subst heq
        exact hdata.trans (congrArg s.view hblockno.symm)
      · rw [hmodeOther j heq] at hm
        exact h.faithful j hdev hjv hm
    moved := fun j q src hq hm => by
      rw [hview]
      by_cases heq : j = k
      · rw [heq, show s'.mode k = .clean from update_self ..] at hm
        cases hm
      · rw [hmodeOther j heq] at hm
        exact h.moved j q src hq hm
    settled := fun c hc => by
      rw [hview]
      by_cases heq : c = b
      · rw [heq, hdisk]
      · rw [hdiskOther c heq]
        apply h.settled
        rw [hpending, mem_cons, not_or]
        exact ⟨heq, hc⟩
    kept := fun c hc => h.kept c (hpending ▸ mem_cons_of_mem b hc)
    fresh := fun c hc hnone => by
      have hold : s.disk c = disk₀ c := h.fresh c hc hnone
      by_cases heq : c = b
      · subst heq
        rw [hdisk, State.view, show s.logged c = none from hnone, Option.getD_none, hold]
      · rw [hdiskOther c heq, hold]
    copied := fun t c ht hc => by
      rw [hview, hdiskOther _ (hlog t (List.getElem?_eq_some_iff.mp hc).1)]
      exact h.copied t c ht hc
    rest := fun hc => by cases (h.commits p hin).symm.trans hc }

/-! ## `begin_op`, `end_op`, and the end of a commit -/

section

variable (h : Inv lg disk₀ s)
include h

-- Between two commits only `outstanding` and the phases of operations change.
theorem relog (log : LogState) (hlh : log.lh = s.log.lh)
    (hfree : s.log.committing = false) (hfree' : log.committing = false)
    (hphase : ∀ q, ¬ (log.phase q).InCommit) : Inv lg disk₀ { s with log := log } := by
  obtain ⟨lh, outstanding, committing, phase⟩ := log
  subst hlh
  exact { h with
    moved := fun j q src hq hm => by
      have hcommit := h.commits q (h.moved j q src hq hm).1
      rw [hfree] at hcommit
      cases hcommit
    commits := fun q hq => absurd hq (hphase q)
    alone := fun q _ hq => absurd hq (hphase q)
    quiet := fun hc => by
      cases hfree'.symm.trans hc
    rest := fun _ => h.rest hfree }

theorem not_inCommit (hfree : s.log.committing = false) (q : Nat) : ¬ (s.log.phase q).InCommit := by
  intro hq
  cases (h.commits q hq).symm.trans hfree

theorem not_inCommit_setPhase (hfree : s.log.committing = false) {q : Nat}
    {ph : OpPhase} (hph : ¬ ph.InCommit) (r : Nat) : ¬ ((s.log.setPhase q ph).phase r).InCommit :=
  fun hr => h.not_inCommit hfree r (LogState.inCommit_of_setPhase s.log hph hr)

theorem beginOp (hfree : s.log.committing = false)
    (hroom : ¬ s.log.lh.length + (s.log.outstanding + 1) * MAXOPBLOCKS > LOGSIZE) :
    Inv lg disk₀ { s with log := s.log.beginOp p } := by
  rw [LogState.beginOp_admitted hfree hroom]
  exact h.relog _ rfl hfree hfree
    fun r => h.not_inCommit_setPhase hfree (LogState.not_inCommit_inOp []) r

theorem startCommit (hfree : s.log.committing = false) (carried : Nat) : Inv lg disk₀ { s with
      log := { s.log.setPhase p .committing with outstanding := 0, committing := true }
      written := 0, installed := 0, carried := carried } := by
  obtain ⟨hwritten, hinstalled⟩ := h.rest hfree
  have hpending : s.pending = s.log.lh.drop 0 := by rw [State.pending, hinstalled]
  have hself : ∀ q, ((s.log.setPhase p .committing).phase q).InCommit → q = p := by
    intro q hq
    rw [LogState.setPhase_phase] at hq
    split at hq
    · assumption
    · exact absurd hq (h.not_inCommit hfree q)
  set s' : State N := { s with
    log := { s.log.setPhase p .committing with outstanding := 0, committing := true }
    written := 0, installed := 0, carried := carried } with hs'
  have hpending : s'.pending = s.pending := hpending.symm
  have hpinned : ∀ j, s'.Pinned j ↔ s.Pinned j := by
    intro j
    rw [State.Pinned, State.Pinned, hpending]
  exact { h with
    counted := fun j => by
      rw [h.counted j]
      simp only [hpinned]
      rfl
    moved := fun j q src hq hm => absurd (h.moved j q src hq hm).1 (h.not_inCommit hfree q)
    settled := fun b hb => h.settled b (hpending ▸ hb)
    kept := fun b hb => h.kept b (hpending ▸ hb)
    copied := fun t b ht => absurd ht (Nat.not_lt_zero t)
    commits := fun _ _ => rfl
    alone := fun q r hq hr => (hself q hq).trans (hself r hr).symm
    quiet := fun _ => rfl
    rest := fun hout => by cases hout }

-- Nothing is pending any more.
theorem clear (hin : (s.log.phase p).InCommit)
    (hclean : ∀ j, s.lock j = some p → s.mode j = .clean) (hdone : s.installed = s.log.lh.length) :
    Inv lg disk₀ { s with
      log := { s.log.setPhase p .cleared with lh := [] }, written := 0, installed := 0 } := by
  have hpending : s.pending = [] := by rw [State.pending, hdone, drop_length]
  have hphase : ∀ q, ((s.log.setPhase p .cleared).phase q).InCommit → (s.log.phase q).InCommit := by
    intro q hq
    rw [LogState.setPhase_phase] at hq
    split at hq
    · rename_i heq
      exact heq ▸ hin
    · exact hq
  set s' : State N := { s with
    log := { s.log.setPhase p .cleared with lh := [] }, written := 0, installed := 0 } with hs'
  have hpending' : s'.pending = s.pending := hpending.symm
  have hpinned : ∀ j, s'.Pinned j ↔ s.Pinned j := by
    intro j
    rw [State.Pinned, State.Pinned, hpending']
  exact { h with
    counted := fun j => by
      rw [h.counted j]
      simp only [hpinned]
      rfl
    moved := fun j q src hq hm => by
      have hlock : s.lock j = some q := hq
      obtain rfl := Fin.ext (h.alone q p (h.moved j q src hq hm).1 hin)
      cases (hclean j hlock).symm.trans hm
    settled := fun b hb => h.settled b (hpending' ▸ hb)
    kept := fun b hb => h.kept b (hpending' ▸ hb)
    copied := fun t b ht => absurd ht (Nat.not_lt_zero t)
    fits := ⟨Nat.zero_le _, .inl rfl, fun _ hb => by cases hb⟩
    nodup := nodup_nil
    commits := fun q hq => h.commits q (hphase q hq)
    alone := fun q r hq hr => h.alone q r (hphase q hq) (hphase r hr)
    rest := fun _ => ⟨rfl, rfl⟩ }

theorem finish (hin : (s.log.phase p).InCommit)
    (hclean : ∀ j, s.lock j = some p → s.mode j = .clean)
    (hdone : s.written = 0 ∧ s.installed = 0) :
    Inv lg disk₀ { s with log := { s.log.setPhase p .idle with committing := false } } := by
  have hphase : ∀ q, ¬ ((s.log.setPhase p .idle).phase q).InCommit := by
    intro q hq
    have hold := LogState.inCommit_of_setPhase s.log LogState.not_inCommit_idle hq
    rw [h.alone q p hold hin, LogState.setPhase_phase, if_pos rfl] at hq
    exact LogState.not_inCommit_idle hq
  exact { h with
    moved := fun j q src hq hm => by
      have hlock : s.lock j = some q := hq
      obtain rfl := Fin.ext (h.alone q p (h.moved j q src hq hm).1 hin)
      cases (hclean j hlock).symm.trans hm
    commits := fun q hq => absurd hq (hphase q)
    alone := fun q _ hq => absurd hq (hphase q)
    quiet := nofun
    rest := fun _ => hdone }

end

end Inv

end Bio

end OsProjects.Kernel
