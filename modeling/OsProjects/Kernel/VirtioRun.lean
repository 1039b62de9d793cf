import OsProjects.Kernel.VirtioInv

/-!
# VirtioRun — the bookkeeping of the disk driver in every run
-/

namespace OsProjects.Kernel.Virtio

open Function

open Lib

variable {P B : Type}

section Steps

variable {blockno : B → Nat} {s s' : State P B} {A U : List Nat} {p : P} {b : B} {r : Req B}

theorem State.Inv.withLocks (h : s.Inv A U) {locked : B → Option P}
    (hlocked : ∀ p b, (s.call p).buf? = some b → locked b = some p) :
    ({ s with locked := locked } : State P B).Inv A U :=
  { h with locked := hlocked, tracks := fun p r hp => { h.tracks p r hp with } }

variable [DecidableEq P]

theorem State.Inv.rw (h : s.Inv A U) {write : Bool} (hp : s.call p = .idle)
    (hlock : s.locked b = some p) : (s.setCall p (.starting b write)).Inv A U := by
  have hcall : ∀ {q r'}, update s.call p (.starting b write) q = .waiting r' ↔
      s.call q = .waiting r' := by
    intro q r'
    by_cases hqp : q = p
    · rw [hqp, update_self, hp]
      exact ⟨nofun, nofun⟩
    · rw [update_of_ne hqp]
  refine { h with
    flying := fun i hi => ?_
    tracks := fun q r' hq => { h.tracks q r' (hcall.mp hq) with }
    apart := fun q q' r' r'' hq hq' => h.apart q q' r' r'' (hcall.mp hq) (hcall.mp hq')
    cover := fun i hi => (h.cover i hi).imp_right fun ⟨q, r', hq, hir⟩ => ⟨q, r', hcall.mpr hq, hir⟩
    locked := fun q b' hq => ?_ }
  · obtain ⟨q, r', hq, hir⟩ := h.flying i hi
    exact ⟨q, r', hcall.mpr hq, hir⟩
  · have hq : (update s.call p (.starting b write) q).buf? = some b' := hq
    by_cases hqp : q = p
    · rw [hqp, update_self] at hq
      cases hq
      exact hqp ▸ hlock
    · rw [update_of_ne hqp] at hq
      exact h.locked q b' hq

variable [DecidableEq B]

theorem State.Inv.submit (h : s.Inv A U) {write : Bool} (hp : s.call p = .starting b write) :
    ∃ s' A', s.submit blockno p b write = .ok s' ∧ s'.Inv A' U ∧
      ∀ b', s.disk.busy b' = true → s'.disk.busy b' = true := by
  unfold State.submit
  rcases s.disk.alloc3Desc_cases with ⟨desc, hnone, hdesc⟩ | ⟨i0, i1, i2, hsome, hnodup, hfree⟩
  · rw [hnone]
    exact ⟨_, A, rfl, h.noDesc hdesc, fun _ hb => hb⟩
  · rw [hsome]
    refine ⟨_, A ++ [i0], rfl, h.submitted blockno hp hnodup hfree, fun b' hb => ?_⟩
    show update s.disk.busy b true b' = true
    by_cases heq : b' = b
    · rw [heq, update_self]
    · rw [update_of_ne heq, hb]

/-- What a step does: it waits, or it keeps the bookkeeping and all marks of busy buffers, or it is
a round of the interrupt handler that clears the mark of the request whose completion is next. -/
theorem State.Inv.step_cases (h : s.Inv A U) (e : Event P B) : s.step blockno e = .error .blocked ∨
    ∃ s' A' U', s.step blockno e = .ok s' ∧ s'.Inv A' U' ∧
      ((∀ b, s.disk.busy b = true → s'.disk.busy b = true) ∨
        e = .round ∧ ∃ p r, s.call p = .waiting r ∧
          s.completed[s.processed.length]? = some r.serial ∧
          s'.processed = s.processed ++ [r.serial] ∧
          s'.disk.busy = update s.disk.busy r.buf false) := by
  cases e with
  | acquiresleep p b =>
    by_cases hfree : s.locked b = none
    · refine .inr ⟨_, A, U, if_pos hfree, h.withLocks fun q b' hq => ?_, .inl fun _ hb => hb⟩
      have hlock := h.locked q b' hq
      have hne : b' ≠ b := by
        rintro rfl
        cases hfree.symm.trans hlock
      rw [update_of_ne hne, hlock]
    · exact .inl (if_neg hfree)
  | releasesleep p b =>
    simp only [State.step]
    cases hp : s.call p with
    | idle =>
      by_cases hlock : s.locked b = some p
      · refine .inr ⟨_, A, U, if_pos hlock, h.withLocks fun q b' hq => ?_, .inl fun _ hb => hb⟩
        have hlock' := h.locked q b' hq
        have hne : b' ≠ b := by
          rintro rfl
          cases hlock.symm.trans hlock'
          rw [hp] at hq
          cases hq
        rw [update_of_ne hne, hlock']
      · exact .inl (if_neg hlock)
    | starting b' write | waiting r => exact .inl rfl
  | rw p b write =>
    simp only [State.step]
    cases hp : s.call p with
    | idle =>
      by_cases hlock : s.locked b = some p
      · exact .inr ⟨_, A, U, if_pos hlock, h.rw hp hlock, .inl fun _ hb => hb⟩
      · exact .inl (if_neg hlock)
    | starting b' write | waiting r => exact .inl rfl
  | submit p =>
    simp only [State.step]
    cases hp : s.call p with
    | idle => exact .inl rfl
    | starting b write =>
      by_cases hhandling : s.handling = true
      · exact .inl (if_pos hhandling)
      · obtain ⟨s', A', hok, hinv, hbusy⟩ := @State.Inv.submit _ _ blockno _ _ _ _ _ _ _ h write hp
        exact .inr ⟨s', A', U, (if_neg hhandling).trans hok, hinv, .inl hbusy⟩
    | waiting r => exact .inl rfl
  | finish p =>
    simp only [State.step]
    cases hp : s.call p with
    | idle | starting b write => exact .inl rfl
    | waiting r =>
      by_cases hwait : s.handling = true ∨ s.disk.busy r.buf = true
      · exact .inl (if_pos hwait)
      · obtain ⟨d, hok, hbusy, -, hinv⟩ := h.finish hp (not_or.mp hwait).2
        exact .inr ⟨_, A, U, (if_neg hwait).trans hok, hinv, .inl fun b hb => hbusy ▸ hb⟩
  | intr =>
    by_cases hhandling : s.handling = true
    · exact .inl (if_pos hhandling)
    · exact .inr ⟨_, A, U, if_neg hhandling,
        { h with tracks := fun p r hp => { h.tracks p r hp with } }, .inl fun _ hb => hb⟩
  | round =>
    simp only [State.step]
    by_cases hhandling : s.handling = false
    · exact .inl (if_pos hhandling)
    rw [if_neg hhandling]
    by_cases hne : s.disk.usedSeen ≠ s.disk.usedIdx
    · obtain ⟨i, U', p, r, d, rfl, hp, rfl, hok, hd, hring, hinv⟩ := h.round hne
      have howner := (h.tracks p r hp).owner
      rw [if_pos hne, hok, hring]
      refine .inr ⟨_, A, U', rfl, hinv, .inr ⟨trivial, p, r, hp, ?_, by rw [howner], by rw [hd]⟩⟩
      rw [h.completed, List.map_cons, howner, List.getElem?_append_right (Nat.le_refl _),
        Nat.sub_self]
      rfl
    · rw [if_neg hne]
      exact .inr ⟨_, A, U, rfl, { h with tracks := fun p r hp => { h.tracks p r hp with } },
        .inl fun _ hb => hb⟩
  | fetch =>
    by_cases hne : s.device.fetched ≠ s.disk.availIdx
    · obtain ⟨A', hinv⟩ := h.fetch hne
      exact .inr ⟨_, A', U, if_pos hne, hinv, .inl fun _ hb => hb⟩
    · exact .inl (if_neg hne)
  | complete i =>
    by_cases hi : i ∈ s.device.working
    · exact .inr ⟨_, A, U ++ [i], if_pos hi, h.complete hi, .inl fun _ hb => hb⟩
    · exact .inl (if_neg hi)

theorem State.Reached.inv (h : State.Reached blockno s) : ∃ A U, s.Inv A U := by
  refine @Reach.invariant _ _ _ (State.step blockno) _ _ s (fun s => ∃ A U, s.Inv A U) h
    ⟨[], [], State.inv_init⟩ fun s e s' ⟨A, U, hs⟩ _ hok => ?_
  rcases @State.Inv.step_cases _ _ blockno _ _ _ _ _ hs e with hblocked | ⟨t, A', U', ht, hinv, -⟩
  · cases hblocked.symm.trans hok
  · cases ht.symm.trans hok
    exact ⟨A', U', hinv⟩

end Steps

/-- The bookkeeping of the driver, for the requests in flight and for those that the device has
completed. -/
structure State.Sound [DecidableEq P] [DecidableEq B] (blockno : B → Nat) (s : State P B) :
    Prop where
  chains : ∀ p r, s.call p = .waiting r → s.disk.Chain r
  disjoint : ∀ p q r r', s.call p = .waiting r → s.call q = .waiting r' → p ≠ q →
    r.idx.Disjoint r'.idx
  free_iff : ∀ i < NUM, s.disk.free i = true ↔ ¬∃ p r, s.call p = .waiting r ∧ i ∈ r.idx
  no_panic : ∀ e msg, s.step blockno e ≠ .error (.panic msg)
  /-- A buffer is cleared by a round of `virtio_disk_intr`, for the request that waits for it. -/
  cleared : ∀ e s' b, s.step blockno e = .ok s' → s.disk.busy b = true → s'.disk.busy b = false →
    e = .round ∧ ∃ p r, s.call p = .waiting r ∧ r.buf = b ∧
      s.completed[s.processed.length]? = some r.serial ∧ s'.processed = s.processed ++ [r.serial]
  /-- No request is completed twice, and the completions are processed in their order. -/
  once : s.completed.Nodup ∧ s.processed <+: s.completed
  pending : s.completed.length = s.processed.length + (s.disk.usedIdx - s.disk.usedSeen).toNat
  returns : ∀ p r s', s.call p = .waiting r → s.step blockno (.finish p) = .ok s' →
    s.reqs[r.serial]? = some r.buf ∧ r.serial ∈ s.processed ∧ r.serial ∈ s.completed

section Runs

variable [DecidableEq P] [DecidableEq B] {blockno : B → Nat} {s : State P B}

theorem driver_bookkeeping (h : State.Reached blockno s) : s.Sound blockno := by
  obtain ⟨A, U, hinv⟩ := h.inv
  have hcases := @State.Inv.step_cases _ _ blockno _ _ _ _ _ hinv
  have hsub : ∀ n ∈ s.processed, n ∈ s.completed := fun n hn => by
    rw [hinv.completed]
    exact List.mem_append_left _ hn
  refine ⟨fun p r hp => (hinv.tracks p r hp).chain,
    fun p q r r' hp hq hne => (hinv.apart p q r r' hp hq hne).1,
    fun i hi => ⟨?_, fun hnone => (hinv.cover i hi).resolve_right hnone⟩, fun e msg hpanic => ?_,
    fun e s' b hok hbusy hclear => ?_, ⟨hinv.once, U.map s.owner, hinv.completed.symm⟩, ?_,
    fun p r s' hp hok => ?_⟩
  · rintro hfree ⟨p, r, hp, hir⟩
    cases hfree.symm.trans ((hinv.tracks p r hp).chain.taken i hir)
  · rcases hcases e with hblocked | ⟨s', A', U', hok, -⟩
    · cases hblocked.symm.trans hpanic
    · cases hok.symm.trans hpanic
  · rcases hcases e with hblocked | ⟨t, A', U', ht, -,
      hkeep | ⟨rfl, p, r, hp, hnext, hprocessed, hupdate⟩⟩
    · cases hblocked.symm.trans hok
    · cases ht.symm.trans hok
      cases (hkeep b hbusy).symm.trans hclear
    · cases ht.symm.trans hok
      have hb : r.buf = b := by
        by_contra hne
        rw [hupdate, update_of_ne (Ne.symm hne), hbusy] at hclear
        cases hclear
      exact ⟨rfl, p, r, hp, hb, hnext, hprocessed⟩
  · rw [hinv.used.toNat_sub num_lt, hinv.completed, List.length_append, List.length_map]
  · simp only [State.step, hp] at hok
    by_cases hwait : s.handling = true ∨ s.disk.busy r.buf = true
    · rw [if_pos hwait] at hok
      cases hok
    · obtain ⟨-, -, -, hmem, -⟩ := hinv.finish hp (not_or.mp hwait).2
      exact ⟨(hinv.tracks p r hp).numbered, hmem, hsub _ hmem⟩

end Runs

theorem driver_bookkeeping_two : ∃ s : State Bool Bool, State.Reached (fun _ => 0) s ∧
    s.completed = [1, 0] ∧ s.processed = [1] ∧ s.Sound (fun _ => 0) := by
  obtain ⟨s, hs, hp⟩ := exists_reach_of_follow (State.step fun _ => 0) (fun _ _ => True)
    (State.init : State Bool Bool)
    [.acquiresleep true true, .acquiresleep false false, .rw true true true, .rw false false false,
      .submit true, .submit false, .fetch, .fetch, .complete 3, .intr, .round, .complete 0]
    (fun s => decide (s.completed = [1, 0] ∧ s.processed = [1])) (by decide +kernel)
  obtain ⟨hcompleted, hprocessed⟩ := of_decide_eq_true hp
  exact ⟨s, hs, hcompleted, hprocessed, driver_bookkeeping hs⟩

end OsProjects.Kernel.Virtio
