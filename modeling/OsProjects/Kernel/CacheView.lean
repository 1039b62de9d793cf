import OsProjects.Kernel.CacheCommit

/-!
# CacheView — the buffer cache is transparent

Every action of a process that keeps to the discipline keeps the invariant and leaves what the other
processes have alone.  So the invariant holds throughout every interleaving, and a `bread` that has
returned shows the view.
-/

namespace OsProjects.Kernel.Bio

open Lib Function

variable {N b : Nat} {lg : LogArea} {disk₀ : Disk} {s s' : State N} {p : Fin N} {k : Fin NBUF}
  {r : Unit} {a : Act}

/-! ## What the actions do to a process's knowledge -/

section Loc

variable {q : Fin N} {b : Nat} {m : Mode}

theorem hold_eq_some :
    (loc s p).hold k = some (b, m) ↔ s.lock k = some p ∧ s.blockno k = b ∧ s.mode k = m := by
  show (if s.lock k = some p then some (s.blockno k, s.mode k) else none) = some (b, m) ↔ _
  split
  · rename_i hlock
    rw [Option.some.injEq, Prod.mk.injEq]
    exact (and_iff_right hlock).symm
  · rename_i hlock
    exact iff_of_false nofun fun h => hlock h.1

theorem mem_stage {c : Stage} : c ∈ (loc s p).stage ↔
      (s.log.phase p).InCommit ∧ (⟨s.log.lh, s.written, s.installed, s.carried⟩ : Stage) = c := by
  show (if (s.log.phase p).InCommit then some _ else none) = some c ↔ _
  split
  · rename_i hin
    rw [Option.some.injEq]
    exact (and_iff_right hin).symm
  · rename_i hin
    exact iff_of_false nofun fun h => hin h.1

theorem stage_eq_none : (loc s p).stage = none ↔ ¬ (s.log.phase p).InCommit := by
  show (if (s.log.phase p).InCommit then some _ else none) = none ↔ _
  split
  · rename_i hin
    exact iff_of_false nofun fun h => h hin
  · rename_i hin
    exact iff_of_true rfl hin

theorem clean_iff : (loc s p).Clean ↔ ∀ j, s.lock j = some p → s.mode j = .clean := by
  constructor
  · intro h j hlock
    exact h j _ _ (hold_eq_some.mpr ⟨hlock, rfl, rfl⟩)
  · intro h j b m hhold
    obtain ⟨hlock, _, rfl⟩ := hold_eq_some.mp hhold
    exact h j hlock

theorem lock_ne (hlock : s.lock k = some p) (hq : q ≠ p) : s.lock k ≠ some q :=
  fun heq => hq (Option.some.inj (hlock.symm.trans heq)).symm

section Same

-- Of the buffers only `k` changes.
variable (hsame : ∀ j, j ≠ k →
  s'.lock j = s.lock j ∧ s'.blockno j = s.blockno j ∧ s'.mode j = s.mode j)
include hsame

theorem hold_of_same {v : Option (Nat × Mode)} (hk : (loc s' q).hold k = v) :
    (loc s' q).hold = update (loc s q).hold k v := by
  funext j
  by_cases hj : j = k
  · rw [hj, update_self, hk]
  · obtain ⟨hlock, hblockno, hmode⟩ := hsame j hj
    rw [update_of_ne hj]
    simp only [loc, hlock, hblockno, hmode]

theorem hold_frame (hk : s.lock k ≠ some q) (hk' : s'.lock k ≠ some q) :
    (loc s' q).hold = (loc s q).hold := by
  have hnone : (loc s q).hold k = none := if_neg hk
  rw [hold_of_same hsame (if_neg hk'), ← hnone, update_eq_self]

end Same

theorem loc_setMode (hlock : s.lock k = some p) (m : Mode) :
    loc (s.setMode k m) p = (loc s p).setHold k (s.blockno k) m := by
  refine Loc.ext rfl (hold_of_same (fun _ hj => ?_) ?_) rfl
  · exact ⟨rfl, rfl, update_of_ne hj ..⟩
  · exact hold_eq_some.mpr ⟨hlock, rfl, update_self ..⟩

theorem loc_setMode_of_ne (hlock : s.lock k = some p) (hq : q ≠ p) (m : Mode) :
    loc (s.setMode k m) q = loc s q :=
  Loc.ext rfl (hold_frame (fun _ hj => ⟨rfl, rfl, update_of_ne hj ..⟩) (lock_ne hlock hq)
    (lock_ne hlock hq)) rfl

end Loc

/-- Callers touch the contents of a buffer only while they hold its lock, and leave the blocks of
the log to `log.c`. -/
def Touches (lg : LogArea) (s : State N) (p : Fin N) : Act → Prop
  | .setData k _ | .logWrite k => s.lock k = some p ∧ ¬ lg.Has (s.blockno k)
  | _ => True

instance (lg : LogArea) (s : State N) (p : Fin N) : (a : Act) → Decidable (Touches lg s p a)
  | .setData k _ | .logWrite k =>
    inferInstanceAs (Decidable (s.lock k = some p ∧ ¬ lg.Has (s.blockno k)))
  | .bget _ | .acquiresleep _ | .load _ | .got _ _ | .bwrite _ | .releasesleep _ | .unref _
  | .bunpin _ | .memmove _ _ | .setHead _ | .beginOp | .endOp | .lh | .clear | .finish =>
    .isTrue trivial

/-! ## Each action -/

theorem exec_acquiresleep_ok (h : exec lg p (.acquiresleep k) s = .ok (r, s')) : s.lock k = none ∧
      s' = { s.setMode k .unloaded with lock := update s.lock k (some p) } := by
  cases hlock : s.lock k with
  | none =>
    simp only [exec, hlock] at h
    cases h
    exact ⟨rfl, rfl⟩
  | some q => simp only [exec, hlock, reduceCtorEq] at h

theorem exec_load_ok (h : exec lg p (.load k) s = .ok (r, s')) :
    s' = if s.valid k then s.setMode k .clean else { s.setMode k .clean with
      valid := update s.valid k true
      data := update s.data k (s.disk (s.blockno k)) } := by
  by_cases hvalid : s.valid k = true
  · simp only [exec, if_pos hvalid] at h
    cases h
    rw [if_pos hvalid]
  · simp only [exec, if_neg hvalid] at h
    cases h
    rw [if_neg hvalid]

theorem exec_logWrite_ok (h : exec lg p (.logWrite k) s = .ok (r, s')) :
    logWrite lg s p k = .ok s' := by
  cases hwrite : logWrite lg s p k with
  | error w => simp only [exec, hwrite, Except.map, reduceCtorEq] at h
  | ok t =>
    simp only [exec, hwrite, Except.map] at h
    cases h
    rfl

theorem exec_bwrite_ok (h : exec lg p (.bwrite k) s = .ok (r, s')) :
    s.lock k = some p ∧ s' = bwrite lg s p k := by
  by_cases hlock : s.lock k = some p
  · simp only [exec, if_neg (not_not.mpr hlock)] at h
    cases h
    exact ⟨hlock, rfl⟩
  · simp only [exec, if_pos hlock, reduceCtorEq] at h

theorem exec_releasesleep_ok (h : exec lg p (.releasesleep k) s = .ok (r, s')) :
    s.lock k = some p ∧ s' = { s with lock := update s.lock k none } := by
  by_cases hlock : s.lock k = some p
  · simp only [exec, if_neg (not_not.mpr hlock)] at h
    cases h
    exact ⟨hlock, rfl⟩
  · simp only [exec, if_pos hlock, reduceCtorEq] at h

theorem exec_beginOp_ok (h : exec lg p .beginOp s = .ok (r, s')) : s.log.committing = false ∧
      ¬ s.log.lh.length + (s.log.outstanding + 1) * MAXOPBLOCKS > LOGSIZE ∧
      s' = { s with log := s.log.beginOp p } := by
  by_cases hblocked :
      s.log.committing ∨ s.log.lh.length + (s.log.outstanding + 1) * MAXOPBLOCKS > LOGSIZE
  · simp only [exec, if_pos hblocked, reduceCtorEq] at h
  · simp only [exec, if_neg hblocked] at h
    cases h
    rw [not_or] at hblocked
    exact ⟨Bool.eq_false_of_not_eq_true hblocked.1, hblocked.2, rfl⟩

theorem exec_endOp_ok {r : Bool} (h : exec lg p .endOp s = .ok (r, s')) : s.log.committing = false ∧
      ((s.log.outstanding - 1 = 0 ∧ r = true ∧ s' = { s with
        log := { s.log.setPhase p .committing with
          outstanding := s.log.outstanding - 1, committing := true }
        written := 0, installed := 0, carried := (s.refs p).card }) ∨
      (r = false ∧ s' = { s with
        log := { s.log.setPhase p .idle with outstanding := s.log.outstanding - 1 } })) := by
  by_cases hfree : s.log.committing = true
  · have hlog : s.log.endOp p = .error "log.committing" := if_pos hfree
    simp only [exec, hlog, reduceCtorEq] at h
  · refine ⟨Bool.eq_false_of_not_eq_true hfree, ?_⟩
    by_cases hlast : s.log.outstanding - 1 = 0
    · have hlog : s.log.endOp p = .ok { s.log.setPhase p .committing with
          outstanding := s.log.outstanding - 1, committing := true } :=
        (if_neg hfree).trans (if_pos hlast)
      simp only [exec, hlog, if_true] at h
      cases h
      exact .inl ⟨hlast, rfl, rfl⟩
    · have hlog : s.log.endOp p = .ok { s.log.setPhase p .idle with
          outstanding := s.log.outstanding - 1 } := (if_neg hfree).trans (if_neg hlast)
      simp only [exec, hlog] at h
      cases (if_neg (show ¬ (s.log.setPhase p .idle).committing = true from hfree)).symm.trans h
      exact .inr ⟨rfl, rfl⟩

-- One action: the invariant, what the process has then, and what the others have.
def Good (lg : LogArea) (disk₀ : Disk) (s : State N) (p : Fin N) (a : Act) (r : Reply a)
    (s' : State N) : Prop :=
  Inv lg disk₀ s' ∧ post lg a (loc s p) r (loc s' p) ∧ ∀ q, q ≠ p → loc s' q = loc s q

variable {r : Reply a} {s₀ : State N}

namespace Inv

theorem good_bget (h : Inv lg disk₀ s) (hok : bget s p b = .ok (k, s')) :
    Good lg disk₀ s p (.bget b) k s' := by
  unfold Bio.bget at hok
  split at hok
  · rename_i j hfind
    obtain ⟨rfl, rfl⟩ := Prod.mk.inj (Except.ok.inj hok)
    have hcaches : s.Caches j b := of_decide_eq_true (List.find?_some hfind :)
    refine ⟨h.bget_hit hcaches, ?_, fun q hq => ?_⟩
    · exact Loc.ext (update_self ..) rfl rfl
    · exact Loc.ext (update_of_ne hq ..) rfl rfl
  · rename_i hmiss
    split at hok
    · rename_i j hfind
      obtain ⟨rfl, rfl⟩ := Prod.mk.inj (Except.ok.inj hok)
      have hfree : s.refcnt j = 0 := of_decide_eq_true (List.find?_some hfind :)
      have hmiss : ∀ i, ¬ s.Caches i b := by
        intro i hi
        exact absurd (decide_eq_true hi) (List.find?_eq_none.mp hmiss i (h.order i))
      have hunlocked : ∀ q, s.lock j ≠ some q := by
        intro q hlock
        have hpos := held_pos (h.holder j q hlock)
        have hcount := h.counted j
        dsimp only at hpos
        omega
      refine ⟨h.bget_miss hmiss hfree, Loc.ext (update_self ..) ?_ rfl, fun q hq =>
        Loc.ext (update_of_ne hq ..) ?_ rfl⟩
      all_goals exact hold_frame (fun i hi =>
        ⟨rfl, update_of_ne hi .., rfl⟩) (hunlocked _) (hunlocked _)
    · cases hok

theorem good_acquiresleep (h : Inv lg disk₀ s) (hfree : s.lock k = none)
    (hpre : ∃ b, (k, b) ∈ s.refs p) : Good lg disk₀ s p (.acquiresleep k) ()
      { s.setMode k .unloaded with lock := update s.lock k (some p) } := by
  have hblockno : ∀ b, (k, b) ∈ s.refs p → s.blockno k = b := fun b hmem => (h.named p _ hmem).2
  obtain ⟨b, hmem⟩ := hpre
  have hne : ∀ q, s.lock k ≠ some q := fun q => by rw [hfree]; nofun
  refine ⟨h.acquiresleep hfree (hblockno b hmem ▸ hmem), ⟨if_neg (hne p), fun c hc => ?_⟩,
    fun q hq => ?_⟩
  · refine Loc.ext rfl (hold_of_same (fun _ hj => ?_) ?_) rfl
    · exact ⟨update_of_ne hj .., rfl, update_of_ne hj ..⟩
    · exact hold_eq_some.mpr ⟨update_self .., hblockno c hc, update_self ..⟩
  · exact Loc.ext rfl (hold_frame (fun _ hj => ⟨update_of_ne hj .., rfl, update_of_ne hj ..⟩)
      (hne q) (lock_ne (update_self ..) hq)) rfl

theorem good_releasesleep (h : Inv lg disk₀ s) (hlock : s.lock k = some p)
    (hpre : ∀ b m, (loc s p).hold k = some (b, m) → m = .clean) :
    Good lg disk₀ s p (.releasesleep k) () { s with lock := update s.lock k none } := by
  have hhold : (loc s p).hold k = some (s.blockno k, s.mode k) :=
    hold_eq_some.mpr ⟨hlock, rfl, rfl⟩
  have hclean : s.mode k = .clean := hpre _ _ hhold
  have hfree : ∀ q, update s.lock k none k ≠ some q := fun q => by rw [update_self]; nofun
  refine ⟨h.releasesleep hclean, ⟨s.blockno k, hclean ▸ hhold, h.holder k p hlock, ?_⟩,
    fun q hq => ?_⟩
  · refine Loc.ext rfl (hold_of_same (fun _ hj => ?_) ?_) rfl
    · exact ⟨update_of_ne hj .., rfl, rfl⟩
    · exact if_neg (hfree p)
  · exact Loc.ext rfl (hold_frame (fun _ hj => ⟨update_of_ne hj .., rfl, rfl⟩) (lock_ne hlock hq)
      (hfree q)) rfl

theorem loc_dropRef (h : Inv lg disk₀ s) (hmem : (k, b) ∈ s.refs p) :
    loc (Bio.dropRef s p k) p = { loc s p with refs := (s.refs p).erase (k, b) } := by
  have hblockno : s.blockno k = b := (h.named p _ hmem).2
  refine Loc.ext ?_ rfl rfl
  show update s.refs p _ p = _
  rw [update_self, hblockno]

theorem loc_dropRef_of_ne {q : Fin N} (hq : q ≠ p) : loc (Bio.dropRef s p k) q = loc s q :=
  Loc.ext (update_of_ne hq ..) rfl rfl

theorem good_unref (h : Inv lg disk₀ s) (hnone : (loc s p).hold k = none)
    (hpre : ∃ b, (k, b) ∈ s.refs p) : Good lg disk₀ s p (.unref k) () (Bio.unref s p k) := by
  have hlock : s.lock k ≠ some p := fun hlock => by
    cases hnone.symm.trans (hold_eq_some.mpr ⟨hlock, rfl, rfl⟩)
  obtain ⟨b, hmem⟩ := hpre
  have hblockno : s.blockno k = b := (h.named p _ hmem).2
  have hloc : ∀ q, loc (Bio.unref s p k) q = loc (Bio.dropRef s p k) q := by
    intro q
    unfold Bio.unref
    split <;> rfl
  refine ⟨h.unref (hblockno ▸ hmem) hlock, fun c hc => ?_, fun q hq => ?_⟩
  · exact (hloc p).trans (h.loc_dropRef hc)
  · exact (hloc q).trans (loc_dropRef_of_ne hq)

theorem good_bunpin (h : Inv lg disk₀ s)
    (hpre : ∃ b m, (loc s p).hold k = some (b, m) ∧ 2 ≤ (s.refs p).count (k, b)) :
    Good lg disk₀ s p (.bunpin k) () (Bio.dropRef s p k) := by
  obtain ⟨b, m, hhold, htwo⟩ := hpre
  obtain ⟨_, rfl, _⟩ := hold_eq_some.mp hhold
  have hmem : (k, s.blockno k) ∈ s.refs p := Multiset.count_pos.mp (by omega)
  have hmore : (k, s.blockno k) ∈ (s.refs p).erase (k, s.blockno k) := by
    rw [← Multiset.count_pos, Multiset.count_erase_self]
    omega
  exact ⟨h.dropRef hmem fun _ => hmore, fun c hc => h.loc_dropRef hc,
    fun q hq => loc_dropRef_of_ne hq⟩

-- Actions that only change the contents and the mode of a buffer that the process holds.
theorem good_mode (hinv : Inv lg disk₀ s') (hlock : s.lock k = some p)
    (m : Mode) (hloc : ∀ q, loc s' q = loc (s.setMode k m) q)
    (hpost : post lg a (loc s p) r ((loc s p).setHold k (s.blockno k) m)) :
    Good lg disk₀ s p a r s' := by
  refine ⟨hinv, ?_, fun q hq => ?_⟩
  · rwa [hloc, loc_setMode hlock]
  · rw [hloc, loc_setMode_of_ne hlock hq]

section

variable (h : Inv lg disk₀ s)
include h

theorem good_load (hpre : ∃ b, (loc s p).hold k = some (b, .unloaded)) :
    Good lg disk₀ s p (.load k) () (if s.valid k then s.setMode k .clean else
      { s.setMode k .clean with
        valid := update s.valid k true
        data := update s.data k (s.disk (s.blockno k)) }) := by
  obtain ⟨b, hhold⟩ := hpre
  obtain ⟨hlock, rfl, hmode⟩ := hold_eq_some.mp hhold
  refine good_mode (h.load hlock hmode) hlock .clean (fun q => ?_) fun c m hc => ?_
  · split <;> rfl
  · rw [(hold_eq_some.mp hc).2.1]

theorem good_setData {data : Block} (hlock : s.lock k = some p)
    (hpre : (loc s p).Idle) : Good lg disk₀ s p (.setData k data) ()
      { s.setMode k .dirty with data := update s.data k data } := by
  have hmode := clean_iff.mp hpre.1 k hlock
  have hvalid := h.loaded k p hlock (by rw [hmode]; nofun)
  refine good_mode (h.change_valid hlock hvalid nofun nofun nofun) hlock .dirty (fun _ => rfl) ?_
  exact ⟨_, hold_eq_some.mpr ⟨hlock, rfl, hmode⟩, rfl⟩

theorem good_setHead (hpre : (loc s p).hold k = some (lg.start, .clean)) :
    Good lg disk₀ s p (.setHead k) () { s.setMode k .dirty with
      data := update s.data k (packHead (s.data k) s.log.lh) } := by
  obtain ⟨hlock, hblockno, hmode⟩ := hold_eq_some.mp hpre
  have hvalid := h.loaded k p hlock (by rw [hmode]; nofun)
  refine good_mode (h.change_valid hlock hvalid nofun nofun nofun) hlock .dirty (fun _ => rfl) ?_
  intro b m hhold
  rw [(hold_eq_some.mp hhold).2.1]

theorem good_memmove {dst src : Fin NBUF}
    (hpre : ∃ c ∈ (loc s p).stage, Copies lg (loc s p) c dst src) :
    Good lg disk₀ s p (.memmove dst src) () { s.setMode dst (.moved (source lg s src)) with
      data := update s.data dst (s.data src) } := by
  obtain ⟨c, hc, hcopies⟩ := hpre
  obtain ⟨hin, rfl⟩ := mem_stage.mp hc
  have hlock : s.lock dst = some p ∧ s.valid dst = true := by
    rcases hcopies with ⟨b, _, _, hdst⟩ | ⟨b, _, _, _, hdst⟩
    all_goals
      obtain ⟨hlock, _, hmode⟩ := hold_eq_some.mp hdst
      exact ⟨hlock, h.loaded dst p hlock (by simp [hmode])⟩
  have hsrc : ∀ b, (loc s p).hold src = some (b, .clean) → s.data src = s.view b := by
    intro b hhold
    obtain ⟨hl, rfl, hm⟩ := hold_eq_some.mp hhold
    exact h.faithful src (h.caches_of_lock hl).1 (h.loaded src p hl (by simp [hm]))
      (.inr (.inr hm))
  have hmoved : source lg s src ∈ s.log.lh ∧ s.data src = s.view (source lg s src) := by
    rcases hcopies with ⟨b, hb, hhold, _⟩ | ⟨b, hb, hwritten, hhold, _⟩
    · have hmem := List.mem_of_getElem? hb
      have heq : source lg s src = b := by
        rw [source, (hold_eq_some.mp hhold).2.1, if_neg (h.fits.home b hmem)]
      rw [heq]
      exact ⟨hmem, hsrc b hhold⟩
    · have hlt : s.installed < s.log.lh.length := (List.getElem?_eq_some_iff.mp hb).1
      have hhas := h.fits.has hlt
      have heq : source lg s src = b := by
        rw [source, (hold_eq_some.mp hhold).2.1, if_pos hhas, List.getD_eq_getElem?_getD, hb,
          Option.getD_some]
      have hview : s.view (lg.start + s.installed + 1) = s.disk (lg.start + s.installed + 1) := by
        rw [State.view, h.apart _ hhas, Option.getD_none]
      have hwritten : s.written = s.log.lh.length := hwritten
      rw [heq, hsrc _ hhold, hview]
      exact ⟨List.mem_of_getElem? hb, h.copied s.installed b (by omega) hb⟩
  have hchange : Inv lg disk₀ { s.setMode dst (.moved (source lg s src)) with
      data := update s.data dst (s.data src) } := by
    refine h.change_valid hlock.1 hlock.2 (by simp) (by simp) fun b hb => ?_
    cases hb
    exact ⟨hin, hmoved⟩
  refine good_mode hchange hlock.1 _ (fun _ => rfl) ?_
  intro c' hc' b m b' m' hdst hhold
  obtain ⟨_, rfl⟩ := mem_stage.mp hc'
  rw [(hold_eq_some.mp hdst).2.1, ← (hold_eq_some.mp hhold).2.1]
  rfl

theorem good_logWrite (hlock : s.lock k = some p)
    (hhome : ¬ lg.Has (s.blockno k)) (hdirty : ∃ b, (loc s p).hold k = some (b, .dirty))
    (hok : Bio.logWrite lg s p k = .ok s') : Good lg disk₀ s p (.logWrite k) () s' := by
  obtain ⟨b, hhold⟩ := hdirty
  obtain ⟨_, rfl, hmode⟩ := hold_eq_some.mp hhold
  have hinv := h.logWrite hlock hmode hhome hok
  refine good_mode hinv hlock .clean (fun q => ?_) fun c m hc => ?_
  · unfold Bio.logWrite at hok
    split at hok
    · cases hok
    · rename_i log hlog
      obtain ⟨⟨_, _, hout⟩, _, _, _, hphase⟩ := LogState.logWrite_ok hlog
      have hidle := h.not_inCommit (h.not_committing (by omega)) q
      have hstage : (if (log.phase q).InCommit then
          some (⟨log.lh, s.written, s.installed, s.carried⟩ : Stage) else none) =
            (loc s q).stage := by
        rw [if_neg ((hphase q).inCommit.not.mpr hidle)]
        exact (stage_eq_none.mpr hidle).symm
      split at hok <;> cases hok <;> exact Loc.ext rfl rfl hstage
  · rw [(hold_eq_some.mp hc).2.1]

-- The process is the only one that commits.
theorem others (hin : (s.log.phase p).InCommit) {q : Fin N} (hq : q ≠ p) :
    ¬ (s.log.phase q).InCommit :=
  fun hq' => hq (Fin.ext (h.alone q p hq' hin))

theorem good_bwrite (hlock : s.lock k = some p)
    (hpre : ∃ c ∈ (loc s p).stage, Writes lg (loc s p) c k) :
    Good lg disk₀ s p (.bwrite k) () (Bio.bwrite lg s p k) := by
  obtain ⟨c, hc, hwrites⟩ := hpre
  obtain ⟨hin, rfl⟩ := mem_stage.mp hc
  have hpost : ∀ (s' : State N) (l' : Loc), loc s' p = l' →
      l' = afterWrite lg (loc s p) ⟨s.log.lh, s.written, s.installed, s.carried⟩ k (s.blockno k) →
      post lg (.bwrite k) (loc s p) () (loc s' p) := by
    rintro s' l' rfl heq c' hc' b m hhold
    obtain ⟨_, rfl⟩ := mem_stage.mp hc'
    rwa [← (hold_eq_some.mp hhold).2.1]
  have hstage : ∀ (q : Fin N) (x : Stage), q ≠ p →
      (if (s.log.phase q).InCommit then some x else none) = (loc s q).stage := by
    intro q x hq
    rw [if_neg (h.others hin hq)]
    exact (stage_eq_none.mpr (h.others hin hq)).symm
  have hset := loc_setMode hlock .clean
  have hhold' := congrArg Loc.hold hset
  have hframe : ∀ q, q ≠ p → (loc (s.setMode k .clean) q).hold = (loc s q).hold :=
    fun q hq => congrArg Loc.hold (loc_setMode_of_ne hlock hq .clean)
  rcases hwrites with ⟨hhas, hhold⟩ | ⟨b, hb, hhold⟩ | ⟨b, hb, hwritten, hhold⟩
  · obtain ⟨_, hblockno, hmode⟩ := hold_eq_some.mp hhold
    have hinv := h.bwrite_head hlock (by rw [hmode]; nofun) hin hhas hblockno
    have heq : Bio.bwrite lg s p k = { s.setMode k .clean with
        disk := update s.disk (s.blockno k) (s.data k) } := if_pos hblockno
    rw [heq]
    refine ⟨hinv, hpost _ _ hset ?_, fun q hq => loc_setMode_of_ne hlock hq .clean⟩
    rw [afterWrite, if_pos hblockno]
  · obtain ⟨_, hblockno, hmode⟩ := hold_eq_some.mp hhold
    have hinv := h.bwrite_copy hlock hmode hb hblockno
    have hhas : lg.Has (s.blockno k) := hblockno ▸ h.fits.has (List.getElem?_eq_some_iff.mp hb).1
    have hne : s.blockno k ≠ lg.start := by
      omega
    have heq : Bio.bwrite lg s p k = { s.setMode k .clean with
        disk := update s.disk (s.blockno k) (s.data k)
        written := s.written + 1 } := (if_neg hne).trans (if_pos hhas)
    rw [heq]
    refine ⟨hinv, hpost _ _ rfl ?_, fun q hq => ?_⟩
    · rw [afterWrite, if_neg hne, if_pos hhas]
      exact Loc.ext rfl hhold' (if_pos hin)
    · exact Loc.ext rfl (hframe q hq) (hstage q _ hq)
  · obtain ⟨_, hblockno, hmode⟩ := hold_eq_some.mp hhold
    have hinv := h.bwrite_install hlock hmode hb hblockno
    have hhome : ¬ lg.Has (s.blockno k) := hblockno ▸ h.fits.home b (List.mem_of_getElem? hb)
    have hne : s.blockno k ≠ lg.start := by
      intro heq
      have hhas := h.fits.has (List.getElem?_eq_some_iff.mp hb).1
      unfold LogArea.Has at hhome hhas
      omega
    have heq : Bio.bwrite lg s p k = { s.setMode k .clean with
        disk := update s.disk b (s.data k)
        refs := update s.refs p ((k, b) ::ₘ s.refs p)
        installed := s.installed + 1 } := by
      rw [← hblockno]
      exact (if_neg hne).trans (if_neg hhome)
    rw [heq]
    refine ⟨hinv, hpost _ _ rfl ?_, fun q hq => ?_⟩
    · rw [afterWrite, if_neg hne, if_neg hhome, hblockno]
      rw [hblockno] at hhold'
      exact Loc.ext (update_self ..) hhold' (if_pos hin)
    · exact Loc.ext (update_of_ne hq ..) (hframe q hq) (hstage q _ hq)

-- No process commits before or after.
theorem good_relog {log : LogState}
    (hfree : s.log.committing = false) (hinv : Inv lg disk₀ { s with log := log })
    (hfree' : log.committing = false) (hpost : post lg a (loc s p) r (loc s p)) :
    Good lg disk₀ s p a r { s with log := log } := by
  have hloc : ∀ q : Fin N, loc { s with log := log } q = loc s q := by
    intro q
    refine Loc.ext rfl rfl ?_
    rw [stage_eq_none.mpr (hinv.not_inCommit hfree' q), stage_eq_none.mpr (h.not_inCommit hfree q)]
  refine ⟨hinv, ?_, fun q _ => hloc q⟩
  rwa [hloc]

theorem good_endOp {r : Bool} (hok : exec lg p .endOp s = .ok (r, s')) :
    Good lg disk₀ s p .endOp r s' := by
  obtain ⟨hfree, ⟨hlast, rfl, rfl⟩ | ⟨rfl, rfl⟩⟩ := exec_endOp_ok hok
  · have hinv := h.startCommit (p := p) hfree (s.refs p).card
    rw [← hlast] at hinv
    refine ⟨hinv, ?_, fun q hq => ?_⟩
    · refine ⟨s.log.lh, h.fits.rounds, h.fits.area, h.fits.home, ?_⟩
      refine Loc.ext rfl rfl (if_pos ?_)
      show (update s.log.phase _ _ _).InCommit
      rw [update_self]
      exact .inl rfl
    · refine Loc.ext rfl rfl ((stage_eq_none.mpr ?_).trans
        (stage_eq_none.mpr (h.not_inCommit hfree q)).symm)
      show ¬ (update s.log.phase _ _ _).InCommit
      rw [update_of_ne fun heq => hq (Fin.ext heq)]
      exact h.not_inCommit hfree q
  · have hinv := h.relog { s.log.setPhase p .idle with
        outstanding := s.log.outstanding - 1 } rfl hfree hfree
      fun q => h.not_inCommit_setPhase hfree LogState.not_inCommit_idle q
    exact h.good_relog hfree hinv hfree rfl

theorem good_clear (hpre : (loc s p).Clean ∧ ∃ c ∈ (loc s p).stage, c.installed = c.lh.length) :
    Good lg disk₀ s p .clear () { s with
      log := { s.log.setPhase p .cleared with lh := [] }, written := 0, installed := 0 } := by
  obtain ⟨hclean, c, hc, hdone⟩ := hpre
  obtain ⟨hin, rfl⟩ := mem_stage.mp hc
  refine ⟨h.clear hin (clean_iff.mp hclean) hdone, fun c' hc' => ?_, fun q hq => ?_⟩
  · obtain ⟨_, rfl⟩ := mem_stage.mp hc'
    refine Loc.ext rfl rfl (if_pos ?_)
    show (update s.log.phase _ _ _).InCommit
    rw [update_self]
    exact .inr rfl
  · have hother := h.others hin hq
    refine Loc.ext rfl rfl ((stage_eq_none.mpr ?_).trans (stage_eq_none.mpr hother).symm)
    show ¬ (update s.log.phase _ _ _).InCommit
    rwa [update_of_ne fun heq => hq (Fin.ext heq)]

theorem good_finish (hpre : (loc s p).Clean ∧
    (loc s p).stage = some ⟨[], 0, 0, (loc s p).refs.card⟩) : Good lg disk₀ s p .finish () { s with
      log := { s.log.setPhase p .idle with committing := false } } := by
  obtain ⟨hin, hstage⟩ := mem_stage.mp hpre.2
  have hdone : s.written = 0 ∧ s.installed = 0 := by
    injection hstage with _ hwritten hinstalled
    exact ⟨hwritten, hinstalled⟩
  have hinv := h.finish hin (clean_iff.mp hpre.1) hdone
  refine ⟨hinv, ?_, fun q hq => ?_⟩
  · exact Loc.ext rfl rfl (stage_eq_none.mpr (hinv.not_inCommit rfl p))
  · exact Loc.ext rfl rfl ((stage_eq_none.mpr (hinv.not_inCommit rfl q)).trans
      (stage_eq_none.mpr (h.others hin hq)).symm)

end

end Inv

theorem good (h : Inv lg disk₀ s) (hallowed : Touches lg s p a)
    (hpre : pre lg a (loc s p)) (hok : exec lg p a s = .ok (r, s')) : Good lg disk₀ s p a r s' := by
  cases a with
  | bget b => exact h.good_bget hok
  | acquiresleep k =>
    obtain ⟨hfree, rfl⟩ := exec_acquiresleep_ok hok
    exact h.good_acquiresleep hfree hpre
  | load k =>
    obtain rfl := exec_load_ok hok
    exact h.good_load hpre
  | got k b =>
    cases hok
    exact ⟨h, rfl, fun _ _ => rfl⟩
  | setData k data =>
    cases hok
    exact h.good_setData hallowed.1 hpre
  | logWrite k => exact h.good_logWrite hallowed.1 hallowed.2 hpre.1 (exec_logWrite_ok hok)
  | bwrite k =>
    obtain ⟨hlock, rfl⟩ := exec_bwrite_ok hok
    exact h.good_bwrite hlock hpre
  | releasesleep k =>
    obtain ⟨hlock, rfl⟩ := exec_releasesleep_ok hok
    exact h.good_releasesleep hlock hpre
  | unref k =>
    cases hok
    exact h.good_unref hpre.1 hpre.2
  | bunpin k =>
    cases hok
    exact h.good_bunpin hpre
  | memmove dst src =>
    cases hok
    exact h.good_memmove hpre
  | setHead k =>
    cases hok
    exact h.good_setHead hpre.2
  | beginOp =>
    obtain ⟨hfree, hroom, rfl⟩ := exec_beginOp_ok hok
    have hfree' : (s.log.beginOp p).committing = false := by
      rwa [LogState.beginOp_admitted hfree hroom]
    exact h.good_relog hfree (h.beginOp hfree hroom) hfree' rfl
  | endOp => exact h.good_endOp hok
  | lh =>
    cases hok
    refine ⟨h, ⟨rfl, fun c hc => ?_⟩, fun _ _ => rfl⟩
    rw [← (mem_stage.mp hc).2]
  | clear =>
    cases hok
    exact h.good_clear hpre
  | finish =>
    cases hok
    exact h.good_finish hpre

theorem sound (lg : LogArea) (disk₀ : Disk) : (discipline lg).Sound (exec lg) (Touches (N := N) lg)
      fun s locs => Inv lg disk₀ s ∧ locs = loc s := by
  intro s locs p a r s' h hallowed hpre hok
  obtain ⟨h, rfl⟩ := h
  obtain ⟨hinv, hpost, hframe⟩ := good h hallowed hpre hok
  refine ⟨loc s' p, hpost, hinv, funext fun q => ?_⟩
  by_cases hq : q = p
  · rw [hq, update_self]
  · rw [update_of_ne hq, hframe q hq]

/-! ## Every interleaving -/

/-- The states of the interleavings of calls that keep to `Touches`. -/
abbrev Runs (lg : LogArea) (s₀ : State N) :
    Config (State N) (Fin N) Act Reply Unit → Prop :=
  Reach (Config.step (exec lg) (Call.code lg)) (Config.Admits (Touches lg)) ⟨s₀, fun _ => none⟩

theorem State.Booted.idle (h : s₀.Booted) (p : Fin N) : (loc s₀ p).Idle := by
  constructor
  · rw [clean_iff]
    intro j hlock
    rw [h.lock] at hlock
    cases hlock
  · rw [stage_eq_none, h.log]
    exact LogState.not_inCommit_idle

theorem Runs.inv {c : Config (State N) (Fin N) Act Reply Unit} (h : Runs lg s₀ c)
    (hboot : s₀.Booted) :
    Inv lg s₀.disk c.shared ∧ (discipline lg).Kept Loc.Idle (loc c.shared) c := by
  obtain ⟨_, ⟨hinv, rfl⟩, hkept⟩ :=
    (sound lg s₀.disk).reach keeps_code ⟨hboot.inv lg, rfl⟩ hboot.idle h
  exact ⟨hinv, hkept⟩

theorem Inv.bget_keeps_pinned (h : Inv lg disk₀ s) {j : Fin NBUF}
    (hok : bget s p b = .ok (k, s')) (hpin : s.Pinned j) :
    s'.dev j = s.dev j ∧ s'.blockno j = s.blockno j ∧ s'.valid j = s.valid j ∧
      s'.data j = s.data j := by
  unfold bget at hok
  split at hok
  · cases hok
    exact ⟨rfl, rfl, rfl, rfl⟩
  · split at hok
    · rename_i i hfind
      have hfree : s.refcnt i = 0 := of_decide_eq_true (List.find?_some hfind :)
      have hne : j ≠ i := by
        rintro rfl
        have hpos := h.refcnt_pos hpin
        omega
      cases hok
      exact ⟨update_of_ne hne .., update_of_ne hne .., update_of_ne hne ..,
        rfl⟩
    · cases hok

/-- In every interleaving: a block is in at most one buffer; a block whose logged modification is
not yet installed is in a buffer that is in use, and no `bget` recycles that one; any other block is
on the disk as the readers see it; and a `bread` that has returned gives the locked buffer of its
block with what was last logged for the block or, if nothing was, with what is on the disk (for a
block that is not the log's: since the start). -/
theorem cache_transparent {s₀ : State N} {c : Config (State N) (Fin N) Act Reply Unit}
    (hboot : s₀.Booted) (h : Runs lg s₀ c) :
    (∀ k k' b, c.shared.Caches k b → c.shared.Caches k' b → k = k') ∧
    (∀ b ∈ c.shared.pending, ∃ k, c.shared.Caches k b ∧ 1 ≤ c.shared.refcnt k) ∧
    (∀ k, c.shared.Pinned k → ∀ p b r s', bget c.shared p b = .ok (r, s') →
      s'.Caches k (c.shared.blockno k) ∧ s'.data k = c.shared.data k) ∧
    (∀ b, b ∉ c.shared.pending → c.shared.disk b = c.shared.view b) ∧
    (∀ p k b, c.next p = some (.got k b) →
      c.shared.Caches k b ∧ c.shared.lock k = some p ∧
      c.shared.data k = (c.shared.logged b).getD (c.shared.disk b)) ∧
    ∀ b, ¬ lg.Has b → c.shared.logged b = none → c.shared.disk b = s₀.disk b := by
  obtain ⟨hinv, hkept⟩ := h.inv hboot
  refine ⟨hinv.unique, fun b hb => ?_, fun k hpin p b r s' hok => ?_, hinv.settled,
    fun p k b hnext => ?_, hinv.fresh⟩
  · obtain ⟨k, hk, _⟩ := hinv.kept b hb
    exact ⟨k, hk, hinv.refcnt_pos ⟨hk.1, hk.2 ▸ hb⟩⟩
  · obtain ⟨hdev, hblockno, _, hdata⟩ := hinv.bget_keeps_pinned hok hpin
    exact ⟨⟨hdev.trans hpin.1, hblockno⟩, hdata⟩
  · have hpre : (loc c.shared p).hold k = some (b, .clean) := hkept.pre hnext
    obtain ⟨hlock, rfl, hmode⟩ := hold_eq_some.mp hpre
    have hcaches := hinv.caches_of_lock hlock
    have hvalid := hinv.loaded k p hlock (by rw [hmode]; nofun)
    exact ⟨hcaches, hlock, hinv.faithful k hcaches.1 hvalid (.inr (.inr hmode))⟩

/-- A process starts a call and is run for `n` actions. -/
def calls (p : Fin N) (call : Call) (n : Nat) : List (Event (Fin N) Call) :=
  .start p call :: List.replicate n (.run p)

/-- An operation that logs a block, its commit, and a `bread` of the block. -/
def writeThenRead (data : Block) : List (Event (Fin 1) Call) :=
  calls 0 .beginOp 1 ++ calls 0 (.bread 40) 4 ++ calls 0 (.write 0 data) 2 ++
    calls 0 (.brelse 0) 2 ++ calls 0 .endOp 49 ++ calls 0 (.bread 40) 3

/-- The buffer and the block of a `bread` that has returned. -/
def Act.got? : Act → Option (Fin NBUF × Nat)
  | .got k b => some (k, b)
  | _ => none

theorem Act.eq_got {k : Fin NBUF} (h : a.got? = some (k, b)) : a = .got k b := by
  cases a with
  | got j c =>
    cases h
    rfl
  | _ => cases h

theorem cache_transparent_after_commit :
    ∃ c, Runs ⟨2, 31⟩ (State.init 1 fun _ => .zero) c ∧ c.next 0 = some (.got 0 40) ∧
      c.shared.data 0 = (c.shared.logged 40).getD (c.shared.disk 40) ∧
      (c.shared.data 0).get 3 = 7 := by
  obtain ⟨c, hruns, hnext⟩ :=
    exists_reach_of_follow (Config.step (exec ⟨2, 31⟩) (Call.code ⟨2, 31⟩))
    (Config.Admits (Touches ⟨2, 31⟩)) ⟨State.init 1 fun _ => .zero, fun _ => none⟩
    (writeThenRead (.set .zero 3 7)) (fun c => decide ((c.next 0).bind Act.got? = some (0, 40) ∧
      (c.shared.data 0).get 3 = 7)) (by decide +kernel)
  obtain ⟨hnext, hbyte⟩ := of_decide_eq_true hnext
  obtain ⟨a, hnext, hgot⟩ := Option.bind_eq_some_iff.mp hnext
  obtain rfl := Act.eq_got hgot
  have h := cache_transparent (booted_init _) hruns
  exact ⟨c, hruns, hnext, (h.2.2.2.2.1 0 0 40 hnext).2.2, hbyte⟩

end OsProjects.Kernel.Bio
