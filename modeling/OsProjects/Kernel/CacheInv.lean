import OsProjects.Kernel.BcacheCode
import OsProjects.Lib.Ownership
import Mathlib.Algebra.Order.BigOperators.Group.Finset

/-!
# CacheInv — what holds of the buffer cache between any two actions

`view b` is what a reader of block `b` should see: what was last logged for it, or else what the
disk has.  A block of the header that is not yet installed is *pending*; until it is installed the
disk may be behind, so a buffer must keep it.
-/

namespace OsProjects.Kernel.Bio

open Lib Function Multiset

/-! ## Counting references -/

section Held

variable {ι κ : Type} [Fintype ι] [DecidableEq ι]

variable [DecidableEq κ] (refs : ι → Multiset (κ × Nat))

/-- The references to `k` that there are. -/
def held (k : κ) : Nat := ∑ p, (refs p).countP fun x => x.1 = k

theorem held_cons (p : ι) (k j : κ) (b : Nat) :
    held (update refs p ((k, b) ::ₘ refs p)) j = held refs j + if k = j then 1 else 0 := by
  have hsum := sum_update_add (Finset.mem_univ p) (fun m => m.countP fun x => x.1 = j) refs
    ((k, b) ::ₘ refs p)
  simp only [countP_cons] at hsum
  unfold held
  omega

theorem held_erase {p : ι} {k : κ} {b : Nat} (hmem : (k, b) ∈ refs p) (j : κ) :
    held refs j = held (update refs p ((refs p).erase (k, b))) j + if k = j then 1 else 0 := by
  have hsum := sum_update_add (Finset.mem_univ p) (fun m => m.countP fun x => x.1 = j) refs
    ((refs p).erase (k, b))
  have hcons : (refs p).countP (fun x => x.1 = j) =
      ((refs p).erase (k, b)).countP (fun x => x.1 = j) + if k = j then 1 else 0 := by
    conv_lhs => rw [← cons_erase hmem]
    rw [countP_cons]
  unfold held
  omega

variable {refs}

omit [DecidableEq ι] in
theorem held_pos {p : ι} {x : κ × Nat} (hmem : x ∈ refs p) : 0 < held refs x.1 := by
  have hle : (refs p).countP (fun y => y.1 = x.1) ≤ held refs x.1 :=
    Finset.single_le_sum (f := fun q => (refs q).countP fun y => y.1 = x.1)
      (fun _ _ => Nat.zero_le _) (Finset.mem_univ p)
  have hpos : 0 < (refs p).countP fun y => y.1 = x.1 := countP_pos.mpr ⟨x, hmem, rfl⟩
  omega

omit [Fintype ι] [DecidableEq κ] in
theorem mem_update_cons {p q : ι} {x y : κ × Nat} :
    x ∈ update refs p (y ::ₘ refs p) q ↔ (q = p ∧ x = y) ∨ x ∈ refs q := by
  by_cases hq : q = p
  · subst hq
    simp
  · simp [hq]

end Held

/-! ## The invariant -/

section Inv

variable {N : Nat}

def State.view (s : State N) (b : Nat) : Block := (s.logged b).getD (s.disk b)

/-- The blocks of the header that are not installed. -/
def State.pending (s : State N) : List Nat := s.log.lh.drop s.installed

/-- The buffer has the block. -/
def State.Caches (s : State N) (k : Fin NBUF) (b : Nat) : Prop :=
  s.dev k = ROOTDEV ∧ s.blockno k = b

instance (s : State N) (k : Fin NBUF) (b : Nat) : Decidable (s.Caches k b) :=
  inferInstanceAs (Decidable (_ ∧ _))

def State.Pinned (s : State N) (k : Fin NBUF) : Prop := s.dev k = ROOTDEV ∧ s.blockno k ∈ s.pending

instance (s : State N) (k : Fin NBUF) : Decidable (s.Pinned k) :=
  inferInstanceAs (Decidable (_ ∧ _))

structure Inv (lg : LogArea) (disk₀ : Disk) (s : State N) : Prop where
  order : ∀ k, k ∈ s.lru
  unique : ∀ k k' b, s.Caches k b → s.Caches k' b → k = k'
  named : ∀ p, ∀ x ∈ s.refs p, s.Caches x.1 x.2
  counted : ∀ k, s.refcnt k = held s.refs k + if s.Pinned k then 1 else 0
  holder : ∀ k p, s.lock k = some p → (k, s.blockno k) ∈ s.refs p
  loaded : ∀ k p, s.lock k = some p → s.mode k ≠ .unloaded → s.valid k = true
  -- a buffer that nobody is changing
  faithful : ∀ k, s.dev k = ROOTDEV → s.valid k = true →
    (s.lock k = none ∨ s.mode k = .unloaded ∨ s.mode k = .clean) → s.data k = s.view (s.blockno k)
  moved : ∀ k p src, s.lock k = some p → s.mode k = .moved src →
    (s.log.phase p).InCommit ∧ src ∈ s.log.lh ∧ s.data k = s.view src
  settled : ∀ b, b ∉ s.pending → s.disk b = s.view b
  kept : ∀ b ∈ s.pending, ∃ k, s.Caches k b ∧ s.valid k = true
  apart : ∀ b, lg.Has b → s.logged b = none
  fresh : ∀ b, ¬ lg.Has b → s.logged b = none → s.disk b = disk₀ b
  copied : ∀ t b, t < s.written → s.log.lh[t]? = some b → s.disk (lg.start + t + 1) = s.view b
  fits : Fits lg s.log.lh
  nodup : s.log.lh.Nodup
  commits : ∀ p, (s.log.phase p).InCommit → s.log.committing = true
  alone : ∀ p q, (s.log.phase p).InCommit → (s.log.phase q).InCommit → p = q
  quiet : s.log.committing = true → s.log.outstanding = 0
  rest : s.log.committing = false → s.written = 0 ∧ s.installed = 0

/-- After `fsinit`: the log is empty and no buffer is in use. -/
structure State.Booted (s : State N) : Prop where
  order : ∀ k, k ∈ s.lru
  unique : ∀ k k' b, s.Caches k b → s.Caches k' b → k = k'
  refcnt : ∀ k, s.refcnt k = 0
  lock : ∀ k, s.lock k = none
  data : ∀ k, s.dev k = ROOTDEV → s.valid k = true → s.data k = s.disk (s.blockno k)
  log : s.log = .init
  refs : ∀ p, s.refs p = 0
  logged : ∀ b, s.logged b = none
  written : s.written = 0
  installed : s.installed = 0

theorem booted_init (disk : Disk) : (State.init N disk).Booted where
  order k := by simp [State.init]
  unique _ _ _ h := absurd h.1 Nat.zero_ne_one
  refcnt _ := rfl
  lock _ := rfl
  data _ h := absurd h Nat.zero_ne_one
  log := rfl
  refs _ := rfl
  logged _ := rfl
  written := rfl
  installed := rfl

variable {lg : LogArea} {disk₀ : Disk} {s s' : State N} {p : Fin N} {k : Fin NBUF} {data : Block}

theorem State.Booted.inv (h : s.Booted) (lg : LogArea) : Inv lg s.disk s := by
  have hview : ∀ b, s.view b = s.disk b := by
    intro b
    rw [State.view, h.logged, Option.getD_none]
  have hpending : s.pending = [] := by
    rw [State.pending, h.log]
    exact List.drop_nil
  have hphase : ∀ p, ¬ (s.log.phase p).InCommit := by
    intro p
    rw [h.log]
    exact LogState.not_inCommit_idle
  exact {
    order := h.order
    unique := h.unique
    named := fun p x hx => by
      rw [h.refs] at hx
      exact absurd hx (notMem_zero x)
    counted := fun k => by
      have hheld : held s.refs k = 0 := by simp [held, h.refs]
      have hpinned : ¬ s.Pinned k := by simp [State.Pinned, hpending]
      rw [h.refcnt, hheld, if_neg hpinned]
    holder := fun k p hlock => by
      rw [h.lock] at hlock
      cases hlock
    loaded := fun k p hlock => by
      rw [h.lock] at hlock
      cases hlock
    faithful := fun k hdev hvalid _ => by rw [hview, h.data k hdev hvalid]
    moved := fun k p src hlock => by
      rw [h.lock] at hlock
      cases hlock
    settled := fun b _ => (hview b).symm
    kept := fun b hb => by
      rw [hpending] at hb
      cases hb
    apart := fun b _ => h.logged b
    fresh := fun _ _ _ => rfl
    copied := fun t b ht => by
      rw [h.written] at ht
      cases ht
    fits := by
      rw [h.log]
      exact ⟨by decide, .inl rfl, by simp [LogState.init]⟩
    nodup := by
      rw [h.log]
      exact List.nodup_nil
    commits := fun p hp => absurd hp (hphase p)
    alone := fun p _ hp => absurd hp (hphase p)
    quiet := fun hc => by
      rw [h.log] at hc
      cases hc
    rest := fun _ => ⟨h.written, h.installed⟩ }

namespace Inv

/-! ## `bget`, and references given back -/

section

variable (h : Inv lg disk₀ s)
include h

theorem not_committing (hout : s.log.outstanding ≠ 0) : s.log.committing = false := by
  by_contra hc
  exact hout (h.quiet (Bool.eq_true_of_not_eq_false hc))

theorem caches_of_lock (hlock : s.lock k = some p) : s.Caches k (s.blockno k) :=
  h.named p _ (h.holder k p hlock)

theorem refcnt_pos (hpin : s.Pinned k) : 0 < s.refcnt k := by
  rw [h.counted, if_pos hpin]
  omega

theorem bget_hit {b : Nat} (hk : s.Caches k b) : Inv lg disk₀ { s.addRef p k b with
      refcnt := update s.refcnt k (s.refcnt k + 1) } :=
  { h with
    named := fun q x hx => by
      rcases mem_update_cons.mp hx with ⟨_, rfl⟩ | hx
      · exact hk
      · exact h.named q x hx
    counted := fun j => by
      show update s.refcnt k _ j = held (update _ _ _) j + if s.Pinned j then 1 else 0
      have hj := h.counted j
      rw [held_cons, update_apply]
      by_cases heq : j = k
      · subst heq
        rw [if_pos rfl, if_pos rfl]
        omega
      · rwa [if_neg heq, if_neg (Ne.symm heq)]
    holder := fun j q hlock => mem_update_cons.mpr (.inr (h.holder j q hlock)) }

-- The recycled buffer has no references, no lock and no pin.
theorem bget_miss {b : Nat} (hmiss : ∀ k, ¬ s.Caches k b) (hfree : s.refcnt k = 0) :
    Inv lg disk₀ { s.addRef p k b with
      dev := update s.dev k ROOTDEV
      blockno := update s.blockno k b
      valid := update s.valid k false
      refcnt := update s.refcnt k 1 } := by
  set s' : State N := { s.addRef p k b with
    dev := update s.dev k ROOTDEV
    blockno := update s.blockno k b
    valid := update s.valid k false
    refcnt := update s.refcnt k 1 } with hs'
  have hcount := h.counted k
  have hpin : ¬ s.Pinned k := fun hpin => by
    have := h.refcnt_pos hpin
    omega
  have hrefs : ∀ q, ∀ x ∈ s.refs q, x.1 ≠ k := by
    intro q x hx heq
    have := held_pos hx
    rw [heq] at this
    omega
  have hlock : ∀ q, s.lock k ≠ some q := fun q hlock => hrefs q _ (h.holder k q hlock) rfl
  have hdev : ∀ j, j ≠ k → s'.dev j = s.dev j := fun j hj => update_of_ne hj _ _
  have hblockno : ∀ j, j ≠ k → s'.blockno j = s.blockno j := fun j hj => update_of_ne hj _ _
  have hvalid : ∀ j, j ≠ k → s'.valid j = s.valid j := fun j hj => update_of_ne hj _ _
  have hself : s'.Caches k b := ⟨update_self .., update_self ..⟩
  have hcaches : ∀ j c, j ≠ k → (s'.Caches j c ↔ s.Caches j c) := fun j c hj => by
    rw [State.Caches, State.Caches, hdev j hj, hblockno j hj]
  have hb : b ∉ s.pending := fun hb => by
    obtain ⟨j, hj, _⟩ := h.kept b hb
    exact hmiss j hj
  exact { h with
    unique := fun j j' c hj hj' => by
      by_cases heq : j = k <;> by_cases heq' : j' = k
      · rw [heq, heq']
      · subst heq
        rw [hcaches j' c heq'] at hj'
        exact absurd (hj.2.symm.trans hself.2 ▸ hj') (hmiss j')
      · subst heq'
        rw [hcaches j c heq] at hj
        exact absurd (hj'.2.symm.trans hself.2 ▸ hj) (hmiss j)
      · exact h.unique j j' c ((hcaches j c heq).mp hj) ((hcaches j' c heq').mp hj')
    named := fun q x hx => by
      rcases mem_update_cons.mp hx with ⟨_, rfl⟩ | hx
      · exact hself
      · exact (hcaches x.1 x.2 (hrefs q x hx)).mpr (h.named q x hx)
    counted := fun j => by
      show update s.refcnt k 1 j = held (update _ _ _) j + if s'.Pinned j then 1 else 0
      have hj := h.counted j
      rw [held_cons, update_apply]
      by_cases heq : j = k
      · subst heq
        have hpin' : ¬ s'.Pinned j := fun hpin' => hb (hself.2 ▸ hpin'.2)
        rw [if_pos rfl, if_pos rfl, if_neg hpin']
        omega
      · have hiff : s'.Pinned j ↔ s.Pinned j := by
          rw [State.Pinned, State.Pinned, hdev j heq, hblockno j heq]
          rfl
        rw [if_neg heq, if_neg (Ne.symm heq), hj]
        simp only [hiff, Nat.add_zero]
    holder := fun j q hq => by
      have heq : j ≠ k := fun heq => hlock q (heq ▸ hq)
      rw [hblockno j heq]
      exact mem_update_cons.mpr (.inr (h.holder j q hq))
    loaded := fun j q hq hmode => by
      have heq : j ≠ k := fun heq => hlock q (heq ▸ hq)
      rw [hvalid j heq]
      exact h.loaded j q hq hmode
    faithful := fun j hj hjv hmode => by
      have heq : j ≠ k := fun heq => by
        rw [heq, show s'.valid k = false from update_self ..] at hjv
        cases hjv
      rw [hblockno j heq]
      exact h.faithful j (hdev j heq ▸ hj) (hvalid j heq ▸ hjv) hmode
    kept := fun c hc => by
      obtain ⟨j, hj, hjv⟩ := h.kept c hc
      have heq : j ≠ k := fun heq => hpin ⟨heq ▸ hj.1, heq ▸ hj.2 ▸ hc⟩
      exact ⟨j, (hcaches j c heq).mpr hj, (hvalid j heq).trans hjv⟩ }

-- `x` is one of the references that `p` has, and no lock of `p` depends on it.
theorem dropRef (hmem : (k, s.blockno k) ∈ s.refs p)
    (hlock : s.lock k = some p → (k, s.blockno k) ∈ (s.refs p).erase (k, s.blockno k)) :
    Inv lg disk₀ (dropRef s p k) :=
  { h with
    named := fun q x hx => by
      have hx : x ∈ update s.refs p ((s.refs p).erase (k, s.blockno k)) q := hx
      by_cases hq : q = p
      · subst hq
        rw [update_self] at hx
        exact h.named q x (mem_of_mem_erase hx)
      · rw [update_of_ne hq] at hx
        exact h.named q x hx
    counted := fun j => by
      show update s.refcnt k _ j = held (update _ _ _) j + if s.Pinned j then 1 else 0
      have hj := h.counted j
      rw [held_erase s.refs hmem] at hj
      rw [update_apply]
      by_cases heq : j = k
      · subst heq
        rw [if_pos rfl] at hj
        rw [if_pos rfl]
        omega
      · rw [if_neg (Ne.symm heq)] at hj
        rw [if_neg heq]
        exact hj
    holder := fun j q hq => by
      show (j, s.blockno j) ∈ update s.refs p ((s.refs p).erase (k, s.blockno k)) q
      by_cases hqp : q = p
      · subst hqp
        rw [update_self]
        by_cases heq : j = k
        · subst heq
          exact hlock hq
        · have hne : (j, s.blockno j) ≠ (k, s.blockno k) := fun hne => heq (Prod.mk.inj hne).1
          exact (mem_erase_of_ne hne).mpr (h.holder j q hq)
      · rw [update_of_ne hqp]
        exact h.holder j q hq }

theorem unref (hmem : (k, s.blockno k) ∈ s.refs p) (hlock : s.lock k ≠ some p) :
    Inv lg disk₀ (unref s p k) := by
  have hdrop := h.dropRef hmem fun hl => absurd hl hlock
  unfold Bio.unref
  split
  · exact { hdrop with
      order := fun j => by
        by_cases hj : j = k
        · exact hj ▸ List.mem_cons_self
        · exact List.mem_cons_of_mem _ ((List.mem_erase_of_ne hj).mpr (h.order j)) }
  · exact hdrop

end

/-! ## A buffer that is locked -/

theorem acquiresleep (h : Inv lg disk₀ s) (hfree : s.lock k = none)
    (hmem : (k, s.blockno k) ∈ s.refs p) :
    Inv lg disk₀ { s.setMode k .unloaded with lock := update s.lock k (some p) } :=
  { h with
    holder := fun j q hq => by
      have hq : update s.lock k (some p) j = some q := hq
      rw [update_apply] at hq
      split at hq
      · rename_i heq
        cases hq
        exact heq ▸ hmem
      · exact h.holder j q hq
    loaded := fun j q hq hmode => by
      have hq : update s.lock k (some p) j = some q := hq
      have hmode : update s.mode k .unloaded j ≠ .unloaded := hmode
      by_cases heq : j = k
      · rw [heq, update_self] at hmode
        exact absurd rfl hmode
      · rw [update_of_ne heq] at hq hmode
        exact h.loaded j q hq hmode
    faithful := fun j hdev hvalid hmode => by
      by_cases heq : j = k
      · exact h.faithful j hdev hvalid (.inl (heq ▸ hfree))
      · apply h.faithful j hdev hvalid
        have hmode : update s.lock k (some p) j = none ∨
          update s.mode k .unloaded j = .unloaded ∨
          update s.mode k .unloaded j = .clean := hmode
        rwa [update_of_ne heq, update_of_ne heq] at hmode
    moved := fun j q src hq hmode => by
      have hq : update s.lock k (some p) j = some q := hq
      have hmode : update s.mode k .unloaded j = .moved src := hmode
      by_cases heq : j = k
      · rw [heq, update_self] at hmode
        cases hmode
      · rw [update_of_ne heq] at hq hmode
        exact h.moved j q src hq hmode }

theorem releasesleep (h : Inv lg disk₀ s) (hclean : s.mode k = .clean) :
    Inv lg disk₀ { s with lock := update s.lock k none } := by
  have hold : ∀ j q, update s.lock k none j = some q → s.lock j = some q := by
    intro j q hq
    rw [update_apply] at hq
    split at hq
    · cases hq
    · exact hq
  exact { h with
    holder := fun j q hq => h.holder j q (hold j q hq)
    loaded := fun j q hq => h.loaded j q (hold j q hq)
    moved := fun j q src hq => h.moved j q src (hold j q hq)
    faithful := fun j hdev hvalid hmode => by
      apply h.faithful j hdev hvalid
      by_cases heq : j = k
      · exact .inr (.inr (heq ▸ hclean))
      · have hmode : update s.lock k none j = none ∨ s.mode j = .unloaded ∨
          s.mode j = .clean := hmode
        rw [update_of_ne heq] at hmode
        exact hmode }

-- The holder of a buffer changes its contents and leaves it in mode `m`.
theorem change (h : Inv lg disk₀ s) {m : Mode} (hlock : s.lock k = some p)
    (hclean : m = .clean → data = s.view (s.blockno k)) (hunloaded : m ≠ .unloaded)
    (hmoved : ∀ src, m = .moved src →
      (s.log.phase p).InCommit ∧ src ∈ s.log.lh ∧ data = s.view src) :
    Inv lg disk₀ { s.setMode k m with
      valid := update s.valid k true
      data := update s.data k data } := by
  set s' : State N := { s.setMode k m with
    valid := update s.valid k true
    data := update s.data k data } with hs'
  have hmode : ∀ j, j ≠ k → s'.mode j = s.mode j := fun j hj => update_of_ne hj _ _
  have hvalid : ∀ j, j ≠ k → s'.valid j = s.valid j := fun j hj => update_of_ne hj _ _
  have hdata : ∀ j, j ≠ k → s'.data j = s.data j := fun j hj => update_of_ne hj _ _
  have hmk : s'.mode k = m := update_self ..
  have hdk : s'.data k = data := update_self ..
  have hvk : s'.valid k = true := update_self ..
  exact { h with
    loaded := fun j q hq hm => by
      by_cases heq : j = k
      · exact heq ▸ hvk
      · exact (hvalid j heq).trans (h.loaded j q hq (hmode j heq ▸ hm))
    faithful := fun j hdev hjv hm => by
      by_cases heq : j = k
      · subst heq
        rw [hmk, show s'.lock j = some p from hlock] at hm
        rcases hm with hm | hm | hm
        · cases hm
        · exact absurd hm hunloaded
        · exact hdk.trans (hclean hm)
      · rw [hmode j heq] at hm
        exact (hdata j heq).trans (h.faithful j hdev (hvalid j heq ▸ hjv) hm)
    moved := fun j q src hq hm => by
      by_cases heq : j = k
      · subst heq
        rw [hmk] at hm
        cases (hlock.symm.trans hq : some p = some q)
        rw [hdk]
        exact hmoved src hm
      · rw [hmode j heq] at hm
        rw [hdata j heq]
        exact h.moved j q src hq hm
    kept := fun b hb => by
      obtain ⟨j, hj, hjv⟩ := h.kept b hb
      refine ⟨j, hj, ?_⟩
      by_cases heq : j = k
      · exact heq ▸ hvk
      · exact (hvalid j heq).trans hjv }

-- The same if the buffer was valid already.
theorem change_valid (h : Inv lg disk₀ s) {m : Mode} (hlock : s.lock k = some p)
    (hvalid : s.valid k = true) (hclean : m = .clean → data = s.view (s.blockno k))
    (hunloaded : m ≠ .unloaded) (hmoved : ∀ src, m = .moved src →
      (s.log.phase p).InCommit ∧ src ∈ s.log.lh ∧ data = s.view src) :
    Inv lg disk₀ { s.setMode k m with data := update s.data k data } := by
  have hchange := h.change hlock hclean hunloaded hmoved
  have heq : update s.valid k true = s.valid := hvalid ▸ update_eq_self k s.valid
  rwa [heq] at hchange

theorem load (h : Inv lg disk₀ s) (hlock : s.lock k = some p) (hmode : s.mode k = .unloaded) :
    Inv lg disk₀ (if s.valid k then s.setMode k .clean else { s.setMode k .clean with
      valid := update s.valid k true
      data := update s.data k (s.disk (s.blockno k)) }) := by
  have hcaches := h.caches_of_lock hlock
  split
  next hvalid =>
    have hdata := h.faithful k hcaches.1 hvalid (.inr (.inl hmode))
    have hchange := h.change_valid hlock hvalid (fun _ => hdata) (m := .clean) nofun nofun
    rwa [update_eq_self] at hchange
  next hvalid =>
    -- a pending block is in a valid buffer, which could only be this one
    have hpending : s.blockno k ∉ s.pending := by
      intro hmem
      obtain ⟨j, hj, hjv⟩ := h.kept _ hmem
      exact hvalid (h.unique j k _ hj hcaches ▸ hjv)
    exact h.change hlock (fun _ => h.settled _ hpending) nofun nofun

end Inv

end Inv

end OsProjects.Kernel.Bio
