import OsProjects.Kernel.Bcache
import Mathlib.Algebra.Order.Group.Multiset

/-!
# BcacheCode — what the users of the buffer cache hold

What a process knows of the cache: its references, the buffers it has locked and, if it commits, how
far the commit is. The code of every call keeps to this knowledge; that takes no other process into
account.
-/

namespace OsProjects.Kernel.Bio

open Lib Function Multiset
open Discipline (keeps_bind)

/-- The commit in progress. -/
structure Stage where
  lh : List Nat
  written : Nat
  installed : Nat
  carried : Nat

/-- What a process has: its references and, for each buffer that it has locked, the block and the
mode. -/
@[ext] structure Loc where
  refs : Multiset (Fin NBUF × Nat)
  hold : Fin NBUF → Option (Nat × Mode)
  stage : Option Stage

instance (ph : OpPhase) : Decidable ph.InCommit := inferInstanceAs (Decidable (_ ∨ _))

def loc {N : Nat} (s : State N) (p : Fin N) : Loc where
  refs := s.refs p
  hold k := if s.lock k = some p then some (s.blockno k, s.mode k) else none
  stage :=
    if (s.log.phase p).InCommit then some ⟨s.log.lh, s.written, s.installed, s.carried⟩ else none

namespace Loc

variable (l : Loc)

def setHold (k : Fin NBUF) (b : Nat) (m : Mode) : Loc :=
  { l with hold := update l.hold k (some (b, m)) }

def letGo (k : Fin NBUF) : Loc := { l with hold := update l.hold k none }

/-- No buffer is being changed. -/
def Clean : Prop := ∀ k b m, l.hold k = some (b, m) → m = .clean

/-- Between two calls. -/
def Idle : Prop := l.Clean ∧ l.stage = none

end Loc

section

variable (lg : LogArea)

/-- The buffer `src` of the header's block `written`, or of the log block to be installed, is about
to be copied. -/
def Copies (l : Loc) (c : Stage) (dst src : Fin NBUF) : Prop :=
  (∃ b, c.lh[c.written]? = some b ∧ l.hold src = some (b, .clean) ∧
    l.hold dst = some (lg.start + c.written + 1, .clean)) ∨
  ∃ b, c.lh[c.installed]? = some b ∧ c.written = c.lh.length ∧
    l.hold src = some (lg.start + c.installed + 1, .clean) ∧ l.hold dst = some (b, .clean)

/-- The buffer has what the commit writes next. -/
def Writes (l : Loc) (c : Stage) (k : Fin NBUF) : Prop :=
  (lg.Has lg.start ∧ l.hold k = some (lg.start, .dirty)) ∨
  (∃ b, c.lh[c.written]? = some b ∧ l.hold k = some (lg.start + c.written + 1, .moved b)) ∨
  ∃ b, c.lh[c.installed]? = some b ∧ c.written = c.lh.length ∧ l.hold k = some (b, .moved b)

def pre : Act → Loc → Prop
  | .bget _, l => ∀ c ∈ l.stage, l.refs.card ≤ c.carried + 1
  | .acquiresleep k, l => ∃ b, (k, b) ∈ l.refs
  | .load k, l => ∃ b, l.hold k = some (b, .unloaded)
  | .got k b, l => l.hold k = some (b, .clean)
  | .setData _ _, l => l.Idle
  | .logWrite k, l => (∃ b, l.hold k = some (b, .dirty)) ∧ l.stage = none
  | .bwrite k, l => ∃ c ∈ l.stage, Writes lg l c k
  | .releasesleep k, l => ∀ b m, l.hold k = some (b, m) → m = .clean
  | .unref k, l => l.hold k = none ∧ ∃ b, (k, b) ∈ l.refs
  | .bunpin k, l => ∃ b m, l.hold k = some (b, m) ∧ 2 ≤ l.refs.count (k, b)
  | .memmove dst src, l => ∃ c ∈ l.stage, Copies lg l c dst src
  | .setHead k, l => l.stage.isSome ∧ l.hold k = some (lg.start, .clean)
  | .beginOp, l => l.stage = none
  | .endOp, l => l.stage = none
  | .lh, _ => True
  | .clear, l => l.Clean ∧ ∃ c ∈ l.stage, c.installed = c.lh.length
  | .finish, l => l.Clean ∧ l.stage = some ⟨[], 0, 0, l.refs.card⟩

/-- What a process has after a `bwrite` of the buffer `k` of block `b`. -/
def afterWrite (l : Loc) (c : Stage) (k : Fin NBUF) (b : Nat) : Loc :=
  let l' := l.setHold k b .clean
  if b = lg.start then l'
  else if lg.Has b then { l' with stage := some { c with written := c.written + 1 } }
  else { l' with
    refs := (k, b) ::ₘ l.refs, stage := some { c with installed := c.installed + 1 } }

/-- What a process has after the critical section of `end_op`. -/
def afterEnd (l : Loc) (doCommit : Bool) (l' : Loc) : Prop :=
  if doCommit then
    ∃ lh, lh.length ≤ LOGSIZE ∧ (lh = [] ∨ lh.length + 1 ≤ lg.size) ∧ (∀ b ∈ lh, ¬ lg.Has b) ∧
      l' = { l with stage := some ⟨lh, 0, 0, l.refs.card⟩ }
  else l' = l

def post : (a : Act) → Loc → Reply a → Loc → Prop
  | .bget b, l, k, l' => l' = { l with refs := ((k : Fin NBUF), b) ::ₘ l.refs }
  | .acquiresleep k, l, _, l' =>
    l.hold k = none ∧ ∀ b, (k, b) ∈ l.refs → l' = l.setHold k b .unloaded
  | .load k, l, _, l' => ∀ b m, l.hold k = some (b, m) → l' = l.setHold k b .clean
  | .got _ _, l, _, l' => l' = l
  | .setData k _, l, _, l' => ∃ b, l.hold k = some (b, .clean) ∧ l' = l.setHold k b .dirty
  | .logWrite k, l, _, l' => ∀ b m, l.hold k = some (b, m) → l' = l.setHold k b .clean
  | .bwrite k, l, _, l' =>
    ∀ c ∈ l.stage, ∀ b m, l.hold k = some (b, m) → l' = afterWrite lg l c k b
  | .releasesleep k, l, _, l' =>
    ∃ b, l.hold k = some (b, .clean) ∧ (k, b) ∈ l.refs ∧ l' = l.letGo k
  | .unref k, l, _, l' | .bunpin k, l, _, l' =>
    ∀ b, (k, b) ∈ l.refs → l' = { l with refs := l.refs.erase (k, b) }
  | .memmove dst src, l, _, l' =>
    ∀ c ∈ l.stage, ∀ b m b' m', l.hold dst = some (b, m) → l.hold src = some (b', m') →
      l' = l.setHold dst b (.moved (if lg.Has b' then c.lh.getD c.installed 0 else b'))
  | .setHead k, l, _, l' => ∀ b m, l.hold k = some (b, m) → l' = l.setHold k b .dirty
  | .beginOp, l, _, l' => l' = l
  | .endOp, l, doCommit, l' => afterEnd lg l doCommit l'
  | .lh, l, lh, l' => l' = l ∧ ∀ c ∈ l.stage, lh = c.lh
  | .clear, l, _, l' => ∀ c ∈ l.stage, l' = { l with stage := some ⟨[], 0, 0, c.carried⟩ }
  | .finish, l, _, l' => l' = { l with stage := none }

def discipline : Discipline Act Reply Loc := ⟨pre lg, post lg⟩

end

/-! ## `bread` and `brelse` -/

section Code

variable {lg : LogArea} {l : Loc} {Q : Unit → Loc → Prop} {k : Fin NBUF}

-- What `bread` adds.
def Loc.take (l : Loc) (k : Fin NBUF) (b : Nat) : Loc :=
  { l.setHold k b .clean with refs := (k, b) ::ₘ l.refs }

theorem keeps_bread {b : Nat} {Q : Fin NBUF → Loc → Prop}
    (hpre : ∀ c ∈ l.stage, l.refs.card ≤ c.carried + 1)
    (hQ : ∀ k, l.hold k = none → Q k (l.take k b)) : (discipline lg).Keeps (bread b) l Q := by
  refine ⟨hpre, fun (k : Fin NBUF) l1 h1 => ⟨⟨b, ?_⟩, fun _ l2 h2 => ?_⟩⟩
  · rw [show l1 = _ from h1]
    exact mem_cons_self _ _
  · subst h1
    obtain ⟨hfree, h2⟩ := h2
    have h2 := h2 b (mem_cons_self _ _)
    subst h2
    refine ⟨⟨b, update_self ..⟩, fun _ l3 h3 => ?_⟩
    have h3 := h3 b _ (update_self ..)
    subst h3
    have htake : Loc.setHold (Loc.setHold { l with refs := (k, b) ::ₘ l.refs } k b .unloaded) k b
        .clean = l.take k b := by
      simp only [Loc.setHold, Loc.take, update_idem]
    exact htake ▸ hQ k hfree

theorem keeps_brelse (hclean : ∀ b m, l.hold k = some (b, m) → m = .clean)
    (hQ : ∀ b, l.hold k = some (b, .clean) → (k, b) ∈ l.refs →
      Q () { l.letGo k with refs := l.refs.erase (k, b) }) :
    (discipline lg).Keeps (brelse k) l Q := by
  refine ⟨hclean, fun _ l1 h1 => ?_⟩
  obtain ⟨b, hhold, hmem, rfl⟩ := h1
  refine ⟨⟨update_self .., b, hmem⟩, fun _ l2 h2 => ?_⟩
  have h2 := h2 b hmem
  subst h2
  exact hQ b hhold hmem

-- A buffer that was taken and is clean is given back.
theorem keeps_brelse_take {b : Nat} {rest : Multiset (Fin NBUF × Nat)}
    (hhold : l.hold k = some (b, .clean)) (hrefs : l.refs = (k, b) ::ₘ rest)
    (hQ : Q () { l.letGo k with refs := rest }) : (discipline lg).Keeps (brelse k) l Q := by
  apply keeps_brelse
  · intro b' m heq
    rw [hhold] at heq
    cases heq
    rfl
  · intro b' heq _
    rw [hhold] at heq
    cases heq
    rwa [hrefs, erase_cons_head]

theorem keeps_header {Q : List Nat → Loc → Prop} {c : Stage} (hc : l.stage = some c)
    (hQ : Q c.lh l) : (discipline lg).Keeps header l Q := by
  refine ⟨trivial, fun r l' h => ?_⟩
  obtain ⟨rfl, hr⟩ := h
  rwa [show r = c.lh from hr c hc]

/-! ## `commit` -/

theorem keeps_act {a : Act} {Q : Reply a → Loc → Prop} (hpre : pre lg a l)
    (hQ : ∀ r l', post lg a l r l' → Q r l') : (discipline lg).Keeps (act a) l Q :=
  ⟨hpre, hQ⟩

/-- What is known of the header during a commit. -/
structure Fits (lg : LogArea) (lh : List Nat) : Prop where
  rounds : lh.length ≤ LOGSIZE
  area : lh = [] ∨ lh.length + 1 ≤ lg.size
  home : ∀ b ∈ lh, ¬ lg.Has b

theorem Fits.has {lh : List Nat} (h : Fits lg lh) {t : Nat} (ht : t < lh.length) :
    lg.Has (lg.start + t + 1) := by
  rcases h.area with rfl | hsize
  · cases ht
  · unfold LogArea.Has
    omega

section Round

variable {g : Multiset (Fin NBUF × Nat)} {h : Fin NBUF → Option (Nat × Mode)} {c : Stage}
  {Q : Unit → Loc → Prop}

-- A round takes the log block and the home block.
theorem keeps_take_two {f : Fin NBUF → Fin NBUF → Code Unit} {b b' tail : Nat}
    (hg : g.card = c.carried) (hb : c.lh[tail]? = some b')
    (hf : ∀ k k', k' ≠ k → h k = none → h k' = none →
      (discipline lg).Keeps (f k k') (((⟨g, h, some c⟩ : Loc).take k b).take k' b') Q) :
    (discipline lg).Keeps (do
      let k ← bread b
      let lh ← header
      let k' ← bread (lh.getD tail 0)
      f k k') ⟨g, h, some c⟩ Q := by
  have hget : c.lh.getD tail 0 = b' := by rw [List.getD_eq_getElem?_getD, hb, Option.getD_some]
  apply keeps_bind.mpr
  apply keeps_bread
  · intro c' hc'
    cases hc'
    show g.card ≤ c.carried + 1
    omega
  intro k hk
  apply keeps_bind.mpr
  apply keeps_header rfl
  rw [hget]
  apply keeps_bind.mpr
  apply keeps_bread
  · intro c' hc'
    cases hc'
    show Multiset.card ((k, b) ::ₘ g) ≤ c.carried + 1
    rw [card_cons]
    omega
  intro k' hk'
  have hne : k' ≠ k := by
    intro heq
    rw [heq] at hk'
    cases (update_self k _ h).symm.trans hk'
  exact hf k k' hne hk ((update_of_ne hne _ h).symm.trans hk')

-- At its end it gives both back.
theorem keeps_give_two {k' : Fin NBUF} {b b' : Nat} {f : Code Unit} (hne : k' ≠ k)
    (hk : h k = none) (hk' : h k' = none) (hhold : l.hold k = some (b, .clean))
    (hhold' : l.hold k' = some (b', .clean)) (hrest : ∀ j, j ≠ k → j ≠ k' → l.hold j = h j)
    (hrefs : l.refs = (k, b) ::ₘ (k', b') ::ₘ g) (hstage : l.stage = some c)
    (hf : (discipline lg).Keeps f ⟨g, h, some c⟩ Q) : (discipline lg).Keeps (do
      brelse k
      brelse k'
      f) l Q := by
  apply keeps_bind.mpr
  apply keeps_brelse_take hhold hrefs
  apply keeps_brelse_take ((update_of_ne hne _ _).trans hhold') rfl
  have heq : (⟨g, update (update l.hold k none) k' none, l.stage⟩ : Loc) =
      ⟨g, h, some c⟩ := by
    congr 1
    funext j
    by_cases hj' : j = k'
    · rw [hj', update_self, hk']
    · rw [update_of_ne hj']
      by_cases hj : j = k
      · rw [hj, update_self, hk]
      · rw [update_of_ne hj, hrest j hj hj']
  exact heq ▸ hf

end Round

section Commit

variable {g : Multiset (Fin NBUF × Nat)} {h : Fin NBUF → Option (Nat × Mode)} {lh : List Nat}
  {carried : Nat} {Q : Unit → Loc → Prop}

theorem keeps_writeLog (hfits : Fits lg lh) (hg : g.card = carried) {rounds tail : Nat}
    (hrounds : lh.length ≤ tail + rounds) (htail : tail ≤ lh.length)
    (hQ : Q () ⟨g, h, some ⟨lh, lh.length, 0, carried⟩⟩) :
    (discipline lg).Keeps (writeLog lg rounds tail) ⟨g, h, some ⟨lh, tail, 0, carried⟩⟩ Q := by
  induction rounds generalizing tail with
  | zero =>
    have heq : tail = lh.length := by omega
    subst heq
    exact hQ
  | succ rounds ih =>
    apply keeps_bind.mpr
    apply keeps_header rfl
    by_cases hlt : tail < lh.length
    · simp only [if_pos hlt]
      obtain ⟨b, hb⟩ : ∃ b, lh[tail]? = some b := ⟨_, List.getElem?_eq_getElem hlt⟩
      have hhome : ¬ lg.Has b := hfits.home b (List.mem_of_getElem? hb)
      apply keeps_take_two hg hb
      intro k k' hne hk hk'
      have hhold : ∀ x, update (update h k x) k' (some (b, .clean)) k = x := by
        intro x
        rw [update_of_ne hne.symm, update_self]
      apply keeps_bind.mpr
      apply keeps_act
      · exact ⟨_, rfl, .inl ⟨b, hb, update_self .., hhold _⟩⟩
      intro _ l1 h1
      have h1 := h1 _ rfl _ _ _ _ (hhold _) (update_self ..)
      rw [if_neg hhome] at h1
      subst h1
      apply keeps_act
      · exact ⟨_, rfl, .inr (.inl ⟨b, hb, update_self ..⟩)⟩
      intro _ l2 h2
      have h2 := h2 _ rfl _ _ (update_self ..)
      rw [afterWrite, if_neg (by omega), if_pos (hfits.has hlt)] at h2
      subst h2
      apply keeps_give_two hne.symm hk' hk _ _ _ rfl rfl (ih (by omega) hlt)
      · simp [Loc.setHold, Loc.take, hne]
      · simp [Loc.setHold]
      · intro j hj' hj
        simp [Loc.setHold, Loc.take, hj, hj']
    · have heq : tail = lh.length := by omega
      subst heq
      simp only [if_neg hlt]
      exact hQ

theorem keeps_installTrans (hfits : Fits lg lh) (hg : g.card = carried) {rounds tail : Nat}
    (hrounds : lh.length ≤ tail + rounds) (htail : tail ≤ lh.length)
    (hQ : Q () ⟨g, h, some ⟨lh, lh.length, lh.length, carried⟩⟩) :
    (discipline lg).Keeps (installTrans lg rounds tail)
      ⟨g, h, some ⟨lh, lh.length, tail, carried⟩⟩ Q := by
  induction rounds generalizing tail with
  | zero =>
    have heq : tail = lh.length := by omega
    subst heq
    exact hQ
  | succ rounds ih =>
    apply keeps_bind.mpr
    apply keeps_header rfl
    by_cases hlt : tail < lh.length
    · simp only [if_pos hlt]
      obtain ⟨b, hb⟩ : ∃ b, lh[tail]? = some b := ⟨_, List.getElem?_eq_getElem hlt⟩
      have hget : lh.getD tail 0 = b := by rw [List.getD_eq_getElem?_getD, hb, Option.getD_some]
      have hhome : ¬ lg.Has b := hfits.home b (List.mem_of_getElem? hb)
      have hstart : b ≠ lg.start := by
        rintro rfl
        have hhas := hfits.has hlt
        unfold LogArea.Has at hhome hhas
        omega
      apply keeps_take_two hg hb
      intro k k' hne hk hk'
      have hhold : ∀ x, update (update h k x) k' (some (b, .clean)) k = x := by
        intro x
        rw [update_of_ne hne.symm, update_self]
      apply keeps_bind.mpr
      apply keeps_act
      · exact ⟨_, rfl, .inr ⟨b, hb, rfl, hhold _, update_self ..⟩⟩
      intro _ l1 h1
      have h1 := h1 _ rfl _ _ _ _ (update_self ..) (hhold _)
      rw [if_pos (hfits.has hlt), hget] at h1
      subst h1
      apply keeps_bind.mpr
      apply keeps_act
      · exact ⟨_, rfl, .inr (.inr ⟨b, hb, rfl, update_self ..⟩)⟩
      intro _ l2 h2
      have h2 := h2 _ rfl _ _ (update_self ..)
      rw [afterWrite, if_neg hstart, if_neg hhome] at h2
      subst h2
      -- the pin has become a second reference, which goes first
      apply keeps_act
      · refine ⟨b, .clean, update_self .., ?_⟩
        simp [Loc.setHold, Loc.take]
      intro _ l3 h3
      have h3 := h3 b (mem_cons_self _ _)
      rw [erase_cons_head] at h3
      subst h3
      apply keeps_give_two hne hk hk' _ _ _ (cons_swap ..) rfl (ih (by omega) hlt)
      · simp [Loc.setHold, Loc.take, hne.symm]
      · simp [Loc.setHold]
      · intro j hj hj'
        simp [Loc.setHold, Loc.take, hj, hj']
    · have heq : tail = lh.length := by omega
      subst heq
      simp only [if_neg hlt]
      exact hQ

theorem keeps_writeHead {c : Stage} (hhas : lg.Has lg.start) (hg : g.card = c.carried)
    (hQ : Q () ⟨g, h, some c⟩) : (discipline lg).Keeps (writeHead lg) ⟨g, h, some c⟩ Q := by
  apply keeps_bind.mpr
  apply keeps_bread
  · intro c' hc'
    cases hc'
    show g.card ≤ c.carried + 1
    omega
  intro k hk
  apply keeps_bind.mpr
  apply keeps_act
  · exact ⟨rfl, update_self ..⟩
  intro _ l1 h1
  have h1 := h1 _ _ (update_self ..)
  subst h1
  apply keeps_act
  · exact ⟨c, rfl, .inl ⟨hhas, update_self ..⟩⟩
  intro _ l2 h2
  have h2 := h2 _ rfl _ _ (update_self ..)
  rw [afterWrite, if_pos rfl] at h2
  subst h2
  apply keeps_brelse_take (update_self ..) rfl
  have heq : ∀ x y z, (⟨g, update (update (update (update h k x)
      k y) k z) k none, some c⟩ : Loc) = ⟨g, h, some c⟩ := by
    intro x y z
    have hh : update h k none = h := hk ▸ update_eq_self k h
    rw [update_idem, update_idem, update_idem, hh]
  exact (heq _ _ _).symm ▸ hQ

theorem keeps_commit (hfits : Fits lg lh) (hclean : (⟨g, h, none⟩ : Loc).Clean)
    (hg : g.card = carried) (hQ : Q () ⟨g, h, some ⟨[], 0, 0, carried⟩⟩) :
    (discipline lg).Keeps (commit lg) ⟨g, h, some ⟨lh, 0, 0, carried⟩⟩ Q := by
  apply keeps_bind.mpr
  apply keeps_header rfl
  by_cases hlt : 0 < lh.length
  · simp only [if_pos hlt]
    have hrounds : lh.length ≤ 0 + LOGSIZE := by
      have hle := hfits.rounds
      omega
    have hhas : lg.Has lg.start := by
      have hlog := hfits.has hlt
      unfold LogArea.Has at hlog ⊢
      omega
    apply keeps_bind.mpr
    apply keeps_writeLog hfits hg hrounds (Nat.zero_le _)
    apply keeps_bind.mpr
    apply keeps_writeHead hhas hg
    apply keeps_bind.mpr
    apply keeps_installTrans hfits hg hrounds (Nat.zero_le _)
    apply keeps_act
    · exact ⟨hclean, _, rfl, rfl⟩
    intro _ l1 h1
    have h1 := h1 _ rfl
    subst h1
    exact keeps_writeHead hhas hg hQ
  · have hnil : lh = [] := List.eq_nil_of_length_eq_zero (Nat.eq_zero_of_not_pos hlt)
    subst hnil
    exact hQ

end Commit

theorem keeps_endOp (hidle : l.Idle) : (discipline lg).Keeps (endOp lg) l fun _ => Loc.Idle := by
  refine ⟨hidle.2, fun (doCommit : Bool) l1 h1 => ?_⟩
  cases doCommit with
  | false =>
    exact h1 ▸ hidle
  | true =>
    obtain ⟨lh, hrounds, harea, hhome, rfl⟩ := h1
    show (discipline lg).Keeps (commit lg >>= fun _ => act .finish) _ _
    apply keeps_bind.mpr
    apply keeps_commit ⟨hrounds, harea, hhome⟩ hidle.1 rfl
    refine ⟨⟨hidle.1, rfl⟩, fun _ l2 h2 => ?_⟩
    subst h2
    exact ⟨hidle.1, rfl⟩

/-! ## The calls -/

theorem Loc.Clean.setHold (h : l.Clean) (k : Fin NBUF) (b : Nat) :
    (l.setHold k b .clean).Clean := by
  intro j b' m hhold
  by_cases hj : j = k
  · rw [hj] at hhold
    cases (update_self k _ l.hold).symm.trans hhold
    rfl
  · exact h j b' m ((update_of_ne hj _ l.hold).symm.trans hhold)

theorem Loc.Clean.letGo (h : l.Clean) (k : Fin NBUF) : (l.letGo k).Clean := by
  intro j b m hhold
  by_cases hj : j = k
  · rw [hj] at hhold
    cases (update_self k _ l.hold).symm.trans hhold
  · exact h j b m ((update_of_ne hj _ l.hold).symm.trans hhold)

theorem keeps_code (call : Call) (l : Loc) (hidle : l.Idle) :
    (discipline lg).Keeps (call.code lg) l fun _ => Loc.Idle := by
  cases call with
  | beginOp =>
    refine ⟨hidle.2, fun _ l1 h1 => ?_⟩
    exact h1 ▸ hidle
  | endOp => exact keeps_endOp hidle
  | bread b =>
    apply keeps_bread
    · intro c hc
      rw [hidle.2] at hc
      cases hc
    intro k hk
    refine ⟨update_self .., fun _ l1 h1 => ?_⟩
    subst h1
    exact ⟨hidle.1.setHold k b, hidle.2⟩
  | write k data =>
    refine ⟨hidle, fun _ l1 h1 => ?_⟩
    obtain ⟨b, hhold, rfl⟩ := h1
    refine ⟨⟨⟨b, update_self ..⟩, hidle.2⟩, fun _ l2 h2 => ?_⟩
    have h2 := h2 b _ (update_self ..)
    subst h2
    have heq : (l.setHold k b .dirty).setHold k b .clean = l.setHold k b .clean := by
      simp only [Loc.setHold, update_idem]
    rw [heq]
    exact ⟨hidle.1.setHold k b, hidle.2⟩
  | brelse k =>
    apply keeps_brelse fun b m hhold => hidle.1 k b m hhold
    intro b _ _
    exact ⟨hidle.1.letGo k, hidle.2⟩

end Code

end OsProjects.Kernel.Bio
