import OsProjects.Dispatch.Machine
import Mathlib.Data.Fintype.Card
import Mathlib.Data.Fintype.Basic
import Mathlib.Data.List.Pairwise

/-!
# Tables — what the tables of the dispatcher say while children rest

The entries of `child_pid_name`, the slots of the shared pid table and the history of lines and
farewells, each with the lemmas for its updates, and `SettledAt`, which ties the three to the
children.
-/

namespace OsProjects.Dispatch

open Function List

variable {M pid : Nat} {name : Int} {entries : List Runningprocess} {history : List (Act M)}
  {k : Fin M} {slot : Fin M → Nat}

/-! ## Entries of `child_pid_name` -/

/-- No two entries in use have the same pid. -/
def Apart (entries : List Runningprocess) : Prop :=
  entries.Pairwise fun e e' => e.pid = e'.pid → e.pid = 0

theorem mem_terminateEntries {e : Runningprocess} (he : e ∈ (terminateEntries name entries).1) :
    e = ⟨0, 0⟩ ∨ e ∈ entries ∧ ¬ (e.name = name ∧ e.pid ≠ 0) := by
  induction entries with
  | nil => cases he
  | cons a entries ih =>
    simp only [terminateEntries] at he
    split at he
    · rcases mem_cons.mp he with rfl | he
      · exact .inl rfl
      · exact (ih he).imp id fun h => ⟨mem_cons_of_mem _ h.1, h.2⟩
    next ha =>
      rcases mem_cons.mp he with rfl | he
      · exact .inr ⟨mem_cons_self, ha⟩
      · exact (ih he).imp id fun h => ⟨mem_cons_of_mem _ h.1, h.2⟩

theorem terminateEntries_found (h : (terminateEntries name entries).2 = some pid) :
    ∃ e ∈ entries, e.name = name ∧ e.pid = pid ∧ pid ≠ 0 := by
  induction entries with
  | nil => cases h
  | cons a entries ih =>
    simp only [terminateEntries] at h
    cases hlater : (terminateEntries name entries).2 with
    | some later =>
      rw [hlater] at h ih
      have hpid : some later = some pid := by
        by_cases ha : a.name = name ∧ a.pid ≠ 0
        · rwa [if_pos ha] at h
        · rwa [if_neg ha] at h
      obtain ⟨e, he, hrest⟩ := ih hpid
      exact ⟨e, mem_cons_of_mem _ he, hrest⟩
    | none =>
      rw [hlater] at h
      split at h
      next ha =>
        cases h
        exact ⟨a, mem_cons_self, ha.1, rfl, ha.2⟩
      · cases h

theorem terminateEntries_eq_self
    (h : (terminateEntries name entries).2 = none) :
    (terminateEntries name entries).1 = entries := by
  induction entries with
  | nil => rfl
  | cons a entries ih =>
    simp only [terminateEntries] at h ⊢
    by_cases ha : a.name = name ∧ a.pid ≠ 0
    · rw [if_pos ha] at h
      cases hlater : (terminateEntries name entries).2 <;> rw [hlater] at h <;> cases h
    · rw [if_neg ha] at h ⊢
      exact congrArg (a :: ·) (ih h)

-- A property of pairs that a cleared entry has with every other survives the loop.
theorem pairwise_terminateEntries {r : Runningprocess → Runningprocess → Prop}
    (hleft : ∀ e, r ⟨0, 0⟩ e) (hright : ∀ e, r e ⟨0, 0⟩) (name : Int) (h : entries.Pairwise r) :
    (terminateEntries name entries).1.Pairwise r := by
  induction entries with
  | nil => exact .nil
  | cons a entries ih =>
    have hrest := ih (pairwise_cons.mp h).2
    simp only [terminateEntries]
    split
    · exact pairwise_cons.mpr ⟨fun e _ => hleft e, hrest⟩
    · apply pairwise_cons.mpr ⟨fun e he => ?_, hrest⟩
      rcases mem_terminateEntries he with rfl | he
      · exact hright a
      · exact (pairwise_cons.mp h).1 e he.1

theorem Apart.terminateEntries (h : Apart entries) (name : Int) :
    Apart (terminateEntries name entries).1 := by
  apply pairwise_terminateEntries _ _ name h
  · exact fun _ _ => rfl
  · exact fun _ heq => heq

-- The pid to be terminated is in no entry any more.
theorem Apart.pid_ne_of_terminateEntries (h : Apart entries)
    (hfound : (Dispatch.terminateEntries name entries).2 = some pid) :
    ∀ e ∈ (Dispatch.terminateEntries name entries).1, e.pid ≠ pid := by
  obtain ⟨a, ha, hname, rfl, hpid⟩ := terminateEntries_found hfound
  intro e he heq
  rcases mem_terminateEntries he with rfl | ⟨he, hkeep⟩
  · exact hpid heq.symm
  · have hne : e ≠ a := fun h => hkeep (h ▸ ⟨hname, hpid⟩)
    have hsymm : Std.Symm fun e e' : Runningprocess => e.pid = e'.pid → e.pid = 0 :=
      ⟨fun x y hxy hyx => hyx.trans (hxy hyx.symm)⟩
    exact hpid (heq ▸ h.forall he ha hne heq)

/-! ## Histories -/

/-- A finished exchange: a line that was sent and printed, or a child that was told to leave and
left. -/
inductive Exchange (M : Nat)
  | line (pid : Nat) (k : Fin M) (line : Line)
  | leave (pid messages : Nat) (steps : Int)

def Exchange.acts : Exchange M → List (Act M)
  | .line pid k l => [.sent k l, .printed pid k l]
  | .leave pid messages steps => [.told pid, .left pid messages steps]

def Complete (history : List (Act M)) : Prop :=
  ∃ xs : List (Exchange M), history = xs.flatMap Exchange.acts

/-- The exchange under way has begun with `a`. -/
def Begun (history : List (Act M)) (a : Act M) : Prop :=
  ∃ before, Complete before ∧ history = before ++ [a]

/-- Finished exchanges, and at most one under way. -/
def Ordered (history : List (Act M)) : Prop :=
  ∃ (xs : List (Exchange M)) (rest : List (Act M)), history = xs.flatMap Exchange.acts ++ rest ∧
    (rest = [] ∨ (∃ k line, rest = [.sent k line]) ∨ ∃ pid, rest = [.told pid])

/-- No child prints after it was told to leave. -/
def Silent (history : List (Act M)) : Prop :=
  ∀ before after pid, history = before ++ .told pid :: after →
    ∀ k line, .printed pid k line ∉ after

theorem Begun.finish {a b : Act M} (h : Begun history a) (x : Exchange M)
    (hx : x.acts = [a, b]) : Complete (history ++ [b]) := by
  obtain ⟨_, ⟨xs, rfl⟩, rfl⟩ := h
  refine ⟨xs ++ [x], ?_⟩
  simp [hx]

theorem Complete.begun (h : Complete history) (a : Act M) :
    Begun (history ++ [a]) a := ⟨history, h, rfl⟩

theorem Complete.ordered (h : Complete history) : Ordered history := by
  obtain ⟨xs, rfl⟩ := h
  exact ⟨xs, [], (append_nil _).symm, .inl rfl⟩

theorem Begun.ordered_of_sent {line : Line} (h : Begun history (.sent k line)) :
    Ordered history := by
  obtain ⟨_, ⟨xs, rfl⟩, rfl⟩ := h
  exact ⟨xs, _, rfl, .inr (.inl ⟨k, line, rfl⟩)⟩

theorem Begun.ordered_of_told (h : Begun history (.told pid)) : Ordered history := by
  obtain ⟨_, ⟨xs, rfl⟩, rfl⟩ := h
  exact ⟨xs, _, rfl, .inr (.inr ⟨pid, rfl⟩)⟩

theorem Silent.append (h : Silent history) {a : Act M}
    (ha : ∀ pid k line, a = .printed pid k line → .told pid ∉ history) :
    Silent (history ++ [a]) := by
  intro before after pid heq k line hin
  rcases append_eq_append_iff.mp heq with ⟨c, hbefore, hc⟩ | ⟨c, hhist, hc⟩
  · -- the command to leave would have to be `a` itself or come after it
    cases c with
    | nil =>
      cases hc
      cases hin
    | cons x c => simp at hc
  · cases c with
    | nil =>
      cases hc
      cases hin
    | cons x c =>
      cases hc
      rcases mem_append.mp hin with hin | hin
      · exact h before c pid hhist k line hin
      · have heq := mem_singleton.mp hin
        exact ha pid k line heq.symm (hhist ▸ by simp)

/-! ## Children at rest -/

def occupied (slot : Fin M → Nat) : Finset (Fin M) := Finset.univ.filter fun k => slot k ≠ 0

theorem occupied_update_pid {p : Nat} (hk : slot k = 0)
    (hp : p ≠ 0) : (occupied (update slot k p)).card = (occupied slot).card + 1 := by
  have hset : occupied (update slot k p) = insert k (occupied slot) := by
    ext j
    by_cases hj : j = k
    · simp [occupied, hj, hp]
    · simp [occupied, hj]
  rw [hset, Finset.card_insert_of_notMem (by simp [occupied, hk])]

theorem occupied_update_zero (hk : slot k ≠ 0) :
    (occupied (update slot k 0)).card + 1 = (occupied slot).card := by
  have hzero : update slot k 0 k = 0 := update_self ..
  have hcard := occupied_update_pid hzero hk
  rw [update_idem, update_eq_self] at hcard
  exact hcard.symm

/-- A child that has a slot waits on its semaphore; any other has left or was never started. -/
def Parked (child : Nat → Child M) (slot : Fin M → Nat) (p : Nat) : Prop :=
  (∃ k, slot k = p ∧ p ≠ 0 ∧ (child p).pc = .waiting k) ∨
    (∀ k, slot k = p → p = 0) ∧ ((child p).pc = .absent ∨ (child p).pc = .exited)

/-- The tables while the child `x`, if any, is under way: all others are parked and told to leave
exactly when they have left, entries in use name children with a slot, and `running` exceeds the
number of slots in use by `d`. -/
structure SettledAt (child : Nat → Child M) (slot : Fin M → Nat) (entries : List Runningprocess)
    (running : Int) (history : List (Act M)) (x : Option Nat) (d : Int) : Prop where
  inj : ∀ k k', slot k = slot k' → slot k ≠ 0 → k = k'
  parked : ∀ p, x ≠ some p → Parked child slot p
  left : ∀ p, x ≠ some p → ((child p).pc = .exited ↔ .told p ∈ history)
  count : running = (occupied slot).card + d
  live : ∀ e ∈ entries, e.pid ≠ 0 → x = some e.pid ∨ ∃ k, slot k = e.pid
  apart : Apart entries
  silent : Silent history

namespace SettledAt

variable {child : Nat → Child M} {slot : Fin M → Nat} {entries : List Runningprocess}
  {running : Int} {history : List (Act M)} {x : Option Nat} {d : Int} {p : Nat} {k : Fin M}

theorem exempt (h : SettledAt child slot entries running history none d) (p : Nat) :
    SettledAt child slot entries running history (some p) d :=
  { h with
    parked := fun q _ => h.parked q nofun
    left := fun q _ => h.left q nofun
    live := fun e he hpid => .inr ((h.live e he hpid).resolve_left nofun) }

theorem park (h : SettledAt child slot entries running history (some p) d)
    (hp : Parked child slot p) (hleft : (child p).pc = .exited ↔ .told p ∈ history)
    (hlive : ∀ e ∈ entries, e.pid = p → p ≠ 0 → ∃ k, slot k = p) :
    SettledAt child slot entries running history none d :=
  { h with
    parked := fun q _ => by
      by_cases hq : p = q
      · exact hq ▸ hp
      · exact h.parked q fun heq => hq (Option.some.inj heq)
    left := fun q _ => by
      by_cases hq : p = q
      · exact hq ▸ hleft
      · exact h.left q fun heq => hq (Option.some.inj heq)
    live := fun e he hpid => by
      rcases h.live e he hpid with heq | hseat
      · have hep : p = e.pid := Option.some.inj heq
        exact .inr (hep ▸ hlive e he hep.symm (hep ▸ hpid))
      · exact .inr hseat }

theorem setChild (h : SettledAt child slot entries running history (some p) d) (c : Child M) :
    SettledAt (update child p c) slot entries running history (some p) d := by
  have hsame : ∀ q, some p ≠ some q → update child p c q = child q := fun q hq =>
    update_of_ne (fun heq => hq (congrArg some heq.symm)) _ _
  exact { h with
    parked := fun q hq => by
      rw [Parked, hsame q hq]
      exact h.parked q hq
    left := fun q hq => by
      rw [hsame q hq]
      exact h.left q hq }

theorem append (h : SettledAt child slot entries running history x d) {a : Act M}
    (htold : ∀ q, a = .told q → x = some q)
    (hprint : ∀ q k line, a = .printed q k line → .told q ∉ history) :
    SettledAt child slot entries running (history ++ [a]) x d :=
  { h with
    left := fun q hq => by
      rw [h.left q hq, mem_append, mem_singleton]
      constructor
      · exact .inl
      · intro hin
        exact hin.resolve_right fun heq => hq (htold q heq.symm)
    silent := h.silent.append hprint }

theorem addRunning (h : SettledAt child slot entries running history x d) (n : Int) :
    SettledAt child slot entries (running + n) history x (d + n) :=
  { h with count := by rw [h.count, Int.add_assoc] }

-- A slot changes hands between nobody and the child under way, which has no other.
theorem reseat (h : SettledAt child slot entries running history (some p) d) {v : Nat} {d' : Int}
    (hk : slot k = 0 ∨ slot k = p) (hv : v = 0 ∨ v = p) (hfree : ∀ j, j ≠ k → slot j = p → p = 0)
    (hcount : running = (occupied (update slot k v)).card + d') :
    SettledAt child (update slot k v) entries running history (some p) d' := by
  have hother : ∀ j q, q ≠ 0 → q ≠ p → (update slot k v j = q ↔ slot j = q) := by
    intro j q hzero hne
    by_cases hjk : j = k
    · rw [hjk, update_self]
      omega
    · rw [update_of_ne hjk]
  have hmine : ∀ j, update slot k v j = p → p ≠ 0 → j = k := by
    intro j hj hp
    by_contra hjk
    rw [update_of_ne hjk] at hj
    exact hp (hfree j hjk hj)
  exact { h with
    count := hcount
    inj := fun i j hij hi => by
      by_cases hip : update slot k v i = p
      · rw [hmine i hip (hip ▸ hi), hmine j (hij ▸ hip) (hip ▸ hi)]
      · have hval := (hother i _ hi hip).mp rfl
        exact h.inj i j (hval.trans ((hother j _ hi hip).mp hij.symm).symm) (hval ▸ hi)
    parked := fun q hq => by
      have hne : q ≠ p := fun heq => hq (heq ▸ rfl)
      rcases h.parked q hq with ⟨j, hj, hq0, hpc⟩ | ⟨hnone, hpc⟩
      · exact .inl ⟨j, (hother j q hq0 hne).mpr hj, hq0, hpc⟩
      · exact .inr ⟨fun j hj => by_contra fun hq0 =>
          hq0 (hnone j ((hother j q hq0 hne).mp hj)), hpc⟩
    live := fun e he hpid => by
      rcases h.live e he hpid with heq | ⟨j, hj⟩
      · exact .inl heq
      · by_cases hep : e.pid = p
        · exact .inl (congrArg some hep.symm)
        · exact .inr ⟨j, (hother j _ hpid hep).mpr hj⟩ }

-- The new child takes the free slot.
theorem occupy (h : SettledAt child slot entries running history (some p) 1) (hk : slot k = 0)
    (hp : p ≠ 0) (hfree : ∀ j, slot j = p → p = 0) :
    SettledAt child (update slot k p) entries running history (some p) 0 := by
  refine h.reseat (.inl hk) (.inr rfl) (fun j _ => hfree j) ?_
  rw [h.count, occupied_update_pid hk hp]
  omega

-- The parent takes the slot from the child that it terminates.
theorem vacate (h : SettledAt child slot entries running history (some p) (-1)) (hk : slot k = p)
    (hp : p ≠ 0) : SettledAt child (update slot k 0) entries running history (some p) 0 := by
  refine h.reseat (.inr hk) (.inl rfl) (fun j hjk hj => ?_) ?_
  · exact absurd (h.inj j k (hj.trans hk.symm) (hj ▸ hp)) hjk
  · rw [h.count, ← occupied_update_zero (hk ▸ hp)]
    omega

-- While a started child has no slot yet, one is free.
theorem exists_free (h : SettledAt child slot entries running history x 1) (hM : running ≤ M) :
    ∃ k, slot k = 0 := by
  by_contra hfull
  have hall : occupied slot = Finset.univ := by
    ext k
    simp only [occupied, Finset.mem_filter, Finset.mem_univ, true_and, iff_true]
    exact fun hk => hfull ⟨k, hk⟩
  have hcount := h.count
  rw [hall, Finset.card_univ, Fintype.card_fin] at hcount
  omega

end SettledAt

end OsProjects.Dispatch
