import OsProjects.Lib.Reach
import Mathlib.Algebra.Group.Nat.Defs
import Mathlib.Logic.Function.Basic

/-!
# Spinlock — `spinlock.c`

`acquire` and `release` on several CPUs, interleaved write by write, and the `push_off` and
`pop_off` of one.
-/

namespace OsProjects.Kernel.Spinlock

open Lib Function

/-! ## The lock -/

/-- Where a CPU is in `acquire` or `release`. -/
inductive Pc (L : Type)
  | out
  /-- at the swap -/
  | spin (l : L)
  /-- `lk->cpu` is not set yet -/
  | got (l : L)
  /-- `lk->cpu` is cleared -/
  | unlock (l : L)

structure State (C L : Type) where
  locked : L → Bool
  cpu : L → Option C
  pc : C → Pc L

/-- After `initlock`. -/
def State.boot {C L : Type} : State C L := ⟨fun _ => false, fun _ => none, fun _ => .out⟩

inductive Event (C L : Type)
  | acquire (c : C) (l : L)
  | release (c : C) (l : L)
  /-- the next write of the call -/
  | go (c : C)

variable {C L : Type} [DecidableEq C] [DecidableEq L]

def holding (s : State C L) (c : C) (l : L) : Bool := s.locked l && s.cpu l == some c

/-- `some` is a panic. -/
def step (s : State C L) : Event C L → Except (Option String) (State C L)
  | .acquire c l =>
    if holding s c l then .error (some "acquire") else .ok { s with pc := update s.pc c (.spin l) }
  | .release c l =>
    if holding s c l then .ok { s with cpu := update s.cpu l none, pc := update s.pc c (.unlock l) }
    else .error (some "release")
  | .go c =>
    match s.pc c with
    | .out => .error none
    | .spin l =>
      if s.locked l then .ok s
      else .ok { s with locked := update s.locked l true, pc := update s.pc c (.got l) }
    | .got l => .ok { s with cpu := update s.cpu l (some c), pc := update s.pc c .out }
    | .unlock l => .ok { s with locked := update s.locked l false, pc := update s.pc c .out }

/-- A CPU does one call at a time. -/
def Allowed (s : State C L) : Event C L → Prop
  | .acquire c _ | .release c _ => s.pc c = .out
  | .go _ => True

/-- The lock is taken, but `lk->cpu` does not say by whom. -/
def Pc.Between (x : Pc L) (l : L) : Prop := x = .got l ∨ x = .unlock l

/-- From the swap in `acquire` to that in `release`. -/
def State.Owns (s : State C L) (c : C) (l : L) : Prop := s.cpu l = some c ∨ (s.pc c).Between l

structure State.Inv (s : State C L) : Prop where
  free : ∀ l, s.locked l = false → s.cpu l = none
  unset : ∀ c l, (s.pc c).Between l → s.locked l = true ∧ s.cpu l = none
  unique : ∀ c c' l, (s.pc c).Between l → (s.pc c').Between l → c = c'

-- Only the swap makes an owner, and it finds the lock free.
theorem State.Inv.step {s s' : State C L} {e : Event C L} (h : s.Inv) (hallowed : Allowed s e)
    (hstep : step s e = .ok s') : s'.Inv := by
  obtain ⟨hfree, hunset, hunique⟩ := h
  cases e with
  | acquire c l =>
    simp only [Spinlock.step] at hstep
    split at hstep <;> cases hstep
    constructor <;> grind [Pc.Between, update_apply]
  | release c l =>
    simp only [Spinlock.step] at hstep
    split at hstep <;> cases hstep
    constructor <;> grind [Pc.Between, Allowed, update_apply, holding]
  | go c =>
    simp only [Spinlock.step] at hstep
    split at hstep
    · cases hstep
    · split at hstep <;> cases hstep
      · exact ⟨hfree, hunset, hunique⟩
      · constructor <;> grind [Pc.Between, update_apply]
    all_goals
      cases hstep
      constructor <;> grind [Pc.Between, update_apply]

/-- Two CPUs never own a lock at once, and one that has acquired it can release it. -/
theorem spinlock_excludes {s : State C L} (h : Reach step Allowed .boot s) :
    (∀ c c' l, s.Owns c l → s.Owns c' l → c = c') ∧ ∀ c l, s.cpu l = some c →
    holding s c l = true := by
  obtain ⟨hfree, hunset, hunique⟩ : s.Inv :=
    h.invariant ⟨fun _ _ => rfl, fun _ _ hno => by cases hno <;> contradiction,
      fun _ _ _ hno => by cases hno <;> contradiction⟩ fun _ _ _ hs hallowed hok =>
        hs.step hallowed hok
  refine ⟨fun c c' l hc hc' => ?_, fun c l hc => by grind [holding]⟩
  rcases hc with hc | hc <;> rcases hc' with hc' | hc'
  · exact Option.some.inj (hc.symm.trans hc')
  · cases hc.symm.trans (hunset c' l hc').2
  · cases hc'.symm.trans (hunset c l hc).2
  · exact hunique c c' l hc hc'

-- The second CPU spins while the first one has the lock.
theorem spinlock_excludes_two : ∃ s : State Bool Unit, s.Owns false () ∧ s.pc true = .spin () ∧
    ∀ c, s.Owns c () → c = false := by
  have h : Reach step Allowed (.boot : State Bool Unit) _ := .init
  have h := h.step (e := Event.acquire false ()) rfl rfl
  have h := h.step (e := Event.go false) trivial rfl
  have h := h.step (e := Event.go false) trivial rfl
  have h := h.step (e := Event.acquire true ()) rfl rfl
  have h := h.step (e := Event.go true) trivial rfl
  exact ⟨_, .inl rfl, rfl, fun c hc => (spinlock_excludes h).1 c false () hc (.inl rfl)⟩

/-! ## `push_off` and `pop_off` -/

/-- Of `struct cpu`, and whether interrupts are on. -/
structure Cpu where
  noff : BitVec 32
  intena : Bool
  intr : Bool

def pushOff (x : Cpu) : Cpu := ⟨x.noff + 1, if x.noff = 0 then x.intr else x.intena, false⟩

def popOff (x : Cpu) : Except String Cpu :=
  if x.intr then .error "pop_off - interruptible"
  else if x.noff.toInt < 1 then .error "pop_off"
  else .ok ⟨x.noff - 1, x.intena, if x.noff - 1 = 0 ∧ x.intena then true else x.intr⟩

/-- Calls that match: a sequence of pairs, nested at most `d` deep. -/
inductive Nested : Nat → (Cpu → Except String Cpu) → Prop
  | skip {d} : Nested d .ok
  | pair {d f g} : Nested d f → Nested (d + 1) g →
      Nested (d + 1) fun x => f (pushOff x) >>= popOff >>= g

theorem toNat_succ {n : BitVec 32} (hn : n.toNat + 1 < 2 ^ 31) : (n + 1).toNat = n.toNat + 1 := by
  rw [BitVec.toNat_add]
  exact Nat.mod_eq_of_lt (by show n.toNat + 1 < 2 ^ 32; omega)

theorem popOff_succ {n : BitVec 32} (hn : n.toNat + 1 < 2 ^ 31) (i : Bool) :
    popOff ⟨n + 1, i, false⟩ = .ok ⟨n, i, decide (n = 0 ∧ i)⟩ := by
  have hpos : ¬ (n + 1).toInt < 1 := by
    rw [BitVec.toInt_eq_toNat_of_lt (by rw [toNat_succ hn]; omega), toNat_succ hn]
    omega
  rw [popOff, if_neg Bool.false_ne_true, if_neg hpos, BitVec.add_sub_cancel]
  by_cases hlast : n = 0 ∧ i
  · rw [if_pos hlast, decide_eq_true hlast]
  · rw [if_neg hlast, decide_eq_false hlast]

/-- As long as the counter stays below `2 ^ 31`, no call panics, and after the last one interrupts
are as they were. -/
theorem nested_restores {d : Nat} {f : Cpu → Except String Cpu} (h : Nested d f) (x : Cpu)
    (hdepth : x.noff.toNat + d < 2 ^ 31) (hx : x.noff ≠ 0 → x.intr = false) :
    ∃ intena, f x = .ok ⟨x.noff, intena, x.intr⟩ ∧ (x.noff ≠ 0 → intena = x.intena) := by
  induction h generalizing x with
  | skip => exact ⟨x.intena, rfl, fun _ => rfl⟩
  | @pair d f g _ _ ihf ihg =>
    have hsucc : (x.noff + 1).toNat = x.noff.toNat + 1 := toNat_succ (by omega)
    obtain ⟨i, hf, hi⟩ := ihf (pushOff x) (by show (x.noff + 1).toNat + d < _; omega) fun _ => rfl
    have hi : i = if x.noff = 0 then x.intr else x.intena :=
      hi fun hzero => by rw [show x.noff + 1 = 0 from hzero] at hsucc; cases hsucc
    have hpop : popOff ⟨x.noff + 1, i, false⟩ = .ok ⟨x.noff, i, x.intr⟩ := by
      rw [popOff_succ (by omega), hi]
      by_cases hzero : x.noff = 0
      · rw [if_pos hzero, Bool.decide_and, decide_eq_true hzero, Bool.true_and, Bool.decide_eq_true]
      · rw [hx hzero, decide_eq_false fun h => hzero h.1]
    obtain ⟨j, hg, hj⟩ := ihg ⟨x.noff, i, x.intr⟩ hdepth hx
    refine ⟨j, ?_, fun hne => (hj hne).trans (hi.trans (if_neg hne))⟩
    show f (pushOff x) >>= popOff >>= g = _
    rw [hf]
    exact (congrArg (· >>= g) hpop).trans hg

-- Two pairs in one, with interrupts on before.
theorem nested_restores_two : ∃ intena,
    ((.ok (pushOff (pushOff ⟨0, false, true⟩)) >>= popOff >>= fun x =>
      .ok (pushOff x) >>= popOff >>= .ok) >>= popOff >>= .ok) = .ok ⟨0, intena, true⟩ := by
  obtain ⟨i, hi, -⟩ := nested_restores (.pair (.pair (d := 0) .skip (.pair .skip .skip)) .skip)
    ⟨0, false, true⟩ (by decide) fun hno => absurd rfl hno
  exact ⟨i, hi⟩

end OsProjects.Kernel.Spinlock
