import OsProjects.Lib.Reach
import Mathlib.Logic.Function.Basic

/-!
# Prog — programs of atomic actions, run alone or interleaved

A program returns, or performs an atomic action and goes on with the machine's reply.  One program
can be run to its end on a state; several can be interleaved, one action at a time, on a shared one.
-/

namespace OsProjects.Lib

open Function

/-- Programs over the actions `A`, where `R a` is the type of the replies to `a`. -/
inductive Prog (A : Type) (R : A → Type) (α : Type) : Type
  | ret (x : α) : Prog A R α
  | act (a : A) (k : R a → Prog A R α) : Prog A R α

namespace Prog

variable {A : Type} {R : A → Type} {α β σ χ : Type}

protected def bind : Prog A R α → (α → Prog A R β) → Prog A R β
  | .ret x, f => f x
  | .act a k, f => .act a fun r => (k r).bind f

instance : Monad (Prog A R) where
  pure := .ret
  bind := Prog.bind

protected theorem bind_ret (x : Prog A R α) : x.bind .ret = x := by
  induction x with
  | ret x => rfl
  | act a k ih => exact congrArg (act a) (funext ih)

protected theorem bind_bind {γ : Type} (x : Prog A R α) (f : α → Prog A R β)
    (g : β → Prog A R γ) : (x.bind f).bind g = x.bind fun y => (f y).bind g := by
  induction x with
  | ret x => rfl
  | act a k ih => exact congrArg (act a) (funext ih)

instance : LawfulMonad (Prog A R) :=
  .mk' _ Prog.bind_ret (fun _ _ => rfl) Prog.bind_bind

def call (a : A) : Prog A R (R a) := .act a .ret

variable (exec : (a : A) → σ → Except χ (R a × σ)) {x : Prog A R α} {s : σ} {f : α → Prog A R β}
  {a : A}

/-- Run a program alone, to its end or to the action that stops it. -/
def run : Prog A R α → σ → Except χ (α × σ)
  | .ret x, s => .ok (x, s)
  | .act a k, s => exec a s >>= fun y => (k y.1).run y.2

theorem run_act (a : A) (k : R a → Prog A R α) (s : σ) :
    (act a k).run exec s = exec a s >>= fun y => (k y.1).run exec y.2 := rfl

@[simp] theorem run_pure (x : α) (s : σ) : (pure x : Prog A R α).run exec s = .ok (x, s) := rfl

@[simp] theorem run_call (a : A) (s : σ) : (call a).run exec s = exec a s := by
  rw [call, run_act]
  cases exec a s <;> rfl

theorem run_bind (x : Prog A R α) (f : α → Prog A R β) (s : σ) :
    (x >>= f).run exec s = x.run exec s >>= fun y => (f y.1).run exec y.2 := by
  induction x generalizing s with
  | ret x => rfl
  | act a k ih =>
    show (Prog.act a fun r => (k r) >>= f).run exec s = (Prog.act a k).run exec s >>= _
    rw [run_act, run_act]
    cases exec a s with
    | error w => rfl
    | ok y => exact ih y.1 y.2

theorem run_bind_ok {t : σ} {y : α}
    (h : x.run exec s = .ok (y, t)) : (x >>= f).run exec s = (f y).run exec t := by
  rw [run_bind, h]
  rfl

theorem run_bind_error {w : χ} (h : x.run exec s = .error w) : (x >>= f).run exec s = .error w := by
  rw [run_bind, h]
  rfl

theorem run_call_ok {f : R a → Prog A R β} {t : σ} {r : R a} (h : exec a s = .ok (r, t)) :
    (call a >>= f).run exec s = (f r).run exec t := run_bind_ok exec ((run_call exec a s).trans h)

theorem run_call_error {f : R a → Prog A R β} {w : χ} (h : exec a s = .error w) :
    (call a >>= f).run exec s = .error w := run_bind_error exec ((run_call exec a s).trans h)

/-- If the program, run alone on `s`, comes to its end, then with `Q`. -/
def After : Prog A R α → σ → (α → σ → Prop) → Prop
  | .ret x, s, Q => Q x s
  | .act a k, s, Q => ∀ r s', exec a s = .ok (r, s') → (k r).After s' Q

variable {exec} {Q Q' : α → σ → Prop}

@[simp] theorem after_pure {x : α} : (pure x : Prog A R α).After exec s Q ↔ Q x s := Iff.rfl

@[simp] theorem after_call {Q : R a → σ → Prop} :
    (call a).After exec s Q ↔ ∀ r s', exec a s = .ok (r, s') → Q r s' := Iff.rfl

@[simp] theorem after_bind {Q : β → σ → Prop} :
    (x >>= f).After exec s Q ↔ x.After exec s fun y s' => (f y).After exec s' Q := by
  induction x generalizing s with
  | ret x => rfl
  | act a k ih =>
    show (∀ r s', exec a s = .ok (r, s') → ((k r) >>= f).After exec s' Q) ↔
      ∀ r s', exec a s = .ok (r, s') → (k r).After exec s' _
    simp only [ih]

theorem After.mono (h : x.After exec s Q) (himp : ∀ y s', Q y s' → Q' y s') :
    x.After exec s Q' := by
  induction x generalizing s with
  | ret x => exact himp x s h
  | act a k ih => exact fun r s' hexec => ih r (h r s' hexec)

theorem After.and (h : x.After exec s Q)
    (h' : x.After exec s Q') : x.After exec s fun y s' => Q y s' ∧ Q' y s' := by
  induction x generalizing s with
  | ret x => exact ⟨h, h'⟩
  | act a k ih => exact fun r s' hexec => ih r (h r s' hexec) (h' r s' hexec)

theorem After.trivial (x : Prog A R α) (s : σ) : x.After exec s fun _ _ => True := by
  induction x generalizing s with
  | ret x => exact True.intro
  | act a k ih => exact fun r s' _ => ih r s'

theorem After.bind
    {Q' : β → σ → Prop} (h : x.After exec s Q) (hf : ∀ y s', Q y s' → (f y).After exec s' Q') :
    (x >>= f).After exec s Q' := after_bind.mpr (h.mono hf)

theorem After.of_run {s' : σ} {y : α}
    (h : x.After exec s Q) (hrun : x.run exec s = .ok (y, s')) : Q y s' := by
  induction x generalizing s with
  | ret x =>
    obtain ⟨rfl, rfl⟩ := Prod.mk.inj (Except.ok.inj hrun)
    exact h
  | act a k ih =>
    rw [run_act] at hrun
    cases hexec : exec a s with
    | error w =>
      rw [hexec] at hrun
      cases hrun
    | ok z =>
      rw [hexec] at hrun
      exact ih z.1 (h z.1 z.2 hexec) hrun

-- A program run alone has one end at most.
theorem after_iff : x.After exec s Q ↔ ∀ y s', x.run exec s = .ok (y, s') → Q y s' := by
  constructor
  · exact fun h y s' hrun => h.of_run hrun
  · intro h
    induction x generalizing s with
    | ret x => exact h x s rfl
    | act a k ih =>
      intro r s' hexec
      apply ih
      intro y s'' hrun
      apply h
      rwa [run_act, hexec]

/-- A program that still has an action to perform. -/
def pending : Prog A R α → Option (Prog A R α)
  | .ret _ => none
  | .act a k => some (.act a k)

end Prog

/-! ## Interleaving -/

/-- A shared state, and for each process the program it is running, if any. -/
structure Config (σ π : Type) (A : Type) (R : A → Type) (α : Type) where
  shared : σ
  jobs : π → Option (Prog A R α)

/-- A process starts a program, or performs the next action of the one it runs. -/
inductive Event (π κ : Type)
  | start (p : π) (c : κ)
  | run (p : π)

namespace Config

variable {σ π A χ κ α : Type} {R : A → Type} [DecidableEq π]

/-- The action that `p` performs next. -/
def next (c : Config σ π A R α) (p : π) : Option A :=
  match c.jobs p with
  | some (.act a _) => some a
  | _ => none

/-- No program is running. -/
def Quiescent (c : Config σ π A R α) : Prop := ∀ p, c.jobs p = none

variable (exec : π → (a : A) → σ → Except χ (R a × σ)) (code : κ → Prog A R α)

-- An event that cannot happen is the error `none`; `some w` is what the machine stops with.
def step (c : Config σ π A R α) : Event π κ → Except (Option χ) (Config σ π A R α)
  | .start p call =>
    match c.jobs p with
    | some _ => .error none
    | none => .ok { c with jobs := update c.jobs p (code call).pending }
  | .run p =>
    match c.jobs p with
    | some (.act a k) =>
      match exec p a c.shared with
      | .ok y => .ok ⟨y.2, update c.jobs p (k y.1).pending⟩
      | .error w => .error (some w)
    | _ => .error none

/-- The events of a run in which each action is `allowed` in the state it meets. -/
def Admits (allowed : σ → π → A → Prop) (c : Config σ π A R α) : Event π κ → Prop
  | .start _ _ => True
  | .run p => ∀ a, c.next p = some a → allowed c.shared p a

instance (allowed : σ → π → A → Prop) [∀ s p a, Decidable (allowed s p a)]
    (c : Config σ π A R α) : (e : Event π κ) → Decidable (c.Admits allowed e)
  | .start _ _ => .isTrue trivial
  | .run p =>
    match hnext : c.next p with
    | none => .isTrue fun _ ha => nomatch hnext.symm.trans ha
    | some a =>
      if h : allowed c.shared p a then
        .isTrue fun _ ha => Option.some.inj (hnext.symm.trans ha) ▸ h
      else .isFalse fun hall => h (hall a hnext)

variable {exec code}

theorem step_cases {c c' : Config σ π A R α} {e : Event π κ} (h : c.step exec code e = .ok c') :
    (∃ p call, e = .start p call ∧ c.jobs p = none ∧
      c' = { c with jobs := update c.jobs p (code call).pending }) ∨
    ∃ p a k r s, e = .run p ∧ c.jobs p = some (.act a k) ∧ exec p a c.shared = .ok (r, s) ∧
      c' = ⟨s, update c.jobs p (k r).pending⟩ := by
  cases e with
  | start p call =>
    left
    cases hjob : c.jobs p with
    | some _ => simp only [step, hjob, reduceCtorEq] at h
    | none =>
      simp only [step, hjob, Except.ok.injEq] at h
      exact ⟨p, call, rfl, hjob, h.symm⟩
  | run p =>
    right
    match hjob : c.jobs p with
    | none | some (.ret x) => simp only [step, hjob, reduceCtorEq] at h
    | some (.act a k) =>
      cases hexec : exec p a c.shared with
      | error w => simp only [step, hjob, hexec, reduceCtorEq] at h
      | ok z =>
        simp only [step, hjob, hexec, Except.ok.injEq] at h
        exact ⟨p, a, k, z.1, z.2, rfl, hjob, hexec, h.symm⟩

end Config

end OsProjects.Lib
