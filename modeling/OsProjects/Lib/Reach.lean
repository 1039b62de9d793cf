/-!
# Reach — runs of an event-driven machine that may halt with an error

`step s e` is the machine's answer to the event `e`: a next state, or an error that ends the run.
A run is admitted when each of its events is allowed in the state it meets.
-/

namespace OsProjects.Lib

variable {σ ε χ : Type}

/-- The states that admitted runs from `s₀` reach. -/
inductive Reach (step : σ → ε → Except χ σ) (allowed : σ → ε → Prop) (s₀ : σ) : σ → Prop
  | init : Reach step allowed s₀ s₀
  | step {s s' : σ} {e : ε} : Reach step allowed s₀ s → allowed s e → step s e = .ok s' →
      Reach step allowed s₀ s'

namespace Reach

variable {step : σ → ε → Except χ σ} {allowed : σ → ε → Prop} {s₀ s : σ}

/-- A property that holds at the start and is kept by every allowed step holds in every state
reached. -/
theorem invariant {inv : σ → Prop} (h : Reach step allowed s₀ s) (hinit : inv s₀)
    (hstep : ∀ s e s', inv s → allowed s e → step s e = .ok s' → inv s') : inv s := by
  induction h with
  | init => exact hinit
  | step _ hallowed hok ih => exact hstep _ _ _ ih hallowed hok

-- Events may be given in another form.
theorem map {ε' : Type} {f : ε' → ε} {allowed' : σ → ε' → Prop}
    (h : Reach (fun s e => step s (f e)) allowed' s₀ s)
    (hallowed : ∀ s e, allowed' s e → allowed s (f e)) : Reach step allowed s₀ s := by
  induction h with
  | init => exact .init
  | step _ hok hstep ih => exact ih.step (hallowed _ _ hok) hstep

end Reach

/-- An evaluated call: it returns, and what it returns has a decidable property. -/
theorem exists_ok_of_any {x : Except χ σ} {p : σ → Bool} (h : x.toOption.any p = true) :
    ∃ s, x = .ok s ∧ p s = true := by
  cases x with
  | error e => cases h
  | ok s => exact ⟨s, rfl, h⟩

/-- Follow a list of events as long as they are allowed and the machine does not halt. -/
def follow (step : σ → ε → Except χ σ) (allowed : σ → ε → Bool) : σ → List ε → Option σ
  | s, [] => some s
  | s, e :: es =>
    if allowed s e then
      match step s e with
      | .ok s' => follow step allowed s' es
      | .error _ => none
    else none

theorem reach_of_follow {step : σ → ε → Except χ σ} {allowed : σ → ε → Prop}
    [∀ s e, Decidable (allowed s e)] {s₀ : σ} (es : List ε) {s s' : σ}
    (hs : Reach step allowed s₀ s)
    (h : follow step (fun s e => decide (allowed s e)) s es = some s') :
    Reach step allowed s₀ s' := by
  induction es generalizing s with
  | nil =>
    cases h
    exact hs
  | cons e es ih =>
    unfold follow at h
    by_cases hallowed : allowed s e
    · rw [if_pos (by simpa using hallowed)] at h
      cases hstep : step s e with
      | ok t =>
        rw [hstep] at h
        exact ih (hs.step hallowed hstep) h
      | error x =>
        rw [hstep] at h
        cases h
    · rw [if_neg (by simpa using hallowed)] at h
      cases h

/-- A concrete list of events, evaluated, exhibits a reached state with a decidable property. -/
theorem exists_reach_of_follow (step : σ → ε → Except χ σ) (allowed : σ → ε → Prop)
    [∀ s e, Decidable (allowed s e)] (s₀ : σ) (es : List ε) (p : σ → Bool)
    (h : (follow step (fun s e => decide (allowed s e)) s₀ es).any p = true) :
    ∃ s, Reach step allowed s₀ s ∧ p s = true := by
  cases hfollow : follow step (fun s e => decide (allowed s e)) s₀ es with
  | none =>
    rw [hfollow] at h
    cases h
  | some s =>
    rw [hfollow] at h
    exact ⟨s, reach_of_follow es .init hfollow, h⟩

end OsProjects.Lib
