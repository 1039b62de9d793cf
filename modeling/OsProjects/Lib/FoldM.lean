import Mathlib.Data.List.Basic

/-!
# FoldM — loops in `Except` that are loops over a flat list

The body of an outer loop may be a loop itself, and may read the state as long as the steps do not
change what it reads.
-/

namespace OsProjects.Lib

open List

variable {σ α β ε : Type} {step : σ → β → Except ε σ}

theorem bind_eq_ok {x : Except ε α} {f : α → Except ε β} {b : β} :
    x >>= f = .ok b ↔ ∃ a, x = .ok a ∧ f a = .ok b := by
  cases x with
  | error e =>
    refine ⟨fun h => (by cases h), fun ⟨a, h, _⟩ => (by cases h)⟩
  | ok a => exact ⟨fun h => ⟨a, rfl, h⟩, fun ⟨_, h, hf⟩ => by cases h; exact hf⟩

theorem foldlM_append_except (step : σ → β → Except ε σ) (s : σ) (xs ys : List β) :
    (xs ++ ys).foldlM step s = (xs.foldlM step s).bind fun t => ys.foldlM step t :=
  foldlM_append

-- A property that every step keeps holds at the end.
theorem foldlM_invariant {step : σ → β → Except ε σ} {P : σ → Prop} {xs : List β}
    (hstep : ∀ s b s', b ∈ xs → P s → step s b = .ok s' → P s') {s s' : σ} (hs : P s)
    (h : xs.foldlM step s = .ok s') : P s' := by
  induction xs generalizing s with
  | nil =>
    cases h
    exact hs
  | cons b xs ih =>
    rw [foldlM_cons] at h
    obtain ⟨t, hb, h⟩ := bind_eq_ok.mp h
    exact ih (fun s c s' hc => hstep s c s' (mem_cons_of_mem b hc))
      (hstep s b t mem_cons_self hs hb) h

-- A property that one of the steps brings about, and every step keeps, holds at the end.
theorem foldlM_establishes {P Q : σ → Prop} {xs : List β} {x : β}
    (hx : x ∈ xs) (hpre : ∀ s b s', P s → step s b = .ok s' → P s')
    (hkeeps : ∀ s b s', Q s → step s b = .ok s' → Q s')
    (hmakes : ∀ s s', P s → step s x = .ok s' → Q s') {s s' : σ} (hs : P s)
    (h : xs.foldlM step s = .ok s') : Q s' := by
  induction xs generalizing s with
  | nil => cases hx
  | cons b xs ih =>
    rw [foldlM_cons] at h
    obtain ⟨t, hb, hrest⟩ := bind_eq_ok.mp h
    rcases mem_cons.mp hx with rfl | hx
    · exact foldlM_invariant (fun s c s' _ => hkeeps s c s') (hmakes s t hs hb) hrest
    · exact ih hx (hpre s b t hs hb) hrest

-- An outer loop whose body runs `step` over the list `g a`, in every state the steps can reach.
theorem foldlM_flatten {f : σ → α → Except ε σ} {g : α → List β}
    (inv : σ → Prop) {xs : List α} (hbody : ∀ s a, a ∈ xs → inv s → f s a = (g a).foldlM step s)
    (hstep : ∀ s b s', b ∈ xs.flatMap g → inv s → step s b = .ok s' → inv s') {s : σ}
    (hs : inv s) : xs.foldlM f s = (xs.flatMap g).foldlM step s := by
  induction xs generalizing s with
  | nil => rfl
  | cons a xs ih =>
    rw [foldlM_cons, hbody s a mem_cons_self hs, flatMap_cons,
      foldlM_append_except]
    have hmem : ∀ b ∈ g a, b ∈ (a :: xs).flatMap g := fun b hb => by
      rw [flatMap_cons]
      exact mem_append_left _ hb
    have hrest : ∀ b ∈ xs.flatMap g, b ∈ (a :: xs).flatMap g := fun b hb => by
      rw [flatMap_cons]
      exact mem_append_right _ hb
    cases hone : (g a).foldlM step s with
    | error e => rfl
    | ok t =>
      have ht : inv t := foldlM_invariant (fun s b s' hb => hstep s b s' (hmem b hb)) hs hone
      exact ih (fun s a ha => hbody s a (mem_cons_of_mem _ ha))
        (fun s b s' hb => hstep s b s' (hrest b hb)) ht

end OsProjects.Lib
