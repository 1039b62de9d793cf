import Mathlib.Logic.Function.Basic
import Mathlib.Data.List.Basic

/-!
# Writes — an addressed store changed by a list of atomic writes

A crash keeps a prefix of the writes, so the lemmas speak about lists of writes and their
prefixes.  The useful shape is a list in which the value written is a function of the address:
replaying such a list, any number of times, writes the same values again.
-/

namespace OsProjects.Lib

open Function

variable {α β : Type}

/-- The writes that store `f a` at each address `a` of a list. -/
def writesOf (f : α → β) (as : List α) : List (α × β) := as.map fun a => (a, f a)

theorem writesOf_concat (f : α → β) (as : List α) (a : α) :
    writesOf f (as ++ [a]) = writesOf f as ++ [(a, f a)] :=
  List.map_append

section Apply

variable [DecidableEq α]

/-- Perform the writes in order, oldest first. -/
def applyWrites (d : α → β) (ws : List (α × β)) : α → β :=
  ws.foldl (fun d w => update d w.1 w.2) d

@[simp] theorem applyWrites_nil (d : α → β) : applyWrites d [] = d := rfl

@[simp] theorem applyWrites_singleton (d : α → β) (a : α) (v : β) :
    applyWrites d [(a, v)] = update d a v := rfl

theorem applyWrites_append (d : α → β) (ws vs : List (α × β)) :
    applyWrites d (ws ++ vs) = applyWrites (applyWrites d ws) vs :=
  List.foldl_append

theorem applyWrites_writesOf (d : α → β) (f : α → β) (as : List α) (a : α) :
    applyWrites d (writesOf f as) a = if a ∈ as then f a else d a := by
  induction as generalizing d with
  | nil => rfl
  | cons x xs ih =>
    change applyWrites (update d x (f x)) (writesOf f xs) a = _
    rw [ih]
    split
    next hxs =>
      rw [if_pos (List.mem_cons_of_mem x hxs)]
    next hxs =>
      by_cases hx : a = x
      · rw [hx, update_self, if_pos List.mem_cons_self]
      · rw [update_of_ne hx, if_neg (by simp [hx, hxs])]

theorem applyWrites_cases (d : α → β) (ws : List (α × β)) (a : α) :
    (∀ w ∈ ws, w.1 ≠ a) ∧ applyWrites d ws a = d a ∨ (a, applyWrites d ws a) ∈ ws := by
  induction ws generalizing d with
  | nil => exact .inl ⟨nofun, rfl⟩
  | cons w ws ih =>
    rcases ih (update d w.1 w.2) with ⟨hnone, heq⟩ | hmem
    · by_cases ha : w.1 = a
      · have hval : applyWrites d (w :: ws) a = w.2 := heq.trans (ha ▸ update_self ..)
        rw [hval, ← ha]
        exact .inr List.mem_cons_self
      · refine .inl ⟨?_, heq.trans (update_of_ne (Ne.symm ha) ..)⟩
        intro x hx
        rcases List.mem_cons.mp hx with rfl | hx
        · exact ha
        · exact hnone x hx
    · exact .inr (List.mem_cons_of_mem _ hmem)

-- The last write to an address stays.
theorem applyWrites_last (d : α → β) (ws : List (α × β)) {vs : List (α × β)} (a : α) (v : β)
    (hvs : ∀ w ∈ vs, w.1 ≠ a) : applyWrites d (ws ++ (a, v) :: vs) a = v := by
  rw [applyWrites_append]
  rcases applyWrites_cases (update (applyWrites d ws) a v) vs a with ⟨-, heq⟩ | hmem
  · exact heq.trans (update_self ..)
  · exact absurd rfl (hvs _ hmem)

end Apply

theorem take_writesOf (f : α → β) (as : List α) (k : Nat) :
    (writesOf f as).take k = writesOf f (as.take k) := by
  rw [writesOf, writesOf, List.map_take]

@[simp] theorem length_writesOf (f : α → β) (as : List α) : (writesOf f as).length = as.length := by
  rw [writesOf, List.length_map]

end OsProjects.Lib
