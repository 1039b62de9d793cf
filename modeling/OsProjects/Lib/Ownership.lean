import Mathlib.Algebra.BigOperators.Group.Finset.Basic
import Mathlib.Algebra.BigOperators.Fin

/-!
# Ownership — which position of a pointer structure holds which block, and sums of references

A position `x` holds the block `own x`, with `0` for none.  Positions and blocks are one to one
when no block sits at two positions and every held block is in use; nothing leaks when every block
in use sits somewhere.  A sum over positions changes with the one that changes.
-/

namespace OsProjects.Lib

open Function

variable {ι : Type}

structure Owned (pos : ι → Prop) (own : ι → Nat) (used : Nat → Prop) : Prop where
  used_of_own : ∀ x, pos x → own x ≠ 0 → used (own x)
  inj : ∀ x y, pos x → pos y → own x ≠ 0 → own x = own y → x = y

def NoLeak (pos : ι → Prop) (own : ι → Nat) (used : Nat → Prop) : Prop :=
  ∀ b, used b → ∃ x, pos x ∧ own x = b

namespace Owned

variable {pos pos' : ι → Prop} {own own' : ι → Nat} {used used' : Nat → Prop}

-- Every position still occupied holds what it held, and that is still in use.
theorem transfer (h : Owned pos own used) (hown : ∀ x, pos' x → own' x ≠ 0 → pos x ∧ own' x = own x)
    (hused : ∀ x, pos' x → own' x ≠ 0 → used (own x) → used' (own x)) : Owned pos' own' used' := by
  refine ⟨fun x hx hne => ?_, fun x y hx hy hne heq => ?_⟩
  · obtain ⟨hpos, hkept⟩ := hown x hx hne
    have hx' := hused x hx hne (h.used_of_own x hpos (by rwa [← hkept]))
    rwa [hkept]
  · obtain ⟨hxpos, hxkept⟩ := hown x hx hne
    obtain ⟨hypos, hykept⟩ := hown y hy (by rwa [← heq])
    rw [hxkept] at hne
    rw [hxkept, hykept] at heq
    exact h.inj x y hxpos hypos hne heq

theorem congr (h : Owned pos own used) (hown : ∀ x, pos x → own' x = own x)
    (hused : ∀ b, used b → used' b) : Owned pos own' used' :=
  h.transfer (fun x hx _ => ⟨hx, hown x hx⟩) fun _ _ _ => hused _

-- A block not in use, put at an empty position.
theorem alloc [DecidableEq ι] (h : Owned pos own used) {x : ι} {b : Nat} (hfree : ¬ used b)
    (hown : ∀ y, pos y → own' y = if y = x then b else own y)
    (hused : ∀ c, used' c ↔ used c ∨ c = b) : Owned pos own' used' := by
  refine ⟨fun y hy hne => ?_, fun y z hy hz hne heq => ?_⟩
  · rw [hown y hy] at hne ⊢
    by_cases hyx : y = x
    · rw [if_pos hyx]
      exact (hused b).mpr (.inr rfl)
    · rw [if_neg hyx] at hne ⊢
      exact (hused _).mpr (.inl (h.used_of_own y hy hne))
  · rw [hown y hy] at hne heq
    rw [hown z hz] at heq
    by_cases hyx : y = x
    · rw [if_pos hyx] at hne heq
      by_cases hzx : z = x
      · rw [hyx, hzx]
      · rw [if_neg hzx] at heq
        exact absurd (heq ▸ h.used_of_own z hz (heq ▸ hne)) hfree
    · rw [if_neg hyx] at hne heq
      split at heq
      · exact absurd (heq ▸ h.used_of_own y hy hne) hfree
      · exact h.inj y z hy hz hne heq

end Owned

section Counting

variable {β M : Type} [DecidableEq ι] [AddCommMonoid M] {S : Finset ι}

-- The term that differs is exchanged.
theorem sum_exchange {p : ι} (hp : p ∈ S) {f g : ι → M}
    (h : ∀ q ∈ S, q ≠ p → f q = g q) : ∑ q ∈ S, f q + g p = ∑ q ∈ S, g q + f p := by
  have hrest : ∑ q ∈ S.erase p, f q = ∑ q ∈ S.erase p, g q := by
    apply Finset.sum_congr rfl
    intro q hq
    exact h q (Finset.mem_of_mem_erase hq) (Finset.ne_of_mem_erase hq)
  rw [← Finset.sum_erase_add S f hp, ← Finset.sum_erase_add S g hp, hrest, add_assoc, add_assoc,
    add_comm (f p)]

theorem sum_update_add {p : ι} (hp : p ∈ S) (F : β → M) (g : ι → β) (m : β) :
    ∑ q ∈ S, F (update g p m q) + F (g p) = ∑ q ∈ S, F (g q) + F m := by
  have hsum := sum_exchange hp (f := fun q => F (update g p m q)) (g := fun q => F (g q))
    fun q _ hq => by rw [update_of_ne hq]
  rwa [update_self] at hsum

end Counting

end OsProjects.Lib
