import OsProjects.Lib.FlatArray
import Mathlib.Logic.Function.Basic

/-!
# Slots — a finite map kept in an array of slots

A slot is free or holds a key with its value.  A new key goes into a free slot or behind the last
one; a key is removed by freeing its slot.
-/

namespace OsProjects.Lib

open Function List

namespace Slots

variable {κ ν : Type}

/-- No key is in two slots. -/
def Distinct (l : List (Option (κ × ν))) : Prop :=
  ∀ (i j : Nat) (x y : κ × ν), l[i]? = some (some x) → l[j]? = some (some y) → x.1 = y.1 → i = j

theorem getElem?_write_one {α : Type} (l : List α) {i : Nat} (hi : i ≤ l.length) (x : α) (j : Nat) :
    (FlatArray.write l i [x])[j]? = if j = i then some x else l[j]? := by
  have hlen : (l.take i).length = i := length_take_of_le hi
  rw [FlatArray.write, append_assoc]
  rcases Nat.lt_trichotomy j i with hlt | heq | hgt
  · rw [List.getElem?_append_left (by omega), List.getElem?_take_of_lt hlt, if_neg (by omega)]
  · rw [List.getElem?_append_right (by omega), hlen, heq, Nat.sub_self, if_pos rfl]
    rfl
  · rw [List.getElem?_append_right (by omega), hlen, if_neg (by omega),
      show j - i = j - i - 1 + 1 by omega, cons_append, List.getElem?_cons_succ,
      nil_append, List.getElem?_drop]
    congr 1
    simp only [length_singleton]
    omega

variable [DecidableEq κ] {l : List (Option (κ × ν))} {k : κ}

/-- The value under `k`: that of the first slot with this key. -/
def lookup (l : List (Option (κ × ν))) (k : κ) : Option ν :=
  l.findSome? fun slot => slot.bind fun x => if x.1 = k then some x.2 else none

theorem lookup_eq_none : lookup l k = none ↔ ∀ v, some (k, v) ∉ l := by
  rw [lookup, List.findSome?_eq_none_iff]
  constructor
  · intro h v hmem
    simpa using h _ hmem
  · intro h slot hmem
    cases slot with
    | none => rfl
    | some x =>
      rw [Option.bind_some, if_neg]
      intro hk
      exact h x.2 (hk ▸ hmem)

theorem Distinct.lookup_eq_some (h : Distinct l) {v : ν} :
    lookup l k = some v ↔ some (k, v) ∈ l := by
  have hfound {w : ν} (hw : lookup l k = some w) : some (k, w) ∈ l := by
    obtain ⟨slot, hmem, hslot⟩ := exists_of_findSome?_eq_some hw
    obtain ⟨x, rfl, hx⟩ := Option.bind_eq_some_iff.mp hslot
    split at hx
    next hk =>
      rw [Option.some.injEq] at hx
      rwa [← hk, ← hx]
    · cases hx
  refine ⟨hfound, fun hmem => ?_⟩
  cases hlook : lookup l k with
  | none => exact absurd hmem (lookup_eq_none.mp hlook v)
  | some w =>
    obtain ⟨i, hi⟩ := mem_iff_getElem?.mp hmem
    obtain ⟨j, hj⟩ := mem_iff_getElem?.mp (hfound hlook)
    obtain rfl := h i j _ _ hi hj rfl
    rw [hi, Option.some.injEq, Option.some.injEq, Prod.mk.injEq] at hj
    rw [hj.2]

section Write

variable {l : List (Option (κ × ν))} {i : Nat}

omit [DecidableEq κ] in
theorem mem_write_one (hi : i ≤ l.length) (slot x : Option (κ × ν)) :
    x ∈ FlatArray.write l i [slot] ↔ x = slot ∨ ∃ j, j ≠ i ∧ l[j]? = some x := by
  simp only [mem_iff_getElem?, getElem?_write_one l hi]
  constructor
  · rintro ⟨j, hj⟩
    split at hj
    · rw [Option.some.injEq] at hj
      exact .inl hj.symm
    next hji =>
      exact .inr ⟨j, hji, hj⟩
  · rintro (rfl | ⟨j, hji, hj⟩)
    · exact ⟨i, if_pos rfl⟩
    · exact ⟨j, by rw [if_neg hji, hj]⟩

-- A new key in a slot that is free, or not there yet.
theorem Distinct.put (h : Distinct l) (hi : i ≤ l.length) (hfree : ∀ x, l[i]? ≠ some (some x))
    (hk : lookup l k = none) (v : ν) : Distinct (FlatArray.write l i [some (k, v)]) ∧
      lookup (FlatArray.write l i [some (k, v)]) = update (lookup l) k (some v) := by
  have hnew : ∀ (j : Nat) (x : κ × ν), l[j]? = some (some x) → x.1 ≠ k := by
    intro j x hj hx
    apply lookup_eq_none.mp hk x.2
    rw [← hx]
    exact mem_of_getElem? hj
  have hdist : Distinct (FlatArray.write l i [some (k, v)]) := by
    intro a b x y ha hb hxy
    rw [getElem?_write_one l hi] at ha hb
    split at ha
    next hai =>
      rw [Option.some.injEq, Option.some.injEq] at ha
      by_cases hbi : b = i
      · rw [hai, hbi]
      · rw [if_neg hbi] at hb
        exact absurd (by rw [← hxy, ← ha]) (hnew b y hb)
    · split at hb
      · rw [Option.some.injEq, Option.some.injEq] at hb
        exact absurd (by rw [hxy, ← hb]) (hnew a x ha)
      · exact h a b x y ha hb hxy
  refine ⟨hdist, funext fun k' => Option.ext fun w => ?_⟩
  rw [hdist.lookup_eq_some, mem_write_one hi, update_apply]
  split
  next hk' =>
    rw [hk', Option.some.injEq, Prod.mk.injEq, Option.some.injEq]
    refine ⟨fun hmem => ?_, fun hw => .inl ⟨rfl, hw.symm⟩⟩
    rcases hmem with hmem | ⟨j, -, hj⟩
    · exact hmem.2.symm
    · exact absurd rfl (hnew j _ hj)
  next hk' =>
    rw [h.lookup_eq_some, Option.some.injEq, Prod.mk.injEq]
    refine ⟨fun hmem => ?_, fun hmem => .inr ?_⟩
    · rcases hmem with hmem | ⟨j, -, hj⟩
      · exact absurd hmem.1 hk'
      · exact mem_of_getElem? hj
    · obtain ⟨j, hj⟩ := mem_iff_getElem?.mp hmem
      refine ⟨j, fun hji => ?_, hj⟩
      rw [hji] at hj
      exact hfree _ hj

-- Freeing the slot of a key removes the key.
theorem Distinct.clear (h : Distinct l) {x : κ × ν} (hx : l[i]? = some (some x)) :
    Distinct (FlatArray.write l i [none]) ∧
      lookup (FlatArray.write l i [none]) = update (lookup l) x.1 none := by
  have hi : i ≤ l.length := Nat.le_of_lt (List.getElem?_eq_some_iff.mp hx).1
  have hdist : Distinct (FlatArray.write l i [none]) := by
    intro a b y z ha hb hyz
    rw [getElem?_write_one l hi] at ha hb
    by_cases hai : a = i
    · rw [if_pos hai] at ha
      cases ha
    · by_cases hbi : b = i
      · rw [if_pos hbi] at hb
        cases hb
      · rw [if_neg hai] at ha
        rw [if_neg hbi] at hb
        exact h a b y z ha hb hyz
  refine ⟨hdist, funext fun k' => Option.ext fun w => ?_⟩
  rw [hdist.lookup_eq_some, mem_write_one hi, update_apply]
  simp only [reduceCtorEq, false_or]
  split
  next hk' =>
    refine ⟨fun ⟨j, hji, hj⟩ => absurd (h j i _ _ hj hx hk') hji, fun hmem => ?_⟩
    cases hmem
  next hk' =>
    rw [h.lookup_eq_some]
    refine ⟨fun ⟨_, _, hj⟩ => mem_of_getElem? hj, fun hmem => ?_⟩
    obtain ⟨j, hj⟩ := mem_iff_getElem?.mp hmem
    refine ⟨j, fun hji => ?_, hj⟩
    rw [hji, hx, Option.some.injEq, Option.some.injEq] at hj
    rw [hj] at hk'
    exact hk' rfl

end Write

end Slots

end OsProjects.Lib
