import Mathlib.Data.Nat.ModEq
import Mathlib.Data.List.Basic
import Mathlib.Logic.Function.Basic

/-!
# Ring — a queue in a ring of slots, between two counters that wrap

A counter of `w` bits selects one of `N` slots by its remainder. `N` divides `2 ^ w`, so the slots
go round without a jump when a counter wraps, and the difference of two counters, taken modulo `2 ^
w`, is the number of slots between them.
-/

namespace OsProjects.Lib

open Function List

variable {α : Type*} {w N : Nat} [NeZero N]

/-- The slot that a counter selects. -/
def slot (N : Nat) [NeZero N] (i : BitVec w) : Fin N := Fin.ofNat N i.toNat

/-- What the slots hold from counter `i` up to counter `j`. -/
def between (buf : Fin N → α) (i j : BitVec w) : List α :=
  (List.range (j - i).toNat).map fun k => buf (slot N (i + BitVec.ofNat w k))

/-- The slots from counter `i` up to counter `j` hold the list. -/
structure Queued (buf : Fin N → α) (i j : BitVec w) (l : List α) : Prop where
  fits : l.length ≤ N
  stop : j = i + BitVec.ofNat w l.length
  holds : ∀ k a, l[k]? = some a → buf (slot N (i + BitVec.ofNat w k)) = a

theorem queued_nil (buf : Fin N → α) (i : BitVec w) : Queued buf i i [] :=
  ⟨Nat.zero_le N, (BitVec.add_zero i).symm, nofun⟩

theorem add_ofNat_add (i : BitVec w) (m n : Nat) :
    i + BitVec.ofNat w m + BitVec.ofNat w n = i + BitVec.ofNat w (m + n) := by
  rw [BitVec.add_assoc, ← BitVec.ofNat_add]

theorem add_ofNat_inj {i : BitVec w} {m n : Nat} (hm : m < 2 ^ w) (hn : n < 2 ^ w)
    (h : i + BitVec.ofNat w m = i + BitVec.ofNat w n) : m = n := by
  have hval := congrArg BitVec.toNat ((BitVec.add_right_inj i).mp h)
  rwa [BitVec.toNat_ofNat, BitVec.toNat_ofNat, Nat.mod_eq_of_lt hm, Nat.mod_eq_of_lt hn] at hval

section Divides

variable (hdvd : N ∣ 2 ^ w)

include hdvd

theorem val_slot_add (i : BitVec w) (k : Nat) :
    (slot N (i + BitVec.ofNat w k)).val = (i.toNat + k) % N := by
  show (i + BitVec.ofNat w k).toNat % N = _
  rw [BitVec.toNat_add, BitVec.toNat_ofNat, Nat.mod_mod_of_dvd _ hdvd, Nat.add_mod,
    Nat.mod_mod_of_dvd _ hdvd, ← Nat.add_mod]

-- Fewer than `N` steps do not come back to the same slot.
theorem slot_inj {i : BitVec w} {k k' : Nat} (hk : k < N) (hk' : k' < N)
    (h : slot N (i + BitVec.ofNat w k) = slot N (i + BitVec.ofNat w k')) : k = k' := by
  have hval := congrArg Fin.val h
  rw [val_slot_add hdvd, val_slot_add hdvd] at hval
  have hmod : k ≡ k' [MOD N] := Nat.ModEq.add_left_cancel' i.toNat hval
  exact Nat.ModEq.eq_of_lt_of_lt hmod hk hk'

namespace Queued

variable {buf : Fin N → α} {i j : BitVec w} {l l' : List α} {a : α}

theorem push (h : Queued buf i j l) (hroom : l.length < N) :
    Queued (update buf (slot N j) a) i (j + 1) (l ++ [a]) := by
  refine ⟨?_, ?_, fun k b hk => ?_⟩
  · rwa [length_append, length_singleton]
  · rw [h.stop, length_append, length_singleton]
    exact add_ofNat_add i l.length 1
  · rw [h.stop]
    rcases Nat.lt_trichotomy k l.length with hlt | rfl | hgt
    · rw [List.getElem?_append_left hlt] at hk
      have hne : slot N (i + BitVec.ofNat w k) ≠ slot N (i + BitVec.ofNat w l.length) := by
        intro heq
        have hkl := slot_inj hdvd (hlt.trans hroom) hroom heq
        omega
      rw [update_of_ne hne]
      exact h.holds k b hk
    · rw [List.getElem?_concat_length] at hk
      rw [update_self]
      exact Option.some.inj hk
    · rw [List.getElem?_eq_none (by rw [length_append, length_singleton]; omega)] at hk
      cases hk

end Queued

end Divides

namespace Queued

variable {buf : Fin N → α} {i j : BitVec w} {l l' : List α} {a : α}

theorem left (h : Queued buf i j (l ++ l')) : Queued buf i (i + BitVec.ofNat w l.length) l := by
  refine ⟨?_, rfl, fun k b hk => ?_⟩
  · have hfits := h.fits
    rw [length_append] at hfits
    omega
  · obtain ⟨hlt, -⟩ := List.getElem?_eq_some_iff.mp hk
    exact h.holds k b (by rw [List.getElem?_append_left hlt, hk])

theorem right (h : Queued buf i j (l ++ l')) : Queued buf (i + BitVec.ofNat w l.length) j l' := by
  have hfits := h.fits
  rw [length_append] at hfits
  refine ⟨by omega, ?_, fun k b hk => ?_⟩
  · rw [add_ofNat_add, ← length_append]
    exact h.stop
  · rw [add_ofNat_add]
    exact h.holds _ b (by rw [List.getElem?_append_right (by omega), Nat.add_sub_cancel_left, hk])

theorem pop (h : Queued buf i j (a :: l)) : buf (slot N i) = a ∧ Queued buf (i + 1) j l := by
  refine ⟨?_, right (l := [a]) h⟩
  have hhead := h.holds 0 a rfl
  rwa [show i + BitVec.ofNat w 0 = i from BitVec.add_zero i] at hhead

theorem unpush (h : Queued buf i j (l ++ [a])) :
    buf (slot N (j - 1)) = a ∧ Queued buf i (j - 1) l := by
  have hstop : j - 1 = i + BitVec.ofNat w l.length := by
    rw [h.stop, length_append, length_singleton, ← add_ofNat_add]
    exact BitVec.add_sub_cancel _ _
  rw [hstop]
  exact ⟨h.holds l.length a List.getElem?_concat_length, h.left⟩

variable (hlt : N < 2 ^ w)

include hlt

theorem toNat_sub (h : Queued buf i j l) : (j - i).toNat = l.length := by
  have hfits := h.fits
  rw [h.stop, BitVec.add_comm, BitVec.add_sub_cancel, BitVec.toNat_ofNat]
  exact Nat.mod_eq_of_lt (by omega)

theorem between_eq (h : Queued buf i j l) : between buf i j = l := by
  apply ext_getElem?
  intro k
  rw [between, h.toNat_sub hlt, List.getElem?_map]
  by_cases hk : k < l.length
  · rw [List.getElem?_range hk, List.getElem?_eq_getElem hk]
    exact congrArg some (h.holds k _ (List.getElem?_eq_getElem hk))
  · rw [List.getElem?_eq_none (by rw [length_range]; omega), List.getElem?_eq_none (by omega)]
    rfl

theorem eq_iff (h : Queued buf i j l) : i = j ↔ l = [] := by
  have hfits := h.fits
  rw [← length_eq_zero_iff, h.stop]
  constructor
  · intro heq
    refine (@add_ofNat_inj w i 0 l.length (by omega) (by omega) ?_).symm
    exact (BitVec.add_zero i).trans heq
  · intro hlen
    rw [hlen]
    exact (BitVec.add_zero i).symm

theorem full_iff (h : Queued buf i j l) : j = i + BitVec.ofNat w N ↔ l.length = N := by
  have hfits := h.fits
  rw [h.stop]
  exact ⟨add_ofNat_inj (by omega) hlt, congrArg fun n => i + BitVec.ofNat w n⟩

end Queued

end OsProjects.Lib
