import Mathlib.Data.List.GetD
import Mathlib.Data.Nat.Basic
import Mathlib.Algebra.Order.Group.Nat

/-!
# FlatArray — growing byte strings with reads and writes at an offset, and numbers in them

A write starts at most at the end and may grow the string; a read stops at the end.  Numbers are
little-endian.
-/

namespace OsProjects.Lib

open List

namespace FlatArray

variable {α : Type}

/-- Replace the elements from `off` on by `data`. -/
def write (a : List α) (off : Nat) (data : List α) : List α :=
  a.take off ++ data ++ a.drop (off + data.length)

/-- The elements of `[off, off + n)` that exist. -/
def read (a : List α) (off n : Nat) : List α := (a.drop off).take n

theorem length_write (a : List α) {off : Nat} (data : List α) (hoff : off ≤ a.length) :
    (write a off data).length = max a.length (off + data.length) := by
  simp only [write, length_append, length_take, length_drop]
  omega

theorem getD_write (a : List α) {off : Nat} (data : List α) (hoff : off ≤ a.length) (k : Nat)
    (x : α) : (write a off data).getD k x =
      if off ≤ k ∧ k < off + data.length then data.getD (k - off) x else a.getD k x := by
  have htake : (a.take off).length = off := by
    rw [length_take]
    omega
  unfold write
  rw [append_assoc]
  by_cases hlo : k < off
  · rw [getD_append _ _ _ _ (by omega), if_neg (by omega), getD_eq_getElem?_getD,
      List.getElem?_take_of_lt hlo, ← getD_eq_getElem?_getD]
  · rw [getD_append_right _ _ _ _ (by omega), htake]
    by_cases hhi : k < off + data.length
    · rw [getD_append _ _ _ _ (by omega), if_pos (by omega)]
    · rw [getD_append_right _ _ _ _ (by omega), if_neg (by omega), getD_eq_getElem?_getD,
        List.getElem?_drop, ← getD_eq_getElem?_getD]
      congr 1
      omega

theorem length_read (a : List α) (off n : Nat) :
    (read a off n).length = min n (a.length - off) := by
  simp only [read, length_take, length_drop]

theorem getD_read (a : List α) (off n k : Nat) (hk : k < n) (x : α) :
    (read a off n).getD k x = a.getD (off + k) x := by
  rw [read, getD_eq_getElem?_getD, List.getElem?_take_of_lt hk, List.getElem?_drop,
    ← getD_eq_getElem?_getD]

-- Strings of one length are equal when they read the same everywhere.
theorem ext_getD {a b : List α} (x : α) (hlen : a.length = b.length)
    (h : ∀ k < a.length, a.getD k x = b.getD k x) : a = b := by
  apply ext_getElem hlen
  intro k hka hkb
  rw [← getD_eq_getElem a x hka, ← getD_eq_getElem b x hkb]
  exact h k hka

end FlatArray

/-! ## Numbers -/

/-- The `w` low bytes of `v`. -/
def leBytes : Nat → Nat → List UInt8
  | 0, _ => []
  | w + 1, v => UInt8.ofNat v :: leBytes w (v / 256)

def leValue : List UInt8 → Nat
  | [] => 0
  | b :: bs => b.toNat + 256 * leValue bs

@[simp] theorem length_leBytes (w v : Nat) : (leBytes w v).length = w := by
  induction w generalizing v with
  | zero => rfl
  | succ w ih => simp only [leBytes, length_cons, ih]

-- Reading back gives the number as far as the width holds it.
theorem leValue_leBytes (w v : Nat) : leValue (leBytes w v) = v % 256 ^ w := by
  induction w generalizing v with
  | zero => simp only [leBytes, leValue, pow_zero, Nat.mod_one]
  | succ w ih =>
    have hbyte : (UInt8.ofNat v).toNat = v % 256 := UInt8.toNat_ofNat'
    rw [leBytes, leValue, ih, hbyte, Nat.pow_succ, Nat.mul_comm (256 ^ w), Nat.mod_mul]

-- And writing back gives the bytes.
theorem leBytes_leValue (l : List UInt8) : leBytes l.length (leValue l) = l := by
  induction l with
  | nil => rfl
  | cons b l ih =>
    have hb : b.toNat < 256 := b.toNat_lt
    have hrest : (b.toNat + 256 * leValue l) / 256 = leValue l := by omega
    have hbyte : UInt8.ofNat (b.toNat + 256 * leValue l) = b := by
      apply UInt8.toNat.inj
      rw [UInt8.toNat_ofNat']
      omega
    rw [length_cons, leValue, leBytes, hrest, ih, hbyte]

end OsProjects.Lib
