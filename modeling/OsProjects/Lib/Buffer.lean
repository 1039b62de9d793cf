import Mathlib.Data.Nat.Bitwise
import Mathlib.Tactic.Ring
import Mathlib.Tactic.IntervalCases

/-!
# Buffers — fixed-size byte buffers, the numbers and the bits stored in them

A buffer holds exactly `n` bytes.  Numbers are stored little-endian over a window of `w` bytes;
bits are numbered from the low bit of byte `0` upwards.  Every read-back lemma below is about one
write: what the written window reads afterwards, and that everything outside it is as before.
-/

namespace OsProjects.Lib

open Nat

/-- A buffer of exactly `n` bytes. -/
def Buffer (n : Nat) : Type := Fin n → UInt8

namespace Buffer

variable {n k : Nat}

/-- The buffer of zero bytes. -/
def zero : Buffer n := fun _ => 0

/-- Byte `i` of the buffer; past the end it reads as zero. -/
def get (b : Buffer n) (i : Nat) : UInt8 := if h : i < n then b ⟨i, h⟩ else 0

/-- Replace byte `i`; past the end nothing changes. -/
def set (b : Buffer n) (i : Nat) (v : UInt8) : Buffer n := fun k => if k.val = i then v else b k

theorem ext_get {a b : Buffer n} (h : ∀ i, i < n → a.get i = b.get i) : a = b := by
  funext k
  have hk := h k.val k.isLt
  simpa only [get, dif_pos k.isLt] using hk

@[simp] theorem get_zero (i : Nat) : (zero : Buffer n).get i = 0 := by
  unfold get zero
  split <;> rfl

theorem get_set (b : Buffer n) (i k : Nat) (v : UInt8) (hi : i < n) :
    (b.set i v).get k = if k = i then v else b.get k := by
  unfold get set
  by_cases hk : k < n
  · simp only [dif_pos hk]
  · rw [dif_neg hk, dif_neg hk, if_neg (by omega)]

theorem get_set_of_ne (b : Buffer n) {i : Nat} (v : UInt8) (h : k ≠ i) :
    (b.set i v).get k = b.get k := by
  unfold get set
  by_cases hk : k < n
  · simp only [dif_pos hk, if_neg h]
  · rw [dif_neg hk, dif_neg hk]

/-! ## Numbers -/

/-- The little-endian number in the `w` bytes from `off` on. -/
def num (b : Buffer n) (off : Nat) : Nat → Nat
  | 0 => 0
  | w + 1 => (b.get off).toNat + 256 * num b (off + 1) w

/-- Store `v` little-endian in the `w` bytes from `off` on, dropping the bytes that do not fit. -/
def setNum (b : Buffer n) (off : Nat) : Nat → Nat → Buffer n
  | 0, _ => b
  | w + 1, v => (setNum b (off + 1) w (v / 256)).set off (UInt8.ofNat v)

theorem num_lt (b : Buffer n) (off w : Nat) : b.num off w < 256 ^ w := by
  induction w generalizing off with
  | zero => simp [num]
  | succ w ih =>
    have hb := (b.get off).toNat_lt
    have hrest := ih (off + 1)
    rw [num, pow_succ]
    omega

theorem num_congr (a b : Buffer n) (off w : Nat)
    (h : ∀ k, off ≤ k → k < off + w → a.get k = b.get k) : a.num off w = b.num off w := by
  induction w generalizing off with
  | zero => rfl
  | succ w ih =>
    rw [num, num, h off (le_refl _) (by omega), ih (off + 1) fun k hlo hhi =>
      h k (by omega) (by omega)]

@[simp] theorem num_zero (off w : Nat) : (zero : Buffer n).num off w = 0 := by
  induction w generalizing off with
  | zero => rfl
  | succ w ih => rw [num, ih, get_zero]; rfl

theorem get_setNum_outside (b : Buffer n) (off w v k : Nat) (h : k < off ∨ off + w ≤ k) :
    (b.setNum off w v).get k = b.get k := by
  induction w generalizing off v with
  | zero => rfl
  | succ w ih => rw [setNum, get_set_of_ne _ _ (by omega), ih (off + 1) _ (by omega)]

theorem num_setNum_self (b : Buffer n) (off w v : Nat) (h : off + w ≤ n) :
    (b.setNum off w v).num off w = v % 256 ^ w := by
  induction w generalizing off v with
  | zero => simp [num, mod_one]
  | succ w ih =>
    have htail : ((b.setNum (off + 1) w (v / 256)).set off (UInt8.ofNat v)).num (off + 1) w =
        (b.setNum (off + 1) w (v / 256)).num (off + 1) w :=
      num_congr _ _ _ _ fun k hlo _ => get_set_of_ne _ _ (by omega)
    rw [setNum, num, htail, ih (off + 1) _ (by omega), get_set _ _ _ _ (by omega), if_pos rfl,
      UInt8.toNat_ofNat', show 2 ^ 8 = 256 from rfl, pow_succ', mod_mul]

theorem num_setNum_outside (b : Buffer n) (off w v off' w' : Nat)
    (h : off' + w' ≤ off ∨ off + w ≤ off') : (b.setNum off w v).num off' w' = b.num off' w' :=
  num_congr _ _ _ _ fun k hlo hhi => get_setNum_outside _ _ _ _ _ (by omega)

/-- Store the numbers `vs` one after the other from `off` on, `w` bytes each. -/
def setArr (b : Buffer n) (off w : Nat) : List Nat → Buffer n
  | [] => b
  | v :: vs => (setArr b (off + w) w vs).setNum off w v

theorem get_setArr_outside (b : Buffer n) (off w : Nat) (vs : List Nat) (k : Nat)
    (h : k < off ∨ off + w * vs.length ≤ k) : (b.setArr off w vs).get k = b.get k := by
  induction vs generalizing off with
  | nil => rfl
  | cons v vs ih =>
    rw [List.length_cons, mul_succ] at h
    rw [setArr, get_setNum_outside _ _ _ _ _ (by omega), ih (off + w) (by omega)]

theorem num_setArr_outside (b : Buffer n) (off w : Nat) (vs : List Nat) (off' w' : Nat)
    (h : off' + w' ≤ off ∨ off + w * vs.length ≤ off') :
    (b.setArr off w vs).num off' w' = b.num off' w' :=
  num_congr _ _ _ _ fun k hlo hhi => get_setArr_outside _ _ _ _ _ (by omega)

theorem num_setArr_self (b : Buffer n) (off w : Nat) (vs : List Nat) (k : Nat)
    (hk : k < vs.length) (hfit : off + w * vs.length ≤ n) :
    (b.setArr off w vs).num (off + w * k) w = vs.getD k 0 % 256 ^ w := by
  induction vs generalizing off k with
  | nil => cases hk
  | cons v vs ih =>
    rw [List.length_cons, mul_succ] at hfit
    cases k with
    | zero =>
      rw [setArr, mul_zero, add_zero, num_setNum_self _ _ _ _ (by omega)]
      rfl
    | succ k =>
      have hoff : off + w * (k + 1) = off + w + w * k := by ring
      rw [setArr, hoff, num_setNum_outside _ _ _ _ _ _ (by omega),
        ih (off + w) k (by simpa using hk) (by omega)]
      rfl

/-! ## Byte strings -/

/-- Copy the bytes `l` into the buffer from `off` on, cutting what does not fit. -/
def copyIn (b : Buffer n) (off : Nat) (l : List UInt8) : Buffer n :=
  fun k => if off ≤ k.val ∧ k.val < off + l.length then l.getD (k.val - off) 0 else b k

/-- The `m` bytes from `off` on. -/
def slice (b : Buffer n) (off m : Nat) : List UInt8 := (List.range m).map fun k => b.get (off + k)

theorem get_copyIn (b : Buffer n) (off k : Nat) (l : List UInt8) (hfit : off + l.length ≤ n) :
    (b.copyIn off l).get k =
      if off ≤ k ∧ k < off + l.length then l.getD (k - off) 0 else b.get k := by
  unfold get copyIn
  by_cases hk : k < n
  · simp only [dif_pos hk]
  · rw [dif_neg hk, dif_neg hk, if_neg (by omega)]

@[simp] theorem length_slice (b : Buffer n) (off m : Nat) : (b.slice off m).length = m := by
  simp [slice]

theorem getD_slice (b : Buffer n) (off m k : Nat) (hk : k < m) :
    (b.slice off m).getD k 0 = b.get (off + k) := by
  simp [slice, List.getD_eq_getElem?_getD, List.getElem?_map, List.getElem?_range hk]

/-! ## Bits -/

/-- The byte with only bit `k` set. -/
def bitMask (k : Nat) : UInt8 := UInt8.ofNat (2 ^ k)

/-- Bit `i`: bit `i % 8` of byte `i / 8`. -/
def bit (b : Buffer n) (i : Nat) : Bool := (b.get (i / 8) &&& bitMask (i % 8)) != 0

def setBit (b : Buffer n) (i : Nat) : Buffer n :=
  b.set (i / 8) (b.get (i / 8) ||| bitMask (i % 8))

def clearBit (b : Buffer n) (i : Nat) : Buffer n :=
  b.set (i / 8) (b.get (i / 8) &&& ~~~bitMask (i % 8))

private theorem toNat_bitMask (hk : k < 8) : (bitMask k).toNat = 2 ^ k := by
  exact Nat.mod_eq_of_lt (Nat.pow_lt_pow_right (by decide) hk)

private theorem and_bitMask_ne_zero (x : UInt8) (hk : k < 8) :
    (x &&& bitMask k != 0) = x.toNat.testBit k := by
  have hnat : (x &&& bitMask k).toNat = (x.toNat.testBit k).toNat * 2 ^ k := by
    rw [UInt8.toNat_and, toNat_bitMask hk, and_two_pow]
  cases hbit : x.toNat.testBit k with
  | false =>
    have hzero : x &&& bitMask k = 0 := by
      apply UInt8.toNat_inj.mp
      rw [hnat, hbit]
      simp
    rw [hzero]
    rfl
  | true =>
    rw [bne_iff_ne]
    intro hzero
    rw [hzero, hbit] at hnat
    have hpos := Nat.two_pow_pos k
    simp only [UInt8.toNat_zero, Bool.toNat_true, Nat.one_mul] at hnat
    omega

private theorem testBit_or_bitMask (x : UInt8) {j : Nat} (hj : j < 8) :
    (x ||| bitMask j).toNat.testBit k = (x.toNat.testBit k || decide (j = k)) := by
  rw [UInt8.toNat_or, testBit_or, toNat_bitMask hj, Nat.testBit_two_pow]

private theorem testBit_and_not_bitMask (x : UInt8) {j : Nat} (hj : j < 8) (hk : k < 8) :
    (x &&& ~~~bitMask j).toNat.testBit k = (x.toNat.testBit k && !decide (j = k)) := by
  have hlt : (bitMask j).toNat < 2 ^ 8 := (bitMask j).toNat_lt
  rw [UInt8.toNat_and, Nat.testBit_and, UInt8.toNat_not, Nat.sub_sub,
    Nat.add_comm 1, Nat.testBit_two_pow_sub_succ hlt, toNat_bitMask hj, Nat.testBit_two_pow]
  simp [hk]

theorem bit_setBit (b : Buffer n) (i k : Nat) (hi : i < 8 * n) :
    (b.setBit i).bit k = (b.bit k || decide (i = k)) := by
  have hbyte : i / 8 < n := by omega
  unfold bit setBit
  rw [get_set _ _ _ _ hbyte]
  by_cases hk : k / 8 = i / 8
  · rw [if_pos hk, and_bitMask_ne_zero _ (mod_lt _ (by decide)),
      testBit_or_bitMask _ (mod_lt _ (by decide)), hk,
      and_bitMask_ne_zero _ (mod_lt _ (by decide))]
    congr 2
    apply propext
    omega
  · rw [if_neg hk, decide_eq_false (by omega : ¬ i = k), Bool.or_false]

theorem bit_clearBit (b : Buffer n) (i k : Nat) (hi : i < 8 * n) :
    (b.clearBit i).bit k = (b.bit k && !decide (i = k)) := by
  have hbyte : i / 8 < n := by omega
  unfold bit clearBit
  rw [get_set _ _ _ _ hbyte]
  by_cases hk : k / 8 = i / 8
  · rw [if_pos hk, and_bitMask_ne_zero _ (mod_lt _ (by decide)),
      testBit_and_not_bitMask _ (mod_lt _ (by decide)) (mod_lt _ (by decide)), hk,
      and_bitMask_ne_zero _ (mod_lt _ (by decide))]
    congr 3
    apply propext
    omega
  · rw [if_neg hk, decide_eq_false (by omega : ¬ i = k), Bool.not_false, Bool.and_true]

end Buffer

end OsProjects.Lib
