import OsProjects.Kernel.Bitmap
import Mathlib.Data.List.Basic
import Mathlib.Order.Bounds.Basic

/-!
# BitmapSet — the bitmap as a set of block numbers

`balloc` takes the least element out of the set of free blocks, and `bfree` puts one back.
The block of the bitmap that names a free block must not itself be free: it would be zeroed.
-/

namespace OsProjects.Kernel

open Lib Function

/-- The blocks that `balloc` may take. -/
def freeSet (sb : Superblock) (d : Disk) : Set Nat := { b | b < sb.size ∧ bitOf sb d b = false }

variable {sb : Superblock} {d : Disk} {m : Machine} {b : Nat}

theorem findFree_eq_none : findFree sb d = none ↔ freeSet sb d = ∅ := by
  constructor <;> intro h
  · refine Set.eq_empty_of_forall_notMem fun b hb => ?_
    cases (findFree_none h b hb.1).symm.trans hb.2
  · refine Option.eq_none_iff_forall_ne_some.mpr fun b hb => ?_
    obtain ⟨hlt, hclear, -⟩ := findFree_some hb
    exact h.le ⟨hlt, hclear⟩

theorem findFree_eq_some : findFree sb d = some b ↔ IsLeast (freeSet sb d) b := by
  cases hfind : findFree sb d with
  | none =>
    refine ⟨nofun, fun hleast => ?_⟩
    cases (findFree_eq_none.mp hfind).le hleast.1
  | some a =>
    obtain ⟨hlt, hclear, hbefore⟩ := findFree_some hfind
    have hleast : IsLeast (freeSet sb d) a := by
      refine ⟨⟨hlt, hclear⟩, fun c hc => not_lt.mp fun hca => ?_⟩
      cases (hbefore c hca).symm.trans hc.2
    exact ⟨fun h => Option.some.inj h ▸ hleast, fun h => congrArg some (hleast.unique h)⟩

/-! ## The `int` of `balloc` -/

/-- The bitmap block that `balloc` reads at `b = k * BPB`.  Its `b` is an `int`: past `2 ^ 31` it
has wrapped, and `b / BPB` is negative. -/
def ballocBlock (bmapstart k : Nat) : Nat :=
  (((((k * BPB : Nat) : Int).bmod (2 ^ 32)).tdiv BPB + bmapstart) % 2 ^ 32).toNat

/-- The search of `balloc` with its `int`. -/
def findFreeInt (size bmapstart : Nat) (d : Disk) : Option Nat :=
  (List.range ((size + BPB - 1) / BPB)).findSome? fun k =>
    ((List.range (min BPB (size - k * BPB))).find? fun bi =>
      !(d (ballocBlock bmapstart k)).bit bi).map fun bi => k * BPB + bi

theorem ballocBlock_eq {bmapstart k : Nat} (hk : k * BPB < 2 ^ 31) (hsum : k + bmapstart < 2 ^ 32) :
    ballocBlock bmapstart k = k + bmapstart := by
  have hint : ((k * BPB : Nat) : Int).bmod (2 ^ 32) = (k * BPB : Nat) :=
    Int.bmod_eq_of_le (by omega) (by omega)
  have hdiv : ((k * BPB : Nat) : Int).tdiv BPB = k := by
    rw [← Int.ofNat_tdiv, Nat.mul_div_cancel _ (by decide)]
  unfold ballocBlock
  rw [hint, hdiv]
  omega

theorem findFreeInt_eq (sb : Superblock) (d : Disk) :
    findFreeInt sb.size sb.bmapstart d = findFree sb d := by
  unfold findFreeInt findFree
  rw [← List.head?_filterMap, ← List.head?_filterMap]
  refine congrArg List.head? (List.filterMap_congr fun k hk => ?_)
  have hlt : k * BPB < sb.size := by
    rw [List.mem_range] at hk
    simp only [BPB, BSIZE] at *
    omega
  have hblock : BBLOCK sb (k * BPB) = k + sb.bmapstart := by
    rw [BBLOCK, Nat.mul_div_cancel _ (by decide)]
  have hend := sb.BBLOCK_lt_dataStart hlt
  have hsize := sb.dataStart_le_size
  have hint := sb.int_size
  rw [ballocBlock_eq (by omega) (by omega), hblock]

/-! ## `balloc` and `bfree` on the set -/

theorem freeSet_setBit {d' : Disk}
    (h : ∀ c < sb.size, bitOf sb d' c = (bitOf sb d c || decide (b = c))) :
    freeSet sb d' = freeSet sb d \ {b} := by
  ext c
  simp only [freeSet, Set.mem_ofPred_eq, Set.mem_sdiff, Set.mem_singleton_iff]
  grind

theorem freeSet_clearBit {d' : Disk} (hb : b < sb.size)
    (h : ∀ c, bitOf sb d' c = (bitOf sb d c && !decide (b = c))) :
    freeSet sb d' = insert b (freeSet sb d) := by
  ext c
  simp only [freeSet, Set.mem_ofPred_eq, Set.mem_insert_iff, h, Bool.and_eq_false_iff]
  grind

/-- The block that `balloc` takes, its bit and its contents. -/
theorem balloc_least (hmap : ∀ b < sb.size, bitOf sb m.disk (BBLOCK sb b) = true)
    (hb : IsLeast (freeSet sb m.disk) b) : ∃ m', balloc sb m = (b, m') ∧
      m'.disk b = Buffer.zero ∧
      m'.disk (BBLOCK sb b) = (m.disk (BBLOCK sb b)).setBit (b % BPB) ∧
      (∀ c, c ≠ b → c ≠ BBLOCK sb b → m'.disk c = m.disk c) ∧
      ∀ c < sb.size, bitOf sb m'.disk c = (bitOf sb m.disk c || decide (b = c)) := by
  have hne (c : Nat) (hc : c < sb.size) : BBLOCK sb c ≠ b := fun heq => by
    cases (hmap c hc).symm.trans (heq ▸ hb.1.2)
  unfold balloc
  rw [findFree_eq_some.mpr hb]
  refine ⟨_, rfl, update_self .., (update_of_ne (hne b hb.1.1) _ _).trans (update_self ..),
    fun c hcb hcm => (update_of_ne hcb _ _).trans (update_of_ne hcm _ _), fun c hc => ?_⟩
  rw [← bitOf_setBit]
  exact bitOf_congr (update_of_ne (hne c hc) _ _)

/-- What `balloc` and `bfree` are for: the least free block is taken out of the set, marked and
zeroed, and a block that is given back is in the set again. -/
theorem bitmap_refines_set (sb : Superblock) (m : Machine) (hzero : bitOf sb m.disk 0 = true)
    (hmap : ∀ b < sb.size, bitOf sb m.disk (BBLOCK sb b) = true) :
    findFreeInt sb.size sb.bmapstart m.disk = findFree sb m.disk ∧
    (∀ b, IsLeast (freeSet sb m.disk) b → ∃ m', balloc sb m = (b, m') ∧
      m'.disk b = Buffer.zero ∧
      m'.disk (BBLOCK sb b) = (m.disk (BBLOCK sb b)).setBit (b % BPB) ∧
      (∀ c, c ≠ b → c ≠ BBLOCK sb b → m'.disk c = m.disk c) ∧
      freeSet sb m'.disk = freeSet sb m.disk \ {b} ∧
      ∃ m'', bfree sb m' b = .ok m'' ∧ ∀ c < sb.size, bitOf sb m''.disk c = bitOf sb m.disk c) ∧
    ((balloc sb m).1 = 0 ↔ freeSet sb m.disk = ∅) ∧
    ((balloc sb m).1 = 0 → (balloc sb m).2 = m.printf outOfBlocks) ∧
    (∀ b < sb.size, bitOf sb m.disk b = true → ∃ m', bfree sb m b = .ok m' ∧
      m'.disk (BBLOCK sb b) = (m.disk (BBLOCK sb b)).clearBit (b % BPB) ∧
      (∀ c, c ≠ BBLOCK sb b → m'.disk c = m.disk c) ∧
      freeSet sb m'.disk = insert b (freeSet sb m.disk)) ∧
    ∀ b c, b ≠ c → (BBLOCK sb b, b % BPB) ≠ (BBLOCK sb c, c % BPB) := by
  have hempty (h : (balloc sb m).1 = 0) : findFree sb m.disk = none := by
    cases hfind : findFree sb m.disk with
    | none => rfl
    | some b =>
      obtain ⟨-, hclear, -⟩ := findFree_some hfind
      rw [balloc, hfind] at h
      cases (show b = 0 from h)
      cases hzero.symm.trans hclear
  refine ⟨findFreeInt_eq sb m.disk, fun b hb => ?_,
    ⟨fun h => findFree_eq_none.mp (hempty h), fun h => ?_⟩, fun h => ?_, fun b hb hset => ?_,
    fun b c hne h => ?_⟩
  · obtain ⟨m', hrun, hblock, hbit, hothers, hbits⟩ := balloc_least hmap hb
    refine ⟨m', hrun, hblock, hbit, hothers, freeSet_setBit hbits, ?_⟩
    have hset : bitOf sb m'.disk b = true := by rw [hbits b hb.1.1]; simp
    obtain ⟨m'', hfree, hdone, -⟩ := bfree_ok sb m' hb.1.1 hset
    refine ⟨m'', hfree, fun c hc => ?_⟩
    rw [hdone.bits, hbits c hc]
    by_cases hcb : b = c
    · simp [← hcb, hb.1.2]
    · simp [hcb]
  · rw [balloc, findFree_eq_none.mpr h]
  · rw [balloc, hempty h]
  · refine ⟨_, if_neg (by simp [hset]), update_self .., fun c hc => update_of_ne hc _ _, ?_⟩
    exact freeSet_clearBit hb (bitOf_clearBit sb m.disk b)
  · obtain ⟨hblock, hmod⟩ := Prod.mk.inj h
    exact bblock_mod_ne hne hblock.symm hmod

/-- A disk of five blocks whose bitmap, block 2, holds `bits`. -/
def tinyLayout : Superblock where
  size := 5
  nblocks := 2
  ninodes := 0
  nlog := 0
  logstart := 2
  inodestart := 2
  bmapstart := 2
  log_after_super := by decide
  inodes_after_log := by decide
  bitmap_after_inodes := by decide
  data_after_bitmap := by decide
  int_size := by decide

def tinyMachine (bits : UInt8) : Machine := ⟨fun _ _ => bits, [], []⟩

theorem bitmap_refines_set_tiny : IsLeast (freeSet tinyLayout (tinyMachine 0b10111).disk) 3 ∧
    (balloc tinyLayout (tinyMachine 0b10111)).1 = 3 := by
  have hleast := findFree_eq_some.mp
    (show findFree tinyLayout (tinyMachine 0b10111).disk = some 3 by decide)
  obtain ⟨m', hrun, -⟩ :=
    (bitmap_refines_set tinyLayout (tinyMachine 0b10111) (by decide) (by decide)).2.1 3 hleast
  exact ⟨hleast, congrArg Prod.fst hrun⟩

/-- A bitmap block whose own bit is clear is handed out and zeroed, and its bit is clear again; and
past `2 ^ 31` blocks the search reads blocks outside of the bitmap. -/
theorem bitmap_not_set :
    (bitOf tinyLayout (tinyMachine 0b11011).disk 0 = true ∧
      (balloc tinyLayout (tinyMachine 0b11011)).1 = 2 ∧
      bitOf tinyLayout (balloc tinyLayout (tinyMachine 0b11011)).2.disk 2 = false) ∧
    ∃ d : Disk, (∀ b < 2 ^ 31 + 1, (d (b / BPB + 46)).bit (b % BPB) = true) ∧
      findFreeInt (2 ^ 31 + 1) 46 d ≠ none := by
  refine ⟨by decide, fun c => (tinyMachine (if c < 2 ^ 31 then 255 else 0)).disk c, ?_, ?_⟩
  · intro b hb
    have hlt : b / BPB + 46 < 2 ^ 31 := by
      simp only [BPB, BSIZE]
      omega
    have hones : ∀ k < 8, ((255 : UInt8) &&& Buffer.bitMask k != 0) = true := by decide
    simp only [tinyMachine, if_pos hlt, Buffer.bit, Buffer.get]
    rw [dif_pos (by simp only [BPB, BSIZE]; omega)]
    exact hones _ (Nat.mod_lt _ (by decide))
  · intro hnone
    have hk := List.findSome?_eq_none_iff.mp hnone (2 ^ 18) (List.mem_range.mpr (by decide))
    have hbit := List.find?_eq_none.mp (Option.map_eq_none_iff.mp hk) 0
      (List.mem_range.mpr (by decide))
    exact hbit (by decide)

end OsProjects.Kernel
