import OsProjects.Kernel.Param

/-!
# Bitmap — the disk layout, `balloc` and `bfree` of `fs.c`

Buffers are taken at their cached contents: `bread` sees every earlier change, logged or not.
The block numbers passed to `log_write` and the lines printed on the console are kept as traces.
-/

namespace OsProjects.Kernel

open Lib Function List Nat

/-- `struct superblock`, for a disk laid out as `fs.h` describes:
boot block, super block, log, inode blocks, free bit map, data blocks. -/
structure Superblock where
  size : Nat
  nblocks : Nat
  ninodes : Nat
  nlog : Nat
  logstart : Nat
  inodestart : Nat
  bmapstart : Nat
  log_after_super : 2 ≤ logstart
  inodes_after_log : logstart + nlog ≤ inodestart
  bitmap_after_inodes : inodestart + (ninodes + IPB - 1) / IPB ≤ bmapstart
  data_after_bitmap : bmapstart + (size + BPB - 1) / BPB + nblocks ≤ size
  int_size : size ≤ 2 ^ 31

/-- The first data block. -/
def Superblock.dataStart (sb : Superblock) : Nat := sb.size - sb.nblocks

def BBLOCK (sb : Superblock) (b : Nat) : Nat := b / BPB + sb.bmapstart

def IBLOCK (sb : Superblock) (i : Nat) : Nat := i / IPB + sb.inodestart

structure Machine where
  disk : Disk
  logged : List Nat
  console : List String

namespace Machine

def store (m : Machine) (b : Nat) (data : Block) : Machine :=
  { m with disk := update m.disk b data }

def logWrite (m : Machine) (b : Nat) : Machine := { m with logged := b :: m.logged }

def printf (m : Machine) (line : String) : Machine := { m with console := line :: m.console }

end Machine

/-- The bitmap bit of block `b`. -/
def bitOf (sb : Superblock) (d : Disk) (b : Nat) : Bool := (d (BBLOCK sb b)).bit (b % BPB)

/-- The two loops of `balloc`: bitmap block by bitmap block, then bit by bit. -/
def findFree (sb : Superblock) (d : Disk) : Option Nat :=
  (List.range ((sb.size + BPB - 1) / BPB)).findSome? fun k =>
    ((List.range (min BPB (sb.size - k * BPB))).find? fun bi =>
      !(d (BBLOCK sb (k * BPB))).bit bi).map fun bi => k * BPB + bi

/-- What `balloc` prints when no bit is clear. -/
def outOfBlocks : String := "balloc: out of blocks\n"

def bzero (m : Machine) (b : Nat) : Machine := (m.store b Buffer.zero).logWrite b

def balloc (sb : Superblock) (m : Machine) : Nat × Machine :=
  match findFree sb m.disk with
  | some b =>
    let m := (m.store (BBLOCK sb b) ((m.disk (BBLOCK sb b)).setBit (b % BPB))).logWrite
      (BBLOCK sb b)
    (b, bzero m b)
  | none => (0, m.printf outOfBlocks)

def bfree (sb : Superblock) (m : Machine) (b : Nat) : Except String Machine :=
  if bitOf sb m.disk b = false then .error "freeing free block"
  else .ok ((m.store (BBLOCK sb b) ((m.disk (BBLOCK sb b)).clearBit (b % BPB))).logWrite
    (BBLOCK sb b))

/-! ## Where the blocks lie -/

variable {b : Nat}

namespace Superblock

section

variable (sb : Superblock)
include sb

theorem bmapstart_le_dataStart : sb.bmapstart + (sb.size + BPB - 1) / BPB ≤ sb.dataStart := by
  have hdata := sb.data_after_bitmap
  unfold dataStart
  omega

theorem bmapstart_le_data : sb.bmapstart ≤ sb.dataStart :=
  le_trans (le_add_right _ _) sb.bmapstart_le_dataStart

theorem bmapstart_pos : 0 < sb.bmapstart := by
  have hlog := sb.log_after_super
  have hino := sb.inodes_after_log
  have hbm := sb.bitmap_after_inodes
  simp only [IPB] at hbm
  omega

theorem dataStart_le_size : sb.dataStart ≤ sb.size := sub_le _ _

theorem two_le_dataStart : 2 ≤ sb.dataStart := by
  have hlog := sb.log_after_super
  have hino := sb.inodes_after_log
  have hbm := sb.bitmap_after_inodes
  have hdata := sb.bmapstart_le_dataStart
  simp only [IPB, BPB, BSIZE] at *
  omega

theorem bmapstart_le_BBLOCK (b : Nat) : sb.bmapstart ≤ BBLOCK sb b :=
  le_add_left _ _

theorem BBLOCK_lt_dataStart (hb : b < sb.size) : BBLOCK sb b < sb.dataStart := by
  have hdata := sb.bmapstart_le_dataStart
  unfold BBLOCK
  simp only [BPB, BSIZE] at *
  omega

theorem IBLOCK_lt_bmapstart {i : Nat} (hi : i < sb.ninodes) : IBLOCK sb i < sb.bmapstart := by
  have hbm := sb.bitmap_after_inodes
  unfold IBLOCK
  simp only [IPB] at *
  omega

theorem two_le_IBLOCK (i : Nat) : 2 ≤ IBLOCK sb i := by
  have hlog := sb.log_after_super
  have hino := sb.inodes_after_log
  unfold IBLOCK
  simp only [IPB]
  omega

end

end Superblock

/-! ## `balloc` -/

-- The bit of `k * BPB + bi` is bit `bi` of the bitmap block that the outer loop has read.
theorem bitOf_split (sb : Superblock) (d : Disk) (k : Nat) {bi : Nat} (hbi : bi < BPB) :
    bitOf sb d (k * BPB + bi) = (d (BBLOCK sb (k * BPB))).bit bi := by
  have hdiv : (k * BPB + bi) / BPB = k := by
    rw [Nat.mul_comm, Nat.mul_add_div (by decide), div_eq_of_lt hbi, add_zero]
  have hmod : (k * BPB + bi) % BPB = bi := by
    rw [Nat.mul_comm, mul_add_mod, mod_eq_of_lt hbi]
  rw [bitOf, BBLOCK, hdiv, hmod, BBLOCK, Nat.mul_div_cancel _ (by decide)]

variable {sb : Superblock}

theorem findFree_some {d : Disk} (h : findFree sb d = some b) :
    b < sb.size ∧ bitOf sb d b = false ∧ ∀ c < b, bitOf sb d c = true := by
  obtain ⟨before, k, after, hrange, hk, hbefore⟩ := List.findSome?_eq_some_iff.mp h
  obtain ⟨bi, hbi, rfl⟩ := Option.map_eq_some_iff.mp hk
  have hlen : before.length = k := by
    have hget := congrArg (fun l => l[before.length]?) hrange
    simp only [List.getElem?_append_right (le_refl _), Nat.sub_self,
      List.getElem?_cons_zero] at hget
    have hlt : before.length < (sb.size + BPB - 1) / BPB := by
      have hl := congrArg List.length hrange
      simp only [length_range, length_append, length_cons] at hl
      omega
    rw [List.getElem?_range hlt] at hget
    exact Option.some.inj hget
  have hmem : bi < min BPB (sb.size - k * BPB) := mem_range.mp (mem_of_find?_eq_some hbi)
  have hbit := List.find?_some hbi
  have hfree : bitOf sb d (k * BPB + bi) = false := by
    rw [bitOf_split sb d k (by omega)]
    simpa using hbit
  refine ⟨by omega, hfree, fun c hc => ?_⟩
  by_contra hclear
  have hcsplit : c = c / BPB * BPB + c % BPB := by rw [div_add_mod']
  have hcmod : c % BPB < BPB := mod_lt _ (by decide)
  rw [hcsplit, bitOf_split sb d _ hcmod] at hclear
  by_cases hck : c / BPB < k
  · -- an earlier bitmap block was scanned without success
    have hin : c / BPB ∈ before := by
      have hget : before[c / BPB]? = some (c / BPB) := by
        have hl := congrArg (fun l => l[c / BPB]?) hrange
        simp only [List.getElem?_append_left (by omega : c / BPB < before.length)] at hl
        rw [← hl, List.getElem?_range]
        have hlen' := congrArg List.length hrange
        simp only [length_range, length_append, length_cons] at hlen'
        omega
      exact mem_of_getElem? hget
    have hnone := Option.map_eq_none_iff.mp (hbefore _ hin)
    have hall := List.find?_eq_none.mp hnone (c % BPB) (mem_range.mpr (by omega))
    simp [hclear] at hall
  · -- the same bitmap block, an earlier bit
    have hdiv : c / BPB = k := by
      have hle : c / BPB ≤ (k * BPB + bi) / BPB := Nat.div_le_div_right (by omega)
      rw [Nat.mul_comm, Nat.mul_add_div (by decide),
        div_eq_of_lt (by omega : bi < BPB)] at hle
      omega
    rw [hdiv] at hclear hcsplit
    obtain ⟨-, hprev⟩ := List.find?_range_eq_some.mp hbi
    have hset := (hprev.2 (c % BPB) (by omega))
    simp [hclear] at hset

theorem findFree_none {d : Disk} (h : findFree sb d = none) :
    ∀ b < sb.size, bitOf sb d b = true := by
  intro b hb
  by_contra hclear
  have hsplit : b = b / BPB * BPB + b % BPB := by rw [div_add_mod']
  have hmod : b % BPB < BPB := mod_lt _ (by decide)
  have hk : b / BPB ∈ List.range ((sb.size + BPB - 1) / BPB) := by
    rw [mem_range]
    simp only [BPB, BSIZE] at *
    omega
  have hnone := Option.map_eq_none_iff.mp (List.findSome?_eq_none_iff.mp h _ hk)
  have hall := List.find?_eq_none.mp hnone (b % BPB) (mem_range.mpr (by omega))
  rw [hsplit, bitOf_split sb d _ hmod] at hclear
  simp [hclear] at hall

theorem bitOf_congr {d d' : Disk}
    (h : d' (BBLOCK sb b) = d (BBLOCK sb b)) : bitOf sb d' b = bitOf sb d b := by
  rw [bitOf, bitOf, h]

-- Blocks of one bitmap block differ in their bit, others in their bitmap block.
theorem bblock_mod_ne {c : Nat} (hne : b ≠ c)
    (hblock : BBLOCK sb c = BBLOCK sb b) : b % BPB ≠ c % BPB := by
  intro hmod
  have hdiv : c / BPB = b / BPB := add_right_cancel hblock
  apply hne
  rw [← div_add_mod b BPB, ← div_add_mod c BPB, hdiv, hmod]

theorem bitOf_setBit (sb : Superblock) (d : Disk) (b c : Nat) :
    bitOf sb (update d (BBLOCK sb b) ((d (BBLOCK sb b)).setBit (b % BPB))) c =
      (bitOf sb d c || decide (b = c)) := by
  by_cases hblock : BBLOCK sb c = BBLOCK sb b
  · rw [bitOf, hblock, update_self,
      Buffer.bit_setBit _ _ _ (lt_of_lt_of_eq (mod_lt b (by decide)) (by decide)), bitOf, hblock]
    by_cases hbc : b = c
    · rw [hbc, decide_eq_true rfl, decide_eq_true rfl]
    · rw [decide_eq_false (bblock_mod_ne hbc hblock), decide_eq_false hbc]
  · have hbc : b ≠ c := fun heq => hblock (by rw [heq])
    rw [bitOf_congr (update_of_ne hblock _ _), decide_eq_false hbc, Bool.or_false]

theorem bitOf_clearBit (sb : Superblock) (d : Disk) (b c : Nat) :
    bitOf sb (update d (BBLOCK sb b) ((d (BBLOCK sb b)).clearBit (b % BPB))) c =
      (bitOf sb d c && !decide (b = c)) := by
  by_cases hblock : BBLOCK sb c = BBLOCK sb b
  · rw [bitOf, hblock, update_self,
      Buffer.bit_clearBit _ _ _ (lt_of_lt_of_eq (mod_lt b (by decide)) (by decide)), bitOf,
      hblock]
    by_cases hbc : b = c
    · rw [hbc, decide_eq_true rfl, decide_eq_true rfl]
    · rw [decide_eq_false (bblock_mod_ne hbc hblock), decide_eq_false hbc]
  · have hbc : b ≠ c := fun heq => hblock (by rw [heq])
    rw [bitOf_congr (update_of_ne hblock _ _), decide_eq_false hbc, Bool.not_false,
      Bool.and_true]

/-- What a successful `balloc` does to the disk: block `b`, free before, is marked and zeroed. -/
structure Alloc (sb : Superblock) (d d' : Disk) (b : Nat) : Prop where
  data : sb.dataStart ≤ b
  lt : b < sb.size
  free : bitOf sb d b = false
  zeroed : d' b = Buffer.zero
  others : ∀ c, sb.dataStart ≤ c → c ≠ b → d' c = d c
  low : ∀ c < sb.bmapstart, d' c = d c
  bits : ∀ c < sb.size, bitOf sb d' c = (bitOf sb d c || decide (b = c))

/-- The bits of the blocks before the data area are set. -/
def Reserved (sb : Superblock) (d : Disk) : Prop := ∀ b < sb.dataStart, bitOf sb d b = true

theorem balloc_cases (sb : Superblock) (m : Machine)
    (hmeta : Reserved sb m.disk) :
    (∃ b m', balloc sb m = (b, m') ∧ Alloc sb m.disk m'.disk b ∧ m'.console = m.console) ∨
      balloc sb m = (0, m.printf outOfBlocks) ∧
        ∀ b < sb.size, bitOf sb m.disk b = true := by
  unfold balloc
  cases hfind : findFree sb m.disk with
  | none => exact .inr ⟨rfl, findFree_none hfind⟩
  | some b =>
    left
    obtain ⟨hlt, hfree, -⟩ := findFree_some hfind
    have hdata : sb.dataStart ≤ b := by
      by_contra hlow
      rw [hmeta b (by omega)] at hfree
      cases hfree
    have hbb := sb.BBLOCK_lt_dataStart hlt
    have hbm := sb.bmapstart_le_BBLOCK b
    refine ⟨b, _, rfl, ⟨hdata, hlt, hfree, ?_, fun c hc hne => ?_, fun c hc => ?_,
      fun c hc => ?_⟩, rfl⟩
    · exact update_self _ _ _
    · change update (update m.disk _ _) b Buffer.zero c = _
      rw [update_of_ne hne, update_of_ne (by omega)]
    · change update (update m.disk _ _) b Buffer.zero c = _
      rw [update_of_ne (by omega), update_of_ne (by omega)]
    · have hcb := sb.BBLOCK_lt_dataStart hc
      rw [← bitOf_setBit]
      exact bitOf_congr (update_of_ne (by omega) _ _)

/-- What a `bfree` that does not panic does to the disk. -/
structure Freed (sb : Superblock) (d d' : Disk) (b : Nat) : Prop where
  data : ∀ c, sb.dataStart ≤ c → d' c = d c
  low : ∀ c < sb.bmapstart, d' c = d c
  bits : ∀ c, bitOf sb d' c = (bitOf sb d c && !decide (b = c))

theorem bfree_ok (sb : Superblock) (m : Machine) (hb : b < sb.size)
    (hset : bitOf sb m.disk b = true) :
    ∃ m', bfree sb m b = .ok m' ∧ Freed sb m.disk m'.disk b ∧ m'.console = m.console := by
  have hbb := sb.BBLOCK_lt_dataStart hb
  have hbm := sb.bmapstart_le_BBLOCK b
  refine ⟨_, if_neg (by simp [hset]), ⟨fun c hc => ?_, fun c hc => ?_,
    bitOf_clearBit sb m.disk b⟩, rfl⟩
  · exact update_of_ne (by omega) _ _
  · exact update_of_ne (by omega) _ _

theorem bfree_inv {m m' : Machine} (h : bfree sb m b = .ok m') :
    bitOf sb m.disk b = true ∧ m'.logged = BBLOCK sb b :: m.logged ∧
      ∀ c, bitOf sb m'.disk c = (bitOf sb m.disk c && !decide (b = c)) := by
  unfold bfree at h
  split at h
  · cases h
  next hclear =>
    cases h
    exact ⟨by simpa using hclear, rfl, bitOf_clearBit sb m.disk b⟩

theorem bfree_free (sb : Superblock) (m : Machine) (hclear : bitOf sb m.disk b = false) :
    bfree sb m b = .error "freeing free block" := by
  rw [bfree, if_pos hclear]

end OsProjects.Kernel
