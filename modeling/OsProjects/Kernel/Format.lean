import OsProjects.Kernel.Tree

/-!
# Format — a freshly formatted disk

Every block is zero except the bitmap, in which the blocks before the data area are marked.
-/

namespace OsProjects.Kernel

open Lib

/-- Set the bit of block `b`. -/
def markUsed (sb : Superblock) (d : Disk) (b : Nat) : Disk :=
  Function.update d (BBLOCK sb b) ((d (BBLOCK sb b)).setBit (b % BPB))

def blankDisk (sb : Superblock) : Disk :=
  (List.range sb.dataStart).foldl (markUsed sb) fun _ => Buffer.zero

/-- The layout of a disk of `FSSIZE` blocks with 200 inodes and a log of 30 blocks. -/
def mkfsLayout : Superblock where
  size := 200000
  nblocks := 199930
  ninodes := 200
  nlog := 30
  logstart := 2
  inodestart := 32
  bmapstart := 45
  log_after_super := Nat.le_add_right 2 0
  inodes_after_log := by decide
  bitmap_after_inodes := by decide
  data_after_bitmap := by decide
  int_size := by decide

theorem bitOf_foldl_markUsed (sb : Superblock) (bs : List Nat) (d : Disk) (c : Nat) :
    bitOf sb (bs.foldl (markUsed sb) d) c = (bitOf sb d c || decide (c ∈ bs)) := by
  induction bs generalizing d with
  | nil => simp
  | cons b bs ih =>
    rw [List.foldl_cons, ih, markUsed, bitOf_setBit]
    by_cases hbc : b = c
    · simp [hbc]
    · have hcb : ¬ c = b := fun h => hbc h.symm
      simp [hbc, hcb]

theorem foldl_markUsed_of_ne (sb : Superblock) (bs : List Nat) (d : Disk) {c : Nat}
    (hc : ∀ b ∈ bs, c ≠ BBLOCK sb b) : bs.foldl (markUsed sb) d c = d c := by
  induction bs generalizing d with
  | nil => rfl
  | cons b bs ih =>
    rw [List.foldl_cons, ih _ fun b' hb' => hc b' (by simp [hb']), markUsed,
      Function.update_of_ne (hc b (by simp))]

theorem bitOf_blankDisk (sb : Superblock) (c : Nat) :
    bitOf sb (blankDisk sb) c = decide (c < sb.dataStart) := by
  have hzero : bitOf sb (fun _ => Buffer.zero) c = false := by simp [bitOf, Buffer.bit]
  rw [blankDisk, bitOf_foldl_markUsed, hzero, Bool.false_or]
  simp

theorem blankDisk_low (sb : Superblock) {c : Nat} (hc : c < sb.bmapstart) :
    blankDisk sb c = Buffer.zero := by
  refine foldl_markUsed_of_ne sb _ _ fun b _ => ?_
  have hbm := sb.bmapstart_le_BBLOCK b
  omega

theorem not_used_blankDisk (sb : Superblock) (b : Nat) : ¬ Used sb (blankDisk sb) b := by
  rintro ⟨hlo, -, hset⟩
  rw [bitOf_blankDisk, decide_eq_true_eq] at hset
  omega

variable {ino : Nat → Dinode}

theorem blocks_blankDisk (sb : Superblock) {F : Nat → Prop}
    (h : ∀ i, F i → ∀ k, (ino i).addrs k = 0) : Blocks sb F ino (blankDisk sb) := by
  refine ⟨⟨fun x hx hne => ?_, fun x y hx _ hne _ => ?_⟩, fun b hb => ?_⟩
  · exact absurd (own_of_addrs_zero (h x.1 hx.1)) hne
  · exact absurd (own_of_addrs_zero (h x.1 hx.1)) hne
  · rw [bitOf_blankDisk, decide_eq_true hb]

/-! ## A disk with one shallow file -/

/-- A fresh disk on which the blocks `bs` are marked as well. -/
def diskWith (sb : Superblock) (bs : List Nat) : Disk := bs.foldl (markUsed sb) (blankDisk sb)

variable {sb : Superblock} {bs : List Nat} {addrs : Fin (NDIRECT + 2) → Nat} {k : Fin (NDIRECT + 2)}
  {b : Nat}

-- All data blocks.
theorem mem_dataBlocks :
    b ∈ List.range' sb.dataStart sb.nblocks ↔ sb.dataStart ≤ b ∧ b < sb.size := by
  have hle : sb.nblocks ≤ sb.size := (Nat.le_add_left _ _).trans sb.data_after_bitmap
  rw [List.mem_range'_1, Superblock.dataStart]
  omega

/-- An inode with the addresses `addrs`. -/
def inodeWith (addrs : Fin (NDIRECT + 2) → Nat) : Dinode := ⟨2, 0, 0, 0, 0, addrs⟩

theorem bitOf_diskWith (sb : Superblock) (bs : List Nat) (c : Nat) :
    bitOf sb (diskWith sb bs) c = (decide (c < sb.dataStart) || decide (c ∈ bs)) := by
  rw [diskWith, bitOf_foldl_markUsed, bitOf_blankDisk]

theorem diskWith_of_not_bitmap {c : Nat}
    (hbs : ∀ b ∈ bs, b < sb.size) (hc : c < sb.bmapstart ∨ sb.dataStart ≤ c) :
    diskWith sb bs c = Buffer.zero := by
  have hsize := sb.dataStart_le_size
  have hout : ∀ b < sb.size, c ≠ BBLOCK sb b := by
    intro b hb
    have hlt := sb.BBLOCK_lt_dataStart hb
    have hle := sb.bmapstart_le_BBLOCK b
    omega
  rw [diskWith, foldl_markUsed_of_ne sb _ _ fun b hb => hout b (hbs b hb), blankDisk,
    foldl_markUsed_of_ne sb _ _ fun b hb => hout b (by have hlt := List.mem_range.mp hb; omega)]

-- On a disk whose data blocks are zero nothing hangs below the slots.
theorem addr_inodeWith {d : Disk} (hd : ∀ k, addrs k ≠ 0 → d (addrs k) = Buffer.zero) {n : Node}
    (hne : addr d (inodeWith addrs) n ≠ 0) :
    n = ⟨n.slot, []⟩ ∧ addr d (inodeWith addrs) n = addrs n.slot := by
  obtain ⟨k, q⟩ := n
  cases q with
  | nil => exact ⟨rfl, rfl⟩
  | cons j t =>
    exfalso
    apply hne
    have hentry : entry d (addrs k) j = 0 := by
      by_cases hzero : addrs k = 0
      · rw [entry, if_pos hzero]
      · rw [entry, if_neg hzero, hd k hzero, word_zero]
    change t.foldl (entry d) (entry d (addrs k) j) = 0
    rw [hentry]
    clear hne
    induction t with
    | nil => rfl
    | cons j t ih => exact ih

theorem wellFormedTree_inodeWith (hbs : ∀ b ∈ bs, sb.dataStart ≤ b ∧ b < sb.size)
    (hmem : ∀ k, addrs k ≠ 0 → addrs k ∈ bs)
    (hinj : ∀ k k', addrs k ≠ 0 → addrs k = addrs k' → k = k') :
    WellFormedTree sb (diskWith sb bs) (inodeWith addrs) := by
  have hzero : ∀ k, addrs k ≠ 0 → diskWith sb bs (addrs k) = Buffer.zero := fun k hne =>
    diskWith_of_not_bitmap (fun b hb => (hbs b hb).2) (.inr (hbs _ (hmem k hne)).1)
  refine ⟨fun n _ hne => ?_, fun n n' _ _ hne heq => ?_⟩
  · have haddr := (addr_inodeWith hzero hne).2
    rw [haddr] at hne ⊢
    have hin := hmem _ hne
    exact ⟨(hbs _ hin).1, (hbs _ hin).2, by rw [bitOf_diskWith, decide_eq_true hin, Bool.or_true]⟩
  · have hne' : addr (diskWith sb bs) (inodeWith addrs) n' ≠ 0 := heq ▸ hne
    obtain ⟨hn, haddr⟩ := addr_inodeWith hzero hne
    obtain ⟨hn', haddr'⟩ := addr_inodeWith hzero hne'
    rw [haddr] at hne heq
    rw [haddr'] at heq
    rw [hn, hn', hinj _ _ hne heq]

/-- An inode whose only block is `b`, at slot `k`. -/
def oneBlock (k : Fin (NDIRECT + 2)) (b : Nat) : Dinode :=
  inodeWith fun k' => if k' = k then b else 0

theorem oneBlock_addrs (k : Fin (NDIRECT + 2)) (b : Nat) : (oneBlock k b).addrs k = b := if_pos rfl

theorem oneBlock_of_ne {k' : Fin (NDIRECT + 2)} (b : Nat) (h : k' ≠ k) :
    (oneBlock k b).addrs k' = 0 := if_neg h

theorem wellFormedTree_oneBlock (hbs : ∀ c ∈ bs, sb.dataStart ≤ c ∧ c < sb.size) (hb : b ∈ bs) :
    WellFormedTree sb (diskWith sb bs) (oneBlock k b) := by
  have hslot : ∀ k', (if k' = k then b else 0) ≠ 0 → k' = k := fun k' hne => by
    by_contra hk
    exact hne (if_neg hk)
  apply wellFormedTree_inodeWith hbs
  · intro k' hne
    rwa [hslot k' hne, if_pos rfl]
  · intro k1 k2 hne heq
    rw [hslot k1 hne, hslot k2 (heq ▸ hne)]

theorem addr_oneBlock (hbs : ∀ c ∈ bs, sb.dataStart ≤ c ∧ c < sb.size) (hb : b ∈ bs) {n : Node}
    (hne : addr (diskWith sb bs) (oneBlock k b) n ≠ 0) :
    addr (diskWith sb bs) (oneBlock k b) n = b := by
  have hslot : ∀ k', (if k' = k then b else 0) ≠ 0 → (if k' = k then b else 0) = b :=
    fun k' hne => by
    by_cases hk : k' = k
    · rw [if_pos hk]
    · exact absurd (if_neg hk) hne
  have haddr : addr (diskWith sb bs) (oneBlock k b) n = if n.slot = k then b else 0 := by
    refine (addr_inodeWith (fun k' hk' => ?_) hne).2
    rw [hslot k' hk']
    exact diskWith_of_not_bitmap (fun c hc => (hbs c hc).2) (.inr (hbs b hb).1)
  rw [haddr] at hne ⊢
  exact hslot _ hne

end OsProjects.Kernel
