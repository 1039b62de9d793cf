import OsProjects.Kernel.Dinode
import OsProjects.Lib.Ownership
import Mathlib.Data.List.Induction

/-!
# Tree — the block tree of an inode

A node of the tree is a slot of `addrs[]` followed by indices into the blocks below it: the eleven
direct slots have no level below them, the single-indirect slot one, the double-indirect slot two.
One definition of a node's address then serves all three levels.
-/

namespace OsProjects.Kernel

open Lib

structure Node where
  slot : Fin (NDIRECT + 2)
  path : List Nat
deriving DecidableEq

/-- The slot of the single-indirect block, `addrs[NDIRECT]`. -/
def indSlot : Fin (NDIRECT + 2) := ⟨NDIRECT, by decide⟩

/-- The slot of the double-indirect block, `addrs[NDIRECT+1]`. -/
def dblSlot : Fin (NDIRECT + 2) := ⟨NDIRECT + 1, by decide⟩

/-- The levels of blocks below a slot. -/
def levels (slot : Fin (NDIRECT + 2)) : Nat := slot.val - 10

structure Node.Valid (n : Node) : Prop where
  depth : n.path.length ≤ levels n.slot
  index : ∀ j ∈ n.path, j < NINDIRECT

/-- Entry `j` of an indirect block; an absent block has no entries. -/
def entry (d : Disk) (a j : Nat) : Nat := if a = 0 then 0 else word (d a) j

/-- The block number at a node, `0` when there is none. -/
def addr (d : Disk) (din : Dinode) (n : Node) : Nat := n.path.foldl (entry d) (din.addrs n.slot)

/-- The node of the `bn`th block of a file. -/
def leafNode (bn : Nat) : Node :=
  if h : bn < NDIRECT then ⟨⟨bn, by omega⟩, []⟩
  else if bn - NDIRECT < NINDIRECT then ⟨indSlot, [bn - NDIRECT]⟩
  else ⟨dblSlot, [(bn - NDIRECT - NINDIRECT) / NINDIRECT, (bn - NDIRECT - NINDIRECT) % NINDIRECT]⟩

/-- Byte `k` of a file; a hole reads as zero. -/
def byteAt (d : Disk) (din : Dinode) (k : Nat) : UInt8 :=
  if addr d din (leafNode (k / BSIZE)) = 0 then 0
  else (d (addr d din (leafNode (k / BSIZE)))).get (k % BSIZE)

theorem addr_root (d : Disk) (din : Dinode) (slot : Fin (NDIRECT + 2)) :
    addr d din ⟨slot, []⟩ = din.addrs slot := rfl

theorem addr_snoc (d : Disk) (din : Dinode) (slot : Fin (NDIRECT + 2)) (q : List Nat) (j : Nat) :
    addr d din ⟨slot, q ++ [j]⟩ = entry d (addr d din ⟨slot, q⟩) j :=
  List.foldl_append

variable {slot : Fin (NDIRECT + 2)} {bn : Nat} {q : List Nat}

theorem addr_append_of_zero {d : Disk} {din : Dinode}
    (h : addr d din ⟨slot, q⟩ = 0) (t : List Nat) : addr d din ⟨slot, q ++ t⟩ = 0 := by
  induction t using List.reverseRecOn with
  | nil => rwa [List.append_nil]
  | append_singleton t j ih => rw [← List.append_assoc, addr_snoc, ih, entry, if_pos rfl]

theorem Node.Valid.of_snoc {j : Nat} (h : Node.Valid ⟨slot, q ++ [j]⟩) :
    Node.Valid ⟨slot, q⟩ ∧ q.length < levels slot ∧ j < NINDIRECT := by
  have hdepth := h.depth
  simp only [List.length_append, List.length_singleton] at hdepth
  exact ⟨⟨Nat.le_of_succ_le hdepth, fun k hk => h.index k (by simp [hk])⟩, hdepth,
    h.index j (by simp)⟩

theorem Node.Valid.snoc {j : Nat}
    (h : Node.Valid ⟨slot, q⟩) (hlen : q.length < levels slot) (hj : j < NINDIRECT) :
    Node.Valid ⟨slot, q ++ [j]⟩ := by
  refine ⟨by simpa using Nat.succ_le_of_lt hlen, fun k hk => ?_⟩
  rcases List.mem_append.mp hk with hk | hk
  · exact h.index k hk
  · rwa [List.mem_singleton.mp hk]

theorem Node.Valid.above {p : List Nat} (h : Node.Valid ⟨slot, q⟩)
    (hle : p <+: q) : Node.Valid ⟨slot, p⟩ :=
  ⟨hle.length_le.trans h.depth, fun j hj => h.index j (hle.subset hj)⟩

theorem valid_root (slot : Fin (NDIRECT + 2)) : Node.Valid ⟨slot, []⟩ :=
  ⟨Nat.zero_le _, fun _ h => by cases h⟩

/-! ## The leaves -/

theorem leafNode_direct (h : bn < NDIRECT) : leafNode bn = ⟨⟨bn, by omega⟩, []⟩ := by
  rw [leafNode, dif_pos h]

theorem leafNode_ind (h : ¬ bn < NDIRECT) (hi : bn - NDIRECT < NINDIRECT) :
    leafNode bn = ⟨indSlot, [bn - NDIRECT]⟩ := by
  rw [leafNode, dif_neg h, if_pos hi]

theorem leafNode_dbl (h : ¬ bn < NDIRECT) (hi : ¬ bn - NDIRECT < NINDIRECT) :
    leafNode bn = ⟨dblSlot, [(bn - NDIRECT - NINDIRECT) / NINDIRECT,
      (bn - NDIRECT - NINDIRECT) % NINDIRECT]⟩ := by
  rw [leafNode, dif_neg h, if_neg hi]

theorem length_leafNode (bn : Nat) : (leafNode bn).path.length = levels (leafNode bn).slot := by
  by_cases h : bn < NDIRECT
  · rw [leafNode_direct h]
    change 0 = bn - 10
    simp only [NDIRECT] at h
    omega
  · by_cases hi : bn - NDIRECT < NINDIRECT
    · rw [leafNode_ind h hi]
      rfl
    · rw [leafNode_dbl h hi]
      rfl

theorem leafNode_valid (hbn : bn < MAXFILE) : (leafNode bn).Valid := by
  refine ⟨le_of_eq (length_leafNode bn), fun j hj => ?_⟩
  by_cases h : bn < NDIRECT
  · rw [leafNode_direct h] at hj
    cases hj
  · by_cases hi : bn - NDIRECT < NINDIRECT
    · rw [leafNode_ind h hi] at hj
      rwa [List.mem_singleton.mp hj]
    · rw [leafNode_dbl h hi] at hj
      simp only [MAXFILE, NDIRECT, NINDIRECT, DOUBLEINDIRECT] at *
      simp only [List.mem_cons, List.not_mem_nil, or_false] at hj
      omega

/-- The block index of a leaf. -/
def blockIndex (n : Node) : Nat :=
  match n.path with
  | [] => n.slot
  | [j] => NDIRECT + j
  | j :: k :: _ => NDIRECT + NINDIRECT + (NINDIRECT * j + k)

theorem blockIndex_leafNode (bn : Nat) : blockIndex (leafNode bn) = bn := by
  by_cases h : bn < NDIRECT
  · rw [leafNode_direct h]
    rfl
  · by_cases hi : bn - NDIRECT < NINDIRECT
    · rw [leafNode_ind h hi]
      exact Nat.add_sub_of_le (by omega)
    · rw [leafNode_dbl h hi]
      change NDIRECT + NINDIRECT + (NINDIRECT * _ + _) = bn
      rw [Nat.div_add_mod]
      omega

theorem leafNode_inj {bn' : Nat} (h : leafNode bn = leafNode bn') : bn = bn' := by
  rw [← blockIndex_leafNode bn, h, blockIndex_leafNode]

/-- The node lies on the way from `addrs[]` to the `bn`th block. -/
def Node.OnPath (n : Node) (bn : Nat) : Prop :=
  n.slot = (leafNode bn).slot ∧ n.path <+: (leafNode bn).path

/-! ## Families of inodes -/

/-- The positions of a family `F` of inodes. -/
def Pos (F : Nat → Prop) (x : Nat × Node) : Prop := F x.1 ∧ x.2.Valid

/-- The block at a position, for the inodes `ino` on the disk `d`. -/
def own (d : Disk) (ino : Nat → Dinode) (x : Nat × Node) : Nat := addr d (ino x.1) x.2

theorem block_lt_MAXFILE {k : Nat} (hk : k < MAXFILE * BSIZE) : k / BSIZE < MAXFILE :=
  Nat.div_lt_of_lt_mul (by rwa [Nat.mul_comm])

-- Inodes without addresses have empty trees.
theorem own_of_addrs_zero {ino : Nat → Dinode} {d : Disk} {x : Nat × Node}
    (h : ∀ k, (ino x.1).addrs k = 0) : own d ino x = 0 :=
  addr_append_of_zero (q := []) (h x.2.slot) x.2.path

theorem own_snoc (d : Disk) (ino : Nat → Dinode) (i : Nat) (slot : Fin (NDIRECT + 2))
    (q : List Nat) (j : Nat) :
    own d ino (i, ⟨slot, q ++ [j]⟩) = entry d (own d ino (i, ⟨slot, q⟩)) j :=
  addr_snoc _ _ _ _ _

/-- A data block whose bitmap bit is set. -/
def Used (sb : Superblock) (d : Disk) (b : Nat) : Prop :=
  sb.dataStart ≤ b ∧ b < sb.size ∧ bitOf sb d b = true

/-- The trees of a family are pairwise disjoint and allocated, and the bits of the blocks before
the data area are set. -/
structure Blocks (sb : Superblock) (F : Nat → Prop) (ino : Nat → Dinode) (d : Disk) : Prop where
  owned : Owned (Pos F) (own d ino) (Used sb d)
  reserved : ∀ b < sb.dataStart, bitOf sb d b = true

/-- The tree of one inode is in order: no block sits at two nodes, and each is a data block in
use. -/
def WellFormedTree (sb : Superblock) (d : Disk) (ip : Dinode) : Prop :=
  Owned Node.Valid (addr d ip) (Used sb d)

/-- The boot block holds no non-zero word. -/
def BootZero (d : Disk) : Prop := ∀ j, word (d 0) j = 0

variable {sb : Superblock} {F : Nat → Prop} {ino ino' : Nat → Dinode} {d d' : Disk}

-- Addresses are computed from the indirect blocks only.
theorem own_congr (hroot : ∀ i, F i → (ino' i).addrs = (ino i).addrs)
    (hentry : ∀ i slot q, F i → Node.Valid ⟨slot, q⟩ → q.length < levels slot →
      own d ino (i, ⟨slot, q⟩) ≠ 0 → ∀ j,
        word (d' (own d ino (i, ⟨slot, q⟩))) j = word (d (own d ino (i, ⟨slot, q⟩))) j)
    (x : Nat × Node) (hx : Pos F x) : own d' ino' x = own d ino x := by
  obtain ⟨i, slot, q⟩ := x
  obtain ⟨hi, hvalid⟩ := hx
  change F i at hi
  change addr d' (ino' i) ⟨slot, q⟩ = addr d (ino i) ⟨slot, q⟩
  induction q using List.reverseRecOn with
  | nil => rw [addr_root, addr_root, hroot i hi]
  | append_singleton q j ih =>
    obtain ⟨hq, hlen, -⟩ := hvalid.of_snoc
    rw [addr_snoc, addr_snoc, ih hq, entry, entry]
    by_cases hzero : addr d (ino i) ⟨slot, q⟩ = 0
    · rw [if_pos hzero, if_pos hzero]
    · rw [if_neg hzero, if_neg hzero]
      exact hentry i slot q hi hq hlen hzero j

-- Putting a zeroed block at one empty position, whose parent is there, changes that address only.
theorem own_link {x₀ : Nat × Node} {b : Nat} (hempty : own d ino x₀ = 0)
    (hroot : ∀ i slot, F i → (ino' i).addrs slot =
      if (i, ⟨slot, []⟩) = x₀ then b else (ino i).addrs slot)
    (hentry : ∀ i slot q j, F i → Node.Valid ⟨slot, q ++ [j]⟩ →
      own d ino (i, ⟨slot, q⟩) ≠ 0 → word (d' (own d ino (i, ⟨slot, q⟩))) j =
        if (i, ⟨slot, q ++ [j]⟩) = x₀ then b else word (d (own d ino (i, ⟨slot, q⟩))) j)
    (hparent : ∀ i slot q j, x₀ = (i, ⟨slot, q ++ [j]⟩) → own d ino (i, ⟨slot, q⟩) ≠ 0)
    (hzeroed : d' b = Buffer.zero) (x : Nat × Node) (hx : Pos F x) :
    own d' ino' x = if x = x₀ then b else own d ino x := by
  obtain ⟨i, slot, q⟩ := x
  obtain ⟨hi, hvalid⟩ := hx
  change F i at hi
  change addr d' (ino' i) ⟨slot, q⟩ = if _ then b else addr d (ino i) ⟨slot, q⟩
  induction q using List.reverseRecOn with
  | nil => rw [addr_root, addr_root, hroot i slot hi]
  | append_singleton q j ih =>
    obtain ⟨hq, hlen, -⟩ := hvalid.of_snoc
    rw [addr_snoc, addr_snoc, ih hq]
    by_cases hnew : (i, (⟨slot, q⟩ : Node)) = x₀
    · -- below the new block everything is zero, as it was below the empty position
      have hold : addr d (ino i) ⟨slot, q⟩ = 0 := by
        rwa [← hnew] at hempty
      have hne : (i, (⟨slot, q ++ [j]⟩ : Node)) ≠ x₀ := by
        rw [← hnew]
        intro heq
        have hlen' := congrArg (fun x : Nat × Node => x.2.path.length) heq
        simp at hlen'
      rw [if_pos hnew, if_neg hne, hold, entry, entry, if_pos rfl, hzeroed, word_zero]
      split <;> rfl
    · rw [if_neg hnew]
      by_cases hzero : addr d (ino i) ⟨slot, q⟩ = 0
      · have hne : (i, (⟨slot, q ++ [j]⟩ : Node)) ≠ x₀ := fun heq =>
          hparent i slot q j heq.symm hzero
        rw [if_neg hne, hzero, entry, entry, if_pos rfl, if_pos rfl]
      · rw [entry, if_neg hzero, entry, if_neg hzero]
        exact hentry i slot q j hi hvalid hzero

/-! ## Writes below the bitmap -/

theorem Blocks.wellFormedTree (h : Blocks sb F ino d) {i : Nat} (hi : F i) :
    WellFormedTree sb d (ino i) := by
  refine ⟨fun n hn hne => h.owned.used_of_own (i, n) ⟨hi, hn⟩ hne, fun n n' hn hn' hne heq => ?_⟩
  have hsame := h.owned.inj (i, n) (i, n') ⟨hi, hn⟩ ⟨hi, hn'⟩ hne heq
  exact (Prod.mk.inj hsame).2

theorem Blocks.data_of_own (h : Blocks sb F ino d) {x : Nat × Node} (hx : Pos F x)
    (hne : own d ino x ≠ 0) : sb.dataStart ≤ own d ino x ∧ own d ino x < sb.size :=
  ⟨(h.owned.used_of_own x hx hne).1, (h.owned.used_of_own x hx hne).2.1⟩

section High

variable (hblocks : Blocks sb F ino d) (hroot : ∀ i, F i → (ino' i).addrs = (ino i).addrs)
  (hhigh : ∀ c, sb.bmapstart ≤ c → d' c = d c)

include hhigh in
theorem bitOf_high (c : Nat) : bitOf sb d' c = bitOf sb d c :=
  bitOf_congr (hhigh _ (sb.bmapstart_le_BBLOCK c))

include hhigh in
theorem used_high (c : Nat) : Used sb d' c ↔ Used sb d c := by
  unfold Used
  rw [bitOf_high hhigh c]

include hblocks hroot hhigh

theorem own_high (x : Nat × Node) (hx : Pos F x) : own d' ino' x = own d ino x := by
  apply own_congr hroot _ x hx
  intro i slot q hi hq _ hne j
  have hdata := hblocks.data_of_own (⟨hi, hq⟩ : Pos F (i, ⟨slot, q⟩)) hne
  have hbm := sb.bmapstart_le_data
  rw [hhigh _ (by omega)]

theorem Blocks.high : Blocks sb F ino' d' :=
  ⟨hblocks.owned.congr (own_high hblocks hroot hhigh) fun c hc => (used_high hhigh c).mpr hc,
    fun c hc => (bitOf_high hhigh c).trans (hblocks.reserved c hc)⟩

theorem noLeak_high (h : NoLeak (Pos F) (own d ino) (Used sb d)) :
    NoLeak (Pos F) (own d' ino') (Used sb d') := by
  intro c hc
  obtain ⟨x, hx, hown⟩ := h c ((used_high hhigh c).mp hc)
  exact ⟨x, hx, (own_high hblocks hroot hhigh x hx).trans hown⟩

theorem byteAt_high {i k : Nat} (hi : F i) (hk : k < MAXFILE * BSIZE) :
    byteAt d' (ino' i) k = byteAt d (ino i) k := by
  have hx : Pos F (i, leafNode (k / BSIZE)) := ⟨hi, leafNode_valid (block_lt_MAXFILE hk)⟩
  have hbm := sb.bmapstart_le_data
  change (if own d' ino' (i, leafNode (k / BSIZE)) = 0 then 0 else
      (d' (own d' ino' (i, leafNode (k / BSIZE)))).get _) =
    if own d ino (i, leafNode (k / BSIZE)) = 0 then 0 else
      (d (own d ino (i, leafNode (k / BSIZE)))).get _
  rw [own_high hblocks hroot hhigh _ hx]
  by_cases hzero : own d ino (i, leafNode (k / BSIZE)) = 0
  · rw [if_pos hzero, if_pos hzero]
  · have hdata := hblocks.data_of_own hx hzero
    rw [if_neg hzero, if_neg hzero, hhigh _ (by omega)]

end High

end OsProjects.Kernel
