import OsProjects.Kernel.Itrunc
import OsProjects.Kernel.WriteRounds
import Mathlib.Data.List.Sort

/-!
# Packing — how many blocks a file has, and in which order it gets them

A file that grows gets its blocks in one order, the indirect blocks right before the first block
below them.  If it has the first `b` blocks of that order, it has the first ones again after a
`writei`, whether or not that gets all it asks for, and `b` says what `itrunc` meets.
-/

namespace OsProjects.Kernel

open Lib Function List

/-! ## Counting blocks -/

def blocksOf (size : Nat) : Nat := (size + BSIZE - 1) / BSIZE

/-- The blocks of a file of `n` data blocks: with the indirect block, the double-indirect block and
those of the second level. -/
def blocksFor (n : Nat) : Nat :=
  n + (if n ≤ NDIRECT then 0 else 1) + if n ≤ NDIRECT + NINDIRECT then 0
    else 1 + (n - (NDIRECT + NINDIRECT) + (NINDIRECT - 1)) / NINDIRECT

/-- The data blocks among the first `b` blocks of a file, in the order of `bmap`. -/
def dataBlocks (b : Nat) : Nat :=
  if b ≤ NDIRECT then b
  else if b ≤ NDIRECT + NINDIRECT + 1 then b - 1
  else NDIRECT + NINDIRECT + (b - (NDIRECT + NINDIRECT + 2)) / (NINDIRECT + 1) * NINDIRECT +
    ((b - (NDIRECT + NINDIRECT + 2)) % (NINDIRECT + 1) - 1)

/-- The zero entries of the double-indirect block, if that is among the first `b` blocks. -/
def absentEntries (b : Nat) : Nat :=
  if b ≤ NDIRECT + NINDIRECT + 1 then 0
  else NINDIRECT - (b - (NDIRECT + NINDIRECT + 2) + NINDIRECT) / (NINDIRECT + 1)

theorem le_blocksOf (size : Nat) : size ≤ blocksOf size * BSIZE := by
  unfold blocksOf
  simp only [BSIZE]
  omega

theorem blocksFor_mono {m n : Nat} (h : m ≤ n) : blocksFor m ≤ blocksFor n := by
  unfold blocksFor
  simp only [NDIRECT, NINDIRECT]
  split <;> split <;> split <;> split <;> omega

theorem blocksFor_succ_le (n : Nat) : blocksFor (n + 1) ≤ blocksFor n + 3 := by
  unfold blocksFor
  simp only [NDIRECT, NINDIRECT]
  split <;> split <;> split <;> split <;> omega

-- The data blocks are `n` or more when the blocks of a file of `n` are there.
theorem le_dataBlocks_iff {b n : Nat} : n ≤ dataBlocks b ↔ blocksFor n ≤ b := by
  unfold blocksFor dataBlocks
  simp only [NDIRECT, NINDIRECT]
  split <;> split <;> split <;> (try split) <;> omega

/-! ## The order of the blocks -/

variable {sb : Superblock} {m m' : Machine} {ip ip' : Dinode} {d : Disk} {n n' : Node}
  {b bn lo k off len : Nat}

/-- The place of a node in the order in which `bmap` asks for the blocks of a file that grows. -/
def rank (n : Node) : Nat :=
  match n.path with
  | [] => if n.slot = dblSlot then NDIRECT + NINDIRECT + 1 else n.slot
  | [j] =>
    if n.slot = dblSlot then NDIRECT + NINDIRECT + 2 + j * (NINDIRECT + 1) else NDIRECT + 1 + j
  | i :: j :: _ => NDIRECT + NINDIRECT + 3 + i * (NINDIRECT + 1) + j

/-- The file has the first `b` blocks of that order. -/
def Packed (d : Disk) (ip : Dinode) (b : Nat) : Prop :=
  ∀ n : Node, n.Valid → (addr d ip n = 0 ↔ b ≤ rank n)

theorem Node.Valid.shape (h : n.Valid) : (∃ slot, n = ⟨slot, []⟩) ∨
    (∃ j < NINDIRECT, n = ⟨indSlot, [j]⟩ ∨ n = ⟨dblSlot, [j]⟩) ∨
    ∃ i < NINDIRECT, ∃ j < NINDIRECT, n = ⟨dblSlot, [i, j]⟩ := by
  obtain ⟨slot, path⟩ := n
  have hdepth : path.length ≤ slot.val - 10 := h.depth
  have hslot : slot.val < 13 := slot.isLt
  have hindex : ∀ j ∈ path, j < NINDIRECT := h.index
  match path with
  | [] => exact .inl ⟨slot, rfl⟩
  | [j] =>
    have hcases : slot = indSlot ∨ slot = dblSlot := by
      rw [Fin.ext_iff, Fin.ext_iff]
      change 1 ≤ _ at hdepth
      change slot.val = 11 ∨ slot.val = 12
      omega
    refine .inr (.inl ⟨j, hindex j mem_cons_self, ?_⟩)
    exact hcases.imp (congrArg (Node.mk · [j])) (congrArg (Node.mk · [j]))
  | i :: j :: rest =>
    simp only [length_cons] at hdepth
    obtain rfl : rest = [] := length_eq_zero_iff.mp (by omega)
    obtain rfl : slot = dblSlot := Fin.ext (show slot.val = 12 by omega)
    exact .inr (.inr ⟨i, hindex i (by simp), j, hindex j (by simp), rfl⟩)

theorem rank_inj (hn : n.Valid) (hn' : n'.Valid) (h : rank n = rank n') : n = n' := by
  rcases hn.shape with ⟨slot, rfl⟩ | ⟨j, hj, rfl | rfl⟩ | ⟨i, hi, j, hj, rfl⟩ <;>
  rcases hn'.shape with ⟨slot', rfl⟩ | ⟨j', hj', rfl | rfl⟩ | ⟨i', hi', j', hj', rfl⟩ <;>
  simp only [rank, dblSlot, indSlot, Fin.ext_iff, Node.mk.injEq, cons.injEq, NDIRECT, NINDIRECT,
    reduceCtorEq, and_true, and_false, true_and] at * <;> (try split_ifs at h) <;> omega

theorem map_rank_pathNodes (bn : Nat) : (pathNodes bn).map rank =
    if bn < NDIRECT then [bn] else if bn < NDIRECT + NINDIRECT then [NDIRECT, bn + 1]
    else [NDIRECT + NINDIRECT + 1,
      NDIRECT + NINDIRECT + 2 + (bn - NDIRECT - NINDIRECT) / NINDIRECT * (NINDIRECT + 1),
      bn + 3 + (bn - NDIRECT - NINDIRECT) / NINDIRECT] := by
  rw [pathNodes]
  split_ifs with h hi
  · rw [leafNode_direct h]
    have hne : (⟨bn, by omega⟩ : Fin (NDIRECT + 2)) ≠ dblSlot :=
      fun heq => by cases heq; exact absurd h (by decide)
    simp [rank, hne]
  · rw [leafNode_ind h (by omega)]
    simp [rank, indSlot, dblSlot]
    omega
  · rw [leafNode_dbl h (by omega)]
    simp [rank]
    simp only [NDIRECT, NINDIRECT] at *
    omega

theorem ranks_sorted (bn : Nat) : ((pathNodes bn).map rank).Pairwise (· < ·) := by
  rw [map_rank_pathNodes]
  simp only [NDIRECT, NINDIRECT]
  split_ifs <;> simp <;> omega

theorem filter_ranks {c : Nat} (hc : blocksFor bn ≤ c) :
    ((pathNodes bn).filter (c ≤ rank ·)).map rank = range' c (blocksFor (bn + 1) - c) := by
  refine (filter_map (p := (decide <| c ≤ ·))).symm.trans ?_
  refine ((ranks_sorted bn).filter _).eq_of_mem_iff pairwise_lt_range' fun r => ?_
  rw [map_rank_pathNodes, mem_filter, mem_range'_1]
  unfold blocksFor at *
  simp only [NDIRECT, NINDIRECT] at *
  split_ifs at * <;> simp <;> omega

theorem missing_of_nodup {ns : List Node} (h : ns.Nodup) :
    missing d ip ns = ns.filter (addr d ip · = 0) := by
  induction ns with
  | nil => rfl
  | cons n ns ih =>
    obtain ⟨hn, h⟩ := nodup_cons.mp h
    rw [missing, ih h, filter_filter]
    by_cases hzero : addr d ip n = 0
    · rw [if_pos hzero, filter_cons_of_pos (by simpa using hzero)]
      congr 1
      apply filter_congr
      intro n' hn'
      have hne : n' ≠ n := fun heq => hn (heq ▸ hn')
      simp [hne]
    · rw [if_neg hzero, filter_cons_of_neg (by simpa using hzero)]

-- A list of nodes is known by its ranks.
theorem mem_map_rank {ns : List Node} (hns : ∀ n ∈ ns, n.Valid) (hn : n.Valid) :
    rank n ∈ ns.map rank ↔ n ∈ ns := by
  refine ⟨fun hmem => ?_, mem_map_of_mem⟩
  obtain ⟨n', hn', heq⟩ := mem_map.mp hmem
  rwa [← rank_inj (hns n' hn') hn heq]

namespace Packed

section Order

variable (h : Packed d ip b)
include h

-- From block `lo` on the nodes that are missing come in order, and none is passed over.
theorem missing (hlo : blocksFor lo ≤ b) (hk : lo + k ≤ MAXFILE) :
    (missing d ip ((range' lo k).flatMap pathNodes)).map rank =
      range' b (blocksFor (lo + k) - b) := by
  induction k with
  | zero =>
    rw [Nat.add_zero, Nat.sub_eq_zero_of_le hlo]
    rfl
  | succ k ih =>
    have hprev := ih (by omega)
    have hvalid : ∀ n ∈ pathNodes (lo + k), n.Valid := fun n => valid_pathNodes (by omega)
    have hearlier : ∀ n ∈ Kernel.missing d ip ((range' lo k).flatMap pathNodes), n.Valid := by
      intro n hn
      obtain ⟨bn, hbn, hpath⟩ := mem_flatMap.mp (mem_missing.mp hn).1
      have hlt := mem_range'_1.mp hbn
      exact valid_pathNodes (by omega) hpath
    -- what the way to the next block adds is above all that was missing before
    have hnew : ∀ n ∈ pathNodes (lo + k),
        (decide (n ∉ Kernel.missing d ip ((range' lo k).flatMap pathNodes)) && decide
          (addr d ip n = 0)) =
          decide (max b (blocksFor (lo + k)) ≤ rank n) := by
      intro n hn
      rw [← Bool.decide_and, decide_eq_decide, ← mem_map_rank hearlier (hvalid n hn), hprev,
        mem_range'_1, h n (hvalid n hn)]
      omega
    rw [range'_1_concat, flatMap_append, flatMap_singleton, missing_append, map_append, hprev,
      missing_of_nodup (Nodup.of_map rank ((ranks_sorted _).imp ne_of_lt)), filter_filter,
      filter_congr hnew, filter_ranks (le_max_right ..)]
    rcases le_total b (blocksFor (lo + k)) with hle | hle
    · obtain ⟨x, hx⟩ := Nat.exists_eq_add_of_le hle
      obtain ⟨y, hy⟩ := Nat.exists_eq_add_of_le (blocksFor_mono (Nat.le_succ (lo + k)))
      rw [max_eq_right hle, ← Nat.add_assoc, hy, hx, Nat.add_sub_cancel_left,
        Nat.add_sub_cancel_left, range'_append_1, Nat.add_assoc, Nat.add_sub_cancel_left]
    · rw [max_eq_left hle, Nat.sub_eq_zero_of_le hle]
      rfl

theorem wanted (hoff : blocksFor (blocksOf off) ≤ b) (hfit : off + len ≤ MAXFILE * BSIZE) :
    (wanted d ip (spans off len)).map rank = range' b (blocksFor (blocksOf (off + len)) - b) := by
  by_cases hlen : len = 0
  · rw [hlen, spans, if_pos rfl, Nat.add_zero, Nat.sub_eq_zero_of_le hoff]
    rfl
  · have hcount : off / BSIZE + ((off + len - 1) / BSIZE + 1 - off / BSIZE) = blocksOf
        (off + len) := by
      unfold blocksOf
      simp only [BSIZE]
      omega
    have hlo : off / BSIZE ≤ blocksOf off := Nat.div_le_div_right (by simp only [BSIZE]; omega)
    rw [spans_pos off (by omega), Kernel.wanted, blockRange,
      h.missing ((blocksFor_mono hlo).trans hoff), hcount]
    simp only [BSIZE] at *
    omega

end Order

variable {ns : List Node} {bs written : List Nat} {src : Source} {r N : Nat}

theorem grants (h : Packed m.disk ip b) (hgrants : Grants sb ip m ip' m' ns bs written)
    (hns : ns.map rank = range' b k) : Packed m'.disk ip' (b + k) := by
  intro n hn
  rw [hgrants.zero_iff hn, h n hn, ← mem_map_rank (fun n hn => (hgrants.empty n hn).1) hn, hns,
    mem_range'_1]
  omega

theorem loopEnd (h : Packed m.disk ip b) (hoff : blocksFor (blocksOf off) ≤ b)
    (hfit : off + N ≤ MAXFILE * BSIZE) (hread : ∀ k < N, src k ≠ none)
    (hend : LoopEnd sb src N off ip m r ip' m') {b' : Nat}
    (hb' : b' = b + min (blocksFor (blocksOf (off + N)) - b) (freeBlocks sb m.disk).length) :
    Copied sb src off ip m.disk r ip' m'.disk ∧ Packed m'.disk ip' b' ∧
      r = min N (dataBlocks b' * BSIZE - off) := by
  have hlength : ∀ len, off + len ≤ MAXFILE * BSIZE →
      (Kernel.wanted m.disk ip (spans off len)).length = blocksFor (blocksOf (off + len)) - b := by
    intro len hlen
    rw [← length_map rank, h.wanted hoff hlen, length_range']
  cases hend with
  | finished heq hserved =>
    subst heq
    have haff := hserved.affordable
    rw [Affordable, hlength r hfit] at haff
    rw [min_eq_left haff] at hb'
    subst hb'
    have hblocks := le_dataBlocks_iff.mpr (show blocksFor (blocksOf (off + r)) ≤
      b + (blocksFor (blocksOf (off + r)) - b) by omega)
    have hle := (le_blocksOf (off + r)).trans (Nat.mul_le_mul_right BSIZE hblocks)
    exact ⟨hserved.copied, h.grants hserved.grants (h.wanted hoff hfit), by omega⟩
  | refused href =>
    have hlt := href.lt
    have haff := href.affordable
    have hmore := href.unaffordable
    rw [Affordable, hlength r (by omega)] at haff
    rw [Affordable, hlength (r + 1) (by omega)] at hmore
    have hmono := blocksFor_mono (show blocksOf (off + (r + 1)) ≤ blocksOf (off + N) from
      Nat.div_le_div_right (by omega))
    rw [min_eq_right (by omega)] at hb'
    subst hb'
    refine ⟨href.copied, h.grants href.grants ?_, ?_⟩
    · rw [map_take, h.wanted hoff (by omega), take_range'_of_length_ge (by omega)]
    · -- the blocks end where the round at `r` starts
      have hlow := le_dataBlocks_iff.mpr (show blocksFor (blocksOf (off + r)) ≤
        b + (freeBlocks sb m.disk).length by omega)
      have hhigh := mt le_dataBlocks_iff.mp (show ¬ blocksFor (blocksOf (off + (r + 1))) ≤
        b + (freeBlocks sb m.disk).length by omega)
      have hstart := href.start
      unfold blocksOf at hlow hhigh
      simp only [BSIZE] at *
      omega
  | faulted hfault => exact absurd hfault.fault (hread _ hfault.lt)

theorem writei {inum : Nat} (h : Packed m.disk ip b) (htree : WellFormedTree sb m.disk ip)
    (hreserved : Reserved sb m.disk) (hboot : BootZero m.disk)
    (hinum : inum < sb.ninodes) (hN : N < 2 ^ 32) (hb : blocksFor (blocksOf ip.size) ≤ b)
    (hread : ∀ k < N, src k ≠ none)
    (hrun : writei sb m inum ip src off N = .ok ((r : Int), ip', m'))
    {b' : Nat} (hb' : b' = b + min (blocksFor (blocksOf (off + N)) - b)
      (freeBlocks sb m.disk).length) :
    Packed m'.disk ip' b' ∧ r = min N (dataBlocks b' * BSIZE - off) ∧ ∃ ip₂ m₂,
      Copied sb src off ip m.disk r ip₂ m₂.disk ∧ ip' = grown ip₂ (off + r) ∧
      m' = iupdate sb m₂ inum ip' := by
  obtain ⟨hoff, hfit, ip₂, m₂, hend, hip, hm⟩ := writei_ends htree hreserved hboot hN hrun
  have hle := blocksFor_mono
    (show blocksOf off ≤ blocksOf ip.size from Nat.div_le_div_right (by omega))
  obtain ⟨hcopied, hpacked, hr⟩ := h.loopEnd (hle.trans hb) hfit hread hend hb'
  refine ⟨fun n hn => ?_, hr, ip₂, m₂, hcopied, hip, hm⟩
  obtain ⟨htree₂, hreserved₂⟩ := hcopied.wellFormedTree
  have hsame := @own_high sb (· = 0) (fun _ => ip₂) (fun _ => ip') m₂.disk m'.disk
    (htree₂.blocks hreserved₂) (fun _ _ => by rw [hip, grown_addrs])
    (hm ▸ iupdate_high sb m₂ hinum ip') (0, n) ⟨rfl, hn⟩
  rw [← hpacked n hn]
  exact Eq.congr_left hsame

theorem countP_range_le (t n : Nat) : (List.range n).countP (t ≤ ·) = n - t := by
  induction n with
  | zero => simp
  | succ n ih =>
    rw [range_succ, countP_append, ih, countP_singleton]
    split <;> simp at * <;> omega

-- The second-level blocks that a packed file lacks are the last ones.
theorem absent (h : Packed d ip b) : absent d ip = absentEntries b := by
  have hroot := h ⟨dblSlot, []⟩ (valid_root _)
  have hroot : ip.addrs dblSlot = 0 ↔ b ≤ NDIRECT + NINDIRECT + 1 := hroot
  rw [Kernel.absent, absentEntries]
  by_cases hzero : ip.addrs dblSlot = 0
  · rw [if_pos hzero, if_pos (hroot.mp hzero)]
  · rw [if_neg hzero, if_neg (mt hroot.mpr hzero), ← countP_range_le]
    apply countP_congr
    intro j hj
    have hentry := h ⟨dblSlot, [] ++ [j]⟩ ((valid_root _).snoc (by decide) (mem_range.mp hj))
    rw [addr_snoc, addr_root, entry, if_neg hzero] at hentry
    have hentry : _ ↔ b ≤ NDIRECT + NINDIRECT + 2 + j * (NINDIRECT + 1) := hentry
    simp only [decide_eq_true_eq, hentry, NDIRECT, NINDIRECT]
    omega

end Packed

end OsProjects.Kernel
