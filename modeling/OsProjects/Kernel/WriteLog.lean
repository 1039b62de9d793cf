import OsProjects.Kernel.Packing
import OsProjects.Kernel.WriteReport
import Mathlib.Data.Finset.Card
import Mathlib.Data.Finset.Dedup

/-!
# WriteLog — the blocks that one round of `filewrite` logs

A round writes at most three blocks' worth of bytes, but how many buffers it logs depends on what is
missing in the tree of the file and on where the free blocks lie.
-/

namespace OsProjects.Kernel

open Lib Function List

variable {sb : Superblock} {m m₁ m₂ m' : Machine} {ip ip₂ ip' : Dinode} {d : Disk} {src : Source}
  {n off inum r : Nat} {ns : List Node}

/-- `max` of `filewrite`. -/
def maxChunk : Nat := (MAXOPBLOCKS - 1 - 1 - 2) / 2 * BSIZE

/-- The transaction of one round of `filewrite` with `rest` bytes to go. -/
def filewriteRound (sb : Superblock) (m : Machine) (inum : Nat) (ip : Dinode) (src : Source)
    (off rest : Nat) : Except String (Int × Dinode × Machine) :=
  writei sb { m with logged := [] } inum ip src off (if rest > maxChunk then maxChunk else rest)

/-! ## What a round logs -/

/-- The bytes of the source that are looked at, if all blocks can be had: those up to the first that
cannot be read. -/
def attempted (src : Source) (n : Nat) : Nat :=
  match (List.range n).find? fun k => (src k).isNone with
  | some t => t + 1
  | none => n

/-- The blocks of the file that are written in full rounds. -/
def fullRounds (sb : Superblock) (d : Disk) (ip : Dinode) (src : Source) (off n : Nat) : List Nat :=
  (spans off (attempted src n)).filter fun bn =>
    Affordable sb d ip (blockRange (off / BSIZE) bn) ∧ ∀ k < n, (off + k) / BSIZE = bn →
    src k ≠ none

/-- The nodes that a write of `n` bytes at `off` puts a block at. -/
def newNodes (sb : Superblock) (d : Disk) (ip : Dinode) (src : Source) (off n : Nat) : List Node :=
  (wanted d ip (spans off (attempted src n))).take (freeBlocks sb d).length

/-- The blocks that it takes from the bitmap. -/
def newBlocks (sb : Superblock) (d : Disk) (ip : Dinode) (src : Source) (off n : Nat) : List Nat :=
  (freeBlocks sb d).take (wanted d ip (spans off (attempted src n))).length

/-- The blocks that it logs: the block of the inode, the new blocks, the bitmap blocks of these, and
of the blocks there were before the indirect ones in which a new block is recorded and the data
blocks of full rounds. -/
def writeBlocks (sb : Superblock) (d : Disk) (inum : Nat) (ip : Dinode) (src : Source)
    (off n : Nat) : List Nat :=
  IBLOCK sb inum :: newBlocks sb d ip src off n ++ (newBlocks sb d ip src off n).map (BBLOCK sb) ++
    (recordBlocks d ip (newNodes sb d ip src off n) ++
      (fullRounds sb d ip src off n).map fun bn => addr d ip (leafNode bn)).filter (· ≠ 0)

theorem attempted_of_readable (h : ∀ k < n, src k ≠ none) : attempted src n = n := by
  have hnone : (List.range n).find? (fun k => (src k).isNone) = none := by
    apply List.find?_eq_none.mpr
    intro k hk
    rw [Option.isNone_iff_eq_none]
    exact h k (mem_range.mp hk)
  rw [attempted, hnone]

theorem attempted_of_fault {t : Nat} (ht : t < n) (hfault : src t = none)
    (hbefore : ∀ k < t, src k ≠ none) : attempted src n = t + 1 := by
  have hsome : (List.range n).find? (fun k => (src k).isNone) = some t := by
    apply List.find?_range_eq_some.mpr
    refine ⟨by rw [hfault]; rfl, mem_range.mpr ht, fun k hk => ?_⟩
    rw [Bool.not_eq_true', Option.isNone_eq_false_iff, Option.isSome_iff_ne_none]
    exact hbefore k hk
  rw [attempted, hsome]

theorem lt_attempted {tot : Nat} (htot : tot < n) (h : ∀ k < tot, src k ≠ none) :
    tot < attempted src n := by
  unfold attempted
  cases hfind : (List.range n).find? fun k => (src k).isNone with
  | none => exact htot
  | some t =>
    have hnone := List.find?_some hfind
    rw [Option.isNone_iff_eq_none] at hnone
    change tot < t + 1
    by_contra hle
    exact h t (by omega) hnone

theorem mem_fullRounds {bn : Nat} : bn ∈ fullRounds sb d ip src off n ↔
    (∃ k < attempted src n, (off + k) / BSIZE = bn ∧ Affordable sb d ip (spans off (k + 1))) ∧
      ∀ k < n, (off + k) / BSIZE = bn → src k ≠ none := by
  have hspans : ∀ k, (off + k) / BSIZE = bn →
      spans off (k + 1) = blockRange (off / BSIZE) bn := by
    intro k hk
    rw [spans_pos off (by omega), ← hk]
    rfl
  rw [fullRounds, mem_filter, mem_spans, decide_eq_true_eq]
  constructor
  · rintro ⟨⟨k, hk, hbn⟩, hafford, hread⟩
    exact ⟨⟨k, hk, hbn, by rw [hspans k hbn]; exact hafford⟩, hread⟩
  · rintro ⟨⟨k, hk, hbn, hafford⟩, hread⟩
    exact ⟨⟨k, hk, hbn⟩, by rw [← hspans k hbn]; exact hafford, hread⟩

-- In terms of the state before: what has appeared since is among the new blocks.
theorem Grants.mem_logged {bs bns : List Nat}
    (h : Grants sb ip m ip' m' ns bs (bns.map fun bn => addr m'.disk ip' (leafNode bn)))
    (hbns : ∀ bn ∈ bns, bn < MAXFILE ∧ addr m'.disk ip' (leafNode bn) ≠ 0) :
    ∃ new, m'.logged = new ++ m.logged ∧ ∀ c, c ∈ new ↔ c ∈ bs ∨ c ∈ bs.map (BBLOCK sb) ∨
      c ∈ (recordBlocks m.disk ip ns ++ bns.map fun bn => addr m.disk ip (leafNode bn)).filter
        (· ≠ 0) := by
  obtain ⟨new, hnew, hmem⟩ := h.logged
  have hfresh : ∀ node : Node, node.Valid → addr m'.disk ip' node ≠ 0 →
      addr m'.disk ip' node ∈ bs ∨ addr m.disk ip node = addr m'.disk ip' node := by
    intro node hnode _
    by_cases hin : node ∈ ns
    · exact .inl (h.here node hin).2
    · exact .inr (h.elsewhere node hnode hin).symm
  refine ⟨new, hnew, fun c => (hmem c).trans ?_⟩
  simp only [recordBlocks, mem_filter, mem_append, mem_map, ne_eq, decide_not,
    Bool.not_eq_eq_eq_not, Bool.not_true, decide_eq_false_iff_not]
  constructor
  · rintro (hc | hc | ⟨node, ⟨hnode, hpath⟩, rfl⟩ | ⟨bn, hbn, rfl⟩)
    · exact .inl hc
    · exact .inr (.inl hc)
    · have hne := addr_parent_ne_zero hpath (h.here node hnode).1
      rcases hfresh _ (h.empty node hnode).1.parent hne with hin | hsame
      · exact .inl hin
      · exact .inr (.inr ⟨.inl ⟨node, ⟨hnode, hpath⟩, hsame⟩, hne⟩)
    · obtain ⟨hlt, hne⟩ := hbns bn hbn
      rcases hfresh _ (leafNode_valid hlt) hne with hin | hsame
      · exact .inl hin
      · exact .inr (.inr ⟨.inr ⟨bn, hbn, hsame⟩, hne⟩)
  · rintro (hc | hc | ⟨⟨node, ⟨hnode, hpath⟩, rfl⟩ | ⟨bn, hbn, rfl⟩, hne⟩)
    · exact .inl hc
    · exact .inr (.inl hc)
    · exact .inr (.inr (.inl ⟨node, ⟨hnode, hpath⟩,
        h.keep (h.empty node hnode).1.parent hne⟩))
    · exact .inr (.inr (.inr ⟨bn, hbn, h.keep (leafNode_valid (hbns bn hbn).1) hne⟩))

-- A full round holds all bytes of its block.
theorem RoundStart.lt_of_block {tot k k' : Nat} (h : RoundStart off tot) (hk : k < tot)
    (hblock : (off + k') / BSIZE = (off + k) / BSIZE) : k' < tot := by
  unfold RoundStart at h
  simp only [BSIZE] at *
  omega

-- Only which blocks were written in full rounds matters, not their order.
theorem mem_logged_congr {bs bns bns' : List Nat} (h : ∀ bn, bn ∈ bns ↔ bn ∈ bns') (c : Nat) :
    (c ∈ bs ∨ c ∈ bs.map (BBLOCK sb) ∨
      c ∈ (recordBlocks d ip ns ++ bns.map fun bn => addr d ip (leafNode bn)).filter (· ≠ 0)) ↔
    (c ∈ bs ∨ c ∈ bs.map (BBLOCK sb) ∨
      c ∈ (recordBlocks d ip ns ++ bns'.map fun bn => addr d ip (leafNode bn)).filter (· ≠ 0)) := by
  simp only [mem_filter, mem_append, mem_map, h]

section Ends

variable (hfit : off + n ≤ MAXFILE * BSIZE)

include hfit

theorem spans_lt {len : Nat} (hlen : len ≤ n) : ∀ bn ∈ spans off len, bn < MAXFILE := by
  intro bn hbn
  obtain ⟨k, hk, rfl⟩ := mem_spans.mp hbn
  exact block_lt_MAXFILE (by omega)

-- Whatever ends the loop, what it has logged is given by the state before it.
theorem LoopEnd.logged (h : LoopEnd sb src n off ip m r ip' m') (inum : Nat) :
    ∃ new, m'.logged = new ++ m.logged ∧
      ∀ c, c ∈ IBLOCK sb inum :: new ↔ c ∈ writeBlocks sb m.disk inum ip src off n := by
  suffices hloop : ∃ new, m'.logged = new ++ m.logged ∧ ∀ c, c ∈ new ↔
      c ∈ newBlocks sb m.disk ip src off n ∨
      c ∈ (newBlocks sb m.disk ip src off n).map (BBLOCK sb) ∨
      c ∈ (recordBlocks m.disk ip (newNodes sb m.disk ip src off n) ++
        (fullRounds sb m.disk ip src off n).map fun bn => addr m.disk ip (leafNode bn)).filter
          (· ≠ 0) by
    obtain ⟨new, hnew, hmem⟩ := hloop
    refine ⟨new, hnew, fun c => ?_⟩
    simp only [writeBlocks, cons_append, mem_cons, mem_append, hmem, or_assoc]
  cases h with
  | finished hr hserved =>
    have hread := hserved.copied.readable
    have hall := attempted_of_readable hread
    have hrounds : fullRounds sb m.disk ip src off n = spans off n := by
      rw [fullRounds, hall, filter_eq_self]
      intro bn hbn
      obtain ⟨k, hk, rfl⟩ := mem_spans.mp hbn
      have hafford := hserved.affordable.mono (Nat.succ_le_of_lt hk)
      rw [Nat.succ_eq_add_one, spans_pos off (by omega)] at hafford
      rw [decide_eq_true_eq]
      exact ⟨hafford, fun k' hk' _ => hread k' hk'⟩
    have hnodes : newNodes sb m.disk ip src off n = wanted m.disk ip (spans off n) := by
      rw [newNodes, hall, take_of_length_le hserved.affordable]
    rw [hrounds, hnodes, newBlocks, hall]
    exact hserved.grants.mem_logged fun bn hbn =>
      ⟨spans_lt hfit le_rfl bn hbn, hserved.leaves bn hbn⟩
  | refused href =>
    have hlt := href.lt
    have hread := href.copied.readable
    have hmore : r + 1 ≤ attempted src n := lt_attempted hlt hread
    have hshort := href.unaffordable
    have hfirst : wanted m.disk ip (spans off (r + 1)) <+:
        wanted m.disk ip (spans off (attempted src n)) := wanted_mono (spans_mono hmore)
    have hlen := hfirst.length_le
    unfold Affordable at hshort
    have hnodes : newNodes sb m.disk ip src off n =
        (wanted m.disk ip (spans off (r + 1))).take (freeBlocks sb m.disk).length := by
      obtain ⟨rest, hrest⟩ := hfirst
      rw [newNodes, ← hrest, take_append_of_le_length (by omega)]
    have hblocks : newBlocks sb m.disk ip src off n = freeBlocks sb m.disk :=
      take_of_length_le (by omega)
    have hrounds : ∀ bn, bn ∈ spans off r ↔ bn ∈ fullRounds sb m.disk ip src off n := by
      intro bn
      rw [mem_spans, mem_fullRounds]
      constructor
      · rintro ⟨k, hk, rfl⟩
        exact ⟨⟨k, by omega, rfl, href.affordable.mono hk⟩, fun k' _ hblock =>
          hread k' (href.start.lt_of_block hk hblock)⟩
      · rintro ⟨⟨k, -, hbn, hafford⟩, -⟩
        refine ⟨k, ?_, hbn⟩
        by_contra hle
        exact href.unaffordable (hafford.mono (by omega))
    obtain ⟨new, hnew, hmem⟩ := href.grants.mem_logged fun bn hbn =>
      ⟨spans_lt hfit (le_of_lt hlt) bn hbn, href.leaves bn hbn⟩
    rw [hnodes, hblocks]
    exact ⟨new, hnew, fun c => (hmem c).trans (mem_logged_congr hrounds c)⟩
  | faulted hfault =>
    have hlt := hfault.lt
    have hle := hfault.le
    have hread := hfault.copied.readable
    have hlast := attempted_of_fault hlt hfault.fault hread
    have hnodes : newNodes sb m.disk ip src off n = wanted m.disk ip (spans off (r + 1)) := by
      rw [newNodes, hlast, hfault.spans_eq, take_of_length_le hfault.affordable]
    have hrounds : ∀ bn, bn ∈ spans off r ↔ bn ∈ fullRounds sb m.disk ip src off n := by
      intro bn
      rw [mem_spans, mem_fullRounds, hlast]
      constructor
      · rintro ⟨k, hk, rfl⟩
        refine ⟨⟨k, by omega, rfl, hfault.affordable.mono (by omega)⟩, fun k' _ hblock => ?_⟩
        have hk' := hfault.start.lt_of_block hk hblock
        exact hread k' (by omega)
      · rintro ⟨⟨k, hk, hbn, -⟩, hnone⟩
        refine ⟨k, ?_, hbn⟩
        by_contra hrk
        refine hnone _ hlt ?_ hfault.fault
        rw [← hbn]
        rcases Nat.lt_or_eq_of_le (Nat.le_of_lt_succ hk) with hkt | heq
        · exact ((hfault.block_iff hkt).mpr (by omega)).symm
        · rw [heq]
    obtain ⟨new, hnew, hmem⟩ := hfault.grants.mem_logged fun bn hbn =>
      ⟨spans_lt hfit (by omega) bn hbn, hfault.leaves bn hbn⟩
    rw [hnodes, newBlocks, hlast, hfault.spans_eq]
    exact ⟨new, hfault.logged_end.1.trans hnew,
      fun c => (hmem c).trans (mem_logged_congr hrounds c)⟩

end Ends

variable (htree : WellFormedTree sb m.disk ip)
  (hreserved : ∀ b < sb.dataStart, bitOf sb m.disk b = true) (hboot : BootZero m.disk)

include htree hreserved hboot in
theorem writei_logged (inum : Nat) (src : Source) (hn : n < 2 ^ 32)
    (href : ¬ Refused ip.size off n) : ∃ (r : Nat) (ip' : Dinode) (m' : Machine),
      writei sb { m with logged := [] } inum ip src off n = .ok ((r : Int), ip', m') ∧
        m'.logged.toFinset = (writeBlocks sb m.disk inum ip src off n).toFinset := by
  obtain ⟨r, ip', m', hrun⟩ := writei_returns sb { m with logged := [] } inum ip src hn href
  obtain ⟨-, hfit, ip₂, m₂, hend, -, hm'⟩ :=
    writei_ends (m := { m with logged := [] }) htree hreserved hboot hn hrun
  obtain ⟨new, hnew, hmem⟩ := hend.logged hfit inum
  rw [append_nil] at hnew
  refine ⟨r, ip', m', hrun, Finset.ext fun c => ?_⟩
  rw [mem_toFinset, mem_toFinset, ← hmem c, ← hnew, hm']
  rfl

theorem filewriteRound_size (rest : UInt32) :
    (if rest.toNat > maxChunk then maxChunk else rest.toNat) < 2 ^ 32 := by
  have hlt := rest.toNat_lt
  split <;> omega

include htree hreserved hboot in
/-- A round of `filewrite` logs at most `MAXOPBLOCKS` blocks exactly when `writei` refuses the
request or the blocks that the state before it gives are no more. -/
theorem write_round_fits_iff (inum : Nat) (src : Source) (off rest : UInt32) :
    ∃ r ip' m', filewriteRound sb m inum ip src off.toNat rest.toNat = .ok (r, ip', m') ∧
      (m'.logged.toFinset.card ≤ MAXOPBLOCKS ↔
        Refused ip.size off.toNat (min rest.toNat maxChunk) ∨
          (writeBlocks sb m.disk inum ip src off.toNat (min rest.toNat maxChunk)).toFinset.card ≤
            MAXOPBLOCKS) := by
  have hsize : (if rest.toNat > maxChunk then maxChunk else rest.toNat) =
      min rest.toNat maxChunk := by
    split <;> omega
  have hlt := filewriteRound_size rest
  rw [filewriteRound, hsize] at *
  by_cases href : Refused ip.size off.toNat (min rest.toNat maxChunk)
  · refine ⟨-1, ip, _, writei_refused _ _ _ _ _ href, iff_of_true ?_ (Or.inl href)⟩
    exact Nat.zero_le _
  · obtain ⟨r, ip', m', hrun, hlogged⟩ := writei_logged htree hreserved hboot inum src hlt href
    refine ⟨r, ip', m', hrun, ?_⟩
    rw [hlogged]
    exact ⟨Or.inr, fun h => h.resolve_left href⟩

/-! ## A file that is about to need its double-indirect block -/

/-- A file of the 267 blocks that the direct and the single-indirect slots can hold: `lo`, `lo + 1`,
… in order, with the indirect block between the direct ones and those that it lists. -/
def longFile (lo : Nat) : Dinode :=
  { inodeWith (fun k => if k = dblSlot then 0 else lo + k) with size := 267 * BSIZE }

/-- The indirect block of the file. -/
def longEntries (lo : Nat) : Block :=
  Buffer.zero.setArr 0 4 ((List.range NINDIRECT).map fun j => lo + 12 + j)

/-- The disk that holds the file, with the blocks `frees` free and all others in use. -/
@[irreducible] def longDisk (sb : Superblock) (lo : Nat) (frees : List Nat) : Disk :=
  update (diskWith sb ((List.range' sb.dataStart sb.nblocks).filter (· ∉ frees))) (lo + 11)
    (longEntries lo)

section LongFile

variable {lo : Nat} {frees : List Nat} (hlo : sb.dataStart ≤ lo) (hhi : lo + 268 ≤ sb.size)
  (hfrees : ∀ c ∈ frees, lo + 268 ≤ c ∧ c < sb.size)

include hhi in
theorem word_longEntries {j : Nat} (hj : j < NINDIRECT) :
    word (longEntries lo) j = lo + 12 + j := by
  have hint := sb.int_size
  have hlen : ((List.range NINDIRECT).map fun j => lo + 12 + j).length = NINDIRECT := by
    rw [length_map, length_range]
  have hnum := Buffer.num_setArr_self (Buffer.zero : Block) 0 4
    ((List.range NINDIRECT).map fun j => lo + 12 + j) j (by rw [hlen]; exact hj)
    (by rw [hlen]; decide)
  rw [Nat.zero_add] at hnum
  rw [word, longEntries, hnum, getD_eq_getElem _ _ (by rw [hlen]; exact hj), getElem_map,
    getElem_range]
  simp only [NINDIRECT] at hj
  omega

include hlo hhi hfrees

omit hhi in
theorem bitOf_longDisk {c : Nat} (hc : c < sb.size) :
    bitOf sb (longDisk sb lo frees) c = decide (c ∉ frees) := by
  rw [longDisk, bitOf_store_data (by omega) _ hc, bitOf_diskWith]
  by_cases hfree : c ∈ frees
  · have hdata := (hfrees c hfree).1
    simp [hfree]
    omega
  · simp only [mem_filter, mem_dataBlocks, hfree, not_false_eq_true, decide_true, and_true,
      Bool.or_eq_true, decide_eq_true_eq]
    omega

omit hlo hfrees in
-- The blocks of the file lie on the disk in the order of their nodes.
theorem addr_longDisk {node : Node} (hnode : node.Valid) :
    addr (longDisk sb lo frees) (longFile lo) node =
      if rank node < 268 then lo + rank node else 0 := by
  have hdbl : ∀ q, addr (longDisk sb lo frees) (longFile lo) ⟨dblSlot, [] ++ q⟩ = 0 :=
    addr_append_of_zero rfl
  rcases hnode.shape with ⟨k, rfl⟩ | ⟨j, hj, rfl | rfl⟩ | ⟨i, hi, j, hj, rfl⟩
  · by_cases hk : k = dblSlot
    · rw [hk]
      rfl
    · have hne : k.val ≠ 12 := fun heq => hk (Fin.ext heq)
      have hlt := k.isLt
      have hrank : rank ⟨k, []⟩ = k := if_neg hk
      rw [hrank, if_pos (by simp only [NDIRECT] at hlt; omega)]
      exact if_neg hk
  · have hrank : rank ⟨indSlot, [j]⟩ = 12 + j := rfl
    have hentry : addr (longDisk sb lo frees) (longFile lo) ⟨indSlot, [j]⟩ =
        entry (longDisk sb lo frees) (lo + 11) j := rfl
    simp only [NINDIRECT] at hj
    rw [hrank, if_pos (by omega), hentry, entry, if_neg (by omega), longDisk, update_self,
      word_longEntries hhi hj]
    omega
  · exact (hdbl [j]).trans (if_neg (show ¬ 269 + j * 257 < 268 by omega)).symm
  · exact (hdbl [i, j]).trans (if_neg (show ¬ 270 + i * 257 + j < 268 by omega)).symm

omit hfrees in
theorem packed_longDisk : Packed (longDisk sb lo frees) (longFile lo) 268 := by
  intro node hnode
  have htwo := sb.two_le_dataStart
  rw [addr_longDisk hhi hnode]
  split <;> omega

theorem wellFormedTree_longDisk : WellFormedTree sb (longDisk sb lo frees) (longFile lo) := by
  have hrank : ∀ node : Node, node.Valid → addr (longDisk sb lo frees) (longFile lo) node ≠ 0 →
      rank node < 268 ∧ addr (longDisk sb lo frees) (longFile lo) node = lo + rank node := by
    intro node hnode hne
    have hlt := mt (packed_longDisk hlo hhi node hnode).mpr hne
    exact ⟨by omega, (addr_longDisk hhi hnode).trans (if_pos (by omega))⟩
  refine ⟨fun node hnode hne => ?_, fun node node' hnode hnode' hne heq => ?_⟩
  · obtain ⟨hlt, haddr⟩ := hrank node hnode hne
    refine ⟨by omega, by omega, ?_⟩
    rw [bitOf_longDisk hlo hfrees (by omega), decide_eq_true_eq]
    intro hfree
    have hout := (hfrees _ hfree).1
    omega
  · have haddr := (hrank node hnode hne).2
    have haddr' := (hrank node' hnode' (heq ▸ hne)).2
    exact rank_inj hnode hnode' (by omega)

-- Three more blocks need the double-indirect block and one below it as well.
theorem long_new_blocks (hcount : frees.length ≤ 5) :
    ∀ c ∈ frees, c ∈ newBlocks sb (longDisk sb lo frees) (longFile lo) (fun _ => some 7)
      (267 * BSIZE) maxChunk := by
  have hmem : ∀ c, c ∈ freeBlocks sb (longDisk sb lo frees) ↔ c ∈ frees := by
    intro c
    rw [mem_freeBlocks]
    constructor
    · rintro ⟨hlt, hclear⟩
      rw [bitOf_longDisk hlo hfrees hlt] at hclear
      simpa using hclear
    · intro hc
      have hlt := (hfrees c hc).2
      exact ⟨hlt, by rw [bitOf_longDisk hlo hfrees hlt]; simpa using hc⟩
  have hfew : (freeBlocks sb (longDisk sb lo frees)).length ≤ 5 :=
    (((nodup_freeBlocks _ _).subperm fun c hc => (hmem c).mp hc).length_le).trans hcount
  have hmany : (wanted (longDisk sb lo frees) (longFile lo) (spans (267 * BSIZE) maxChunk)).length =
      5 := by
    rw [← length_map rank, (packed_longDisk hlo hhi).wanted (by decide) (by decide), length_range']
    rfl
  intro c hc
  rw [newBlocks, attempted_of_readable fun _ _ => Option.some_ne_none _, hmany,
    take_of_length_le hfew]
  exact (hmem c).mpr hc

theorem long_round_logged (hcount : frees.length ≤ 5) :
    ∃ r ip' m', filewriteRound sb ⟨longDisk sb lo frees, [], []⟩ inum (longFile lo)
      (fun _ => some 7)
        (267 * BSIZE) maxChunk = .ok (r, ip', m') ∧
      (IBLOCK sb inum :: (frees ++ frees.map (BBLOCK sb))).toFinset ⊆ m'.logged.toFinset := by
  have hreserved : Reserved sb (longDisk sb lo frees) := by
    intro c hc
    have hle := sb.dataStart_le_size
    rw [bitOf_longDisk hlo hfrees (by omega), decide_eq_true_eq]
    intro hfree
    have hdata := (hfrees c hfree).1
    omega
  have hboot : BootZero (longDisk sb lo frees) := by
    intro j
    rw [longDisk, update_of_ne (by omega), diskWith_of_not_bitmap (fun c hc => ?_)
      (.inl sb.bmapstart_pos), word_zero]
    exact (mem_dataBlocks.mp (mem_filter.mp hc).1).2
  have href : ¬ Refused (longFile lo).size (267 * BSIZE) maxChunk :=
    show ¬ Refused (267 * BSIZE) (267 * BSIZE) maxChunk by decide
  obtain ⟨r, ip', m', hrun, hlogged⟩ := writei_logged (m := ⟨longDisk sb lo frees, [], []⟩)
    (wellFormedTree_longDisk hlo hhi hfrees) hreserved hboot inum (fun _ => some 7) (by decide) href
  refine ⟨r, ip', m', hrun, ?_⟩
  have hnew := long_new_blocks hlo hhi hfrees hcount
  rw [hlogged]
  intro c hc
  rw [mem_toFinset] at hc ⊢
  rw [writeBlocks, cons_append, cons_append, append_assoc]
  rcases mem_cons.mp hc with rfl | hc
  · exact mem_cons_self
  · apply mem_cons_of_mem
    rcases mem_append.mp hc with hc | hc
    · exact mem_append_left _ (hnew c hc)
    · obtain ⟨b, hb, rfl⟩ := mem_map.mp hc
      exact mem_append_right _ (mem_append_left _ (mem_map_of_mem (hnew b hb)))

end LongFile

/-- Five free blocks, in five bitmap blocks. -/
def scattered : List Nat := [8192, 16384, 24576, 32768, 40960]

theorem write_round_logs_eleven_blocks : ∃ r ip' m',
    filewriteRound mkfsLayout ⟨longDisk mkfsLayout 100 scattered, [], []⟩ 1 (longFile 100)
      (fun _ => some 7) (267 * BSIZE) maxChunk = .ok (r, ip', m') ∧
    MAXOPBLOCKS < m'.logged.toFinset.card := by
  obtain ⟨r, ip', m', hrun, hsub⟩ := @long_round_logged mkfsLayout 1 100 scattered (by decide)
    (by decide) (by decide) (by decide)
  refine ⟨r, ip', m', hrun, lt_of_lt_of_le ?_ (Finset.card_le_card hsub)⟩
  decide

-- One byte to a block that is there: that block and the inode's.
theorem length_writeBlocks_fullBlock {b : Nat} (hdata : sb.dataStart ≤ b) (inum : Nat) :
    (writeBlocks sb (diskWith sb [b]) inum (fullBlock b) (fun _ => some 7) 0 1).length ≤ 2 := by
  have htwo := sb.two_le_dataStart
  have haddr : addr (diskWith sb [b]) (fullBlock b) (leafNode 0) = b := oneBlock_addrs 0 b
  have hall : attempted (fun _ => some 7) 1 = 1 := rfl
  have hwanted : wanted (diskWith sb [b]) (fullBlock b) (spans 0 1) = [] := by
    change missing (diskWith sb [b]) (fullBlock b) [leafNode 0] = []
    rw [missing_singleton, haddr, if_neg (by omega)]
  have hnodes : newNodes sb (diskWith sb [b]) (fullBlock b) (fun _ => some 7) 0 1 = [] := by
    rw [newNodes, hall, hwanted, take_nil]
  have hblocks : newBlocks sb (diskWith sb [b]) (fullBlock b) (fun _ => some 7) 0 1 = [] := by
    rw [newBlocks, hall, hwanted, length_nil, take_zero]
  have hrounds : (fullRounds sb (diskWith sb [b]) (fullBlock b) (fun _ => some 7) 0 1).length ≤ 1 :=
    length_filter_le _ _
  rw [writeBlocks, hblocks, hnodes, map_nil, append_nil,
    singleton_append, length_cons]
  refine Nat.succ_le_succ ((length_filter_le _ _).trans ?_)
  rwa [recordBlocks, filter_nil, map_nil, nil_append, length_map]

theorem write_round_fits_fullBlock : ∃ r ip' m',
    filewriteRound mkfsLayout ⟨diskWith mkfsLayout [100], [], []⟩ 1 (fullBlock 100)
      (fun _ => some 7) (UInt32.toNat 0) (UInt32.toNat 1) = .ok (r, ip', m') ∧
    m'.logged.toFinset.card ≤ MAXOPBLOCKS := by
  obtain ⟨r, ip', m', hrun, hiff⟩ := write_round_fits_iff (m := ⟨diskWith mkfsLayout [100], [], []⟩)
    (wellFormedTree_fullBlock (by decide) (by decide)) (reserved_diskWith mkfsLayout [100])
    (bootZero_diskWith (by decide)) 1 (fun _ => some 7) 0 1
  refine ⟨r, ip', m', hrun, hiff.mpr (.inr ?_)⟩
  exact (toFinset_card_le _).trans
    ((length_writeBlocks_fullBlock (by decide) 1).trans (by decide))

end OsProjects.Kernel
