import OsProjects.Kernel.FileIo
import OsProjects.Kernel.Grants

/-!
# WriteRounds — the loop of `writei`, round by round

Each round of the loop serves one block of the file.  The loop ends when all bytes are written, when
the block of a round cannot be had, or when the copy of a round meets a byte that it cannot read.
-/

namespace OsProjects.Kernel

open Lib Function List

variable {sb : Superblock} {m m₁ m' : Machine} {ip ip₁ ip' : Dinode} {d : Disk} {src : Source}
  {n off tot : Nat}

def blockRange (lo hi : Nat) : List Nat := List.range' lo (hi + 1 - lo)

/-- The blocks of a file in which its bytes from `off` to `off + len - 1` lie. -/
def spans (off len : Nat) : List Nat :=
  if len = 0 then [] else blockRange (off / BSIZE) ((off + len - 1) / BSIZE)

/-- A round at `tot` starts the request or a block. -/
def RoundStart (off tot : Nat) : Prop := tot = 0 ∨ (off + tot) % BSIZE = 0

/-- The nodes that are missing on the ways to the blocks `bns`, in the order of the requests. -/
def wanted (d : Disk) (ip : Dinode) (bns : List Nat) : List Node :=
  missing d ip (bns.flatMap pathNodes)

/-- There are free blocks for everything that is missing on the ways to the blocks `bns`. -/
def Affordable (sb : Superblock) (d : Disk) (ip : Dinode) (bns : List Nat) : Prop :=
  (wanted d ip bns).length ≤ (freeBlocks sb d).length

instance (sb : Superblock) (d : Disk) (ip : Dinode) (bns : List Nat) :
    Decidable (Affordable sb d ip bns) := inferInstanceAs (Decidable (_ ≤ _))

theorem mem_blockRange {lo hi bn : Nat} : bn ∈ blockRange lo hi ↔ lo ≤ bn ∧ bn ≤ hi := by
  rw [blockRange, mem_range'_1]
  omega

theorem spans_pos (off : Nat) {len : Nat} (h : 0 < len) :
    spans off len = blockRange (off / BSIZE) ((off + len - 1) / BSIZE) := by
  rw [spans, if_neg (by omega)]

theorem mem_spans {len bn : Nat} : bn ∈ spans off len ↔ ∃ k < len, (off + k) / BSIZE = bn := by
  by_cases hlen : len = 0
  · simp [spans, hlen]
  · rw [spans_pos off (by omega), mem_blockRange]
    constructor
    · rintro ⟨hlo, hhi⟩
      by_cases hsame : off / BSIZE = bn
      · exact ⟨0, by omega, hsame⟩
      · refine ⟨bn * BSIZE - off, ?_, ?_⟩ <;>
        · simp only [BSIZE] at *
          omega
    · rintro ⟨k, hk, rfl⟩
      exact ⟨Nat.div_le_div_right (by omega), Nat.div_le_div_right (by omega)⟩

-- A round adds one block.
theorem spans_round {c : Nat} (halign : RoundStart off tot) (hpos : 0 < c)
    (hc : (off + tot) % BSIZE + c ≤ BSIZE) :
    spans off (tot + c) = spans off tot ++ [(off + tot) / BSIZE] := by
  have hlast : (off + (tot + c) - 1) / BSIZE = (off + tot) / BSIZE := by
    simp only [BSIZE] at *
    omega
  rw [spans_pos off (by omega), hlast]
  by_cases hfirst : tot = 0
  · rw [hfirst, spans, if_pos rfl, blockRange, Nat.add_zero off, Nat.add_sub_cancel_left]
    rfl
  · have hmod := halign.resolve_left hfirst
    have hcount : (off + tot) / BSIZE + 1 - off / BSIZE =
        (off + tot - 1) / BSIZE + 1 - off / BSIZE + 1 := by
      simp only [BSIZE] at *
      omega
    have hend : off / BSIZE + ((off + tot - 1) / BSIZE + 1 - off / BSIZE) =
        (off + tot) / BSIZE := by
      omega
    rw [spans_pos off (by omega), blockRange, blockRange, hcount, range'_1_concat, hend]

-- The blocks of a shorter stretch come first.
theorem spans_mono {len len' : Nat} (h : len ≤ len') : spans off len <+: spans off len' := by
  by_cases hlen : len = 0
  · rw [hlen, spans, if_pos rfl]
    exact nil_prefix
  · have hle : (off + len - 1) / BSIZE ≤ (off + len' - 1) / BSIZE := Nat.div_le_div_right (by omega)
    have hlo : off / BSIZE ≤ (off + len - 1) / BSIZE := Nat.div_le_div_right (by omega)
    have hcount : (off + len' - 1) / BSIZE + 1 - off / BSIZE =
        (off + len - 1) / BSIZE + 1 - off / BSIZE +
          ((off + len' - 1) / BSIZE - (off + len - 1) / BSIZE) := by
      omega
    rw [spans_pos off (by omega), spans_pos off (by omega), blockRange, blockRange, hcount,
      ← range'_append_1]
    exact prefix_append _ _

theorem wanted_mono {bns bns' : List Nat} (h : bns <+: bns') :
    wanted d ip bns <+: wanted d ip bns' := by
  obtain ⟨rest, rfl⟩ := h
  rw [wanted, wanted, flatMap_append, missing_append]
  exact prefix_append _ _

theorem Affordable.mono {len len' : Nat} (h : Affordable sb d ip (spans off len'))
    (hle : len ≤ len') : Affordable sb d ip (spans off len) :=
  (wanted_mono (spans_mono hle)).length_le.trans h

/-! ## Storing data in a leaf -/

section Leaf

variable (htree : WellFormedTree sb m.disk ip)
  (hreserved : Reserved sb m.disk) {bn a : Nat} (hbn : bn < MAXFILE)
  (haddr : addr m.disk ip (leafNode bn) = a) (ha : a ≠ 0) (data : Block)

include htree hbn haddr ha

theorem leaf_data : sb.dataStart ≤ a ∧ a < sb.size := by
  have hused := htree.used_of_own _ (leafNode_valid hbn) (by rw [haddr]; exact ha)
  rw [haddr] at hused
  exact ⟨hused.1, hused.2.1⟩

include hreserved

theorem addr_store_leaf {n : Node} (hn : n.Valid) :
    addr (m.store a data).disk ip n = addr m.disk ip n := by
  have hblocks := htree.blocks hreserved
  refine @own_congr (· = 0) (fun _ => ip) (fun _ => ip) m.disk (m.store a data).disk
    (fun _ _ => rfl) ?_ (0, n) ⟨rfl, hn⟩
  intro i slot q hi hq hlen hne j
  have hdiff := hblocks.leaf_ne_indirect (x := (0, leafNode bn)) ⟨rfl, leafNode_valid hbn⟩
    (length_leafNode bn) (by change addr m.disk ip (leafNode bn) ≠ 0; rw [haddr]; exact ha) hi hq
    hlen
  change addr m.disk ip (leafNode bn) ≠ _ at hdiff
  rw [haddr] at hdiff
  change word (update m.disk a data _) j = _
  rw [update_of_ne hdiff.symm]

theorem grants_store_leaf : Grants sb ip m ip ((m.store a data).logWrite a) [] [] [a] := by
  obtain ⟨hdata, -⟩ := leaf_data htree hbn haddr ha
  have hbm := sb.bmapstart_le_data
  have hle := sb.dataStart_le_size
  have hsame := @addr_store_leaf _ _ _ htree hreserved _ _ hbn haddr ha data
  have hbits : ∀ c < sb.size, bitOf sb (m.store a data).disk c = bitOf sb m.disk c :=
    fun c hc => bitOf_store_data hdata data hc
  refine ⟨htree.congr (fun n hn => hsame hn) fun c hc => ⟨hc.1, hc.2.1, ?_⟩, fun c hc => ?_,
    fun c hc => update_of_ne (by omega) _ _, ?_, rfl, fun _ hn => (by cases hn),
    fun n hn _ => hsame hn, fun _ hn => (by cases hn), ⟨[a], rfl, fun c => by simp [recordBlocks]⟩,
    fun c _ _ _ hc => update_of_ne (fun heq => hc (mem_singleton.mpr heq)) _ _⟩
  · exact (hbits c hc.2.1).trans hc.2.2
  · exact (hbits c (by omega)).trans (hreserved c hc)
  · apply filter_congr
    intro c hc
    rw [← hbits c (mem_range.mp hc)]
    rfl

end Leaf

/-! ## The bytes -/

/-- From `ip`, `d` to `ip'`, `d'` the first `len` bytes of the source have come to stand at `off`,
and no other byte of the file has changed. -/
def Copied (sb : Superblock) (src : Source) (off : Nat) (ip : Dinode) (d : Disk) (len : Nat)
    (ip' : Dinode) (d' : Disk) : Prop :=
  ∃ data : List UInt8, data.length = len ∧ (∀ k < len, src k = some (data.getD k 0)) ∧
    Wrote sb (· = 0) (fun _ => ip) d 0 d' ip' off data

namespace Copied

variable {len : Nat} {d' : Disk}

section

variable (h : Copied sb src off ip d len ip' d')
include h

theorem readable : ∀ k < len, src k ≠ none := by
  obtain ⟨data, -, hbytes, -⟩ := h
  intro k hk
  rw [hbytes k hk]
  exact Option.some_ne_none _

theorem fields : ip' = { ip with addrs := ip'.addrs } := by
  obtain ⟨data, -, -, hwrote⟩ := h
  exact hwrote.fields

theorem wellFormedTree : WellFormedTree sb d' ip' ∧ Reserved sb d' := by
  obtain ⟨data, -, -, hwrote⟩ := h
  have htree := hwrote.blocks.wellFormedTree (i := 0) rfl
  exact ⟨htree, hwrote.blocks.reserved⟩

theorem byteAt_eq {p : Nat} (hp : p < MAXFILE * BSIZE) : byteAt d' ip' p =
      if off ≤ p ∧ p < off + len then (src (p - off)).getD 0 else byteAt d ip p := by
  obtain ⟨data, rfl, hbytes, hwrote⟩ := h
  have hbyte := hwrote.bytes 0 rfl p hp
  rw [update_self] at hbyte
  rw [hbyte]
  by_cases hin : off ≤ p ∧ p < off + data.length
  · rw [if_pos ⟨rfl, hin⟩, if_pos hin, hbytes _ (by omega), Option.getD_some]
  · rw [if_neg fun h => hin h.2, if_neg hin]

end

theorem zero (src : Source) (off : Nat) (htree : WellFormedTree sb d ip)
    (hreserved : Reserved sb d) : Copied sb src off ip d 0 ip d :=
  ⟨[], rfl, fun k hk => by omega, .refl (htree.blocks hreserved) 0 off⟩

-- `bmap` moves no byte.
theorem bmap {a : Nat} (h : Copied sb src off ip d len ip₁ m₁.disk)
    (hbn : (off + len) / BSIZE < MAXFILE)
    (hrun : Kernel.bmap sb m₁ ip₁ ((off + len) / BSIZE) = .ok (a, ip', m')) :
    Copied sb src off ip d len ip' m'.disk := by
  obtain ⟨data, hlen, hbytes, hwrote⟩ := h
  obtain ⟨a', din', m'', hbmap, hmapped⟩ := bmap_spec hwrote.blocks (i := 0) rfl hbn
  rw [update_self, hrun] at hbmap
  cases hbmap
  have hboth := hwrote.trans (by rw [hlen]; exact hmapped.wrote)
  rw [append_nil] at hboth
  exact ⟨data, hlen, hbytes, hboth⟩

theorem store {a : Nat} {moved : List UInt8} (h : Copied sb src off ip d len ip₁ m₁.disk)
    (hbn : (off + len) / BSIZE < MAXFILE)
    (haddr : addr m₁.disk ip₁ (leafNode ((off + len) / BSIZE)) = a) (ha : a ≠ 0)
    (hfit : (off + len) % BSIZE + moved.length ≤ BSIZE)
    (hmoved : ∀ k < moved.length, src (len + k) = some (moved.getD k 0)) :
    Copied sb src off ip d (len + moved.length) ip₁
      (m₁.store a ((m₁.disk a).copyIn ((off + len) % BSIZE) moved)).disk := by
  obtain ⟨data, hlen, hbytes, hwrote⟩ := h
  have hown : own m₁.disk (update (fun _ => ip) 0 ip₁) (0, leafNode ((off + len) / BSIZE)) =
      a := by
    change addr m₁.disk (update (fun _ => ip) 0 ip₁ 0) _ = a
    rw [update_self, haddr]
  have hstored := wrote_copyIn hwrote.blocks (i := 0) rfl hbn hown ha moved hfit
  refine ⟨data ++ moved, by rw [length_append, hlen], fun k hk => ?_,
    hwrote.trans (by rw [hlen]; exact hstored)⟩
  by_cases hold : k < len
  · rw [getD_append _ _ _ _ (by omega), hbytes k hold]
  · rw [getD_append_right _ _ _ _ (by omega), hlen, ← hmoved (k - len) (by omega),
      Nat.add_sub_of_le (by omega)]

end Copied

/-! ## The loop -/

/-- The first `tot` bytes have been written in full rounds. -/
structure Served (sb : Superblock) (src : Source) (off : Nat) (ip : Dinode) (m : Machine)
    (tot : Nat) (ip₁ : Dinode) (m₁ : Machine) : Prop where
  copied : Copied sb src off ip m.disk tot ip₁ m₁.disk
  affordable : Affordable sb m.disk ip (spans off tot)
  grants : Grants sb ip m ip₁ m₁ (wanted m.disk ip (spans off tot))
    ((freeBlocks sb m.disk).take (wanted m.disk ip (spans off tot)).length)
    ((spans off tot).map fun bn => addr m₁.disk ip₁ (leafNode bn))
  leaves : ∀ bn ∈ spans off tot, addr m₁.disk ip₁ (leafNode bn) ≠ 0

/-- The loop ends in the round at `tot'`, whose block cannot be had. -/
structure Refusal (sb : Superblock) (src : Source) (n off : Nat) (ip : Dinode) (m : Machine)
    (tot' : Nat) (ip' : Dinode) (m' : Machine) : Prop where
  lt : tot' < n
  start : RoundStart off tot'
  copied : Copied sb src off ip m.disk tot' ip' m'.disk
  affordable : Affordable sb m.disk ip (spans off tot')
  unaffordable : ¬ Affordable sb m.disk ip (spans off (tot' + 1))
  grants : Grants sb ip m ip' m'
    ((wanted m.disk ip (spans off (tot' + 1))).take (freeBlocks sb m.disk).length)
    (freeBlocks sb m.disk) ((spans off tot').map fun bn => addr m'.disk ip' (leafNode bn))
  leaves : ∀ bn ∈ spans off tot', addr m'.disk ip' (leafNode bn) ≠ 0

/-- The loop ends in the round at `tot'`, whose copy faults at byte `t`: what it has moved into the
block `a` before stays there, unlogged. -/
structure Fault (sb : Superblock) (src : Source) (n off : Nat) (ip : Dinode) (m : Machine)
    (tot' : Nat) (ip' : Dinode) (m' : Machine) (t a : Nat) (m₁ : Machine) : Prop where
  start : RoundStart off tot'
  le : tot' ≤ t
  lt : t < n
  block : (off + t) / BSIZE = (off + tot') / BSIZE
  fault : src t = none
  copied : Copied sb src off ip m.disk t ip' m'.disk
  affordable : Affordable sb m.disk ip (spans off (tot' + 1))
  grants : Grants sb ip m ip' m₁ (wanted m.disk ip (spans off (tot' + 1)))
    ((freeBlocks sb m.disk).take (wanted m.disk ip (spans off (tot' + 1))).length)
    ((spans off tot').map fun bn => addr m₁.disk ip' (leafNode bn))
  leaves : ∀ bn ∈ spans off tot', addr m₁.disk ip' (leafNode bn) ≠ 0
  address : addr m₁.disk ip' (leafNode ((off + tot') / BSIZE)) = a
  ne_zero : a ≠ 0
  stored : ∃ data, m' = m₁.store a data

/-- How the loop ends: after `tot'` bytes, with the inode `ip'` and the machine `m'`. -/
inductive LoopEnd (sb : Superblock) (src : Source) (n off : Nat) (ip : Dinode) (m : Machine)
    (tot' : Nat) (ip' : Dinode) (m' : Machine) : Prop where
  | finished : tot' = n → Served sb src off ip m n ip' m' → LoopEnd sb src n off ip m tot' ip' m'
  | refused : Refusal sb src n off ip m tot' ip' m' → LoopEnd sb src n off ip m tot' ip' m'
  | faulted {t a : Nat} {m₁ : Machine} : Fault sb src n off ip m tot' ip' m' t a m₁ →
      LoopEnd sb src n off ip m tot' ip' m'

theorem served_zero (src : Source) (off : Nat) (htree : WellFormedTree sb m.disk ip)
    (hreserved : Reserved sb m.disk) : Served sb src off ip m 0 ip m := by
  refine ⟨.zero src off htree hreserved, Nat.zero_le _, ?_, fun bn hbn => by simp [spans] at hbn⟩
  exact Grants.refl htree hreserved

-- The addresses of the blocks served so far stay.
theorem map_leaves_eq {ns : List Node} {bs written bns : List Nat}
    (h : Grants sb ip₁ m₁ ip' m' ns bs written) (hbns : ∀ bn ∈ bns, bn < MAXFILE)
    (hleaves : ∀ bn ∈ bns, addr m₁.disk ip₁ (leafNode bn) ≠ 0) :
    (bns.map fun bn => addr m'.disk ip' (leafNode bn)) =
      bns.map fun bn => addr m₁.disk ip₁ (leafNode bn) := by
  apply map_congr_left
  intro bn hbn
  exact h.keep (leafNode_valid (hbns bn hbn)) (hleaves bn hbn)

theorem writeiLoop_ends {tot' off' : Nat} (hboot : BootZero m.disk)
    (hfit : off + n ≤ MAXFILE * BSIZE) (hserved : Served sb src off ip m tot ip₁ m₁)
    (hle : tot ≤ n) (halign : tot < n → RoundStart off tot)
    (hloop : writeiLoop sb src n tot (off + tot) ip₁ m₁ = .ok (tot', off', ip', m')) :
    off' = off + tot' ∧ LoopEnd sb src n off ip m tot' ip' m' := by
  induction hrem : n - tot using Nat.strong_induction_on generalizing tot ip₁ m₁ with
  | _ rem ih =>
    unfold writeiLoop at hloop
    by_cases htot : tot < n
    swap
    · rw [dif_neg htot] at hloop
      have heq : tot = n := by omega
      cases hloop
      exact ⟨rfl, .finished heq (heq ▸ hserved)⟩
    have hround := halign htot
    have hbn : (off + tot) / BSIZE < MAXFILE :=
      block_lt_MAXFILE (by omega)
    have hbns : ∀ bn ∈ spans off tot, bn < MAXFILE := by
      intro bn hmem
      obtain ⟨k, hk, rfl⟩ := mem_spans.mp hmem
      exact block_lt_MAXFILE (by omega)
    have hone : spans off (tot + 1) = spans off tot ++ [(off + tot) / BSIZE] :=
      spans_round hround one_pos (Nat.mod_lt _ (by decide))
    have hgrants := hserved.grants
    obtain ⟨a, ip2, m2, hbmap, -, -⟩ := bmap_total sb m₁ ip₁ hbn
    have hboot1 : BootZero m₁.disk := fun j => by rw [hgrants.low 0 sb.bmapstart_pos, hboot j]
    obtain ⟨hfills, haddr⟩ := bmap_fills hgrants.tree hgrants.reserved hboot1 hbn hbmap
    obtain ⟨hgrants2, hok⟩ := hgrants.after (fun _ => valid_pathNodes hbn) hfills
    have hnodes : (spans off tot).flatMap pathNodes ++ pathNodes ((off + tot) / BSIZE) =
        (spans off (tot + 1)).flatMap pathNodes := by
      rw [hone, flatMap_append, flatMap_singleton]
    rw [hnodes] at hgrants2 hok
    change Grants _ _ _ _ _ ((wanted m.disk ip (spans off (tot + 1))).take _)
      ((freeBlocks sb m.disk).take (wanted m.disk ip (spans off (tot + 1))).length) _ at hgrants2
    change a ≠ 0 ↔ Affordable sb m.disk ip (spans off (tot + 1)) at hok
    have hcopied := hserved.copied.bmap hbn hbmap
    have hkeep := map_leaves_eq hfills.grants hbns hserved.leaves
    have hleaves : ∀ bn ∈ spans off tot, addr m2.disk ip2 (leafNode bn) ≠ 0 := by
      intro bn hmem
      rw [hfills.grants.keep (leafNode_valid (hbns bn hmem)) (hserved.leaves bn hmem)]
      exact hserved.leaves bn hmem
    rw [← hkeep] at hgrants2
    simp only [dif_pos htot, hbmap] at hloop
    by_cases ha : a = 0
    · simp only [if_pos ha] at hloop
      have hnot : ¬ Affordable sb m.disk ip (spans off (tot + 1)) := fun h => hok.mpr h ha
      cases hloop
      refine ⟨rfl, .refused ⟨htot, hround, hcopied, hserved.affordable, hnot, ?_, hleaves⟩⟩
      unfold Affordable at hnot
      rwa [take_of_length_le (i := (wanted _ _ _).length) (by omega)] at hgrants2
    have hafford := hok.mp ha
    rw [take_of_length_le hafford] at hgrants2
    rcases hcopy : eitherCopyin src tot (chunk n tot (off + tot)) with ⟨moved, ok⟩
    obtain ⟨hlen, hbytes, hwhole, -⟩ := eitherCopyin_spec src tot _ hcopy
    have hpos := chunk_pos (off + tot) htot
    have hchunk := chunk_le n tot (off + tot)
    have hblock := mod_add_chunk n tot (off + tot)
    have hstored := hcopied.store hbn (haddr ha) ha (by omega) hbytes
    simp only [if_neg ha, hcopy] at hloop
    cases ok with
    | false =>
      obtain ⟨hshort, hfault⟩ := eitherCopyin_fault src tot _ hcopy
      cases hloop
      refine ⟨rfl, .faulted ⟨hround, Nat.le_add_right _ moved.length, by omega, ?_, hfault,
        hstored, hafford, hgrants2, hleaves, haddr ha, ha, _, rfl⟩⟩
      simp only [BSIZE] at *
      omega
    | true =>
      have hmoved := hwhole rfl
      have hspans : spans off (tot + chunk n tot (off + tot)) = spans off (tot + 1) := by
        rw [hone]
        exact spans_round hround hpos hblock
      have hstore := grants_store_leaf hgrants2.tree hgrants2.reserved hbn (haddr ha) ha
        ((m2.disk a).copyIn ((off + tot) % BSIZE) moved)
      have hnext : Served sb src off ip m (tot + chunk n tot (off + tot)) ip2
          ((m2.store a ((m2.disk a).copyIn ((off + tot) % BSIZE) moved)).logWrite a) := by
        have hall := hgrants2.trans hstore
        rw [append_nil, append_nil] at hall
        have hlast := hstore.keep (leafNode_valid hbn) (by rw [haddr ha]; exact ha)
        have hold := map_leaves_eq hstore hbns hleaves
        refine ⟨hmoved ▸ hstored, ?_, ?_, ?_⟩
        · rwa [hspans]
        · rwa [hspans, hone, map_append, hold, map_singleton, hlast, haddr ha, ← hone]
        · rw [hspans, hone]
          intro bn hmem
          rcases mem_append.mp hmem with hmem | hmem
          · rw [hstore.keep (leafNode_valid (hbns bn hmem)) (hleaves bn hmem)]
            exact hleaves bn hmem
          · rwa [mem_singleton.mp hmem, hlast, haddr ha]
      rw [Nat.add_assoc] at hloop
      refine ih (n - (tot + chunk n tot (off + tot))) (by omega) hnext (by omega) (fun hmore => ?_)
        hloop rfl
      -- a round that does not end the request ends its block
      right
      have hfull : chunk n tot (off + tot) = BSIZE - (off + tot) % BSIZE := by
        unfold chunk at *
        omega
      simp only [BSIZE] at *
      omega

-- The blocks of the bytes that are reported are mapped.
theorem LoopEnd.leaves {r : Nat} (h : LoopEnd sb src n off ip m r ip' m')
    (hfit : off + n ≤ MAXFILE * BSIZE) {k : Nat} (hk : k < r) :
    addr m'.disk ip' (leafNode ((off + k) / BSIZE)) ≠ 0 := by
  have hspan : (off + k) / BSIZE ∈ spans off r := mem_spans.mpr ⟨k, hk, rfl⟩
  cases h with
  | finished heq hserved => exact hserved.leaves _ (heq ▸ hspan)
  | refused href => exact href.leaves _ hspan
  | faulted hfault =>
    have hle := hfault.le
    have hlt := hfault.lt
    obtain ⟨data, rfl⟩ := hfault.stored
    rw [addr_store_leaf hfault.grants.tree hfault.grants.reserved (block_lt_MAXFILE (by omega))
      hfault.address hfault.ne_zero data (leafNode_valid (block_lt_MAXFILE (by omega)))]
    exact hfault.leaves _ hspan

-- A call of `writei` that is not refused ends with an `iupdate`.
theorem writei_ends {inum r : Nat} (htree : WellFormedTree sb m.disk ip)
    (hreserved : Reserved sb m.disk) (hboot : BootZero m.disk)
    (hn : n < 2 ^ 32) (hrun : writei sb m inum ip src off n = .ok ((r : Int), ip', m')) :
    off ≤ ip.size ∧ off + n ≤ MAXFILE * BSIZE ∧ ∃ ip₂ m₂, LoopEnd sb src n off ip m r ip₂ m₂ ∧
      ip' = grown ip₂ (off + r) ∧ m' = iupdate sb m₂ inum ip' := by
  by_cases href : Refused ip.size off n
  · rw [writei_refused _ _ _ _ _ href] at hrun
    simp only [Except.ok.injEq, Prod.mk.injEq] at hrun
    omega
  obtain ⟨hoff, hfit⟩ := not_refused hn href
  obtain ⟨tot, off', ip₂, m₂, hloop, -⟩ := writeiLoop_total sb src n 0 off ip m (by omega)
  rw [writei_eq _ _ _ _ _ href, hloop] at hrun
  simp only [Except.map, Except.ok.injEq, Prod.mk.injEq] at hrun
  obtain ⟨hr, rfl, rfl⟩ := hrun
  have heq : tot = r := by omega
  subst heq
  obtain ⟨rfl, hend⟩ := writeiLoop_ends hboot hfit (served_zero src off htree hreserved)
    (Nat.zero_le n) (fun _ => .inl rfl) hloop
  exact ⟨hoff, hfit, ip₂, m₂, hend, rfl, rfl⟩

end OsProjects.Kernel
