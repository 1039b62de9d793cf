import OsProjects.Kernel.BlockOwnership
import OsProjects.Kernel.Truncation
import Mathlib.Data.Finset.Card
import Mathlib.Data.Finset.Dedup

/-!
# TruncLog — the blocks that a truncating transaction logs

Every freed block makes `bfree` log the bitmap block that holds its bit, so the number of logged
blocks depends on where the blocks of the file lie.
-/

namespace OsProjects.Kernel

open Lib Function List

/-- `T_DIR` of `stat.h`. -/
abbrev T_DIR : Int16 := 1

namespace FsState

/-- `begin_op`: the transaction has logged nothing yet. -/
def beginOp (s : FsState) : FsState := { s with machine := { s.machine with logged := [] } }

/-- `iput` will free the inode. -/
def LastRef (s : FsState) (p : Fin NINODE) : Prop :=
  (s.itable p).ref = 1 ∧ (s.itable p).valid = true ∧ (s.itable p).din.nlink = 0

instance (s : FsState) (p : Fin NINODE) : Decidable (s.LastRef p) :=
  inferInstanceAs (Decidable (_ ∧ _ ∧ _))

/-- `writei(dp, 0, (uint64)&de, off, sizeof(de))` of an empty entry. -/
def clearEntry (sb : Superblock) (s : FsState) (dp : Fin NINODE) (off : UInt32) :
    Except String FsState :=
  match writei sb s.machine (s.itable dp).inum (s.itable dp).din (fun _ => some 0) off.toNat 16 with
  | .error e => .error e
  | .ok (ret, din, m) =>
    if ret ≠ 16 then .error "unlink: writei"
    else .ok ({ s with machine := m }.setInode dp { s.itable dp with din := din })

/-- `ip->nlink--; iupdate(ip);` -/
def dropLink (sb : Superblock) (s : FsState) (p : Fin NINODE) : Except String FsState :=
  fsStep sb s (.setNlink p ((s.itable p).din.nlink - 1))

/-- `if(ip->type == T_DIR){ dp->nlink--; iupdate(dp); }` -/
def dropParent (sb : Superblock) (s : FsState) (dp p : Fin NINODE) : Except String FsState :=
  if (s.itable p).din.type = T_DIR then s.dropLink sb dp else .ok s

/-- `sys_unlink` once the entry at `off` of `dp` has been found to name `p`. -/
def unlinkEntry (sb : Superblock) (s : FsState) (dp p : Fin NINODE) (off : UInt32) :
    Except String FsState := do
  let s ← s.clearEntry sb dp off
  let s ← s.dropParent sb dp p
  let s ← s.iput sb dp
  let s ← s.dropLink sb p
  s.iput sb p

end FsState

/-- The transactions that truncate the inode of entry `p`: `sys_open` with `O_TRUNC`, the `iput` of
`fileclose`, `exit` and `sys_chdir`, and `sys_unlink`. -/
inductive TruncCall where
  | openTrunc (p : Fin NINODE)
  | lastPut (p : Fin NINODE)
  | unlink (dp p : Fin NINODE) (off : UInt32)

namespace TruncCall

def run (sb : Superblock) (s : FsState) : TruncCall → Except String FsState
  | .openTrunc p => fsStep sb s.beginOp (.itrunc p)
  | .lastPut p => s.beginOp.iput sb p
  | .unlink dp p off => s.beginOp.unlinkEntry sb dp p off

/-- What the system call has established when it gets there. -/
def Ready (s : FsState) : TruncCall → Prop
  | .openTrunc p => 0 < (s.itable p).ref ∧ (s.itable p).valid = true
  | .lastPut p => s.LastRef p
  | .unlink dp p off => dp ≠ p ∧
      (0 < (s.itable dp).ref ∧ (s.itable dp).valid = true) ∧
      ((s.itable p).ref = 1 ∧ (s.itable p).valid = true ∧ (s.itable p).din.nlink = 1) ∧
      -- `dirlookup` has read the entry
      16 ∣ off.toNat ∧ off.toNat + 16 ≤ (s.itable dp).din.size ∧
      (s.itable dp).din.size ≤ MAXFILE * BSIZE ∧
      addr s.disk (s.itable dp).din (leafNode (off.toNat / BSIZE)) ≠ 0

/-- The block of the inode, and the bitmap blocks of what `itrunc` frees. -/
def truncLog (sb : Superblock) (d : Disk) (ip : Inode) : List Nat :=
  IBLOCK sb ip.inum :: (truncBlocks d ip.din).map (BBLOCK sb)

/-- The links that `dp` has left when the entry of `p` is gone. -/
def linksLeft (s : FsState) (dp p : Fin NINODE) : Int16 :=
  if (s.itable p).din.type = T_DIR then (s.itable dp).din.nlink - 1 else (s.itable dp).din.nlink

/-- The blocks that the transaction logs. -/
def blocks (sb : Superblock) (s : FsState) : TruncCall → List Nat
  | .openTrunc p => truncLog sb s.disk (s.itable p)
  | .lastPut p => truncLog sb s.disk (s.itable p)
  | .unlink dp p off =>
    [addr s.disk (s.itable dp).din (leafNode (off.toNat / BSIZE)), IBLOCK sb (s.itable dp).inum] ++
      -- a removed directory that nobody else holds is freed as well
      (if (s.itable dp).ref = 1 ∧ linksLeft s dp p = 0 then truncLog sb s.disk (s.itable dp)
        else []) ++
      truncLog sb s.disk (s.itable p)

end TruncCall

/-! ## What `itrunc` logs -/

variable {sb : Superblock} {s s' : FsState} {m m' : Machine} {ip ip' : Dinode} {d d' : Disk}
  {p dp : Fin NINODE} {addrs : Fin (NDIRECT + 2) → Nat} {bs : List Nat} {off : UInt32}

theorem bfreeAll_logged (h : bfreeAll sb bs m = .ok m') :
    m'.logged = (bs.map (BBLOCK sb)).reverse ++ m.logged := by
  induction bs generalizing m with
  | nil =>
    cases h
    rfl
  | cons b bs ih =>
    obtain ⟨m1, hfree, hrest⟩ := bind_eq_ok.mp h
    rw [ih hrest, (bfree_inv hfree).2.1, map_cons, reverse_cons, append_assoc]
    rfl

/-- What the loops of `itrunc` need of the addresses that they read. -/
structure Truncatable (sb : Superblock) (d : Disk) (ip : Dinode) : Prop where
  ind : ip.addrs indSlot ≠ 0 → sb.dataStart ≤ ip.addrs indSlot
  dbl : ip.addrs dblSlot ≠ 0 → sb.dataStart ≤ ip.addrs dblSlot ∧ ∀ j < NINDIRECT,
    word (d (ip.addrs dblSlot)) j = 0 ∨ sb.dataStart ≤ word (d (ip.addrs dblSlot)) j
  lt : ∀ b ∈ truncBlocks d ip, b < sb.size

theorem WellFormedTree.truncatable (h : WellFormedTree sb d ip) (hboot : BootZero d) :
    Truncatable sb d ip :=
  ⟨h.slot_data, fun hne => ⟨h.slot_data hne, fun _ => h.entry_data hne⟩,
    h.truncBlocks_lt (.inr hboot)⟩

/-- The blocks that `itrunc` reads. -/
def SameIndirect (d d' : Disk) (ip : Dinode) : Prop :=
  (ip.addrs indSlot ≠ 0 → d' (ip.addrs indSlot) = d (ip.addrs indSlot)) ∧
    (ip.addrs dblSlot ≠ 0 → d' (ip.addrs dblSlot) = d (ip.addrs dblSlot) ∧ ∀ j < NINDIRECT,
      d' (word (d (ip.addrs dblSlot)) j) = d (word (d (ip.addrs dblSlot)) j))

theorem SameIndirect.truncBlocks_eq (h : SameIndirect d d' ip) :
    truncBlocks d' ip = truncBlocks d ip := by
  have hind : (if ip.addrs indSlot ≠ 0 then indirectBlocks d' (ip.addrs indSlot) else []) =
      if ip.addrs indSlot ≠ 0 then indirectBlocks d (ip.addrs indSlot) else [] := by
    by_cases hne : ip.addrs indSlot ≠ 0
    · rw [if_pos hne, if_pos hne, indirectBlocks, indirectBlocks, h.1 hne]
    · rw [if_neg hne, if_neg hne]
  have hdbl : (if ip.addrs dblSlot ≠ 0 then doubleBlocks d' (ip.addrs dblSlot) else []) =
      if ip.addrs dblSlot ≠ 0 then doubleBlocks d (ip.addrs dblSlot) else [] := by
    by_cases hne : ip.addrs dblSlot ≠ 0
    · obtain ⟨hblock, hentry⟩ := h.2 hne
      rw [if_pos hne, if_pos hne, doubleBlocks, doubleBlocks, append_cancel_right_eq]
      apply flatMap_congr
      intro j hj
      rw [hblock, indirectBlocks, indirectBlocks, hentry j (mem_range.mp hj)]
    · rw [if_neg hne, if_neg hne]
  rw [truncBlocks, truncBlocks, hind, hdbl]

-- Of the inode only the addresses matter.
theorem truncBlocks_of_addrs (h : ip'.addrs = ip.addrs) : truncBlocks d ip' = truncBlocks d ip := by
  unfold truncBlocks
  rw [h]

theorem Truncatable.of_addrs (h : Truncatable sb d ip) (haddrs : ip'.addrs = ip.addrs) :
    Truncatable sb d ip' := by
  refine ⟨?_, ?_, ?_⟩
  · rw [haddrs]
    exact h.ind
  · rw [haddrs]
    exact h.dbl
  · rw [truncBlocks_of_addrs haddrs]
    exact h.lt

theorem Truncatable.congr (h : Truncatable sb d ip) (hsame : SameIndirect d d' ip) :
    Truncatable sb d' ip := by
  refine ⟨h.ind, fun hne => ?_, fun b hb => h.lt b (by rwa [← hsame.truncBlocks_eq])⟩
  rw [(hsame.2 hne).1]
  exact h.dbl hne

theorem iupdate_data (m : Machine) {i c : Nat} (hi : i < sb.ninodes) (din : Dinode)
    (hc : c = 0 ∨ sb.dataStart ≤ c) : (iupdate sb m i din).disk c = m.disk c := by
  rcases hc with rfl | hc
  · exact iupdate_zero sb m i din
  · exact iupdate_high sb m hi din c (sb.bmapstart_le_data.trans hc)

theorem Truncatable.itrunc_logged (h : Truncatable sb m.disk ip) {inum : Nat}
    (hinum : inum < sb.ninodes) (hrun : itrunc sb m inum ip = .ok (ip', m')) :
    m'.logged = IBLOCK sb inum :: ((truncBlocks m.disk ip).map (BBLOCK sb)).reverse ++ m.logged ∧
      ∀ c, c = 0 ∨ sb.dataStart ≤ c → m'.disk c = m.disk c := by
  rw [itrunc_eq inum h.ind h.dbl h.lt] at hrun
  cases hfree : bfreeAll sb (truncBlocks m.disk ip) m with
  | error e =>
    rw [hfree] at hrun
    cases hrun
  | ok m1 =>
    rw [hfree] at hrun
    cases hrun
    have hsame := bfreeAll_sameOutsideBitmap h.lt (fun _ _ => rfl : SameOutsideBitmap sb m.disk m)
      hfree
    refine ⟨congrArg _ (bfreeAll_logged hfree), fun c hc => ?_⟩
    have hpos := sb.bmapstart_pos
    rw [← hsame c (by omega)]
    exact iupdate_data m1 hinum ip.truncated hc

theorem SameIndirect.truncLog_eq {ip ip' : Inode} (h : SameIndirect d d' ip.din)
    (hinum : ip'.inum = ip.inum) (haddrs : ip'.din.addrs = ip.din.addrs) :
    TruncCall.truncLog sb d' ip' = TruncCall.truncLog sb d ip := by
  rw [TruncCall.truncLog, TruncCall.truncLog, hinum, truncBlocks_of_addrs haddrs, h.truncBlocks_eq]

/-! ## The steps of a transaction -/

/-- A step on entry `p` that adds the blocks `bs` to the log. -/
structure Logs (sb : Superblock) (p : Fin NINODE) (s s' : FsState) (bs : List Nat) : Prop where
  logged : ∀ b, b ∈ s'.machine.logged ↔ b ∈ bs ∨ b ∈ s.machine.logged
  keeps : ∀ q, q ≠ p → s'.itable q = s.itable q
  inum : (s'.itable p).inum = (s.itable p).inum
  disk : ∀ c, c = 0 ∨ sb.dataStart ≤ c → s'.disk c = s.disk c

theorem logs_dropLink (s : FsState) (p : Fin NINODE) (hinum : (s.itable p).inum < sb.ninodes) :
    ∃ s', s.dropLink sb p = .ok s' ∧ Logs sb p s s' [IBLOCK sb (s.itable p).inum] ∧
      s'.itable p = { s.itable p with
        din := { (s.itable p).din with nlink := (s.itable p).din.nlink - 1 } } := by
  refine ⟨_, rfl, ⟨fun b => ?_, fun q hq => ?_, ?_, fun c hc => ?_⟩, ?_⟩
  · rw [mem_singleton]
    exact mem_cons
  · rw [FsState.setInode_of_ne hq]
  · rw [FsState.setInode_self]
  · exact iupdate_data s.machine hinum _ hc
  · rw [FsState.setInode_self]

theorem logs_iput (hinum : (s.itable p).inum < sb.ninodes)
    (htree : s.LastRef p → Truncatable sb s.disk (s.itable p).din) (h : s.iput sb p = .ok s') :
    (s.LastRef p → Logs sb p s s' (TruncCall.truncLog sb s.disk (s.itable p))) ∧
      (¬ s.LastRef p → Logs sb p s s' []) := by
  unfold FsState.iput at h
  by_cases hlast : s.LastRef p
  · refine ⟨fun _ => ?_, fun hnot => absurd hlast hnot⟩
    obtain ⟨href, hvalid, hnlink⟩ := hlast
    simp only [href, hvalid, hnlink, and_self, if_true] at h
    cases hrun : itrunc sb s.machine (s.itable p).inum (s.itable p).din with
    | error e =>
      rw [hrun] at h
      cases h
    | ok r =>
      obtain ⟨din, m⟩ := r
      rw [hrun] at h
      cases h
      obtain ⟨hlogged, hdisk⟩ := (htree ⟨href, hvalid, hnlink⟩).itrunc_logged hinum hrun
      refine ⟨fun b => ?_, fun q hq => ?_, ?_, fun c hc => ?_⟩
      · change b ∈ IBLOCK sb _ :: m.logged ↔ _
        rw [hlogged, TruncCall.truncLog]
        simp only [mem_cons, cons_append, mem_append, mem_reverse]
        tauto
      · rw [FsState.setInode_of_ne hq]
      · rw [FsState.setInode_self]
      · exact (iupdate_data m hinum _ hc).trans (hdisk c hc)
  · refine ⟨fun hpos => absurd hpos hlast, fun _ => ?_⟩
    change (if s.LastRef p then _ else Except.ok _) = _ at h
    rw [if_neg hlast] at h
    cases h
    refine ⟨fun b => ?_, fun q hq => ?_, ?_, fun _ _ => rfl⟩
    · simp [FsState.setInode]
    · rw [FsState.setInode_of_ne hq]
    · rw [FsState.setInode_self]

-- Writing an entry over one that is there needs no new block.
theorem writei_entry (sb : Superblock) (m : Machine) (inum : Nat) {off : Nat} (hdvd : 16 ∣ off)
    (hend : off + 16 ≤ ip.size) (hsize : ip.size ≤ MAXFILE * BSIZE)
    (hmapped : addr m.disk ip (leafNode (off / BSIZE)) ≠ 0) :
    ∃ data, writei sb m inum ip (fun _ => some 0) off 16 = .ok (16, ip, iupdate sb
      ((m.store (addr m.disk ip (leafNode (off / BSIZE))) data).logWrite
        (addr m.disk ip (leafNode (off / BSIZE)))) inum ip) := by
  have hbn : off / BSIZE < MAXFILE := block_lt_MAXFILE (by omega)
  have href : ¬ Refused ip.size off 16 := by
    unfold Refused
    simp only [MAXFILE, BSIZE, NDIRECT, NINDIRECT, DOUBLEINDIRECT] at *
    omega
  have hchunk : chunk 16 0 off = 16 := by
    unfold chunk
    simp only [BSIZE]
    omega
  have hloop : writeiLoop sb (fun _ => some 0) 16 0 off ip m = .ok (16, off + 16, ip,
      (m.store (addr m.disk ip (leafNode (off / BSIZE)))
        ((m.disk (addr m.disk ip (leafNode (off / BSIZE)))).copyIn (off % BSIZE)
          (eitherCopyin (fun _ => some 0) 0 16).1)).logWrite
            (addr m.disk ip (leafNode (off / BSIZE)))) := by
    unfold writeiLoop
    rw [dif_pos (by decide), bmap_mapped sb m ip hbn hmapped]
    simp only [hchunk, if_neg hmapped, show (eitherCopyin (fun _ => some 0) 0 16).2 = true from rfl,
      if_true]
    unfold writeiLoop
    rw [dif_neg (by decide)]
  have hgrown : grown ip (off + 16) = ip := if_neg (by omega)
  refine ⟨(m.disk (addr m.disk ip (leafNode (off / BSIZE)))).copyIn (off % BSIZE)
    (eitherCopyin (fun _ => some 0) 0 16).1, ?_⟩
  rw [writei_eq sb m inum ip _ href, hloop]
  simp only [Except.map, hgrown]
  rfl

theorem sameIndirect_of_nodes {ino : Nat → Dinode} {i : Nat}
    (hzero : d' 0 = d 0) (hnode : ∀ slot q, Node.Valid ⟨slot, q⟩ → q.length < levels slot →
      own d ino (i, ⟨slot, q⟩) ≠ 0 → d' (own d ino (i, ⟨slot, q⟩)) = d (own d ino (i, ⟨slot, q⟩))) :
    SameIndirect d d' (ino i) := by
  refine ⟨hnode indSlot [] (valid_root _) (by decide), fun hne =>
    ⟨hnode dblSlot [] (valid_root _) (by decide) hne, fun j hj => ?_⟩⟩
  have hown : own d ino (i, ⟨dblSlot, [] ++ [j]⟩) = word (d ((ino i).addrs dblSlot)) j := by
    exact if_neg hne
  rw [← hown]
  by_cases habsent : own d ino (i, ⟨dblSlot, [] ++ [j]⟩) = 0
  · rw [habsent, hzero]
  · exact hnode dblSlot ([] ++ [j]) ((valid_root _).snoc (by decide) hj)
      (show 1 < levels dblSlot by decide) habsent

theorem FsInv.truncatable (hinv : FsInv sb s) (hp : 0 < (s.itable p).ref)
    (hvalid : (s.itable p).valid = true) : Truncatable sb s.disk (s.itable p).din := by
  rw [hinv.coherent p hp hvalid]
  exact (hinv.blocks.wellFormedTree (hinv.held p hp)).truncatable hinv.boot

-- The block of a directory entry is not one that a truncation reads.
theorem FsInv.sameIndirect (hinv : FsInv sb s) (hdp : 0 < (s.itable dp).ref)
    (hdvalid : (s.itable dp).valid = true) (hp : 0 < (s.itable p).ref)
    (hvalid : (s.itable p).valid = true) {bn : Nat} (hbn : bn < MAXFILE)
    (hmapped : addr s.disk (s.itable dp).din (leafNode bn) ≠ 0)
    (hdisk : ∀ c, c = 0 ∨ sb.dataStart ≤ c → c ≠ addr s.disk (s.itable dp).din (leafNode bn) →
      d' c = s.disk c) : SameIndirect s.disk d' (s.itable p).din := by
  rw [hinv.coherent dp hdp hdvalid] at hmapped hdisk
  rw [hinv.coherent p hp hvalid]
  have hleaf : Pos (Allocated sb s.disk) ((s.itable dp).inum, leafNode bn) :=
    ⟨hinv.held dp hdp, leafNode_valid hbn⟩
  apply sameIndirect_of_nodes (hdisk 0 (.inl rfl) hmapped.symm)
  intro slot q hq hlen hne
  have hpos : Pos (Allocated sb s.disk) ((s.itable p).inum, ⟨slot, q⟩) := ⟨hinv.held p hp, hq⟩
  refine hdisk _ (.inr (hinv.blocks.data_of_own hpos hne).1) ?_
  exact (hinv.blocks.leaf_ne_indirect hleaf (length_leafNode bn) hmapped (hinv.held p hp) hq
    hlen).symm

/-! ## The steps of `sys_unlink` -/

theorem logs_clearEntry {a : Nat} (hinum : (s.itable dp).inum < sb.ninodes) (hdvd : 16 ∣ off.toNat)
    (hend : off.toNat + 16 ≤ (s.itable dp).din.size)
    (hsize : (s.itable dp).din.size ≤ MAXFILE * BSIZE)
    (ha : addr s.disk (s.itable dp).din (leafNode (off.toNat / BSIZE)) = a) (hmapped : a ≠ 0)
    (h : s.beginOp.clearEntry sb dp off = .ok s') :
    (∀ b, b ∈ s'.machine.logged ↔ b = a ∨ b = IBLOCK sb (s.itable dp).inum) ∧
      (∀ q, s'.itable q = s.itable q) ∧
      ∀ c, c = 0 ∨ sb.dataStart ≤ c → c ≠ a → s'.disk c = s.disk c := by
  obtain ⟨data, hwrite⟩ := writei_entry sb s.beginOp.machine (s.itable dp).inum hdvd hend
    hsize (show addr s.disk _ _ ≠ 0 by rw [ha]; exact hmapped)
  change writei sb _ (s.beginOp.itable dp).inum (s.beginOp.itable dp).din _ _ 16 = _ at hwrite
  unfold FsState.clearEntry at h
  rw [hwrite] at h
  change (if (16 : Int) ≠ 16 then _ else Except.ok _) = _ at h
  cases h
  change addr s.beginOp.machine.disk (s.itable dp).din _ = a at ha
  rw [ha]
  refine ⟨fun b => ?_, fun q => ?_, fun c hc hca => ?_⟩
  · change b ∈ [IBLOCK sb (s.itable dp).inum, a] ↔ _
    simp only [mem_cons, not_mem_nil, or_false]
    exact or_comm
  · by_cases hq : q = dp
    · rw [hq, FsState.setInode_self]
      rfl
    · rw [FsState.setInode_of_ne hq]
      rfl
  · exact (iupdate_data _ hinum _ hc).trans (update_of_ne hca _ _)

-- The block of the directory's inode has been logged before.
theorem logs_dropParent {s₁ : FsState} {a : Nat}
    (hinum : (s.itable dp).inum < sb.ninodes) (hne : dp ≠ p)
    (hlog : ∀ b, b ∈ s₁.machine.logged ↔ b = a ∨ b = IBLOCK sb (s.itable dp).inum)
    (htable : ∀ q, s₁.itable q = s.itable q) (h : s₁.dropParent sb dp p = .ok s') :
    (∀ b, b ∈ s'.machine.logged ↔ b = a ∨ b = IBLOCK sb (s.itable dp).inum) ∧
      s'.itable p = s.itable p ∧
      s'.itable dp = { s.itable dp with
        din := { (s.itable dp).din with nlink := TruncCall.linksLeft s dp p } } ∧
      ∀ c, c = 0 ∨ sb.dataStart ≤ c → s'.disk c = s₁.disk c := by
  unfold FsState.dropParent at h
  rw [htable] at h
  unfold TruncCall.linksLeft
  by_cases hdir : (s.itable p).din.type = T_DIR
  · rw [if_pos hdir] at h ⊢
    obtain ⟨s2, hdrop, hlogs, hdp⟩ := logs_dropLink s₁ dp (by rw [htable]; exact hinum)
    rw [hdrop] at h
    cases h
    rw [htable] at hdp hlogs
    refine ⟨fun b => ?_, (hlogs.keeps p hne.symm).trans (htable p), hdp, hlogs.disk⟩
    rw [hlogs.logged, hlog, mem_singleton]
    exact or_iff_right_of_imp .inr
  · rw [if_neg hdir] at h ⊢
    cases h
    exact ⟨hlog, htable p, htable dp, fun _ _ => rfl⟩

namespace TruncCall

-- The transaction logs exactly the blocks of its list.
theorem logged_openTrunc (hinv : FsInv sb s) (hready : (openTrunc p).Ready s)
    (hrun : (openTrunc p).run sb s = .ok s') (b : Nat) :
    b ∈ s'.machine.logged ↔ b ∈ (openTrunc p).blocks sb s := by
  have htree := hinv.truncatable hready.1 hready.2
  have hinum := (hinv.held p hready.1).2.1
  change fsStep sb s.beginOp (.itrunc p) = .ok s' at hrun
  simp only [fsStep] at hrun
  cases hitrunc : itrunc sb s.beginOp.machine (s.beginOp.itable p).inum
      (s.beginOp.itable p).din with
  | error e =>
    rw [hitrunc] at hrun
    cases hrun
  | ok r =>
    obtain ⟨din, m⟩ := r
    rw [hitrunc] at hrun
    cases hrun
    have hlogged := (Truncatable.itrunc_logged (m := s.beginOp.machine) htree hinum hitrunc).1
    change b ∈ m.logged ↔ _
    rw [hlogged]
    change b ∈ _ :: _ ++ [] ↔ _
    rw [append_nil, blocks, truncLog, mem_cons, mem_cons, mem_reverse]
    rfl

theorem logged_lastPut (hinv : FsInv sb s) (hready : (lastPut p).Ready s)
    (hrun : (lastPut p).run sb s = .ok s') (b : Nat) :
    b ∈ s'.machine.logged ↔ b ∈ (lastPut p).blocks sb s := by
  have hp : 0 < (s.itable p).ref := by
    rw [hready.1]
    exact Nat.one_pos
  have hlogs := (logs_iput (s := s.beginOp) (p := p) (hinv.held p hp).2.1
    (fun _ => hinv.truncatable hp hready.2.1) hrun).1 hready
  rw [hlogs.logged]
  exact or_iff_left (not_mem_nil)

theorem logged_unlink (hinv : FsInv sb s)
    (hready : (unlink dp p off).Ready s) (hrun : (unlink dp p off).run sb s = .ok s') (b : Nat) :
    b ∈ s'.machine.logged ↔ b ∈ (unlink dp p off).blocks sb s := by
  obtain ⟨hne, ⟨hdp, hdvalid⟩, ⟨href, hvalid, hnlink⟩, hdvd, hend, hsize, hmapped⟩ := hready
  have hp : 0 < (s.itable p).ref := by
    rw [href]
    exact Nat.one_pos
  have hbn : off.toNat / BSIZE < MAXFILE := block_lt_MAXFILE (by omega)
  have hdinum := (hinv.held dp hdp).2.1
  have hinum := (hinv.held p hp).2.1
  obtain ⟨s1, hclear, hrun⟩ := bind_eq_ok.mp hrun
  obtain ⟨s2, hdrop, hrun⟩ := bind_eq_ok.mp hrun
  obtain ⟨s3, hput, hrun⟩ := bind_eq_ok.mp hrun
  obtain ⟨s4, hdrop', hput'⟩ := bind_eq_ok.mp hrun
  generalize ha : addr s.disk (s.itable dp).din (leafNode (off.toNat / BSIZE)) = a at hmapped
  have hsame : ∀ {q d'}, 0 < (s.itable q).ref → (s.itable q).valid = true →
      (∀ c, c = 0 ∨ sb.dataStart ≤ c → c ≠ a → d' c = s.disk c) →
      SameIndirect s.disk d' (s.itable q).din := fun hq hqvalid hdisk =>
    hinv.sameIndirect hdp hdvalid hq hqvalid hbn (ha ▸ hmapped) (by rw [ha]; exact hdisk)
  obtain ⟨hlog1, htable1, hdisk1⟩ := logs_clearEntry hdinum hdvd hend hsize ha hmapped hclear
  obtain ⟨hlog2, hp2, hdp2, hdisk2⟩ := logs_dropParent (s := s) hdinum hne hlog1 htable1 hdrop
  replace hdisk2 : ∀ c, c = 0 ∨ sb.dataStart ≤ c → c ≠ a → s2.disk c = s.disk c :=
    fun c hc hca => (hdisk2 c hc).trans (hdisk1 c hc hca)
  -- the directory is given up, and freed with its last reference
  have hlast : s2.LastRef dp ↔ (s.itable dp).ref = 1 ∧ linksLeft s dp p = 0 := by
    unfold FsState.LastRef
    rw [hdp2]
    simp only [hdvalid, true_and]
  have hsame2 := hsame hdp hdvalid hdisk2
  have hiput := logs_iput (by rw [hdp2]; exact hdinum)
    (fun _ => ((hinv.truncatable hdp hdvalid).congr hsame2).of_addrs (by rw [hdp2])) hput
  have hlogs3 : Logs sb dp s2 s3 (if (s.itable dp).ref = 1 ∧ linksLeft s dp p = 0 then
      truncLog sb s.disk (s.itable dp) else []) := by
    by_cases hfreed : (s.itable dp).ref = 1 ∧ linksLeft s dp p = 0
    · have htrunc : truncLog sb s2.disk (s2.itable dp) = truncLog sb s.disk (s.itable dp) :=
        hsame2.truncLog_eq (by rw [hdp2]) (by rw [hdp2])
      rw [if_pos hfreed, ← htrunc]
      exact hiput.1 (hlast.mpr hfreed)
    · rw [if_neg hfreed]
      exact hiput.2 fun h => hfreed (hlast.mp h)
  have hp3 : s3.itable p = s.itable p := (hlogs3.keeps p hne.symm).trans hp2
  -- and so is the file
  obtain ⟨s4', hdrop4, hlogs4, hp4⟩ := logs_dropLink s3 p (by rw [hp3]; exact hinum)
  rw [hdrop'] at hdrop4
  cases hdrop4
  rw [hp3] at hp4 hlogs4
  have hdisk4 : ∀ c, c = 0 ∨ sb.dataStart ≤ c → c ≠ a → s4.disk c = s.disk c := fun c hc hca =>
    ((hlogs4.disk c hc).trans (hlogs3.disk c hc)).trans (hdisk2 c hc hca)
  have hsame4 := hsame hp hvalid hdisk4
  have hlast4 : s4.LastRef p := by
    unfold FsState.LastRef
    rw [hp4]
    exact ⟨href, hvalid, by rw [hnlink]; rfl⟩
  have hlogs5 := (logs_iput (by rw [hp4]; exact hinum)
    (fun _ => ((hinv.truncatable hp hvalid).congr hsame4).of_addrs (by rw [hp4])) hput').1 hlast4
  have htrunc : truncLog sb s4.disk (s4.itable p) = truncLog sb s.disk (s.itable p) :=
    hsame4.truncLog_eq (by rw [hp4]) (by rw [hp4])
  rw [hlogs5.logged, htrunc, hlogs4.logged, hlogs3.logged, hlog2, blocks, ha]
  have hself : IBLOCK sb (s.itable p).inum ∈ truncLog sb s.disk (s.itable p) := mem_cons_self
  simp only [mem_append, mem_cons, not_mem_nil, or_false]
  constructor
  · rintro (h | rfl | h | h)
    · exact .inr h
    · exact .inr hself
    · exact .inl (.inr h)
    · exact .inl (.inl h)
  · rintro ((h | h) | h)
    · exact .inr (.inr (.inr h))
    · exact .inr (.inr (.inl h))
    · exact .inl h

end TruncCall

theorem TruncCall.logged_eq (hinv : FsInv sb s) {c : TruncCall} (hready : c.Ready s)
    (hrun : c.run sb s = .ok s') : s'.machine.logged.toFinset = (c.blocks sb s).toFinset := by
  apply List.toFinset.ext
  cases c with
  | openTrunc p => exact logged_openTrunc hinv hready hrun
  | lastPut p => exact logged_lastPut hinv hready hrun
  | unlink dp p off => exact logged_unlink hinv hready hrun

/-- In a state that respects the block invariant, a truncating transaction that runs to its end has
logged at most `MAXOPBLOCKS` distinct blocks exactly when the bitmap blocks that hold the bits of
the file's blocks are at most `MAXOPBLOCKS`, together with the inode's block and, for `sys_unlink`,
the block of the entry and the inode block of the directory (and what the directory frees, if it
goes too). -/
theorem truncation_fits_iff (hinv : FsInv sb s) {c : TruncCall} (hready : c.Ready s)
    (hrun : c.run sb s = .ok s') :
    s'.machine.logged.toFinset.card ≤ MAXOPBLOCKS ↔
      (c.blocks sb s).toFinset.card ≤ MAXOPBLOCKS := by
  rw [TruncCall.logged_eq hinv hready hrun]

/-- A disk with one file, inode 1 with the addresses `addrs`, open and without a link. -/
def oneFile (sb : Superblock) (bs : List Nat) (addrs : Fin (NDIRECT + 2) → Nat) : FsState :=
  ⟨iupdate sb ⟨diskWith sb bs, [], []⟩ 1 (inodeWith addrs), fun p =>
    if p = 0 then ⟨1, 1, true, inodeWith addrs⟩ else ⟨0, 0, false, freshDinode 0⟩⟩

section OneFile

variable {bs : List Nat} {addrs : Fin (NDIRECT + 2) → Nat} (hone : 1 < sb.ninodes)
  (hbs : ∀ b ∈ bs, sb.dataStart ≤ b ∧ b < sb.size)

include hbs

theorem getDinode_oneFile (hmem : ∀ k, addrs k ≠ 0 → addrs k ∈ bs) {i : Nat} (hi : i < sb.ninodes) :
    getDinode sb (oneFile sb bs addrs).disk i =
      if i = 1 then inodeWith addrs else freshDinode 0 := by
  have hint := sb.int_size
  by_cases h1 : i = 1
  · have huint : (inodeWith addrs).Uint := by
      refine ⟨Nat.two_pow_pos 32, fun k => ?_⟩
      by_cases hzero : addrs k = 0
      · exact lt_of_eq_of_lt hzero (Nat.two_pow_pos 32)
      · have hlt := (hbs _ (hmem k hzero)).2
        change addrs k < _
        omega
    rw [if_pos h1, h1]
    exact getDinode_iupdate_self sb _ 1 huint
  · rw [if_neg h1]
    refine (getDinode_iupdate_of_ne sb _ _ h1).trans ?_
    rw [← getDinode_blankDisk sb hi]
    apply getDinode_congr
    have hlow := sb.IBLOCK_lt_bmapstart hi
    rw [blankDisk_low sb hlow]
    exact diskWith_of_not_bitmap (fun b hb => (hbs b hb).2) (.inl hlow)

include hone in
theorem oneFile_inv (hmem : ∀ k, addrs k ≠ 0 → addrs k ∈ bs)
    (hinj : ∀ k k', addrs k ≠ 0 → addrs k = addrs k' → k = k')
    (hall : ∀ b ∈ bs, ∃ k, addrs k = b) : FsInv sb (oneFile sb bs addrs) := by
  have hget : ∀ {i}, i < sb.ninodes → getDinode sb (oneFile sb bs addrs).disk i =
      if i = 1 then inodeWith addrs else freshDinode 0 := getDinode_oneFile hbs hmem
  have hhigh : ∀ c, sb.bmapstart ≤ c → (oneFile sb bs addrs).disk c = diskWith sb bs c :=
    iupdate_high sb ⟨diskWith sb bs, [], []⟩ hone (inodeWith addrs)
  have halloc : ∀ i, Allocated sb (oneFile sb bs addrs).disk i ↔ i = 1 := by
    intro i
    constructor
    · rintro ⟨-, hi, htype⟩
      by_contra h1
      rw [hget hi, if_neg h1] at htype
      exact htype rfl
    · rintro rfl
      refine ⟨le_rfl, hone, ?_⟩
      rw [hget hone, if_pos rfl]
      exact (by decide : (2 : Int16) ≠ 0)
  have htable : ∀ p, 0 < ((oneFile sb bs addrs).itable p).ref → p = 0 := by
    intro p hp
    by_contra hne
    simp only [oneFile, if_neg hne, lt_irrefl] at hp
  have htree := wellFormedTree_inodeWith hbs hmem hinj
  -- the tree is the same on the disk with the inode written
  have hblocks : Blocks sb (Allocated sb (oneFile sb bs addrs).disk)
      (fun _ => inodeWith addrs) (diskWith sb bs) := by
    refine ⟨⟨fun x hx hne => htree.used_of_own x.2 hx.2 hne, fun x y hx hy hne heq => ?_⟩,
      fun b hb => ?_⟩
    · have hxi := (halloc x.1).mp hx.1
      have hyi := (halloc y.1).mp hy.1
      exact Prod.ext (hxi.trans hyi.symm) (htree.inj x.2 y.2 hx.2 hy.2 hne heq)
    · rw [bitOf_diskWith, decide_eq_true hb, Bool.true_or]
  have hroot : ∀ i, Allocated sb (oneFile sb bs addrs).disk i →
      (getDinode sb (oneFile sb bs addrs).disk i).addrs = (inodeWith addrs).addrs := by
    intro i hi
    rw [hget hi.2.1, if_pos ((halloc i).mp hi)]
  refine ⟨hblocks.high hroot hhigh, noLeak_high hblocks hroot hhigh fun b hb => ?_, fun j => ?_,
    fun p hp => ?_, fun p hp _ => ?_, fun p q hp hq _ => ?_⟩
  · have hset := hb.2.2
    rw [bitOf_diskWith, decide_eq_false (by have hlo := hb.1; omega), Bool.false_or,
      decide_eq_true_eq] at hset
    obtain ⟨k, hk⟩ := hall b hset
    exact ⟨(1, ⟨k, []⟩), ⟨(halloc 1).mpr rfl, valid_root k⟩, hk⟩
  · have hzero : (oneFile sb bs addrs).disk 0 = diskWith sb bs 0 := iupdate_zero ..
    rw [hzero, diskWith_of_not_bitmap (fun b hb => (hbs b hb).2) (.inl sb.bmapstart_pos), word_zero]
  · rw [htable p hp]
    exact (halloc 1).mpr rfl
  · rw [htable p hp]
    exact ((hget hone).trans (if_pos rfl)).symm
  · rw [htable p hp, htable q hq]

end OneFile

/-- Two direct blocks of one bitmap block. -/
def nearAddrs (k : Fin (NDIRECT + 2)) : Nat := if k = 0 then 100 else if k = 1 then 200 else 0

theorem truncation_fits_nearAddrs : ∃ s',
    (TruncCall.openTrunc 0).run mkfsLayout (oneFile mkfsLayout [100, 200] nearAddrs) = .ok s' ∧
      s'.machine.logged.toFinset.card ≤ MAXOPBLOCKS := by
  have hinv := @oneFile_inv mkfsLayout [100, 200] nearAddrs (by decide) (by decide) (by decide)
    (by decide) (by decide)
  obtain ⟨s', hrun, -⟩ := exists_ok_of_any (x := (TruncCall.openTrunc 0).run mkfsLayout
    (oneFile mkfsLayout [100, 200] nearAddrs)) (p := fun _ => true) (by decide +kernel)
  have hready : (TruncCall.openTrunc 0).Ready (oneFile mkfsLayout [100, 200] nearAddrs) :=
    ⟨Nat.one_pos, rfl⟩
  exact ⟨s', hrun, (truncation_fits_iff hinv hready hrun).mpr (by decide +kernel)⟩

/-- Eleven direct blocks, each in a bitmap block of its own. -/
def farAddrs (k : Fin (NDIRECT + 2)) : Nat := if k.val < NDIRECT then (k.val + 1) * BPB else 0

/-- A file of eleven blocks on a disk of `FSSIZE` blocks: opening it with `O_TRUNC` logs eleven
bitmap blocks and the block of the inode. -/
theorem openTrunc_logs_twelve_blocks : ∃ s',
    FsInv mkfsLayout (oneFile mkfsLayout (directSlots.map farAddrs) farAddrs) ∧
      (TruncCall.openTrunc 0).Ready (oneFile mkfsLayout (directSlots.map farAddrs) farAddrs) ∧
      (TruncCall.openTrunc 0).run mkfsLayout
        (oneFile mkfsLayout (directSlots.map farAddrs) farAddrs) = .ok s' ∧
      s'.machine.logged.toFinset.card = 12 := by
  have hinv := @oneFile_inv mkfsLayout (directSlots.map farAddrs) farAddrs (by decide) (by decide)
    (by decide) (by decide) (by decide)
  obtain ⟨s', hrun, hlogged⟩ := exists_ok_of_any (x := (TruncCall.openTrunc 0).run mkfsLayout
    (oneFile mkfsLayout (directSlots.map farAddrs) farAddrs))
    (p := fun s' => s'.machine.logged.toFinset.card = 12) (by decide +kernel)
  exact ⟨s', hinv, ⟨Nat.one_pos, rfl⟩, hrun, of_decide_eq_true hlogged⟩

end OsProjects.Kernel
