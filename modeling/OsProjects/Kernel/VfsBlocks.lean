import OsProjects.Kernel.Vfs
import OsProjects.Kernel.WriteReport

/-!
# VfsBlocks — a file of the calls is a file on the disk

The calls see a file as a byte string and a number of blocks.  Where that is how the file stands on
the disk, `writei` and `itrunc` there do what the calls take them to do, failed requests for blocks
and the panic included.
-/

namespace OsProjects.Kernel.Vfs

open Lib Function

variable {P : Type} [DecidableEq P] {sb : Superblock} {m : Machine} {ip : Dinode} {room : Room}
  {i inum off : Nat} {data bytes : List UInt8} {s : Sys P} (p : P)

/-- Inode `i` with the content `data` stands on the disk as `ip`. -/
structure Stands (sb : Superblock) (m : Machine) (ip : Dinode) (room : Room) (i : Nat)
    (data : List UInt8) : Prop where
  tree : WellFormedTree sb m.disk ip
  boot : BootZero m.disk
  reserved : ∀ b < sb.dataStart, b ≠ 0 → bitOf sb m.disk b = true
  bootFree : bitOf sb m.disk 0 = !room.bootFree
  contents : contents m.disk ip = data
  packed : Packed m.disk ip (room.blocks i data.length)

theorem contents_write {ip₂ : Dinode} {m₂ : Machine} {r : Nat} (hr : r ≤ bytes.length)
    (hoff : off ≤ ip.size) (hfit : off + r ≤ MAXFILE * BSIZE) (hsize : ip.size ≤ MAXFILE * BSIZE)
    (hcopied : Copied sb (fun k => bytes[k]?) off ip m.disk r ip₂ m₂.disk)
    (hinum : inum < sb.ninodes) :
    contents (iupdate sb m₂ inum (grown ip₂ (off + r))).disk (grown ip₂ (off + r)) =
      FlatArray.write (contents m.disk ip) off (bytes.take r) := by
  have hlen : (bytes.take r).length = r := by rw [List.length_take, min_eq_left hr]
  have hgrown : (grown ip₂ (off + r)).size = max ip.size (off + r) := by
    rw [grown_size, hcopied.fields]
  apply FlatArray.ext_getD 0
  · rw [length_contents, FlatArray.length_write _ _ (by rwa [length_contents]), length_contents,
      hlen, hgrown]
  · intro k hk
    rw [length_contents, hgrown] at hk
    rw [getD_contents _ _ (by rwa [hgrown]),
      patched_of_copied hcopied hinum (grown_addrs _ _) (by omega),
      FlatArray.getD_write _ _ (by rwa [length_contents]), hlen, patched]
    by_cases hin : off ≤ k ∧ k < off + r
    · rw [if_pos hin, if_pos hin, List.getD_eq_getElem?_getD, List.getElem?_take_of_lt (by omega)]
    · rw [if_neg hin, if_neg hin, getD_contents _ _ (by omega)]

-- The blocks that a write has got cover the content that it leaves.
theorem blocksFor_written {b r : Nat} (hoff : off ≤ data.length)
    (hb : blocksFor (blocksOf data.length) ≤ b)
    (hr : r = min bytes.length (dataBlocks b * BSIZE - off)) :
    blocksFor (blocksOf (FlatArray.write data off (bytes.take r)).length) ≤ b := by
  have hlow := le_dataBlocks_iff.mpr hb
  rw [← le_dataBlocks_iff, FlatArray.length_write _ _ hoff, List.length_take]
  unfold blocksOf at *
  simp only [BSIZE] at *
  omega

/-- What the disk answers to the requests of a write up to `stop`. -/
def Room.Answers (room : Room) (sb : Superblock) (d : Disk) (i size stop : Nat) : Prop :=
  (takeRoom room.answers (blocksFor (blocksOf stop) - room.blocks i size)).1 =
    min (blocksFor (blocksOf stop) - room.blocks i size) (freeBlocks sb d).length

/-- `writei` of the calls writes, reports and takes blocks as `writei` on the disk does, also when a
request for a block is refused. -/
theorem Stands.writei (h : Stands sb m ip s.room i (s.ino i).data) (hset : s.room.bootFree = false)
    (hinum : inum < sb.ninodes) (hsize : ip.size ≤ MAXFILE * BSIZE) (hlen : bytes.length < 2 ^ 32)
    (hroom : s.room.Answers sb m.disk i (s.ino i).data.length (off + bytes.length)) :
    ∃ r ip' m' s', Kernel.writei sb m inum ip (fun k => bytes[k]?) off bytes.length =
      .ok (r, ip', m') ∧
      exec p (.writei i off bytes) s = .ok (r, s') ∧
      Stands sb m' ip' s'.room i (s'.ino i).data := by
  have hdata := length_contents m.disk ip
  rw [h.contents] at hdata
  simp only [exec, Sys.setIno]
  by_cases href : Refused ip.size off bytes.length
  · rw [writeData, if_pos (by rwa [hdata])]
    exact ⟨_, ip, m, _, writei_refused _ _ _ _ _ href, rfl, by simpa using h⟩
  obtain ⟨hoff, hfit⟩ := not_refused hlen href
  have hreserved : Reserved sb m.disk := by
    intro b hb
    by_cases hzero : b = 0
    · rw [hzero, h.bootFree, hset]
      rfl
    · exact h.reserved b hb hzero
  have hblock : blocksFor (blocksOf (s.ino i).data.length) ≤ s.room.blocks i
      (s.ino i).data.length :=
    Nat.le_add_right ..
  obtain ⟨r, ip', m', hrun⟩ := writei_returns sb m inum ip (fun k => bytes[k]?) hlen href
  obtain ⟨hpacked, hr, ip₂, m₂, hcopied, rfl, rfl⟩ := h.packed.writei h.tree hreserved h.boot hinum
    hlen (hdata ▸ hblock) (fun k hk => by simp [hk]) hrun rfl
  obtain ⟨htree₂, hreserved₂⟩ := hcopied.wellFormedTree
  have hblocks := blocks_iupdate htree₂ hreserved₂ hinum (grown_addrs ip₂ (off + r))
  rw [writeData, if_neg (by rwa [hdata])]
  unfold Room.Answers at hroom
  simp only [hroom, ← hr]
  refine ⟨_, _, _, _, hrun, rfl, ?_⟩
  dsimp only
  rw [update_self]
  refine ⟨hblocks.wellFormedTree (i := 0) rfl, ?_, fun b hb _ => hblocks.reserved b hb, ?_, ?_, ?_⟩
  · obtain ⟨_, -, -, hwrote⟩ := hcopied
    exact (hwrote.bootZero h.boot).iupdate sb inum _
  · have htwo := sb.two_le_dataStart
    rw [hset, hblocks.reserved 0 (by omega)]
    rfl
  · rw [contents_write (by omega) hoff (by omega) hsize hcopied hinum, h.contents]
  · have hcover := blocksFor_written (by rwa [hdata]) (hblock.trans (Nat.le_add_right ..)) hr
    rw [Room.blocks]
    dsimp only
    rw [update_self, Nat.add_sub_cancel' hcover]
    exact hpacked

/-- `itrunc` of the calls panics where `itrunc` on the disk does, and empties the file elsewhere. -/
theorem Stands.itrunc (h : Stands sb m ip s.room i (s.ino i).data) (hinum : inum < sb.ninodes) :
    Kernel.itrunc sb m inum ip = .error "freeing free block" ∧
        exec p (.itrunc i) s = .error (.panic "freeing free block") ∨
      ∃ ip' m' s', Kernel.itrunc sb m inum ip = .ok (ip', m') ∧
      exec p (.itrunc i) s = .ok ((), s') ∧
        Stands sb m' ip' s'.room i (s'.ino i).data := by
  have hperm := truncBlocks_perm h.boot ip
  have habsent := h.tree.itrunc_absent h.boot inum
  rw [h.packed.absent, h.bootFree, Bool.not_not] at habsent
  simp only [exec, Room.truncate, Sys.setIno]
  split at habsent
  next hbad =>
    rw [if_pos hbad]
    exact .inl ⟨habsent, rfl⟩
  next hfits =>
    obtain ⟨m', hrun, hfreed⟩ := habsent
    have hzero (n : Node) : addr (iupdate sb m' inum ip.truncated).disk ip.truncated n = 0 :=
      @own_of_addrs_zero (fun _ => ip.truncated) _ (0, n) fun _ => rfl
    have hbit := fun c => bitOf_high (iupdate_high sb m' hinum ip.truncated) c
    rw [if_neg hfits]
    refine .inr ⟨_, _, _, hrun, rfl, ?_⟩
    dsimp only
    rw [update_self]
    refine ⟨⟨fun n _ hne => absurd (hzero n) hne, fun n _ _ _ hne => absurd (hzero n) hne⟩,
      BootZero.iupdate (fun j => ?_) sb _ _, fun b hb hne => ?_, ?_, rfl,
      fun n _ => iff_of_true (hzero n) ?_⟩
    · rw [hfreed.low 0 sb.bmapstart_pos, h.boot j]
    · have hout : b ∉ truncBlocks m.disk ip := fun hmem => by
        rcases List.mem_append.mp (hperm.mem_iff.mp hmem) with hmem | hmem
        · exact hne (List.eq_of_mem_replicate hmem)
        · exact absurd (h.tree.used_treeBlocks hmem).1 (by omega)
      rw [hbit, hfreed.bits, h.reserved b hb hne, decide_eq_false hout]
      rfl
    · -- block 0 is among the blocks freed when an entry is absent
      have hmem : 0 ∈ truncBlocks m.disk ip ↔
          absentEntries (s.room.blocks i (s.ino i).data.length) = 1 := by
        rw [hperm.mem_iff, List.mem_append, List.mem_replicate, h.packed.absent,
          or_iff_left fun hmem => (mem_treeBlocks.mp hmem).1 rfl]
        omega
      rw [hbit, hfreed.bits, h.bootFree, decide_eq_decide.mpr hmem, ← Bool.not_or]
      rfl
    · have hempty : blocksFor (blocksOf 0) = 0 := rfl
      simp [Room.blocks, Room.clear, hempty]

end OsProjects.Kernel.Vfs
