import OsProjects.Kernel.Itrunc
import OsProjects.Kernel.NoHoles

/-!
# Truncation — what `itrunc` frees

On a tree whose double-indirect block is absent or has no zero entry, `itrunc` clears the bits of
exactly the blocks of the tree.  On every other tree it frees the boot block, or panics.
-/

namespace OsProjects.Kernel

open Lib Function

variable {sb : Superblock} {d d' : Disk} {ip : Dinode} {m : Machine} {inum : Nat}

/-- The outcome of a truncation that frees the file and nothing else: `ip'` is the inode in memory,
`m'` the machine. -/
structure FreesExactly (sb : Superblock) (m : Machine) (inum : Nat) (ip ip' : Dinode)
    (m' : Machine) : Prop where
  bits : ∀ c, bitOf sb m'.disk c = (bitOf sb m.disk c && !decide (c ∈ treeBlocks m.disk ip))
  memory : ip' = { ip with size := 0, addrs := fun _ => 0 }
  stored : getDinode sb m'.disk inum = { ip with size := 0, addrs := fun _ => 0 }
  blocks : ∀ c, c < sb.bmapstart ∨ sb.dataStart ≤ c → c ≠ IBLOCK sb inum → m'.disk c = m.disk c
  -- the other slots of the inode block
  slots : ∀ j, j ≠ inum → IBLOCK sb j < sb.bmapstart →
    getDinode sb m'.disk j = getDinode sb m.disk j

theorem FreedAll.freesExactly {m₁ : Machine} (h : FreedAll sb m.disk m₁.disk (treeBlocks m.disk ip))
    (hinum : inum < sb.ninodes) :
    FreesExactly sb m inum ip ip.truncated (iupdate sb m₁ inum ip.truncated) := by
  have huint : ip.truncated.Uint := ⟨Nat.two_pow_pos 32, fun _ => Nat.two_pow_pos 32⟩
  refine ⟨fun c => ?_, rfl, getDinode_iupdate_self sb m₁ inum huint, fun c hc hne => ?_,
    fun j hne hlow => ?_⟩
  · rw [bitOf_high (iupdate_high sb m₁ hinum _), h.bits]
  · rw [show (iupdate sb m₁ inum ip.truncated).disk c = m₁.disk c from update_of_ne hne _ _]
    rcases hc with hc | hc
    · exact h.low c hc
    · exact h.data c hc
  · rw [getDinode_iupdate_of_ne sb m₁ _ hne]
    exact getDinode_congr (h.low _ hlow)

theorem WellFormedTree.freesExactly_iff (h : WellFormedTree sb m.disk ip)
    (hinum : inum < sb.ninodes) :
    (∃ ip' m', itrunc sb m inum ip = .ok (ip', m') ∧ FreesExactly sb m inum ip ip' m') ↔
      FullTree m.disk ip := by
  constructor
  · rintro ⟨ip', m', hrun, hexact⟩
    by_contra hlacks
    -- the bit of the boot block was set, is clear now, and is no bit of the file
    obtain ⟨hset, hclear⟩ := h.itrunc_bootFreed hlacks hinum hrun
    have hout : 0 ∉ treeBlocks m.disk ip := fun hmem => (mem_treeBlocks.mp hmem).1 rfl
    rw [hexact.bits, hset, decide_eq_false hout] at hclear
    cases hclear
  · intro hfull
    obtain ⟨m1, hrun, hfreed, -⟩ := h.itrunc_fullTree hfull inum
    exact ⟨_, _, hrun, hfreed.freesExactly hinum⟩

/-! ## Writing a file and truncating it -/

-- What a call of `writei` keeps; the index of the inode in the family need not be its number.
theorem Blocks.writei {F : Nat → Prop} {ino : Nat → Dinode} {i : Nat}
    (hblocks : Blocks sb F ino m.disk) (hleak : NoLeak (Pos F) (own m.disk ino) (Used sb m.disk))
    (hi : F i) (hboot : BootZero m.disk) (hinum : inum < sb.ninodes) (src : Source)
    (off n : UInt32) :
    ∃ r ip' m', writei sb m inum (ino i) src off.toNat n.toNat = .ok (r, ip', m') ∧
      Blocks sb F (update ino i ip') m'.disk ∧
      NoLeak (Pos F) (own m'.disk (update ino i ip')) (Used sb m'.disk) ∧
      BootZero m'.disk := by
  by_cases href : Refused (ino i).size off.toNat n.toNat
  · refine ⟨-1, ino i, m, writei_refused _ _ _ _ _ href, ?_, ?_, hboot⟩
    · rwa [update_eq_self]
    · rwa [update_eq_self]
  obtain ⟨hoff, hfit⟩ := not_refused n.toNat_lt href
  obtain ⟨tot, off', din', m1, hloop, -⟩ := writeiLoop_total sb src n.toNat 0 off.toNat (ino i) m
    (by omega)
  obtain ⟨data, hlooped⟩ := writeiLoop_spec hblocks hi (by omega) hloop (Or.inl hboot)
  have haddrs := fun j (_ : F j) => update_addrs (grown_addrs din' off') ino i j
  have hhigh := iupdate_high sb m1 hinum (grown din' off')
  refine ⟨tot, grown din' off', iupdate sb m1 inum (grown din' off'), ?_,
    hlooped.wrote.blocks.high haddrs hhigh,
    noLeak_high hlooped.wrote.blocks haddrs hhigh (hlooped.wrote.noLeak hleak), ?_⟩
  · rw [writei_eq _ _ _ _ _ href, hloop]
    rfl
  · exact (hlooped.wrote.bootZero hboot).iupdate sb inum _

/-- The file `ip` at index 0, and at index `b + 1` an inode that holds block `b` if that is in use
on the disk `d`. -/
def besides (sb : Superblock) (d : Disk) (ip : Dinode) : Nat → Dinode
  | 0 => ip
  | b + 1 => { freshDinode 0 with addrs := fun k =>
      if k = 0 ∧ sb.dataStart ≤ b ∧ b < sb.size ∧ bitOf sb d b = true then b else 0 }

theorem own_besides (sb : Superblock) (d d' : Disk) (ip : Dinode) {b : Nat} {n : Node}
    (hn : n.Valid) : own d' (besides sb d ip) (b + 1, n) = b ∧ n = ⟨0, []⟩ ∧ Used sb d b ∨
      own d' (besides sb d ip) (b + 1, n) = 0 ∧ ¬ (n = ⟨0, []⟩ ∧ Used sb d b) := by
  obtain ⟨k, q⟩ := n
  by_cases hroot : k = 0 ∧ Used sb d b
  · obtain ⟨rfl, hused⟩ := hroot
    have hq : q = [] := List.length_eq_zero_iff.mp (Nat.le_zero.mp hn.depth)
    subst hq
    exact .inl ⟨if_pos ⟨rfl, hused⟩, rfl, hused⟩
  · have hzero : addr d' (besides sb d ip (b + 1)) ⟨k, []⟩ = 0 := if_neg hroot
    refine .inr ⟨addr_append_of_zero hzero q, ?_⟩
    rintro ⟨hkq, hused⟩
    exact hroot ⟨congrArg Node.slot hkq, hused⟩

theorem blocks_besides (hempty : ∀ k, ip.addrs k = 0)
    (hreserved : Reserved sb d) :
    Blocks sb (fun _ => True) (besides sb d ip) d ∧
      NoLeak (Pos fun _ => True) (own d (besides sb d ip)) (Used sb d) := by
  have hown : ∀ x, Pos (fun _ => True) x → own d (besides sb d ip) x ≠ 0 →
      x = (own d (besides sb d ip) x + 1, ⟨0, []⟩) ∧ Used sb d (own d (besides sb d ip) x) := by
    rintro ⟨i, n⟩ ⟨-, hn⟩ hne
    cases i with
    | zero => exact absurd (own_of_addrs_zero hempty) hne
    | succ b =>
      rcases own_besides sb d d ip hn with ⟨heq, hroot, hused⟩ | ⟨heq, -⟩
      · rw [heq]
        exact ⟨congrArg (Prod.mk (b + 1)) hroot, hused⟩
      · exact absurd heq hne
  refine ⟨⟨⟨fun x hx hne => (hown x hx hne).2, fun x y hx hy hne heq => ?_⟩, hreserved⟩,
    fun b hb => ⟨(b + 1, ⟨0, []⟩), ⟨trivial, valid_root 0⟩, if_pos ⟨rfl, hb⟩⟩⟩
  rw [(hown x hx hne).1, heq, ← (hown y hy (by rwa [← heq])).1]

theorem update_besides (ip' : Dinode) : update (besides sb d ip) 0 ip' = besides sb d ip' := by
  funext i
  cases i with
  | zero | succ b => rfl

-- What is in use besides the file is what was in use before.
theorem used_besides (hblocks : Blocks sb (fun _ => True) (besides sb d ip) d')
    (hleak : NoLeak (Pos fun _ => True) (own d' (besides sb d ip)) (Used sb d')) (c : Nat) :
    Used sb d c ↔ Used sb d' c ∧ c ∉ treeBlocks d' ip := by
  have htwo := sb.two_le_dataStart
  constructor
  · intro hused
    have hpos : Pos (fun _ => True) (c + 1, ⟨0, []⟩) := ⟨trivial, valid_root 0⟩
    have hown : own d' (besides sb d ip) (c + 1, ⟨0, []⟩) = c := if_pos ⟨rfl, hused⟩
    have hne : own d' (besides sb d ip) (c + 1, ⟨0, []⟩) ≠ 0 := by
      have hdata := hused.1
      omega
    refine ⟨hown ▸ hblocks.owned.used_of_own _ hpos hne, fun hmem => ?_⟩
    obtain ⟨-, n, hvalid, haddr⟩ := mem_treeBlocks.mp hmem
    have hsame := hblocks.owned.inj (c + 1, ⟨0, []⟩) (0, n) hpos ⟨trivial, hvalid⟩ hne
      (hown.trans haddr.symm)
    cases hsame
  · rintro ⟨hused, hout⟩
    obtain ⟨⟨i, n⟩, ⟨-, hvalid⟩, hown⟩ := hleak c hused
    have hne : c ≠ 0 := by
      have hdata := hused.1
      omega
    cases i with
    | zero => exact absurd (mem_treeBlocks.mpr ⟨hne, n, hvalid, hown⟩) hout
    | succ b =>
      rcases own_besides sb d d' ip hvalid with ⟨heq, -, hused'⟩ | ⟨heq, -⟩
      · rwa [← hown, heq]
      · exact absurd (hown.symm.trans heq) hne

/-- The file `ip` has grown on the disk `d'` out of free blocks of `d`, and nothing else has. -/
structure GrownFrom (sb : Superblock) (d : Disk) (ip : Dinode) (d' : Disk) : Prop where
  blocks : Blocks sb (fun _ => True) (besides sb d ip) d'
  noLeak : NoLeak (Pos fun _ => True) (own d' (besides sb d ip)) (Used sb d')
  boot : BootZero d'

theorem GrownFrom.writeCalls {s : FileState} (h : GrownFrom sb d (s.inodes inum) s.machine.disk)
    (hinum : inum < sb.ninodes) {cs : List WriteCall} (hcs : ∀ c ∈ cs, c.inum = inum) :
    ∃ rs s', writeCalls sb s cs = .ok (rs, s') ∧
      GrownFrom sb d (s'.inodes inum) s'.machine.disk := by
  induction cs generalizing s with
  | nil => exact ⟨[], s, rfl, h⟩
  | cons c cs ih =>
    obtain ⟨i, off, n, src⟩ := c
    have hi : i = inum := hcs _ List.mem_cons_self
    obtain ⟨r, ip', m', hwrite, hblocks, hleak, hboot⟩ :=
      Blocks.writei h.blocks h.noLeak (i := 0) trivial h.boot hinum src off n
    rw [update_besides] at hblocks hleak
    change Kernel.writei sb s.machine inum (s.inodes inum) src off.toNat n.toNat = _ at hwrite
    have hone : writeCall sb s ⟨i, off, n, src⟩ =
        .ok (r, ⟨m', update s.inodes inum ip'⟩) := by
      simp only [writeCall, hi, hwrite]
    have hnext : GrownFrom sb d (update s.inodes inum ip' inum) m'.disk := by
      rw [update_self]
      exact ⟨hblocks, hleak, hboot⟩
    obtain ⟨rs, s', hrest, hgrown⟩ := ih (s := ⟨m', update s.inodes inum ip'⟩) hnext
      fun c hc => hcs c (List.mem_cons_of_mem _ hc)
    refine ⟨r :: rs, s', ?_, hgrown⟩
    simp only [Kernel.writeCalls, hone, hrest]

theorem GrownFrom.restores_iff (h : GrownFrom sb d ip m.disk) (hinum : inum < sb.ninodes)
    (hreserved : Reserved sb d) :
    (∃ ip' m', itrunc sb m inum ip = .ok (ip', m') ∧
      ∀ c < sb.size, bitOf sb m'.disk c = bitOf sb d c) ↔ FullTree m.disk ip := by
  have htree : WellFormedTree sb m.disk ip := h.blocks.wellFormedTree (i := 0) trivial
  constructor
  · rintro ⟨ip', m', hrun, hsame⟩
    by_contra hlacks
    have htwo := sb.two_le_dataStart
    have hle := sb.dataStart_le_size
    have hclear := (htree.itrunc_bootFreed hlacks hinum hrun).2
    rw [hsame 0 (by omega), hreserved 0 (by omega)] at hclear
    cases hclear
  · intro hfull
    obtain ⟨ip', m', hrun, hexact⟩ := (htree.freesExactly_iff hinum).mpr hfull
    refine ⟨ip', m', hrun, fun c hc => ?_⟩
    rw [hexact.bits]
    by_cases hlow : c < sb.dataStart
    · have hout : c ∉ treeBlocks m.disk ip := fun hmem => by
        have hdata := (htree.used_treeBlocks hmem).1
        omega
      rw [h.blocks.reserved c hlow, hreserved c hlow, decide_eq_false hout]
      rfl
    · have hiff := used_besides h.blocks h.noLeak c
      have hdata : sb.dataStart ≤ c := by omega
      simp only [Used, hdata, hc, true_and] at hiff
      rw [Bool.eq_iff_iff, hiff, Bool.and_eq_true, Bool.not_eq_true', decide_eq_false_iff_not]

/-- `itrunc` of a well-formed tree returns having freed the blocks of the inode and no other, in
memory and on disk, exactly when the double-indirect block is absent or has no zero entry.  So
writing a file that has no blocks and truncating it restores the bitmap in the same case. -/
theorem itrunc_frees_exactly_iff (hinum : inum < sb.ninodes) :
    (∀ m ip, WellFormedTree sb m.disk ip →
      ((∃ ip' m', itrunc sb m inum ip = .ok (ip', m') ∧ FreesExactly sb m inum ip ip' m') ↔
        ip.addrs dblSlot = 0 ∨ ∀ j < NINDIRECT, word (m.disk (ip.addrs dblSlot)) j ≠ 0)) ∧
    ∀ (s : FileState) (cs : List WriteCall), (∀ k, (s.inodes inum).addrs k = 0) →
      (∀ b < sb.dataStart, bitOf sb s.machine.disk b = true) → BootZero s.machine.disk →
      (∀ c ∈ cs, c.inum = inum) → ∃ rs s', writeCalls sb s cs = .ok (rs, s') ∧
        ((∃ ip' m', itrunc sb s'.machine inum (s'.inodes inum) = .ok (ip', m') ∧
          ∀ c < sb.size, bitOf sb m'.disk c = bitOf sb s.machine.disk c) ↔
          (s'.inodes inum).addrs dblSlot = 0 ∨ ∀ j < NINDIRECT,
            word (s'.machine.disk ((s'.inodes inum).addrs dblSlot)) j ≠ 0) := by
  refine ⟨fun m ip h => h.freesExactly_iff hinum, fun s cs hempty hreserved hboot hcs => ?_⟩
  obtain ⟨hblocks, hleak⟩ := blocks_besides hempty hreserved
  obtain ⟨rs, s', hrun, hgrown⟩ := GrownFrom.writeCalls ⟨hblocks, hleak, hboot⟩ hinum hcs
  exact ⟨rs, s', hrun, hgrown.restores_iff hinum hreserved⟩

-- A file of one direct block.
theorem itrunc_frees_exactly_oneBlock : ∃ ip' m',
    itrunc mkfsLayout ⟨diskWith mkfsLayout [100], [], []⟩ 7 (oneBlock 3 100) = .ok (ip', m') ∧
      FreesExactly mkfsLayout ⟨diskWith mkfsLayout [100], [], []⟩ 7 (oneBlock 3 100) ip' m' :=
  ((@itrunc_frees_exactly_iff mkfsLayout 7 (by decide)).1 ⟨diskWith mkfsLayout [100], [], []⟩
    (oneBlock 3 100) (wellFormedTree_oneBlock (by decide) (List.mem_singleton.mpr rfl))).mpr
      (.inl (oneBlock_of_ne 100 (by decide)))

theorem itrunc_panics_oneBlock {b : Nat} (hdata : sb.dataStart ≤ b) (hb : b < sb.size)
    (inum : Nat) : itrunc sb ⟨diskWith sb [b], [], []⟩ inum (oneBlock dblSlot b) =
      .error "freeing free block" := by
  have hword : ∀ c, c < sb.bmapstart ∨ sb.dataStart ≤ c → ∀ j, word (diskWith sb [b] c) j = 0 := by
    intro c hc j
    rw [diskWith_of_not_bitmap (fun c' hc' => by rw [List.mem_singleton.mp hc']; exact hb) hc,
      word_zero]
  have hslot := oneBlock_addrs dblSlot b
  have htwo := sb.two_le_dataStart
  have hboot : BootZero (diskWith sb [b]) := hword 0 (.inl sb.bmapstart_pos)
  have habsent : absent (diskWith sb [b]) (oneBlock dblSlot b) = NINDIRECT := by
    rw [absent, hslot, if_neg (by omega), List.countP_eq_length.mpr fun j _ => by
      simpa using hword b (.inr hdata) j]
    exact List.length_range
  have hpanic := @WellFormedTree.itrunc_absent sb ⟨diskWith sb [b], [], []⟩ (oneBlock dblSlot b)
    (wellFormedTree_oneBlock (by simpa using ⟨hdata, hb⟩) (List.mem_singleton.mpr rfl)) hboot inum
  rwa [habsent, if_pos (Nat.le_add_right_of_le (by decide))] at hpanic

/-- A double-indirect block with no second-level block yet: the tree is well formed, and the second
round of the loop frees block 0 for the second time. -/
theorem itrunc_panics_on_absent_second_level :
    WellFormedTree mkfsLayout (diskWith mkfsLayout [100]) (oneBlock dblSlot 100) ∧
      itrunc mkfsLayout ⟨diskWith mkfsLayout [100], [], []⟩ 7 (oneBlock dblSlot 100) =
        .error "freeing free block" :=
  ⟨wellFormedTree_oneBlock (by decide) (List.mem_singleton.mpr rfl),
    itrunc_panics_oneBlock (by decide) (by decide) 7⟩

end OsProjects.Kernel
