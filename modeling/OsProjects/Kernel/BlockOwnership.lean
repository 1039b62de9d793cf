import OsProjects.Kernel.Itable
import OsProjects.Kernel.Format
import OsProjects.Kernel.Packing
import OsProjects.Lib.Reach

/-!
# BlockOwnership — every block in use belongs to exactly one inode

The invariant is about the disk and the inode table together: the trees of all inodes in use are
disjoint, allocated and cover what is marked in the bitmap, and the entries of the table agree with
the disk.  Every call keeps it, except a truncation that meets an absent second-level block.
-/

namespace OsProjects.Kernel

open Lib Function

/-- The tree's contents of the invariant. -/
structure FsInv (sb : Superblock) (s : FsState) : Prop where
  blocks : Blocks sb (Allocated sb s.disk) (getDinode sb s.disk) s.disk
  noLeak : NoLeak (Pos (Allocated sb s.disk)) (own s.disk (getDinode sb s.disk)) (Used sb s.disk)
  boot : BootZero s.disk
  held : ∀ p, 0 < (s.itable p).ref → Allocated sb s.disk (s.itable p).inum
  coherent : ∀ p, 0 < (s.itable p).ref → (s.itable p).valid = true →
    (s.itable p).din = getDinode sb s.disk (s.itable p).inum
  distinct : ∀ p q, 0 < (s.itable p).ref → 0 < (s.itable q).ref →
    (s.itable p).inum = (s.itable q).inum → p = q

variable {sb : Superblock} {s : FsState} {p : Fin NINODE} {i : Nat}

theorem getDinode_uint (sb : Superblock) (d : Disk) (i : Nat) : (getDinode sb d i).Uint := by
  refine ⟨?_, fun k => ?_⟩
  · exact lt_of_lt_of_eq (Buffer.num_lt _ _ _) (by norm_num)
  · exact lt_of_lt_of_eq (Buffer.num_lt _ _ _) (by norm_num)

theorem freshDinode_uint (type : Int16) : (freshDinode type).Uint :=
  ⟨Nat.two_pow_pos 32, fun _ => Nat.two_pow_pos 32⟩

theorem truncated_uint (din : Dinode) : din.truncated.Uint :=
  ⟨Nat.two_pow_pos 32, fun _ => Nat.two_pow_pos 32⟩

/-! ## Writing an inode back -/

section WriteBack

variable {m' : Machine} {i : Nat} {din' : Dinode} (hlow : ∀ c < sb.bmapstart, m'.disk c = s.disk c)
  (huint : din'.Uint)

include hlow huint

theorem getDinode_writeBack {j : Nat} (hj : j < sb.ninodes) :
    getDinode sb (iupdate sb m' i din').disk j =
      update (getDinode sb s.disk) i din' j := by
  by_cases hji : j = i
  · rw [hji, update_self, getDinode_iupdate_self sb m' i huint]
  · rw [update_of_ne hji, getDinode_iupdate_of_ne sb m' din' hji]
    exact getDinode_congr (hlow _ (sb.IBLOCK_lt_bmapstart hj))

omit huint in
theorem bootZero_writeBack (hboot : BootZero s.disk) : BootZero (iupdate sb m' i din').disk := by
  intro k
  rw [iupdate_zero, hlow 0 sb.bmapstart_pos, hboot k]

theorem allocated_writeBack (htype : din'.type ≠ 0 ↔ (getDinode sb s.disk i).type ≠ 0) :
    Allocated sb (iupdate sb m' i din').disk = Allocated sb s.disk := by
  funext j
  apply propext
  refine and_congr_right fun _ => and_congr_right fun hj => ?_
  rw [getDinode_writeBack hlow huint hj]
  by_cases hji : j = i
  · rwa [hji, update_self]
  · rw [update_of_ne hji]

-- The inode is written while no valid entry is for it; its tree has become that of `din₁` on `m'`.
theorem FsInv.rewrite (hinv : FsInv sb s) (halloc : Allocated sb s.disk i)
    (hstale : ∀ q, 0 < (s.itable q).ref → (s.itable q).valid = true → (s.itable q).inum ≠ i)
    (din₁ : Dinode) (haddrs : din'.addrs = din₁.addrs) (htype : din'.type ≠ 0)
    (hblocks : Blocks sb (Allocated sb s.disk) (update (getDinode sb s.disk) i din₁) m'.disk)
    (hleak : NoLeak (Pos (Allocated sb s.disk))
      (own m'.disk (update (getDinode sb s.disk) i din₁)) (Used sb m'.disk)) :
    FsInv sb { s with machine := iupdate sb m' i din' } := by
  have hF : Allocated sb (iupdate sb m' i din').disk = Allocated sb s.disk :=
    allocated_writeBack hlow huint (iff_of_true htype halloc.2.2)
  have hroot : ∀ j, Allocated sb s.disk j → (getDinode sb (iupdate sb m' i din').disk j).addrs =
      (update (getDinode sb s.disk) i din₁ j).addrs := by
    intro j hj
    rw [getDinode_writeBack hlow huint hj.2.1]
    exact update_addrs haddrs ..
  have hhigh := iupdate_high sb m' halloc.2.1 din'
  refine ⟨?_, ?_, bootZero_writeBack hlow hinv.boot, fun q hq => ?_, fun q hq hvalid => ?_,
    hinv.distinct⟩
  · change Blocks sb (Allocated sb (iupdate sb m' i din').disk) _ _
    rw [hF]
    exact hblocks.high hroot hhigh
  · change NoLeak (Pos (Allocated sb (iupdate sb m' i din').disk)) _ _
    rw [hF]
    exact noLeak_high hblocks hroot hhigh hleak
  · change Allocated sb (iupdate sb m' i din').disk _
    rw [hF]
    exact hinv.held q hq
  · change _ = getDinode sb (iupdate sb m' i din').disk _
    rw [getDinode_writeBack hlow huint (hinv.held q hq).2.1, update_of_ne (hstale q hq hvalid)]
    exact hinv.coherent q hq hvalid

end WriteBack

-- An entry changes while the machine is left alone.
theorem FsInv.setEntry (hinv : FsInv sb s) {e : Inode}
    (halloc : 0 < e.ref → Allocated sb s.disk e.inum)
    (hdin : 0 < e.ref → e.valid = true → e.din = getDinode sb s.disk e.inum)
    (hnew : 0 < e.ref → ∀ q ≠ p, 0 < (s.itable q).ref → (s.itable q).inum ≠ e.inum) :
    FsInv sb (s.setInode p e) := by
  refine ⟨hinv.blocks, hinv.noLeak, hinv.boot, ?_, ?_, fun q r hq hr heq => ?_⟩
  · exact (forall_update_iff s.itable fun _ e => 0 < e.ref → Allocated sb s.disk e.inum).mpr
      ⟨halloc, fun q _ => hinv.held q⟩
  · exact (forall_update_iff s.itable fun _ e => 0 < e.ref → e.valid = true →
      e.din = getDinode sb s.disk e.inum).mpr ⟨hdin, fun q _ => hinv.coherent q⟩
  · by_cases hqp : q = p
    · by_cases hrp : r = p
      · rw [hqp, hrp]
      · rw [hqp, FsState.setInode_self] at hq heq
        rw [FsState.setInode_of_ne hrp] at hr heq
        exact absurd heq.symm (hnew hq r hrp hr)
    · rw [FsState.setInode_of_ne hqp] at hq heq
      by_cases hrp : r = p
      · rw [hrp, FsState.setInode_self] at hr heq
        exact absurd heq (hnew hr q hqp hq)
      · rw [FsState.setInode_of_ne hrp] at hr heq
        exact hinv.distinct q r hq hr heq

-- An entry in use changes its count, or loads what the disk has.
theorem FsInv.setInode (hinv : FsInv sb s) (hp : 0 < (s.itable p).ref)
    {e : Inode} (hinum : e.inum = (s.itable p).inum)
    (hdin : e.valid = true → e.din = getDinode sb s.disk e.inum) : FsInv sb (s.setInode p e) :=
  hinv.setEntry (fun _ => hinum ▸ hinv.held p hp) (fun _ => hdin) fun _ q hqp hq heq =>
    hqp (hinv.distinct q p hq hp (heq.trans hinum))

-- The in-memory inode is changed and written back.
theorem FsInv.writeBack (hinv : FsInv sb s) {m' : Machine} {din' : Dinode}
    (hlow : ∀ c < sb.bmapstart, m'.disk c = s.disk c) (huint : din'.Uint)
    (hp : 0 < (s.itable p).ref) (hi : (s.itable p).inum = i) (din₁ : Dinode)
    (haddrs : din'.addrs = din₁.addrs) (htype : din'.type ≠ 0)
    (hblocks : Blocks sb (Allocated sb s.disk) (update (getDinode sb s.disk) i din₁) m'.disk)
    (hleak : NoLeak (Pos (Allocated sb s.disk))
      (own m'.disk (update (getDinode sb s.disk) i din₁)) (Used sb m'.disk)) :
    FsInv sb ({ s with machine := iupdate sb m' i din' }.setInode p
      { s.itable p with din := din' }) := by
  have halloc := hinv.held p hp
  rw [hi] at halloc
  -- the copy in memory is of no use until the disk has it
  have hstale := hinv.setInode hp (e := { s.itable p with valid := false }) rfl nofun
  have hself := s.setInode_self p { s.itable p with valid := false }
  have hwritten := FsInv.rewrite
    (s := s.setInode p { s.itable p with valid := false }) hlow huint hstale
    halloc (fun q hq hvalid => ?_) din₁ haddrs htype hblocks hleak
  · have hdin := hwritten.setInode (p := p) (e := { s.itable p with din := din' }) ?_ ?_ fun _ => ?_
    · exact FsState.setInode_setInode .. ▸ hdin
    · exact hself.symm ▸ hp
    · exact hself.symm ▸ rfl
    · change din' = getDinode sb (iupdate sb m' i din').disk (s.itable p).inum
      rw [hi, getDinode_iupdate_self sb m' i huint]
  · by_cases hqp : q = p
    · rw [hqp, hself] at hvalid
      cases hvalid
    · rw [FsState.setInode_of_ne hqp] at hq ⊢
      exact fun heq => hqp (hinv.distinct q p hq hp (heq.trans hi.symm))

/-! ## Inodes coming and going -/

section Write

variable {i : Nat} {din' : Dinode}

-- An inode without blocks, which no entry is for, is written with another type.
theorem FsInv.retype (hinv : FsInv sb s) (hi : i < sb.ninodes) (huint : din'.Uint)
    (hempty : ∀ k, din'.addrs k = 0)
    (hold : Allocated sb s.disk i → ∀ k, (getDinode sb s.disk i).addrs k = 0)
    (hfree : ∀ q, 0 < (s.itable q).ref → (s.itable q).inum ≠ i) :
    FsInv sb { s with machine := iupdate sb s.machine i din' } := by
  have hget : ∀ {j}, j < sb.ninodes → getDinode sb (iupdate sb s.machine i din').disk j =
      update (getDinode sb s.disk) i din' j :=
    fun hj => getDinode_writeBack (s := s) (fun _ _ => rfl) huint hj
  have hother : ∀ {j}, j ≠ i →
      (Allocated sb (iupdate sb s.machine i din').disk j ↔ Allocated sb s.disk j) := by
    intro j hji
    refine and_congr_right fun _ => and_congr_right fun hj => ?_
    rw [hget hj, update_of_ne hji]
  have hhigh := iupdate_high sb s.machine hi din'
  have hown : ∀ x : Nat × Node, x.1 ≠ i → Pos (Allocated sb s.disk) x →
      own (iupdate sb s.machine i din').disk (getDinode sb (iupdate sb s.machine i din').disk) x =
        own s.disk (getDinode sb s.disk) x := by
    intro x hxi hx
    have hsub : Blocks sb (· = x.1) (getDinode sb s.disk) s.disk :=
      ⟨hinv.blocks.owned.transfer (fun y hy _ => ⟨⟨hy.1 ▸ hx.1, hy.2⟩, rfl⟩) fun _ _ _ => id,
        hinv.blocks.reserved⟩
    apply own_high hsub _ hhigh x ⟨rfl, hx.2⟩
    intro j hj
    rw [hj, hget hx.1.2.1, update_of_ne hxi]
  refine ⟨⟨?_, fun c hc => ?_⟩, fun b hb => ?_,
    bootZero_writeBack (s := s) (fun _ _ => rfl) hinv.boot,
    fun q hq => ?_, fun q hq hvalid => ?_, hinv.distinct⟩
  · refine hinv.blocks.owned.transfer (fun x hx hne => ?_) fun x _ _ hused =>
      (used_high hhigh _).mpr hused
    have hxi : x.1 ≠ i := by
      intro hxi
      refine hne (own_of_addrs_zero ?_)
      change ∀ k, (getDinode sb (iupdate sb s.machine i din').disk x.1).addrs k = 0
      rwa [hget hx.1.2.1, hxi, update_self]
    have hx' : Pos (Allocated sb s.disk) x := ⟨(hother hxi).mp hx.1, hx.2⟩
    exact ⟨hx', hown x hxi hx'⟩
  · exact (bitOf_high hhigh c).trans (hinv.blocks.reserved c hc)
  · have hused := (used_high hhigh b).mp hb
    obtain ⟨x, hx, hxb⟩ := hinv.noLeak b hused
    have hxi : x.1 ≠ i := by
      rintro rfl
      have hdata := hused.1
      have htwo := sb.two_le_dataStart
      rw [own_of_addrs_zero (hold hx.1)] at hxb
      omega
    exact ⟨x, ⟨(hother hxi).mpr hx.1, hx.2⟩, (hown x hxi hx).trans hxb⟩
  · exact (hother (hfree q hq)).mpr (hinv.held q hq)
  · refine (hinv.coherent q hq hvalid).trans ?_
    change _ = getDinode sb (iupdate sb s.machine i din').disk (s.itable q).inum
    rw [hget (hinv.held q hq).2.1, update_of_ne (hfree q hq)]

end Write

-- `ialloc` marks a free inode.
theorem FsInv.ialloc (hinv : FsInv sb s) {type : Int16} (htype : type ≠ 0) (hone : 1 ≤ i)
    (hi : i < sb.ninodes) (hfree : (getDinode sb s.disk i).type = 0) :
    FsInv sb { s with machine := iupdate sb s.machine i (freshDinode type) } ∧
      Allocated sb (iupdate sb s.machine i (freshDinode type)).disk i := by
  have huint := freshDinode_uint type
  refine ⟨hinv.retype hi huint (fun _ => rfl) (fun hno => absurd hfree hno.2.2) fun q hq heq =>
    (hinv.held q hq).2.2 (heq ▸ hfree), hone, hi, ?_⟩
  rwa [getDinode_iupdate_self sb s.machine i huint]

-- `iput` gives an inode without blocks back.
theorem FsInv.free (hinv : FsInv sb s) (hp : 0 < (s.itable p).ref) (din' : Dinode)
    (ip : Inode) (hempty : ∀ k, din'.addrs k = 0) (huint : din'.Uint)
    (hdisk : ∀ k, (getDinode sb s.disk (s.itable p).inum).addrs k = 0) (href : ip.ref = 0) :
    FsInv sb ({ s with machine := iupdate sb s.machine (s.itable p).inum din' }.setInode p ip) := by
  have hzero : ¬ 0 < ip.ref := by omega
  have hinv' := hinv.setEntry (p := p) (e := ip) (absurd · hzero) (absurd · hzero) (absurd · hzero)
  refine hinv'.retype (hinv.held p hp).2.1 huint hempty (fun _ => hdisk) fun q hq heq => ?_
  by_cases hqp : q = p
  · rw [hqp, FsState.setInode_self] at hq
    exact hzero hq
  · rw [FsState.setInode_of_ne hqp] at hq heq
    exact hqp (hinv.distinct q p hq hp heq)

/-! ## Every call keeps the invariant -/

/-- The calls that the code handles as it should: `iget` and `ialloc` find an entry of the table,
and a truncation does not meet an absent second-level block. -/
def Handled (s : FsState) : FsOp → Prop
  | .ialloc _ => ∃ p, (s.itable p).ref = 0
  | .iget inum => HasRoom s inum
  | .itrunc p => FullTree s.disk (s.itable p).din
  | .iput p => (s.itable p).ref = 1 → (s.itable p).valid = true → (s.itable p).din.nlink = 0 →
    FullTree s.disk (s.itable p).din
  | _ => True

theorem FsInv.iget (hinv : FsInv sb s) {inum : Nat} (halloc : Allocated sb s.disk inum)
    (hroom : HasRoom s inum) :
    ∃ p s', s.iget inum = .ok (p, s') ∧ FsInv sb s' ∧ s'.machine = s.machine ∧
      0 < (s'.itable p).ref ∧ (s'.itable p).inum = inum := by
  rcases FsState.iget_cases hroom with ⟨p, hget, href, hinum⟩ | ⟨p, hget, hnew⟩
  · refine ⟨p, _, hget, hinv.setInode href rfl (hinv.coherent p href), rfl, ?_, ?_⟩
    · rw [FsState.setInode_self]
      exact Nat.succ_pos _
    · rwa [FsState.setInode_self]
  · have hinv' := hinv.setEntry (p := p)
      (e := { s.itable p with inum := inum, ref := 1, valid := false })
      (fun _ => halloc) nofun fun _ q _ hq => (hnew q hq).2
    refine ⟨p, _, hget, hinv', rfl, ?_, ?_⟩
    · rw [FsState.setInode_self]
      exact Nat.one_pos
    · rw [FsState.setInode_self]

theorem FsInv.ilock (hinv : FsInv sb s) (hp : 0 < (s.itable p).ref) :
    ∃ s', s.ilock sb p = .ok s' ∧ FsInv sb s' ∧ s'.machine = s.machine ∧
      s'.itable p = { s.itable p with
        valid := true, din := getDinode sb s.disk (s.itable p).inum } := by
  unfold FsState.ilock
  rw [if_neg (by omega)]
  cases hvalid : (s.itable p).valid with
  | false =>
    rw [if_pos rfl, if_neg (hinv.held p hp).2.2]
    refine ⟨_, rfl, hinv.setInode hp rfl fun _ => rfl, rfl, ?_⟩
    rw [FsState.setInode_self]
  | true =>
    refine ⟨s, by simp, hinv, rfl, ?_⟩
    rw [← hinv.coherent p hp hvalid, ← hvalid]

-- The addresses of an inode whose tree is in order are block numbers.
theorem Blocks.addrs_lt {F : Nat → Prop} {ino : Nat → Dinode} {d : Disk} (h : Blocks sb F ino d)
    (hi : F i) (k : Fin (NDIRECT + 2)) : (ino i).addrs k < 2 ^ 32 := by
  have hint := sb.int_size
  by_cases hzero : (ino i).addrs k = 0
  · rw [hzero]
    decide
  · have hdata := h.data_of_own (⟨hi, valid_root k⟩ : Pos F (i, ⟨k, []⟩)) hzero
    change _ ≤ (ino i).addrs k ∧ (ino i).addrs k < _ at hdata
    omega

theorem FsInv.writei (hinv : FsInv sb s) (hp : 0 < (s.itable p).ref)
    (hvalid : (s.itable p).valid = true) (src : Source) (off n : UInt32) :
    ∃ s', fsStep sb s (.writei p src off n) = .ok s' ∧ FsInv sb s' := by
  have hdin := hinv.coherent p hp hvalid
  have halloc := hinv.held p hp
  by_cases href : Refused (s.itable p).din.size off.toNat n.toNat
  · refine ⟨s.setInode p (s.itable p), ?_, hinv.setInode hp rfl fun _ => hdin⟩
    simp only [fsStep, writei_refused _ _ _ _ _ href]
  obtain ⟨hoff, hfit⟩ := not_refused n.toNat_lt href
  obtain ⟨tot, off', din1, m', hloop, hoff', -⟩ := writeiLoop_total sb src n.toNat 0
    off.toNat (s.itable p).din s.machine (by omega)
  refine ⟨({ s with machine := iupdate sb m' (s.itable p).inum (grown din1 off') }).setInode p
    { s.itable p with din := grown din1 off' }, ?_, ?_⟩
  · simp only [fsStep, writei_eq _ _ _ _ _ href, hloop, Except.map]
  rw [hdin] at hloop
  obtain ⟨data, hlooped⟩ := writeiLoop_spec hinv.blocks halloc (by omega) hloop (.inl hinv.boot)
  have hwrote := hlooped.wrote
  have hsize := (getDinode_uint sb s.disk (s.itable p).inum).size
  have huint : (grown din1 off').Uint := by
    refine ⟨?_, fun k => ?_⟩
    · rw [grown_size, hwrote.fields]
      simp only [MAXFILE, BSIZE, NDIRECT, NINDIRECT, DOUBLEINDIRECT] at hfit
      exact max_lt hsize (by omega)
    · have hlt := hwrote.blocks.addrs_lt halloc k
      rw [update_self] at hlt
      rwa [grown_addrs]
  have htype : (grown din1 off').type ≠ 0 := by
    have hsame : (grown din1 off').type = din1.type := by
      unfold grown
      split <;> rfl
    rw [hsame, hwrote.fields]
    exact halloc.2.2
  exact hinv.writeBack hwrote.low huint hp rfl _ (grown_addrs _ _) htype hwrote.blocks
    (hwrote.noLeak hinv.noLeak)

-- What `itrunc` of a full tree leaves, in memory and on the disk.
theorem FsInv.itrunc (hinv : FsInv sb s) (hp : 0 < (s.itable p).ref)
    (hvalid : (s.itable p).valid = true) (hfull : FullTree s.disk (s.itable p).din) :
    ∃ m, itrunc sb s.machine (s.itable p).inum (s.itable p).din =
        .ok ((s.itable p).din.truncated, m) ∧
      FsInv sb ({ s with machine := m }.setInode p
        { s.itable p with din := (s.itable p).din.truncated }) := by
  have hdin := hinv.coherent p hp hvalid
  have halloc := hinv.held p hp
  rw [hdin] at hfull ⊢
  obtain ⟨m', htrunc, htruncated, -⟩ := hinv.blocks.itrunc_fullTree halloc hfull
    (s.itable p).inum
  exact ⟨_, htrunc, hinv.writeBack htruncated.low (truncated_uint _) hp rfl _ rfl halloc.2.2
    htruncated.blocks (htruncated.noLeak hinv.noLeak)⟩

theorem FsInv.iput (hinv : FsInv sb s) (hp : 0 < (s.itable p).ref)
    (hfull : (s.itable p).ref = 1 → (s.itable p).valid = true → (s.itable p).din.nlink = 0 →
      FullTree s.disk (s.itable p).din) :
    ∃ s', s.iput sb p = .ok s' ∧ FsInv sb s' := by
  unfold FsState.iput
  by_cases hlast : (s.itable p).ref = 1 ∧ (s.itable p).valid = true ∧ (s.itable p).din.nlink = 0
  · obtain ⟨href, hvalid, hnlink⟩ := hlast
    obtain ⟨m, htrunc, hinv'⟩ := hinv.itrunc hp hvalid (hfull href hvalid hnlink)
    simp only [href, hvalid, hnlink, and_self, if_true, htrunc]
    refine ⟨_, rfl, ?_⟩
    -- the truncated inode is written back once more, now with type 0
    have hself : ({ s with machine := m }.setInode p
        { s.itable p with din := (s.itable p).din.truncated }).itable p =
        { s.itable p with din := (s.itable p).din.truncated } := by
      rw [FsState.setInode_self]
    have hp' : 0 < (({ s with machine := m }.setInode p
        { s.itable p with din := (s.itable p).din.truncated }).itable p).ref := by
      rwa [hself]
    have hdisk := hinv'.coherent p hp' (by rw [hself]; exact hvalid)
    have huint := truncated_uint (s.itable p).din
    have hfreed := hinv'.free hp' { (s.itable p).din.truncated with type := 0 }
      { s.itable p with
        ref := 0, valid := false, din := { (s.itable p).din.truncated with type := 0 } }
      (fun _ => rfl) ⟨huint.size, huint.addrs⟩ (fun k => by rw [← hdisk, hself]; rfl) rfl
    rw [hself] at hfreed
    exact FsState.setInode_setInode .. ▸ hfreed
  · simp only [if_neg hlast]
    exact ⟨_, rfl, hinv.setInode hp rfl (hinv.coherent p hp)⟩

theorem fsStep_handled (hinv : FsInv sb s) {op : FsOp} (hcalls : Calls sb s op)
    (hhandled : Handled s op) : ∃ s', fsStep sb s op = .ok s' ∧ FsInv sb s' := by
  cases op with
  | ialloc type =>
    simp only [fsStep, FsState.ialloc]
    cases hfind : s.findFreeInode sb with
    | none => exact ⟨_, rfl, ⟨hinv.blocks, hinv.noLeak, hinv.boot, hinv.held, hinv.coherent,
        hinv.distinct⟩⟩
    | some i =>
      obtain ⟨hone, hi, hfree⟩ := FsState.findFreeInode_some hfind
      obtain ⟨hinv', halloc⟩ := hinv.ialloc hcalls hone hi hfree
      obtain ⟨p, s', hget, hinv'', -⟩ := hinv'.iget halloc (.inr hhandled)
      exact ⟨s', by simp only [hget, Except.map], hinv''⟩
  | iget inum =>
    obtain ⟨p, s', hget, hinv', -⟩ := hinv.iget hcalls hhandled
    exact ⟨s', by simp only [fsStep, hget, Except.map], hinv'⟩
  | idup p => exact ⟨_, rfl, hinv.setInode hcalls rfl (hinv.coherent p hcalls)⟩
  | ilock p =>
    obtain ⟨s', hlock, hinv', -⟩ := hinv.ilock hcalls
    exact ⟨s', hlock, hinv'⟩
  | writei p src off n => exact hinv.writei hcalls.1 hcalls.2 src off n
  | itrunc p =>
    obtain ⟨m, htrunc, hinv'⟩ := hinv.itrunc hcalls.1 hcalls.2 hhandled
    exact ⟨_, by simp only [fsStep, htrunc], hinv'⟩
  | setNlink p nlink =>
    have hdin := hinv.coherent p hcalls.1 hcalls.2
    have huint := getDinode_uint sb s.disk (s.itable p).inum
    refine ⟨_, rfl, hinv.writeBack (fun _ _ => rfl) ?_ hcalls.1 rfl
      (s.itable p).din rfl ?_ ?_ ?_⟩
    · rw [hdin]
      exact ⟨huint.size, huint.addrs⟩
    · rw [hdin]
      exact (hinv.held p hcalls.1).2.2
    · rw [hdin, update_eq_self]
      exact hinv.blocks
    · rw [hdin, update_eq_self]
      exact hinv.noLeak
  | iput p => exact hinv.iput hcalls hhandled

/-! ## Runs -/

/-- Inodes in use and blocks marked in the bitmap match: `once` and `marked` say that a block of an
inode occurs once and is a marked data block, `covered` that a marked data block is a block of
exactly one inode, `reserved` that everything before the data area stays marked. -/
structure Partition (sb : Superblock) (d : Disk) : Prop where
  once : ∀ x y, Pos (Allocated sb d) x → Pos (Allocated sb d) y → own d (getDinode sb d) x ≠ 0 →
    own d (getDinode sb d) x = own d (getDinode sb d) y → x = y
  marked : ∀ x, Pos (Allocated sb d) x → own d (getDinode sb d) x ≠ 0 →
    sb.dataStart ≤ own d (getDinode sb d) x ∧ own d (getDinode sb d) x < sb.size ∧
      bitOf sb d (own d (getDinode sb d) x) = true
  covered : ∀ b, sb.dataStart ≤ b → b < sb.size → bitOf sb d b = true →
    ∃! i, Allocated sb d i ∧ ∃ n : Node, n.Valid ∧ own d (getDinode sb d) (i, n) = b
  reserved : ∀ b < sb.dataStart, bitOf sb d b = true

/-- A formatted disk, with no inode in memory.  Formatting leaves the boot block zero. -/
structure Formatted (sb : Superblock) (s : FsState) : Prop where
  partition : Partition sb s.disk
  boot : BootZero s.disk
  unused : ∀ p, (s.itable p).ref = 0

theorem Formatted.inv (h : Formatted sb s) : FsInv sb s := by
  have hidle : ∀ p, ¬ 0 < (s.itable p).ref := fun p hp => by
    rw [h.unused p] at hp
    omega
  refine ⟨⟨⟨h.partition.marked, h.partition.once⟩, h.partition.reserved⟩, ?_, h.boot,
    fun p hp => absurd hp (hidle p), fun p hp => absurd hp (hidle p),
    fun p _ hp => absurd hp (hidle p)⟩
  rintro b ⟨hlo, hhi, hset⟩
  obtain ⟨i, ⟨halloc, n, hvalid, hown⟩, -⟩ := h.partition.covered b hlo hhi hset
  exact ⟨(i, n), ⟨halloc, hvalid⟩, hown⟩

theorem FsInv.partition (h : FsInv sb s) : Partition sb s.disk := by
  refine ⟨h.blocks.owned.inj, h.blocks.owned.used_of_own, fun b hlo hhi hset => ?_,
    h.blocks.reserved⟩
  obtain ⟨⟨i, n⟩, hx, hown⟩ := h.noLeak b ⟨hlo, hhi, hset⟩
  refine ⟨i, ⟨hx.1, n, hx.2, hown⟩, ?_⟩
  rintro j ⟨halloc, n', hvalid, hown'⟩
  have htwo := sb.two_le_dataStart
  have hsame := h.blocks.owned.inj (j, n') (i, n) ⟨halloc, hvalid⟩ hx (by rw [hown']; omega)
    (hown'.trans hown.symm)
  exact (Prod.mk.inj hsame).1

/-- In a run of calls that the code handles, blocks in use and inodes match in every state, and no
such call panics. -/
theorem blocks_partitioned {s₀ : FsState} (hformat : Formatted sb s₀)
    (hreach : Reach (fsStep sb) (fun s op => Calls sb s op ∧ Handled s op) s₀ s) :
    Partition sb s.disk ∧
      ∀ op, Calls sb s op → Handled s op → ∃ s', fsStep sb s op = .ok s' := by
  have hinv : FsInv sb s := hreach.invariant hformat.inv fun t op t' hinv hallowed hstep => by
    obtain ⟨t'', hok, hinv'⟩ := fsStep_handled hinv hallowed.1 hallowed.2
    rw [hok] at hstep
    cases hstep
    exact hinv'
  refine ⟨hinv.partition, fun op hcalls hhandled => ?_⟩
  obtain ⟨s', hok, -⟩ := fsStep_handled hinv hcalls hhandled
  exact ⟨s', hok⟩

/-- A fresh disk and an unused inode table. -/
def freshState (sb : Superblock) : FsState :=
  ⟨⟨blankDisk sb, [], []⟩, fun _ => ⟨0, 0, false, freshDinode 0⟩⟩

theorem getDinode_blankDisk (sb : Superblock) (hi : i < sb.ninodes) :
    getDinode sb (blankDisk sb) i = freshDinode 0 := by
  have hzero : blankDisk sb (IBLOCK sb i) = Buffer.zero :=
    blankDisk_low sb (sb.IBLOCK_lt_bmapstart hi)
  unfold getDinode freshDinode
  simp only [hzero, Buffer.num_zero]
  rfl

theorem freshState_formatted (sb : Superblock) : Formatted sb (freshState sb) := by
  have hnone : ∀ i, ¬ Allocated sb (freshState sb).disk i := by
    rintro i ⟨-, hi, hne⟩
    exact hne (congrArg Dinode.type (getDinode_blankDisk sb hi))
  refine ⟨⟨fun x _ hx => absurd hx.1 (hnone x.1), fun x hx => absurd hx.1 (hnone x.1),
    fun b hlo hhi hset => ?_, fun b hb => ?_⟩, fun j => ?_, fun _ => rfl⟩
  · exact absurd ⟨hlo, hhi, hset⟩ (not_used_blankDisk sb b)
  · exact (bitOf_blankDisk sb b).trans (decide_eq_true hb)
  · change word (blankDisk sb 0) j = 0
    rw [blankDisk_low sb sb.bmapstart_pos, word_zero]

instance (s : FsState) (op : FsOp) : Decidable (Calls sb s op ∧ Handled s op) := by
  cases op <;> (unfold Calls Handled; try unfold Allocated HasRoom) <;> infer_instance

-- Three blocks are allocated and freed by the truncation, then one is allocated again.
theorem blocks_partitioned_rewritten :
    ∃ s, Reach (fsStep mkfsLayout) (fun s op => Calls mkfsLayout s op ∧ Handled s op)
        (freshState mkfsLayout) s ∧
      (s.itable 0).din.addrs 0 ≠ 0 ∧ (s.itable 0).din.addrs 1 = 0 ∧
      Partition mkfsLayout s.disk := by
  obtain ⟨s, hreach, h⟩ := exists_reach_of_follow (fsStep mkfsLayout)
    (fun s op => Calls mkfsLayout s op ∧ Handled s op) (freshState mkfsLayout)
    [.ialloc 2, .ilock 0, .writei 0 (fun _ => some 7) 0 3000, .itrunc 0,
      .writei 0 (fun _ => some 7) 0 3]
    (fun s => (s.itable 0).din.addrs 0 ≠ 0 ∧ (s.itable 0).din.addrs 1 = 0) (by decide +kernel)
  obtain ⟨hfirst, hsecond⟩ := of_decide_eq_true h
  exact ⟨s, hreach, hfirst, hsecond,
    (blocks_partitioned (freshState_formatted mkfsLayout) hreach).1⟩

/-! ## A truncation that panics -/

/-- Every block below the double-indirect slots, and the first byte of it. -/
def oneIntoDouble : UInt32 := 273409

-- The first byte in the double-indirect range brings one second-level block.
theorem FsInv.writei_oneIntoDouble (hinv : FsInv sb s)
    (hp : 0 < (s.itable p).ref) (hvalid : (s.itable p).valid = true)
    (hsize : (s.itable p).din.size = 0) (hempty : ∀ k, (s.itable p).din.addrs k = 0)
    (hfree : ∀ c, sb.dataStart ≤ c → c < sb.size → bitOf sb s.disk c = false)
    (hroom : 271 ≤ sb.nblocks) :
    ∃ s', fsStep sb s (.writei p (fun _ => some 1) 0 oneIntoDouble) = .ok s' ∧ FsInv sb s' ∧
      0 < (s'.itable p).ref ∧ (s'.itable p).valid = true ∧
      Packed s'.disk (s'.itable p).din 271 := by
  have halloc := hinv.held p hp
  have htree := hinv.blocks.wellFormedTree halloc
  rw [← hinv.coherent p hp hvalid] at htree
  have hpacked : Packed s.disk (s.itable p).din 0 := fun n _ => iff_of_true
    (@own_of_addrs_zero (fun _ => (s.itable p).din) _ (0, n) hempty) (Nat.zero_le _)
  have hcount : 271 ≤ (freeBlocks sb s.disk).length := by
    refine hroom.trans (le_of_eq_of_le List.length_range'.symm (List.subperm_of_subset
      (List.nodup_range' (s := sb.dataStart)) fun c hc => ?_).length_le)
    have hle : sb.nblocks ≤ sb.size := (Nat.le_add_left _ _).trans sb.data_after_bitmap
    have hdef : sb.dataStart = sb.size - sb.nblocks := rfl
    obtain ⟨hlo, hhi⟩ := List.mem_range'_1.mp hc
    exact mem_freeBlocks.mpr ⟨by omega, hfree c hlo (by omega)⟩
  have href : ¬ Refused (s.itable p).din.size (0 : UInt32).toNat oneIntoDouble.toNat := by
    rw [hsize]
    decide
  obtain ⟨r, ip', m', hrun⟩ := writei_returns sb s.machine (s.itable p).inum (s.itable p).din
    (fun _ => some 1) oneIntoDouble.toNat_lt href
  obtain ⟨s', hstep, hinv'⟩ := hinv.writei hp hvalid (fun _ => some 1) 0 oneIntoDouble
  have hs' := hstep
  simp only [fsStep, hrun, Except.ok.injEq] at hs'
  subst hs'
  refine ⟨_, hstep, hinv', by rwa [FsState.setInode_self], by rwa [FsState.setInode_self], ?_⟩
  rw [FsState.setInode_self]
  exact (hpacked.writei htree hinv.blocks.reserved hinv.boot halloc.2.1 oneIntoDouble.toNat_lt
    (by rw [hsize]; decide) (fun _ _ => by simp) hrun
    (show 271 = 0 + min 271 _ from (congrArg (0 + ·) (min_eq_left hcount)).symm)).1

/-- On a fresh disk: allocate an inode, lock it, write one byte more than direct and single-indirect
blocks hold, truncate it.  The second absent second-level block is freed as block 0 once more. -/
theorem itrunc_panics_on_partial_tree :
    ∃ s p, Formatted mkfsLayout (freshState mkfsLayout) ∧
      Reach (fsStep mkfsLayout) (Calls mkfsLayout) (freshState mkfsLayout) s ∧
      Calls mkfsLayout s (.itrunc p) ∧
      fsStep mkfsLayout s (.itrunc p) = .error "freeing free block" := by
  have hformat := freshState_formatted mkfsLayout
  have hinv0 := hformat.inv
  have hfind : (freshState mkfsLayout).findFreeInode mkfsLayout = some 1 := by decide +kernel
  obtain ⟨hone, hi, hfree⟩ := FsState.findFreeInode_some hfind
  obtain ⟨hinv1, halloc⟩ := hinv0.ialloc (show (2 : Int16) ≠ 0 by decide) hone hi hfree
  obtain ⟨p, s1, hget, hinv1, hmachine1, hp1, hinum1⟩ :=
    hinv1.iget halloc (.inr ⟨0, rfl⟩)
  have hstep1 : fsStep mkfsLayout (freshState mkfsLayout) (.ialloc 2) = .ok s1 := by
    simp only [fsStep, FsState.ialloc, hfind, hget, Except.map]
  have hcalls1 : Calls mkfsLayout (freshState mkfsLayout) (.ialloc 2) := by
    change (2 : Int16) ≠ 0
    decide
  have hreach1 := Reach.init.step hcalls1 hstep1
  obtain ⟨s2, hlock, hinv2, hmachine2, hentry⟩ := hinv1.ilock hp1
  have hcalls2 : Calls mkfsLayout s1 (.ilock p) := hp1
  have hreach2 := hreach1.step hcalls2 hlock
  have hdisk : s2.disk = (iupdate mkfsLayout (freshState mkfsLayout).machine 1
      (freshDinode 2)).disk := by
    rw [FsState.disk, hmachine2, hmachine1]
  have hdin : (s2.itable p).din = freshDinode 2 := by
    rw [hentry, hinum1, FsState.disk, hmachine1]
    exact getDinode_iupdate_self _ _ _ (freshDinode_uint 2)
  have hp2 : 0 < (s2.itable p).ref := by
    rwa [hentry]
  have hvalid2 : (s2.itable p).valid = true := by rw [hentry]
  obtain ⟨s3, hwrite, hinv3, hp3, hvalid3, hpacked⟩ := hinv2.writei_oneIntoDouble hp2 hvalid2
    (by rw [hdin]; rfl) (fun k => by rw [hdin]; rfl)
    (fun c hlo _ => by
      rw [hdisk, bitOf_high (iupdate_high _ _ hi _)]
      exact (bitOf_blankDisk _ _).trans (decide_eq_false (by omega)))
    (by decide)
  have hcalls3 : Calls mkfsLayout s2 (.writei p (fun _ => some 1) 0 oneIntoDouble) := ⟨hp2, hvalid2⟩
  have hreach3 := hreach2.step hcalls3 hwrite
  refine ⟨s3, p, hformat, hreach3, ⟨hp3, hvalid3⟩, ?_⟩
  have htree3 := hinv3.blocks.wellFormedTree (hinv3.held p hp3)
  rw [← hinv3.coherent p hp3 hvalid3] at htree3
  have hpanic := htree3.itrunc_absent hinv3.boot (s3.itable p).inum
  have habsent : absent s3.machine.disk (s3.itable p).din = 255 := hpacked.absent
  rw [habsent, if_pos (Nat.le_add_right_of_le (by decide))] at hpanic
  simp only [fsStep, hpanic]

end OsProjects.Kernel
