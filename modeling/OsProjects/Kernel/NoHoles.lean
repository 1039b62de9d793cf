import OsProjects.Kernel.FileArray
import OsProjects.Kernel.WriteRounds

/-!
# NoHoles — files written with `writei` have no holes, so that reading them allocates nothing

A write may end early, for want of blocks or because its source faults; the size then covers what
was written before, and every block below the size is in the tree.
-/

namespace OsProjects.Kernel

open Lib Function

/-! ## Mapped blocks -/

-- An absent block has nothing below it.
theorem foldl_entry_zero (d : Disk) (js : List Nat) : js.foldl (entry d) 0 = 0 := by
  induction js with
  | nil => rfl
  | cons j js ih => rwa [List.foldl_cons, entry, if_pos rfl]

-- A block at a node means blocks at the nodes above it.
theorem addr_ne_zero_of_prefix {d : Disk} {din : Dinode} {slot : Fin (NDIRECT + 2)}
    {q q' : List Nat} (h : q <+: q') (hne : addr d din ⟨slot, q'⟩ ≠ 0) :
    addr d din ⟨slot, q⟩ ≠ 0 := by
  obtain ⟨r, rfl⟩ := h
  intro hzero
  change q.foldl (entry d) (din.addrs slot) = 0 at hzero
  rw [addr, List.foldl_append, hzero, foldl_entry_zero] at hne
  exact hne rfl

theorem Node.OnPath.addr_ne_zero {d : Disk} {din : Dinode} {n : Node} {bn : Nat} (h : n.OnPath bn)
    (hne : addr d din (leafNode bn) ≠ 0) : addr d din n ≠ 0 := by
  obtain ⟨slot, q⟩ := n
  obtain ⟨hslot, hq⟩ := h
  change slot = _ at hslot
  rw [hslot]
  exact addr_ne_zero_of_prefix hq hne

theorem bmapEntries_mapped (sb : Superblock) (m : Machine) {a : Nat} {js : List Nat}
    (hne : js.foldl (entry m.disk) a ≠ 0) :
    bmapEntries sb m a js = (js.foldl (entry m.disk) a, m) := by
  induction js generalizing a with
  | nil => rfl
  | cons j js ih =>
    have hentry : entry m.disk a j ≠ 0 := fun hzero =>
      hne (by rw [List.foldl_cons, hzero, foldl_entry_zero])
    have hword : bmapEntry sb m a j = (entry m.disk a j, m) := by
      unfold entry at hentry ⊢
      split at hentry
      · exact absurd rfl hentry
      · rw [bmapEntry, if_neg hentry, if_neg ‹_›]
    rw [bmapEntries, hword]
    exact ih hne

-- `bmap` of a mapped block looks the address up and does nothing else.
theorem bmap_mapped (sb : Superblock) (m : Machine) (ip : Dinode) {bn : Nat} (hbn : bn < MAXFILE)
    (hne : addr m.disk ip (leafNode bn) ≠ 0) :
    bmap sb m ip bn = .ok (addr m.disk ip (leafNode bn), ip, m) := by
  have hroot : ip.addrs (leafNode bn).slot ≠ 0 := addr_ne_zero_of_prefix List.nil_prefix hne
  rw [bmap_eq sb m ip hbn, bmapSlot, if_neg hroot]
  simp only [if_neg hroot, bmapEntries_mapped sb m hne]
  rfl

/-! ## `readi` -/

theorem readiLoop_mapped (sb : Superblock) (dst : Dest) (n : Nat) (ip : Dinode) (m : Machine)
    {tot off : Nat} (out : List UInt8) (hfit : off + (n - tot) ≤ MAXFILE * BSIZE)
    (hmapped : ∀ bn, bn * BSIZE < off + (n - tot) → addr m.disk ip (leafNode bn) ≠ 0) :
    ∃ ret out', readiLoop sb dst n tot off ip m out = .ok (ret, out', ip, m) := by
  induction hrem : n - tot using Nat.strong_induction_on generalizing tot off out with
  | _ rem ih =>
    unfold readiLoop
    by_cases htot : tot < n
    swap
    · rw [dif_neg htot]
      exact ⟨_, _, rfl⟩
    have hbn : off / BSIZE < MAXFILE := block_lt_MAXFILE (by omega)
    have hne : addr m.disk ip (leafNode (off / BSIZE)) ≠ 0 := by
      apply hmapped
      have hdiv := Nat.div_mul_le_self off BSIZE
      omega
    have hpos := chunk_pos off htot
    have hle := chunk_le n tot off
    rcases hcopy : eitherCopyout dst tot ((m.disk (addr m.disk ip (leafNode (off / BSIZE)))).slice
      (off % BSIZE) (chunk n tot off)) with ⟨moved, ok⟩
    simp only [dif_pos htot, bmap_mapped sb m ip hbn hne, if_neg hne, hcopy]
    cases ok with
    | false => exact ⟨-1, out ++ moved, rfl⟩
    | true =>
      exact ih (n - (tot + chunk n tot off)) (by omega) (out ++ moved) (by omega)
        (fun bn hlt => hmapped bn (by omega)) rfl

/-- Below its size the file has no hole. -/
def Filled (d : Disk) (ip : Dinode) : Prop :=
  ∀ bn, bn * BSIZE < ip.size → addr d ip (leafNode bn) ≠ 0

-- Reading such a file changes neither the inode nor the machine.
theorem readi_filled (sb : Superblock) (m : Machine) {ip : Dinode}
    (hsize : ip.size ≤ MAXFILE * BSIZE) (hfilled : Filled m.disk ip) (dst : Dest) (off : Nat)
    {n : Nat} (hn : n < 2 ^ 32) : ∃ ret out, readi sb m ip dst off n = .ok (ret, out, ip, m) := by
  by_cases href : off > ip.size ∨ (off + n) % 2 ^ 32 < off
  · exact ⟨0, [], readi_refused sb m ip dst href⟩
  rw [readi_eq sb m ip dst hn href]
  exact readiLoop_mapped sb dst _ ip m [] (by omega) fun bn hlt => hfilled bn (by omega)

/-! ## Sequences of writes -/

variable {sb : Superblock} {F : Nat → Prop} {s : FileState}

/-- A call of `writei`; the source may fault. -/
structure WriteCall where
  inum : Nat
  off : UInt32
  n : UInt32
  src : Source

def writeCall (sb : Superblock) (s : FileState) (c : WriteCall) : Except String (Int × FileState) :=
  match writei sb s.machine c.inum (s.inodes c.inum) c.src c.off.toNat c.n.toNat with
  | .error e => .error e
  | .ok (ret, ip, m) => .ok (ret, ⟨m, update s.inodes c.inum ip⟩)

def writeCalls (sb : Superblock) : FileState → List WriteCall → Except String (List Int × FileState)
  | s, [] => .ok ([], s)
  | s, c :: cs =>
    match writeCall sb s c with
    | .error e => .error e
    | .ok (r, s) =>
      match writeCalls sb s cs with
      | .error e => .error e
      | .ok (rs, s) => .ok (r :: rs, s)

/-- The trees of the family are in order, and its files have no holes. -/
structure Whole (sb : Superblock) (F : Nat → Prop) (s : FileState) : Prop where
  family : Family sb F s
  boot : BootZero s.machine.disk
  filled : ∀ i, F i → Filled s.machine.disk (s.inodes i)

theorem Whole.writeCall (h : Whole sb F s) {c : WriteCall} (hc : F c.inum) :
    ∃ r s', writeCall sb s c = .ok (r, s') ∧ Whole sb F s' := by
  obtain ⟨i, off, n, src⟩ := c
  have hc : F i := hc
  unfold Kernel.writeCall
  by_cases href : Refused (s.inodes i).size off.toNat n.toNat
  · refine ⟨-1, s, ?_, h⟩
    simp only [writei_refused _ _ _ _ _ href, update_eq_self]
  obtain ⟨hoff, hfit⟩ := not_refused n.toNat_lt href
  obtain ⟨tot, off', din', m', hloop, hoff', -⟩ := writeiLoop_total sb src n.toNat 0 off.toNat
    (s.inodes i) s.machine (by omega)
  obtain ⟨data, hlooped⟩ := writeiLoop_spec h.family.blocks hc (by omega) hloop (Or.inl h.boot)
  have hblocks := h.family.blocks
  obtain ⟨rfl, hend⟩ := writeiLoop_ends h.boot hfit
    (served_zero src off.toNat (hblocks.wellFormedTree hc) hblocks.reserved) (Nat.zero_le _)
    (fun _ => .inl rfl) hloop
  have hfamily := h.family.written hc hlooped.wrote (hoff'.trans hfit)
  refine ⟨tot, _, ?_, hfamily, (hlooped.wrote.bootZero h.boot).iupdate sb i _,
    fun j hj bn hlt => ?_⟩
  · simp only [writei_eq _ _ _ _ _ href, hloop, Except.map]
  · have hbn : bn < MAXFILE :=
      Nat.lt_of_mul_lt_mul_right (lt_of_lt_of_le hlt (hfamily.size j hj))
    have hpos : Pos F (j, leafNode bn) := ⟨hj, leafNode_valid hbn⟩
    show own _ _ (j, leafNode bn) ≠ 0
    rw [own_high hlooped.wrote.blocks (fun j _ => update_addrs (grown_addrs ..) s.inodes i j)
      (iupdate_high sb m' (h.family.inum i hc) _) _ hpos]
    dsimp only at hlt
    -- below the old size, or passed by the loop
    by_cases hold : bn * BSIZE < (s.inodes j).size
    · rw [hlooped.wrote.keep _ hpos (h.filled j hj bn hold)]
      exact h.filled j hj bn hold
    · by_cases hji : j = i
      · subst hji
        have hsize : din'.size = (s.inodes j).size := by rw [hlooped.wrote.fields]
        rw [update_self, grown_size, hsize, lt_max_iff] at hlt
        have hleaf := hend.leaves hfit (show bn * BSIZE - off.toNat < tot by omega)
        rw [Nat.add_sub_of_le (by omega), Nat.mul_div_cancel _ (by decide)] at hleaf
        rwa [own, update_self]
      · rw [update_of_ne hji] at hlt
        exact absurd hlt hold

theorem Whole.writeCalls (h : Whole sb F s) {cs : List WriteCall}
    (hcs : ∀ c ∈ cs, F c.inum) : ∃ rs s', writeCalls sb s cs = .ok (rs, s') ∧ Whole sb F s' := by
  induction cs generalizing s with
  | nil => exact ⟨[], s, rfl, h⟩
  | cons c cs ih =>
    obtain ⟨r, s1, hone, h1⟩ := h.writeCall (hcs c (by simp))
    obtain ⟨rs, s2, hrest, h2⟩ := ih h1 fun c' hc' => hcs c' (by simp [hc'])
    refine ⟨r :: rs, s2, ?_, h2⟩
    simp only [Kernel.writeCalls, hone, hrest]

-- Fresh inodes on a formatted disk.
theorem whole_fresh (hinum : ∀ i, F i → i < sb.ninodes)
    (hfresh : ∀ i, F i → (s.inodes i).size = 0 ∧ ∀ k, (s.inodes i).addrs k = 0)
    (hused : Reserved sb s.machine.disk)
    (hzero : s.machine.disk 0 = Buffer.zero) : Whole sb F s := by
  have hown : ∀ x, Pos F x → own s.machine.disk s.inodes x = 0 := fun x hx =>
    own_of_addrs_zero (hfresh x.1 hx.1).2
  refine ⟨⟨hinum, fun i hi => ?_, ⟨⟨fun x hx hne => absurd (hown x hx) hne,
    fun x y hx _ hne => absurd (hown x hx) hne⟩, hused⟩⟩, fun j => ?_, fun i hi bn hlt => ?_⟩
  · rw [(hfresh i hi).1]
    exact Nat.zero_le _
  · rw [hzero, word_zero]
  · rw [(hfresh i hi).1] at hlt
    exact absurd hlt (Nat.not_lt_zero _)

/-- Any sequence of writes to fresh inodes on a formatted disk, whether the disk fills up or a
source faults: no file outgrows `MAXFILE` blocks, every block below its size is mapped at every
level, and a read returns without a change to the inode or the machine. -/
theorem writes_leave_no_holes {s : FileState} (hinum : ∀ i, F i → i < sb.ninodes)
    (hfresh : ∀ i, F i → (s.inodes i).size = 0 ∧ ∀ k, (s.inodes i).addrs k = 0)
    (hused : ∀ b < sb.dataStart, bitOf sb s.machine.disk b = true)
    (hzero : s.machine.disk 0 = Buffer.zero) (cs : List WriteCall) (hcs : ∀ c ∈ cs, F c.inum) :
    ∃ rs s', writeCalls sb s cs = .ok (rs, s') ∧ ∀ i, F i →
      (s'.inodes i).size ≤ MAXFILE * BSIZE ∧
      (∀ bn < ((s'.inodes i).size + BSIZE - 1) / BSIZE, ∀ node : Node, node.OnPath bn →
        addr s'.machine.disk (s'.inodes i) node ≠ 0) ∧
      ∀ (dst : Dest) (off n : UInt32), ∃ ret out,
        readi sb s'.machine (s'.inodes i) dst off.toNat n.toNat =
          .ok (ret, out, s'.inodes i, s'.machine) := by
  obtain ⟨rs, s', hrun, hwhole⟩ := (whole_fresh hinum hfresh hused hzero).writeCalls hcs
  refine ⟨rs, s', hrun, fun i hi => ⟨hwhole.family.size i hi, fun bn hlt node hpath => ?_,
    fun dst off n => ?_⟩⟩
  · refine hpath.addr_ne_zero (hwhole.filled i hi bn ?_)
    simp only [BSIZE] at *
    omega
  · exact readi_filled sb s'.machine (hwhole.family.size i hi) (hwhole.filled i hi) dst off.toNat
      n.toNat_lt

-- A write whose source faults in its second block, and another file behind it.
theorem writes_leave_no_holes_fault : ∃ rs s',
    writeCalls mkfsLayout twoEmptyFiles [⟨0, 0, 3000, fun k => if k < 1500 then some 7 else none⟩,
      ⟨1, 0, 5, fun _ => some 1⟩] = .ok (rs, s') ∧ ∀ i, i < 2 →
      (s'.inodes i).size ≤ MAXFILE * BSIZE ∧
      ∀ (dst : Dest) (off n : UInt32), ∃ ret out,
        readi mkfsLayout s'.machine (s'.inodes i) dst off.toNat n.toNat =
          .ok (ret, out, s'.inodes i, s'.machine) := by
  have hzero : twoEmptyFiles.machine.disk 0 = Buffer.zero := by
    simp only [twoEmptyFiles]
    exact blankDisk_low mkfsLayout mkfsLayout.bmapstart_pos
  obtain ⟨rs, s', hrun, hall⟩ := @writes_leave_no_holes mkfsLayout (· < 2) twoEmptyFiles
    (fun i hi => lt_trans hi (by decide)) (fun _ _ => ⟨rfl, fun _ => rfl⟩)
    (fun b hb => by rw [twoEmptyFiles, bitOf_blankDisk, decide_eq_true hb]) hzero
    [⟨0, 0, 3000, fun k => if k < 1500 then some 7 else none⟩, ⟨1, 0, 5, fun _ => some 1⟩]
    (by simp)
  exact ⟨rs, s', hrun, fun i hi => ⟨(hall i hi).1, (hall i hi).2.2⟩⟩

end OsProjects.Kernel
