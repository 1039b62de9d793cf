import OsProjects.Kernel.FileIo
import OsProjects.Kernel.Format
import OsProjects.Lib.FlatArray

/-!
# FileArray — files refine flat byte arrays

The lower level is `readi` and `writei` on the block trees of a family of inodes; the upper level
is one byte array for each of them.  A request is answered alike on both levels, as long as `balloc`
finds its blocks.
-/

namespace OsProjects.Kernel

open Lib Function

/-- A request with a kernel buffer. -/
inductive FileOp where
  | write (i : Nat) (off n : UInt32) (src : Nat → UInt8)
  | read (i : Nat) (off n : UInt32)

def FileOp.inode : FileOp → Nat
  | .write i _ _ _ => i
  | .read i _ _ => i

/-- The return value, and the bytes put into the buffer of a read. -/
abbrev FileReply := Int × List UInt8

structure FileState where
  machine : Machine
  inodes : Nat → Dinode

def fileStep (sb : Superblock) (s : FileState) : FileOp → Except String (FileReply × FileState)
  | .write i off n src =>
    match writei sb s.machine i (s.inodes i) (fun k => some (src k)) off.toNat n.toNat with
    | .error e => .error e
    | .ok (ret, ip, m) => .ok ((ret, []), ⟨m, update s.inodes i ip⟩)
  | .read i off n =>
    match readi sb s.machine (s.inodes i) (fun _ => true) off.toNat n.toNat with
    | .error e => .error e
    | .ok (ret, bytes, ip, m) => .ok ((ret, bytes), ⟨m, update s.inodes i ip⟩)

def fileRun (sb : Superblock) : FileState → List FileOp →
    Except String (List FileReply × FileState)
  | s, [] => .ok ([], s)
  | s, op :: ops =>
    match fileStep sb s op with
    | .error e => .error e
    | .ok (r, s) =>
      match fileRun sb s ops with
      | .error e => .error e
      | .ok (rs, s) => .ok (r :: rs, s)

/-! ## The abstract level -/

def arrayStep (files : Nat → List UInt8) : FileOp → FileReply × (Nat → List UInt8)
  | .write i off n src =>
    if off.toNat ≤ (files i).length ∧ off.toNat + n.toNat < 2 ^ 32 ∧
        off.toNat + n.toNat ≤ MAXFILE * BSIZE then
      ((n.toNat, []), update files i
        (FlatArray.write (files i) off.toNat ((List.range n.toNat).map src)))
    else ((-1, []), files)
  | .read i off n =>
    if off.toNat ≤ (files i).length ∧ off.toNat + n.toNat < 2 ^ 32 then
      (((FlatArray.read (files i) off.toNat n.toNat).length,
        FlatArray.read (files i) off.toNat n.toNat), files)
    else ((0, []), files)

def arrayRun : (Nat → List UInt8) → List FileOp → List FileReply × (Nat → List UInt8)
  | files, [] => ([], files)
  | files, op :: ops =>
    ((arrayStep files op).1 :: (arrayRun (arrayStep files op).2 ops).1,
      (arrayRun (arrayStep files op).2 ops).2)

/-! ## The relation between the two -/

/-- The byte array of an inode. -/
def contents (d : Disk) (din : Dinode) : List UInt8 := (List.range din.size).map (byteAt d din)

/-- A family of inodes whose trees are pairwise disjoint and allocated. -/
structure Family (sb : Superblock) (F : Nat → Prop) (s : FileState) : Prop where
  inum : ∀ i, F i → i < sb.ninodes
  size : ∀ i, F i → (s.inodes i).size ≤ MAXFILE * BSIZE
  blocks : Blocks sb F s.inodes s.machine.disk

/-- The array of each inode of the family. -/
def Holds (F : Nat → Prop) (s : FileState) (files : Nat → List UInt8) : Prop :=
  ∀ i, F i → contents s.machine.disk (s.inodes i) = files i

@[simp] theorem length_contents (d : Disk) (din : Dinode) : (contents d din).length = din.size := by
  simp [contents]

theorem getD_contents (d : Disk) (din : Dinode) {k : Nat} (hk : k < din.size) :
    (contents d din).getD k 0 = byteAt d din k := by
  simp [contents, List.getD_eq_getElem?_getD, List.getElem?_map, List.getElem?_range hk]

variable {sb : Superblock} {F : Nat → Prop} {s s' : FileState} {files : Nat → List UInt8} {i : Nat}
  {ops : List FileOp} {r : FileReply}

-- Requests that are in range return, whatever the disk holds.
theorem fileStep_total (sb : Superblock) (hsize : ∀ i, F i → (s.inodes i).size ≤ MAXFILE * BSIZE)
    {op : FileOp} (hop : F op.inode) :
    ∃ r s', fileStep sb s op = .ok (r, s') ∧ s.machine.console <:+ s'.machine.console ∧
      ∀ i, F i → (s'.inodes i).size ≤ MAXFILE * BSIZE := by
  have hkeep : ∀ {i : Nat} {ip : Dinode}, (F i → ip.size ≤ MAXFILE * BSIZE) →
      ∀ j, F j → (update s.inodes i ip j).size ≤ MAXFILE * BSIZE := by
    intro i ip hip j hj
    by_cases hij : j = i
    · rw [hij, update_self]
      exact hip (hij ▸ hj)
    · rw [update_of_ne hij]
      exact hsize j hj
  cases op with
  | write i off n src =>
    by_cases href : Refused (s.inodes i).size off.toNat n.toNat
    · refine ⟨(-1, []), ⟨s.machine, update s.inodes i (s.inodes i)⟩, ?_, List.suffix_rfl,
        hkeep (hsize i)⟩
      rw [fileStep, writei_refused _ _ _ _ _ href]
    · obtain ⟨hoff, hfit⟩ := not_refused n.toNat_lt href
      obtain ⟨tot, off', ip, m, hloop, hoff', hconsole, hfields⟩ := writeiLoop_total sb
        (fun k => some (src k)) n.toNat 0 off.toNat (s.inodes i) s.machine
        (by omega)
      refine ⟨(tot, []), ⟨iupdate sb m i (grown ip off'), update s.inodes i (grown ip off')⟩,
        ?_, hconsole, hkeep fun hi => ?_⟩
      · rw [fileStep, writei_eq _ _ _ _ _ href, hloop]
        rfl
      · have hold := hsize i hi
        rw [grown_size, hfields]
        exact max_le hold (by omega)
  | read i off n =>
    by_cases href : off.toNat > (s.inodes i).size ∨ (off.toNat + n.toNat) % 2 ^ 32 < off.toNat
    · refine ⟨(0, []), ⟨s.machine, update s.inodes i (s.inodes i)⟩, ?_, List.suffix_rfl,
        hkeep (hsize i)⟩
      rw [fileStep, readi_refused _ _ _ _ href]
    · have hold := hsize i hop
      obtain ⟨ret, out, ip, m, hloop, hconsole, hfields⟩ := readiLoop_total sb (fun _ => true)
        (min n.toNat ((s.inodes i).size - off.toNat)) 0 off.toNat
        (s.inodes i) s.machine [] (by omega)
      refine ⟨(ret, out), ⟨m, update s.inodes i ip⟩, ?_, hconsole, hkeep fun hi => ?_⟩
      · rw [fileStep, readi_eq _ _ _ _ n.toNat_lt href, hloop]
      · rwa [hfields]

theorem fileRun_total (sb : Superblock) (hsize : ∀ i, F i → (s.inodes i).size ≤ MAXFILE * BSIZE)
    (hops : ∀ op ∈ ops, F op.inode) :
    ∃ rs s', fileRun sb s ops = .ok (rs, s') ∧ s.machine.console <:+ s'.machine.console := by
  induction ops generalizing s with
  | nil => exact ⟨[], s, rfl, List.suffix_rfl⟩
  | cons op ops ih =>
    obtain ⟨r, s1, hstep, hgrow, hsize1⟩ := fileStep_total sb hsize (hops op (by simp))
    obtain ⟨rs, s2, hrun, hgrow2⟩ := ih hsize1 fun op' hop' => hops op' (by simp [hop'])
    refine ⟨r :: rs, s2, ?_, hgrow.trans hgrow2⟩
    rw [fileRun, hstep]
    simp only [hrun]

theorem Holds.length (h : Holds F s files) (hi : F i) : (files i).length = (s.inodes i).size := by
  rw [← h i hi, length_contents]

theorem Holds.getD (h : Holds F s files) {k : Nat} (hi : F i) (hk : k < (s.inodes i).size) :
    (files i).getD k 0 = byteAt s.machine.disk (s.inodes i) k := by
  rw [← h i hi, getD_contents _ _ hk]

-- Arrays are compared length by length and byte by byte.
theorem holds_of_bytes (hsize : ∀ i, F i → (s.inodes i).size = (files i).length)
    (hbytes : ∀ i, F i → ∀ k < (s.inodes i).size,
      byteAt s.machine.disk (s.inodes i) k = (files i).getD k 0) : Holds F s files := by
  intro i hi
  apply FlatArray.ext_getD 0
  · rw [length_contents, hsize i hi]
  · intro k hk
    rw [length_contents] at hk
    rw [getD_contents _ _ hk, hbytes i hi k hk]

-- A file has been written and its inode updated.
theorem Family.written (h : Family sb F s) (hi : F i) {m' : Machine} {din' : Dinode}
    {off off' : Nat} {data : List UInt8}
    (hwrote : Wrote sb F s.inodes s.machine.disk i m'.disk din' off data)
    (hoff' : off' ≤ MAXFILE * BSIZE) :
    Family sb F ⟨iupdate sb m' i (grown din' off'), update s.inodes i (grown din' off')⟩ := by
  refine ⟨h.inum, fun j hj => ?_, hwrote.blocks.high
    (fun j _ => update_addrs (grown_addrs din' off') s.inodes i j)
    (iupdate_high sb m' (h.inum i hi) _)⟩
  have hold := h.size j hj
  dsimp only
  by_cases hji : j = i
  · rw [hji, update_self, grown_size, hwrote.fields]
    exact max_le (hji ▸ hold) hoff'
  · rwa [update_of_ne hji]

theorem write_refines {off n : UInt32} {src : Nat → UInt8}
    (hfam : Family sb F s) (hholds : Holds F s files) (hi : F i)
    (hstep : fileStep sb s (.write i off n src) = .ok (r, s'))
    (hquiet : s'.machine.console = s.machine.console) :
    r = (arrayStep files (.write i off n src)).1 ∧ Family sb F s' ∧
      Holds F s' (arrayStep files (.write i off n src)).2 := by
  have hn := n.toNat_lt
  have hlen := hholds.length hi
  by_cases href : Refused (s.inodes i).size off.toNat n.toNat
  · have hcond : ¬ (off.toNat ≤ (files i).length ∧ off.toNat + n.toNat < 2 ^ 32 ∧
        off.toNat + n.toNat ≤ MAXFILE * BSIZE) := by
      unfold Refused at href
      omega
    rw [fileStep, writei_refused _ _ _ _ _ href] at hstep
    cases hstep
    rw [update_eq_self, arrayStep, if_neg hcond]
    exact ⟨rfl, hfam, hholds⟩
  obtain ⟨hoff, hfit⟩ := not_refused hn href
  have hwrap : off.toNat + n.toNat < 2 ^ 32 := by
    simp only [MAXFILE, BSIZE, NDIRECT, NINDIRECT, DOUBLEINDIRECT] at hfit
    omega
  obtain ⟨tot, off', din', m', hloop, -⟩ := writeiLoop_total sb (fun k => some (src k))
    n.toNat 0 off.toNat (s.inodes i) s.machine (by omega)
  rw [fileStep, writei_eq _ _ _ _ _ href, hloop] at hstep
  cases hstep
  obtain ⟨data, hlooped⟩ := writeiLoop_spec hfam.blocks hi (by omega) hloop (.inr hquiet)
  obtain ⟨rfl, hdata⟩ := hlooped.finish hquiet (by simp) (Nat.zero_le _)
  obtain rfl : off' = off.toNat + n.toNat := by
    have hoffset := hlooped.offset
    omega
  have hdata' : data = (List.range n.toNat).map src := by
    apply FlatArray.ext_getD 0
    · simp [hdata]
    · intro k hk
      have hsrc := hlooped.copied k hk
      simp only [Nat.zero_add, Option.some.injEq] at hsrc
      have hkn : k < n.toNat := by omega
      rw [← hsrc]
      simp [List.getD_eq_getElem?_getD, List.getElem?_map, List.getElem?_range hkn]
  have hsize : din'.size = (s.inodes i).size := by rw [hlooped.wrote.fields]
  have haddrs := fun j (_ : F j) =>
    update_addrs (grown_addrs din' (off.toNat + n.toNat)) s.inodes i j
  have hhigh := iupdate_high sb m' (hfam.inum i hi) (grown din' (off.toNat + n.toNat))
  have hfam' := hfam.written hi hlooped.wrote hfit
  rw [arrayStep, if_pos ⟨by omega, hwrap, hfit⟩]
  refine ⟨rfl, hfam', holds_of_bytes ?_ ?_⟩
  · intro j hj
    dsimp only
    by_cases hji : j = i
    · rw [hji, update_self, update_self, grown_size, hsize,
        FlatArray.length_write _ _ (by omega), hlen, ← hdata', hdata, Nat.sub_zero]
    · rw [update_of_ne hji, update_of_ne hji, hholds.length hj]
  · intro j hj k hk
    have hkmax : k < MAXFILE * BSIZE := lt_of_lt_of_le hk (hfam'.size j hj)
    refine (byteAt_high hlooped.wrote.blocks haddrs hhigh hj hkmax).trans ?_
    rw [hlooped.wrote.bytes j hj k hkmax]
    dsimp only at hk ⊢
    by_cases hji : j = i
    · subst hji
      rw [update_self, grown_size, hsize] at hk
      rw [update_self, FlatArray.getD_write _ _ (by omega), ← hdata']
      by_cases hin : off.toNat ≤ k ∧ k < off.toNat + data.length
      · rw [if_pos ⟨rfl, hin⟩, if_pos hin]
      · rw [if_neg (fun h => hin h.2), if_neg hin, hholds.getD hj (by omega)]
    · rw [update_of_ne hji] at hk
      rw [update_of_ne hji, if_neg (fun h => hji h.1), hholds.getD hj hk]

theorem read_refines {off n : UInt32} (hfam : Family sb F s) (hholds : Holds F s files) (hi : F i)
    (hstep : fileStep sb s (.read i off n) = .ok (r, s'))
    (hquiet : s'.machine.console = s.machine.console) :
    r = (arrayStep files (.read i off n)).1 ∧ Family sb F s' ∧
      Holds F s' (arrayStep files (.read i off n)).2 := by
  have hlen := hholds.length hi
  have hn := n.toNat_lt
  by_cases href : off.toNat > (s.inodes i).size ∨ (off.toNat + n.toNat) % 2 ^ 32 < off.toNat
  · have hcond : ¬ (off.toNat ≤ (files i).length ∧ off.toNat + n.toNat < 2 ^ 32) := by
      omega
    rw [fileStep, readi_refused _ _ _ _ href] at hstep
    cases hstep
    rw [update_eq_self, arrayStep, if_neg hcond]
    exact ⟨rfl, hfam, hholds⟩
  have hsize := hfam.size i hi
  have hcond : off.toNat ≤ (files i).length ∧ off.toNat + n.toNat < 2 ^ 32 := by
    omega
  obtain ⟨ret, out, din', m', hloop, -⟩ := readiLoop_total sb (fun _ => true)
    (min n.toNat ((s.inodes i).size - off.toNat)) 0 off.toNat
    (s.inodes i) s.machine [] (by omega)
  rw [fileStep, readi_eq _ _ _ _ hn href, hloop] at hstep
  cases hstep
  obtain ⟨hret, data, hout, hdata, hwrote, hbytes⟩ :=
    readiLoop_spec hfam.blocks hi (by omega) (Nat.zero_le _) hloop hquiet
  subst hout
  have hread : out = FlatArray.read (files i) off.toNat n.toNat := by
    apply FlatArray.ext_getD 0
    · rw [FlatArray.length_read, hlen, hdata, Nat.sub_zero]
    · intro k hk
      rw [FlatArray.getD_read _ _ _ _ (by omega), hbytes k hk, hholds.getD hi (by omega)]
  rw [arrayStep, if_pos hcond, ← hread]
  have hfields : ∀ j, (update s.inodes i din' j).size = (s.inodes j).size := by
    intro j
    by_cases hji : j = i
    · rw [hji, update_self, hwrote.fields]
    · rw [update_of_ne hji]
  refine ⟨?_, ⟨hfam.inum, fun j hj => ?_, hwrote.blocks⟩, holds_of_bytes ?_ ?_⟩
  · rw [hret, hdata, Nat.sub_zero]
  · rw [hfields j]
    exact hfam.size j hj
  · intro j hj
    rw [hfields j, hholds.length hj]
  · intro j hj k hk
    rw [hfields j] at hk
    have hkmax := lt_of_lt_of_le hk (hfam.size j hj)
    rw [hwrote.bytes j hj k hkmax, hholds.getD hj hk]
    by_cases hin : j = i ∧ off.toNat ≤ k ∧ k < off.toNat + out.length
    · rw [if_pos hin, hbytes _ (by omega), hin.1]
      congr 1
      omega
    · rw [if_neg hin]

-- By induction over the requests: the two levels stay related as long as the console is silent.
theorem fileRun_refines (hfam : Family sb F s) (hholds : Holds F s files)
    (hops : ∀ op ∈ ops, F op.inode) :
    ∃ rs s', fileRun sb s ops = .ok (rs, s') ∧ (s'.machine.console = s.machine.console →
      rs = (arrayRun files ops).1 ∧ Family sb F s' ∧ Holds F s' (arrayRun files ops).2) := by
  induction ops generalizing s files with
  | nil => exact ⟨[], s, rfl, fun _ => ⟨rfl, hfam, hholds⟩⟩
  | cons op ops ih =>
    have hop := hops op (by simp)
    have hrest : ∀ op' ∈ ops, F op'.inode := fun op' hop' => hops op' (by simp [hop'])
    obtain ⟨r, s1, hstep, hgrow1, hsize1⟩ := fileStep_total sb hfam.size hop
    obtain ⟨rs, s2, hrun, hgrow2⟩ := fileRun_total sb hsize1 hrest
    refine ⟨r :: rs, s2, by rw [fileRun, hstep]; simp only [hrun], fun hquiet => ?_⟩
    -- the console only grows, so the first step was silent, and the others were
    have hquiet1 : s1.machine.console = s.machine.console :=
      (hgrow1.eq_of_length_le (by rw [← hquiet]; exact hgrow2.length_le)).symm
    have hone : r = (arrayStep files op).1 ∧ Family sb F s1 ∧
        Holds F s1 (arrayStep files op).2 := by
      cases op with
      | write i off n src => exact write_refines hfam hholds hop hstep hquiet1
      | read i off n => exact read_refines hfam hholds hop hstep hquiet1
    obtain ⟨hr, hfam1, hholds1⟩ := hone
    obtain ⟨rs', s', hrun', himp⟩ := ih hfam1 hholds1 hrest
    rw [hrun] at hrun'
    obtain ⟨rfl, rfl⟩ := Prod.mk.inj (Except.ok.inj hrun')
    obtain ⟨hrs, hfam2, hholds2⟩ := himp (hquiet.trans hquiet1.symm)
    refine ⟨?_, hfam2, hholds2⟩
    rw [hr, hrs]
    rfl

/-- Every sequence of requests on a family of files returns.  When no `balloc` has failed in it, the
replies and the contents are those of the byte arrays. -/
theorem files_refine_arrays (hfam : Family sb F s) {ops : List FileOp}
    (hops : ∀ op ∈ ops, F op.inode) :
    ∃ rs s', fileRun sb s ops = .ok (rs, s') ∧ (s'.machine.console = s.machine.console →
      rs = (arrayRun (fun i => contents s.machine.disk (s.inodes i)) ops).1 ∧
      (∀ i, F i → contents s'.machine.disk (s'.inodes i) =
        (arrayRun (fun i => contents s.machine.disk (s.inodes i)) ops).2 i) ∧
      Family sb F s') := by
  obtain ⟨rs, s', hrun, himp⟩ := fileRun_refines hfam (fun _ _ => rfl : Holds F s _) hops
  refine ⟨rs, s', hrun, fun hquiet => ?_⟩
  obtain ⟨hrs, hfam', hholds'⟩ := himp hquiet
  exact ⟨hrs, hholds', hfam'⟩

/-- Two empty files on a fresh disk. -/
def twoEmptyFiles : FileState := ⟨⟨blankDisk mkfsLayout, [], []⟩, fun _ => freshDinode 2⟩

theorem twoEmptyFiles_family : Family mkfsLayout (· < 2) twoEmptyFiles :=
  ⟨fun i hi => lt_trans hi (by decide), fun _ _ => Nat.zero_le _,
    blocks_blankDisk mkfsLayout fun _ _ _ => rfl⟩

theorem files_refine_arrays_twoEmptyFiles :
    ∃ s', fileRun mkfsLayout twoEmptyFiles [.write 1 0 3 (fun _ => 7), .read 1 1 5, .read 0 0 1] =
        .ok ([(3, []), (2, [7, 7]), (0, [])], s') ∧
      contents s'.machine.disk (s'.inodes 1) = [7, 7, 7] := by
  have hconsole : (fileRun mkfsLayout twoEmptyFiles
      [.write 1 0 3 (fun _ => 7), .read 1 1 5, .read 0 0 1]).map
        (fun r => r.2.machine.console) = .ok [] := by
    decide +kernel
  obtain ⟨rs, s', hrun, himp⟩ := files_refine_arrays twoEmptyFiles_family
    (show ∀ op ∈ [.write 1 0 3 (fun _ => 7), .read 1 1 5, .read 0 0 1],
      FileOp.inode op < 2 by decide)
  rw [hrun] at hconsole
  obtain ⟨rfl, hcontents, -⟩ := himp (Except.ok.inj hconsole)
  exact ⟨s', hrun, (hcontents 1 (by decide)).trans (by decide)⟩

end OsProjects.Kernel
