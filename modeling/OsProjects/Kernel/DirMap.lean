import OsProjects.Kernel.Sysfile
import OsProjects.Lib.Slots

/-!
# DirMap — a directory is a finite map from names to inode numbers

Names count up to their first NUL and for `DIRSIZ` bytes at most: `cstr DIRSIZ` of a name is what
the comparisons of `dirlookup` see.  The directory starts out with no content at all, and each call
may find the rest of the system changed.
-/

namespace OsProjects.Kernel.Vfs

open Lib List

variable {P : Type} [DecidableEq P] {inum k i : Nat} {data : List UInt8} {de : Dirent}
  {past : List (DirOp × Int)} {x : List UInt8 × Nat}

/-! ## The entries as slots -/

def Dirent.slot (de : Dirent) : Option (List UInt8 × Nat) :=
  if de.inum = 0 then none else some (cstr DIRSIZ de.name, de.inum)

def slots (data : List UInt8) : List (Option (List UInt8 × Nat)) := (entries data).map Dirent.slot

theorem slot_direntFor (name : List UInt8) (h : 0 < inum) :
    Dirent.slot (direntFor name inum) = some (cstr DIRSIZ name, inum) := by
  rw [Dirent.slot, if_neg (by simp only [direntFor]; omega), direntFor, cstr_strncpy]

theorem slot_eq_some :
    Dirent.slot de = some x ↔ de.inum ≠ 0 ∧ (cstr DIRSIZ de.name, de.inum) = x := by
  unfold Dirent.slot
  by_cases h : de.inum = 0
  · simp [h]
  · simp [h]

theorem getElem?_slots : (slots data)[k]? = some (some x) ↔
      ∃ de, (entries data)[k]? = some de ∧ de.inum ≠ 0 ∧ (cstr DIRSIZ de.name, de.inum) = x := by
  simp only [slots, List.getElem?_map, Option.map_eq_some_iff, slot_eq_some]

theorem slots_write (hde : de.Fits)
    (halign : data.length % SIZEOF_DIRENT = 0) (hk : k ≤ (entries data).length) :
    slots (FlatArray.write data (SIZEOF_DIRENT * k) de.encode) =
      FlatArray.write (slots data) k [Dirent.slot de] := by
  rw [slots, entries_write hde halign hk, slots, FlatArray.write, FlatArray.write]
  simp only [map_append, map_take, map_drop, map_cons, map_nil,
    length_singleton]

/-- The content of a directory that stands for the map `m`. -/
structure Represents (data : List UInt8) (m : List UInt8 → Option Nat) : Prop where
  aligned : data.length % SIZEOF_DIRENT = 0
  fits : data.length ≤ MAXFILE * BSIZE
  distinct : Slots.Distinct (slots data)
  lookup : Slots.lookup (slots data) = m

theorem represents_nil : Represents [] fun _ => none where
  aligned := rfl
  fits := Nat.zero_le _
  distinct := by
    intro i j x y hx
    cases hx
  lookup := rfl

section Scans

variable {data name : List UInt8} {m : List UInt8 → Option Nat}

theorem Represents.lookupEntry_absent (h : Represents data m) (hm : m (cstr DIRSIZ name) = none) :
    lookupEntry data name = .ok none := by
  unfold lookupEntry
  cases hfind : findEntry (fun de => de.inum != 0 && namecmp name de.name == 0) 0
      (entries data) with
  | none => simp only [if_pos h.aligned]
  | some found =>
    obtain ⟨-, hget, hp⟩ := findEntry_some hfind
    simp only [Bool.and_eq_true, bne_iff_ne, beq_iff_eq, namecmp_eq_zero] at hp
    rw [← h.lookup, Slots.lookup_eq_none] at hm
    refine absurd (mem_iff_getElem?.mpr ⟨found.1 - 0, ?_⟩) (hm found.2.inum)
    exact getElem?_slots.mpr ⟨found.2, hget, hp.1, by rw [hp.2]⟩

theorem Represents.lookupEntry_present (h : Represents data m)
    (hm : m (cstr DIRSIZ name) = some inum) :
    ∃ k, lookupEntry data name = .ok (some (SIZEOF_DIRENT * k, inum)) ∧
      (slots data)[k]? = some (some (cstr DIRSIZ name, inum)) := by
  rw [← h.lookup, h.distinct.lookup_eq_some] at hm
  obtain ⟨k, hk⟩ := mem_iff_getElem?.mp hm
  refine ⟨k, ?_, hk⟩
  cases hscan : lookupEntry data name with
  | error msg =>
    unfold lookupEntry at hscan
    split at hscan
    · cases hscan
    · rw [if_pos h.aligned] at hscan
      cases hscan
  | ok found =>
    cases found with
    | none =>
      obtain ⟨de, hde, hne, hx⟩ := getElem?_slots.mp hk
      refine absurd ?_ (lookupEntry_none hscan de (mem_of_getElem? hde) hne)
      exact namecmp_eq_zero.mpr (Prod.mk.inj hx).1.symm
    | some y =>
      -- the scan stopped at an entry of this name, and there is only one
      obtain ⟨k', de, hoff, hde, hinum, hne, hcmp⟩ := lookupEntry_some hscan
      have hslot : (slots data)[k']? = some (some (cstr DIRSIZ name, y.2)) :=
        getElem?_slots.mpr ⟨de, hde, by rwa [hinum], by rw [namecmp_eq_zero.mp hcmp, hinum]⟩
      obtain rfl := h.distinct k k' _ _ hk hslot rfl
      rw [hk, Option.some.injEq, Option.some.injEq, Prod.mk.injEq] at hslot
      rw [hslot.2, ← hoff]

theorem Represents.freeSlot (h : Represents data m) :
    ∃ k, freeSlot data = .ok (SIZEOF_DIRENT * k) ∧ k ≤ (entries data).length ∧
      ∀ x, (slots data)[k]? ≠ some (some x) := by
  cases hscan : Kernel.freeSlot data with
  | error msg =>
    unfold Kernel.freeSlot at hscan
    split at hscan
    · cases hscan
    · rw [if_pos h.aligned] at hscan
      cases hscan
  | ok off =>
    obtain ⟨k, rfl, hk, hfree⟩ := freeSlot_ok hscan
    refine ⟨k, rfl, hk, fun x hx => ?_⟩
    obtain ⟨de, hde, hne, -⟩ := getElem?_slots.mp hx
    exact hne (hfree de hde)

end Scans

/-! ## Writing an entry -/

-- An entry never straddles two blocks, so it is written whole or not at all.
theorem writeData_dirent (room : Room) (d : Nat) {data : List UInt8} {k : Nat} {de : Dirent}
    (hde : de.Fits) : ((writeData room d data (SIZEOF_DIRENT * k) de.encode).1 = SIZEOF_DIRENT ∧
      (writeData room d data (SIZEOF_DIRENT * k) de.encode).2.1 =
        FlatArray.write data (SIZEOF_DIRENT * k) de.encode ∧
      SIZEOF_DIRENT * k + SIZEOF_DIRENT ≤ MAXFILE * BSIZE) ∨
    ((writeData room d data (SIZEOF_DIRENT * k) de.encode).1 ≠ SIZEOF_DIRENT ∧
      (writeData room d data (SIZEOF_DIRENT * k) de.encode).2.1 = data) := by
  have henc := hde.length_encode
  unfold writeData
  split
  · exact .inr ⟨show (-1 : Int) ≠ 16 by decide, rfl⟩
  rename_i href
  have hfits := (not_refused (by rw [henc]; decide) href).2
  dsimp only
  generalize dataBlocks _ = b
  rw [henc] at hfits ⊢
  by_cases hroom : SIZEOF_DIRENT * k < b * BSIZE
  · have htot : min SIZEOF_DIRENT (b * BSIZE - SIZEOF_DIRENT * k) = SIZEOF_DIRENT := by
      simp only [SIZEOF_DIRENT, BSIZE] at *
      omega
    rw [htot, take_of_length_le henc.le]
    exact .inl ⟨rfl, rfl, hfits⟩
  · have htot : min SIZEOF_DIRENT (b * BSIZE - SIZEOF_DIRENT * k) = 0 := by
      omega
    rw [htot, take_zero]
    refine .inr ⟨by decide, ?_⟩
    simp [FlatArray.write]

-- An entry that is there can always be written over.
theorem writeData_dirent_over (room : Room) (d : Nat)
    (hde : de.Fits) (hfits : data.length ≤ MAXFILE * BSIZE) (hk : k < (entries data).length) :
    (writeData room d data (SIZEOF_DIRENT * k) de.encode).1 = SIZEOF_DIRENT ∧
      (writeData room d data (SIZEOF_DIRENT * k) de.encode).2.1 =
        FlatArray.write data (SIZEOF_DIRENT * k) de.encode := by
  have henc := hde.length_encode
  rw [length_entries] at hk
  have hblocks : blocksOf (SIZEOF_DIRENT * k + de.encode.length) ≤ blocksOf data.length := by
    unfold blocksOf
    simp only [SIZEOF_DIRENT, BSIZE] at *
    omega
  have hnone : blocksFor (blocksOf (SIZEOF_DIRENT * k + de.encode.length)) -
      room.blocks d data.length = 0 :=
    Nat.sub_eq_zero_of_le ((blocksFor_mono hblocks).trans (Nat.le_add_right _ _))
  have href : ¬ Refused data.length (SIZEOF_DIRENT * k) de.encode.length := by
    unfold Refused
    simp only [SIZEOF_DIRENT, MAXFILE, BSIZE, NDIRECT, NINDIRECT, DOUBLEINDIRECT] at *
    omega
  have hgranted := @writeData_granted room d data de.encode _ href (by
    rw [hnone, take_zero]
    exact fun b hb => by cases hb)
  rwa [henc] at hgranted

/-! ## The calls -/

/-- Directory `dp` with this content, held by the caller. -/
structure DirAt (s : Sys P) (dp : Nat) (data : List UInt8) : Prop where
  type : (s.ino dp).type = .dir
  content : (s.ino dp).data = data
  held : 0 < (s.mem dp).ref

section Calls

variable {p : P} {s : Sys P} {dp : Nat} {data name : List UInt8} {m : List UInt8 → Option Nat}

theorem run_dirlookup (hs : DirAt s dp data) :
    (dirlookup dp name).run (exec p) s = match lookupEntry data name with
      | .error msg => .error (.panic msg)
      | .ok none => .ok (none, s)
      | .ok (some (off, inum)) => (exec p (.iget inum) s).map fun y => (some (inum, off), y.2) := by
  rw [dirlookup, Prog.run_bind_ok (y := s.ino dp) (t := s) _ rfl, if_neg (by simp [hs.type]),
    hs.content]
  cases lookupEntry data name with
  | error msg => rfl
  | ok found =>
    cases found with
    | none => rfl
    | some y =>
      cases exec p (.iget y.2) s <;> rfl

theorem Represents.dirlookup_absent (h : Represents data m) (hs : DirAt s dp data)
    (hm : m (cstr DIRSIZ name) = none) : (dirlookup dp name).run (exec p) s = .ok (none, s) := by
  rw [run_dirlookup hs, h.lookupEntry_absent hm]

theorem Represents.dirlookup_present (h : Represents data m) (hs : DirAt s dp data)
    (hm : m (cstr DIRSIZ name) = some inum) :
    ∃ k, (slots data)[k]? = some (some (cstr DIRSIZ name, inum)) ∧
      (dirlookup dp name).run (exec p) s =
        (exec p (.iget inum) s).map fun y => (some (inum, SIZEOF_DIRENT * k), y.2) := by
  obtain ⟨k, hscan, hk⟩ := h.lookupEntry_present hm
  exact ⟨k, hk, by rw [run_dirlookup hs, hscan]⟩

-- The reference just taken is let go without freeing the inode.
theorem run_iput_of_iget {y : Unit × Sys P} (h : exec p (.iget i) s = .ok y) :
    (iput i).run (exec p) y.2 = .ok ((), y.2.dropRef i) := by
  have hlast : exec p (.iputLast i) y.2 = .ok (false, y.2.dropRef i) := by
    rcases exec_iget (r := y.1) h with ⟨href, hy⟩ | ⟨href, hy⟩
    · simp only [exec]
      rw [if_neg]
      rw [hy]
      simp only [Sys.setMem_mem, if_true]
      omega
    · simp only [exec]
      rw [hy]
      simp [Sys.setMem]
  rw [iput, Prog.run_bind_ok _ (by rw [Prog.run_call, hlast])]
  rfl

theorem exec_iget_cases (p : P) (s : Sys P) (i : Nat) :
    (∃ y, exec p (.iget i) s = .ok y ∧ y.2.ino = s.ino) ∨
      exec p (.iget i) s = .error (.panic "iget: no inodes") := by
  simp only [exec]
  split
  · exact .inl ⟨_, rfl, rfl⟩
  split
  · exact .inl ⟨_, rfl, rfl⟩
  · exact .inr rfl

theorem Represents.dirlink_present (h : Represents data m) (hs : DirAt s dp data)
    (hm : m (cstr DIRSIZ name) = some i) (inum : Nat) : (dirlink dp name inum).run (exec p) s =
      (exec p (.iget i) s).map fun y => (-1, y.2.dropRef i) := by
  obtain ⟨k, -, hlookup⟩ := h.dirlookup_present (p := p) hs hm
  rw [dirlink, Prog.run_bind, hlookup]
  cases hget : exec p (.iget i) s with
  | error stop => rfl
  | ok y =>
    show ((iput i) >>= fun _ => pure (-1)).run (exec p) y.2 = _
    rw [Prog.run_bind_ok _ (run_iput_of_iget hget)]
    rfl

theorem Represents.dirlink_absent (h : Represents data m) (hs : DirAt s dp data)
    (hm : m (cstr DIRSIZ name) = none) (inum : Nat) :
    ∃ k ≤ (entries data).length, (∀ x, (slots data)[k]? ≠ some (some x)) ∧
      (dirlink dp name inum).run (exec p) s =
        (exec p (.writeDirent dp (SIZEOF_DIRENT * k) (direntFor name (inum % 2 ^ 16))) s).map
          fun y : Int × Sys P => (if y.1 ≠ SIZEOF_DIRENT then -1 else 0, y.2) := by
  obtain ⟨k, hscan, hk, hfree⟩ := h.freeSlot
  refine ⟨k, hk, hfree, ?_⟩
  rw [dirlink, Prog.run_bind_ok _ (h.dirlookup_absent hs hm)]
  rw [Prog.run_bind_ok (y := s.ino dp) (t := s) _ rfl, hs.content, hscan]
  rfl

end Calls

/-- What `sys_unlink` does to the directory: it looks the name up and zeroes the entry found. -/
def eraseEntry (dp : Nat) (name : List UInt8) : Kprog Int := do
  match ← dirlookup dp name with
  | none => pure (-1)
  | some (_, off) => do
    let n ← writeDirent dp off noDirent
    if n ≠ SIZEOF_DIRENT then panic "unlink: writei"
    else pure 0

section Calls

variable {p : P} {s : Sys P} {dp : Nat} {data name : List UInt8} {m : List UInt8 → Option Nat}

theorem Represents.eraseEntry_present (h : Represents data m) (hs : DirAt s dp data)
    (hm : m (cstr DIRSIZ name) = some i) :
    ∃ k, (slots data)[k]? = some (some (cstr DIRSIZ name, i)) ∧
      (((∃ s', (eraseEntry dp name).run (exec p) s = .ok (0, s') ∧
          (s'.ino dp).data = FlatArray.write data (SIZEOF_DIRENT * k) noDirent.encode)) ∨
        (eraseEntry dp name).run (exec p) s = .error (.panic "iget: no inodes")) := by
  obtain ⟨k, hk, hlookup⟩ := h.dirlookup_present (p := p) hs hm
  obtain ⟨de, hde, -⟩ := getElem?_slots.mp hk
  obtain ⟨hlt, -⟩ := List.getElem?_eq_some_iff.mp hde
  refine ⟨k, hk, ?_⟩
  rw [eraseEntry, Prog.run_bind, hlookup]
  rcases exec_iget_cases p s i with ⟨y, hget, hino⟩ | hstop
  · have hcontent : (y.2.ino dp).data = data := by rw [hino, hs.content]
    obtain ⟨hn, hdata⟩ := writeData_dirent_over y.2.room dp noDirent_fits h.fits hlt
    rw [hget]
    show (∃ s', ((writeDirent dp (SIZEOF_DIRENT * k) noDirent) >>= _).run (exec p) y.2 = _ ∧ _) ∨ _
    rw [Prog.run_bind_ok _ (by rw [Prog.run_call]; rfl)]
    rw [hcontent, hn]
    exact .inl ⟨_, rfl, by simp [hdata]⟩
  · rw [hstop]
    exact .inr rfl

end Calls

/-! ## Histories -/

inductive DirOp
  | link (name : List UInt8) (inum : Nat)
  | erase (name : List UInt8)

def DirOp.code (dp : Nat) : DirOp → Kprog Int
  | .link name inum => dirlink dp name inum
  | .erase name => eraseEntry dp name

/-- The inode numbers that an entry can name. -/
def DirOp.Valid : DirOp → Prop
  | .link _ inum => 0 < inum ∧ inum < 65536
  | .erase _ => True

/-- The map after a call that has returned `r`. -/
def DirOp.apply (op : DirOp) (r : Int) (m : List UInt8 → Option Nat) : List UInt8 → Option Nat :=
  if r = 0 then
    match op with
    | .link name inum => Function.update m (cstr DIRSIZ name) (some inum)
    | .erase name => Function.update m (cstr DIRSIZ name) none
  else m

/-- The map that a history of calls and their results, the last one first, stands for. -/
def historyMap : List (DirOp × Int) → List UInt8 → Option Nat
  | [] => fun _ => none
  | (op, r) :: past => op.apply r (historyMap past)

/-- The histories of directory `dp` with the content they leave.  Each call runs, under the lock of
the directory, in any state that has this content. -/
inductive DirHistory (P : Type) [DecidableEq P] (dp : Nat) : List (DirOp × Int) → List UInt8 → Prop
  | empty : DirHistory P dp [] []
  | call {past : List (DirOp × Int)} {data : List UInt8} {p : P} {s s' : Sys P} {op : DirOp}
      {r : Int} : DirHistory P dp past data → DirAt s dp data → op.Valid →
      (op.code dp).run (exec p) s = .ok (r, s') →
      DirHistory P dp ((op, r) :: past) (s'.ino dp).data

/-- A call that returned `r` took the content `data` of the map `m` to `data'`.  A failure changes
nothing, and an entry stays where it is unless it is the one erased. -/
structure DirStep (op : DirOp) (r : Int) (m : List UInt8 → Option Nat) (data data' : List UInt8) :
    Prop where
  represents : Represents data' (op.apply r m)
  result : r = 0 ∨ r = -1 ∧ data' = data
  keeps : ∀ (k : Nat) de, (entries data)[k]? = some de → de.inum ≠ 0 →
    (entries data')[k]? = some de ∨ ∃ name, op = .erase name ∧ r = 0 ∧ namecmp name de.name = 0

section Histories

variable {p : P} {s s' : Sys P} {dp k : Nat} {data name : List UInt8} {m : List UInt8 → Option Nat}
  {op : DirOp} {r : Int}

theorem DirStep.failed (op : DirOp) (h : Represents data m) : DirStep op (-1) m data data where
  represents := h
  result := .inr ⟨rfl, rfl⟩
  keeps _ _ hde _ := .inl hde

theorem getElem?_entries_write (hde : de.Fits)
    (halign : data.length % SIZEOF_DIRENT = 0) (hk : k ≤ (entries data).length) (j : Nat) :
    (entries (FlatArray.write data (SIZEOF_DIRENT * k) de.encode))[j]? =
      if j = k then some de else (entries data)[j]? := by
  rw [entries_write hde halign hk, Slots.getElem?_write_one _ hk]

theorem length_write_dirent (hde : de.Fits) (hk : k ≤ (entries data).length)
    (h : Represents data m) (hfits : SIZEOF_DIRENT * k + SIZEOF_DIRENT ≤ MAXFILE * BSIZE) :
    (FlatArray.write data (SIZEOF_DIRENT * k) de.encode).length % SIZEOF_DIRENT = 0 ∧
      (FlatArray.write data (SIZEOF_DIRENT * k) de.encode).length ≤ MAXFILE * BSIZE := by
  have halign := h.aligned
  have hold := h.fits
  rw [length_entries] at hk
  rw [FlatArray.length_write, hde.length_encode]
  · simp only [SIZEOF_DIRENT] at *
    omega
  · simp only [SIZEOF_DIRENT] at *
    omega

section

variable (h : Represents data m)
include h

theorem DirStep.linked (hm : m (cstr DIRSIZ name) = none)
    (hpos : 0 < inum) (hlt : inum < 65536) (hk : k ≤ (entries data).length)
    (hfree : ∀ x, (slots data)[k]? ≠ some (some x))
    (hfits : SIZEOF_DIRENT * k + SIZEOF_DIRENT ≤ MAXFILE * BSIZE) :
    DirStep (.link name inum) 0 m data
      (FlatArray.write data (SIZEOF_DIRENT * k) (direntFor name inum).encode) := by
  have hde : (direntFor name inum).Fits := direntFor_fits hlt
  have hlen := length_write_dirent hde hk h hfits
  have hput := h.distinct.put (by rwa [slots, length_map]) hfree (h.lookup ▸ hm) inum
  rw [← slot_direntFor name hpos, ← slots_write hde h.aligned hk, h.lookup] at hput
  refine ⟨⟨hlen.1, hlen.2, hput.1, hput.2⟩, .inl rfl, fun j de hj hne => .inl ?_⟩
  rw [getElem?_entries_write hde h.aligned hk, if_neg, hj]
  -- the slot that is used is free
  intro hjk
  rw [hjk] at hj
  exact hfree _ (getElem?_slots.mpr ⟨de, hj, hne, rfl⟩)

theorem DirStep.erased (hslot : (slots data)[k]? = some (some (cstr DIRSIZ name, inum))) :
    DirStep (.erase name) 0 m data
      (FlatArray.write data (SIZEOF_DIRENT * k) noDirent.encode) := by
  obtain ⟨old, hold, -, hname⟩ := getElem?_slots.mp hslot
  obtain ⟨hlt, -⟩ := List.getElem?_eq_some_iff.mp hold
  have hfits : SIZEOF_DIRENT * k + SIZEOF_DIRENT ≤ MAXFILE * BSIZE := by
    have := h.fits
    rw [length_entries] at hlt
    simp only [SIZEOF_DIRENT] at *
    omega
  have hlen := length_write_dirent noDirent_fits hlt.le h hfits
  have hclear := h.distinct.clear hslot
  rw [h.lookup] at hclear
  rw [show (none : Option (List UInt8 × Nat)) = Dirent.slot noDirent from rfl,
    ← slots_write noDirent_fits h.aligned hlt.le] at hclear
  refine ⟨⟨hlen.1, hlen.2, hclear.1, hclear.2⟩, .inl rfl, fun j de hj hne => ?_⟩
  rw [getElem?_entries_write noDirent_fits h.aligned hlt.le]
  by_cases hjk : j = k
  · rw [hjk, hold, Option.some.injEq] at hj
    rw [hj, Prod.mk.injEq] at hname
    exact .inr ⟨name, rfl, rfl, namecmp_eq_zero.mpr hname.1.symm⟩
  · rw [if_neg hjk]
    exact .inl hj

theorem Represents.dirlink_step (hs : DirAt s dp data) (hpos : 0 < inum) (hlt : inum < 65536) :
    (∃ r s', (dirlink dp name inum).run (exec p) s = .ok (r, s') ∧
      DirStep (.link name inum) r m data (s'.ino dp).data) ∨
    (dirlink dp name inum).run (exec p) s = .error (.panic "iget: no inodes") := by
  cases hm : m (cstr DIRSIZ name) with
  | some i =>
    rw [h.dirlink_present hs hm]
    rcases exec_iget_cases p s i with ⟨y, hget, hino⟩ | hstop
    · refine .inl ⟨-1, y.2.dropRef i, by rw [hget]; rfl, ?_⟩
      rw [Sys.dropRef_ino, hino, hs.content]
      exact .failed _ h
    · exact .inr (by rw [hstop]; rfl)
  | none =>
    obtain ⟨k, hk, hfree, hrun⟩ := h.dirlink_absent (p := p) hs hm inum
    rw [hrun, Nat.mod_eq_of_lt (show inum < 2 ^ 16 from hlt)]
    refine .inl ⟨_, _, rfl, ?_⟩
    simp only [hs.content, Sys.setIno_ino, if_true]
    have hde : (direntFor name inum).Fits := direntFor_fits hlt
    rcases writeData_dirent s.room dp (k := k) hde with ⟨hn, hdata, hfits⟩ | ⟨hn, hdata⟩
    · rw [if_neg (not_not.mpr hn), hdata]
      exact .linked h hm hpos hlt hk hfree hfits
    · rw [if_pos hn, hdata]
      exact .failed _ h

theorem Represents.eraseEntry_step (hs : DirAt s dp data) :
    (∃ r s', (eraseEntry dp name).run (exec p) s = .ok (r, s') ∧
      DirStep (.erase name) r m data (s'.ino dp).data) ∨
    (eraseEntry dp name).run (exec p) s = .error (.panic "iget: no inodes") := by
  cases hm : m (cstr DIRSIZ name) with
  | some i =>
    obtain ⟨k, hslot, ⟨s', hrun, hdata⟩ | hstop⟩ := h.eraseEntry_present (p := p) hs hm
    · exact .inl ⟨0, s', hrun, hdata ▸ .erased h hslot⟩
    · exact .inr hstop
  | none =>
    refine .inl ⟨-1, s, ?_, ?_⟩
    · rw [eraseEntry, Prog.run_bind_ok _ (h.dirlookup_absent hs hm)]
      rfl
    · rw [hs.content]
      exact .failed _ h

theorem Represents.step (hs : DirAt s dp data) (hop : op.Valid) :
    (∃ r s', (op.code dp).run (exec p) s = .ok (r, s') ∧ DirStep op r m data (s'.ino dp).data) ∨
      (op.code dp).run (exec p) s = .error (.panic "iget: no inodes") := by
  cases op with
  | link name inum => exact h.dirlink_step hs hop.1 hop.2
  | erase name => exact h.eraseEntry_step hs

theorem Represents.step_of_run (hs : DirAt s dp data) (hop : op.Valid)
    (hrun : (op.code dp).run (exec p) s = .ok (r, s')) : DirStep op r m data (s'.ino dp).data := by
  rcases h.step (p := p) hs hop with ⟨r', t, hrun', hstep⟩ | hstop
  · rw [hrun, Except.ok.injEq, Prod.mk.injEq] at hrun'
    rwa [hrun'.1, hrun'.2]
  · rw [hrun] at hstop
    cases hstop

end

theorem DirHistory.represents (h : DirHistory P dp past data) :
    Represents data (historyMap past) := by
  induction h with
  | empty => exact represents_nil
  | call _ hs hop hrun ih => exact (ih.step_of_run hs hop hrun).represents

end Histories

/-! ## A slot used twice -/

/-- A process in a directory, inode 2, with this content. -/
def dirDisk (data : List UInt8) : Sys Unit :=
  { Sys.boot Unit 4 [] with
    ino := fun i => if i = 2 then ⟨.dir, 0, 0, 1, data⟩ else blank .file
    mem := fun i => if i = 2 then ⟨1, true, none⟩ else ⟨0, false, none⟩ }

theorem DirHistory.eval
    (h : DirHistory Unit 2 past data) (op : DirOp) (r : Int) (data' : List UInt8) (hop : op.Valid)
    (heval : ((op.code 2).run (exec ()) (dirDisk data)).toOption.map
      (fun y => (y.1, (y.2.ino 2).data)) = some (r, data')) :
    DirHistory Unit 2 ((op, r) :: past) data' := by
  cases hrun : (op.code 2).run (exec ()) (dirDisk data) with
  | error stop =>
    rw [hrun] at heval
    cases heval
  | ok y =>
    rw [hrun] at heval
    cases heval
    exact h.call (s := dirDisk data) ⟨rfl, rfl, Nat.one_pos⟩ hop hrun

end OsProjects.Kernel.Vfs
