import OsProjects.Kernel.SymlinkCall

/-!
# SymlinkTargets — a link reads back the target it was given last

The record is written over the old one and never cut: what is left of a longer record lies behind
the NUL.  The link is found under its path again, since a new entry hides none of the entries on the
way to it.
-/

namespace OsProjects.Kernel.Vfs

open Lib

variable {P : Type} {s s' t : Sys P} {p : P} {i dp ip off : Nat} {path name data : List UInt8}
  {r : Int} {target : CStr}

/-! ## Looking up in a directory with one entry more -/

-- The scan ends at the first entry that satisfies `q`.
theorem findEntry_eq_some {q : Dirent → Bool} {es : List Dirent} {j : Nat} {de : Dirent} (k : Nat) :
    findEntry q k es = some (k + j, de) ↔ es[j]? = some de ∧ q de = true ∧
      ∀ j' < j, ∀ e, es[j']? = some e → q e = false := by
  induction es generalizing j k with
  | nil => simp [findEntry]
  | cons e es ih =>
    unfold findEntry
    split
    next hq =>
      constructor
      · intro h
        obtain ⟨hk, rfl⟩ := Prod.mk.inj (Option.some.inj h)
        obtain rfl : j = 0 := by omega
        exact ⟨rfl, hq, fun _ hlt => absurd hlt (by omega)⟩
      · rintro ⟨hget, -, hfirst⟩
        cases j with
        | zero => rw [Option.some.inj hget, Nat.add_zero]
        | succ j =>
          rw [hfirst 0 (by omega) e rfl] at hq
          cases hq
    next hq =>
      cases j with
      | zero =>
        constructor
        · intro h
          have hle := (findEntry_some h).1
          omega
        · rintro ⟨hget, hde, -⟩
          rw [Option.some.inj hget] at hq
          exact absurd hde hq
      | succ j =>
        rw [show k + (j + 1) = k + 1 + j by omega, ih (k + 1), List.getElem?_cons_succ]
        refine and_congr_right fun _ => and_congr_right fun _ => ⟨fun h j' hlt e' hget => ?_,
          fun h j' hlt e' hget => h (j' + 1) (by omega) e' (by simpa using hget)⟩
        cases j' with
        | zero =>
          rw [← Option.some.inj hget]
          simpa using hq
        | succ j' => exact h j' (by omega) e' (by simpa using hget)

/-- The test of the scan of `dirlookup`. -/
def isNamed (name : List UInt8) (de : Dirent) : Bool := de.inum != 0 && namecmp name de.name == 0

theorem lookupEntry_eq_some {k n : Nat} :
    lookupEntry data name = .ok (some (SIZEOF_DIRENT * k, n)) ↔
      ∃ de, de.inum = n ∧ findEntry (isNamed name) 0 (entries data) = some (0 + k, de) := by
  have hscan : (fun de : Dirent => de.inum != 0 && namecmp name de.name == 0) = isNamed name := rfl
  rw [lookupEntry, hscan]
  cases findEntry (isNamed name) 0 (entries data) with
  | none =>
    simp only [reduceCtorEq, and_false, exists_false, iff_false]
    split
    · simp
    · simp
  | some found =>
    obtain ⟨k', de'⟩ := found
    simp only [Except.ok.injEq, Option.some.injEq, Prod.mk.injEq, SIZEOF_DIRENT, Nat.zero_add]
    constructor
    · rintro ⟨hk, hn⟩
      exact ⟨de', hn, by omega, rfl⟩
    · rintro ⟨de, hn, hk, rfl⟩
      exact ⟨by omega, hn⟩

theorem aligned_of_absent (h : lookupEntry data name = .ok none) :
    data.length % SIZEOF_DIRENT = 0 := by
  unfold lookupEntry at h
  split at h
  · cases h
  · by_contra hne
    rw [if_neg hne] at h
    cases h

theorem isNamed_of_absent (h : lookupEntry data name = .ok none) {j : Nat} {de : Dirent}
    (hde : (entries data)[j]? = some de) : isNamed name de = false := by
  unfold isNamed
  by_cases hne : de.inum = 0
  · simp [hne]
  · simpa [hne] using lookupEntry_none h de (List.mem_of_getElem? hde) hne

section Gains

variable {k n : Nat} (habsent : lookupEntry data name = .ok none)
  (hslot : freeSlot data = .ok (SIZEOF_DIRENT * k)) (hlt : n < 2 ^ 16)

include habsent hslot hlt

theorem getElem?_entries_new (j : Nat) :
    (entries (FlatArray.write data (SIZEOF_DIRENT * k) (direntFor name n).encode))[j]? =
      if j = k then some (direntFor name n) else (entries data)[j]? := by
  obtain ⟨k', hk', hle, -⟩ := freeSlot_ok hslot
  obtain rfl : k = k' := by
    simp only [SIZEOF_DIRENT] at hk'
    omega
  exact getElem?_entries_write (direntFor_fits hlt) (aligned_of_absent habsent) hle j

-- The new entry is found.
theorem lookupEntry_new (hpos : 0 < n) :
    lookupEntry (FlatArray.write data (SIZEOF_DIRENT * k) (direntFor name n).encode) name =
      .ok (some (SIZEOF_DIRENT * k, n)) := by
  have hget := getElem?_entries_new habsent hslot hlt
  refine lookupEntry_eq_some.mpr ⟨direntFor name n, rfl, (findEntry_eq_some 0).mpr ⟨?_, ?_, ?_⟩⟩
  · rw [hget, if_pos rfl]
  · have hcmp : namecmp name (direntFor name n).name = 0 := by
      rw [namecmp_eq_zero, direntFor, cstr_strncpy]
    have hinum : (direntFor name n).inum ≠ 0 := by
      show n ≠ 0
      omega
    simp [isNamed, hcmp, hinum]
  · intro j hj e he
    rw [hget, if_neg (by omega)] at he
    exact isNamed_of_absent habsent he

-- What was found before still is: the entry written over was empty, and the new one has another
-- name.
theorem lookupEntry_old {other : List UInt8} {off' m : Nat}
    (h : lookupEntry data other = .ok (some (off', m))) :
    lookupEntry (FlatArray.write data (SIZEOF_DIRENT * k) (direntFor name n).encode) other =
      .ok (some (off', m)) := by
  have hget := getElem?_entries_new habsent hslot hlt
  obtain ⟨j, de, rfl, hde, hm, hne, hcmp⟩ := lookupEntry_some h
  obtain ⟨de', hinum, hfind⟩ := lookupEntry_eq_some.mp h
  obtain ⟨hj, hmatch, hfirst⟩ := (findEntry_eq_some 0).mp hfind
  obtain rfl := Option.some.inj (hj.symm.trans hde)
  obtain ⟨k', hk', -, hfree⟩ := freeSlot_ok hslot
  have hjk : j ≠ k := by
    rintro rfl
    obtain rfl : j = k' := by
      simp only [SIZEOF_DIRENT] at hk'
      omega
    exact hne (hm ▸ hfree de' hj)
  refine lookupEntry_eq_some.mpr ⟨de', hinum, (findEntry_eq_some 0).mpr ⟨?_, hmatch, ?_⟩⟩
  · rwa [hget, if_neg hjk]
  · intro j' hlt' e he
    rw [hget] at he
    split at he
    · rw [Option.some.injEq] at he
      rw [← he]
      unfold isNamed
      have hother : namecmp other (direntFor name n).name ≠ 0 := by
        intro hsame
        have habsent' := isNamed_of_absent habsent hj
        rw [namecmp_eq_zero, direntFor, cstr_strncpy] at hsame
        have hname : namecmp name de'.name = 0 := by
          rw [namecmp_eq_zero, ← hsame]
          exact namecmp_eq_zero.mp hcmp
        rw [isNamed, hname, hinum] at habsent'
        simp [hne] at habsent'
      simp [hother]
    · exact hfirst j' hlt' e he

end Gains

/-! ## Paths -/

/-- Nothing that matters to the inode of a path differs. -/
structure SameDirs (s t : Sys P) : Prop where
  ninodes : t.ninodes = s.ninodes
  inUse : t.inUse = s.inUse
  proc : t.proc = s.proc
  ref : ∀ i, (t.mem i).ref = (s.mem i).ref
  type : ∀ i, (t.ino i).type = (s.ino i).type
  data : ∀ i, (s.ino i).type = .dir → (t.ino i).data = (s.ino i).data

theorem SameDirs.noEntry (h : SameDirs s t) (m : Multiset Nat) (i : Nat) :
    t.NoEntry m i ↔ s.NoEntry m i := by
  simp only [Sys.NoEntry, Sys.extra, h.ref, h.inUse]

theorem SameDirs.unreadable (h : SameDirs s t) (i : Nat) : t.unreadable i = s.unreadable i := by
  simp only [Sys.unreadable, h.ninodes, h.type]

theorem SameDirs.resolveFrom (h : SameDirs s t) (names : List (List UInt8)) (i : Nat) :
    t.resolveFrom names i = s.resolveFrom names i := by
  induction names generalizing i with
  | nil => rfl
  | cons first rest ih =>
    rw [Sys.resolveFrom, Sys.resolveFrom, h.unreadable]
    cases s.unreadable i with
    | some stop => rfl
    | none =>
      by_cases hdir : (s.ino i).type ≠ .dir
      · simp only [h.type, if_pos hdir]
      · simp only [h.type, if_neg hdir, h.data i (not_not.mp hdir), h.noEntry, ih]

theorem SameDirs.locate (h : SameDirs s t) (path : List UInt8) :
    t.locate p path = s.locate p path := by
  have hresolve : t.resolve p path = s.resolve p path := by
    simp only [Sys.resolve, h.noEntry, h.proc, h.resolveFrom]
  simp only [Sys.locate, hresolve, h.unreadable]

theorem Held.sameDirs (h : Held s p 0 none t) : SameDirs s t := by
  have ha := h.alike
  refine ⟨ha.ninodes, ?_, ha.proc, fun i => ?_, fun i => by rw [ha.ino], fun i _ => by rw [ha.ino]⟩
  · rw [h.inUse]
    rfl
  · rw [h.ref, Multiset.count_zero, Nat.add_zero]

-- The content of an inode that is no directory matters to no path.
theorem SameDirs.of_setData (hi : (s.ino i).type ≠ .dir) (data : List UInt8) (room : Room) :
    SameDirs s { s.setIno i { s.ino i with data := data } with room := room } := by
  refine ⟨rfl, rfl, rfl, fun _ => rfl, fun j => ?_, fun j hdir => ?_⟩
  · rw [Sys.setIno_ino]
    by_cases hj : j = i
    · rw [if_pos hj, hj]
    · rw [if_neg hj]
  · rw [Sys.setIno_ino, if_neg]
    rintro rfl
    exact hi hdir

/-! ## The new name -/

-- The walk to the parent of the new name finds what it did.
theorem NewName.walkFrom (h : NewName s p path dp ip off name)
    (hwritten : s.entryWritten dp off (linkEntry name ip) = SIZEOF_DIRENT)
    {names : List (List UInt8)} {i : Nat} {x : Nat × List UInt8}
    (hwalk : s.walkFrom true names i = .ok (some x)) :
    (s.made dp ip off name).walkFrom true names i = .ok (some x) := by
  have hnew := (h.written_cases.resolve_right fun hfails => hfails.1 hwritten).2
  induction names generalizing i with
  | nil => simp [Sys.walkFrom] at hwalk
  | cons first rest ih =>
    rw [Sys.walkFrom] at hwalk ⊢
    cases hread : s.unreadable i with
    | some stop => simp [hread] at hwalk
    | none =>
    simp only [hread, true_and] at hwalk
    by_cases hdir : (s.ino i).type ≠ .dir
    · simp [hdir] at hwalk
    rw [if_neg hdir] at hwalk
    rw [not_not] at hdir
    have hip : i ≠ ip := by
      rintro rfl
      rw [h.inode.free] at hdir
      cases hdir
    have htype : ((s.made dp ip off name).ino i).type = .dir := by
      rw [s.made_ino h.ne]
      by_cases hdp : i = dp
      · rwa [if_pos hdp, ← hdp]
      · rwa [if_neg hdp, if_neg hip]
    have hread' : (s.made dp ip off name).unreadable i = none := by
      rw [Sys.unreadable_eq_none, htype]
      exact ⟨(Sys.unreadable_eq_none.mp hread).1, by decide⟩
    simp only [hread', true_and, htype, ne_eq, not_true_eq_false, if_false]
    by_cases hlast : rest = []
    · rw [if_pos hlast] at hwalk ⊢
      exact hwalk
    rw [if_neg hlast] at hwalk ⊢
    rcases hlook : lookupEntry (s.ino i).data first with msg | _ | ⟨off', next⟩
    · simp [hlook] at hwalk
    · simp [hlook] at hwalk
    · have hlook' : lookupEntry ((s.made dp ip off name).ino i).data first =
          .ok (some (off', next)) := by
        rw [s.made_ino h.ne]
        by_cases hdp : i = dp
        · obtain ⟨k, rfl, -, -⟩ := freeSlot_ok h.slot
          rw [if_pos hdp, hnew]
          rw [hdp] at hlook
          exact lookupEntry_old h.absent h.slot (Nat.mod_lt ip (by decide)) hlook
        · rwa [if_neg hdp, if_neg hip]
      simp only [hlook, hlook'] at hwalk ⊢
      by_cases hfull : s.NoEntry {i} next
      · simp [hfull] at hwalk
      · have hfull' : ¬ (s.made dp ip off name).NoEntry {i} next := hfull
        rw [if_neg hfull] at hwalk
        rw [if_neg hfull']
        exact ih hwalk

theorem NewName.found_made (h : NewName s p path dp ip off name)
    (hwritten : s.entryWritten dp off (linkEntry name ip) = SIZEOF_DIRENT) :
    (s.made dp ip off name).found p path true = .ok (some (dp, name)) := by
  have hfound := h.found
  unfold Sys.found at hfound ⊢
  by_cases hroot : path.head? = some slash
  · rw [if_pos hroot] at hfound ⊢
    by_cases hfull : s.NoEntry 0 ROOTINO
    · simp [hfull] at hfound
    · have hfull' : ¬ (s.made dp ip off name).NoEntry 0 ROOTINO := hfull
      rw [if_neg hfull] at hfound
      rw [if_neg hfull']
      exact h.walkFrom hwritten hfound
  · rw [if_neg hroot] at hfound ⊢
    exact h.walkFrom hwritten hfound

-- Inode numbers are kept in directories as `ushort`.
theorem NewName.locate_made (h : NewName s p path dp ip off name) (hnum : s.ninodes ≤ 2 ^ 16)
    (hwritten : s.entryWritten dp off (linkEntry name ip) = SIZEOF_DIRENT) :
    (s.made dp ip off name).locate p path = .ok (some ip) := by
  have hlt := h.inode.lt
  have hpos := h.inode.pos
  have hmod : ip % 2 ^ 16 = ip := Nat.mod_eq_of_lt (by omega)
  have hlook : lookupEntry ((s.made dp ip off name).ino dp).data name = .ok (some (off, ip)) := by
    have hnew := (h.written_cases.resolve_right fun hfails => hfails.1 hwritten).2
    obtain ⟨k, rfl, -, -⟩ := freeSlot_ok h.slot
    rw [s.made_ino h.ne, if_pos rfl, hnew, linkEntry, hmod]
    exact lookupEntry_new h.absent h.slot (by omega) hpos
  exact Sys.locate_of_found (h.found_made hwritten) hlook h.room h.made_readable

/-! ## Links made again and again -/

/-- The path names nothing, or a symbolic link. -/
def NamesLink (s : Sys P) (p : P) (path : List UInt8) : Prop :=
  s.locate p path = .ok none ∨ ∃ i, s.locate p path = .ok (some i) ∧ (s.ino i).type = .symlink

/-- The path names a link whose content begins with the record for `target`. -/
def NamesTarget (s : Sys P) (p : P) (path target : List UInt8) : Prop :=
  ∃ i, s.locate p path = .ok (some i) ∧ (s.ino i).type = .symlink ∧ IsRecord (s.ino i).data target

theorem Created.sameDirs (h : Created s p path none s') : SameDirs s s' := by
  obtain ⟨-, hallocated, hsame⟩ := h.noTrace
  have htype : ∀ i, (s'.ino i).type = (s.ino i).type := by
    intro i
    by_cases hfree : (s.ino i).type = .free
    · rw [(hallocated i).mpr hfree, hfree]
    · rw [hsame i hfree]
  have hdata : ∀ i, (s.ino i).type = .dir → (s'.ino i).data = (s.ino i).data :=
    fun i hdir => by rw [hsame i (by simp [hdir])]
  cases h with
  | missing _ | full _ _ _ | undone _ _ => exact ⟨rfl, rfl, rfl, fun _ => rfl, htype, hdata⟩

-- What the two writes leave of a link that the path names.
theorem Recorded.names (hrec : Recorded s i target.bytes r s')
    (hloc : s.locate p path = .ok (some i)) (hlink : (s.ino i).type = .symlink) :
    NamesLink s' p path ∧ (r = 0 → NamesTarget s' p path target.bytes) := by
  cases hrec with
  | starved _ =>
    have hsame : SameDirs s { s with room := s.room.refused } :=
      ⟨rfl, rfl, rfl, fun _ => rfl, fun _ => rfl, fun _ _ => rfl⟩
    exact ⟨.inr ⟨i, (hsame.locate path).trans hloc, hlink⟩, fun hr => by cases hr⟩
  | written _ room =>
    have hsame := SameDirs.of_setData (s := s) (i := i) (by simp [hlink])
      (recorded (s.ino i).data target.bytes) room
    have hino : (s.setIno i { s.ino i with
        data := recorded (s.ino i).data target.bytes }).ino i =
        { s.ino i with data := recorded (s.ino i).data target.bytes } := by
      rw [Sys.setIno_ino, if_pos rfl]
    have hnames : NamesTarget { s.setIno i { s.ino i with
        data := recorded (s.ino i).data target.bytes } with room := room } p path target.bytes := by
      refine ⟨i, (hsame.locate path).trans hloc, ?_, ?_⟩
      · rwa [hino]
      · rw [hino]
        exact isRecord_written target.noNul target.short
    refine ⟨.inr ?_, fun _ => hnames⟩
    obtain ⟨j, hj, htype, -⟩ := hnames
    exact ⟨j, hj, htype⟩

theorem Linked.names (hnum : s.ninodes ≤ 2 ^ 16)
    (hpath : NamesLink s p path) (h : Linked s p target.bytes path r s') :
    NamesLink s' p path ∧ (r = 0 → NamesTarget s' p path target.bytes) := by
  cases h with
  | refused hcreated =>
    refine ⟨?_, fun hr => by cases hr⟩
    rcases hpath with hnone | ⟨i, hi, hlink⟩
    · exact .inl ((hcreated.sameDirs.locate path).trans hnone)
    · refine .inr ⟨i, (hcreated.sameDirs.locate path).trans hi, ?_⟩
      rwa [hcreated.same (by simp [hlink])]
  | got hcreated hrec =>
    cases hcreated with
    | existing hfound hlook hroom hread =>
      have hloc := Sys.locate_of_found hfound hlook hroom hread
      rcases hpath with hnone | ⟨i, hi, hlink⟩
      · rw [hloc] at hnone
        cases hnone
      · obtain rfl := Option.some.inj (Except.ok.inj (hi.symm.trans hloc))
        exact hrec.names hloc hlink
    | made hnew hwritten =>
      refine hrec.names (hnew.locate_made hnum hwritten) ?_
      rw [s.made_ino hnew.ne, if_neg hnew.ne.symm, if_pos rfl]
      rfl

theorem Linked.ninodes {target : List UInt8} (h : Linked s p target path r s') :
    s'.ninodes = s.ninodes := by
  have hcreated : ∀ {r : Option Nat} {s1 : Sys P}, Created s p path r s1 →
      s1.ninodes = s.ninodes := by
    intro r s1 h
    cases h <;> rfl
  cases h with
  | refused h => exact hcreated h
  | got h hrec =>
    rw [← hcreated h]
    cases hrec <;> rfl

variable [DecidableEq P]

/-- From `s` to `t` by calls of `sys_symlink` on one path, with these targets; they may fail. -/
def Relinks (p : P) (path : CStr) : List CStr → Sys P → Sys P → Prop
  | [], s, t => t = s
  | target :: rest, s, t =>
    ∃ r u, (sysSymlink target path).run (exec p) s = .ok (r, u) ∧ Relinks p path rest u t

-- One call.
theorem AtRest.relink (hr : AtRest s p) (hnum : s.ninodes ≤ 2 ^ 16) {path : CStr}
    (hpath : NamesLink s p path.bytes)
    (hrun : (Vfs.sysSymlink target path).run (exec p) s = .ok (r, t)) :
    AtRest t p ∧ t.ninodes = s.ninodes ∧ NamesLink t p path.bytes ∧
      (r = 0 → NamesTarget t p path.bytes target.bytes) := by
  obtain ⟨s', hlinked, hr', h'⟩ := (hr.sysSymlink target path).of_run hrun
  obtain ⟨hnames, htarget⟩ := hlinked.names hnum hpath
  have hloc := h'.sameDirs.locate (p := p) path.bytes
  refine ⟨hr'.of_held h', h'.alike.ninodes.trans hlinked.ninodes, ?_, fun hzero => ?_⟩
  · rwa [NamesLink, hloc, h'.alike.ino]
  · obtain ⟨i, hi, hlink, hrecord⟩ := htarget hzero
    refine ⟨i, hloc.trans hi, ?_, ?_⟩
    · rwa [h'.alike.ino]
    · rwa [h'.alike.ino]

-- And any number of them.
theorem Relinks.keeps {path : CStr} {targets : List CStr} (h : Relinks p path targets s t)
    (hr : AtRest s p) (hnum : s.ninodes ≤ 2 ^ 16) (hpath : NamesLink s p path.bytes) :
    AtRest t p ∧ t.ninodes = s.ninodes ∧ NamesLink t p path.bytes := by
  induction targets generalizing s with
  | nil =>
    obtain rfl := h
    exact ⟨hr, rfl, hpath⟩
  | cons target rest ih =>
    obtain ⟨r, u, hrun, hrest⟩ := h
    obtain ⟨hr', hsame, hpath', -⟩ := hr.relink hnum hpath hrun
    obtain ⟨hend, hsame', hpath''⟩ := ih hrest hr' (hsame ▸ hnum) hpath'
    exact ⟨hend, hsame'.trans hsame, hpath''⟩

/-- However often links have been made at the path, when the last call succeeds `sys_open` reads its
target there. -/
theorem sysSymlink_reads_back (hr : AtRest s p) (hnum : s.ninodes ≤ 2 ^ 16) {path : CStr}
    (hpath : NamesLink s p path.bytes) {earlier : List CStr} {target : CStr} {u : Sys P}
    (hearlier : Relinks p path earlier s u)
    (hrun : (sysSymlink target path).run (exec p) u = .ok (0, t)) :
    ∃ i, t.locate p path.bytes = .ok (some i) ∧ (t.ino i).type = .symlink ∧
      FlatArray.read (t.ino i).data 0 4 = leBytes 4 target.bytes.length ∧
      intValue (FlatArray.read (t.ino i).data 0 4) = target.bytes.length ∧
      FlatArray.read (t.ino i).data 4 (target.bytes.length + 1) = target.bytes ++ [0] ∧
      linkTarget (t.ino i).data = some target.bytes := by
  obtain ⟨hu, hsame, hpath'⟩ := hearlier.keeps hr hnum hpath
  obtain ⟨-, -, -, htarget⟩ := hu.relink (hsame ▸ hnum) hpath' hrun
  obtain ⟨i, hi, hlink, hrecord⟩ := htarget rfl
  obtain ⟨hlength, hstring⟩ := hrecord.reads
  have hshort := target.short
  simp only [MAXPATH] at hshort
  refine ⟨i, hi, hlink, hlength, ?_, hstring, linkTarget_of_record hrecord⟩
  rw [hlength]
  exact intValue_leBytes (by omega)

/-- The link `l` gets a longer target first, then a short one. -/
theorem sysSymlink_reads_back_shorter :
    ∃ u t, (sysSymlink ⟨[97, 98, 99], by decide, by decide⟩ ⟨[108], by decide, by decide⟩).run
        (exec ()) linkedDisk = .ok (0, u) ∧
      (sysSymlink ⟨[120], by decide, by decide⟩ ⟨[108], by decide, by decide⟩).run (exec ()) u =
        .ok (0, t) ∧
      ∃ i, t.locate () [108] = .ok (some i) ∧ linkTarget (t.ino i).data = some [120] := by
  obtain ⟨u, t, hfirst, hsecond⟩ : ∃ u t, (sysSymlink ⟨[97, 98, 99], by decide, by decide⟩
        ⟨[108], by decide, by decide⟩).run (exec ()) linkedDisk = .ok (0, u) ∧
      (sysSymlink ⟨[120], by decide, by decide⟩ ⟨[108], by decide, by decide⟩).run (exec ()) u =
        .ok (0, t) := by
    set_option maxRecDepth 4000 in
    exact ⟨_, _, rfl, rfl⟩
  have hrest : Relinks () ⟨[108], by decide, by decide⟩ [⟨[97, 98, 99], by decide, by decide⟩]
      linkedDisk u := ⟨0, u, hfirst, rfl⟩
  obtain ⟨i, hi, -, -, -, -, htarget⟩ := sysSymlink_reads_back linkedDisk_atRest (by decide)
    (.inr ⟨3, rfl, rfl⟩) hrest hsecond
  exact ⟨u, t, hfirst, hsecond, i, hi, htarget⟩

end OsProjects.Kernel.Vfs
