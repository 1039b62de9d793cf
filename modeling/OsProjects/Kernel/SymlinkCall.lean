import OsProjects.Kernel.CreateLink
import OsProjects.Kernel.SymlinkRecord
import OsProjects.Kernel.DirMap

/-!
# SymlinkCall — what one call of `sys_symlink` leaves behind

The call writes to whatever `create` returns.  With an inode that was there before, this need not be
a symbolic link; and when a new link gets no block for its content, its name stays.
-/

namespace OsProjects.Kernel.Vfs

open Lib Function

variable {P : Type} {s s' t : Sys P} {p : P} {i dp ip off : Nat} {path name target : List UInt8}
  {room : Room}

/-! ## The two writes -/

/-- The content after the two writes of `sys_symlink`. -/
def recorded (data target : List UInt8) : List UInt8 :=
  FlatArray.write (FlatArray.write data 0 (leBytes 4 target.length)) 4 (target ++ [0])

/-- Inode `i` has no block, and the next one asked for is refused. -/
def Starved (s : Sys P) (i : Nat) : Prop :=
  (s.ino i).data = [] ∧ s.room.spare i = 0 ∧ s.room.answers.head? = some false

instance (s : Sys P) (i : Nat) : Decidable (Starved s i) := inferInstanceAs (Decidable (_ ∧ _))

/-- The blocks after a request that is refused. -/
def Room.refused (room : Room) : Room :=
  { room with answers := room.answers.tail, bootFree := false }

/-- What the call returns for the inode `i` that it has got, and the state it leaves. -/
inductive Recorded (s : Sys P) (i : Nat) (target : List UInt8) : Int → Sys P → Prop
  | starved (h : Starved s i) : Recorded s i target (-1) { s with room := s.room.refused }
  | written (h : ¬ Starved s i) (room : Room) : Recorded s i target 0
      { s.setIno i { s.ino i with data := recorded (s.ino i).data target } with room := room }

theorem writeData_starved (bytes : List UInt8) (hspare : room.spare i = 0)
    (hroom : room.answers.head? = some false) (hpos : 0 < bytes.length)
    (hfit : bytes.length ≤ BSIZE) : writeData room i [] 0 bytes = (0, [], room.refused) := by
  obtain ⟨rest, hanswers⟩ : ∃ rest, room.answers = false :: rest := by
    cases hcase : room.answers with
    | nil => simp [hcase] at hroom
    | cons b rest => exact ⟨rest, by simpa [hcase] using hroom⟩
  have hone : blocksOf (0 + bytes.length) = 1 := by
    unfold blocksOf
    simp only [BSIZE] at *
    omega
  have hzero : room.blocks i ([] : List UInt8).length = 0 := by
    rw [Room.blocks, hspare]
    rfl
  have hsame : update room.spare i 0 = room.spare := by rw [← hspare, update_eq_self]
  have href : ¬ Refused ([] : List UInt8).length 0 bytes.length := by
    unfold Refused
    simp only [MAXFILE, BSIZE, NDIRECT, NINDIRECT, DOUBLEINDIRECT, List.length_nil] at *
    omega
  have hnone : dataBlocks 0 = 0 := by decide
  have hasked : blocksFor 1 - 0 = 1 := by decide
  rw [writeData, if_neg href, hone, hzero, hasked, hanswers]
  simp [takeRoom, hnone, FlatArray.write, blocksOf, blocksFor, hsame, Room.refused, hanswers]

-- Both writes go to the first block.
theorem writeData_recorded {data : List UInt8} (target : CStr)
    (hroom : ¬ (data = [] ∧ room.spare i = 0 ∧ room.answers.head? = some false)) :
    (writeData room i data 0 (leBytes 4 target.bytes.length)).1 = 4 ∧
      ∀ room', (writeData room' i (writeData room i data 0 (leBytes 4 target.bytes.length)).2.1 4
          (target.bytes ++ [0])).1 = target.bytes.length + 1 ∧
        (writeData room' i (writeData room i data 0 (leBytes 4 target.bytes.length)).2.1 4
          (target.bytes ++ [0])).2.1 = recorded data target.bytes := by
  have hshort := target.short
  simp only [MAXPATH] at hshort
  have hlen := length_leBytes 4 target.bytes.length
  have hlen' : (target.bytes ++ [0]).length = target.bytes.length + 1 := by simp
  have hgranted : data = [] → room.spare i = 0 → ∀ b ∈ room.answers.take 1, b = true := by
    intro hdata hspare b hb
    cases hanswers : room.answers with
    | nil => simp [hanswers] at hb
    | cons a rest =>
      obtain rfl : b = a := by simpa [hanswers] using hb
      exact Bool.eq_true_of_not_eq_false fun ha => hroom ⟨hdata, hspare, by simp [hanswers, ha]⟩
  have hfirst := writeData_first_block room i data (leBytes 4 target.bytes.length) (Nat.zero_le _)
    (by omega) (by rw [hlen]; decide) hgranted
  refine ⟨by rw [hfirst.1, hlen]; rfl, fun room' => ?_⟩
  have hfour : 4 ≤ (FlatArray.write data 0 (leBytes 4 target.bytes.length)).length := by
    rw [FlatArray.length_write _ _ (Nat.zero_le _), hlen]
    omega
  rw [hfirst.2]
  have hsecond := writeData_first_block room' i _ (target.bytes ++ [0]) hfour (by omega)
    (by simp only [BSIZE]; omega) fun hnil => by rw [hnil] at hfour; simp at hfour
  rw [hsecond.1, hsecond.2, hlen']
  exact ⟨by push_cast; rfl, rfl⟩

theorem Held.writei [DecidableEq P] {m : Multiset Nat} {k : Option Nat} (h : Held s p m k t)
    {bytes : List UInt8} {r : Int} {t' : Sys P}
    (hwrite : exec p (.writei i off bytes) t = .ok (r, t')) :
    r = (writeData s.room i (s.ino i).data off bytes).1 ∧
      Held { s.setIno i { s.ino i with
          data := (writeData s.room i (s.ino i).data off bytes).2.1 } with
        room := (writeData s.room i (s.ino i).data off bytes).2.2 } p m k t' := by
  cases hwrite
  have ha := h.alike
  refine ⟨by rw [ha.room, ha.ino],
    h.change ⟨ha.ninodes, ?_, ha.file, ha.proc, ?_, ha.born, ha.stamp,
    ha.clock⟩ rfl rfl rfl rfl fun j hj => ?_⟩
  · simp only [Sys.setIno, ha.ino, ha.room]
  · simp only [ha.ino, ha.room]
  · rw [Sys.unreadable_eq_none] at hj ⊢
    refine ⟨hj.1, ?_⟩
    rw [Sys.setIno_ino]
    split
    next hij =>
      exact hij ▸ hj.2
    · exact hj.2

-- Only content changes.
theorem AtRest.setData (hr : AtRest s p) (i : Nat) (data : List UInt8) (room : Room) :
    AtRest { s.setIno i { s.ino i with data := data } with room := room } p := by
  have hsame : ∀ j, ((s.setIno i { s.ino i with data := data }).ino j).type = (s.ino j).type ∧
      ((s.setIno i { s.ino i with data := data }).ino j).nlink = (s.ino j).nlink := by
    intro j
    rw [Sys.setIno_ino]
    split
    next hij =>
      rw [hij]
      exact ⟨rfl, rfl⟩
    · exact ⟨rfl, rfl⟩
  exact hr.change rfl rfl rfl rfl (fun j _ => hsame j) fun j hj => .inl ((hsame j).1.trans hj)

theorem Held.record [DecidableEq P] (hr : AtRest s p) (h : Held s p {i} (some i) t)
    (target : CStr) : ((do
      if (← Vfs.writei i 0 (leBytes 4 target.bytes.length)) ≠ 4 then do
        Vfs.iunlockput i
        endOp
        pure (-1)
      else if (← Vfs.writei i 4 (target.bytes ++ [0])) ≠ target.bytes.length + 1 then do
        Vfs.iunlockput i
        endOp
        pure (-1)
      else do
        Vfs.iunlockput i
        endOp
        pure 0) : Kprog Int).After (exec p) t fun r t' =>
      ∃ s', Recorded s i target.bytes r s' ∧ AtRest s' p ∧ Held s' p 0 none t' := by
  have hexit : ∀ (s' t' : Sys P) (r : Int), Recorded s i target.bytes r s' → AtRest s' p →
      Held s' p {i} (some i) t' →
      ((do
        Vfs.iunlockput i
        endOp
        pure r) : Kprog Int).After (exec p) t' fun r t' =>
        ∃ s', Recorded s i target.bytes r s' ∧ AtRest s' p ∧ Held s' p 0 none t' := by
    intro s' t' r hrec hr' h'
    refine (Held.iunlockput_after (m := 0) hr'.toQuiet h').bind fun _ u hu => ?_
    intro _ u' hend
    cases hend
    exact ⟨s', hrec, hr', hu.ops _⟩
  simp only [Prog.after_bind, Prog.after_call]
  intro r1 t1 hwrite1
  obtain ⟨hr1, h1⟩ := h.writei hwrite1
  by_cases hstarved : Starved s i
  · have hlen := length_leBytes 4 target.bytes.length
    have hnone := writeData_starved (leBytes 4 target.bytes.length) hstarved.2.1 hstarved.2.2
      (by omega) (by rw [hlen]; decide)
    rw [hstarved.1, hnone] at hr1 h1
    have hsame : ({ s.setIno i { s.ino i with data := [] } with room := s.room.refused } : Sys P) =
        { s with room := s.room.refused } := by
      have hino : { s.ino i with data := [] } = s.ino i := by rw [← hstarved.1]
      rw [hino]
      simp only [Sys.setIno, update_eq_self]
    rw [hr1, if_pos (show (0 : Int) ≠ 4 by decide)]
    refine hexit _ _ _ (.starved hstarved) ?_ (hsame ▸ h1)
    rw [← hsame]
    exact hr.setData i [] _
  · obtain ⟨hfour, hrest⟩ := writeData_recorded target hstarved
    rw [hr1, hfour, if_neg (by decide)]
    simp only [Prog.after_bind, Prog.after_call]
    intro r2 t2 hwrite2
    obtain ⟨hr2, h2⟩ := h1.writei hwrite2
    simp only [Sys.setIno, update_self, update_idem, (hrest _).1, (hrest _).2]
      at hr2 h2
    rw [hr2, if_neg (not_not.mpr rfl)]
    exact hexit _ _ _ (.written hstarved _) (hr.setData i _ _) h2

/-! ## The call -/

/-- What `sys_symlink` returns, and the state it leaves. -/
inductive Linked (s : Sys P) (p : P) (target path : List UInt8) : Int → Sys P → Prop
  | refused {s' : Sys P} (h : Created s p path none s') : Linked s p target path (-1) s'
  | got {i : Nat} {r : Int} {s₁ s' : Sys P} (h : Created s p path (some i) s₁)
      (hrec : Recorded s₁ i target r s') : Linked s p target path r s'

theorem AtRest.sysSymlink [DecidableEq P] (hr : AtRest s p) (target path : CStr) :
    (sysSymlink target path).After (exec p) s fun r t =>
      ∃ s', Linked s p target.bytes path.bytes r s' ∧ AtRest s' p ∧ Held s' p 0 none t := by
  unfold Vfs.sysSymlink
  simp only [Prog.after_bind, Prog.after_call]
  intro _ t0 hbegin
  cases hbegin
  refine ((hr.held.ops _).create hr path.bytes).mono fun r t1 hout => ?_
  obtain ⟨s1, hcreated, hr1, h1⟩ := hout
  cases r with
  | none =>
    intro _ t2 hend
    cases hend
    exact ⟨s1, .refused hcreated, hr1, h1.ops _⟩
  | some i =>
    refine (h1.record hr1 target).mono fun r t2 hrecord => ?_
    obtain ⟨s', hrec, hr', h'⟩ := hrecord
    exact ⟨s', .got hcreated hrec, hr', h'⟩

/-! ## What it may not touch -/

/-- Directory `d`, the parent of the path, has one entry more, for its last element. -/
def GainsEntry (s t : Sys P) (p : P) (path : List UInt8) (d : Nat) : Prop :=
  ∃ name off ip, s.found p path true = .ok (some (d, name)) ∧
    lookupEntry (s.ino d).data name = .ok none ∧ freeSlot (s.ino d).data = .ok off ∧
    (t.ino d).data = FlatArray.write (s.ino d).data off (linkEntry name ip).encode

/-- From `s` to `t`, where the call returned `r`, no inode but symbolic links was touched, and the
call has failed on a path that names another kind of inode. -/
structure OnlyLinks (s t : Sys P) (p : P) (path : List UInt8) (r : Int) : Prop where
  kept : ∀ i, (s.ino i).type ≠ .free → (s.ino i).type ≠ .symlink →
    (t.ino i).type = (s.ino i).type ∧
      ((t.ino i).data = (s.ino i).data ∨ GainsEntry s t p path i)
  fails : ∀ i, s.locate p path = .ok (some i) → (s.ino i).type ≠ .symlink → r = -1

/-- The last element of the path names an inode that is no symbolic link, and that has a block or
can be given one. -/
def Overwrites (s : Sys P) (p : P) (path : List UInt8) : Prop :=
  elements path ≠ [] ∧ ∃ i, s.locate p path = .ok (some i) ∧ (s.ino i).type ≠ .symlink ∧
  ¬ Starved s i

theorem Sys.locate_of_found (h : s.found p path true = .ok (some (dp, name)))
    (hlook : lookupEntry (s.ino dp).data name = .ok (some (off, ip))) (hroom : ¬ s.NoEntry {dp} ip)
    (hread : s.unreadable ip = none) : s.locate p path = .ok (some ip) := by
  have hresolve : s.resolve p path = .ok (some ip) := by
    rw [resolve_of_found h, lookupIn, hlook]
    exact if_neg hroom
  simp only [locate, hresolve, hread]

theorem Sys.locate_of_absent (h : s.found p path true = .ok (some (dp, name)))
    (hlook : lookupEntry (s.ino dp).data name = .ok none) : s.locate p path = .ok none := by
  have hresolve : s.resolve p path = .ok none := by
    rw [resolve_of_found h, lookupIn, hlook]
  simp only [locate, hresolve]

theorem Sys.locate_of_not_found (hne : elements path ≠ []) (h : s.found p path true = .ok none) :
    s.locate p path = .ok none := by
  simp only [locate, resolve_of_not_found hne h]

-- A path that names something names what `create` finds.
theorem Created.not_overwrites (h : Created s p path none s') : ¬ Overwrites s p path := by
  rintro ⟨hne, i, hi, -, -⟩
  have hnone : s.locate p path = .ok none := by
    cases h with
    | missing hfound => exact Sys.locate_of_not_found hne hfound
    | full hfound hlook _ => exact Sys.locate_of_absent hfound hlook
    | undone hnew _ => exact Sys.locate_of_absent hnew.found hnew.absent
  rw [hnone] at hi
  cases hi

-- The entry is written whole or not at all.
theorem NewName.written_cases (h : NewName s p path dp ip off name) :
    (s.entryWritten dp off (linkEntry name ip) = SIZEOF_DIRENT ∧
      (writeData s.room dp (s.ino dp).data off (linkEntry name ip).encode).2.1 =
        FlatArray.write (s.ino dp).data off (linkEntry name ip).encode) ∨
    (s.entryWritten dp off (linkEntry name ip) ≠ SIZEOF_DIRENT ∧
      (writeData s.room dp (s.ino dp).data off (linkEntry name ip).encode).2.1 =
        (s.ino dp).data) := by
  obtain ⟨k, rfl, -, -⟩ := freeSlot_ok h.slot
  rcases @writeData_dirent s.room dp (s.ino dp).data k _ (linkEntry_fits name ip) with
    ⟨hwritten, hdata, -⟩ | ⟨hfails, hdata⟩
  · exact .inl ⟨hwritten, hdata⟩
  · exact .inr ⟨hfails, hdata⟩

theorem NewName.made_kept (h : NewName s p path dp ip off name)
    (hwritten : s.entryWritten dp off (linkEntry name ip) = SIZEOF_DIRENT) {i : Nat}
    (hi : (s.ino i).type ≠ .free) (hino : t.ino i = (s.made dp ip off name).ino i) :
    (t.ino i).type = (s.ino i).type ∧
      ((t.ino i).data = (s.ino i).data ∨ GainsEntry s t p path i) := by
  have hip : i ≠ ip := fun hip => hi (hip ▸ h.inode.free)
  by_cases hdp : i = dp
  · have hdata := (h.written_cases.resolve_right fun hfails => hfails.1 hwritten).2
    subst hdp
    rw [s.made_ino h.ne, if_pos rfl] at hino
    refine ⟨by rw [hino], .inr ⟨name, off, ip, h.found, h.absent, h.slot, ?_⟩⟩
    rwa [hino]
  · rw [s.made_ino h.ne, if_neg hdp, if_neg hip] at hino
    rw [hino]
    exact ⟨rfl, .inl rfl⟩

-- What has been undone was there for nobody.
theorem NewName.undone_same (h : NewName s p path dp ip off name)
    (hfails : s.entryWritten dp off (linkEntry name ip) ≠ SIZEOF_DIRENT) {i : Nat}
    (hi : (s.ino i).type ≠ .free) : (s.undone dp ip off name).ino i = s.ino i := by
  have hip : i ≠ ip := fun hip => hi (hip ▸ h.inode.free)
  rw [s.undone_ino h.ne]
  by_cases hdp : i = dp
  · have hdata := (h.written_cases.resolve_left fun hwritten => hfails hwritten.1).2
    rw [if_pos hdp, hdata, hdp]
  · rw [if_neg hdp, if_neg hip]

theorem Created.same (h : Created s p path none s') (hi : (s.ino i).type ≠ .free) :
    s'.ino i = s.ino i := by
  cases h with
  | missing _ | full _ _ _ => rfl
  | undone hnew hfails => exact hnew.undone_same hfails hi

-- Where `create` gave an inode that was there, the rest depends on what kind of inode this is.
theorem onlyLinks_existing_iff {r : Int} (hloc : s.locate p path = .ok (some ip))
    (hne : elements path ≠ []) (hrec : Recorded s ip target r s') (ht : t.ino = s'.ino) :
    OnlyLinks s t p path r ↔ ¬ Overwrites s p path := by
  have honly : ∀ i, s.locate p path = .ok (some i) → i = ip := by
    intro i hi
    rw [hloc] at hi
    exact (Option.some.inj (Except.ok.inj hi)).symm
  cases hrec with
  | starved hstarved =>
    refine ⟨fun _ ⟨_, i, hi, _, hfed⟩ => hfed (honly i hi ▸ hstarved), fun _ => ⟨fun i _ _ => ?_,
      fun _ _ _ => rfl⟩⟩
    rw [ht]
    exact ⟨rfl, .inl rfl⟩
  | written hfed room =>
    by_cases hlink : (s.ino ip).type = .symlink
    · refine ⟨fun _ ⟨_, i, hi, hno, _⟩ => hno (honly i hi ▸ hlink), fun _ => ⟨fun i _ hno => ?_,
        fun i hi hno => absurd (honly i hi ▸ hlink) hno⟩⟩
      have hi : i ≠ ip := fun hi => hno (hi ▸ hlink)
      rw [ht]
      rw [Sys.setIno_ino, if_neg hi]
      exact ⟨rfl, .inl rfl⟩
    · refine ⟨fun h => ?_, fun hsafe => absurd ⟨hne, ip, hloc, hlink, hfed⟩ hsafe⟩
      exact absurd (h.fails ip hloc hlink) (by decide)

theorem linkedDisk_atRest : AtRest linkedDisk () := by
  refine ⟨linkedDisk_quiet, fun i href => ?_⟩
  by_cases hi : i = ROOTINO
  · rw [hi]
    rfl
  · simp [linkedDisk, hi] at href

/-- No name, no inode and no content has changed. -/
structure NoTrace (s t : Sys P) : Prop where
  names : ∀ d, (s.ino d).type = .dir → ∀ name,
    lookupEntry (t.ino d).data name = lookupEntry (s.ino d).data name
  allocated : ∀ i, (t.ino i).type = .free ↔ (s.ino i).type = .free
  content : ∀ i, (s.ino i).type ≠ .free → t.ino i = s.ino i

/-- How many blocks directory `dp` asks for when an entry is put at `off`: none, or one for the data
and up to two on the way to it. -/
def Sys.growth (s : Sys P) (dp off : Nat) : Nat :=
  blocksFor (blocksOf (off + SIZEOF_DIRENT)) - s.room.blocks dp (s.ino dp).data.length

/-- The name is new, there is an inode for it and room for its entry in the parent, and the request
for a block that follows is refused. -/
def LeavesEntry (s : Sys P) (p : P) (path : List UInt8) : Prop :=
  ∃ dp name off, s.found p path true = .ok (some (dp, name)) ∧
    lookupEntry (s.ino dp).data name = .ok none ∧ (∃ i, s.Free i) ∧
    freeSlot (s.ino dp).data = .ok off ∧ off + SIZEOF_DIRENT ≤ MAXFILE * BSIZE ∧
    (∀ b ∈ s.room.answers.take (s.growth dp off), b = true) ∧
    s.room.answers[s.growth dp off]? = some false

-- An entry is written when it is within the largest file and its blocks, if it takes any, are
-- granted.
theorem NewName.written_iff (h : NewName s p path dp ip off name) :
    (s.entryWritten dp off (linkEntry name ip) = SIZEOF_DIRENT ↔
      off + SIZEOF_DIRENT ≤ MAXFILE * BSIZE ∧
        ∀ b ∈ s.room.answers.take (s.growth dp off), b = true) ∧
    (s.entryWritten dp off (linkEntry name ip) = SIZEOF_DIRENT →
      (s.made dp ip off name).room.answers = s.room.answers.drop (s.growth dp off)) := by
  obtain ⟨k, hoff, hk, -⟩ := freeSlot_ok h.slot
  have henc := (linkEntry_fits name ip).length_encode
  rw [length_entries] at hk
  have hle : off ≤ (s.ino dp).data.length := by
    simp only [SIZEOF_DIRENT] at *
    omega
  have hroom : (s.made dp ip off name).room.answers =
      (writeData s.room dp (s.ino dp).data off (linkEntry name ip).encode).2.2.answers := by
    simp only [Sys.made, Sys.putEntry, Sys.newLink, Sys.setIno_ino, if_neg h.ne,
      writeData_clear h.ne]
    rfl
  obtain ⟨n, -, hleft, hall⟩ := takeRoom_snd s.room.answers (s.growth dp off)
  rw [hroom, Sys.entryWritten, writeData, henc]
  by_cases href : Refused (s.ino dp).data.length off SIZEOF_DIRENT
  · rw [if_pos href]
    have hbig : ¬ off + SIZEOF_DIRENT ≤ MAXFILE * BSIZE := by
      unfold Refused at href
      simp only [MAXFILE, BSIZE, NDIRECT, NINDIRECT, DOUBLEINDIRECT, SIZEOF_DIRENT] at *
      omega
    have hno : (-1 : Int) ≠ SIZEOF_DIRENT := by decide
    exact ⟨⟨fun hyes => absurd hyes hno, fun hyes => absurd hyes.1 hbig⟩,
      fun hyes => absurd hyes hno⟩
  · have hfits := (not_refused (by decide) href).2
    rw [if_neg href, and_iff_right hfits, ← takeRoom_eq_iff]
    -- the entry ends in the last block that is asked for
    have hwritten : ((min SIZEOF_DIRENT (dataBlocks (s.room.blocks dp (s.ino dp).data.length +
        (takeRoom s.room.answers (s.growth dp off)).1) * BSIZE - off) : Nat) : Int) =
          SIZEOF_DIRENT ↔
        (takeRoom s.room.answers (s.growth dp off)).1 = s.growth dp off := by
      have hle' := takeRoom_fst_le s.room.answers (s.growth dp off)
      generalize (takeRoom s.room.answers (s.growth dp off)).1 = n at hle' ⊢
      have hblocks := @le_dataBlocks_iff (s.room.blocks dp (s.ino dp).data.length + n)
        (blocksOf (off + SIZEOF_DIRENT))
      have hbytes : blocksOf (off + SIZEOF_DIRENT) ≤
          dataBlocks (s.room.blocks dp (s.ino dp).data.length + n) ↔ off + SIZEOF_DIRENT ≤
            dataBlocks (s.room.blocks dp (s.ino dp).data.length + n) * BSIZE := by
        unfold blocksOf
        simp only [SIZEOF_DIRENT, BSIZE]
        omega
      rw [Int.natCast_inj, min_eq_left_iff]
      unfold Sys.growth at *
      simp only [SIZEOF_DIRENT] at *
      omega
    refine ⟨hwritten, fun hyes => ?_⟩
    show (takeRoom s.room.answers (s.growth dp off)).2 = _
    rw [hleft, hall (hwritten.mp hyes)]

theorem Created.noTrace (h : Created s p path none s') : NoTrace s s' := by
  have hsame : ∀ i, (s.ino i).type ≠ .free → s'.ino i = s.ino i := fun _ hi => h.same hi
  refine ⟨fun d hdir name => ?_, fun i => ?_, hsame⟩
  · rw [hsame d (by simp [hdir])]
  · by_cases hfree : (s.ino i).type = .free
    · refine ⟨fun _ => hfree, fun _ => ?_⟩
      cases h with
      | missing _ | full _ _ _ => exact hfree
      | undone hnew _ =>
        rw [s.undone_ino hnew.ne]
        split
        · next hi => exact hi ▸ hfree
        · split
          · rfl
          · exact hfree
    · rw [hsame i hfree]

-- A new name stays when there is no block for the content.
theorem NewName.leavesEntry_iff (h : NewName s p path dp ip off name)
    (hwritten : s.entryWritten dp off (linkEntry name ip) = SIZEOF_DIRENT) :
    Starved (s.made dp ip off name) ip ↔ LeavesEntry s p path := by
  have hdata : ((s.made dp ip off name).ino ip).data = [] := by
    rw [s.made_ino h.ne, if_neg h.ne.symm, if_pos rfl]
    rfl
  obtain ⟨hfits, hgranted⟩ := h.written_iff.1.mp hwritten
  rw [Starved, hdata, h.written_iff.2 hwritten, List.head?_drop, and_iff_right rfl,
    and_iff_right (Sys.made_spare h.ne)]
  refine ⟨fun hno => ⟨dp, name, off, h.found, h.absent, ⟨ip, h.inode⟩, h.slot, hfits, hgranted,
    hno⟩, ?_⟩
  rintro ⟨dp', name', off', hfound, -, -, hslot, -, -, hno⟩
  obtain ⟨rfl, rfl⟩ := Prod.mk.inj (Option.some.inj (Except.ok.inj (h.found.symm.trans hfound)))
  obtain rfl := Except.ok.inj (h.slot.symm.trans hslot)
  exact hno

-- Where `create` gives nothing, or what was there, no entry is left.
theorem Created.not_leavesEntry (h : Created s p path none s') : ¬ LeavesEntry s p path := by
  rintro ⟨dp', name', off', hfound', habsent', ⟨i, hi⟩, hslot', hfits, hgranted, -⟩
  cases h with
  | missing hfound =>
    rw [hfound] at hfound'
    cases hfound'
  | full hfound _ hfull => exact hfull i hi
  | undone hnew hfails =>
    obtain ⟨rfl, rfl⟩ :=
      Prod.mk.inj (Option.some.inj (Except.ok.inj (hnew.found.symm.trans hfound')))
    obtain rfl := Except.ok.inj (hnew.slot.symm.trans hslot')
    exact hfails (hnew.written_iff.1.mpr ⟨hfits, hgranted⟩)

/-- The same disk with an inode left, but no block. -/
def tightDisk : Sys Unit := { linkedDisk with ninodes := 5, room := { answers := [false] } }

theorem tightDisk_atRest : AtRest tightDisk () := by
  have hread : ∀ i, 0 < (tightDisk.mem i).ref → tightDisk.unreadable i = none := by
    intro i href
    by_cases hi : i = ROOTINO
    · rw [hi]
      rfl
    · simp [tightDisk, linkedDisk, hi] at href
  have hq := linkedDisk_quiet
  exact ⟨⟨hq.unlocked, fun i href _ => hread i href, hq.linked, hq.cwd, hq.files⟩, hread⟩

end OsProjects.Kernel.Vfs
