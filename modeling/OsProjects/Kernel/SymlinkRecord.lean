import OsProjects.Kernel.OpenLinks
import OsProjects.Kernel.Accounts

/-!
# SymlinkRecord — the content of symbolic links over sequences of calls

Calls are served one after another.  A link's record stays whole as long as nobody writes to a link
through a descriptor and `sys_symlink` gets the blocks it asks for.
-/

namespace OsProjects.Kernel.Vfs

open Lib Multiset

open Prog (after_bind after_call)

/-- What a process asks for. -/
inductive Request
  | call (c : Call)
  | write (fd : Int) (bytes : List UInt8)

def Request.code : Request → Kprog Int
  | .call c => c.code
  | .write fd bytes => sysWrite fd bytes

variable {P : Type} [DecidableEq P] {off : Nat}

/-- A request of a process, served to its end. -/
def Sys.serve (s : Sys P) (e : P × Request) : Except Stop (Sys P) :=
  (e.2.code.run (exec e.1) s).map Prod.snd

/-! ## Writing a record -/

-- A write within the first block, which is there or granted.
theorem writeData_first_block (room : Room) (i : Nat) (data bytes : List UInt8)
    (hoff : off ≤ data.length) (hpos : 0 < bytes.length) (hfit : off + bytes.length ≤ BSIZE)
    (hroom : data = [] → room.spare i = 0 → ∀ b ∈ room.answers.take 1, b = true) :
    (writeData room i data off bytes).1 = bytes.length ∧
      (writeData room i data off bytes).2.1 = FlatArray.write data off bytes := by
  have href : ¬ Refused data.length off bytes.length := by
    unfold Refused
    simp only [MAXFILE, BSIZE, NDIRECT, NINDIRECT, DOUBLEINDIRECT] at *
    omega
  have hblocks : blocksOf (off + bytes.length) = 1 := by
    unfold blocksOf
    simp only [BSIZE] at *
    omega
  refine writeData_granted href fun b hb => ?_
  rw [hblocks, Room.blocks] at hb
  by_cases hnone : data = [] ∧ room.spare i = 0
  · refine hroom hnone.1 hnone.2 b ?_
    rwa [hnone.1, hnone.2] at hb
  · -- there is a block already
    have hone : blocksFor 1 ≤ blocksFor (blocksOf data.length) + room.spare i := by
      by_cases hdata : data = []
      · have hspare : room.spare i ≠ 0 := fun hzero => hnone ⟨hdata, hzero⟩
        exact (Nat.pos_of_ne_zero hspare).trans_le (Nat.le_add_left _ _)
      · have hlen := List.length_pos_iff.mpr hdata
        refine (blocksFor_mono ?_).trans (Nat.le_add_right _ _)
        unfold blocksOf
        simp only [BSIZE]
        omega
    rw [Nat.sub_eq_zero_of_le hone, List.take_zero] at hb
    cases hb

-- The second write puts the string behind the length.
theorem isRecord_written {data target : List UInt8} (hnoNul : 0 ∉ target)
    (hshort : target.length < MAXPATH) :
    IsRecord (FlatArray.write (FlatArray.write data 0 (leBytes 4 target.length)) 4 (target ++ [0]))
      target := by
  have hlen := length_leBytes 4 target.length
  refine ⟨?_, hnoNul, hshort⟩
  unfold FlatArray.write
  rw [List.take_zero, List.nil_append, List.take_left' hlen, linkRecord]
  exact List.prefix_append _ _

/-! ## The state between the actions of a call -/

variable [Fintype P]

/-- Process `p`, with current directory `c`, is in a call that holds `m`; the books are in order,
and every link but `hole` has its record. -/
structure Booked (p : P) (c : Nat) (m : Multiset Nat) (x hole : Option Nat) (s : Sys P) : Prop where
  sound : Sound p m x s
  cwd : (s.proc p).cwd = c
  idle : ∀ f, (s.file f).ref = 0 → (s.file f).type = .none
  records : ∀ i, (s.ino i).type = .symlink → hole = some i ∨
    ∃ target, IsRecord (s.ino i).data target

variable {p : P} {c : Nat} {m m' : Multiset Nat} {x x' hole : Option Nat} {n : Nat} {s t : Sys P}

theorem Booked.leaves (h : Booked p c m x hole s) (hl : Leaves p m m' x x' n s t) :
    Booked p c m' x' hole t := by
  have hsound := (hl.sound 0 (by rw [Multiset.add_zero]; exact h.sound)).1
  rw [Multiset.add_zero] at hsound
  refine ⟨hsound, by rw [hl.proc, h.cwd], by rw [hl.file]; exact h.idle, fun i hlink => ?_⟩
  rcases hl.ino i with ⟨htype, -, hdata⟩ | ⟨-, -, hfree⟩
  · rw [htype] at hlink
    rw [hdata (by simp [hlink])]
    exact h.records i hlink
  · rw [hfree] at hlink
    cases hlink

-- Fields of an inode change, but not what kind of inode it is, nor a link's content.
theorem Booked.setIno (h : Booked p c m x hole s) (i : Nat) (v : Vinode)
    (htype : v.type = (s.ino i).type)
    (hdata : v.type = .symlink → hole = some i ∨ v.data = (s.ino i).data) :
    Booked p c m x hole (s.setIno i v) := by
  refine ⟨⟨h.sound.counted, fun j hpos => ?_⟩, h.cwd, h.idle, fun j hlink => ?_⟩
  · have hold := h.sound.alive j hpos
    by_cases hj : j = i
    · subst hj
      simpa [htype] using hold
    · simpa [hj] using hold
  · by_cases hj : j = i
    · subst hj
      rw [Sys.setIno_ino, if_pos rfl] at hlink ⊢
      rcases hdata hlink with hhole | hsame
      · exact .inl hhole
      · rw [hsame]
        exact h.records j (htype ▸ hlink)
    · rw [Sys.setIno_ino, if_neg hj] at hlink ⊢
      exact h.records j hlink

-- The rest of the state may be anything.
theorem Booked.congr (h : Booked p c m x hole s) (hino : t.ino = s.ino) (hmem : t.mem = s.mem)
    (hproc : t.proc = s.proc) (hfile : t.file = s.file) : Booked p c m x hole t := by
  refine ⟨⟨fun i => ?_, ?_⟩, ?_, ?_, ?_⟩
  · rw [hmem, Sys.holders_congr hfile hproc]
    exact h.sound.counted i
  · rw [hino, hmem]
    exact h.sound.alive
  · rw [hproc]
    exact h.cwd
  · rw [hfile]
    exact h.idle
  · rw [hino]
    exact h.records

theorem Booked.fill (h : Booked p c m x (some n) s)
    (hn : (s.ino n).type = .symlink → ∃ target, IsRecord (s.ino n).data target) :
    Booked p c m x none s := by
  refine ⟨h.sound, h.cwd, h.idle, fun i hlink => .inr ?_⟩
  rcases h.records i hlink with hi | hrecord
  · obtain rfl := Option.some.inj hi
    exact hn hlink
  · exact hrecord

theorem Booked.dig (h : Booked p c m x none s) (hole : Option Nat) : Booked p c m x hole s :=
  ⟨h.sound, h.cwd, h.idle, fun i hlink => .inr ((h.records i hlink).resolve_left nofun)⟩

/-! ## The account -/

variable {i : Nat} {r : Unit}

theorem Booked.ilock (h : Booked p c m none hole s) (hlock : exec p (.ilock i) s = .ok (r, t)) :
    Booked p c m none hole t := h.leaves (ilock_leaves m hlock nofun)

theorem Booked.iunlockput (h : Booked p c (i ::ₘ m) none hole s) :
    (iunlockput i).After (exec p) s fun _ t => Booked p c m none hole t :=
  (iunlockput_leaves i m none none nofun s).mono fun _ _ hl => h.leaves hl

theorem Booked.takes {type : FileType} {ip : Nat} (h : Booked p c m none none s)
    (ht : Takes p m type ip s t) (hfree : type ≠ .free) (hhole : type = .symlink → hole = some ip) :
    Booked p c (ip ::ₘ m) none hole t := by
  refine ⟨(ht.sound hfree h.sound).1, by rw [ht.proc, h.cwd], by rw [ht.file]; exact h.idle,
    fun i hlink => ?_⟩
  rw [ht.ino] at hlink ⊢
  by_cases hi : i = ip
  · subst hi
    rw [Function.update_self] at hlink
    exact .inl (hhole hlink)
  · rw [Function.update_of_ne hi] at hlink ⊢
    exact .inr ((h.records i hlink).resolve_left nofun)

theorem Booked.writeDirent {de : Dirent} {r : Int} (h : Booked p c m none hole s)
    (hwrite : exec p (.writeDirent i off de) s = .ok (r, t)) (hdir : (s.ino i).type = .dir) :
    Booked p c m none hole t := by
  cases hwrite
  refine (h.setIno i { s.ino i with data := (writeData s.room i (s.ino i).data off de.encode).2.1 }
    rfl fun hlink => ?_).congr rfl rfl rfl rfl
  rw [hdir] at hlink
  cases hlink

/-- The account of the books: `m` comes besides the current directory.  While nothing is written,
blocks are `room`. -/
def booked (p : P) (c : Nat) (hole : Option Nat) (room : Option (List Bool)) : Account P :=
  fun _ m _ x s => Booked p c (c ::ₘ m) x hole s ∧ ∀ l ∈ room, s.room.answers = l

variable {room : Option (List Bool)} {k k' : Int} {L L' : Multiset Nat}

theorem booked.leaves (h : booked p c hole room k m L x s)
    (hl : Leaves p (c ::ₘ m) (c ::ₘ m') x x' 0 s t) : booked p c hole room k' m' L' x' t := by
  obtain ⟨n, hn, hroom⟩ := hl.room
  obtain rfl := Nat.le_zero.mp hn
  exact ⟨h.1.leaves hl, fun l hmem => hroom.trans (h.2 l hmem)⟩

theorem booked_tracks (p : P) (c : Nat) (hole : Option Nat) (room : Option (List Bool)) :
    Tracks p (booked p c hole room) where
  begins h hop := by
    cases hop
    exact ⟨h.1.congr rfl rfl rfl rfl, h.2⟩
  ends h hop := by
    cases hop
    exact ⟨h.1.congr rfl rfl rfl rfl, h.2⟩
  gets {n m L s t r i} h hget := by
    have hl := iget_leaves (c ::ₘ m) hget
    rw [cons_swap] at hl
    exact booked.leaves h hl
  dups {n m L s t r} h hdup := by
    rw [h.1.cwd] at hdup ⊢
    exact booked.leaves h (idup_leaves (mem_cons_self c m) hdup)
  locks h hx hlock := booked.leaves h (ilock_leaves _ hlock hx)
  unlocks h hunlock := booked.leaves h (iunlock_leaves _ _ hunlock)
  puts {n m L x x' s i} h hx := by
    refine (iput_leaves i (c ::ₘ m) x x' hx s).mono fun _ t hl => ?_
    rw [cons_swap] at hl
    exact booked.leaves h hl
  forgets h x := booked.leaves h ((Leaves.refl p _ none _).weaken x)

theorem booked_tracksAll (p : P) (c : Nat) :
    TracksAll p (fun type => type ≠ .free ∧ type ≠ .symlink) (booked p c none none) where
  toTracks := booked_tracks p c none none
  sets h i v htype hdata := ⟨h.1.setIno i v htype fun _ => .inr hdata, h.2⟩
  enters h hdir hwrite := ⟨h.1.writeDirent hwrite hdir, nofun⟩
  prints h l := ⟨h.1.congr rfl rfl rfl rfl, h.2⟩
  takes {n m L s type} htype h := by
    refine (ialloc_takes type (c ::ₘ m) s).mono fun r t ht => ?_
    match r with
    | none => exact booked.leaves h ht
    | some ip =>
      have hb : Booked p c (ip ::ₘ c ::ₘ m) none none t :=
        h.1.takes ht htype.1 fun hlink => absurd hlink htype.2
      rw [cons_swap] at hb
      exact ⟨hb, nofun⟩

/-! ## A new link -/

theorem Booked.initInode {major minor : Int16} (h : Booked p c m none hole s)
    (hinit : exec p (.initInode i major minor) s = .ok (r, t)) : Booked p c m none hole t := by
  cases hinit
  exact h.setIno i _ rfl fun _ => .inr rfl

theorem Booked.clearNlink (h : Booked p c m none hole s)
    (hclear : exec p (.clearNlink i) s = .ok (r, t)) : Booked p c m none hole t := by
  cases hclear
  exact h.setIno i _ rfl fun _ => .inr rfl

variable {major minor : Int16} {dp : Nat} {name : List UInt8} {f : Fin NFILE} {g : File}

-- A new link is empty, and its first block is still to be had; if it gets no name it is freed.
theorem Booked.createInode_symlink (h : Booked p c (dp ::ₘ m) none none s)
    (hroom : ∀ b ∈ s.room.answers.take 4, b = true) :
    (Vfs.createInode dp name .symlink major minor).After (exec p) s fun r t =>
      match r with
      | none => Booked p c m none none t
      | some ip => Booked p c (ip ::ₘ m) none (some ip) t ∧ (t.ino ip).data = [] ∧
        ∀ b ∈ t.room.answers.take 1, b = true := by
  refine (ialloc_takes .symlink (dp ::ₘ m) s).bind fun r s1 h1 => ?_
  cases r with
  | none => exact (h.leaves h1).iunlockput.bind fun _ _ ht => ht
  | some ip =>
    have hb1 := h.takes h1 (by simp) fun _ => rfl
    have hone := (h1.sound (by simp) h.sound).2
    simp only [after_bind, after_call]
    intro _ s2 hlock _ s3 hinit
    have hb3 := (hb1.ilock hlock).initInode hinit
    have hnew : (s3.ino ip).type = .symlink ∧ (s3.ino ip).nlink = 1 ∧ (s3.ino ip).data = [] ∧
        (s3.mem ip).valid = true ∧ s3.room.answers = s.room.answers ∧ s3.file = s1.file ∧
        s3.proc = s1.proc := by
      obtain ⟨-, -, -, rfl⟩ := exec_ilock hlock
      cases hinit
      refine ⟨by simp [h1.ino, blank], by simp, by simp [h1.ino, blank], by simp, h1.room, rfl, rfl⟩
    obtain ⟨htype, hnlink, hdata, hvalid, hsame, hfile, hproc⟩ := hnew
    refine (createEntries_leaves (by simp) dp name ip 0 s3).mono fun b s4 h4 => ?_
    have hframe := h4.frame (ip ::ₘ dp ::ₘ m)
    rw [Multiset.zero_add] at hframe
    have hb4 := hb3.leaves hframe
    cases b with
    | true =>
      rw [cons_swap] at hb4
      refine (iunlockput_leaves dp (ip ::ₘ m) none none (by simp) s4).bind fun _ t ht => ?_
      have hspared := ((h4.ino ip).trans (ht.ino ip)).of_linked (by simp [hnlink])
      obtain ⟨k, hk, hk4⟩ := h4.room
      obtain ⟨k', hk', hkt⟩ := ht.room
      obtain rfl := Nat.le_zero.mp hk'
      refine ⟨hb4.leaves ht, (hspared.2.2 (by simp [htype])).trans hdata, fun b hb => hroom b ?_⟩
      rw [hkt, List.drop_zero, hk4, hsame, List.take_drop] at hb
      exact (List.take_sublist_take_left (by omega)).subset (List.mem_of_mem_drop hb)
    | false =>
      rw [if_neg (by simp)]
      simp only [after_bind, after_call]
      intro _ s5 hclear
      have hb5 := hb4.clearNlink hclear
      have hlast : (s5.mem ip).ref = 1 ∧ (s5.mem ip).valid = true ∧ (s5.ino ip).nlink = 0 := by
        cases hclear
        refine ⟨?_, ?_, by simp⟩
        · have hcount1 := hb1.sound.counted ip
          have hcount4 := hb4.sound.counted ip
          rw [Sys.holders_congr (h4.file.trans hfile) (h4.proc.trans hproc)] at hcount4
          show (s4.mem ip).ref = 1
          omega
        · have hsound := h4.sound (ip ::ₘ dp ::ₘ m) (by rw [Multiset.zero_add]; exact hb3.sound)
          exact hsound.2 ip (mem_cons_self _ _) hvalid
      refine (hb5.iunlockput.and (iunlockput_frees hlast.1 hlast.2.1 hlast.2.2)).mono
        fun _ s6 h6 => ?_
      obtain ⟨hb6, hgone⟩ := h6
      refine (hb6.fill fun hlink => ?_).iunlockput.mono fun _ _ ht => ht
      rw [hgone] at hlink
      cases hlink

/-! ## The calls on names -/

theorem Booked.writei {bytes : List UInt8} {r : Int}
    (h : Booked p c m none hole s) (hwrite : exec p (.writei i off bytes) s = .ok (r, t))
    (hkind : (s.ino i).type = .symlink → hole = some i) :
    Booked p c m none hole t ∧ (t.ino i).type = (s.ino i).type ∧
      r = (writeData s.room i (s.ino i).data off bytes).1 ∧
      (t.ino i).data = (writeData s.room i (s.ino i).data off bytes).2.1 := by
  cases hwrite
  refine ⟨(h.setIno i { s.ino i with data := (writeData s.room i (s.ino i).data off bytes).2.1 } rfl
    fun hlink => .inl (hkind hlink)).congr rfl rfl rfl rfl, by simp, rfl, by simp⟩

theorem booked.sysSymlink (h : booked p c none none k m 0 none s)
    (hroom : ∀ b ∈ s.room.answers.take 4, b = true) (target path : CStr) :
    (sysSymlink target path).After (exec p) s fun _ t => booked p c none none k m 0 none t := by
  have hcreate : ∀ s0 : Sys P, booked p c none (some s.room.answers) k m 0 none s0 →
      (Vfs.create path.bytes .symlink 0 0).After (exec p) s0 fun r t =>
      match r with
      | none => Booked p c (c ::ₘ m) none none t
      | some ip => Booked p c (ip ::ₘ c ::ₘ m) none (some ip) t ∧
        ((t.ino ip).type = .symlink → (t.ino ip).data = [] →
          ∀ b ∈ t.room.answers.take 1, b = true) := by
    intro s0 h0
    refine (booked_tracks p c none (some s.room.answers)).create h0 path.bytes (fun _ ht => ht.1)
      (fun ip t ht => ⟨?_, fun hlink hdata => ?_⟩) fun dp name s' h' _ => ?_
    · rw [cons_swap]
      exact ht.1.dig _
    · -- a link that was there has a record
      obtain ⟨target', hrecord⟩ := (ht.1.records ip hlink).resolve_left (by simp)
      have hlen := hrecord.length_le
      rw [hdata] at hlen
      simp at hlen
    · have hb := h'.1
      rw [cons_swap] at hb
      refine (hb.createInode_symlink (by rwa [h'.2 _ rfl])).mono fun r t ht => ?_
      cases r with
      | none => exact ht
      | some ip => exact ⟨ht.1, fun _ _ => ht.2.2⟩
  unfold Vfs.sysSymlink
  simp only [after_bind, after_call]
  intro _ s0 hbegin
  have hK := booked_tracks p c none none
  have h0 : booked p c none (some s.room.answers) k m 0 none s0 := by
    refine ⟨(hK.begins h hbegin).1, fun l hl => ?_⟩
    cases hl
    cases hbegin
    rfl
  refine (hcreate s0 h0).mono fun r s1 h1 => ?_
  cases r with
  | none => exact hK.returns ⟨h1, by simp⟩ (-1)
  | some ip =>
    obtain ⟨h1, hroom1⟩ := h1
    have hexit : ∀ (s' : Sys P) (r : Int), Booked p c (ip ::ₘ c ::ₘ m) none (some ip) s' →
        ((s'.ino ip).type = .symlink → ∃ target, IsRecord (s'.ino ip).data target) →
        ((do
          Vfs.iunlockput ip
          Vfs.endOp
          pure r) : Kprog Int).After (exec p) s' fun _ t => booked p c none none k m 0 none t :=
      fun s' r h' hrecord => (h'.fill hrecord).iunlockput.bind fun _ _ ht =>
        hK.returns ⟨ht, by simp⟩ r
    have hshort := target.short
    simp only [MAXPATH] at hshort
    have hlen := length_leBytes 4 target.bytes.length
    have hlen' : (target.bytes ++ [0]).length = target.bytes.length + 1 := by simp
    simp only [after_bind, after_call]
    intro r1 s2 hwrite1
    obtain ⟨h2, htype2, hr1, hdata2⟩ := h1.writei hwrite1 fun _ => rfl
    -- both writes to a link go to its first block
    have hfirst : (s1.ino ip).type = .symlink → r1 = 4 ∧ (s2.ino ip).data =
        FlatArray.write (s1.ino ip).data 0 (leBytes 4 target.bytes.length) := by
      intro hlink
      have hblock := writeData_first_block s1.room ip (s1.ino ip).data
        (leBytes 4 target.bytes.length)
        (Nat.zero_le _) (by omega) (by rw [hlen]; decide) fun hdata _ => hroom1 hlink hdata
      rw [hr1, hdata2, hblock.1, hblock.2, hlen]
      exact ⟨rfl, rfl⟩
    by_cases hr : r1 ≠ 4
    · rw [if_pos hr]
      exact hexit s2 _ h2 fun hlink => absurd (hfirst (htype2 ▸ hlink)).1 hr
    rw [if_neg hr]
    simp only [after_bind, after_call]
    intro r2 s3 hwrite2
    obtain ⟨h3, htype3, hr2, hdata3⟩ := h2.writei hwrite2 fun _ => rfl
    have hsecond : (s1.ino ip).type = .symlink → r2 = target.bytes.length + 1 ∧
        IsRecord (s3.ino ip).data target.bytes := by
      intro hlink
      have hdata := (hfirst hlink).2
      have hfour : 4 ≤ (s2.ino ip).data.length := by
        rw [hdata, FlatArray.length_write _ _ (Nat.zero_le _), hlen]
        omega
      have hblock := writeData_first_block s2.room ip (s2.ino ip).data (target.bytes ++ [0]) hfour
        (by omega) (by simp only [BSIZE]; omega) fun hnil => by rw [hnil] at hfour; simp at hfour
      rw [hr2, hdata3, hblock.1, hblock.2, hlen', hdata]
      exact ⟨by push_cast; rfl, isRecord_written target.noNul target.short⟩
    have hrecord : (s3.ino ip).type = .symlink → ∃ target, IsRecord (s3.ino ip).data target := by
      intro hlink
      rw [htype3, htype2] at hlink
      exact ⟨_, (hsecond hlink).2⟩
    by_cases hr' : r2 ≠ target.bytes.length + 1
    · rw [if_pos hr']
      exact hexit s3 _ h3 hrecord
    · rw [if_neg hr']
      exact hexit s3 _ h3 hrecord

-- The current directory of `p` itself is not among the holders.
theorem Booked.setProc (h : Booked p c m x hole s) (q : Proc) {c' : Nat} (hq : q.cwd = c') :
    Booked p c' m x hole (s.setProc p q) := by
  refine ⟨⟨fun i => ?_, h.sound.alive⟩, by simpa using hq, h.idle, h.records⟩
  have hsame : (s.setProc p q).holders p i = s.holders p i := by
    unfold Sys.holders
    congr 2
    ext q'
    by_cases hq : q' = p
    · simp [hq]
    · simp [hq]
  rw [hsame]
  exact h.sound.counted i

theorem booked.changeDir (h : booked p c none none k 0 0 none s) (path : List UInt8) :
    (changeDir path).After (exec p) s fun _ t => ∃ c, booked p c none none k 0 0 none t := by
  have hK := booked_tracks p c none none
  refine (hK.namei h path).bind fun r s1 h1 => ?_
  cases r with
  | none => exact (hK.returns h1 _).mono fun _ _ ht => ⟨c, ht⟩
  | some ip =>
    simp only [after_bind, after_call]
    intro _ s2 hlock v s3 hread
    cases hread
    have h2 := hK.locks_found h1 hlock
    split
    · exact (hK.releases (m := 0) h2 _).mono fun _ _ ht => ⟨c, ht⟩
    simp only [after_bind, after_call]
    intro _ s3 hunlock j s4 hcwd
    cases hcwd
    have h3 := (hK.unlocks h2 hunlock).1
    rw [h3.cwd]
    refine (iput_leaves c {ip} none none (by simp) s3).mono fun _ s5 hl _ s6 hend _ s7 hset => ?_
    have h6 : Booked p c {ip} none none s6 := by
      cases hend
      exact (h3.leaves hl).congr rfl rfl rfl rfl
    cases hset
    exact ⟨ip, h6.setProc { s6.proc p with cwd := ip } rfl, by simp⟩

theorem booked.sysChdir (h : booked p c none none k 0 0 none s) (path : Option CStr) :
    (sysChdir path).After (exec p) s fun _ t => ∃ c, booked p c none none k 0 0 none t := by
  have hK := booked_tracks p c none none
  intro _ s0 hbegin
  have h0 := hK.begins h hbegin
  match path with
  | none => exact (hK.returns h0 _).mono fun _ _ ht => ⟨c, ht⟩
  | some path => exact booked.changeDir h0 path.bytes

/-! ## The calls on files -/

/-- The references of an open file to inode `i`. -/
def File.refs (g : File) (i : Nat) : Nat := if g.type ≠ .none ∧ g.ip = i then 1 else 0

theorem Sys.holders_setFile (s : Sys P) (f : Fin NFILE) (g : File) (p : P) (i : Nat) :
    (s.setFile f g).holders p i + (s.file f).refs i = s.holders p i + g.refs i := by
  have hsum := sum_exchange (Finset.mem_univ f) (f := fun f' => ((s.setFile f g).file f').refs i)
    (g := fun f' => (s.file f').refs i) fun f' _ hf => by rw [Sys.setFile_file, if_neg hf]
  rw [Sys.setFile_file, if_pos rfl] at hsum
  simp only [holders, Finset.card_filter, Nat.add_assoc]
  exact congrArg _ hsum

-- A file comes into use, goes out of it, or goes on to refer to what it refers to.
theorem Booked.setFile (h : Booked p c m x hole s)
    (hm : ∀ i, m'.count i + g.refs i = m.count i + (s.file f).refs i)
    (hidle : g.ref = 0 → g.type = .none) : Booked p c m' x hole (s.setFile f g) := by
  refine ⟨⟨fun i => ?_, h.sound.alive⟩, h.cwd, fun f' hzero => ?_, h.records⟩
  · have hcount := h.sound.counted i
    have hholders := s.holders_setFile f g p i
    have hi := hm i
    show (s.mem i).ref = _
    omega
  · by_cases hf : f' = f
    · rw [hf, Sys.setFile_file, if_pos rfl] at hzero ⊢
      exact hidle hzero
    · rw [Sys.setFile_file, if_neg hf] at hzero ⊢
      exact h.idle f' hzero

theorem booked.fileclose (h : booked p c none none k m L none s) (f : Fin NFILE) :
    (fileclose f).After (exec p) s fun _ t => booked p c none none k m L none t := by
  have hK := booked_tracks p c none none
  have hput : ∀ {s1 : Sys P} {ip : Nat}, Booked p c (ip ::ₘ c ::ₘ m) none none s1 → ((do
      beginOp
      iput ip
      endOp) : Kprog Unit).After (exec p) s1 fun _ t => booked p c none none k m L none t := by
    intro s1 ip h1 _ s2 hbegin
    rw [cons_swap] at h1
    have h2 := hK.begins (n := k) (L := L) ⟨h1, nofun⟩ hbegin
    exact (hK.puts h2 nofun).bind fun _ _ h3 _ _ hend => hK.ends h3 hend
  unfold Vfs.fileclose
  intro r s1 hdrop
  rcases exec_dropFile hdrop with ⟨rfl, hmore, rfl⟩ | ⟨rfl, -, rfl⟩
  · refine ⟨h.1.setFile (fun _ => rfl) fun hzero => ?_, nofun⟩
    change (s.file f).ref - 1 = 0 at hzero
    omega
  · cases htype : (s.file f).type with
    | none => exact ⟨h.1.setFile (fun _ => by simp [File.refs, htype]) fun _ => rfl, nofun⟩
    | inode | device =>
      exact hput
        (h.1.setFile (fun j => by simp [File.refs, htype, count_cons, eq_comm]) fun _ => rfl)

-- The reference goes over to the file.
theorem booked.fileInit {major : Option Int16} {readable writable : Bool}
    (h : booked p c none none k (i ::ₘ m) L none s) (hnone : (s.file f).type = .none)
    (hused : (s.file f).ref ≠ 0)
    (hinit : exec p (.fileInit f major i readable writable) s = .ok (r, t)) :
    booked p c none none k m L none t ∧ t.ino = s.ino := by
  have hb := h.1
  rw [cons_swap] at hb
  cases hinit
  refine ⟨⟨?_, nofun⟩, rfl⟩
  cases major with
  | none | some major =>
    refine hb.setFile (fun j => ?_) fun hno => absurd hno hused
    simp [File.refs, hnone, count_cons, eq_comm]

theorem booked.openFile (h : booked p c none none (k + 1) (i ::ₘ m) (i ::ₘ 0) none s)
    (omode : UInt32) :
    (openFile omode i).After (exec p) s fun _ t => booked p c none none k m 0 none t := by
  have hK := booked_tracks p c none none
  unfold Vfs.openFile
  simp only [after_bind, after_call]
  intro v s1 hread
  cases hread
  split
  · exact hK.releases h _
  intro r s1 halloc
  rcases exec_filealloc halloc with ⟨f, rfl, hzero, rfl⟩ | ⟨rfl, rfl⟩
  · have hnone := h.1.idle f hzero
    have h1 : booked p c none none (k + 1) (i ::ₘ m) (i ::ₘ 0) none
        (s.setFile f { s.file f with ref := 1 }) :=
      ⟨h.1.setFile (fun _ => rfl) (by simp), by simp⟩
    intro r s2 hfdalloc
    rcases exec_fdalloc hfdalloc with ⟨n, rfl, -, hs2⟩ | ⟨rfl, rfl⟩
    · have h2 : booked p c none none (k + 1) (i ::ₘ m) (i ::ₘ 0) none s2 ∧
          (s2.file f).type = .none ∧ (s2.file f).ref ≠ 0 ∧ s2.ino = s.ino := by
        rw [hs2]
        refine ⟨⟨?_, by simp⟩, ?_, ?_, rfl⟩
        · exact h1.1.setProc _ h1.1.cwd
        · simpa [Sys.setProc] using hnone
        · simp [Sys.setProc]
      obtain ⟨h2, hnone2, hused2, hino2⟩ := h2
      intro _ s3 hinit
      obtain ⟨h3, hino3⟩ := booked.fileInit h2 hnone2 hused2 hinit
      have hino := hino3.trans hino2
      have hunlock : ∀ s4 : Sys P, booked p c none none (k + 1) m (i ::ₘ 0) none s4 → ((do
          iunlock i
          endOp
          pure (n.val : Int)) : Kprog Int).After (exec p) s4 fun _ t =>
            booked p c none none k m 0 none t :=
        fun s4 h4 _ s5 hunlock => hK.returns (hK.unlocks h4 hunlock) _
      by_cases htrunc : has omode O_TRUNC = true ∧ (s.ino i).type = .file
      · rw [if_pos htrunc]
        intro _ s4 hcut
        obtain ⟨room, -, rfl⟩ := exec_itrunc hcut
        refine hunlock _ ⟨(h3.1.setIno i { s3.ino i with data := [] } rfl fun hlink => ?_).congr
          rfl rfl rfl rfl, by simp⟩
        simp only [hino, htrunc.2, reduceCtorEq] at hlink
      · rw [if_neg htrunc]
        exact hunlock s3 h3
    · exact (booked.fileclose h1 f).bind fun _ _ h2 => hK.releases h2 _
  · exact hK.releases h _

theorem booked.sysOpen (h : booked p c none none k m 0 none s) (path : CStr) (omode : UInt32) :
    (sysOpen path omode).After (exec p) s fun _ t => booked p c none none k m 0 none t := by
  have hK := booked_tracksAll p c
  unfold Vfs.sysOpen
  simp only [after_bind, after_call]
  intro _ s0 hbegin
  refine (hK.openInode (by decide) (hK.begins h hbegin) path.bytes omode).mono fun r s1 h1 => ?_
  cases r with
  | none => exact hK.returns h1 _
  | some ip =>
    refine (hK.followLinks omode 9 h1).bind fun r s2 h2 => ?_
    cases r with
    | none => exact hK.returns h2 _
    | some ip => exact booked.openFile h2 omode

theorem booked.sysClose (h : booked p c none none k m L none s) (fd : Int) :
    (sysClose fd).After (exec p) s fun _ t => booked p c none none k m L none t := by
  unfold Vfs.sysClose
  intro r s1 htake
  have h1 : booked p c none none k m L none s1 := by
    cases htake
    by_cases hfd : 0 ≤ fd ∧ fd.toNat < NOFILE
    · rw [dif_pos hfd]
      exact ⟨h.1.setProc _ h.1.cwd, by simp⟩
    · rw [dif_neg hfd]
      exact h
  cases r with
  | none => exact h1
  | some f => exact (booked.fileclose h1 f).bind fun _ _ ht => ht

-- Each round leaves the file with its inode and the inode with its type.
theorem booked.filewriteLoop (f : Fin NFILE) (rounds : Nat) (rest : List UInt8)
    (h : booked p c none none k m L none s) (hkind : (s.ino (s.file f).ip).type ≠ .symlink) :
    (filewriteLoop f rounds rest).After (exec p) s fun _ t =>
      booked p c none none k m L none t := by
  have hK := booked_tracks p c none none
  induction rounds generalizing rest s with
  | zero => exact h
  | succ rounds ih =>
    unfold Vfs.filewriteLoop
    split
    · exact h
    simp only [after_bind, after_call]
    intro g s1 hget _ s1' hbegin _ s2 hlock r s3 hwrite
    cases hget
    have h2 := hK.locks (hK.begins h hbegin) (by simp) hlock
    have hsame : s2.ino = s.ino ∧ s2.file = s.file := by
      obtain ⟨-, -, -, rfl⟩ := exec_ilock hlock
      cases hbegin
      exact ⟨rfl, rfl⟩
    obtain ⟨h3, htype, -, -⟩ := h2.1.writei hwrite fun hlink => by
      rw [hsame.1] at hlink
      exact absurd hlink hkind
    have hfile3 : s3.file = s.file := by
      cases hwrite
      exact hsame.2
    rw [hsame.1] at htype
    have hrest : ∀ s4 : Sys P, Booked p c (c ::ₘ m) none none s4 → (s4.file f).ip = (s.file f).ip →
        (s4.ino (s.file f).ip).type ≠ .symlink → ((do
          iunlock (s.file f).ip
          Vfs.endOp
          if r ≠ (rest.take maxWrite).length then pure false
          else Vfs.filewriteLoop f rounds (rest.drop maxWrite)) : Kprog Bool).After (exec p) s4
            fun _ t => booked p c none none k m L none t := by
      intro s4 h4 hip hkind4 _ s5' hunlock _ s5 hend
      have h5 := hK.ends (n := k) (hK.unlocks (L := L) ⟨h4, by simp⟩ hunlock) hend
      by_cases hr : r ≠ (rest.take maxWrite).length
      · rw [if_pos hr]
        exact h5
      · rw [if_neg hr]
        obtain ⟨-, rfl⟩ := exec_iunlock hunlock
        cases hend
        exact ih _ h5 (by rw [← hip] at hkind4; exact hkind4)
    split
    · intro _ s4 hoff
      cases hoff
      exact hrest _ (h3.setFile (fun _ => rfl) (h3.idle f)) (by simp [hfile3]) (by
        show (s3.ino (s.file f).ip).type ≠ .symlink
        rw [htype]
        exact hkind)
    · exact hrest s3 h3 (by rw [hfile3]) (by rw [htype]; exact hkind)

theorem booked.sysWrite (h : booked p c none none k m L none s) (fd : Int) (bytes : List UInt8)
    (hkind : ∀ f, s.fd p fd = some f → (s.file f).type = .inode →
      (s.ino (s.file f).ip).type ≠ .symlink) :
    (sysWrite fd bytes).After (exec p) s fun _ t => booked p c none none k m L none t := by
  unfold Vfs.sysWrite
  simp only [after_bind, after_call]
  intro r s1 hfd
  cases hfd
  cases hf : s.fd p fd with
  | none => exact h
  | some f =>
    unfold filewrite
    simp only [after_bind, after_call]
    intro g s1 hget
    cases hget
    split
    · exact h
    cases htype : (s.file f).type with
    | none => exact fun r => r.elim
    | inode => exact (booked.filewriteLoop f _ _ h (hkind f hf htype)).bind fun _ _ ht => ht
    | device =>
      by_cases hmajor : (s.file f).major < 0 ∨ Int16.ofNat NDEV ≤ (s.file f).major
      · simp only [if_pos hmajor]
        exact h
      · simp only [if_neg hmajor]
        intro r s1 hdev
        simp only [exec] at hdev
        by_cases hcons : (s.file f).major = CONSOLE
        · rw [if_pos hcons] at hdev
          cases hdev
          exact ⟨h.1.congr rfl rfl rfl rfl, by simp⟩
        · rw [if_neg hcons] at hdev
          cases hdev
          exact h

/-! ## Sequences of calls -/

/-- All references to inode `i`. -/
def Sys.owners (s : Sys P) (i : Nat) : Nat :=
  (Finset.univ.filter fun q => (s.proc q).cwd = i).card +
    (Finset.univ.filter fun f => (s.file f).type ≠ .none ∧ (s.file f).ip = i).card

/-- Between two calls. -/
structure Clean (s : Sys P) : Prop where
  counted : ∀ i, (s.mem i).ref = s.owners i
  alive : ∀ i, 0 < (s.mem i).ref → (s.ino i).type ≠ .free
  idle : ∀ f, (s.file f).ref = 0 → (s.file f).type = .none
  records : ∀ i, (s.ino i).type = .symlink → ∃ target, IsRecord (s.ino i).data target

theorem Sys.owners_eq (s : Sys P) (p : P) (i : Nat) :
    s.owners i = s.holders p i + ({(s.proc p).cwd} : Multiset Nat).count i := by
  have hsum := sum_exchange (Finset.mem_univ p) (f := fun q => if (s.proc q).cwd = i then 1 else 0)
    (g := fun q => if q ≠ p ∧ (s.proc q).cwd = i then 1 else 0) fun q _ hq => by simp [hq]
  simp only [ne_eq, not_true_eq_false, false_and, if_false] at hsum
  simp only [owners, holders, Finset.card_filter, count_singleton, ne_eq, eq_comm (a := i)]
  omega

theorem Clean.toBooked (h : Clean s) (p : P) :
    Booked p (s.proc p).cwd {(s.proc p).cwd} none none s :=
  ⟨⟨fun i => (h.counted i).trans (s.owners_eq p i), fun i hpos => .inl (h.alive i hpos)⟩, rfl,
    h.idle, fun i hlink => .inr (h.records i hlink)⟩

theorem Booked.clean (h : Booked p c {c} none none s) : Clean s := by
  refine ⟨fun i => ?_, fun i hpos => (h.sound.alive i hpos).resolve_right nofun, h.idle,
    fun i hlink => (h.records i hlink).resolve_left nofun⟩
  rw [s.owners_eq p i, h.cwd]
  exact h.sound.counted i

omit [DecidableEq P] in
theorem Clean.boot (ninodes : Nat) (room : List Bool) : Clean (Sys.boot P ninodes room) := by
  refine ⟨fun i => ?_, fun i hpos => ?_, fun _ _ => rfl, fun i hlink => ?_⟩
  · by_cases hi : i = ROOTINO
    · simp [Sys.boot, Sys.owners, hi, Finset.card_univ]
    · simp [Sys.boot, Sys.owners, hi, Ne.symm hi]
  · by_cases hi : i = ROOTINO
    · simp [Sys.boot, hi]
    · simp [Sys.boot, hi] at hpos
  · by_cases hi : i = ROOTINO
    · simp [Sys.boot, hi] at hlink
    · simp [Sys.boot, hi, blank] at hlink

/-- Nobody writes to a link through a descriptor, and `sys_symlink` is called while four blocks can
be had: one for the directory and two on the way to it, one for the record. -/
def Request.Allowed (s : Sys P) (e : P × Request) : Prop :=
  match e.2 with
  | .write fd _ => ∀ f, s.fd e.1 fd = some f → (s.file f).type = .inode →
      (s.ino (s.file f).ip).type ≠ .symlink
  | .call (.symlink _ _) => ∀ b ∈ s.room.answers.take 4, b = true
  | .call _ => True

instance (s : Sys P) (e : P × Request) : Decidable (Request.Allowed s e) :=
  match e with
  | (p, .write fd _) => inferInstanceAs (Decidable (∀ f, s.fd p fd = some f →
      (s.file f).type = .inode → (s.ino (s.file f).ip).type ≠ .symlink))
  | (_, .call (.symlink _ _)) => inferInstanceAs (Decidable (∀ b ∈ s.room.answers.take 4, b = true))
  | (_, .call (.openFile _ _)) | (_, .call (.mkdir _)) | (_, .call (.mknod _ _ _))
  | (_, .call (.link _ _)) | (_, .call (.unlink _)) | (_, .call (.chdir _))
  | (_, .call (.close _)) => isTrue trivial

theorem Clean.code (h : Clean s) {r : Request} (hallowed : Request.Allowed s (p, r)) :
    r.code.After (exec p) s fun _ t => Clean t := by
  have hb : booked p (s.proc p).cwd none none 0 0 0 none s := ⟨h.toBooked p, nofun⟩
  have hK := booked_tracksAll p (s.proc p).cwd
  have hclean : ∀ {x : Kprog Int}, (x.After (exec p) s fun _ t =>
      booked p (s.proc p).cwd none none 0 0 0 none t) → x.After (exec p) s fun _ t => Clean t :=
    fun hx => hx.mono fun _ _ ht => ht.1.clean
  match r with
  | .write fd bytes => exact hclean (booked.sysWrite hb fd bytes hallowed)
  | .call (.symlink target path) =>
    exact argstr_after h fun target => argstr_after h fun path =>
      hclean (booked.sysSymlink hb hallowed target path)
  | .call (.openFile path omode) =>
    exact argstr_after h fun path => hclean (booked.sysOpen hb path omode)
  | .call (.mkdir path) => exact hclean (hK.sysMkdir (by decide) hb path)
  | .call (.mknod path major minor) => exact hclean (hK.sysMknod (by decide) hb path)
  | .call (.link old new) =>
    exact argstr_after h fun old => argstr_after h fun new =>
      hclean (hK.sysLink hb old new)
  | .call (.unlink path) => exact argstr_after h fun path => hclean (hK.sysUnlink hb path)
  | .call (.chdir path) => exact (booked.sysChdir hb path).mono fun _ _ ⟨_, ht⟩ => ht.1.clean
  | .call (.close fd) => exact hclean (booked.sysClose hb fd)

theorem Clean.reached {ninodes : Nat} {room : List Bool}
    (h : Reach Sys.serve Request.Allowed (Sys.boot P ninodes room) s) : Clean s := by
  refine h.invariant (Clean.boot ninodes room) fun s e s' hs hallowed hserve => ?_
  unfold Sys.serve at hserve
  cases hrun : e.2.code.run (exec e.1) s with
  | error stop =>
    rw [hrun] at hserve
    cases hserve
  | ok y =>
    rw [hrun] at hserve
    cases hserve
    exact (hs.code hallowed).of_run hrun

/-- A write through a descriptor that `O_NOFOLLOW` has opened makes the length of
the record `-1`. -/
theorem link_overwritten : ∃ s : Sys Unit,
    Reach Sys.serve (fun _ _ => True) (Sys.boot Unit 4 []) s ∧ (s.ino 2).type = .symlink ∧
      ¬ ∃ target, IsRecord (s.ino 2).data target := by
  obtain ⟨s, hreach, hs⟩ := exists_reach_of_follow Sys.serve (fun _ _ => True) (Sys.boot Unit 4 [])
    [((), .call (.symlink (some ⟨[116], by decide, by decide⟩)
      (some ⟨[108], by decide, by decide⟩))),
      ((), .call (.openFile (some ⟨[108], by decide, by decide⟩) (O_NOFOLLOW ||| O_RDWR))),
      ((), .write 0 [255, 255, 255, 255])]
    (fun s => (s.ino 2).type = .symlink && (linkTarget (s.ino 2).data).isNone) (by decide +kernel)
  rw [Bool.and_eq_true, decide_eq_true_eq, Option.isNone_iff_eq_none] at hs
  refine ⟨s, hreach, hs.1, fun ⟨target, hrecord⟩ => ?_⟩
  rw [linkTarget_of_record hrecord] at hs
  exact absurd hs.2 nofun

/-- In every state that calls reach from a formatted disk, one after another and by any processes,
each symbolic link holds a record: the reads of `sys_open` get its length and the whole string. -/
theorem links_hold_records {ninodes : Nat} {room : List Bool}
    (h : Reach Sys.serve Request.Allowed (Sys.boot P ninodes room) s) (i : Nat)
    (hlink : (s.ino i).type = .symlink) : ∃ target, IsRecord (s.ino i).data target ∧
      4 + target.length + 1 ≤ (s.ino i).data.length ∧
      FlatArray.read (s.ino i).data 0 4 = leBytes 4 target.length ∧
      FlatArray.read (s.ino i).data 4 (target.length + 1) = target ++ [0] := by
  obtain ⟨target, hrecord⟩ := (Clean.reached h).records i hlink
  exact ⟨target, hrecord, hrecord.length_le, hrecord.reads⟩

theorem links_hold_records_twoLinks : ∃ s : Sys Unit, (s.ino 3).type = .symlink ∧
    ∃ target, IsRecord (s.ino 3).data target := by
  obtain ⟨s, hreach, hs⟩ := exists_reach_of_follow Sys.serve Request.Allowed (Sys.boot Unit 4 [])
    [((), .call (.symlink (some ⟨[116], by decide, by decide⟩)
      (some ⟨[108], by decide, by decide⟩))),
      ((), .call (.symlink (some ⟨[108], by decide, by decide⟩)
        (some ⟨[109], by decide, by decide⟩)))]
    (fun s => (s.ino 3).type = .symlink) (by decide +kernel)
  have hlink := of_decide_eq_true hs
  obtain ⟨target, hrecord, -⟩ := links_hold_records hreach 3 hlink
  exact ⟨s, hlink, target, hrecord⟩

end OsProjects.Kernel.Vfs
