import OsProjects.Kernel.Sysfile
import Mathlib.Data.Multiset.Basic
import Mathlib.Data.Finset.Card
import Mathlib.Data.Multiset.Dedup

/-!
# Resolve — what a path names, and `namei` when it runs alone

`resolve` gives the inode a path names as a function of the state: which directories there are, and
how full the inode table is.  Run alone, `namei` finds that inode or stops as `resolve` says, and
leaves the state as it was but for one more reference.
-/

namespace OsProjects.Kernel.Vfs

open Lib Multiset

open Prog (run_bind_error run_bind_ok run_call_error run_call_ok)

variable {P : Type}

/-! ## The inode of a path -/

/-- How many entries the inode table uses more when the inodes of `m` are referenced besides. -/
def Sys.extra (s : Sys P) (m : Multiset Nat) : Nat :=
  (m.toFinset.filter fun i => (s.mem i).ref = 0).card

/-- The inode table has no entry for `i` while the inodes of `m` are referenced besides. -/
def Sys.NoEntry (s : Sys P) (m : Multiset Nat) (i : Nat) : Prop :=
  (s.mem i).ref = 0 ∧ i ∉ m ∧ NINODE ≤ s.inUse + s.extra m

instance (s : Sys P) (m : Multiset Nat) (i : Nat) : Decidable (s.NoEntry m i) :=
  inferInstanceAs (Decidable (_ ∧ _ ∧ _))

def Sys.resolveFrom (s : Sys P) : List (List UInt8) → Nat → Except Stop (Option Nat)
  | [], i => .ok (some i)
  | name :: rest, i =>
    match s.unreadable i with
    | some stop => .error stop
    | none =>
      if (s.ino i).type ≠ .dir then .ok none
      else
        match lookupEntry (s.ino i).data name with
        | .error msg => .error (.panic msg)
        | .ok none => .ok none
        | .ok (some (_, next)) =>
          if s.NoEntry {i} next then .error (.panic "iget: no inodes") else s.resolveFrom rest next

/-- What `namei(path)` is for process `p`. -/
def Sys.resolve (s : Sys P) (p : P) (path : List UInt8) : Except Stop (Option Nat) :=
  if path.head? = some slash then
    if s.NoEntry 0 ROOTINO then .error (.panic "iget: no inodes")
    else s.resolveFrom (elements path) ROOTINO
  else s.resolveFrom (elements path) (s.proc p).cwd

/-- The same with the `ilock` that follows; this is where a dangling entry shows. -/
def Sys.locate (s : Sys P) (p : P) (path : List UInt8) : Except Stop (Option Nat) :=
  match s.resolve p path with
  | .ok (some i) =>
    match s.unreadable i with
    | some stop => .error stop
    | none => .ok (some i)
  | r => r

/-! ## States with some references and a lock more -/

/-- No call is under way, and the tables are in order: only inodes that exist are held as valid, an
inode without links is in use, and free files are of no type. -/
structure Quiet (s : Sys P) (p : P) : Prop where
  unlocked : ∀ i, (s.mem i).lock = none
  valid : ∀ i, 0 < (s.mem i).ref → (s.mem i).valid = true → s.unreadable i = none
  linked : ∀ i, (s.ino i).type ≠ .free → (s.ino i).nlink = 0 → 0 < (s.mem i).ref
  cwd : 0 < (s.mem (s.proc p).cwd).ref
  files : ∀ f, (s.file f).ref = 0 → (s.file f).type = .none

/-- Nothing differs but the inode table, the console and the count of operations. -/
structure Alike (s t : Sys P) : Prop where
  ninodes : t.ninodes = s.ninodes
  ino : t.ino = s.ino
  file : t.file = s.file
  proc : t.proc = s.proc
  room : t.room = s.room
  born : t.born = s.born
  stamp : t.stamp = s.stamp
  clock : t.clock = s.clock

/-- `t` is `s` where process `p` holds the references `m` and the lock `k` besides. -/
structure Held (s : Sys P) (p : P) (m : Multiset Nat) (k : Option Nat) (t : Sys P) : Prop where
  alike : Alike s t
  ref : ∀ i, (t.mem i).ref = (s.mem i).ref + m.count i
  lock : ∀ i, (t.mem i).lock = if k = some i then some p else none
  inUse : t.inUse = s.inUse + s.extra m
  valid : ∀ i, 0 < (t.mem i).ref → (t.mem i).valid = true → s.unreadable i = none

variable {s t : Sys P} {p : P} {m : Multiset Nat} {k : Option Nat} {i : Nat}

theorem Alike.table (h : Alike s t) (mem : Nat → Mem P) (inUse : Nat) (console : List String)
    (outstanding : Int) : Alike s { t with
      mem := mem, inUse := inUse, console := console, outstanding := outstanding } :=
  ⟨h.ninodes, h.ino, h.file, h.proc, h.room, h.born, h.stamp, h.clock⟩

theorem Alike.unreadable (h : Alike s t) (i : Nat) : t.unreadable i = s.unreadable i := by
  simp only [Sys.unreadable, h.ninodes, h.ino]

theorem Quiet.held (h : Quiet s p) : Held s p 0 none s :=
  ⟨⟨rfl, rfl, rfl, rfl, rfl, rfl, rfl, rfl⟩, fun _ => rfl, h.unlocked, rfl, h.valid⟩

theorem Sys.extra_cons_of_new (h : (s.mem i).ref = 0) (hi : i ∉ m) :
    s.extra (i ::ₘ m) = s.extra m + 1 := by
  rw [extra, toFinset_cons, Finset.filter_insert, if_pos h, Finset.card_insert_of_notMem]
  · rfl
  · simp [hi]

theorem Sys.extra_cons_of_used (h : 0 < (s.mem i).ref ∨ i ∈ m) : s.extra (i ::ₘ m) = s.extra m := by
  rw [extra, toFinset_cons, Finset.filter_insert]
  rcases h with href | hi
  · rw [if_neg (by omega)]
    rfl
  · split
    next href =>
      rw [Finset.insert_eq_of_mem (by simp [hi, href])]
      rfl
    · rfl

theorem Held.ops (h : Held s p m k t) (n : Int) : Held s p m k { t with outstanding := n } :=
  ⟨h.alike.table _ _ _ _, h.ref, h.lock, h.inUse, h.valid⟩

-- One entry of the table changes; what `Held` says of the others stays.
theorem Held.setMem (h : Held s p m k t) (x : Mem P) (u : Nat) {m' : Multiset Nat} {k' : Option Nat}
    (hm : ∀ j, j ≠ i → m'.count j = m.count j) (hk : ∀ j, j ≠ i → (k' = some j ↔ k = some j))
    (href : x.ref = (s.mem i).ref + m'.count i)
    (hlock : x.lock = if k' = some i then some p else none)
    (hvalid : 0 < x.ref → x.valid = true → s.unreadable i = none)
    (hu : u = s.inUse + s.extra m') : Held s p m' k' { t.setMem i x with inUse := u } := by
  refine ⟨h.alike.table _ _ _ _, fun j => ?_, fun j => ?_, hu, fun j => ?_⟩
  all_goals
    simp only [Sys.setMem_mem]
    by_cases hj : j = i
  · rw [if_pos hj, hj, href]
  · rw [if_neg hj, h.ref, hm j hj]
  · rw [if_pos hj, hj, hlock]
  · simp only [if_neg hj, h.lock, hk j hj]
  · rwa [if_pos hj, hj]
  · rw [if_neg hj]
    exact h.valid j

/-! ## The actions on inodes -/

variable [DecidableEq P]

theorem Held.iget (h : Held s p m k t) (hroom : ¬ s.NoEntry m i) :
    ∃ t', exec p (.iget i) t = .ok ((), t') ∧ Held s p (i ::ₘ m) k t' := by
  have href := h.ref i
  have hinUse := h.inUse
  have hother : ∀ j, j ≠ i → (i ::ₘ m).count j = m.count j :=
    fun j hj => count_cons_of_ne hj m
  have hself : (i ::ₘ m).count i = m.count i + 1 := count_cons_self i m
  by_cases hpos : 0 < (t.mem i).ref
  · refine ⟨_, if_pos hpos, h.setMem { t.mem i with ref := (t.mem i).ref + 1 } t.inUse hother
      (fun _ _ => Iff.rfl) ?_ (h.lock i) (fun _ => h.valid i hpos) ?_⟩
    · show (t.mem i).ref + 1 = _
      omega
    · rw [hinUse, Sys.extra_cons_of_used]
      by_contra hnew
      rw [not_or, not_lt, Nat.le_zero, ← count_eq_zero] at hnew
      omega
  · have hcount : m.count i = 0 := by omega
    have hnew : (s.mem i).ref = 0 := by omega
    have hlt : t.inUse < NINODE := by
      by_contra hge
      exact hroom ⟨hnew, count_eq_zero.mp hcount, by omega⟩
    refine ⟨_, (if_neg hpos).trans (if_pos hlt), h.setMem
      { t.mem i with ref := 1, valid := false } _ hother (fun _ _ => Iff.rfl) ?_ (h.lock i)
      (fun _ hvalid => by cases hvalid) ?_⟩
    · show 1 = _
      omega
    · rw [hinUse, Sys.extra_cons_of_new hnew (count_eq_zero.mp hcount), Nat.add_assoc]

theorem Held.iget_full (h : Held s p m k t) (hfull : s.NoEntry m i) :
    exec p (.iget i) t = .error (.panic "iget: no inodes") := by
  have href := h.ref i
  have hinUse := h.inUse
  have hcount := count_eq_zero.mpr hfull.2.1
  have hnew := hfull.1
  have hge := hfull.2.2
  simp only [exec]
  rw [if_neg (by omega), if_neg (by omega)]

theorem Held.idup (h : Held s p m k t) (hused : 0 < (s.mem i).ref) :
    ∃ t', exec p (.idup i) t = .ok ((), t') ∧ Held s p (i ::ₘ m) k t' := by
  have href := h.ref i
  refine ⟨_, rfl, h.setMem { t.mem i with ref := (t.mem i).ref + 1 } t.inUse
    (fun j hj => count_cons_of_ne hj m) (fun _ _ => Iff.rfl) ?_ (h.lock i)
    (fun _ => h.valid i (by omega)) ?_⟩
  · rw [href, count_cons_self, Nat.add_assoc]
  · rw [h.inUse, Sys.extra_cons_of_used (.inl hused)]

theorem Held.ilock (h : Held s p m none t) (hi : 0 < (t.mem i).ref)
    (hread : s.unreadable i = none) :
    ∃ t', exec p (.ilock i) t = .ok ((), t') ∧ Held s p m (some i) t' := by
  have hlock : ¬ (t.mem i).lock ≠ none := by rw [h.lock, if_neg nofun, not_not]
  have hother : ∀ j, j ≠ i → (some i = some j ↔ none = some j) := by
    intro j hj
    simp [Ne.symm hj]
  simp only [exec]
  rw [if_neg (by omega), if_neg hlock]
  cases hvalid : (t.mem i).valid with
  | true =>
    exact ⟨_, rfl, h.setMem { t.mem i with lock := some p, valid := true } t.inUse (fun _ _ => rfl)
      hother (h.ref i) (if_pos rfl).symm (fun _ _ => hread) h.inUse⟩
  | false =>
    rw [if_neg (by simp), h.alike.unreadable, hread]
    exact ⟨_, rfl, h.setMem { t.mem i with lock := some p, valid := true } t.inUse (fun _ _ => rfl)
      hother (h.ref i) (if_pos rfl).symm (fun _ _ => hread) h.inUse⟩

-- An inode that cannot be read is not valid in the table, so `ilock` reads it and finds out.
theorem Held.ilock_stops (h : Held s p m none t) (hi : 0 < (t.mem i).ref) {stop : Stop}
    (hread : s.unreadable i = some stop) : exec p (.ilock i) t = .error stop := by
  have hlock : ¬ (t.mem i).lock ≠ none := by rw [h.lock, if_neg nofun, not_not]
  have hvalid : ¬ (t.mem i).valid = true := by
    intro hvalid
    rw [h.valid i hi hvalid] at hread
    cases hread
  simp only [exec]
  rw [if_neg (by omega), if_neg hlock, if_neg hvalid, h.alike.unreadable, hread]

theorem Held.iunlock (h : Held s p m (some i) t) (hi : 0 < (t.mem i).ref) :
    ∃ t', exec p (.iunlock i) t = .ok ((), t') ∧ Held s p m none t' := by
  have hlock : (t.mem i).lock = some p := by rw [h.lock, if_pos rfl]
  have hother : ∀ j, j ≠ i → (none = some j ↔ some i = some j) := by
    intro j hj
    simp [Ne.symm hj]
  have hcond : ¬ ((t.mem i).lock ≠ some p ∨ (t.mem i).ref < 1) := by
    rw [hlock]
    simp only [ne_eq, not_true_eq_false, false_or]
    omega
  simp only [exec]
  rw [if_neg hcond]
  exact ⟨_, rfl, h.setMem { t.mem i with lock := none } t.inUse (fun _ _ => rfl) hother
    (h.ref i) rfl (h.valid i) h.inUse⟩

-- The inode is not freed: without links it is in use by somebody else as well.
theorem Held.iput (hq : Quiet s p) (h : Held s p (i ::ₘ m) k t) :
    ∃ t', (iput i).run (exec p) t = .ok ((), t') ∧ Held s p m k t' := by
  have href := h.ref i
  have hself : (i ::ₘ m).count i = m.count i + 1 := count_cons_self i m
  have hkeep : ¬ ((t.mem i).ref = 1 ∧ (t.mem i).valid = true ∧ (t.ino i).nlink = 0) := by
    rintro ⟨hone, hvalid, hnlink⟩
    rw [h.alike.ino] at hnlink
    have hused := hq.linked i (Sys.unreadable_eq_none.mp (h.valid i (by omega) hvalid)).2 hnlink
    omega
  have hexec : exec p (.iputLast i) t = .ok (false, t.dropRef i) := by
    simp only [exec]
    rw [if_neg hkeep]
  refine ⟨t.dropRef i, ?_, ?_⟩
  · rw [Vfs.iput, run_call_ok _ hexec]
    rfl
  · refine h.setMem { t.mem i with ref := (t.mem i).ref - 1 } _
      (fun j hj => (count_cons_of_ne hj m).symm) (fun _ _ => Iff.rfl) ?_ (h.lock i)
      (fun hpos => h.valid i ?_) ?_
    · show (t.mem i).ref - 1 = _
      omega
    · change 0 < (t.mem i).ref - 1 at hpos
      omega
    · by_cases hlast : (t.mem i).ref = 1
      · rw [if_pos hlast, h.inUse, Sys.extra_cons_of_new (by omega)
          (count_eq_zero.mp (by omega))]
        rfl
      · rw [if_neg hlast, h.inUse, Sys.extra_cons_of_used]
        by_contra hnew
        rw [not_or, not_lt, Nat.le_zero, ← count_eq_zero] at hnew
        omega

theorem Held.iunlockput (hq : Quiet s p) (h : Held s p (i ::ₘ m) (some i) t) :
    ∃ t', (iunlockput i).run (exec p) t = .ok ((), t') ∧ Held s p m none t' := by
  have hpos : 0 < (t.mem i).ref := by
    rw [h.ref, count_cons_self]
    omega
  obtain ⟨t1, hexec, h1⟩ := h.iunlock hpos
  obtain ⟨t2, hrun, h2⟩ := h1.iput hq
  refine ⟨t2, ?_, h2⟩
  rw [Vfs.iunlockput, run_call_ok _ hexec, hrun]

/-! ## `namei` -/

/-- How a run ends that looks for the inode `r` and is to hold it, with the lock
that `lock` says. -/
def Ends {β : Type} (s : Sys P) (p : P) (inum : β → Nat) (lock : Nat → Option Nat)
    (r : Except Stop (Option Nat)) (run : Except Stop (Option β × Sys P)) : Prop :=
  match r with
  | .error stop => run = .error stop
  | .ok none => ∃ t, run = .ok (none, t) ∧ Held s p 0 none t
  | .ok (some i) => ∃ x t, inum x = i ∧ run = .ok (some x, t) ∧ Held s p {i} (lock i) t

theorem Held.inode (h : Held s p m k t) : exec p (.inode i) t = .ok (s.ino i, t) := by
  simp only [exec, h.alike.ino]

-- `dirlookup` in the directory that is locked.
theorem Held.dirlookup (h : Held s p m k t) (hdir : (s.ino i).type = .dir) (name : List UInt8) :
    match lookupEntry (s.ino i).data name with
    | .error msg => (dirlookup i name).run (exec p) t = .error (.panic msg)
    | .ok none => (dirlookup i name).run (exec p) t = .ok (none, t)
    | .ok (some (off, next)) =>
      (s.NoEntry m next → (dirlookup i name).run (exec p) t = .error (.panic "iget: no inodes")) ∧
      (¬ s.NoEntry m next → ∃ t', (dirlookup i name).run (exec p) t = .ok (some (next, off), t') ∧
        Held s p (next ::ₘ m) k t') := by
  have hrun : (Vfs.dirlookup i name).run (exec p) t =
      (match lookupEntry (s.ino i).data name with
      | .error msg => panic msg
      | .ok none => pure none
      | .ok (some (off, inum)) => do
        Vfs.iget inum
        pure (some (inum, off)) : Kprog (Option (Nat × Nat))).run (exec p) t := by
    rw [Vfs.dirlookup, run_call_ok _ h.inode]
    exact congrArg (fun prog : Kprog (Option (Nat × Nat)) => prog.run (exec p) t)
      (if_neg (by simp [hdir]))
  match hlook : lookupEntry (s.ino i).data name with
  | .error msg | .ok none =>
    rw [hlook] at hrun
    exact hrun
  | .ok (some (off, next)) =>
    simp only [hlook] at hrun
    refine ⟨fun hfull => ?_, fun hroom => ?_⟩
    · rw [hrun, run_call_error _ (h.iget_full hfull)]
    · obtain ⟨t', hget, h'⟩ := h.iget hroom
      refine ⟨t', ?_, h'⟩
      rw [hrun, run_call_ok _ hget, Prog.run_pure]

/-- The same for a run that is to give a certain `x`. -/
def Finds {β : Type} (s : Sys P) (p : P) (inum : β → Nat) (r : Except Stop (Option β))
    (run : Except Stop (Option β × Sys P)) : Prop :=
  match r with
  | .error stop => run = .error stop
  | .ok none => ∃ t, run = .ok (none, t) ∧ Held s p 0 none t
  | .ok (some x) => ∃ t, run = .ok (some x, t) ∧ Held s p {inum x} none t

/-- What `namex` walks to along the elements of a path. -/
def Sys.walkFrom (s : Sys P) (parent : Bool) :
    List (List UInt8) → Nat → Except Stop (Option (Nat × List UInt8))
  | [], i => .ok (if parent then none else some (i, []))
  | name :: rest, i =>
    match s.unreadable i with
    | some stop => .error stop
    | none =>
      if (s.ino i).type ≠ .dir then .ok none
      else if parent = true ∧ rest = [] then .ok (some (i, name))
      else
        match lookupEntry (s.ino i).data name with
        | .error msg => .error (.panic msg)
        | .ok none => .ok none
        | .ok (some (_, next)) =>
          if s.NoEntry {i} next then .error (.panic "iget: no inodes")
          else s.walkFrom parent rest next

omit [DecidableEq P] in
-- Along the whole path this is what it names.
theorem Sys.resolveFrom_eq (s : Sys P) (names : List (List UInt8)) (i : Nat) :
    s.resolveFrom names i = (s.walkFrom false names i).map (Option.map Prod.fst) := by
  induction names generalizing i with
  | nil => rfl
  | cons name rest ih =>
    rw [resolveFrom, walkFrom]
    cases s.unreadable i with
    | some stop => rfl
    | none =>
      by_cases hdir : (s.ino i).type ≠ .dir
      · simp only [if_pos hdir]
        rfl
      · simp only [if_neg hdir, Bool.false_eq_true, false_and, if_false]
        match lookupEntry (s.ino i).data name with
        | .error msg | .ok none => rfl
        | .ok (some (off, next)) =>
          by_cases hfull : s.NoEntry {i} next
          · simp only [if_pos hfull]
            rfl
          · simp only [if_neg hfull]
            exact ih next

-- Along the elements: the walk holds the directory it stands in and, for a moment, the next inode.
theorem walk_finds (hq : Quiet s p) (parent : Bool) (names : List (List UInt8)) (i : Nat)
    {t : Sys P} (h : Held s p {i} none t) :
    Finds s p Prod.fst (s.walkFrom parent names i) ((walk parent names i).run (exec p) t) := by
  induction names generalizing i t with
  | nil =>
    cases parent with
    | true =>
      obtain ⟨t1, hput, h1⟩ := Held.iput (m := 0) hq h
      exact ⟨t1, run_bind_ok _ hput, h1⟩
    | false => exact ⟨t, rfl, h⟩
  | cons name rest ih =>
    have hpos : 0 < (t.mem i).ref := by
      rw [h.ref, count_singleton_self]
      omega
    rw [walk, Sys.walkFrom]
    cases hread : s.unreadable i with
    | some stop => exact run_call_error _ (h.ilock_stops hpos hread)
    | none =>
    obtain ⟨t1, hlock, h1⟩ := h.ilock hpos hread
    have hpos1 : 0 < (t1.mem i).ref := by
      rw [h1.ref, count_singleton_self]
      omega
    simp only
    rw [run_call_ok _ hlock,
      run_call_ok _ h1.inode]
    by_cases hdir : (s.ino i).type ≠ .dir
    · obtain ⟨t2, hput, h2⟩ := Held.iunlockput (m := 0) hq h1
      rw [if_pos hdir, if_pos hdir, run_bind_ok _ hput]
      exact ⟨t2, rfl, h2⟩
    rw [if_neg hdir, if_neg hdir]
    by_cases hstop : parent = true ∧ rest = []
    · obtain ⟨t2, hunlock, h2⟩ := h1.iunlock hpos1
      rw [if_pos hstop, if_pos hstop, run_call_ok _ hunlock]
      exact ⟨t2, rfl, h2⟩
    rw [if_neg hstop, if_neg hstop]
    have hlookup := h1.dirlookup (not_not.mp hdir) name
    match hlook : lookupEntry (s.ino i).data name with
    | .error msg =>
      rw [hlook] at hlookup
      exact run_bind_error _ hlookup
    | .ok none =>
      rw [hlook] at hlookup
      obtain ⟨t2, hput, h2⟩ := Held.iunlockput (m := 0) hq h1
      rw [run_bind_ok _ hlookup]
      exact ⟨t2, run_bind_ok _ hput, h2⟩
    | .ok (some (off, next)) =>
      simp only [hlook] at hlookup ⊢
      by_cases hfull : s.NoEntry {i} next
      · rw [if_pos hfull]
        exact run_bind_error _ (hlookup.1 hfull)
      · obtain ⟨t2, hfound, h2⟩ := hlookup.2 hfull
        -- the directory is put back, the next inode stays
        have hswap : next ::ₘ {i} = i ::ₘ ({next} : Multiset Nat) := cons_swap next i 0
        rw [hswap] at h2
        obtain ⟨t3, hput, h3⟩ := h2.iunlockput hq
        rw [if_neg hfull, run_bind_ok _ hfound]
        simp only
        rw [run_bind_ok _ hput]
        exact ih next h3

/-- What `namex(path)` gives to process `p`. -/
def Sys.found (s : Sys P) (p : P) (path : List UInt8) (parent : Bool) :
    Except Stop (Option (Nat × List UInt8)) :=
  if path.head? = some slash then
    if s.NoEntry 0 ROOTINO then .error (.panic "iget: no inodes")
    else s.walkFrom parent (elements path) ROOTINO
  else s.walkFrom parent (elements path) (s.proc p).cwd

theorem namex_finds (hq : Quiet s p) (h : Held s p 0 none t) (path : List UInt8) (parent : Bool) :
    Finds s p Prod.fst (s.found p path parent) ((namex path parent).run (exec p) t) := by
  unfold namex Sys.found
  by_cases hroot : path.head? = some slash
  · rw [if_pos hroot, if_pos hroot]
    by_cases hfull : s.NoEntry 0 ROOTINO
    · rw [if_pos hfull]
      exact run_call_error _ (h.iget_full hfull)
    · obtain ⟨t1, hget, h1⟩ := h.iget hfull
      rw [if_neg hfull, run_call_ok _ hget]
      exact walk_finds hq parent _ _ h1
  · have hcwd : exec p .cwd t = .ok ((s.proc p).cwd, t) := by simp only [exec, h.alike.proc]
    obtain ⟨t1, hdup, h1⟩ := h.idup hq.cwd
    rw [if_neg hroot, if_neg hroot, run_call_ok _ hcwd,
      run_call_ok _ hdup]
    exact walk_finds hq parent _ _ h1

omit [DecidableEq P] in
theorem Sys.resolve_eq (s : Sys P) (p : P) (path : List UInt8) :
    s.resolve p path = (s.found p path false).map (Option.map Prod.fst) := by
  unfold resolve found
  split
  · split
    · rfl
    · exact s.resolveFrom_eq _ _
  · exact s.resolveFrom_eq _ _

theorem namei_ends (hq : Quiet s p) (h : Held s p 0 none t) (path : List UInt8) :
    Ends s p id (fun _ => none) (s.resolve p path) ((namei path).run (exec p) t) := by
  have hfinds := namex_finds hq h path false
  rw [Sys.resolve_eq, namei]
  -- `namei` drops the name that `namex` gives with the inode
  match hr : s.found p path false with
  | .error stop =>
    rw [hr] at hfinds
    exact run_bind_error _ hfinds
  | .ok none =>
    rw [hr] at hfinds
    obtain ⟨t', hrun, h'⟩ := hfinds
    exact ⟨t', run_bind_ok _ hrun, h'⟩
  | .ok (some x) =>
    rw [hr] at hfinds
    obtain ⟨t', hrun, h'⟩ := hfinds
    exact ⟨x.1, t', rfl, run_bind_ok _ hrun, h'⟩

end OsProjects.Kernel.Vfs
