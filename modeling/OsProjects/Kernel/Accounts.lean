import OsProjects.Kernel.Effects

/-!
# Accounts — the calls, for any account of what they hold

An account tells of a state how many operations deep a call is in it, which references and locks the
call holds, and which inode it has found and not looked at yet.  What the actions do to an account
settles what the calls do to it, whatever else it says.
-/

namespace OsProjects.Kernel.Vfs

open Lib Multiset

open Prog (after_bind after_call)

variable {P : Type} [DecidableEq P]

abbrev Account (P : Type) := Int → Multiset Nat → Multiset Nat → Option Nat → Sys P → Prop

/-- The account `K` follows the actions of `p` on the inode table. -/
structure Tracks (p : P) (K : Account P) : Prop where
  begins : ∀ {n m L s t r}, K n m L none s → exec p .beginOp s = .ok (r, t) → K (n + 1) m L none t
  ends : ∀ {n m L s t r}, K (n + 1) m L none s → exec p .endOp s = .ok (r, t) → K n m L none t
  gets : ∀ {n m L s t r i}, K n m L none s → exec p (.iget i) s = .ok (r, t) →
    K n (i ::ₘ m) L (some i) t
  dups : ∀ {n m L s t r}, K n m L none s → exec p (.idup (s.proc p).cwd) s = .ok (r, t) →
    K n ((s.proc p).cwd ::ₘ m) L none t
  locks : ∀ {n m L x s t r i}, K n m L x s → (∀ j, x = some j → j = i) →
    exec p (.ilock i) s = .ok (r, t) → K n m (i ::ₘ L) none t
  unlocks : ∀ {n m L x s t r i}, K n m (i ::ₘ L) x s → exec p (.iunlock i) s = .ok (r, t) →
    K n m L x t
  puts : ∀ {n m L x x' s i}, K n (i ::ₘ m) L x s → (∀ j, x = some j → j = i ∨ x' = some j) →
    (iput i).After (exec p) s fun _ t => K n m L x' t
  /-- An inode that has been looked at may be forgotten. -/
  forgets : ∀ {n m L s}, K n m L none s → ∀ x, K n m L x s

variable {p : P} {K : Account P} {s t : Sys P} {n : Int} {m L : Multiset Nat} {x : Option Nat}
  {i : Nat}

section Lookup

variable (hK : Tracks p K)

include hK

/-! ## Inodes and paths -/

theorem Tracks.iunlockput (h : K n (i ::ₘ m) (i ::ₘ L) x s) :
    (iunlockput i).After (exec p) s fun _ t => K n m L x t := by
  unfold Vfs.iunlockput
  intro _ s1 hunlock
  exact hK.puts (hK.unlocks h hunlock) fun _ => Or.inr

theorem Tracks.locks_found {r : Unit} (h : K n m L (some i) s)
    (hlock : exec p (.ilock i) s = .ok (r, t)) :
    K n m (i ::ₘ L) none t := hK.locks h (fun _ hj => (Option.some.inj hj).symm) hlock

theorem Tracks.dirlookup (h : K n m L none s) (dp : Nat) (name : List UInt8) :
    (dirlookup dp name).After (exec p) s fun r t => K n (plus r Prod.fst m) L (r.map Prod.fst) t ∧
      (s.ino dp).type = .dir ∧ t.ino = s.ino := by
  unfold Vfs.dirlookup
  simp only [after_bind, after_call]
  intro v s1 hread
  cases hread
  split
  · exact fun r => r.elim
  have hdir := not_not.mp ‹¬ (s.ino dp).type ≠ .dir›
  rcases lookupEntry (s.ino dp).data name with msg | _ | ⟨off, inum⟩
  · exact fun r => r.elim
  · exact ⟨h, hdir, rfl⟩
  · intro _ s2 hget
    refine ⟨hK.gets h hget, hdir, ?_⟩
    rcases exec_iget hget with ⟨-, rfl⟩ | ⟨-, rfl⟩ <;> rfl

theorem Tracks.walk (parent : Bool) (names : List (List UInt8)) (h : K n (i ::ₘ m) 0 (some i) s) :
    (walk parent names i).After (exec p) s fun r t =>
      K n (plus r Prod.fst m) 0 (r.map Prod.fst) t := by
  induction names generalizing i s with
  | nil =>
    cases parent with
    | true => exact (hK.puts h fun _ hj => Or.inl (Option.some.inj hj).symm).bind fun _ _ ht => ht
    | false => exact h
  | cons name rest ih =>
    unfold Vfs.walk
    simp only [after_bind, after_call]
    intro _ s1 hlock v s2 hread
    cases hread
    have h1 := hK.locks_found h hlock
    split
    · exact (hK.iunlockput h1).bind fun _ _ ht => ht
    split
    · exact fun _ s2 hunlock => hK.forgets (hK.unlocks h1 hunlock) _
    refine (hK.dirlookup h1 i name).bind fun r s2 h2 => ?_
    obtain ⟨h2, -⟩ := h2
    cases r with
    | none => exact (hK.iunlockput h2).bind fun _ _ ht => ht
    | some found =>
      obtain ⟨next, off⟩ := found
      -- the directory is let go while the next inode is not looked at yet
      change K n (next ::ₘ i ::ₘ m) _ _ _ at h2
      rw [cons_swap] at h2
      exact (hK.iunlockput h2).bind fun _ s3 h3 => ih h3

theorem Tracks.namex (h : K n m 0 none s) (path : List UInt8) (parent : Bool) :
    (namex path parent).After (exec p) s fun r t =>
      K n (plus r Prod.fst m) 0 (r.map Prod.fst) t := by
  unfold Vfs.namex
  split
  · intro _ s1 hget
    exact hK.walk parent _ (hK.gets h hget)
  · intro i s1 hread _ s2 hdup
    cases hread
    exact hK.walk parent _ (hK.forgets (hK.dups h hdup) _)

theorem Tracks.namei (h : K n m 0 none s) (path : List UInt8) :
    (namei path).After (exec p) s fun r t => K n (plus r id m) 0 r t := by
  refine (hK.namex h path false).bind fun r t ht => ?_
  match r with
  | none | some y => exact ht

-- How a call returns.
theorem Tracks.returns (h : K (n + 1) m L none s) (r : Int) : ((do
      endOp
      pure r) : Kprog Int).After (exec p) s fun _ t => K n m L none t :=
  fun _ _ hop => hK.ends h hop

theorem Tracks.releases (h : K (n + 1) (i ::ₘ m) (i ::ₘ L) none s) (r : Int) : ((do
      Vfs.iunlockput i
      endOp
      pure r) : Kprog Int).After (exec p) s fun _ t => K n m L none t :=
  (hK.iunlockput h).bind fun _ _ h1 => hK.returns h1 r

variable {type : FileType} {major minor : Int16}

-- The name is entered already, or it is new.
theorem Tracks.create (h : K n m 0 none s) (path : List UInt8) {Q : Option Nat → Sys P → Prop}
    (hnone : ∀ t, K n m 0 none t → Q none t)
    (hsome : ∀ ip t, K n (ip ::ₘ m) (ip ::ₘ 0) none t → Q (some ip) t)
    (hnew : ∀ dp name t, K n (dp ::ₘ m) (dp ::ₘ 0) none t → (t.ino dp).type = .dir →
      (createInode dp name type major minor).After (exec p) t Q) :
    (create path type major minor).After (exec p) s Q := by
  refine (hK.namex h path true).bind fun r s1 h1 => ?_
  cases r with
  | none => exact hnone s1 h1
  | some found =>
    obtain ⟨dp, name⟩ := found
    simp only [after_bind, after_call]
    intro _ s2 hlock
    refine (hK.dirlookup (hK.locks_found h1 hlock) dp name).mono fun r s3 h3 => ?_
    obtain ⟨h3, hdir, hino⟩ := h3
    cases r with
    | none => exact hnew dp name s3 h3 (hino ▸ hdir)
    | some found =>
      obtain ⟨ip, _⟩ := found
      change K n (ip ::ₘ dp ::ₘ m) _ _ _ at h3
      rw [cons_swap] at h3
      refine (hK.iunlockput h3).bind fun _ s4 h4 => ?_
      simp only [after_bind, after_call]
      intro _ s5 hlock' v s6 hread
      cases hread
      have h5 := hK.locks_found h4 hlock'
      split
      · exact hsome ip s5 h5
      split
      · exact hsome ip s5 h5
      exact (hK.iunlockput h5).bind fun _ t ht => hnone t ht

end Lookup

/-! ## Calls that change directories and inodes -/

/-- The same for changes to inodes and directories; inodes are taken of the types in `new`. -/
structure TracksAll (p : P) (new : FileType → Prop) (K : Account P) : Prop extends Tracks p K where
  sets : ∀ {n m L s}, K n m L none s → ∀ i v, v.type = (s.ino i).type → v.data = (s.ino i).data →
    K n m L none (s.setIno i v)
  enters : ∀ {n m L s t r i off de}, K n m L none s → (s.ino i).type = .dir →
    exec p (.writeDirent i off de) s = .ok (r, t) → K n m L none t
  prints : ∀ {n m L s}, K n m L none s → ∀ l, K n m L none { s with console := l }
  takes : ∀ {n m L s type}, new type → K n m L none s →
    (ialloc type).After (exec p) s fun r t => K n (plus r id m) L none t

variable {new : FileType → Prop} (hK : TracksAll p new K)

include hK

theorem TracksAll.addNlink {r : Unit} {k : Int16} (h : K n m L none s)
    (hadd : exec p (.addNlink i k) s = .ok (r, t)) : K n m L none t := by
  cases hadd
  exact hK.sets h i _ rfl rfl

theorem TracksAll.dirlink (h : K n m L none s) (dp : Nat) (name : List UInt8) (inum : Nat) :
    (dirlink dp name inum).After (exec p) s fun _ t => K n m L none t := by
  refine (hK.dirlookup h dp name).bind fun r s1 ⟨h1, hdir, hino⟩ => ?_
  match r with
  | some (ip, _) =>
    exact (hK.puts h1 fun _ hj => Or.inl (Option.some.inj hj).symm).bind fun _ _ ht => ht
  | none =>
    simp only [after_bind, after_call]
    intro v s2 hread
    cases hread
    cases freeSlot (s1.ino dp).data with
    | error msg => exact fun r => r.elim
    | ok off => exact fun w s3 hwrite => hK.enters h1 (hino ▸ hdir) hwrite

variable {type : FileType} {major minor : Int16} {dp ip : Nat} {name : List UInt8}

theorem TracksAll.createEntries (h : K n m L none s) (dp : Nat) (name : List UInt8) (ip : Nat)
    (type : FileType) : (createEntries dp name ip type).After (exec p) s fun _ t =>
      K n m L none t := by
  unfold Vfs.createEntries
  split
  · refine (hK.dirlink h ip dot ip).bind fun r s1 h1 => ?_
    by_cases hr : r < 0
    · rw [if_pos hr]
      exact h1
    rw [if_neg hr]
    refine (hK.dirlink h1 ip dotdot dp).bind fun r s2 h2 => ?_
    by_cases hr : r < 0
    · rw [if_pos hr]
      exact h2
    rw [if_neg hr]
    refine (hK.dirlink h2 dp name ip).bind fun r s3 h3 => ?_
    split
    · exact h3
    exact fun _ s4 hadd => hK.addNlink h3 hadd
  · refine (hK.dirlink h dp name ip).bind fun r s1 h1 => ?_
    split
    · exact h1
    · exact h1

theorem TracksAll.createInode (htype : new type) (h : K n (dp ::ₘ m) (dp ::ₘ 0) none s) :
    (createInode dp name type major minor).After (exec p) s fun r t =>
      K n (plus r id m) (plus r id 0) none t := by
  refine (hK.takes htype h).bind fun r s1 h1 => ?_
  cases r with
  | none => exact (hK.iunlockput h1).bind fun _ _ ht => ht
  | some ip =>
    simp only [after_bind, after_call]
    intro _ s2 hlock _ s3 hinit
    have h3 : K n (ip ::ₘ dp ::ₘ m) (ip ::ₘ dp ::ₘ 0) none s3 := by
      cases hinit
      exact hK.sets (hK.locks h1 (by simp) hlock) ip _ rfl rfl
    refine (hK.createEntries h3 dp name ip type).mono fun b s4 h4 => ?_
    cases b with
    | true =>
      rw [cons_swap, cons_swap (s := 0)] at h4
      exact (hK.iunlockput h4).bind fun _ _ ht => ht
    | false =>
      rw [if_neg (by simp)]
      simp only [after_bind, after_call]
      intro _ s5 hclear
      cases hclear
      have h5 := hK.sets h4 ip { s4.ino ip with nlink := 0 } rfl rfl
      exact (hK.iunlockput h5).mono fun _ s6 h6 => (hK.iunlockput h6).mono fun _ _ ht => ht

theorem TracksAll.create (htype : new type) (h : K n m 0 none s) (path : List UInt8) :
    (create path type major minor).After (exec p) s fun r t =>
      K n (plus r id m) (plus r id 0) none t :=
  hK.toTracks.create h path (fun _ ht => ht) (fun _ _ ht => ht) fun _ _ _ ht _ =>
    hK.createInode htype ht

theorem TracksAll.linkBad (h : K (n + 1) (i ::ₘ m) 0 none s) :
    (linkBad i).After (exec p) s fun _ t => K n m 0 none t := by
  intro _ s1 hlock _ s2 hadd
  exact hK.releases (hK.addNlink (hK.locks h nofun hlock) hadd) (-1)

theorem TracksAll.sysLink (h : K n m 0 none s) (old new : CStr) :
    (sysLink old new).After (exec p) s fun _ t => K n m 0 none t := by
  unfold Vfs.sysLink
  simp only [after_bind, after_call]
  intro _ s1 hop
  refine (hK.namei (hK.begins h hop) old.bytes).mono fun r s2 h2 => ?_
  cases r with
  | none => exact hK.returns h2 (-1)
  | some ip =>
    simp only [after_bind, after_call]
    intro _ s3 hlock v s4 hread
    cases hread
    have h3 := hK.locks_found h2 hlock
    split
    · exact hK.releases h3 (-1)
    simp only [after_bind, after_call]
    intro _ s5 hadd _ s6 hunlock
    have h6 := hK.unlocks (hK.addNlink h3 hadd) hunlock
    refine (hK.namex h6 new.bytes true).mono fun r s7 h7 => ?_
    cases r with
    | none => exact hK.linkBad h7
    | some found =>
      obtain ⟨dp, name⟩ := found
      simp only [after_bind, after_call]
      intro _ s8 hlock'
      refine (hK.dirlink (hK.locks_found h7 hlock') dp name ip).mono fun r s9 h9 => ?_
      split
      · exact (hK.iunlockput h9).bind fun _ _ h10 => hK.linkBad h10
      · refine (hK.iunlockput h9).bind fun _ _ h10 => ?_
        exact (hK.puts h10 (by simp)).bind fun _ _ h11 => hK.returns h11 0

theorem TracksAll.removeEntry {off : Nat} (h : K (n + 1) (ip ::ₘ dp ::ₘ m) (ip ::ₘ dp ::ₘ 0) none s)
    (hdir : (s.ino dp).type = .dir) :
    (removeEntry dp ip off type).After (exec p) s fun _ t => K n m 0 none t := by
  unfold Vfs.removeEntry
  simp only [after_bind, after_call]
  intro w s1 hwrite
  have h1 := hK.enters h hdir hwrite
  rw [cons_swap, cons_swap (s := 0)] at h1
  split
  · exact fun r => r.elim
  have hnlink : ((if type = .dir then Vfs.addNlink dp (-1) else pure ()) : Kprog Unit).After
      (exec p) s1 fun _ t => K (n + 1) (dp ::ₘ ip ::ₘ m) (dp ::ₘ ip ::ₘ 0) none t := by
    split
    · exact fun _ s2 hadd => hK.addNlink h1 hadd
    · exact h1
  refine hnlink.bind fun _ s2 h2 => (hK.iunlockput h2).bind fun _ s3 h3 _ s4 hadd => ?_
  exact hK.releases (hK.addNlink h3 hadd) 0

omit hK in
theorem occupied_after (v : Vinode) (s : Sys P) :
    (occupied v).After (exec p) s fun _ t => t = s := by
  unfold occupied
  split
  · cases isdirempty v.data with
    | error msg => exact fun r => r.elim
    | ok empty => exact rfl
  · exact rfl

theorem TracksAll.sysUnlink (h : K n m 0 none s) (path : CStr) :
    (sysUnlink path).After (exec p) s fun _ t => K n m 0 none t := by
  unfold Vfs.sysUnlink
  simp only [after_bind, after_call]
  intro _ s1 hop
  refine (hK.namex (hK.begins h hop) path.bytes true).mono fun r s2 h2 => ?_
  cases r with
  | none => exact hK.returns h2 (-1)
  | some found =>
    obtain ⟨dp, name⟩ := found
    intro _ s3 hlock
    have h3 := hK.locks_found h2 hlock
    split
    · exact hK.releases h3 (-1)
    refine (hK.dirlookup h3 dp name).bind fun r s4 h4 => ?_
    obtain ⟨h4, hdir, hino⟩ := h4
    cases r with
    | none => exact hK.releases h4 (-1)
    | some found =>
      obtain ⟨ip, off⟩ := found
      simp only [after_bind, after_call]
      intro _ s5 hlock' v s6 hread
      cases hread
      have h5 := hK.locks_found h4 hlock'
      have hdir' : (s5.ino dp).type = .dir := by
        obtain ⟨-, -, -, rfl⟩ := exec_ilock hlock'
        rw [Sys.setMem_ino, hino]
        exact hdir
      split
      · exact fun r => r.elim
      refine (occupied_after (s5.ino ip) s5).bind fun full s6 hsame => ?_
      subst hsame
      split
      · exact (hK.iunlockput h5).bind fun _ _ h6 => hK.releases h6 (-1)
      · exact hK.removeEntry h5 hdir'

theorem TracksAll.makeNode (htype : new type) (h : K (n + 1) m 0 none s) (path : List UInt8) :
    (makeNode path type major minor).After (exec p) s fun _ t => K n m 0 none t := by
  refine (hK.create htype h path).bind fun r s1 h1 => ?_
  match r with
  | none => exact hK.returns h1 (-1)
  | some ip => exact hK.releases h1 0

theorem TracksAll.sysMkdir (htype : new .dir) (h : K n m 0 none s) (path : Option CStr) :
    (sysMkdir path).After (exec p) s fun _ t => K n m 0 none t := by
  intro _ s1 hop
  cases path with
  | none => exact hK.returns (hK.begins h hop) (-1)
  | some path => exact hK.makeNode htype (hK.begins h hop) path.bytes

theorem TracksAll.sysMknod (htype : new .device) (h : K n m 0 none s) (path : Option CStr) :
    (sysMknod path major minor).After (exec p) s fun _ t => K n m 0 none t := by
  intro _ s1 hop
  cases path with
  | none => exact hK.returns (hK.begins h hop) (-1)
  | some path => exact hK.makeNode htype (hK.begins h hop) path.bytes

theorem TracksAll.followLinks (omode : UInt32) (left : Nat) (h : K n (i ::ₘ m) (i ::ₘ 0) none s) :
    (followLinks omode left i).After (exec p) s fun r t =>
      K n (plus r id m) (plus r id 0) none t := by
  induction left generalizing i s with
  | zero =>
    unfold Vfs.followLinks
    simp only [after_bind, after_call]
    intro v s1 hread
    cases hread
    split
    · simp only [after_bind, after_call]
      intro _ s2 hprint
      cases hprint
      exact (hK.iunlockput (hK.prints h _)).mono fun _ _ ht => ht
    · exact h
  | succ left ih =>
    unfold Vfs.followLinks
    simp only [after_bind, after_call]
    intro v s1 hread
    cases hread
    split
    · split
      · exact h
      cases linkTarget (s.ino i).data with
      | none => exact fun r => r.elim
      | some target =>
        refine (hK.iunlockput h).bind fun _ s1 h1 => (hK.namei h1 target).bind fun r s2 h2 => ?_
        cases r with
        | none => exact h2
        | some ip => exact fun _ s3 hlock => ih (hK.locks_found h2 hlock)
    · exact h

theorem TracksAll.openInode (htype : new .file) (h : K n m 0 none s) (path : List UInt8)
    (omode : UInt32) :
    (openInode path omode).After (exec p) s fun r t => K n (plus r id m) (plus r id 0) none t := by
  unfold Vfs.openInode
  split
  · exact hK.create htype h path
  refine (hK.namei h path).bind fun r s1 h1 => ?_
  match r with
  | none => exact h1
  | some ip =>
    simp only [after_bind, after_call]
    intro _ s2 hlock v s3 hread
    cases hread
    have h2 := hK.locks_found h1 hlock
    split
    · exact (hK.iunlockput h2).bind fun _ _ ht => ht
    · exact h2

end OsProjects.Kernel.Vfs
