import OsProjects.Kernel.Balance
import OsProjects.Kernel.SymlinkCall

/-!
# CreateFails — a `create` that fails leaves no trace

Nothing is changed before `ialloc`.  From there on the new inode is a draft: what is written goes
into it, until its name is entered in the parent, and when that does not come about `iput` frees it.
-/

namespace OsProjects.Kernel.Vfs

open Lib Multiset

open Prog (after_bind after_call)

variable {P : Type} [DecidableEq P] {p : P} {s₀ s t : Sys P} {n n' : Int}
  {m m' F L L' : Multiset Nat} {x x' : Option Nat} {i : Nat}

/-- An inode that exists is as it was, and one that is free still is. -/
def Untouched (v w : Vinode) : Prop := w = v ∨ v.type = .free ∧ w.type = .free

/-- The account of a call that holds the drafts `F` besides, and has changed no other inode. -/
def drafted (s₀ : Sys P) (p : P) (F : Multiset Nat) : Account P := fun n m L _ t =>
  carried s₀ p n (F + m) L none t ∧ (∀ i ∈ F, (t.mem i).valid = true) ∧
    ∀ i, i ∉ F → Untouched (s₀.ino i) (t.ino i)

/-! ## The actions -/

omit [DecidableEq P] in
-- An action on the inode table.
theorem drafted.step (h : drafted s₀ p F n m L x s) (hcarried : carried s₀ p n' (F + m') L' none t)
    (hino : t.ino = s.ino)
    (hvalid : ∀ j, (s.mem j).ref ≠ 0 → (s.mem j).valid = true → (t.mem j).valid = true) :
    drafted s₀ p F n' m' L' x' t := by
  refine ⟨hcarried, fun j hj => hvalid j ?_ (h.2.1 j hj), fun j hj => hino ▸ h.2.2 j hj⟩
  have hpos := count_pos.mpr hj
  rw [h.1.1.ref, count_add]
  omega

theorem drafted_tracks (hr : AtRest s₀ p) (F : Multiset Nat) : Tracks p (drafted s₀ p F) where
  begins h hop := h.step ((carried_tracks s₀ p).begins h.1 hop) (by cases hop; rfl)
    (by cases hop; exact fun _ _ => id)
  ends h hop := h.step ((carried_tracks s₀ p).ends h.1 hop) (by cases hop; rfl)
    (by cases hop; exact fun _ _ => id)
  gets {_ _ _ s t _ i} h hget := by
    refine h.step ?_ ?_ fun j href hvalid => ?_
    · rw [add_cons]
      exact (carried_tracks s₀ p).gets h.1 hget
    · rcases exec_iget hget with ⟨-, rfl⟩ | ⟨-, rfl⟩
      · rfl
      · rfl
    · by_cases hj : j = i
      · rcases exec_iget hget with ⟨-, rfl⟩ | ⟨hzero, rfl⟩
        · simpa [hj] using hj ▸ hvalid
        · exact absurd (hj ▸ hzero) href
      · rcases exec_iget hget with ⟨-, rfl⟩ | ⟨-, rfl⟩
        · simpa [hj] using hvalid
        · simpa [hj] using hvalid
  dups {_ _ _ s _ _} h hdup := by
    refine h.step ?_ ?_ fun j _ hvalid => ?_
    · rw [add_cons]
      exact (carried_tracks s₀ p).dups h.1 hdup
    · cases hdup
      rfl
    · cases hdup
      by_cases hj : j = (s.proc p).cwd
      · simpa [hj] using hj ▸ hvalid
      · simpa [hj] using hvalid
  locks {_ _ _ _ s _ _ i} h _ hlock := by
    refine h.step ((carried_tracks s₀ p).locks h.1 nofun hlock) ?_ fun j _ hvalid => ?_
    · obtain ⟨-, -, -, rfl⟩ := exec_ilock hlock
      rfl
    · obtain ⟨-, -, -, rfl⟩ := exec_ilock hlock
      by_cases hj : j = i
      · simp [hj]
      · simpa [hj] using hvalid
  unlocks {_ _ _ _ s _ _ i} h hunlock := by
    refine h.step ((carried_tracks s₀ p).unlocks h.1 hunlock) ?_ fun j _ hvalid => ?_
    · obtain ⟨-, rfl⟩ := exec_iunlock hunlock
      rfl
    · obtain ⟨-, rfl⟩ := exec_iunlock hunlock
      by_cases hj : j = i
      · simpa [hj] using hj ▸ hvalid
      · simpa [hj] using hvalid
  puts {n m L _ _ s i} h _ := by
    have hcarried := h.1
    rw [add_cons] at hcarried
    have href := h.1.1.ref i
    rw [count_add, count_cons_self] at href
    refine ((Carries.iput hcarried.1).and (iput_ino i s)).mono
      fun _ t ⟨ht, hother, hself⟩ => ⟨⟨ht, h.1.2⟩, fun j hj => ?_, fun j hj => ?_⟩
    · by_cases hji : j = i
      · subst hji
        have hpos := count_pos.mpr hj
        rcases hself with ⟨hone, -⟩ | ⟨-, -, hvalid⟩
        · omega
        · rw [hvalid]
          exact h.2.1 j hj
      · rw [(hother j hji).2]
        exact h.2.1 j hj
    · by_cases hji : j = i
      · subst hji
        rcases hself with ⟨hone, -, hnlink, hfree⟩ | ⟨-, hsame, -⟩
        · -- an inode without links that is freed was free, or somebody else refers to it
          rcases h.2.2 j hj with hsame | ⟨hold, -⟩
          · refine .inr ⟨by_contra fun hold => ?_, hfree⟩
            have hused := hr.linked j hold (hsame ▸ hnlink)
            omega
          · exact .inr ⟨hold, hfree⟩
        · rw [hsame]
          exact h.2.2 j hj
      · rw [(hother j hji).1]
        exact h.2.2 j hj
  forgets h _ := h

/-! ## `create` -/

-- A directory that is no draft is changed by a new entry only.
theorem drafted.dirlink (hr : AtRest s₀ p) (h : drafted s₀ p F n m L none s) (d : Nat)
    (name : List UInt8) (inum : Nat) :
    (dirlink d name inum).After (exec p) s fun r t => d ∈ F ∨ r < 0 →
    drafted s₀ p F n m L none t := by
  have hK := drafted_tracks hr F
  refine (hK.dirlookup h d name).bind fun r s1 ⟨h1, _⟩ => ?_
  match r with
  | some (ip, _) =>
    exact (hK.puts h1 fun _ hj => Or.inl (Option.some.inj hj).symm).bind fun _ _ ht _ => ht
  | none =>
    simp only [after_bind, after_call]
    intro v s2 hread
    cases hread
    cases hslot : freeSlot (s1.ino d).data with
    | error msg => exact fun r => r.elim
    | ok off =>
      intro w s3 hwrite
      cases hwrite
      obtain ⟨k, rfl, -, -⟩ := freeSlot_ok hslot
      refine fun hkeep => ⟨h1.1.congr rfl rfl rfl rfl, h1.2.1, fun j hj => ?_⟩
      rw [Sys.setIno_ino]
      split
      · next hd =>
        subst hd
        rcases @writeData_dirent s1.room j (s1.ino j).data k _ (linkEntry_fits name inum) with
          ⟨hw, -⟩ | ⟨-, hdata⟩
        · exact absurd ((if_neg (not_not.mpr hw)).symm.trans_lt (hkeep.resolve_left hj)) (by decide)
        · have hsame := congrArg (fun data => { s1.ino j with data := data }) hdata
          exact (congrArg (Untouched _) hsame).mpr (h1.2.2 j hj)
      · exact h1.2.2 j hj

variable {dp ip : Nat} {type : FileType}

theorem drafted.createEntries (hr : AtRest s₀ p) (h : drafted s₀ p {ip} n m L none s) (dp : Nat)
    (name : List UInt8) (type : FileType) :
    (createEntries dp name ip type).After (exec p) s fun b t =>
      b = false → drafted s₀ p {ip} n m L none t := by
  have hip : ip ∈ ({ip} : Multiset Nat) := mem_singleton_self ip
  unfold Vfs.createEntries
  split
  · refine (h.dirlink hr ip dot ip).bind fun r s1 h1 => ?_
    split
    · exact fun _ => h1 (Or.inl hip)
    refine ((h1 (Or.inl hip)).dirlink hr ip dotdot dp).bind fun r s2 h2 => ?_
    split
    · exact fun _ => h2 (Or.inl hip)
    refine ((h2 (Or.inl hip)).dirlink hr dp name ip).bind fun r s3 h3 => ?_
    split
    · exact fun _ => h3 (Or.inr ‹_›)
    · exact fun _ _ _ => nofun
  · refine (h.dirlink hr dp name ip).bind fun r s1 h1 => ?_
    split
    · exact fun _ => h1 (Or.inr ‹_›)
    · exact nofun

-- The draft goes with its last reference.
theorem drafted.drops (hfree : (s₀.ino ip).type = .free) (hzero : (s₀.mem ip).ref = 0)
    (hne : ip ∉ m) (h : drafted s₀ p {ip} n m L none s) (hnlink : (s.ino ip).nlink = 0) :
    (iput ip).After (exec p) s fun _ t => drafted s₀ p 0 n m L none t := by
  have href := h.1.1.ref ip
  have hcarried := h.1.1
  rw [singleton_add, count_cons_self, count_eq_zero.mpr hne] at href
  refine ((Carries.iput hcarried).and (iput_ino ip s)).mono fun _ t ⟨ht, hother, hself⟩ =>
    ⟨⟨by rwa [Multiset.zero_add], h.1.2⟩, fun j hj => absurd hj (Multiset.notMem_zero j),
      fun j _ => ?_⟩
  by_cases hj : j = ip
  · rw [hj]
    rcases hself with ⟨-, -, -, hgone⟩ | ⟨hnot, -, -⟩
    · exact .inr ⟨hfree, hgone⟩
    · exact absurd ⟨by omega, h.2.1 ip (mem_singleton_self ip), hnlink⟩ hnot
  · rw [(hother j hj).1]
    exact h.2.2 j (by simpa using hj)

theorem drafted.createInode (hr : AtRest s₀ p) (h : drafted s₀ p 0 n (dp ::ₘ 0) (dp ::ₘ 0) none s)
    (hdir : (s.ino dp).type = .dir) (name : List UInt8) (type : FileType) (major minor : Int16) :
    (createInode dp name type major minor).After (exec p) s fun r t =>
      r = none → drafted s₀ p 0 n 0 0 none t := by
  have hK := drafted_tracks hr 0
  have hz := @Multiset.notMem_zero Nat
  refine (h.1.1.ialloc type).bind fun r s1 h1 => ?_
  obtain ⟨h1, hkeep, hnew⟩ := h1
  cases r with
  | none =>
    have hd : drafted s₀ p 0 n (dp ::ₘ 0) (dp ::ₘ 0) none s1 :=
      ⟨⟨h1, h.1.2⟩, fun i hi => absurd hi (hz i), fun i hi => hkeep i (by simp) ▸ h.2.2 i hi⟩
    exact (hK.iunlockput hd).bind fun _ t ht _ => ht
  | some ip =>
    have hfree : (s₀.ino ip).type = .free := by
      rcases h.2.2 ip (hz ip) with hsame | ⟨hfree, -⟩
      · rw [← hsame]
        exact hnew ip rfl
      · exact hfree
    have hne : ip ≠ dp := by
      rintro rfl
      cases hdir.symm.trans (hnew ip rfl)
    simp only [after_bind, after_call]
    intro _ s2 hlock _ s3 hinit
    have h3 : drafted s₀ p {ip} n (dp ::ₘ 0) (ip ::ₘ dp ::ₘ 0) none s3 := by
      have h2 : carried s₀ p n ({ip} + dp ::ₘ 0) (ip ::ₘ dp ::ₘ 0) none s2 :=
        (carried_tracks s₀ p).locks (x := none) ⟨h1, h.1.2⟩ (by simp) hlock
      obtain ⟨-, -, -, rfl⟩ := exec_ilock hlock
      cases hinit
      refine ⟨h2.congr rfl rfl rfl rfl, fun j hj => ?_, fun j hj => ?_⟩
      · simp [mem_singleton.mp hj]
      · have hj : j ≠ ip := by simpa using hj
        show Untouched _ ((s1.setIno ip _).ino j)
        rw [Sys.setIno_ino, if_neg hj, hkeep j fun heq => hj (Option.some.inj heq).symm]
        exact h.2.2 j (hz j)
    refine (h3.createEntries hr dp name type).mono fun b s4 h4 => ?_
    cases b with
    | true => exact (Prog.After.trivial (iunlockput dp) s4).bind fun _ _ _ hnone => by cases hnone
    | false =>
      simp only [Bool.false_eq_true, if_false, after_bind, after_call]
      intro _ s5 hclear
      have h5 : drafted s₀ p {ip} n (dp ::ₘ 0) (ip ::ₘ dp ::ₘ 0) none s5 := by
        cases hclear
        refine ⟨(h4 rfl).1.congr rfl rfl rfl rfl, (h4 rfl).2.1, fun j hj => ?_⟩
        rw [Sys.setIno_ino, if_neg (by simpa using hj)]
        exact (h4 rfl).2.2 j hj
      unfold Vfs.iunlockput
      intro _ s6 hunlock
      have hnlink : (s6.ino ip).nlink = 0 := by
        obtain ⟨-, rfl⟩ := exec_iunlock hunlock
        cases hclear
        simp
      refine (((drafted_tracks hr {ip}).unlocks h5 hunlock).drops hfree (hr.free_unused hfree)
        (by simpa using hne) hnlink).mono fun _ s7 h7 => ?_
      exact (hK.iunlockput h7).mono fun _ t ht _ => ht

/-- Wherever `create` fails, every inode that was there is as it was, and no other is left
allocated. -/
theorem create_fails_noTrace (hr : AtRest s p) (path : List UInt8) (type : FileType)
    (major minor : Int16) (hrun : (create path type major minor).run (exec p) s = .ok (none, t)) :
    NoTrace s t := by
  have hstart : drafted s p 0 0 0 0 none s := ⟨⟨Carries.init s p, nodup_zero⟩,
    fun i hi => absurd hi (Multiset.notMem_zero i), fun _ _ => .inl rfl⟩
  have hend : drafted s p 0 0 0 0 none t :=
    ((drafted_tracks hr 0).create
      (Q := fun r t => r = none → drafted s p 0 0 0 0 none t) hstart path
      (fun _ ht _ => ht) (fun _ _ _ => nofun)
      fun dp name _ ht hdir => ht.createInode hr hdir name type major minor).of_run hrun rfl
  have hsame : ∀ i, (s.ino i).type ≠ .free → t.ino i = s.ino i := fun i hi =>
    (hend.2.2 i (Multiset.notMem_zero i)).resolve_right fun hfree => hi hfree.1
  refine ⟨fun d hdir name => ?_, fun i => ?_, hsame⟩
  · rw [hsame d (by simp [hdir])]
  · rcases hend.2.2 i (Multiset.notMem_zero i) with heq | ⟨hold, hnow⟩
    · rw [heq]
    · exact iff_of_true hnow hold

/-- There is an inode for the directory `n`, but no block for its entries. -/
theorem create_fails_noTrace_dir :
    ∃ t, (create [110] .dir 0 0).run (exec ()) tightDisk = .ok (none, t) ∧ NoTrace tightDisk t := by
  obtain ⟨t, hrun⟩ : ∃ t, (create [110] .dir 0 0).run (exec ()) tightDisk = .ok (none, t) := by
    set_option maxRecDepth 4000 in
    exact ⟨_, rfl⟩
  exact ⟨t, hrun, create_fails_noTrace tightDisk_atRest [110] .dir 0 0 hrun⟩

end OsProjects.Kernel.Vfs
