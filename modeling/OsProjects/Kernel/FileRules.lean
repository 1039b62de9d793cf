import OsProjects.Kernel.Files
import Mathlib.Algebra.Order.BigOperators.Group.Finset
import Mathlib.Data.Fintype.BigOperators
import Mathlib.Algebra.Order.Group.Multiset

/-!
# FileRules — the references to files that a process has

What a process knows between two of its actions, whatever the others do: its descriptors, the
references that are in none of them, a descriptor without a reference, the files that nobody else
knows of.  The code of every call keeps to this.
-/

namespace OsProjects.Kernel.Files

open Lib Function Multiset Finset
open Discipline (keeps_bind)

abbrev Fds := Fin NOFILE → Option (Fin NFILE)

/-- How many descriptors refer to `f`, not counting `stale`. -/
def entries (t : Fds) (stale : Option (Fin NOFILE)) (f : Fin NFILE) : Nat :=
  ∑ fd, if t fd = some f ∧ stale ≠ some fd then 1 else 0

/-- `held` are the references that are in no descriptor, `stale` is a descriptor that has none;
`cur` is the descriptor last looked at, `fresh` are the files allocated and not filled in.  In
`fork` there is a `child` with its descriptors, and in `fileclose` what is being given up
(`closing`). -/
structure Loc (P : Type) where
  active : Bool
  fds : Fds
  held : Multiset (Fin NFILE)
  stale : Option (Fin NOFILE)
  cur : Option (Fin NOFILE)
  fresh : Finset (Fin NFILE)
  child : Option (P × Fds)
  closing : Option Obj

namespace Loc

variable {P : Type}

def out : Loc P := ⟨false, fun _ => none, 0, none, none, ∅, none, none⟩

/-- In a call that has done nothing yet. -/
def inCall (t : Fds) : Loc P := ⟨true, t, 0, none, none, ∅, none, none⟩

/-- Between two calls. -/
structure Idle (l : Loc P) : Prop where
  held : l.held = 0
  stale : l.stale = none
  fresh : l.fresh = ∅
  child : l.child = none
  closing : l.closing = none

structure Ready (l : Loc P) : Prop where
  active : l.active = true
  stale : l.stale = none
  closing : l.closing = none

def backed (l : Loc P) (f : Fin NFILE) : Nat := entries l.fds l.stale f + l.held.count f

/-- A reference to `f` is given up: one in no descriptor, or that of the descriptor
last looked at. -/
def drop (l : Loc P) (f : Fin NFILE) : Loc P :=
  if f ∈ l.held then { l with held := l.held.erase f, fresh := l.fresh.erase f }
  else { l with stale := l.cur, fresh := l.fresh.erase f }

def dup (l : Loc P) (f : Fin NFILE) : Loc P :=
  if l.stale = none then { l with held := f ::ₘ l.held } else { l with stale := none }

def put (l : Loc P) (fd : Fin NOFILE) (f : Fin NFILE) : Loc P :=
  if f ∈ l.held then { l with fds := update l.fds fd (some f), held := l.held.erase f }
  else { l with fds := update l.fds fd (some f), stale := some fd }

def clear (l : Loc P) (fd : Fin NOFILE) : Loc P :=
  if l.stale = some fd then { l with fds := update l.fds fd none, stale := none }
  else match l.fds fd with
    | none => l
    | some f => { l with fds := update l.fds fd none, held := f ::ₘ l.held }

end Loc

section Rules

variable {P : Type}

def pre : Act P → Loc P → Prop
  | .enter, l => l.Idle
  | .filealloc, l | .argfd _, l | .ofile _, l | .reap _, l => l.Ready
  | .filedup f, l => l.active = true ∧ l.closing = none ∧ 1 ≤ l.backed f ∧ f ∉ l.fresh ∧
      (l.stale = none ∨ ∃ fd, l.stale = some fd ∧ l.fds fd = some f)
  | .dropFile f, l => l.Ready ∧ (f ∈ l.held ∨ ∃ fd, l.cur = some fd ∧ l.fds fd = some f)
  | .pipeclose pipe writable, l => l.closing = some (.pipeEnd pipe writable)
  | .iput serial ip, l => l.closing = some (.opening serial ip)
  | .fdalloc f, l => l.Ready ∧ (f ∈ l.held ∨ 1 ≤ l.backed f)
  | .clearFd fd, l => l.active = true ∧ l.closing = none ∧ (l.stale = none ∨ l.stale = some fd)
  | .initPipe f₀ f₁, l => l.Ready ∧ f₀ ∈ l.fresh ∧ f₁ ∈ l.fresh ∧ f₀ ≠ f₁
  | .initInode f _ _ _ _, l => l.Ready ∧ f ∈ l.fresh
  | .allocproc _, l => l.Ready ∧ l.child = none
  | .freeproc np, l => l.Ready ∧ l.child = some (np, fun _ => none)
  | .giveFd np fd f, l =>
    l.Ready ∧ f ∈ l.held ∧ f ∉ l.fresh ∧ ∃ t, l.child = some (np, t) ∧ t fd = none
  | .start np, l => l.Ready ∧ ∃ t, l.child = some (np, t)
  | .zombie, l => l.Ready ∧ l.Idle ∧ ∀ fd, l.fds fd = none

def post : (a : Act P) → Loc P → a.Reply → Loc P → Prop
  | .enter, _, _, l' => ∃ t, l' = .inCall t
  | .filealloc, l, none, l' => l' = l
  | .filealloc, l, some f,
      l' => f ∉ l.fresh ∧ l' = { l with held := f ::ₘ l.held, fresh := insert f l.fresh }
  | .filedup f, l, _, l' => l' = l.dup f
  | .dropFile f, l, r, l' => l' = { l.drop f with closing := Option.bind r File.obj }
  | .pipeclose _ _, l, _, l' | .iput _ _, l, _, l' => l' = { l with closing := none }
  | .argfd fd, l, r, l' => r = lookupFd l.fds fd ∧ l' = l
  | .ofile fd, l, r, l' => r = l.fds fd ∧ l' = { l with cur := some fd }
  | .fdalloc _, l, none, l' => findFd l.fds = none ∧ l' = l
  | .fdalloc f, l, some fd, l' => findFd l.fds = some fd ∧ l' = l.put fd f
  | .clearFd fd, l, _, l' => l' = l.clear fd
  | .initPipe f₀ f₁, l, _, l' => l' = { l with fresh := (l.fresh.erase f₀).erase f₁ }
  | .initInode f _ _ _ _, l, _, l' => l' = { l with fresh := l.fresh.erase f }
  | .allocproc np, l, _, l' => l' = { l with child := some (np, fun _ => none) }
  | .freeproc _, l, _, l' | .start _, l, _, l' => l' = { l with child := none }
  | .giveFd _ fd f, l, _, l' =>
    l' = { l with
      held := l.held.erase f
      child := l.child.map fun c => (c.1, update c.2 fd (some f)) }
  | .zombie, _, _, l' => l' = Loc.out
  | .reap _, l, _, l' => l' = l

def rules : Discipline (Act P) Act.Reply (Loc P) := ⟨pre, post⟩

end Rules

/-! ## The code keeps to the rules -/

section Code

variable {P α : Type} {l : Loc P} {f : Fin NFILE} {fd : Fin NOFILE} {Q : Unit → Loc P → Prop}
  {t : Fds}

theorem keeps_act {a : Act P} {k : a.Reply → Code P α} {Q : α → Loc P → Prop} (hpre : pre a l)
    (hk : ∀ r l', post a l r l' → rules.Keeps (k r) l' Q) : rules.Keeps (act a >>= k) l Q :=
  ⟨hpre, hk⟩

theorem Loc.drop_closing : (l.drop f).closing = l.closing := by
  unfold drop
  split <;> rfl

theorem keeps_release {ff : File} (hclosing : l.closing = ff.obj)
    (hQ : Q () { l with closing := none }) : rules.Keeps (release ff) l Q := by
  unfold File.obj at hclosing
  unfold release
  cases htype : ff.type with
  | none =>
    simp only [htype] at hclosing ⊢
    rwa [← hclosing] at hQ
  | pipe | inode | device =>
    simp only [htype] at hclosing ⊢
    refine ⟨hclosing, ?_⟩
    rintro r l' rfl
    exact hQ

-- Whatever the file was, the reference is gone and nothing is left to be given up.
theorem keeps_fileclose (hready : l.Ready)
    (hmine : f ∈ l.held ∨ ∃ fd, l.cur = some fd ∧ l.fds fd = some f) (hQ : Q () (l.drop f)) :
    rules.Keeps (fileclose f) l Q := by
  have hnone : ({ l.drop f with closing := none } : Loc P) = l.drop f := by
    rw [← hready.closing, ← Loc.drop_closing]
  rw [← hnone] at hQ
  refine keeps_act ⟨hready, hmine⟩ ?_
  rintro r l' rfl
  cases r with
  | none => exact hQ
  | some ff => exact keeps_release rfl hQ

theorem Loc.drop_held (h : f ∈ l.held) :
    l.drop f = { l with held := l.held.erase f, fresh := l.fresh.erase f } := if_pos h

theorem Loc.put_held (h : f ∈ l.held) :
    l.put fd f = { l with fds := update l.fds fd (some f), held := l.held.erase f } := if_pos h

-- A file in no descriptor is closed.
theorem keeps_fileclose_held (hready : l.Ready) (hheld : f ∈ l.held)
    (hQ : Q () { l with held := l.held.erase f, fresh := l.fresh.erase f }) :
    rules.Keeps (fileclose f) l Q :=
  keeps_fileclose hready (.inl hheld) (Loc.drop_held hheld ▸ hQ)

theorem keeps_sysOpen (t : Fds) (found : Option (Nat × Bool)) (readable writable : Bool) :
    rules.Keeps (sysOpen found readable writable) (.inCall t : Loc P) fun _ => Loc.Idle := by
  match found with
  | none => exact ⟨rfl, rfl, rfl, rfl, rfl⟩
  | some (ip, device) =>
    refine keeps_act ⟨rfl, rfl, rfl⟩ fun r l' hpost => ?_
    cases r with
    | none =>
      cases hpost
      exact ⟨rfl, rfl, rfl, rfl, rfl⟩
    | some f =>
      obtain ⟨-, rfl⟩ := hpost
      have hheld : f ∈ f ::ₘ (0 : Multiset (Fin NFILE)) := mem_cons_self f 0
      have hgone : (f ::ₘ (0 : Multiset (Fin NFILE))).erase f = 0 := erase_cons_head f 0
      have hfilled : (insert f (∅ : Finset (Fin NFILE))).erase f = ∅ :=
        erase_insert (notMem_empty f)
      refine keeps_act ⟨⟨rfl, rfl, rfl⟩, .inl hheld⟩ fun r l' hpost => ?_
      cases r with
      | none =>
        obtain ⟨-, rfl⟩ := hpost
        refine keeps_bind.mpr (keeps_fileclose_held ⟨rfl, rfl, rfl⟩ hheld ?_)
        exact ⟨hgone, rfl, hfilled, rfl, rfl⟩
      | some fd =>
        obtain ⟨-, rfl⟩ := hpost
        rw [Loc.put_held hheld]
        refine keeps_act ⟨⟨rfl, rfl, rfl⟩, mem_insert_self f ∅⟩ ?_
        rintro r l' rfl
        exact ⟨hgone, rfl, hfilled, rfl, rfl⟩

theorem findFd_some (h : findFd t = some fd) : t fd = none := by
  have hfound := List.find?_some h
  exact eq_of_beq hfound

theorem lookupFd_some {n : Int} (h : lookupFd t n = some (fd, f)) : t fd = some f := by
  unfold lookupFd at h
  split at h
  · obtain ⟨g, hg, heq⟩ := Option.map_eq_some_iff.mp h
    cases heq
    exact hg
  · cases h

-- A descriptor with a reference counts.
theorem entries_pos {t : Fds} {stale : Option (Fin NOFILE)} (h : t fd = some f)
    (hstale : stale ≠ some fd) : 1 ≤ entries t stale f := by
  refine le_trans ?_ (single_le_sum (fun _ _ => Nat.zero_le _) (mem_univ fd))
  rw [if_pos ⟨h, hstale⟩]

theorem keeps_sysDup (t : Fds) (n : Int) :
    rules.Keeps (sysDup n) (.inCall t : Loc P) fun _ => Loc.Idle := by
  refine keeps_act ⟨rfl, rfl, rfl⟩ ?_
  rintro r l' ⟨rfl, rfl⟩
  cases hlookup : lookupFd t n with
  | none =>
    simp only [Loc.inCall, hlookup]
    exact ⟨rfl, rfl, rfl, rfl, rfl⟩
  | some x =>
    obtain ⟨fd, f⟩ := x
    have hfd := lookupFd_some hlookup
    simp only [Loc.inCall, hlookup]
    refine keeps_act ⟨⟨rfl, rfl, rfl⟩, .inr ?_⟩ fun r l' hpost => ?_
    · exact Nat.le_add_right_of_le (entries_pos hfd nofun)
    · cases r with
      | none =>
        obtain ⟨-, rfl⟩ := hpost
        exact ⟨rfl, rfl, rfl, rfl, rfl⟩
      | some fd' =>
        obtain ⟨hfree, rfl⟩ := hpost
        have hfree := findFd_some hfree
        -- the new descriptor has no reference yet; the old one does
        have hne : fd' ≠ fd := by
          rintro rfl
          cases hfree.symm.trans hfd
        refine keeps_act ⟨rfl, rfl, ?_, notMem_empty f, .inr ⟨fd', rfl, ?_⟩⟩ ?_
        · refine Nat.le_add_right_of_le (@entries_pos f fd _ _ ?_ ?_)
          · exact (update_of_ne hne.symm ..).trans hfd
          · exact fun heq => hne (Option.some.inj heq)
        · exact update_self ..
        · rintro r l' rfl
          exact ⟨rfl, rfl, rfl, rfl, rfl⟩

theorem keeps_sysClose (t : Fds) (n : Int) :
    rules.Keeps (sysClose n) (.inCall t : Loc P) fun _ => Loc.Idle := by
  refine keeps_act ⟨rfl, rfl, rfl⟩ ?_
  rintro r l' ⟨rfl, rfl⟩
  cases hlookup : lookupFd t n with
  | none =>
    simp only [Loc.inCall, hlookup]
    exact ⟨rfl, rfl, rfl, rfl, rfl⟩
  | some x =>
    obtain ⟨fd, f⟩ := x
    have hfd := lookupFd_some hlookup
    simp only [Loc.inCall, hlookup]
    refine keeps_act ⟨rfl, rfl, .inl rfl⟩ ?_
    rintro r l' rfl
    have hclear : (⟨true, t, 0, none, none, ∅, none, none⟩ : Loc P).clear fd =
        ⟨true, update t fd none, f ::ₘ 0, none, none, ∅, none, none⟩ := by
      simp only [Loc.clear, hfd, reduceCtorEq, if_false]
    rw [hclear]
    refine keeps_bind.mpr (keeps_fileclose_held ⟨rfl, rfl, rfl⟩ (mem_cons_self f 0) ?_)
    exact ⟨erase_cons_head f 0, rfl, erase_empty f, rfl, rfl⟩

-- Both files are closed, and they are all that the call has.
theorem keeps_close_both {held : Multiset (Fin NFILE)} {fresh : Finset (Fin NFILE)}
    {f₀ f₁ : Fin NFILE} {k : Code P α} {Q : α → Loc P → Prop} (hheld : held = f₀ ::ₘ f₁ ::ₘ 0)
    (hfresh : (fresh.erase f₀).erase f₁ = ∅) (hk : rules.Keeps k (.inCall t) Q) :
    rules.Keeps (do fileclose f₀; fileclose f₁; k)
      (⟨true, t, held, none, none, fresh, none, none⟩ : Loc P) Q := by
  subst hheld
  have hone : (f₀ ::ₘ f₁ ::ₘ 0).erase f₀ = f₁ ::ₘ 0 := erase_cons_head f₀ _
  have hzero : (f₁ ::ₘ (0 : Multiset (Fin NFILE))).erase f₁ = 0 := erase_cons_head f₁ 0
  refine keeps_bind.mpr (keeps_fileclose_held ⟨rfl, rfl, rfl⟩
    (mem_cons_self f₀ (f₁ ::ₘ 0)) ?_)
  rw [hone]
  refine keeps_bind.mpr (keeps_fileclose_held ⟨rfl, rfl, rfl⟩ (mem_cons_self f₁ 0) ?_)
  rwa [hzero, hfresh]

theorem keeps_pipealloc (t : Fds) (memory : Bool) :
    rules.Keeps (pipealloc memory) (.inCall t : Loc P) fun r l =>
      match r with
      | none => l = .inCall t
      | some (rf, wf) => l = ⟨true, t, rf ::ₘ wf ::ₘ 0, none, none, ∅, none, none⟩ := by
  refine keeps_act ⟨rfl, rfl, rfl⟩ fun r l' hpost => ?_
  cases r with
  | none =>
    cases hpost
    exact rfl
  | some f0 =>
    obtain ⟨-, rfl⟩ := hpost
    have hempty : (insert f0 (∅ : Finset (Fin NFILE))).erase f0 = ∅ :=
      erase_insert (notMem_empty f0)
    refine keeps_act ⟨rfl, rfl, rfl⟩ fun r l' hpost => ?_
    cases r with
    | none =>
      cases hpost
      refine keeps_bind.mpr (keeps_fileclose_held ⟨rfl, rfl, rfl⟩ (mem_cons_self f0 0) ?_)
      have hzero : (f0 ::ₘ (0 : Multiset (Fin NFILE))).erase f0 = 0 := erase_cons_head f0 0
      simp only [Loc.inCall, hzero, hempty]
      exact rfl
    | some f1 =>
      obtain ⟨hnew, rfl⟩ := hpost
      have hne : f0 ≠ f1 := fun heq => hnew (heq ▸ mem_insert_self f0 ∅)
      have hheld : f1 ::ₘ f0 ::ₘ (0 : Multiset (Fin NFILE)) = f0 ::ₘ f1 ::ₘ 0 := cons_swap f1 f0 0
      have hfresh : ((insert f1 (insert f0 (∅ : Finset (Fin NFILE)))).erase f0).erase f1 = ∅ := by
        rw [erase_insert_of_ne hne.symm, hempty, erase_insert (notMem_empty f1)]
      simp only [Loc.inCall]
      cases memory with
      | true =>
        refine keeps_act ⟨⟨rfl, rfl, rfl⟩, ?_, mem_insert_self f1 _, hne⟩ ?_
        · exact mem_insert_of_mem (mem_insert_self f0 ∅)
        · rintro r l' rfl
          rw [hheld, hfresh]
          exact rfl
      | false => exact keeps_close_both hheld hfresh rfl

theorem keeps_sysPipe (t : Fds) (memory copied : Bool) :
    rules.Keeps (sysPipe memory copied) (.inCall t : Loc P) fun _ => Loc.Idle := by
  have hidle : ∀ t : Fds, (Loc.inCall t : Loc P).Idle := fun _ => ⟨rfl, rfl, rfl, rfl, rfl⟩
  refine keeps_bind.mpr ((keeps_pipealloc t memory).mono fun r l hl => ?_)
  match r with
  | none =>
    cases hl
    exact hidle t
  | some (rf, wf) =>
    cases hl
    have hrf : rf ∈ rf ::ₘ wf ::ₘ (0 : Multiset (Fin NFILE)) := mem_cons_self rf _
    refine keeps_act ⟨⟨rfl, rfl, rfl⟩, .inl hrf⟩ fun r l' hpost => ?_
    cases r with
    | none =>
      obtain ⟨-, rfl⟩ := hpost
      exact keeps_close_both rfl rfl (hidle t)
    | some fd0 =>
      obtain ⟨hfree, rfl⟩ := hpost
      have hput : (⟨true, t, rf ::ₘ wf ::ₘ 0, none, none, ∅, none, none⟩ : Loc P).put fd0 rf =
          ⟨true, update t fd0 (some rf), wf ::ₘ 0, none, none, ∅, none, none⟩ := by
        rw [Loc.put_held hrf]
        simp only [erase_cons_head]
      rw [hput]
      have hwf : wf ∈ wf ::ₘ (0 : Multiset (Fin NFILE)) := mem_cons_self wf 0
      have hself : update t fd0 (some rf) fd0 = some rf := update_self ..
      refine keeps_act ⟨⟨rfl, rfl, rfl⟩, .inl hwf⟩ fun r l' hpost => ?_
      cases r with
      | none =>
        obtain ⟨-, rfl⟩ := hpost
        refine keeps_act ⟨rfl, rfl, .inl rfl⟩ ?_
        rintro r l' rfl
        simp only [Loc.clear, hself, reduceCtorEq, if_false]
        exact keeps_close_both rfl rfl (hidle _)
      | some fd1 =>
        obtain ⟨hfree', rfl⟩ := hpost
        have hput' : (⟨true, update t fd0 (some rf), wf ::ₘ 0, none, none, ∅, none, none⟩ : Loc
            P).put fd1 wf = .inCall (update (update t fd0 (some rf)) fd1 (some wf)) := by
          rw [Loc.put_held hwf]
          simp only [erase_cons_head]
          rfl
        rw [hput']
        cases copied with
        | true => exact hidle _
        | false =>
          have hne : fd0 ≠ fd1 := by
            rintro rfl
            cases hself.symm.trans (findFd_some hfree')
          have h0 : update (update t fd0 (some rf)) fd1 (some wf) fd0 = some rf :=
            (update_of_ne hne ..).trans hself
          have h1 : update (update (update t fd0 (some rf)) fd1 (some wf)) fd0 none
              fd1 = some wf := (update_of_ne hne.symm ..).trans (update_self ..)
          refine keeps_act ⟨rfl, rfl, .inl rfl⟩ ?_
          rintro r l' rfl
          simp only [Loc.clear, Loc.inCall, h0, reduceCtorEq, if_false]
          refine keeps_act ⟨rfl, rfl, .inl rfl⟩ ?_
          rintro r l' rfl
          simp only [Loc.clear, h1, reduceCtorEq, if_false]
          exact keeps_close_both (cons_swap wf rf 0) rfl (hidle _)

-- The induction is on the descriptors still to be copied; the child has none of them.
theorem keeps_copyFds {np : P} (fds : List (Fin NOFILE)) (hnodup : fds.Nodup)
    (cur : Option (Fin NOFILE)) (t' : Fds) (hfree : ∀ fd ∈ fds, t' fd = none) :
    rules.Keeps (copyFds np fds)
      (⟨true, t, 0, none, cur, ∅, some (np, t'), none⟩ : Loc P) fun _ l =>
      ∃ cur t', l = ⟨true, t, 0, none, cur, ∅, some (np, t'), none⟩ := by
  induction fds generalizing cur t' with
  | nil => exact ⟨cur, t', rfl⟩
  | cons fd fds ih =>
    rw [List.nodup_cons] at hnodup
    have hrest : ∀ fd' ∈ fds, t' fd' = none :=
      fun fd' hfd' => hfree fd' (List.mem_cons_of_mem _ hfd')
    refine keeps_act ⟨rfl, rfl, rfl⟩ ?_
    rintro r l' ⟨rfl, rfl⟩
    cases hfd : t fd with
    | none =>
      simp only [hfd]
      exact ih hnodup.2 (some fd) t' hrest
    | some f =>
      simp only [hfd]
      refine keeps_act ⟨rfl, rfl, ?_, notMem_empty f, .inl rfl⟩ ?_
      · exact Nat.le_add_right_of_le (entries_pos hfd nofun)
      rintro r l' rfl
      refine keeps_act ⟨⟨rfl, rfl, rfl⟩, mem_cons_self f 0, notMem_empty f, t', rfl,
        hfree fd List.mem_cons_self⟩ ?_
      rintro r l' rfl
      have hzero : (f ::ₘ (0 : Multiset (Fin NFILE))).erase f = 0 := erase_cons_head f 0
      simp only [Loc.dup, if_true, hzero, Option.map_some]
      refine ih hnodup.2 (some fd) _ fun fd' hfd' => ?_
      have hne : fd' ≠ fd := fun heq => hnodup.1 (heq ▸ hfd')
      exact (update_of_ne hne ..).trans (hrest fd' hfd')

theorem keeps_fork (t : Fds) (slot : Option P) (memory : Bool) :
    rules.Keeps (fork slot memory) (.inCall t : Loc P) fun _ => Loc.Idle := by
  cases slot with
  | none => exact ⟨rfl, rfl, rfl, rfl, rfl⟩
  | some np =>
    refine keeps_act ⟨⟨rfl, rfl, rfl⟩, rfl⟩ ?_
    rintro r l' rfl
    cases memory with
    | true =>
      refine keeps_bind.mpr ?_
      refine (keeps_copyFds _ (List.nodup_finRange NOFILE) none _ fun _ _ => rfl).mono ?_
      rintro r l' ⟨cur, t', rfl⟩
      refine keeps_act ⟨⟨rfl, rfl, rfl⟩, t', rfl⟩ ?_
      rintro r l' rfl
      exact ⟨rfl, rfl, rfl, rfl, rfl⟩
    | false =>
      refine keeps_act ⟨⟨rfl, rfl, rfl⟩, rfl⟩ ?_
      rintro r l' rfl
      exact ⟨rfl, rfl, rfl, rfl, rfl⟩

-- The induction is on the descriptors still to be closed; the others are clear.
theorem keeps_closeFds (fds : List (Fin NOFILE)) (cur : Option (Fin NOFILE)) (t : Fds)
    (hclear : ∀ fd ∉ fds, t fd = none) :
    rules.Keeps (closeFds fds) (⟨true, t, 0, none, cur, ∅, none, none⟩ : Loc P) fun _ l =>
      ∃ cur t, l = ⟨true, t, 0, none, cur, ∅, none, none⟩ ∧ ∀ fd, t fd = none := by
  induction fds generalizing cur t with
  | nil => exact ⟨cur, t, rfl, fun fd => hclear fd List.not_mem_nil⟩
  | cons fd fds ih =>
    refine keeps_act ⟨rfl, rfl, rfl⟩ ?_
    rintro r l' ⟨rfl, rfl⟩
    cases hfd : t fd with
    | none =>
      simp only [hfd]
      refine ih (some fd) t fun fd' hfd' => ?_
      by_cases heq : fd' = fd
      · rw [heq, hfd]
      · exact hclear fd' (List.mem_cons.not.mpr (not_or.mpr ⟨heq, hfd'⟩))
    | some f =>
      simp only [hfd]
      refine keeps_bind.mpr (keeps_fileclose ⟨rfl, rfl, rfl⟩ (.inr ⟨fd, rfl, hfd⟩) ?_)
      simp only [Loc.drop, notMem_zero, if_false, erase_empty]
      refine keeps_act ⟨rfl, rfl, .inr rfl⟩ ?_
      rintro r l' rfl
      simp only [Loc.clear, if_true]
      refine ih (some fd) _ fun fd' hfd' => ?_
      by_cases heq : fd' = fd
      · rw [heq, update_self]
      · rw [update_of_ne heq]
        exact hclear fd' (List.mem_cons.not.mpr (not_or.mpr ⟨heq, hfd'⟩))

theorem keeps_exit (t : Fds) : rules.Keeps exit (.inCall t : Loc P) fun _ => Loc.Idle := by
  refine keeps_bind.mpr ?_
  refine (keeps_closeFds (List.finRange NOFILE) none t fun fd hfd =>
    absurd (List.mem_finRange fd) hfd).mono ?_
  rintro r l' ⟨cur, t, rfl, hclear⟩
  refine keeps_act ⟨⟨rfl, rfl, rfl⟩, ⟨rfl, rfl, rfl, rfl, rfl⟩, hclear⟩ ?_
  rintro r l' rfl
  exact ⟨rfl, rfl, rfl, rfl, rfl⟩

theorem keeps_code (c : Call P) (l : Loc P) (h : l.Idle) :
    rules.Keeps c.code l fun _ => Loc.Idle := by
  refine keeps_act h ?_
  rintro r l' ⟨t, rfl⟩
  cases c with
  | «open» found readable writable => exact keeps_sysOpen t found readable writable
  | dup fd => exact keeps_sysDup t fd
  | close fd => exact keeps_sysClose t fd
  | pipe memory copied => exact keeps_sysPipe t memory copied
  | fork slot memory => exact keeps_fork t slot memory
  | exit => exact keeps_exit t
  | wait q =>
    refine keeps_act ⟨rfl, rfl, rfl⟩ ?_
    rintro r l' rfl
    exact ⟨rfl, rfl, rfl, rfl, rfl⟩

end Code

end OsProjects.Kernel.Files
