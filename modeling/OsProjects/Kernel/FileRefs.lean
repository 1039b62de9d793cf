import OsProjects.Kernel.FileRules
import OsProjects.Lib.Ownership

/-!
# FileRefs — the reference counts of open files

A file has as many references as there are descriptors and calls in progress that have one, and what
a file stands for is given up once.
-/

namespace OsProjects.Kernel.Files

open Lib Function Multiset Finset Nat

variable {P : Type}

/-! ## Descriptors -/

section Entries

variable (t t' : Fds) (stale stale' : Option (Fin NOFILE)) {fd : Fin NOFILE} (f : Fin NFILE)

theorem entries_exchange
    (hsame : ∀ fd' ≠ fd, t' fd' = t fd' ∧ (stale' = some fd' ↔ stale = some fd')) :
    entries t' stale' f + (if t fd = some f ∧ stale ≠ some fd then 1 else 0) =
      entries t stale f + if t' fd = some f ∧ stale' ≠ some fd then 1 else 0 := by
  exact sum_exchange (mem_univ fd)
    (f := fun fd => if t' fd = some f ∧ stale' ≠ some fd then 1 else 0)
    (g := fun fd => if t fd = some f ∧ stale ≠ some fd then 1 else 0) fun fd' _ hne => by
      obtain ⟨ht, hstale⟩ := hsame fd' hne
      simp only [ht, ne_eq, hstale]

-- One descriptor is changed.
theorem entries_update (hstale : stale ≠ some fd) (x : Option (Fin NFILE)) :
    entries (update t fd x) stale f + (if t fd = some f then 1 else 0) =
      entries t stale f + if x = some f then 1 else 0 := by
  have hsum := @entries_exchange t (update t fd x) stale stale fd f fun fd' hne =>
    ⟨update_of_ne hne .., Iff.rfl⟩
  simpa only [update_self, ne_eq, hstale, not_false_eq_true, and_true] using hsum

variable (fd)

-- A descriptor without a reference may have anything in it.
theorem entries_stale (x : Option (Fin NFILE)) :
    entries (update t fd x) (some fd) f = entries t (some fd) f := by
  refine sum_congr rfl fun fd' _ => ?_
  by_cases hne : fd' = fd
  · simp only [hne, ne_eq, not_true_eq_false, and_false]
  · rw [update_of_ne hne]

theorem entries_none :
    entries t none f = entries t (some fd) f + if t fd = some f then 1 else 0 := by
  have hsum := @entries_exchange t t (some fd) none fd f fun fd' hne =>
    ⟨rfl, iff_of_false nofun fun heq => hne (Option.some.inj heq).symm⟩
  simpa using hsum

end Entries

/-! ## The invariant -/

/-- The references to `f` of a process with the descriptors `t`. -/
def count (t : Fds) (l : Loc P) (f : Fin NFILE) : Nat := entries t l.stale f + l.held.count f

def Sys.Made (s : Sys P) : Obj → Prop
  | .pipeEnd k _ => k < s.pipes
  | .opening n ip => s.opens[n]? = some ip

instance (s : Sys P) : (o : Obj) → Decidable (s.Made o)
  | .pipeEnd k _ => inferInstanceAs (Decidable (k < s.pipes))
  | .opening n ip => inferInstanceAs (Decidable (s.opens[n]? = some ip))

def Loc.closes (o : Obj) (l : Loc P) : Nat := if l.closing = some o then 1 else 0

def File.carries (o : Obj) (g : File) : Nat := if g.obj = some o then 1 else 0

variable [Fintype P]

/-- The files that a process with the descriptors `t` has yet to fill in are its own. -/
def Sys.Unfilled (s : Sys P) (t : Fds) (l : Loc P) : Prop :=
  ∀ f ∈ l.fresh, (s.file f).type = .none ∧ (s.file f).ref = 1 ∧ 1 ≤ count t l f

/-- Whatever a file stands for is in one place: given up, about to be, or in the file. -/
def Sys.InPlace (s : Sys P) (locs : P → Loc P) : Prop :=
  ∀ o, s.released.count o + ∑ p, (locs p).closes o + ∑ f, (s.file f).carries o =
    if s.Made o then 1 else 0

/-- The child that `p` is making, if any, has its descriptors and is nobody else's. -/
def Sys.Makes (s : Sys P) (locs : P → Loc P) (p : P) (child : Option (P × Fds)) : Prop :=
  ∀ np t, child = some (np, t) → s.life np = .used ∧ s.ofile np = t ∧
    ∀ q ≠ p, ∀ t', (locs q).child ≠ some (np, t')

structure Inv (s : Sys P) (locs : P → Loc P) : Prop where
  ref : ∀ f, (s.file f).ref = ∑ p, count (s.ofile p) (locs p) f
  free : ∀ f, (s.file f).ref = 0 → (s.file f).type = .none
  table : ∀ p, (locs p).active = true → s.ofile p = (locs p).fds ∧ s.life p = .running
  out : ∀ p, (locs p).active = false → (locs p).Idle
  fresh : ∀ p, s.Unfilled (s.ofile p) (locs p)
  child : ∀ p, s.Makes locs p (locs p).child
  empty : ∀ p, s.life p = .unused ∨ s.life p = .zombie → ∀ fd, s.ofile p fd = none
  objs : s.InPlace locs

section Facts

variable {s : Sys P} {locs : P → Loc P} {p q : P} {f : Fin NFILE}

theorem Inv.count_le (h : Inv s locs) (p : P) (f : Fin NFILE) :
    count (s.ofile p) (locs p) f ≤ (s.file f).ref := by
  rw [h.ref]
  exact single_le_sum (f := fun p => count (s.ofile p) (locs p) f) (fun _ _ => zero_le _)
    (mem_univ p)

-- Nobody else has a reference to a file that is not filled in.
theorem Inv.fresh_other [DecidableEq P] (h : Inv s locs) (hq : f ∈ (locs q).fresh) (hne : q ≠ p) :
    count (s.ofile p) (locs p) f = 0 := by
  obtain ⟨-, hone, hpos⟩ := h.fresh q f hq
  have hsum := h.ref f
  rw [hone, ← add_sum_erase _ _ (mem_univ q),
    ← add_sum_erase _ _ (mem_erase.mpr ⟨hne.symm, mem_univ p⟩)] at hsum
  omega

theorem Inv.fresh_disjoint [DecidableEq P] (h : Inv s locs) (hq : f ∈ (locs q).fresh)
    (hne : q ≠ p) : f ∉ (locs p).fresh := by
  intro hp
  have hpos := (h.fresh p f hp).2.2
  rw [h.fresh_other hq hne] at hpos
  exact absurd hpos (by decide)

end Facts

/-! ## One action -/

section Actions

variable [DecidableEq P] {s s' : Sys P} {locs : P → Loc P} {p : P} {l : Loc P} {f : Fin NFILE}
  {fd : Fin NOFILE} {t : Fds} {file : Fin NFILE → File} {x : File}

theorem Inv.sum_count (h : Inv s locs) (hothers : ∀ q ≠ p, s'.ofile q = s.ofile q)
    (hp : ∀ f, (s'.file f).ref + count (s.ofile p) (locs p) f =
      (s.file f).ref + count (s'.ofile p) l f) (f : Fin NFILE) :
    (s'.file f).ref = ∑ q, count (s'.ofile q) (update locs p l q) f := by
  have hsum := sum_exchange (mem_univ p)
    (f := fun q => count (s'.ofile q) (update locs p l q) f)
    (g := fun q => count (s.ofile q) (locs q) f) fun q _ hq => by
      rw [hothers q hq, update_of_ne hq]
  simp only [update_self] at hsum
  have hold := h.ref f
  have hnew := hp f
  omega

/-- An action of `p`: each clause for `p`, and what the others see of it. -/
theorem Inv.step (h : Inv s locs)
    (href : ∀ f, (s'.file f).ref = ∑ q, count (s'.ofile q) (update locs p l q) f)
    (hfree : ∀ f, (s'.file f).ref = 0 → (s'.file f).type = .none)
    (hown : l.active = true → s'.ofile p = l.fds ∧ s'.life p = .running)
    (hidle : l.active = false → l.Idle) (hfresh : s'.Unfilled (s'.ofile p) l)
    (hchild : s'.Makes locs p l.child)
    (hactive : ∀ q ≠ p, (locs q).active = true → s'.ofile q = s.ofile q ∧ s'.life q = s.life q)
    (hother : ∀ f, s'.file f ≠ s.file f → ∀ q ≠ p, f ∉ (locs q).fresh)
    (hslot : ∀ q ≠ p, ∀ np t, (locs q).child = some (np, t) →
      s'.ofile np = s.ofile np ∧ s'.life np = s.life np)
    (hempty : ∀ q, s'.life q = .unused ∨ s'.life q = .zombie → ∀ fd, s'.ofile q fd = none)
    (hobjs : s'.InPlace (update locs p l)) : Inv s' (update locs p l) := by
  refine ⟨href, hfree, ?_, ?_, ?_, fun q np t ht => ?_, hempty, hobjs⟩
  · refine (forall_update_iff locs fun q x => x.active = true → s'.ofile q = x.fds ∧ _).mpr
      ⟨hown, fun q hqp hq => ?_⟩
    rw [(hactive q hqp hq).1, (hactive q hqp hq).2]
    exact h.table q hq
  · exact (forall_update_iff locs fun _ x => x.active = false → x.Idle).mpr
      ⟨hidle, fun q _ => h.out q⟩
  · refine (forall_update_iff locs fun q x => s'.Unfilled (s'.ofile q) x).mpr
      ⟨hfresh, fun q hqp f hf => ?_⟩
    have hq : (locs q).active = true := by
      by_contra hout
      rw [(h.out q (Bool.not_eq_true _ ▸ hout)).fresh] at hf
      cases hf
    have hsame : s'.file f = s.file f := by
      by_contra hne
      exact hother f hne q hqp hf
    rw [hsame, (hactive q hqp hq).1]
    exact h.fresh q f hf
  · rcases eq_or_ne q p with rfl | hqp
    · rw [update_self] at ht
      refine ⟨(hchild np t ht).1, (hchild np t ht).2.1, fun q' hq' t' => ?_⟩
      rw [update_of_ne hq']
      exact (hchild np t ht).2.2 q' hq' t'
    · rw [update_of_ne hqp] at ht
      obtain ⟨hused, hfds, hothers⟩ := h.child q np t ht
      rw [(hslot q hqp np t ht).1, (hslot q hqp np t ht).2]
      refine ⟨hused, hfds, fun q' hq' t' => ?_⟩
      rcases eq_or_ne q' p with rfl | hqp'
      · rw [update_self]
        exact fun ht' => (hchild np t' ht').2.2 q hqp t ht
      · rw [update_of_ne hqp']
        exact hothers q' hq' t'

/-- An action of `p` on files and its own descriptors. -/
theorem Inv.replace (h : Inv s locs) (hofile : ∀ q ≠ p, s'.ofile q = s.ofile q)
    (hlife : s'.life = s.life) (hrun : s.life p = .running) (hactive : l.active = true)
    (htable : s'.ofile p = l.fds) (href : ∀ f, (s'.file f).ref + count (s.ofile p) (locs p) f =
      (s.file f).ref + count (s'.ofile p) l f)
    (hfree : ∀ f, (s'.file f).ref = 0 → (s'.file f).type = .none)
    (hfresh : s'.Unfilled (s'.ofile p) l)
    (hother : ∀ f, s'.file f ≠ s.file f → ∀ q ≠ p, f ∉ (locs q).fresh)
    (hchild : l.child = (locs p).child) (hobjs : s'.InPlace (update locs p l)) :
    Inv s' (update locs p l) := by
  have hslot : ∀ q np t, (locs q).child = some (np, t) → s'.ofile np = s.ofile np := by
    rintro q np t hq
    refine hofile np ?_
    rintro rfl
    cases hrun.symm.trans (h.child q np t hq).1
  refine h.step (h.sum_count hofile href) hfree (fun _ => ⟨htable, hlife ▸ hrun⟩)
    (fun hout => nomatch hactive.symm.trans hout) hfresh (fun np t ht => ?_)
    (fun q hq _ => ⟨hofile q hq, by rw [hlife]⟩) hother
    (fun q _ np t hq => ⟨hslot q np t hq, by rw [hlife]⟩) (fun q hq fd => ?_) hobjs
  · rw [hchild] at ht
    rw [hlife, hslot p np t ht]
    exact h.child p np t ht
  · rw [hlife] at hq
    have hne : q ≠ p := by
      rintro rfl
      rw [hrun] at hq
      rcases hq with hq | hq <;> cases hq
    rw [hofile q hne]
    exact h.empty q hq fd

theorem closes_same (hclosing : l.closing = (locs p).closing) (o : Obj) :
    ∑ q, (update locs p l q).closes o = ∑ q, (locs q).closes o := by
  have hsum := sum_update_add (mem_univ p) (Loc.closes o) locs l
  have hsame : l.closes o = (locs p).closes o := by rw [Loc.closes, Loc.closes, hclosing]
  omega

/-- Nothing is given up, and no file comes to stand for something else. -/
theorem Inv.objs_same (h : Inv s locs) (hreleased : s'.released = s.released)
    (hclosing : l.closing = (locs p).closing) (hobj : ∀ f, (s'.file f).obj = (s.file f).obj)
    (hmade : s'.pipes = s.pipes ∧ s'.opens = s.opens) : s'.InPlace (update locs p l) := by
  intro o
  have hcarries : ∀ f, (s'.file f).carries o = (s.file f).carries o := by
    intro f
    rw [File.carries, File.carries, hobj]
  have hmade' : s'.Made o ↔ s.Made o := by
    cases o with
    | pipeEnd k w => rw [Sys.Made, Sys.Made, hmade.1]
    | opening n ip => rw [Sys.Made, Sys.Made, hmade.2]
  simp only [hreleased, closes_same hclosing, hcarries, hmade']
  exact h.objs o

-- Only the descriptors and the references of `p` change places, and they count the same.
theorem Inv.shift (h : Inv s locs) {ofile : P → Fds} (hofile : ∀ q ≠ p, ofile q = s.ofile q)
    (hrun : s.life p = .running) (hactive : l.active = true) (htable : ofile p = l.fds)
    (hcount : ∀ f, count (ofile p) l f = count (s.ofile p) (locs p) f)
    (hfresh : l.fresh = (locs p).fresh) (hchild : l.child = (locs p).child)
    (hclosing : l.closing = (locs p).closing) :
    Inv { s with ofile := ofile } (update locs p l) := by
  refine h.replace hofile rfl hrun hactive htable (fun f => by rw [hcount]) h.free (fun f hf => ?_)
    (fun f hne => absurd rfl hne) hchild (h.objs_same rfl hclosing (fun _ => rfl) ⟨rfl, rfl⟩)
  rw [hfresh] at hf
  rw [hcount]
  exact h.fresh p f hf

theorem Inv.enter (h : Inv s locs) (hrun : s.life p = .running) (hidle : (locs p).Idle) :
    Inv s (update locs p (.inCall (s.ofile p))) := by
  refine h.shift (fun _ _ => rfl) hrun rfl rfl (fun f => ?_) hidle.fresh.symm hidle.child.symm
    hidle.closing.symm
  rw [count, count, hidle.stale, hidle.held]
  rfl

omit [DecidableEq P] [Fintype P] in
theorem findFile_some (hfound : s.findFile = some f) : (s.file f).ref = 0 := by
  have hf := List.find?_some hfound
  exact eq_of_beq hf

-- One file changes, and what `p` has of it.
theorem Inv.updateFile (h : Inv s locs) (hfile : s'.file = update s.file f x)
    (hofile : s'.ofile = s.ofile) (hlife : s'.life = s.life) (hrun : s.life p = .running)
    (hactive : l.active = true) (htable : s.ofile p = l.fds)
    (href : x.ref + count (s.ofile p) (locs p) f = (s.file f).ref + count (s.ofile p) l f)
    (hcount : ∀ g ≠ f, count (s.ofile p) l g = count (s.ofile p) (locs p) g)
    (hfree : x.ref = 0 → x.type = .none)
    (hfresh : f ∈ l.fresh → x.type = .none ∧ x.ref = 1 ∧ 1 ≤ count (s.ofile p) l f)
    (hsub : ∀ g ∈ l.fresh, g ≠ f → g ∈ (locs p).fresh) (hnew : ∀ q ≠ p, f ∉ (locs q).fresh)
    (hchild : l.child = (locs p).child) (hobjs : s'.InPlace (update locs p l)) :
    Inv s' (update locs p l) := by
  refine h.replace (fun q _ => by rw [hofile]) hlife hrun hactive (by rw [hofile, htable]) ?_ ?_
    (fun g hg => ?_) (fun g hg q hq => ?_) hchild hobjs
  · rw [hfile, hofile]
    refine (forall_update_iff s.file fun g y => y.ref + count (s.ofile p) (locs p) g =
      (s.file g).ref + count (s.ofile p) l g).mpr ⟨href, fun g hg => ?_⟩
    rw [hcount g hg]
  · rw [hfile]
    exact (forall_update_iff s.file fun _ y => y.ref = 0 → y.type = .none).mpr
      ⟨hfree, fun g _ => h.free g⟩
  · rw [hfile, hofile]
    by_cases hgf : g = f
    · subst hgf
      rw [update_self]
      exact hfresh hg
    · rw [update_of_ne hgf, hcount g hgf]
      exact h.fresh p g (hsub g hg hgf)
  · have hgf : g = f := by
      by_contra hgf
      rw [hfile, update_of_ne hgf] at hg
      exact hg rfl
    exact hgf ▸ hnew q hq

theorem obj_update (hx : x.obj = (file f).obj) (g : Fin NFILE) :
    (update file f x g).obj = (file g).obj :=
  (forall_update_iff file fun g y => y.obj = (file g).obj).mpr ⟨hx, fun _ _ => rfl⟩ g

theorem Inv.filealloc (h : Inv s locs) (hready : (locs p).Ready) (hfound : s.findFile = some f) :
    f ∉ (locs p).fresh ∧ Inv (s.setFile f { s.file f with ref := 1 })
      (update locs p { locs p with
        held := f ::ₘ (locs p).held, fresh := insert f (locs p).fresh }) := by
  have hzero := findFile_some hfound
  obtain ⟨htable, hrun⟩ := h.table p hready.active
  have hnew : ∀ q, f ∉ (locs q).fresh := by
    intro q hq
    have hone := (h.fresh q f hq).2.1
    omega
  refine ⟨hnew p, h.updateFile rfl rfl rfl hrun hready.active htable ?_ (fun g hg => ?_) nofun
    (fun _ => ⟨h.free f hzero, rfl, ?_⟩) (fun g hg hgf => (mem_insert.mp hg).resolve_left hgf)
    (fun q _ => hnew q) rfl (h.objs_same rfl rfl (obj_update rfl) ⟨rfl, rfl⟩)⟩
  · unfold count
    rw [count_cons_self]
    simp only
    omega
  · unfold count
    rw [count_cons_of_ne hg]
  · unfold count
    rw [count_cons_self]
    omega

theorem some_eq_iff (f g : Fin NFILE) : some f = some g ↔ g = f := by
  rw [Option.some.injEq, eq_comm]

omit [Fintype P] [DecidableEq P] in
theorem count_dup (hstale : l.stale = none ∨ ∃ fd, l.stale = some fd ∧ t fd = some f)
    (g : Fin NFILE) : count t (l.dup f) g = count t l g + if g = f then 1 else 0 := by
  unfold Loc.dup count
  rcases hstale with hnone | ⟨fd, hfd, hentry⟩
  · rw [if_pos hnone, count_cons, add_assoc]
  · rw [if_neg (by rw [hfd]; nofun), hfd, entries_none _ fd, hentry]
    simp only [some_eq_iff]
    omega

omit [Fintype P] [DecidableEq P] in
theorem Loc.dup_fields : (l.dup f).active = l.active ∧ (l.dup f).fds = l.fds ∧
    (l.dup f).fresh = l.fresh ∧ (l.dup f).child = l.child ∧ (l.dup f).closing = l.closing := by
  unfold Loc.dup
  split <;> exact ⟨rfl, rfl, rfl, rfl, rfl⟩

theorem Inv.filedup (h : Inv s locs) (hactive : (locs p).active = true)
    (hpos : 1 ≤ (locs p).backed f) (hfilled : f ∉ (locs p).fresh)
    (hstale : (locs p).stale = none ∨ ∃ fd, (locs p).stale = some fd ∧ (locs p).fds fd = some f) :
    1 ≤ (s.file f).ref ∧ Inv (s.setFile f { s.file f with ref := (s.file f).ref + 1 })
      (update locs p ((locs p).dup f)) := by
  obtain ⟨htable, hrun⟩ := h.table p hactive
  have hmine : 1 ≤ count (s.ofile p) (locs p) f := by
    rwa [htable]
  have hnew : ∀ q ≠ p, f ∉ (locs q).fresh := by
    intro q hne hq
    rw [h.fresh_other hq hne] at hmine
    exact absurd hmine (by decide)
  obtain ⟨hact, hfds, hfresh, hchild, hclosing⟩ := @Loc.dup_fields P (locs p) f
  have hdup := count_dup (t := s.ofile p) (by rwa [htable])
  refine ⟨hmine.trans (h.count_le p f), h.updateFile rfl rfl rfl hrun (hact.trans hactive)
    (htable.trans hfds.symm) ?_ (fun g hg => ?_) nofun (fun hf => absurd (hfresh ▸ hf) hfilled)
    (fun g hg _ => hfresh ▸ hg) hnew hchild (h.objs_same rfl hclosing (obj_update rfl) ⟨rfl, rfl⟩)⟩
  · rw [hdup, if_pos rfl]
    simp only
    omega
  · rw [hdup, if_neg hg, add_zero]

theorem count_erase_held {held : Multiset (Fin NFILE)} (hf : f ∈ held) (g : Fin NFILE) :
    (held.erase f).count g + (if g = f then 1 else 0) = held.count g := by
  by_cases hgf : g = f
  · have hpos := one_le_count_iff_mem.mpr hf
    rw [hgf, count_erase_self, if_pos rfl]
    omega
  · rw [count_erase_of_ne hgf, if_neg hgf, add_zero]

omit [Fintype P] [DecidableEq P] in
theorem count_drop (hstale : l.stale = none)
    (hmine : f ∈ l.held ∨ ∃ fd, l.cur = some fd ∧ t fd = some f) (g : Fin NFILE) :
    count t (l.drop f) g + (if g = f then 1 else 0) = count t l g := by
  unfold Loc.drop
  by_cases hheld : f ∈ l.held
  · rw [if_pos hheld, count, count, add_assoc]
    exact congrArg _ (count_erase_held hheld g)
  · obtain ⟨fd, hcur, hfd⟩ := hmine.resolve_left hheld
    rw [if_neg hheld, count, count, hstale, entries_none t fd g, hcur, hfd]
    simp only [some_eq_iff]
    omega

omit [Fintype P] [DecidableEq P] in
theorem Loc.drop_fields : (l.drop f).active = l.active ∧ (l.drop f).fds = l.fds ∧
    (l.drop f).fresh = l.fresh.erase f ∧ (l.drop f).child = l.child := by
  unfold Loc.drop
  split <;> exact ⟨rfl, rfl, rfl, rfl⟩

-- Another reference to the file is left, or what the file stands for is given up by `p`.
theorem Inv.dropFile (h : Inv s locs) (hready : (locs p).Ready)
    (hmine : f ∈ (locs p).held ∨ ∃ fd, (locs p).cur = some fd ∧ (locs p).fds fd = some f) :
    1 ≤ (s.file f).ref ∧
    ((s.file f).ref - 1 > 0 → Inv (s.setFile f { s.file f with ref := (s.file f).ref - 1 })
      (update locs p { (locs p).drop f with closing := none })) ∧
    (¬(s.file f).ref - 1 > 0 → Inv (s.setFile f { s.file f with ref := 0, type := .none })
      (update locs p { (locs p).drop f with closing := (s.file f).obj })) := by
  obtain ⟨htable, hrun⟩ := h.table p hready.active
  obtain ⟨hact, hfds, hfresh, hchild⟩ := @Loc.drop_fields P (locs p) f
  have hdrop := count_drop hready.stale (t := s.ofile p) (by rw [htable]; exact hmine)
  have hself := hdrop f
  rw [if_pos rfl] at hself
  have hcount : ∀ (c : Option Obj), ∀ g ≠ f, count (s.ofile p)
      { (locs p).drop f with closing := c } g = count (s.ofile p) (locs p) g := by
    intro c g hg
    have hg' := hdrop g
    rwa [if_neg hg, add_zero] at hg'
  have hle := h.count_le p f
  have hnew : ∀ q ≠ p, f ∉ (locs q).fresh := by
    intro q hne hq
    have hzero := h.fresh_other hq hne
    omega
  have hgone : ∀ c : Option Obj, f ∉ ({ (locs p).drop f with closing := c } : Loc P).fresh := by
    intro c hf
    rw [hfresh] at hf
    exact Finset.notMem_erase f _ hf
  have hsub : ∀ c : Option Obj, ∀ g ∈ ({ (locs p).drop f with closing := c } : Loc P).fresh, g ≠ f →
      g ∈ (locs p).fresh := by
    intro c g hg _
    rw [hfresh] at hg
    exact Finset.mem_of_mem_erase hg
  refine ⟨by omega, fun hmore => ?_, fun hlast => ?_⟩
  · refine h.updateFile rfl rfl rfl hrun (hact.trans hready.active) (htable.trans hfds.symm) ?_
      (hcount _) (fun hzero => absurd hzero (pos_iff_ne_zero.mp hmore))
      (fun hf => absurd hf (hgone _))
      (hsub _) hnew hchild (h.objs_same rfl hready.closing.symm (obj_update rfl) ⟨rfl, rfl⟩)
    show (s.file f).ref - 1 + _ = (s.file f).ref + count (s.ofile p) ((locs p).drop f) f
    omega
  · refine h.updateFile rfl rfl rfl hrun (hact.trans hready.active) (htable.trans hfds.symm) ?_
      (hcount _) (fun _ => rfl) (fun hf => absurd hf (hgone _)) (hsub _) hnew hchild fun o => ?_
    · show 0 + _ = (s.file f).ref + count (s.ofile p) ((locs p).drop f) f
      omega
    · have hcloses := sum_update_add (mem_univ p) (Loc.closes o) locs
        { (locs p).drop f with closing := (s.file f).obj }
      have hcarries := sum_update_add (mem_univ f) (File.carries o) s.file
        { s.file f with ref := 0, type := .none }
      have hbefore : (locs p).closes o = 0 := by rw [Loc.closes, hready.closing, if_neg nofun]
      have hafter : ({ s.file f with ref := 0, type := .none } : File).carries o = 0 := if_neg nofun
      have hmove : Loc.closes o { (locs p).drop f with closing := (s.file f).obj } =
          (s.file f).carries o := rfl
      have hobjs := h.objs o
      show s.released.count o + _ + ∑ g, (update s.file f _ g).carries o = if s.Made o then 1 else 0
      omega

-- `pipeclose` or `iput`.
theorem Inv.giveUp (h : Inv s locs) {o : Obj} (hclosing : (locs p).closing = some o) :
    Inv { s with released := o :: s.released } (update locs p { locs p with closing := none }) := by
  have hactive : (locs p).active = true := by
    by_contra hout
    have hnone := (h.out p (Bool.not_eq_true _ ▸ hout)).closing
    cases hclosing.symm.trans hnone
  obtain ⟨htable, hrun⟩ := h.table p hactive
  refine h.replace (fun _ _ => rfl) rfl hrun hactive htable (fun _ => rfl) h.free (h.fresh p)
    (fun f hne => absurd rfl hne) rfl fun o' => ?_
  have hcloses := sum_update_add (mem_univ p) (Loc.closes o') locs { locs p with closing := none }
  have hbefore : (locs p).closes o' = if o = o' then 1 else 0 := by
    simp only [Loc.closes, hclosing, Option.some.injEq]
  have hafter : Loc.closes o' { locs p with closing := none } = 0 := if_neg nofun
  have hcount : (o :: s.released).count o' = s.released.count o' + if o = o' then 1 else 0 := by
    rw [List.count_cons]
    simp only [beq_iff_eq]
  have hobjs := h.objs o'
  show (o :: s.released).count o' + _ + ∑ f, (s.file f).carries o' = if s.Made o' then 1 else 0
  omega

omit [Fintype P] [DecidableEq P] in
theorem count_put (hstale : l.stale = none) (hfree : t fd = none) (g : Fin NFILE) :
    count (update t fd (some f)) (l.put fd f) g = count t l g := by
  unfold Loc.put
  by_cases hheld : f ∈ l.held
  · have hentries := @entries_update t none fd g nofun (some f)
    have herase := count_erase_held hheld g
    simp only [hfree, reduceCtorEq, if_false, some_eq_iff] at hentries
    simp only [hheld, if_true, count, hstale]
    omega
  · have hentries := entries_none t fd g
    simp only [hfree, reduceCtorEq, if_false] at hentries
    simp only [hheld, if_false, count, hstale, entries_stale]
    omega

-- One descriptor of `p` changes, and the references count the same.
theorem Inv.setFd (h : Inv s locs) (hactive : (locs p).active = true) {x : Option (Fin NFILE)}
    (hl : l.active = (locs p).active ∧ l.fds = update (locs p).fds fd x ∧
      l.fresh = (locs p).fresh ∧ l.child = (locs p).child ∧ l.closing = (locs p).closing)
    (hcount : ∀ g, count (update (s.ofile p) fd x) l g = count (s.ofile p) (locs p) g) :
    Inv (s.setFd p fd x) (update locs p l) := by
  obtain ⟨htable, hrun⟩ := h.table p hactive
  obtain ⟨hact, hfds, hfresh, hchild, hclosing⟩ := hl
  have hself : (s.setFd p fd x).ofile p = update (s.ofile p) fd x := update_self ..
  refine h.shift (fun q hq => update_of_ne hq ..) hrun (hact.trans hactive) ?_ (fun g => ?_)
    hfresh hchild hclosing
  · exact hself.trans (by rw [hfds, htable])
  · rw [show update s.ofile p _ p = _ from hself]
    exact hcount g

theorem Inv.fdalloc (h : Inv s locs) (hready : (locs p).Ready)
    (hfound : findFd (s.ofile p) = some fd) :
    Inv (s.setFd p fd (some f)) (update locs p ((locs p).put fd f)) := by
  refine h.setFd hready.active ?_ (count_put hready.stale (findFd_some hfound))
  unfold Loc.put
  split <;> exact ⟨rfl, rfl, rfl, rfl, rfl⟩

omit [Fintype P] [DecidableEq P] in
theorem count_clear (hfds : t = l.fds) (hstale : l.stale = none ∨ l.stale = some fd)
    (g : Fin NFILE) : count (update t fd none) (l.clear fd) g = count t l g := by
  unfold Loc.clear
  rw [← hfds]
  rcases hstale with hstale | hstale
  · have hentries := @entries_update t none fd g nofun none
    simp only [hstale, reduceCtorEq, if_false] at hentries ⊢
    cases hfd : t fd with
    | none =>
      simp only [hfd, reduceCtorEq, if_false] at hentries
      simp only [count, hstale]
      omega
    | some f =>
      simp only [hfd, some_eq_iff] at hentries
      simp only [count, hstale, count_cons]
      omega
  · have hentries := entries_none (update t fd none) fd g
    simp only [update_self, reduceCtorEq, if_false, entries_stale] at hentries
    simp only [hstale, if_true, count]
    omega

theorem Inv.clearFd (h : Inv s locs) (hactive : (locs p).active = true)
    (hstale : (locs p).stale = none ∨ (locs p).stale = some fd) :
    Inv (s.setFd p fd none) (update locs p ((locs p).clear fd)) := by
  refine h.setFd hactive ?_ (count_clear (h.table p hactive).1 hstale)
  unfold Loc.clear
  split
  · exact ⟨rfl, rfl, rfl, rfl, rfl⟩
  · split
    · rename_i hnone
      exact ⟨rfl, by rw [← hnone, update_eq_self], rfl, rfl, rfl⟩
    · exact ⟨rfl, rfl, rfl, rfl, rfl⟩

theorem carries_new {o : Obj} (htype : (file f).type = .none)
    (hx : x.obj = some o) (o' : Obj) : ∑ g, (update file f x g).carries o' =
      ∑ g, (file g).carries o' + if o = o' then 1 else 0 := by
  have hsum := sum_update_add (mem_univ f) (File.carries o') file x
  have hbefore : (file f).carries o' = 0 := by
    rw [File.carries, File.obj, htype]
    exact if_neg nofun
  have hafter : x.carries o' = if o = o' then 1 else 0 := by
    simp only [File.carries, hx, Option.some.injEq]
  omega

theorem made_opening (opens : List Nat) (ip n ip' : Nat) : (if opens[n]? = some ip' then 1 else 0) +
        (if Obj.opening opens.length ip = .opening n ip' then 1 else 0) =
      if (opens ++ [ip])[n]? = some ip' then 1 else 0 := by
  have hne (hn : opens.length ≠ n) : Obj.opening opens.length ip ≠ .opening n ip' :=
    fun heq => hn (Obj.opening.inj heq).1
  rcases lt_trichotomy n opens.length with hlt | heq | hgt
  · rw [List.getElem?_append_left hlt, if_neg (hne hlt.ne'), add_zero]
  · rw [heq, List.getElem?_eq_none (le_refl _), List.getElem?_concat_length, if_neg nofun, zero_add]
    simp only [Obj.opening.injEq, true_and, Option.some.injEq]
  · have hlen : (opens ++ [ip]).length ≤ n := by
      rwa [List.length_append]
    rw [List.getElem?_eq_none (le_of_lt hgt), List.getElem?_eq_none hlen, if_neg nofun,
      if_neg (hne hgt.ne)]

-- The new object is in the file, which stood for nothing.
theorem Inv.initInode (h : Inv s locs) (hready : (locs p).Ready) (hf : f ∈ (locs p).fresh)
    (ip : Nat) (device readable writable : Bool) :
    Inv { s.setFile f ((s.file f).opened s.opens.length ip device readable writable) with
        opens := s.opens ++ [ip] }
      (update locs p { locs p with fresh := (locs p).fresh.erase f }) := by
  obtain ⟨htable, hrun⟩ := h.table p hready.active
  obtain ⟨htype, hone, -⟩ := h.fresh p f hf
  refine h.updateFile rfl rfl rfl hrun hready.active htable rfl (fun _ _ => rfl) (fun hzero => ?_)
    (fun hf => absurd hf (Finset.notMem_erase f _)) (fun g hg _ => Finset.mem_of_mem_erase hg)
    (fun q hq => h.fresh_disjoint hf hq.symm) rfl fun o => ?_
  · cases hone.symm.trans hzero
  · have hobj : ((s.file f).opened s.opens.length ip device readable writable).obj =
        some (.opening s.opens.length ip) := by cases device <;> rfl
    have hcarries := carries_new htype hobj o
    have hcloses := @closes_same P _ _ locs p { locs p with fresh := (locs p).fresh.erase f } rfl o
    have hobjs := h.objs o
    show s.released.count o + _ + ∑ g, (update s.file f _ g).carries o = _
    rw [hcarries, hcloses, ← add_assoc, hobjs]
    cases o with
    | pipeEnd k w => exact add_zero _
    | opening n ip' =>
      exact made_opening s.opens ip n ip'

theorem made_pipeEnd (pipes k : Nat) (w : Bool) :
    (if k < pipes then 1 else 0) + (if Obj.pipeEnd pipes false = .pipeEnd k w then 1 else 0) +
        (if Obj.pipeEnd pipes true = .pipeEnd k w then 1 else 0) =
      if k < pipes + 1 then 1 else 0 := by
  simp only [Obj.pipeEnd.injEq]
  cases w with
  | false | true =>
    simp only [and_true, reduceCtorEq, and_false, if_false]
    split <;> split <;> split <;> omega

section

variable (h : Inv s locs) {np : P}
include h

theorem Inv.initPipe (hready : (locs p).Ready) {f₀ f₁ : Fin NFILE}
    (h₀ : f₀ ∈ (locs p).fresh) (h₁ : f₁ ∈ (locs p).fresh) (hne : f₀ ≠ f₁) : Inv { s with
        file := update (update s.file f₀ ((s.file f₀).piped s.pipes false)) f₁
          ((s.file f₁).piped s.pipes true)
        pipes := s.pipes + 1 }
      (update locs p { locs p with fresh := ((locs p).fresh.erase f₀).erase f₁ }) := by
  obtain ⟨htable, hrun⟩ := h.table p hready.active
  obtain ⟨htype0, hone0, -⟩ := h.fresh p f₀ h₀
  obtain ⟨htype1, hone1, -⟩ := h.fresh p f₁ h₁
  set file' := update (update s.file f₀ ((s.file f₀).piped s.pipes false)) f₁
    ((s.file f₁).piped s.pipes true)
  have hother : ∀ {g}, g ≠ f₀ → g ≠ f₁ → file' g = s.file g := fun hg0 hg1 =>
    (update_of_ne hg1 ..).trans (update_of_ne hg0 ..)
  have hself1 : file' f₁ = (s.file f₁).piped s.pipes true := update_self ..
  have hself0 : file' f₀ = (s.file f₀).piped s.pipes false :=
    (update_of_ne hne ..).trans (update_self ..)
  have href : ∀ g, (file' g).ref = (s.file g).ref := by
    intro g
    by_cases hg0 : g = f₀
    · rw [hg0, hself0]
      rfl
    · by_cases hg1 : g = f₁
      · rw [hg1, hself1]
        rfl
      · rw [hother hg0 hg1]
  refine h.replace (fun _ _ => rfl) rfl hrun hready.active htable
    (fun g => congrArg (· + _) (href g)) (fun g hg => ?_) (fun g hg => ?_)
    (fun g hg q hq hmem => hg ?_) rfl fun o => ?_
  · have hzero : (s.file g).ref = 0 := (href g).symm.trans hg
    have hg0 : g ≠ f₀ := by
      rintro rfl
      omega
    have hg1 : g ≠ f₁ := by
      rintro rfl
      omega
    show (file' g).type = .none
    rw [hother hg0 hg1]
    exact h.free g hzero
  · obtain ⟨hg1, hg⟩ := mem_erase.mp hg
    obtain ⟨hg0, hg⟩ := mem_erase.mp hg
    show (file' g).type = .none ∧ (file' g).ref = 1 ∧ _
    rw [hother hg0 hg1]
    exact h.fresh p g hg
  · have hg0 : g ≠ f₀ := fun heq => h.fresh_disjoint h₀ hq.symm (heq ▸ hmem)
    have hg1 : g ≠ f₁ := fun heq => h.fresh_disjoint h₁ hq.symm (heq ▸ hmem)
    exact hother hg0 hg1
  · have htype' : (update s.file f₀ ((s.file f₀).piped s.pipes false) f₁).type = .none := by
      rwa [update_of_ne hne.symm]
    have hread := carries_new htype0 (x := (s.file f₀).piped s.pipes false) rfl o
    have hwrite := carries_new htype' (x := (s.file f₁).piped s.pipes true) rfl o
    have hcloses := @closes_same P _ _ locs p
      { locs p with fresh := ((locs p).fresh.erase f₀).erase f₁ } rfl o
    have hobjs := h.objs o
    rw [hwrite, hread, hcloses, ← add_assoc, ← add_assoc, hobjs]
    cases o with
    | pipeEnd k w => exact made_pipeEnd s.pipes k w
    | opening n ip => exact add_zero _

-- The life of one slot changes, and what `p` has besides its references.
theorem Inv.setLife {x : Life}
    (hown : l.active = true → s.ofile p = l.fds ∧ update s.life np x p = .running)
    (hidle : l.active = false → l.Idle)
    (hcount : ∀ f, count (s.ofile p) l f = count (s.ofile p) (locs p) f)
    (hfresh : l.fresh = (locs p).fresh) (hclosing : l.closing = (locs p).closing)
    (hdead : np = p ∨ s.life np ≠ .running) (hother : ∀ q ≠ p, ∀ t, (locs q).child ≠ some (np, t))
    (hchild : (s.setLife np x).Makes locs p l.child)
    (hempty : x = .unused ∨ x = .zombie → ∀ fd, s.ofile np fd = none) :
    Inv (s.setLife np x) (update locs p l) := by
  have hlife : ∀ {q}, q ≠ np → (s.setLife np x).life q = s.life q := fun hq => update_of_ne hq ..
  refine h.step (h.sum_count (fun _ _ => rfl) fun f => congrArg _ (hcount f).symm) h.free hown hidle
    (fun f hf => ?_) hchild (fun q hqp hq => ⟨rfl, hlife ?_⟩) (fun f hne => absurd rfl hne)
    (fun q hqp np' t hq => ⟨rfl, hlife ?_⟩) (fun q hq fd => ?_)
    (h.objs_same rfl hclosing (fun _ => rfl) ⟨rfl, rfl⟩)
  · rw [hfresh] at hf
    obtain ⟨htype, hone, hpos⟩ := h.fresh p f hf
    exact ⟨htype, hone, hpos.trans (hcount f).ge⟩
  · rintro rfl
    exact hdead.elim hqp fun hnot => hnot (h.table q hq).2
  · rintro rfl
    exact hother q hqp t hq
  · by_cases hnp : q = np
    · subst hnp
      have hself : (s.setLife q x).life q = x := update_self ..
      exact hempty (hself ▸ hq) fd
    · rw [hlife hnp] at hq
      exact h.empty q hq fd

-- A slot in which no process runs changes hands.
theorem Inv.setChild (hready : (locs p).Ready) {np : P} {x : Life} {c : Option (P × Fds)}
    (hdead : s.life np ≠ .running) (hother : ∀ q ≠ p, ∀ t, (locs q).child ≠ some (np, t))
    (hchild : (s.setLife np x).Makes locs p c)
    (hempty : x = .unused ∨ x = .zombie → ∀ fd, s.ofile np fd = none) :
    Inv (s.setLife np x) (update locs p { locs p with child := c }) := by
  obtain ⟨htable, hrun⟩ := h.table p hready.active
  have hne : p ≠ np := by
    rintro rfl
    exact hdead hrun
  refine h.setLife (fun _ => ⟨htable, (update_of_ne hne ..).trans hrun⟩) (fun hout => ?_)
    (fun _ => rfl) rfl rfl (.inr hdead) hother hchild hempty
  cases hready.active.symm.trans hout

theorem Inv.allocproc (hready : (locs p).Ready) (hunused : s.life np = .unused) :
    Inv (s.setLife np .used) (update locs p { locs p with child := some (np, fun _ => none) }) := by
  have hnot : ∀ q ≠ p, ∀ t, (locs q).child ≠ some (np, t) := by
    intro q _ t hq
    cases hunused.symm.trans (h.child q np t hq).1
  refine h.setChild hready ?_ hnot ?_ nofun
  · rw [hunused]
    nofun
  · rintro np' t ⟨⟩
    exact ⟨update_self .., funext (h.empty np (.inl hunused)), hnot⟩

-- The child goes back to being free, or begins to run.
theorem Inv.child_done (hready : (locs p).Ready) {x : Life}
    (hchild : (locs p).child = some (np, t)) (hx : x = .unused ∨ x = .zombie → ∀ fd, t fd = none) :
    Inv (s.setLife np x) (update locs p { locs p with child := none }) := by
  obtain ⟨hused, ht, hothers⟩ := h.child p np t hchild
  refine h.setChild hready ?_ hothers nofun ?_
  · rw [hused]
    nofun
  · rwa [ht]

theorem Inv.reap (hready : (locs p).Ready) {q : P} (hzombie : s.life q = .zombie) :
    Inv (s.setLife q .unused) (update locs p (locs p)) := by
  have hnot : ∀ p t, (locs p).child ≠ some (q, t) := by
    intro p t hp
    cases hzombie.symm.trans (h.child p q t hp).1
  refine h.setChild hready ?_ (fun p _ => hnot p) ?_ fun _ => h.empty q (.inr hzombie)
  · rw [hzombie]
    nofun
  · intro np t hp
    have hne : np ≠ q := by
      rintro rfl
      exact hnot p t hp
    obtain ⟨hused, hmade⟩ := h.child p np t hp
    exact ⟨(update_of_ne hne ..).trans hused, hmade⟩

theorem Inv.zombie (hready : (locs p).Ready) (hidle : (locs p).Idle)
    (hclear : ∀ fd, (locs p).fds fd = none) : Inv (s.setLife p .zombie) (update locs p .out) := by
  obtain ⟨htable, hrun⟩ := h.table p hready.active
  refine h.setLife nofun (fun _ => ⟨rfl, rfl, rfl, rfl, rfl⟩)
    (fun f => ?_) hidle.fresh.symm hidle.closing.symm (.inl rfl) ?_ nofun ?_
  · rw [count, count, hidle.stale, hidle.held]
    rfl
  · intro q _ t hq
    cases hrun.symm.trans (h.child q p t hq).1
  · rw [htable]
    exact fun _ => hclear

-- The reference goes from `p` to the child, which has no call in progress.
theorem Inv.giveFd (hready : (locs p).Ready)
    (hheld : f ∈ (locs p).held) (hfilled : f ∉ (locs p).fresh)
    (hchild : (locs p).child = some (np, t)) (hfree : t fd = none) :
    Inv (s.setFd np fd (some f)) (update locs p
      { locs p with
        held := (locs p).held.erase f
        child := some (np, update t fd (some f)) }) := by
  obtain ⟨htable, hrun⟩ := h.table p hready.active
  obtain ⟨hused, ht, hothers'⟩ := h.child p np t hchild
  have hne : p ≠ np := by
    rintro rfl
    cases hrun.symm.trans hused
  have hout : (locs np).active = false := by
    by_contra hact
    cases hused.symm.trans (h.table np (Bool.not_eq_false _ ▸ hact)).2
  have hidle := h.out np hout
  have hself : (s.setFd np fd (some f)).ofile np = update t fd (some f) := by
    rw [← ht]
    exact update_self ..
  have hothers : ∀ {q}, q ≠ np → (s.setFd np fd (some f)).ofile q = s.ofile q := fun hq =>
    update_of_ne hq ..
  set l : Loc P := { locs p with
    held := (locs p).held.erase f
    child := some (np, update t fd (some f)) }
  have hmine : ∀ g, count (s.ofile p) l g + (if g = f then 1 else 0) = count (s.ofile p)
      (locs p) g := by
    intro g
    rw [count, count, add_assoc]
    exact congrArg _ (count_erase_held hheld g)
  have hyours : ∀ g, count (update t fd (some f)) (locs np) g =
      count t (locs np) g + if g = f then 1 else 0 := by
    intro g
    have hentries := @entries_update t none fd g nofun (some f)
    simp only [hfree, reduceCtorEq, if_false, some_eq_iff] at hentries
    rw [count, count, hidle.stale]
    omega
  refine h.step (fun g => ?_) h.free (fun _ => ⟨(hothers hne).trans htable, hrun⟩)
    (fun hno => nomatch hready.active.symm.trans hno) (fun g hg => ?_) (fun np' t' ht' => ?_)
    (fun q hqp hq => ⟨hothers ?_, rfl⟩) (fun f hne => absurd rfl hne)
    (fun q hqp np' t' hq => ⟨hothers ?_, rfl⟩) (fun q hq fd' => ?_)
    (h.objs_same rfl rfl (fun _ => rfl) ⟨rfl, rfl⟩)
  · have hbefore := h.ref g
    have hmem : p ∈ Finset.univ.erase np := mem_erase.mpr ⟨hne, mem_univ p⟩
    rw [← add_sum_erase _ _ (mem_univ np), ← add_sum_erase _ _ hmem] at hbefore ⊢
    have hrest : ∀ q ∈ (Finset.univ.erase np).erase p,
        count ((s.setFd np fd (some f)).ofile q) (update locs p l q) g =
          count (s.ofile q) (locs q) g := by
      intro q hq
      obtain ⟨hqp, hq⟩ := mem_erase.mp hq
      rw [hothers (ne_of_mem_erase hq), update_of_ne hqp]
    rw [sum_congr rfl hrest, hself, hothers hne, update_self, update_of_ne hne.symm,
      hyours g]
    rw [ht] at hbefore
    have hp := hmine g
    show (s.file g).ref = _
    omega
  · obtain ⟨htype, hone, hpos⟩ := h.fresh p g hg
    have hgf : g ≠ f := by
      rintro rfl
      exact hfilled hg
    have hg' := hmine g
    rw [if_neg hgf] at hg'
    rw [hothers hne]
    exact ⟨htype, hone, by omega⟩
  · cases ht'
    exact ⟨hused, hself, hothers'⟩
  · rintro rfl
    cases hout.symm.trans hq
  · rintro rfl
    exact hothers' q hqp t' hq
  · have hqnp : q ≠ np := by
      rintro rfl
      rcases hq with hq | hq <;> cases hused.symm.trans hq
    rw [hothers hqnp]
    exact h.empty q hq fd'

end

end Actions

end OsProjects.Kernel.Files
