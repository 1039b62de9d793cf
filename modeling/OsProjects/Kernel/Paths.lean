import OsProjects.Kernel.OpenLinks
import Mathlib.Data.List.DropRight

/-!
# Paths — `namei` and `nameiparent` as folds over the components of a path

What `resolve` and `found` say, again as a fold, where a lookup may find nothing or stop the kernel.
-/

namespace OsProjects.Kernel.Vfs

open Lib List

/-- The runs of bytes other than slashes, each cut to `DIRSIZ` bytes. -/
def components (path : List UInt8) : List (List UInt8) :=
  ((path.splitOnP (· == slash)).filter (· ≠ [])).map (List.take DIRSIZ)

theorem components_slash (path : List UInt8) : components (slash :: path) = components path := by
  simp [components, splitOnP_cons_eq_if_modifyHead]

theorem components_run {w r : List UInt8} (hw : w ≠ []) (hrun : ∀ c ∈ w, (c == slash) = false)
    (hr : ∀ c ∈ r.head?, c = slash) : components (w ++ r) = w.take DIRSIZ :: components r := by
  cases r with
  | nil => simp [components, splitOnP_eq_singleton hrun, hw]
  | cons c r =>
    rw [hr c rfl, components_slash, components,
      splitOnP_append_cons_of_forall_mem hrun slash rfl, filter_cons_of_pos (by simp [hw])]
    rfl

theorem elements_dropWhile (path : List UInt8) :
    elements (path.dropWhile (· == slash)) = elements path := by
  rw [elements_eq, elements_eq path]
  simp only [skipelem, dropWhile_idempotent]

theorem elements_eq_components (path : List UInt8) : elements path = components path := by
  induction hn : path.length using Nat.strong_induction_on generalizing path with
  | _ n ih =>
    subst hn
    cases path with
    | nil => rfl
    | cons c cs =>
      by_cases hc : c = slash
      · subst hc
        rw [components_slash, ← ih cs.length (by simp) cs rfl, ← elements_dropWhile,
          dropWhile_cons_of_pos (by simp), elements_dropWhile]
      · have hskip : elements (c :: cs) = ((c :: cs).takeWhile (· != slash)).take DIRSIZ ::
            elements ((c :: cs).dropWhile (· != slash)) := by
          rw [elements_eq, skipelem, dropWhile_cons_of_neg (by simpa using hc)]
          exact congrArg _ (elements_dropWhile _)
        have hlen : ((c :: cs).dropWhile (· != slash)).length < (c :: cs).length := by
          rw [dropWhile_cons_of_pos (by simpa using hc)]
          exact Nat.lt_succ_of_le (dropWhile_suffix _).length_le
        rw [hskip, ih _ hlen _ rfl, ← components_run, takeWhile_append_dropWhile]
        · simp [hc]
        · intro c' hmem
          simpa using mem_takeWhile_imp hmem
        · intro c' hmem
          have hhead := List.head?_dropWhile_not (fun c : UInt8 => c != slash) (c :: cs)
          rw [Option.mem_def.mp hmem] at hhead
          simpa using hhead

/-! ## The fold -/

variable {P : Type} {s : Sys P} {p : P} {path name : List UInt8} {dp i : Nat}
  {names : List (List UInt8)}

/-- Inode `i` is a directory; the error is where the kernel stops. -/
def Sys.directory (s : Sys P) (i : Nat) : OptionT (Except Stop) Unit :=
  OptionT.mk (match s.unreadable i with
    | some stop => .error stop
    | none => if (s.ino i).type ≠ .dir then .ok none else .ok (some ()))

/-- What looking `name` up in `dp` comes to, while `dp` is held. -/
def Sys.lookupIn (s : Sys P) (dp : Nat) (name : List UInt8) : Except Stop (Option Nat) :=
  match lookupEntry (s.ino dp).data name with
  | .error msg => .error (.panic msg)
  | .ok none => .ok none
  | .ok (some (_, next)) =>
    if s.NoEntry {dp} next then .error (.panic "iget: no inodes") else .ok (some next)

/-- `dirlookup` of a component. -/
def Sys.enter (s : Sys P) (i : Nat) (name : List UInt8) : OptionT (Except Stop) Nat := do
  s.directory i
  OptionT.mk (s.lookupIn i name)

/-- Where a path begins. -/
def Sys.start (s : Sys P) (p : P) (path : List UInt8) : OptionT (Except Stop) Nat :=
  OptionT.mk (if path.head? = some slash then
      if s.NoEntry 0 ROOTINO then .error (.panic "iget: no inodes") else .ok (some ROOTINO)
    else .ok (some (s.proc p).cwd))

/-- The left fold of `dirlookup` over `names`. -/
def Sys.fold (s : Sys P) (p : P) (path : List UInt8) (names : List (List UInt8)) :
    OptionT (Except Stop) Nat := do
  names.foldlM s.enter (← s.start p path)

/-- The same where it ends in a directory, in which `last` can be looked up. -/
def Sys.parent (s : Sys P) (p : P) (path : List UInt8) (names : List (List UInt8))
    (last : List UInt8) : OptionT (Except Stop) (Nat × List UInt8) := do
  let i ← s.fold p path names
  s.directory i
  pure (i, last)

-- One step of `walkFrom` is one of the fold, unless it is to stop at the parent.
theorem Sys.walkFrom_cons {parent : Bool} {rest : List (List UInt8)}
    (hrest : ¬(parent = true ∧ rest = [])) (name : List UInt8) (i : Nat) :
    OptionT.mk (s.walkFrom parent (name :: rest) i) =
      s.enter i name >>= fun next => OptionT.mk (s.walkFrom parent rest next) := by
  rw [walkFrom, enter, directory]
  cases s.unreadable i with
  | some stop => rfl
  | none =>
    dsimp only
    split
    · rfl
    · unfold lookupIn
      rcases lookupEntry (s.ino i).data name with msg | _ | ⟨_, next⟩
      · rfl
      · rfl
      · dsimp only
        split <;> rfl

theorem Sys.walkFrom_fold (names : List (List UInt8)) (i : Nat) :
    Prod.fst <$> OptionT.mk (s.walkFrom false names i) = names.foldlM s.enter i := by
  induction names generalizing i with
  | nil => rfl
  | cons name rest ih =>
    rw [walkFrom_cons (by simp), foldlM_cons, map_bind]
    exact congrArg (s.enter i name >>= ·) (funext ih)

theorem Sys.walkFrom_parent (names : List (List UInt8)) (last : List UInt8) (i : Nat) :
    OptionT.mk (s.walkFrom true (names ++ [last]) i) = (do
      let i ← names.foldlM s.enter i
      s.directory i
      pure (i, last)) := by
  induction names generalizing i with
  | nil =>
    show OptionT.mk (s.walkFrom true [last] i) = s.directory i >>= _
    rw [walkFrom, directory]
    cases s.unreadable i with
    | some stop => rfl
    | none =>
      dsimp only
      split
      · rfl
      · rfl
  | cons name rest ih =>
    rw [cons_append, walkFrom_cons (by simp), foldlM_cons, bind_assoc]
    exact congrArg (s.enter i name >>= ·) (funext ih)

theorem Sys.found_eq (path : List UInt8) (parent : Bool) : OptionT.mk (s.found p path parent) =
    s.start p path >>= fun i => OptionT.mk (s.walkFrom parent (components path) i) := by
  rw [found, start, elements_eq_components]
  split
  · split <;> rfl
  · rfl

theorem Sys.resolve_eq_fold : OptionT.mk (s.resolve p path) = s.fold p path (components path) := by
  have hmap : OptionT.mk (s.resolve p path) = Prod.fst <$> OptionT.mk (s.found p path false) := by
    rw [s.resolve_eq]
    match s.found p path false with
    | .error stop | .ok none | .ok (some y) => rfl
  rw [hmap, s.found_eq, map_bind]
  exact congrArg (s.start p path >>= ·) (funext fun i => s.walkFrom_fold _ i)

theorem Sys.found_eq_parent (h : components path = names ++ [name]) :
    OptionT.mk (s.found p path true) = s.parent p path names name := by
  rw [s.found_eq, h, parent, fold, bind_assoc]
  exact congrArg (s.start p path >>= ·) (funext fun i => s.walkFrom_parent _ _ i)

-- The last component is looked up in what `nameiparent` gives.
theorem Sys.fold_eq_parent {names : List (List UInt8)} {last : List UInt8}
    (h : components path = names ++ [last]) : OptionT.mk (s.resolve p path) =
      s.parent p path names last >>= fun y => OptionT.mk (s.lookupIn y.1 y.2) := by
  rw [resolve_eq_fold, h, parent, fold, fold]
  simp only [foldlM_append, bind_assoc, pure_bind, foldlM_cons, foldlM_nil, bind_pure]
  rfl

/-! ## What may come of it -/

section Bind

variable {α β ε : Type} {x : OptionT (Except ε) α} {f : α → OptionT (Except ε) β}

theorem bind_none : x >>= f = OptionT.mk (.ok none) ↔
    x = OptionT.mk (.ok none) ∨ ∃ a, x = pure a ∧ f a = OptionT.mk (.ok none) := by
  match x with
  | .error e => exact ⟨nofun, by rintro (h | ⟨a, h, -⟩) <;> cases h⟩
  | .ok none => exact ⟨fun _ => .inl rfl, fun _ => rfl⟩
  | .ok (some a) =>
    refine ⟨fun h => .inr ⟨a, rfl, h⟩, ?_⟩
    rintro (h | ⟨b, h, hb⟩)
    · cases h
    · cases h
      exact hb

theorem bind_some {b : β} : x >>= f = pure b ↔ ∃ a, x = pure a ∧ f a = pure b := by
  match x with
  | .error e | .ok none => exact ⟨nofun, by rintro ⟨a, h, -⟩; cases h⟩
  | .ok (some a) =>
    refine ⟨fun h => ⟨a, rfl, h⟩, ?_⟩
    rintro ⟨b, h, hb⟩
    cases h
    exact hb

end Bind

theorem Sys.directory_eq_ok {o : Option Unit} : s.directory i = OptionT.mk (.ok o) ↔
    s.unreadable i = none ∧ o = if (s.ino i).type ≠ .dir then none else some () := by
  unfold directory
  cases s.unreadable i with
  | some stop => exact ⟨nofun, fun h => nomatch h.1⟩
  | none =>
    dsimp only
    split
    · exact ⟨fun h => ⟨rfl, by cases h; rfl⟩, fun h => by rw [h.2]⟩
    · exact ⟨fun h => ⟨rfl, by cases h; rfl⟩, fun h => by rw [h.2]⟩

theorem Sys.lookupIn_none :
    s.lookupIn dp name = .ok none ↔ lookupEntry (s.ino dp).data name = .ok none := by
  unfold lookupIn
  split
  · simp [*]
  · simp [*]
  · split <;> simp [*]

section

variable (h : s.found p path true = .ok (some (dp, name)))
include h

-- `nameiparent` gives a directory that can be read.
theorem Sys.found_parent :
    (∃ names, components path = names ++ [name] ∧ s.parent p path names name = pure (dp, name)) ∧
      s.unreadable dp = none ∧ (s.ino dp).type = .dir := by
  rcases eq_nil_or_concat' (components path) with hnil | ⟨names, last, hlast⟩
  · have hfound : OptionT.mk (s.found p path true) = pure (dp, name) := h
    rw [s.found_eq, hnil, bind_some] at hfound
    obtain ⟨i, -, hi⟩ := hfound
    cases hi
  · have hparent : s.parent p path names last = pure (dp, name) :=
      (found_eq_parent hlast).symm.trans h
    obtain ⟨i, hi, hrest⟩ := bind_some.mp hparent
    obtain ⟨u, hdir, hlast'⟩ := bind_some.mp hrest
    cases hlast'
    obtain ⟨hread, hdir⟩ := directory_eq_ok.mp hdir
    exact ⟨⟨names, hlast, hparent⟩, hread, by simpa using hdir⟩

theorem Sys.resolve_of_found : s.resolve p path = s.lookupIn dp name := by
  obtain ⟨⟨names, hlast, hparent⟩, -⟩ := found_parent h
  have hresolve := @fold_eq_parent P s p path names name hlast
  rwa [hparent] at hresolve

-- `/` and the like have no parent.
theorem Sys.elements_of_found : elements path ≠ [] := by
  obtain ⟨⟨names, hlast, -⟩, -⟩ := found_parent h
  rw [elements_eq_components, hlast]
  simp

end

-- Where there is no parent, the path names nothing.
theorem Sys.resolve_of_not_found (hne : elements path ≠ []) (h : s.found p path true = .ok none) :
    s.resolve p path = .ok none := by
  rw [elements_eq_components] at hne
  obtain ⟨names, last, hlast⟩ := (eq_nil_or_concat' (components path)).resolve_left hne
  have hresolve := @fold_eq_parent P s p path names last hlast
  rwa [← found_eq_parent hlast, h] at hresolve

/-! ## Where the fold fails -/

theorem Sys.enter_none : s.enter i name = OptionT.mk (.ok none) ↔
    s.unreadable i = none ∧
    ((s.ino i).type ≠ .dir ∨ lookupEntry (s.ino i).data name = .ok none) := by
  have hlook : OptionT.mk (s.lookupIn i name) = OptionT.mk (.ok none) ↔
      lookupEntry (s.ino i).data name = .ok none := lookupIn_none
  rw [enter, bind_none, directory_eq_ok]
  by_cases hdir : (s.ino i).type = .dir
  · simp only [hdir, ne_eq, not_true_eq_false, if_false, reduceCtorEq, and_false, false_or, hlook]
    exact ⟨fun ⟨_, hread, hno⟩ => ⟨(directory_eq_ok.mp hread).1, hno⟩,
      fun ⟨hread, hno⟩ => ⟨(), directory_eq_ok.mpr ⟨hread, by simp [hdir]⟩, hno⟩⟩
  · simp only [ne_eq, hdir, not_false_eq_true, if_true, and_true, true_or]
    refine ⟨?_, .inl⟩
    rintro (hread | ⟨_, hread, -⟩)
    · exact hread
    · exact (directory_eq_ok.mp hread).1

theorem Sys.foldlM_none (names : List (List UInt8)) (i : Nat) :
    names.foldlM s.enter i = OptionT.mk (.ok none) ↔
    ∃ before name after j, names = before ++ name :: after ∧
      before.foldlM s.enter i = pure j ∧ s.enter j name = OptionT.mk (.ok none) := by
  induction names generalizing i with
  | nil => exact ⟨nofun, fun ⟨_, _, _, _, h, _⟩ => by simp at h⟩
  | cons name rest ih =>
    rw [foldlM_cons, bind_none]
    constructor
    · rintro (h | ⟨next, hnext, hrest⟩)
      · exact ⟨[], name, rest, i, rfl, rfl, h⟩
      · obtain ⟨before, name', after, j, rfl, hbefore, hj⟩ := (ih next).mp hrest
        exact ⟨name :: before, name', after, j, rfl, bind_some.mpr ⟨next, hnext, hbefore⟩, hj⟩
    · rintro ⟨before, name', after, j, hnames, hbefore, hj⟩
      cases before with
      | nil =>
        cases hnames
        cases hbefore
        exact .inl hj
      | cons name0 before =>
        cases hnames
        obtain ⟨next, hnext, hrest⟩ := bind_some.mp hbefore
        exact .inr ⟨next, hnext, (ih next).mpr ⟨before, name', after, j, rfl, hrest, hj⟩⟩

theorem Sys.start_ne_none : s.start p path ≠ OptionT.mk (.ok none) := by
  unfold start
  split
  · split <;> exact nofun
  · exact nofun

theorem Sys.fold_none :
    s.fold p path names = OptionT.mk (.ok none) ↔
    ∃ before name after j, names = before ++ name :: after ∧
      s.fold p path before = pure j ∧ s.unreadable j = none ∧
        ((s.ino j).type ≠ .dir ∨ lookupEntry (s.ino j).data name = .ok none) := by
  simp only [fold, bind_none, start_ne_none, false_or, foldlM_none, enter_none, bind_some]
  constructor
  · rintro ⟨i, hi, before, name, after, j, hnames, hbefore, hj⟩
    exact ⟨before, name, after, j, hnames, ⟨i, hi, hbefore⟩, hj⟩
  · rintro ⟨before, name, after, j, hnames, ⟨i, hi, hbefore⟩, hj⟩
    exact ⟨i, hi, before, name, after, j, hnames, hbefore, hj⟩

variable [DecidableEq P]

/-- `namei` is the fold, and `nameiparent` gives the directory that it looks the last component up
in. -/
theorem path_resolution (hq : Quiet s p) (path : List UInt8) :
    Ends s p id (fun _ => none) (s.fold p path (components path)).run
      ((namei path).run (exec p) s) ∧
    (s.fold p path (components path) = OptionT.mk (.ok none) ↔ ∃ before name after j,
      components path = before ++ name :: after ∧ s.fold p path before = pure j ∧
      s.unreadable j = none ∧
        ((s.ino j).type ≠ .dir ∨ lookupEntry (s.ino j).data name = .ok none)) ∧
    (components path = [] → Finds s p Prod.fst (do
      let _ ← s.start p path
      failure : OptionT (Except Stop) (Nat × List UInt8)).run ((nameiparent path).run (exec p) s)) ∧
    ∀ names last, components path = names ++ [last] →
      Finds s p Prod.fst (s.parent p path names last).run ((nameiparent path).run (exec p) s) ∧
      s.fold p path (components path) =
        s.parent p path names last >>= fun y => OptionT.mk (s.lookupIn y.1 y.2) := by
  have hfound := namex_finds hq hq.held path true
  refine ⟨?_, Sys.fold_none, fun hnil => ?_, fun names last hlast => ⟨?_, ?_⟩⟩
  · rw [← s.resolve_eq_fold]
    exact namei_ends hq hq.held path
  · have hrun := @Sys.found_eq P s p path true
    rw [hnil] at hrun
    exact hrun ▸ hfound
  · rwa [← Sys.found_eq_parent hlast]
  · rw [← s.resolve_eq_fold]
    exact Sys.fold_eq_parent hlast

-- `/f`, with a slash too many.
theorem path_resolution_file : Quiet linkedDisk () ∧ ∃ t,
    (namei [47, 102, 47]).run (exec ()) linkedDisk = .ok (some 2, t) ∧
    Held linkedDisk () {2} none t := by
  obtain ⟨i, t, rfl, hrun, hheld⟩ := (path_resolution linkedDisk_quiet [47, 102, 47]).1
  exact ⟨linkedDisk_quiet, t, hrun, hheld⟩

/-- `f` is found, but it is no parent of `f/x`; and without an entry in the inode table there is a
panic. -/
theorem nameiparent_of_file :
    components [102, 47, 120] = [[102]] ++ [[120]] ∧
    (linkedDisk.fold () [102, 47, 120] [[102]]).run = .ok (some 2) ∧
    ((nameiparent [102, 47, 120]).run (exec ()) linkedDisk).map Prod.fst = .ok none ∧
    (namei [102]).run (exec 3) fullTable = .error (.panic "iget: no inodes") :=
  ⟨by decide, by decide, rfl, rfl⟩

end OsProjects.Kernel.Vfs
