import OsProjects.Kernel.PageTable

/-!
# VmRules — the memory that a process has

What a process knows between two of its actions, whatever the others do: the pages that are its own
and what is in them, its own `struct proc`, and the slot that it has taken.  The functions of `vm.c`
keep to this.
-/

namespace OsProjects.Kernel.Vm

open Lib Function Nat

/-! ## Address spaces -/

/-- Pages of user memory. -/
def npages (sz : Nat) : Nat := (sz + PGSIZE - 1) / PGSIZE

/-- The entries of a process's page table that are not for its user memory. -/
def fullTop (k : Image) (trapframe : Nat) : Nat → Nat :=
  update (update (fun _ => 0) (TRAMPOLINE / PGSIZE)
    (PA2PTE k.trampoline ||| (PTE_R ||| PTE_X) ||| PTE_V))
    (TRAPFRAME / PGSIZE) (PA2PTE trapframe ||| (PTE_R ||| PTE_W) ||| PTE_V)

/-- A process's page table maps `n` pages of user memory. -/
abbrev UserTable (k : Image) (F heap : Heap Nat Idx Nat) (place : List Idx → Option Nat)
    (flags : Nat → Leaf) (trapframe root n : Nat) : Prop :=
  Table k F heap place flags (fullTop k trapframe) root fun v => v < n

/-- Besides `F` there are the trapframe, the page table and the memory of a process. -/
def Space (k : Image) (F heap : Heap Nat Idx Nat) (x : Proc) : Prop :=
  F x.trapframe = none ∧ k.Valid x.trapframe ∧ ∃ t place flags,
    Table k (update F x.trapframe (some t)) heap place flags (fullTop k x.trapframe) x.pagetable
      fun v => v < npages x.sz

/-! ## The rules -/

/-- `self` is the `struct proc` of the process, but while `userinit` runs there is none; `slot` is
one that `allocproc` or `wait` has taken. -/
structure Loc (P : Type) where
  active : Bool
  heap : Heap Nat Idx Nat
  self : Option Proc
  slot : Option (P × Proc)

namespace Loc

variable {P : Type}

def out : Loc P := ⟨false, fun _ => none, none, none⟩

/-- Between two calls. -/
structure Idle (k : Image) (l : Loc P) : Prop where
  slot : l.slot = none
  space : l.active = true → ∃ x, l.self = some x ∧ Space k (fun _ => none) l.heap x

/-- Only the memory differs. -/
structure Same (l l' : Loc P) : Prop where
  active : l'.active = l.active
  self : l'.self = l.self
  slot : l'.slot = l.slot

theorem Same.refl (l : Loc P) : l.Same l := ⟨rfl, rfl, rfl⟩

theorem Same.trans {l l' l'' : Loc P} (h : l.Same l') (h' : l'.Same l'') : l.Same l'' :=
  ⟨h'.active.trans h.active, h'.self.trans h.self, h'.slot.trans h.slot⟩

def setHeap (l : Loc P) (heap : Heap Nat Idx Nat) : Loc P := { l with heap := heap }

theorem Same.of_setHeap {l l' : Loc P} {heap : Heap Nat Idx Nat} (h : (l.setHeap heap).Same l') :
    l.Same l' :=
  ⟨h.active, h.self, h.slot⟩

theorem Same.setHeap_eq {l l' : Loc P} (h : l.Same l') (heap : Heap Nat Idx Nat) :
    l'.setHeap heap = l.setHeap heap := by
  rw [setHeap, setHeap, h.active, h.self, h.slot]

end Loc

section Rules

variable {P : Type} (k : Image) (init : P)

def pre : Act P → Loc P → Prop
  | .boot, l | .enter, l => l.Idle k
  | .panic _, _ => False
  | .halt, _ => True
  | .kalloc, l => l.active = true
  | .kfree a, l | .load a _, l | .store a _ _, l | .zero a, l => l.heap a ≠ none
  | .copy dst src, l => l.heap dst ≠ none ∧ l.heap src ≠ none
  | .proc none, l | .setProc none _, l => l.self ≠ none
  | .proc (some np), l | .setProc (some np) _, l => ∃ x, l.slot = some (np, x)
  | .found _, l => l.active = true ∧ l.slot = none
  | .freed np, l => l.slot = some (np, .zero)
  | .start np, l => ∃ x F, l.slot = some (np, x) ∧ Space k F l.heap x ∧
      match l.self with
      | none => np = init ∧ F = fun _ => none
      | some y => Space k (fun _ => none) F y
  | .zombie, l => l.Idle k ∧ l.active = true
  | .reap _, l => l.Idle k ∧ l.active = true
  | .unreap q, l => ∃ x F y, l.slot = some (q, x) ∧ Space k F l.heap x ∧ l.self = some y ∧
      Space k (fun _ => none) F y

def post : (a : Act P) → Loc P → a.Reply → Loc P → Prop
  | .boot, _, _, l' => l' = ⟨true, fun _ => none, none, none⟩
  | .enter, _, _, l' => ∃ heap x, Space k (fun _ => none) heap x ∧ l' = ⟨true, heap, some x, none⟩
  | .panic _, _, _, _ | .halt, _, _, _ => False
  | .kalloc, l, r, l' =>
    (r = 0 ∧ l' = l) ∨ (k.Valid r ∧ l.heap r = none ∧
      ∃ t, l' = l.setHeap (update l.heap r (some t)))
  | .kfree a, l, _, l' => l' = l.setHeap (update l.heap a none)
  | .load a i, l, r, l' => l' = l ∧ ∃ t, l.heap a = some t ∧ r = t i
  | .store a i v, l, _, l' =>
    ∃ t, l.heap a = some t ∧ l' = l.setHeap (update l.heap a (some (update t i v)))
  | .zero a, l, _, l' => l' = l.setHeap (update l.heap a (some fun _ => 0))
  | .copy dst _, l, _, l' => ∃ t, l' = l.setHeap (update l.heap dst (some t))
  | .proc none, l, r, l' => l.self = some r ∧ l' = l
  | .proc (some np), l, r, l' => l.slot = some (np, r) ∧ l' = l
  | .setProc none x, l, _, l' => l' = { l with self := some x }
  | .setProc (some np) x, l, _, l' => l' = { l with slot := some (np, x) }
  | .found np, l, _, l' => l' = { l with slot := some (np, .zero) }
  | .freed _, l, _, l' => l' = { l with slot := none }
  | .start _, l, _, l' =>
    match l.self with
    | none => l' = .out
    | some y => ∃ F, Space k (fun _ => none) F y ∧ l' = ⟨true, F, some y, none⟩
  | .zombie, _, _, l' => l' = .out
  | .reap q, l, _, l' =>
    ∃ x heap, x.pagetable ≠ 0 ∧ Space k l.heap heap x ∧
    l' = { l with heap := heap, slot := some (q, x) }
  | .unreap _, l, _, l' => ∃ y F, Space k (fun _ => none) F y ∧ l.self = some y ∧
    l' = ⟨true, F, some y, none⟩

def rules : Discipline (Act P) Act.Reply (Loc P) := ⟨pre k init, post k⟩

end Rules

/-! ## `walk` -/

namespace Table

variable {k : Image} {F heap : Heap Nat Idx Nat} {place : List Idx → Option Nat}
  {flags : Nat → Leaf} {top : Nat → Nat} {root va q : Nat} {S : Nat → Prop} {level : Nat}

-- What `walk` finds in a table above the leaves.
theorem load_inner (h : Table k F heap place flags top root S) (hlevel : level ≤ 1)
    (hq : place (trail va (level + 2)) = some q) : ∃ t, heap q = some t ∧
      t (PX (level + 1) va) = match place (trail va (level + 1)) with
        | none => 0
        | some a => PA2PTE a ||| PTE_V := by
  have hlen : (trail va (level + 2)).length = 1 - level := by
    rw [length_trail va (show level + 1 ≤ 2 by omega)]
    omega
  have hcons := trail_cons va (show level + 1 ≤ 2 by omega)
  have hshort : (trail va (level + 1)).length ≠ 3 := by
    rw [hcons, List.length_cons, hlen]
    omega
  refine ⟨_, h.radix.entry _ q hq (by omega), ?_⟩
  rw [← hcons]
  cases place (trail va (level + 1)) with
  | none | some a => simp only [word, hshort, if_false]

theorem place_leaf_none (h : Table k F heap place flags top root S) (hlevel : level ≤ 1)
    (hnone : place (trail va (level + 1)) = none) : place (trail va 1) = none := by
  match level, hlevel with
  | 0, _ => exact hnone
  | 1, _ => exact h.radix.parent _ _ hnone

end Table

section Code

variable {P α : Type} {k : Image} {init : P} {l : Loc P} {F : Heap Nat Idx Nat}
  {place place' : List Idx → Option Nat} {flags flags' : Nat → Leaf} {top : Nat → Nat}
  {root va q level : Nat}
  {S V : Nat → Prop} {Q : Option (Nat × Idx) → Loc P → Prop} {x : Nat → Code P α} {y : Code P α}

/-- What a function of `vm.c` leaves alone: all but the memory of the process, and of this the
places of tables and the user pages with a number in `V`. -/
structure Leaves (V : Nat → Prop) (l : Loc P) (place : List Idx → Option Nat) (flags : Nat → Leaf)
    (l' : Loc P) (place' : List Idx → Option Nat) (flags' : Nat → Leaf) :
    Prop extends l.Same l' where
  flags : ∀ v, V v → flags' v = flags v
  stays : ∀ ρ b, (ρ.length = 3 → V (vpn ρ)) → place ρ = some b →
    place' ρ = some b ∧ (ρ.length = 3 → l'.heap b = l.heap b)

namespace Leaves

theorem refl (V : Nat → Prop) (l : Loc P) (place : List Idx → Option Nat) (flags : Nat → Leaf) :
    Leaves V l place flags l place flags :=
  ⟨.refl l, fun _ _ => rfl, fun _ _ _ hρ => ⟨hρ, fun _ => rfl⟩⟩

theorem trans {V₁ V₂ : Nat → Prop} {l' l'' : Loc P} {place'' : List Idx → Option Nat}
    {flags'' : Nat → Leaf} (h : Leaves V₁ l place flags l' place' flags')
    (h' : Leaves V₂ l' place' flags' l'' place'' flags'')
    (hV : ∀ v, V v → V₁ v ∧ V₂ v) : Leaves V l place flags l'' place'' flags'' := by
  refine ⟨h.toSame.trans h'.toSame, fun v hv => ?_, fun ρ b hρV hρ => ?_⟩
  · exact (h'.flags v (hV v hv).2).trans (h.flags v (hV v hv).1)
  · obtain ⟨hplace, hheap⟩ := h.stays ρ b (fun hlen => (hV _ (hρV hlen)).1) hρ
    obtain ⟨hplace', hheap'⟩ := h'.stays ρ b (fun hlen => (hV _ (hρV hlen)).2) hplace
    exact ⟨hplace', fun hlen => (hheap' hlen).trans (hheap hlen)⟩

/-- One page is written, got or given away. -/
theorem write (hq : ∀ ρ, ρ.length = 3 → V (vpn ρ) → place ρ ≠ some q) (x : Option Words)
    (hext : ∀ ρ b, (ρ.length = 3 → V (vpn ρ)) → place ρ = some b → place' ρ = some b)
    (hflags : ∀ v, V v → flags' v = flags v) :
    Leaves V l place flags (l.setHeap (update l.heap q x)) place' flags' := by
  refine ⟨⟨rfl, rfl, rfl⟩, hflags,
    fun ρ b hV hρ => ⟨hext ρ b hV hρ, fun hlen => update_of_ne ?_ ..⟩⟩
  rintro rfl
  exact hq ρ hlen (hV hlen) hρ

end Leaves

/-! ## Single actions -/

theorem keeps_act {a : Act P} {x : a.Reply → Code P α} {Q : α → Loc P → Prop}
    (hpre : pre k init a l) (hx : ∀ r l', post k a l r l' → (rules k init).Keeps (x r) l' Q) :
    (rules k init).Keeps (act a >>= x) l Q :=
  ⟨hpre, hx⟩

section

variable {x : Unit → Code P α} {Q : α → Loc P → Prop}

theorem keeps_store {i : Idx} {pte : Nat} {t : Words} (ht : l.heap q = some t)
    (hx : (rules k init).Keeps (x ()) (l.setHeap (update l.heap q (some (update t i pte)))) Q) :
    (rules k init).Keeps (act (.store q i pte) >>= x) l Q := by
  refine keeps_act (by rw [pre, ht]; nofun) ?_
  rintro - l' ⟨t', ht', rfl⟩
  cases ht.symm.trans ht'
  exact hx

/-- `kalloc` and `memset`, unless there is no memory. -/
theorem keeps_zeroed {z : Nat → Code P α} (hactive : l.active = true)
    (hnone : (rules k init).Keeps y l Q) (hsome : ∀ b, k.Valid b → l.heap b = none →
      (rules k init).Keeps (z b) (l.setHeap (update l.heap b (some fun _ => 0))) Q) :
    (rules k init).Keeps (do
      let b ← act .kalloc
      if b = 0 then y
      else
        act (.zero b)
        z b) l Q := by
  refine keeps_act hactive ?_
  rintro b l' (⟨rfl, rfl⟩ | ⟨hvalid, hfree, u, rfl⟩)
  · exact hnone
  rw [if_neg hvalid.ne_zero]
  refine keeps_act (by simp only [pre, Loc.setHeap, update_self]; nofun) ?_
  rintro - l1 rfl
  simp only [Loc.setHeap, update_idem]
  exact hsome b hvalid hfree

end

/-! ## `walk` -/

-- An entry above the leaves points to a table, or is 0.
theorem keeps_loadInner (hlevel : level ≤ 1) (h : Table k F l.heap place flags top root S)
    (hq : place (trail va (level + 2)) = some q) {Q : α → Loc P → Prop}
    (hsome : ∀ a, place (trail va (level + 1)) = some a → (rules k init).Keeps (x a) l Q)
    (hnone : ∀ t, l.heap q = some t → place (trail va (level + 1)) = none →
      (rules k init).Keeps y l Q) :
    (rules k init).Keeps (do
      let pte ← act (.load q (PX (level + 1) va))
      if pte &&& PTE_V ≠ 0 then x (PTE2PA pte) else y) l Q := by
  obtain ⟨t, ht, hword⟩ := h.load_inner hlevel hq
  refine keeps_act (h.radix.inside _ q hq) ?_
  rintro r l' ⟨rfl, t', ht', rfl⟩
  cases ht.symm.trans ht'
  rw [hword]
  cases hplace : place (trail va (level + 1)) with
  | none => exact hnone t ht hplace
  | some a =>
    have hvalid : (PA2PTE a ||| PTE_V) &&& PTE_V ≠ 0 := by
      rw [PA2PTE_or_and (by decide)]
      decide
    rw [if_pos hvalid, (h.valid _ a hplace).decode (by decide)]
    exact hsome a hplace

theorem keeps_walkFrom (hlevel : level ≤ 2) (h : Table k F l.heap place flags top root S)
    (hq : place (trail va (level + 1)) = some q)
    (hQ : Q ((place (trail va 1)).map fun q => (q, PX 0 va)) l) :
    (rules k init).Keeps (walkFrom false va level q) l Q := by
  induction level generalizing q with
  | zero =>
    rwa [hq] at hQ
  | succ level ih =>
    refine keeps_loadInner (le_of_succ_le_succ hlevel) h hq
      (fun a ha => ih (le_of_succ_le hlevel) ha) fun t _ hplace => ?_
    rwa [h.place_leaf_none (le_of_succ_le_succ hlevel) hplace] at hQ

-- A page that has just come from `kalloc` leaves the frame again.
theorem update_gone {b : Nat} (hb : F b = none) (x : Option Words) :
    update (update F b x) b none = F := by
  rw [update_idem, ← hb, update_eq_self]

/-- The tables that are missing on the way are added, as far as there is memory for them. -/
theorem keeps_walkFrom_alloc (hlevel : level ≤ 2) (hactive : l.active = true)
    (h : Table k F l.heap place flags top root S) (hq : place (trail va (level + 1)) = some q)
    (hQ : ∀ r l' place', Leaves (fun _ => True) l place flags l' place' flags →
      Table k F l'.heap place' flags top root S →
      (r = none ∨ ∃ q, place' (trail va 1) = some q ∧ r = some (q, PX 0 va)) → Q r l') :
    (rules k init).Keeps (walkFrom true va level q) l Q := by
  induction level generalizing q l place with
  | zero => exact hQ _ l place (.refl ..) h (.inr ⟨q, hq, rfl⟩)
  | succ level ih =>
    refine keeps_loadInner (le_of_succ_le_succ hlevel) h hq
      (fun a ha => ih (le_of_succ_le hlevel) hactive h ha hQ) fun t ht hplace => ?_
    refine keeps_zeroed hactive (hQ none l place (.refl ..) h (.inl rfl))
      fun child hchild hfree => ?_
    have hnot := h.radix.not_place_of_free hfree
    have hF : F child = none := by rw [← h.radix.frame child hnot, hfree]
    have hq' : update l.heap child (some fun _ => 0) q = some t :=
      (update_of_ne (fun heq => hnot _ (heq ▸ hq)) ..).trans ht
    refine keeps_store hq' ?_
    have hcons := trail_cons va (show level + 1 ≤ 2 by omega)
    have hlen : (trail va (level + 2)).length < 2 := by
      rw [length_trail va (show level + 1 ≤ 2 by omega)]
      omega
    have hgrown := (h.outer hnot (some fun _ => 0)).grow hq hlen hq' (hcons ▸ hplace)
      (update_self ..) hchild
    rw [update_gone hF] at hgrown
    -- the child is new, and the entry in no user page
    have hnew : Leaves (fun _ => True) l place flags
        (l.setHeap (update l.heap child (some fun _ => 0))) place flags :=
      .write (fun ρ _ _ => hnot ρ) _ (fun _ _ _ => id) fun _ _ => rfl
    refine ih (le_of_succ_le hlevel) hactive hgrown ?_ fun r l3 place' hleaves => hQ r l3 place'
      (hnew.trans (.trans (.write (q := q) (fun ρ hρ _ heq => ?_) _ (fun ρ b _ hρ => ?_) fun _ _ =>
        rfl) hleaves fun _ hv => ⟨hv, hv⟩) fun _ hv => ⟨hv, hv⟩)
    · rw [hcons, update_self]
    · rw [h.radix.inj _ _ _ heq hq] at hρ
      exact absurd hρ (Nat.ne_of_lt (lt_succ_of_lt hlen))
    · have hne : ρ ≠ PX (level + 1) va :: trail va (level + 2) := by
        rintro rfl
        cases (hcons ▸ hplace).symm.trans hρ
      rwa [update_of_ne hne]

theorem keeps_walk (hva : va < MAXVA) (h : Table k F l.heap place flags top root S)
    (hQ : Q ((place (trail va 1)).map fun q => (q, PX 0 va)) l) :
    (rules k init).Keeps (walk root va false) l Q := by
  rw [walk, if_neg (not_le.mpr hva)]
  exact keeps_walkFrom (le_refl 2) h h.root hQ

/-- The entry that `walk` has found is read. -/
theorem keeps_loadLeaf (h : Table k F l.heap place flags top root S)
    (hq : place (trail va 1) = some q) {Q : α → Loc P → Prop} (hx : ∀ t, l.heap q = some t →
      (rules k init).Keeps (x (word flags top (trail va 0) (place (trail va 0)))) l Q) :
    (rules k init).Keeps (act (.load q (PX 0 va)) >>= x) l Q := by
  obtain ⟨t, ht, hword⟩ := h.lookup hq
  refine keeps_act (h.radix.inside _ q hq) ?_
  rintro r l' ⟨rfl, t', ht', rfl⟩
  cases ht.symm.trans ht'
  rw [hword]
  exact hx t ht

/-! ## `mappages` and `uvmunmap` -/

/-- One page is mapped, unless there is no memory for the tables. -/
theorem keeps_mappages {pa perm : Nat} (haligned : va % PGSIZE = 0) (hva : va < MAXVA)
    (hactive : l.active = true) (h : Table k F l.heap place flags top root S)
    (hnot : ¬S (va / PGSIZE)) (htop : top (va / PGSIZE) = 0) {Q : Int → Loc P → Prop}
    (hnone : ∀ l' place', Leaves (fun _ => True) l place flags l' place' flags →
      Table k F l'.heap place' flags top root S → Q (-1) l')
    (hsome : ∀ l' place' q t, Leaves (fun _ => True) l place flags l' place' flags →
      Table k F l'.heap place' flags top root S → place' (trail va 1) = some q →
      l'.heap q = some t →
      Q 0 (l'.setHeap (update l'.heap q
        (some (update t (PX 0 va) (PA2PTE pa ||| perm ||| PTE_V)))))) :
    (rules k init).Keeps (mappages root va PGSIZE pa perm) l Q := by
  have hfrom : (rules k init).Keeps (mapFrom root perm 0 va pa) l Q := by
    unfold mapFrom
    rw [walk, if_neg (not_le.mpr hva)]
    refine Discipline.keeps_bind.mpr (keeps_walkFrom_alloc (le_refl 2) hactive h h.root ?_)
    rintro r l' place' hleaves h' (rfl | ⟨q, hq, rfl⟩)
    · exact hnone l' place' hleaves h'
    · refine keeps_loadLeaf h' hq fun t ht => ?_
      rw [h'.place_eq_none hva hnot, word_empty _ _ hva, htop]
      exact keeps_store ht (hsome l' place' q t hleaves h' hq ht)
  simp only [mappages, haligned, mod_self, ne_eq, not_true_eq_false, if_false, OfNat.ofNat_ne_zero,
    PGSIZE, Nat.div_self (show 0 < 4096 by decide), Nat.sub_self]
  exact hfrom

variable {Q : Unit → Loc P → Prop}

/-- User memory is unmapped and freed.  The induction is on the number of pages. -/
theorem keeps_uvmunmap {n : Nat} (haligned : va % PGSIZE = 0) (hva : va + n * PGSIZE ≤ MAXVA)
    (h : Table k F l.heap place flags top root S) (hS : ∀ i < n, S (va / PGSIZE + i))
    (hQ : ∀ l' place', Leaves (fun v => ¬(va / PGSIZE ≤ v ∧ v < va / PGSIZE + n)) l place flags l'
      place' flags →
      Table k F l'.heap place' flags top root
        (fun v => S v ∧ ¬(va / PGSIZE ≤ v ∧ v < va / PGSIZE + n)) → Q () l') :
    (rules k init).Keeps (uvmunmap root va n true) l Q := by
  rw [uvmunmap, if_neg (not_not.mpr haligned)]
  induction n generalizing va l place S with
  | zero =>
    refine hQ l place (.refl ..) ?_
    have hsame : (fun v => S v ∧ ¬(va / PGSIZE ≤ v ∧ v < va / PGSIZE + 0)) = S := by
      funext v
      exact propext (and_iff_left (by omega))
    rwa [hsame]
  | succ n ih =>
    have hlt : va < MAXVA := by
      simp only [PGSIZE] at hva
      omega
    obtain ⟨q, b, hq, hb⟩ := h.place_ne_none hlt (hS 0 (succ_pos n))
    have hflag : (PA2PTE b ||| (flags (va / PGSIZE)).val) &&& PTE_V ≠ 0 := by
      rw [PA2PTE_or_and (by decide)]
      exact (flags _).valid
    refine Discipline.keeps_bind.mpr (keeps_walk hlt h ?_)
    rw [hq]
    refine keeps_loadLeaf h hq fun t ht => ?_
    rw [hb, word_leaf _ _ hlt, if_neg hflag, PTE_FLAGS_or (flags _).lt, if_neg (flags _).ne_valid,
      (h.valid _ b hb).decode (flags _).lt, if_pos rfl]
    refine keeps_act (h.radix.inside _ b hb) ?_
    rintro - l1 rfl
    have hqb : q ≠ b := h.radix.ne_of_path_ne hq hb (List.cons_ne_self _ _).symm
    refine keeps_store ((update_of_ne hqb ..).trans ht) ?_
    -- the page that is gone is the one at `va`
    have hpage : Leaves (· ≠ va / PGSIZE) l place flags
        (l.setHeap (update l.heap b none)) place flags := by
      refine .write (fun ρ _ hne hρ => hne ?_) _ (fun _ _ _ => id) fun _ _ => rfl
      rw [h.radix.inj _ _ _ hρ hb, vpn_trail hlt]
    have hnext : (va + PGSIZE) / PGSIZE = va / PGSIZE + 1 := add_div_right va (by decide)
    refine ih (by rw [add_mod_right, haligned]) ?_ (h.unmap hlt hq ht hb) (fun i hi => ?_)
      fun l3 place' hleaves h' =>
        hQ l3 place' (hpage.trans (.trans (.write (q := q) (V := (· ≠ va / PGSIZE))
        (fun ρ hρ _ heq => ?_) _ (fun ρ c hV hρ => ?_) fun _ _ => rfl) hleaves fun _ => id)
        fun v hv => ?_) ?_
    · rw [succ_mul] at hva
      omega
    · rw [hnext]
      refine ⟨?_, by omega⟩
      have hi' := hS (i + 1) (by omega)
      rwa [← add_assoc, add_right_comm] at hi'
    · rw [h.radix.inj _ _ _ heq hq] at hρ
      cases hρ
    · have hne : ρ ≠ trail va 0 := by
        rintro rfl
        exact hV rfl (vpn_trail hlt)
      rwa [update_of_ne hne]
    · omega
    · have hset : (fun v => S v ∧ ¬(va / PGSIZE ≤ v ∧ v < va / PGSIZE + (n + 1))) = fun v =>
          (S v ∧ v ≠ va / PGSIZE) ∧
          ¬((va + PGSIZE) / PGSIZE ≤ v ∧ v < (va + PGSIZE) / PGSIZE + n) := by
        funext v
        rw [hnext, and_assoc]
        exact propext (and_congr_right fun _ => by omega)
      rwa [hset]

/-- A mapping of a page that is not the table's own is undone. -/
theorem keeps_uvmunmap_top {pa f : Nat} (haligned : va % PGSIZE = 0) (hva : va < MAXVA)
    (h : Table k F l.heap place flags top root S) (htop : top (va / PGSIZE) = PA2PTE pa ||| f)
    (hf : f < 1024) (hvalid : f &&& PTE_V ≠ 0) (hne : f ≠ PTE_V) (hQ : ∀ l', l.Same l' →
      Table k F l'.heap place flags (update top (va / PGSIZE) 0) root S → Q () l') :
    (rules k init).Keeps (uvmunmap root va 1 false) l Q := by
  have hflag : (PA2PTE pa ||| f) &&& PTE_V ≠ 0 := by
    rwa [PA2PTE_or_and (by decide)]
  have hpte : PA2PTE pa ||| f ≠ 0 := by
    intro hzero
    rw [hzero, zero_and] at hflag
    exact hflag rfl
  have hnot : ¬S (va / PGSIZE) := fun hS => hpte (htop.symm.trans (h.apart _ hS))
  have hmapped : place (trail va 1) ≠ none := by
    refine h.tables (PX 0 va) (trail va 1) rfl ?_
    rwa [show PX 0 va :: trail va 1 = trail va 0 from rfl, vpn_trail hva, htop]
  obtain ⟨q, hq⟩ := Option.ne_none_iff_exists'.mp hmapped
  rw [uvmunmap, if_neg (not_not.mpr haligned), unmapFrom]
  refine Discipline.keeps_bind.mpr (keeps_walk hva h ?_)
  rw [hq]
  refine keeps_loadLeaf h hq fun t ht => ?_
  rw [h.place_eq_none hva hnot, word_empty _ _ hva, htop, if_neg hflag, PTE_FLAGS_or hf, if_neg hne]
  exact keeps_store ht (hQ _ ⟨rfl, rfl, rfl⟩ (h.setTop hva hq ht hnot 0))

end Code

end OsProjects.Kernel.Vm
