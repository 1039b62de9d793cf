import OsProjects.Kernel.VmInv

/-!
# AddressSpaces — what page tables map, and where every page is, over whole runs
-/

namespace OsProjects.Kernel.Vm

open Lib Function Option

/-! ## What a page table says -/

/-- What the machine makes of `va`: the entry it comes to, and the level of that. -/
def translate (mem : Nat → Words) (va : Nat) : (level table : Nat) → Option (Nat × Nat)
  | level, table =>
    let pte := mem table (PX level va)
    if pte &&& PTE_V = 0 then none
    else if pte &&& (PTE_R ||| PTE_W ||| PTE_X) ≠ 0 then some (level, pte)
    else match level with
      | 0 => none
      | level + 1 => translate mem va level (PTE2PA pte)

/-- The leaf for page number `v`. -/
def leaf (mem : Nat → Words) (root v : Nat) : Option (Nat × Nat) :=
  translate mem (v * PGSIZE) 2 root

/-- The physical page at page number `v`. -/
def page (mem : Nat → Words) (root v : Nat) : Option Nat :=
  (leaf mem root v).map fun e => PTE2PA e.2

/-- The table at the end of a path, the last step first. -/
def table (mem : Nat → Words) (root : Nat) : List Idx → Option Nat
  | [] => some root
  | i :: π =>
    (table mem root π).bind fun a =>
      if mem a i &&& PTE_V ≠ 0 ∧ mem a i &&& (PTE_R ||| PTE_W ||| PTE_X) = 0 then
        some (PTE2PA (mem a i)) else none

variable {k : Image}

/-- An entry for a lower table. -/
theorem Image.Valid.pointer {a : Nat} (h : k.Valid a) :
    (PA2PTE a ||| PTE_V) &&& PTE_V ≠ 0 ∧ (PA2PTE a ||| PTE_V) &&& (PTE_R ||| PTE_W ||| PTE_X) = 0 ∧
      PTE2PA (PA2PTE a ||| PTE_V) = a := by
  rw [PA2PTE_or_and (by decide), PA2PTE_or_and (by decide)]
  exact ⟨by decide, by decide, h.decode (by decide)⟩

theorem Leaf.permits (f : Leaf) : f.val &&& (PTE_R ||| PTE_W ||| PTE_X) ≠ 0 := by
  intro hzero
  have hread : f.val &&& PTE_R = f.val &&& (PTE_R ||| PTE_W ||| PTE_X) &&& PTE_R := by
    rw [Nat.and_assoc]
    rfl
  rw [hzero, Nat.zero_and] at hread
  exact f.read hread

variable {ρ : List Idx} {v : Nat} {mem : Nat → Words}

namespace Table

variable {k : Image} {F heap : Heap Nat Idx Nat} {place : List Idx → Option Nat}
  {flags : Nat → Leaf} {top : Nat → Nat} {root va q : Nat} {S : Nat → Prop} {mem : Nat → Words}

section

variable (h : Table k F heap place flags top root S)
include h

-- An entry above the leaves points to a table, or to nothing.
theorem translate_inner (hmem : ∀ a t, heap a = some t → mem a = t)
    {level : Nat} (hlevel : level ≤ 1) (hq : place (trail va (level + 2)) = some q) :
    translate mem va (level + 1) q = (place (trail va (level + 1))).bind
      (translate mem va level) := by
  obtain ⟨t, ht, hword⟩ := h.load_inner hlevel hq
  rw [translate, hmem q t ht, hword]
  cases hplace : place (trail va (level + 1)) with
  | none => rfl
  | some a =>
    obtain ⟨hvalid, hpointer, hpa⟩ := (h.valid _ a hplace).pointer
    simp only [hvalid, hpointer, hpa, ne_eq, not_true_eq_false, if_false]
    rfl

theorem translate_eq (hmem : ∀ a t, heap a = some t → mem a = t)
    (hva : va < MAXVA) {pte : Nat} (hpte : word flags top (trail va 0) (place (trail va 0)) = pte) :
    translate mem va 2 root =
      if pte &&& PTE_V = 0 ∨ pte &&& (PTE_R ||| PTE_W ||| PTE_X) = 0 then none
      else some (0, pte) := by
  -- without a table above it there is no leaf
  have hnone : place (trail va 1) = none →
      none = if pte &&& PTE_V = 0 ∨ pte &&& (PTE_R ||| PTE_W ||| PTE_X) = 0 then none
        else some (0, pte) := by
    intro hno
    have hzero : pte = 0 := by
      have hleaf : place (trail va 0) = none := h.radix.parent _ _ hno
      rw [← hpte, hleaf, word_empty _ _ hva]
      by_contra htop
      refine h.tables (PX 0 va) (trail va 1) rfl ?_ hno
      rwa [show PX 0 va :: trail va 1 = trail va 0 from rfl, vpn_trail hva]
    rw [hzero]
    rfl
  rw [h.translate_inner hmem (Nat.le_refl 1) h.root]
  cases htwo : place (trail va 2) with
  | none => exact hnone (h.radix.parent _ _ htwo)
  | some a =>
    rw [bind_some, h.translate_inner hmem (Nat.zero_le 1) htwo]
    cases hone : place (trail va 1) with
    | none => exact hnone hone
    | some b =>
      obtain ⟨t, ht, hentry⟩ := h.lookup hone
      rw [bind_some, translate, hmem b t ht, hentry, hpte]
      by_cases hvalid : pte &&& PTE_V = 0
      · simp only [hvalid, true_or, if_true]
      · by_cases hleaf : pte &&& (PTE_R ||| PTE_W ||| PTE_X) = 0
        · simp only [hvalid, hleaf, ne_eq, not_true_eq_false, if_false, or_true, if_true]
        · simp only [hvalid, hleaf, ne_eq, not_false_eq_true, if_false, if_true, or_false]

theorem leaf_some (hmem : ∀ a t, heap a = some t → mem a = t)
    {a f : Nat} (hva : v * PGSIZE < MAXVA) (halign : a % PGSIZE = 0) (hlt : a < PHYSTOP)
    (hf : f < 1024) (hvalid : f &&& PTE_V ≠ 0) (hpermits : f &&& (PTE_R ||| PTE_W ||| PTE_X) ≠ 0)
    (hword : word flags top (trail (v * PGSIZE) 0) (place (trail (v * PGSIZE) 0)) =
      PA2PTE a ||| f) :
    (∃ pte, leaf mem root v = some (0, pte)) ∧ page mem root v = some a := by
  have heq := h.translate_eq hmem hva hword
  rw [PA2PTE_or_and (by decide), PA2PTE_or_and (by decide), if_neg (not_or.mpr ⟨hvalid, hpermits⟩)]
    at heq
  refine ⟨⟨_, heq⟩, ?_⟩
  rw [page, leaf, heq]
  exact congrArg some (PTE2PA_or halign (hlt.trans (by decide)) hf)

theorem leaf_none (hmem : ∀ a t, heap a = some t → mem a = t) (hva : v * PGSIZE < MAXVA)
    (hword : word flags top (trail (v * PGSIZE) 0) (place (trail (v * PGSIZE) 0)) = 0) :
    leaf mem root v = none ∧ page mem root v = none := by
  have heq : leaf mem root v = none := h.translate_eq hmem hva hword
  rw [page, heq]
  exact ⟨rfl, rfl⟩

theorem table_eq (hmem : ∀ a t, heap a = some t → mem a = t)
    (hlen : ρ.length ≤ 2) : table mem root ρ = place ρ := by
  induction ρ with
  | nil => exact h.root.symm
  | cons i π ih =>
    rw [List.length_cons] at hlen
    have hshort : (i :: π).length ≠ 3 := by
      rw [List.length_cons]
      omega
    rw [table, ih (Nat.le_of_succ_le hlen)]
    cases hπ : place π with
    | none => exact (h.radix.parent i π hπ).symm
    | some a =>
      have hentry : mem a i = word flags top (i :: π) (place (i :: π)) := by
        rw [hmem a _ (h.radix.entry π a hπ (by omega))]
      rw [bind_some, hentry]
      cases hplace : place (i :: π) with
      | none =>
        rw [word, if_neg hshort]
        rfl
      | some b =>
        obtain ⟨hvalid, hpointer, hpa⟩ := (h.valid _ b hplace).pointer
        rw [word, if_neg hshort, if_pos ⟨hvalid, hpointer⟩, hpa]

end

end Table

/-! ## An address space as it is in memory -/

/-- `place` is where the tables and the user pages of a process are. -/
structure View (k : Image) (mem : Nat → Words) (heap : Heap Nat Idx Nat) (x : Proc)
    (place : List Idx → Option Nat) : Prop where
  count : npages x.sz ≤ (PHYSTOP - KERNBASE) / PGSIZE
  heap : ∀ a, heap a ≠ none ↔ a = x.trapframe ∨ ∃ ρ, place ρ = some a
  apart : ∀ ρ, place ρ ≠ some x.trapframe
  inj : ∀ ρ σ a, place ρ = some a → place σ = some a → ρ = σ
  depth : ∀ ρ a, place ρ = some a → ρ.length ≤ 3
  table : ∀ ρ, ρ.length ≤ 2 → table mem x.pagetable ρ = place ρ
  user : ∀ ρ, ρ.length = 3 → (place ρ ≠ none ↔ vpn ρ < npages x.sz)
  level : ∀ v level pte, v < MAXVA / PGSIZE → leaf mem x.pagetable v = some (level, pte) → level = 0
  page : ∀ v a, v < MAXVA / PGSIZE → (page mem x.pagetable v = some a ↔
    place (trail (v * PGSIZE) 0) = some a ∨ (v = TRAPFRAME / PGSIZE ∧ a = x.trapframe) ∨
      (v = TRAMPOLINE / PGSIZE ∧ a = k.trampoline))

theorem mul_PGSIZE_lt (hv : v < MAXVA / PGSIZE) : v * PGSIZE < MAXVA ∧ v * PGSIZE / PGSIZE = v := by
  simp only [MAXVA, PGSIZE] at hv ⊢
  omega

-- Each page number is one of user memory, one of the two at the top, or not mapped.
theorem Table.page_iff {F heap : Heap Nat Idx Nat} {place : List Idx → Option Nat}
    {flags : Nat → Leaf} {tf root sz : Nat}
    (h : Table k F heap place flags (fullTop k tf) root fun v => v < npages sz)
    (hmem : ∀ a t, heap a = some t → mem a = t) (htf : k.Valid tf) (hv : v < MAXVA / PGSIZE) :
    (leaf mem root v = none ∨ ∃ pte, leaf mem root v = some (0, pte)) ∧
    ∀ a, (page mem root v = some a ↔
      place (trail (v * PGSIZE) 0) = some a ∨ (v = TRAPFRAME / PGSIZE ∧ a = tf) ∨
        (v = TRAMPOLINE / PGSIZE ∧ a = k.trampoline)) := by
  obtain ⟨hva, hdiv⟩ := mul_PGSIZE_lt hv
  have hcount := h.count_le (n := npages sz) fun _ hv => hv
  by_cases huser : v < npages sz
  · obtain ⟨q, b, -, hb⟩ := h.place_ne_none hva (by rwa [hdiv])
    have hvalid := h.valid _ b hb
    have hword := word_leaf flags (fullTop k tf) hva b
    rw [← hb] at hword
    obtain ⟨hleaf, hpage⟩ :=
      h.leaf_some hmem hva hvalid.aligned hvalid.lt_stop (flags _).lt (flags _).valid
        (flags _).permits hword
    have hlow : v ≠ TRAPFRAME / PGSIZE ∧ v ≠ TRAMPOLINE / PGSIZE := by
      simp only [PHYSTOP, KERNBASE, PGSIZE, MAXVA, TRAPFRAME, TRAMPOLINE] at hcount ⊢
      omega
    refine ⟨.inr hleaf, fun a => ?_⟩
    simp only [hpage, hb, hlow, false_and, or_false]
  · have hnone := h.place_eq_none hva (by rwa [hdiv])
    have hword := word_empty flags (fullTop k tf) hva
    rw [← hnone, hdiv] at hword
    by_cases htrap : v = TRAPFRAME / PGSIZE
    · have hne : v ≠ TRAMPOLINE / PGSIZE := by
        rw [htrap]
        decide
      have hentry := fullTop_trapframe k tf
      rw [← htrap] at hentry
      obtain ⟨hleaf, hpage⟩ :=
        h.leaf_some hmem hva htf.aligned htf.lt_stop (by decide) (by decide) (by decide)
        (hword.trans hentry)
      refine ⟨.inr hleaf, fun a => ?_⟩
      simp only [hpage, hnone, hne, false_and, or_false, reduceCtorEq, false_or, Option.some.injEq,
        eq_comm, and_iff_right htrap]
    · by_cases htramp : v = TRAMPOLINE / PGSIZE
      · have hentry := fullTop_trampoline k tf
        rw [← htramp] at hentry
        have hstop : k.trampoline < PHYSTOP :=
          k.trampoline_lt.trans (lt_of_le_of_lt htf.end_le htf.lt_stop)
        obtain ⟨hleaf, hpage⟩ :=
          h.leaf_some hmem hva k.aligned hstop (by decide) (by decide) (by decide)
          (hword.trans hentry)
        refine ⟨.inr hleaf, fun a => ?_⟩
        simp only [hpage, hnone, htrap, false_and, reduceCtorEq, false_or, Option.some.injEq,
          eq_comm, and_iff_right htramp]
      · have hentry : fullTop k tf v = 0 := by
          rw [fullTop, update_of_ne htrap, update_of_ne htramp]
        obtain ⟨hleaf, hpage⟩ := h.leaf_none hmem hva (hword.trans hentry)
        refine ⟨.inl hleaf, fun a => ?_⟩
        simp only [hpage, hnone, htrap, htramp, false_and, or_false, reduceCtorEq]

theorem Space.view {heap : Heap Nat Idx Nat} {x : Proc}
    (h : Space k (fun _ => none) heap x) (hmem : ∀ a t, heap a = some t → mem a = t) :
    ∃ place, View k mem heap x place := by
  obtain ⟨-, htf, t, place, flags, h⟩ := h
  have htrap : update (fun _ => none) x.trapframe (some t) x.trapframe ≠ none := by
    rw [update_self]
    nofun
  refine ⟨place, h.count_le fun _ hv => hv, fun a => ⟨fun ha => ?_, ?_⟩,
    h.radix.not_place_of_frame htrap, h.radix.inj,
    fun ρ a hρ => ?_, fun ρ hρ => h.table_eq hmem hρ, h.user, fun v level pte hv hleaf => ?_,
    fun v a hv => (h.page_iff hmem htf hv).2 a⟩
  · by_contra hno
    obtain ⟨hne, hnot⟩ := not_or.mp hno
    exact ha ((h.radix.frame a (not_exists.mp hnot)).trans (update_of_ne hne ..))
  · rintro (rfl | ⟨ρ, hρ⟩)
    · rwa [h.radix.heap_of_frame htrap]
    · exact h.radix.inside ρ a hρ
  · by_contra hlen
    cases (h.radix.depth ρ (Nat.lt_of_not_le hlen)).symm.trans hρ
  · rcases (h.page_iff hmem htf hv).1 with hno | ⟨pte', hsome⟩
    · cases hno.symm.trans hleaf
    · cases hsome.symm.trans hleaf
      rfl

namespace View

variable {k : Image} {mem : Nat → Words} {heap : Heap Nat Idx Nat} {x : Proc}
  {place : List Idx → Option Nat} {v w a : Nat}

theorem place_trail (h : View k mem heap x place) (hv : v < MAXVA / PGSIZE) :
    place (trail (v * PGSIZE) 0) ≠ none ↔ v < npages x.sz := by
  obtain ⟨hva, hdiv⟩ := mul_PGSIZE_lt hv
  rw [h.user _ rfl, vpn_trail hva, hdiv]

theorem leaf_iff (h : View k mem heap x place) (hv : v < MAXVA / PGSIZE) :
    leaf mem x.pagetable v ≠ none ↔
      v < PGROUNDUP x.sz / PGSIZE ∨ v = TRAPFRAME / PGSIZE ∨ v = TRAMPOLINE / PGSIZE := by
  have hsome : leaf mem x.pagetable v ≠ none ↔ ∃ a, Vm.page mem x.pagetable v = some a := by
    rw [← ne_none_iff_exists', Vm.page, ne_eq, ne_eq, map_eq_none_iff]
  have hplace : (∃ a, place (trail (v * PGSIZE) 0) = some a) ↔ v < npages x.sz := by
    rw [← h.place_trail hv, ne_none_iff_exists']
  rw [hsome, PGROUNDUP_eq h.count, Nat.mul_div_cancel _ (by decide), ← hplace]
  simp only [h.page v _ hv, exists_or, exists_and_left, exists_eq, and_true]

/-- A page that is mapped belongs to the process, or is the trampoline. -/
theorem page_owned (h : View k mem heap x place) (hv : v < MAXVA / PGSIZE)
    (hpage : Vm.page mem x.pagetable v = some a) :
    heap a ≠ none ∨ (v = TRAMPOLINE / PGSIZE ∧ a = k.trampoline) := by
  rcases (h.page v a hv).mp hpage with hplace | ⟨-, rfl⟩ | htramp
  · exact .inl ((h.heap a).mpr (.inr ⟨_, hplace⟩))
  · exact .inl ((h.heap _).mpr (.inl rfl))
  · exact .inr htramp

theorem page_inj (h : View k mem heap x place) (hv : v < MAXVA / PGSIZE) (hw : w < MAXVA / PGSIZE)
    (hne : a ≠ k.trampoline) (hpage : Vm.page mem x.pagetable v = some a)
    (hpage' : Vm.page mem x.pagetable w = some a) : v = w := by
  rcases (h.page v a hv).mp hpage with hplace | ⟨rfl, rfl⟩ | ⟨-, htramp⟩
  · rcases (h.page w a hw).mp hpage' with hplace' | ⟨-, rfl⟩ | ⟨-, htramp⟩
    · have hpath := congrArg vpn (h.inj _ _ a hplace hplace')
      obtain ⟨hva, hdiv⟩ := mul_PGSIZE_lt hv
      obtain ⟨hva', hdiv'⟩ := mul_PGSIZE_lt hw
      rwa [vpn_trail hva, vpn_trail hva', hdiv, hdiv'] at hpath
    · exact absurd hplace (h.apart _)
    · exact absurd htramp hne
  · rcases (h.page w _ hw).mp hpage' with hplace' | ⟨rfl, -⟩ | ⟨-, htramp⟩
    · exact absurd hplace' (h.apart _)
    · rfl
    · exact absurd htramp hne
  · exact absurd htramp hne

end View

/-! ## Whole runs -/

/-- What a page can be used for; a table is named by the path to it. -/
inductive Use (P : Type)
  | free
  | trapframe (p : P)
  | table (p : P) (path : List Idx)
  | user (p : P) (v : Nat)

namespace Sys

variable {P : Type}

/-- `userinit` has not run; `freelist` is what the rest of the kernel has left. -/
def boot (mem : Nat → Words) (freelist : List Nat) (fails : Nat → Bool) : Sys P :=
  ⟨mem, freelist, fails, 0, fun _ => .zero, fun _ => .unused, false⟩

def Live (s : Sys P) (p : P) : Prop := s.life p = .running ∨ s.life p = .zombie

def leaf (s : Sys P) (p : P) (v : Nat) : Option (Nat × Nat) := Vm.leaf s.mem (s.proc p).pagetable v

def page (s : Sys P) (p : P) (v : Nat) : Option Nat := Vm.page s.mem (s.proc p).pagetable v

def Uses (s : Sys P) (a : Nat) : Use P → Prop
  | .free => a ∈ s.freelist
  | .trapframe p => s.Live p ∧ (s.proc p).trapframe = a
  | .table p path => s.Live p ∧ path.length ≤ 2 ∧ table s.mem (s.proc p).pagetable path = some a
  | .user p v => s.Live p ∧ v < PGROUNDUP (s.proc p).sz / PGSIZE ∧ s.page p v = some a

end Sys

section Run

variable {P : Type}

/-- `p` is not in the middle of a call. -/
def Rests (c : Config (Sys P) P (Act P) Act.Reply Int) (p : P) : Prop :=
  ∀ a, c.next p = some a → a = .boot ∨ a = .enter

/-- Every address space is what it should be, and every page of `pages` where it should be. -/
structure Consistent (k : Image) (init : P) [DecidableEq P] (pages : Nat → Prop)
    (c : Config (Sys P) P (Act P) Act.Reply Int) : Prop where
  mapped : ∀ p, c.shared.Live p → Rests c p → ∀ v < MAXVA / PGSIZE, (c.shared.leaf p v ≠ none ↔
    v < PGROUNDUP (c.shared.proc p).sz / PGSIZE ∨ v = TRAPFRAME / PGSIZE ∨ v = TRAMPOLINE / PGSIZE)
  /-- There are no leaves in the upper tables. -/
  level : ∀ p, c.shared.Live p → Rests c p → ∀ v < MAXVA / PGSIZE, ∀ level pte,
    c.shared.leaf p v = some (level, pte) → level = 0
  trapframe : ∀ p, c.shared.Live p → Rests c p →
    c.shared.page p (TRAPFRAME / PGSIZE) = some (c.shared.proc p).trapframe
  trampoline : ∀ p, c.shared.Live p → Rests c p →
    c.shared.page p (TRAMPOLINE / PGSIZE) = some k.trampoline
  once : ∀ p q, c.shared.Live p → c.shared.Live q → Rests c p → Rests c q →
    ∀ v < MAXVA / PGSIZE, ∀ w < MAXVA / PGSIZE, ∀ a, c.shared.page p v = some a →
    c.shared.page q w = some a →
      v = w ∧ (p = q ∨ a = k.trampoline)
  /-- When no call is under way each page has one use, and no others have any. -/
  uses : (∀ p, Rests c p) → c.shared.freelist.Nodup ∧ ∀ a,
    (pages a → ∃ u, c.shared.Uses a u ∧ ∀ u', c.shared.Uses a u' → u' = u) ∧
    (∀ u, c.shared.Uses a u → pages a)
  panics : ∀ p a, c.next p = some a → ∀ msg, perform k init p a c.shared = .error (.panic msg) →
    msg = "init exiting"

variable {k : Image} {init p : P} {pages : Nat → Prop} {mem : Nat → Words} {freelist : List Nat}
  {fails : Nat → Bool} {c : Config (Sys P) P (Act P) Act.Reply Int} {locs : P → Loc P}
  {own : P → Heap Nat Idx Nat}

def Reached [DecidableEq P] (k : Image) (init : P) (mem : Nat → Words) (freelist : List Nat)
    (fails : Nat → Bool) : Config (Sys P) P (Act P) Act.Reply Int → Prop :=
  Reach (Config.step (perform k init) (Call.code k init)) (Config.Admits fun _ _ _ => True)
    ⟨.boot mem freelist fails, fun _ => none⟩

theorem inv_boot (hnodup : freelist.Nodup) (hvalid : ∀ a ∈ freelist, k.Valid a) :
    Inv k init (· ∈ freelist) (.boot mem freelist fails) fun _ : P => Loc.out := by
  refine ⟨fun _ _ => none,
    ⟨hvalid, hnodup, fun a => ⟨fun ha => ⟨ha, fun _ => rfl⟩, And.left⟩, ?_, ?_, ?_⟩,
    ⟨fun p => .gone nofun nofun, ?_, fun _ _ => rfl, ?_, fun _ _ => ⟨rfl, rfl⟩⟩⟩
  · exact fun _ _ hno => absurd rfl hno
  · exact fun _ _ _ hno => absurd rfl hno
  · exact fun _ _ _ hno => nomatch hno
  · exact fun _ _ _ hno => nomatch hno
  · exact fun _ hno => nomatch hno

theorem inv_of_reached [DecidableEq P] (hnodup : freelist.Nodup)
    (hvalid : ∀ a ∈ freelist, k.Valid a) (h : Reached k init mem freelist fails c) :
    ∃ locs, Inv k init (· ∈ freelist) c.shared locs ∧ (rules k init).Kept (Loc.Idle k) locs c :=
  sound.reach keeps_code (inv_boot hnodup hvalid) (fun _ => ⟨rfl, nofun⟩) h

theorem idle_of_rests (h : (rules k init).Kept (Loc.Idle k) locs c) (hrests : Rests c p) :
    (locs p).Idle k := by
  cases hnext : c.next p with
  | some a =>
    have hpre := h.pre hnext
    rcases hrests a hnext with rfl | rfl
    · exact hpre
    · exact hpre
  | none =>
    have hp := h p
    unfold Config.next at hnext
    match hjob : c.jobs p with
    | none | some (.ret y) =>
      rwa [hjob] at hp
    | some (.act a x) =>
      rw [hjob] at hnext
      cases hnext

section Settled

variable (hpages : Pages k pages c.shared.mem c.shared.freelist own)
  (howners : Owners k init c.shared.proc c.shared.life c.shared.booted locs own)
  (hkept : (rules k init).Kept (Loc.Idle k) locs c)

include hpages

theorem ne_trampoline_of_owned {a : Nat} (ha : own p a ≠ none) : a ≠ k.trampoline := by
  have hvalid := hpages.valid a (hpages.inside p a ha)
  exact (lt_of_lt_of_le k.trampoline_lt hvalid.end_le).ne'

include howners hkept

theorem view_of_live (hlive : c.shared.Live p) (hrests : Rests c p) :
    ∃ place, View k c.shared.mem (own p) (c.shared.proc p) place :=
  ((howners.role p).space (idle_of_rests hkept hrests) hlive).view (hpages.agree p)

theorem page_once {q : P} (hp : c.shared.Live p) (hq : c.shared.Live q) (hrp : Rests c p)
    (hrq : Rests c q) {w a : Nat} (hv : v < MAXVA / PGSIZE) (hw : w < MAXVA / PGSIZE)
    (hpage : c.shared.page p v = some a) (hpage' : c.shared.page q w = some a) :
    v = w ∧ (p = q ∨ a = k.trampoline) := by
  obtain ⟨place, hview⟩ := view_of_live hpages howners hkept hp hrp
  obtain ⟨place', hview'⟩ := view_of_live hpages howners hkept hq hrq
  rcases hview.page_owned hv hpage with hown | ⟨rfl, rfl⟩
  · have hne := ne_trampoline_of_owned hpages hown
    rcases hview'.page_owned hw hpage' with hown' | ⟨-, htramp⟩
    · cases hpages.apart p q a hown hown'
      exact ⟨hview.page_inj hv hw hne hpage hpage', .inl rfl⟩
    · exact absurd htramp hne
  · rcases hview'.page_owned hw hpage' with hown' | ⟨rfl, -⟩
    · exact absurd rfl (ne_trampoline_of_owned hpages hown')
    · exact ⟨rfl, .inr rfl⟩

end Settled

/-- The use of the page at the end of a path. -/
def Use.ofPath (p : P) (ρ : List Idx) : Use P :=
  if ρ.length = 3 then .user p (vpn ρ) else .table p ρ

namespace View

variable {heap : Heap Nat Idx Nat} {place : List Idx → Option Nat} {p : P} {s : Sys P} {a : Nat}

theorem uses_ofPath (h : View k s.mem heap (s.proc p) place) (hlive : s.Live p)
    (hρ : place ρ = some a) : s.Uses a (.ofPath p ρ) := by
  unfold Use.ofPath
  split
  · rename_i hlen
    have hsome : place ρ ≠ none := by rw [hρ]; nofun
    have huser := (h.user ρ hlen).mp hsome
    have hv : vpn ρ < MAXVA / PGSIZE := lt_of_lt_of_le huser (h.count.trans (by decide))
    obtain ⟨hva, hdiv⟩ := mul_PGSIZE_lt hv
    refine ⟨hlive, ?_, (h.page _ a hv).mpr (.inl ?_)⟩
    · rwa [PGROUNDUP_eq h.count, Nat.mul_div_cancel _ (by decide)]
    · rw [← trail_of_vpn hlen hva hdiv.symm, hρ]
  · rename_i hlen
    have hshort : ρ.length ≤ 2 := by
      have hdepth := h.depth ρ a hρ
      omega
    exact ⟨hlive, hshort, (h.table ρ hshort).trans hρ⟩

/-- The page of user memory at `v`, by its path. -/
theorem path_of_user (h : View k s.mem heap (s.proc p) place)
    (hv : v < PGROUNDUP (s.proc p).sz / PGSIZE) (hpage : s.page p v = some a) :
    ∃ ρ, place ρ = some a ∧ .user p v = Use.ofPath p ρ := by
  rw [PGROUNDUP_eq h.count, Nat.mul_div_cancel _ (by decide)] at hv
  have hcount := h.count
  have hlow : v < MAXVA / PGSIZE ∧ v ≠ TRAPFRAME / PGSIZE ∧ v ≠ TRAMPOLINE / PGSIZE := by
    simp only [PHYSTOP, KERNBASE, PGSIZE, MAXVA, TRAPFRAME, TRAMPOLINE] at hcount ⊢
    omega
  obtain ⟨hva, hdiv⟩ := mul_PGSIZE_lt hlow.1
  rcases (h.page v a hlow.1).mp hpage with hplace | ⟨hno, -⟩ | ⟨hno, -⟩
  · refine ⟨_, hplace, ?_⟩
    rw [Use.ofPath, if_pos (length_trail_zero _), vpn_trail hva, hdiv]
  · exact absurd hno hlow.2.1
  · exact absurd hno hlow.2.2

theorem path_of_table (h : View k s.mem heap (s.proc p) place) (hlen : ρ.length ≤ 2)
    (htable : Vm.table s.mem (s.proc p).pagetable ρ = some a) :
    place ρ = some a ∧ .table p ρ = Use.ofPath p ρ := by
  refine ⟨(h.table ρ hlen).symm.trans htable, ?_⟩
  rw [Use.ofPath, if_neg (by omega)]

end View

section Uses

variable {s : Sys P} {place : P → List Idx → Option Nat} {a : Nat}
  (hpages : Pages k pages s.mem s.freelist own)
  (hviews : ∀ p, s.Live p → View k s.mem (own p) (s.proc p) (place p))

include hviews

/-- A use other than being free is in the address space of a process that has the page. -/
theorem use_owned {u : Use P} (hu : s.Uses a u) (hfree : u ≠ .free) :
    ∃ p, s.Live p ∧ own p a ≠ none ∧
    ((u = .trapframe p ∧ a = (s.proc p).trapframe) ∨ ∃ ρ, place p ρ = some a ∧
      u = .ofPath p ρ) := by
  cases u with
  | free => exact absurd rfl hfree
  | trapframe p =>
    obtain ⟨hlive, rfl⟩ := hu
    exact ⟨p, hlive, ((hviews p hlive).heap _).mpr (.inl rfl), .inl ⟨rfl, rfl⟩⟩
  | table p ρ =>
    obtain ⟨hlive, hlen, htable⟩ := hu
    obtain ⟨hρ, hu⟩ := (hviews p hlive).path_of_table hlen htable
    exact ⟨p, hlive, ((hviews p hlive).heap _).mpr (.inr ⟨ρ, hρ⟩), .inr ⟨ρ, hρ, hu⟩⟩
  | user p v =>
    obtain ⟨hlive, hv, hpage⟩ := hu
    obtain ⟨ρ, hρ, hu⟩ := (hviews p hlive).path_of_user hv hpage
    exact ⟨p, hlive, ((hviews p hlive).heap _).mpr (.inr ⟨ρ, hρ⟩), .inr ⟨ρ, hρ, hu⟩⟩

include hpages

theorem uses_page {u : Use P} (hu : s.Uses a u) : pages a := by
  by_cases hfree : u = .free
  · subst hfree
    exact ((hpages.free a).mp hu).1
  · obtain ⟨p, -, hown, -⟩ := use_owned hviews hu hfree
    exact hpages.inside p a hown

theorem uses_unique {u u' : Use P} (hu : s.Uses a u) (hu' : s.Uses a u') : u = u' := by
  have hnot : ∀ {w : Use P}, a ∈ s.freelist → s.Uses a w → w = .free := by
    intro w hlist hw
    by_contra hne
    obtain ⟨p, -, hown, -⟩ := use_owned hviews hw hne
    exact hown (((hpages.free a).mp hlist).2 p)
  by_cases hfree : u = .free
  · subst hfree
    exact (hnot hu hu').symm
  by_cases hfree' : u' = .free
  · subst hfree'
    exact hnot hu' hu
  obtain ⟨p, hlive, hown, hkind⟩ := use_owned hviews hu hfree
  obtain ⟨q, -, hown', hkind'⟩ := use_owned hviews hu' hfree'
  cases hpages.apart p q a hown hown'
  rcases hkind with ⟨rfl, rfl⟩ | ⟨ρ, hρ, rfl⟩
  · rcases hkind' with ⟨rfl, -⟩ | ⟨σ, hσ, rfl⟩
    · rfl
    · exact absurd hσ ((hviews p hlive).apart σ)
  · rcases hkind' with ⟨rfl, rfl⟩ | ⟨σ, hσ, rfl⟩
    · exact absurd hρ ((hviews p hlive).apart ρ)
    · rw [(hviews p hlive).inj ρ σ a hρ hσ]

/-- No page is lost. -/
theorem uses_exists (hdead : ∀ p, ¬s.Live p → own p = fun _ => none) (ha : pages a) :
    ∃ u, s.Uses a u := by
  by_cases hlist : a ∈ s.freelist
  · exact ⟨.free, hlist⟩
  · obtain ⟨p, hp⟩ : ∃ p, own p a ≠ none := by
      by_contra hno
      exact hlist ((hpages.free a).mpr ⟨ha, fun p => not_not.mp (not_exists.mp hno p)⟩)
    have hlive : s.Live p := by
      by_contra hno
      rw [hdead p hno] at hp
      exact hp rfl
    rcases ((hviews p hlive).heap a).mp hp with rfl | ⟨ρ, hρ⟩
    · exact ⟨.trapframe p, hlive, rfl⟩
    · exact ⟨_, (hviews p hlive).uses_ofPath hlive hρ⟩

end Uses

-- The panics are in the code, where they are not reached, and in `kfree`, which gets pages only.
theorem panic_of_pre [DecidableEq P] (hpages : Pages k pages c.shared.mem c.shared.freelist own)
    (howners : Owners k init c.shared.proc c.shared.life c.shared.booted locs own) {a : Act P}
    (hpre : pre k init a (locs p)) {msg : String}
    (hpanic : perform k init p a c.shared = .error (.panic msg)) : msg = "init exiting" := by
  cases a with
  | panic => exact hpre.elim
  | zombie =>
    simp only [perform] at hpanic
    split at hpanic
    · cases hpanic
      rfl
    · cases hpanic
  | kfree pa =>
    simp only [perform] at hpanic
    split at hpanic
    · rename_i hbad
      have hactive : (locs p).active = true := by
        by_contra hoff
        have hout := (howners.role p).out (Bool.not_eq_true _ ▸ hoff)
        rw [pre, hout] at hpre
        exact hpre rfl
      have hown : own p pa ≠ none := by rwa [(howners.role p).heap_eq hactive]
      have hvalid := hpages.valid pa (hpages.inside p pa hown)
      rcases hbad with hno | hno | hno
      · exact absurd hvalid.aligned hno
      · exact absurd hvalid.end_le (Nat.not_le.mpr hno)
      · exact absurd hvalid.lt_stop (Nat.not_lt.mpr hno)
    · cases hpanic
  | boot | enter | found | reap =>
    simp only [perform] at hpanic
    split at hpanic <;> cases hpanic
  | kalloc =>
    simp only [perform] at hpanic
    split at hpanic
    · cases hpanic
    · split at hpanic <;> cases hpanic
  | halt | load | store | zero | copy | proc | setProc | freed | start | unreap => cases hpanic

/-- Whichever of its `kalloc`s fail, a run leaves the address spaces as they should be and no page
without a use or with two. -/
theorem address_spaces_consistent [DecidableEq P] (hnodup : freelist.Nodup)
    (hvalid : ∀ a ∈ freelist, k.Valid a) (h : Reached k init mem freelist fails c) :
    Consistent k init (· ∈ freelist) c := by
  obtain ⟨locs, ⟨own, hpages, howners⟩, hkept⟩ := inv_of_reached hnodup hvalid h
  refine ⟨fun p hlive hrests v hv => ?_, fun p hlive hrests v hv level pte hleaf => ?_,
    fun p hlive hrests => ?_,
    fun p hlive hrests => ?_, fun p q hp hq hrp hrq v hv w hw a hpage hpage' =>
      page_once hpages howners hkept hp hq hrp hrq hv hw hpage hpage', fun hrests => ?_,
    fun p a hnext msg hpanic => panic_of_pre hpages howners (hkept.pre hnext) hpanic⟩
  · obtain ⟨place, hview⟩ := view_of_live hpages howners hkept hlive hrests
    exact hview.leaf_iff hv
  · obtain ⟨place, hview⟩ := view_of_live hpages howners hkept hlive hrests
    exact hview.level v level pte hv hleaf
  · obtain ⟨place, hview⟩ := view_of_live hpages howners hkept hlive hrests
    exact (hview.page _ _ (by decide)).mpr (.inr (.inl ⟨rfl, rfl⟩))
  · obtain ⟨place, hview⟩ := view_of_live hpages howners hkept hlive hrests
    exact (hview.page _ _ (by decide)).mpr (.inr (.inr ⟨rfl, rfl⟩))
  · have hsome : ∀ p, ∃ place, c.shared.Live p →
        View k c.shared.mem (own p) (c.shared.proc p) place := by
      intro p
      by_cases hlive : c.shared.Live p
      · obtain ⟨place, hview⟩ := view_of_live hpages howners hkept hlive (hrests p)
        exact ⟨place, fun _ => hview⟩
      · exact ⟨fun _ => none, fun hno => absurd hno hlive⟩
    choose place hviews using hsome
    have hdead : ∀ p, ¬c.shared.Live p → own p = fun _ => none := by
      intro p hno
      obtain ⟨hrun, hzombie⟩ := not_or.mp hno
      exact (howners.role p).none_of_dead (idle_of_rests hkept (hrests p)) hrun hzombie
    refine ⟨hpages.nodup, fun a => ⟨fun ha => ?_, fun u hu => uses_page hpages hviews hu⟩⟩
    obtain ⟨u, hu⟩ := uses_exists hpages hviews hdead ha
    exact ⟨u, hu, fun u' hu' => uses_unique hpages hviews hu' hu⟩

end Run

/-- A kernel and some memory above it. -/
def image : Image := ⟨0x80021000, 0x80007000, by decide, by decide, by decide⟩

def somePages : List Nat := (List.range 20).map fun i => 0x80021000 + i * PGSIZE

section Strict

variable {P : Type} [DecidableEq P]

/-- The number is computed before it is used, which is how runs are evaluated. -/
def strict {α : Type} (n : Nat) (f : Nat → α) : α :=
  match n with
  | 0 => f 0
  | m + 1 => f (m + 1)

def performStrict (k : Image) (init p : P) : (a : Act P) → Sys P → Except Stop (a.Reply × Sys P)
  | .load page i, s => strict (s.mem page i) fun pte => .ok (pte, s)
  | a, s => perform k init p a s

theorem performStrict_eq (k : Image) (init : P) : performStrict k init = perform k init := by
  funext p a s
  cases a with
  | load page i =>
    simp only [performStrict, strict, perform]
    cases s.mem page i with
    | zero | succ n => rfl
  | _ => rfl

/-- A run that ends with `p`. -/
theorem exists_reached (k : Image) (init : P) (mem : Nat → Words) (freelist : List Nat)
    (fails : Nat → Bool) (events : List (Event P (Call P)))
    (p : Config (Sys P) P (Act P) Act.Reply Int → Bool)
    (h : (follow (Config.step (performStrict k init) (Call.code k init))
      (fun c e => decide (c.Admits (fun _ _ _ => True) e))
      ⟨.boot mem freelist fails, fun _ => none⟩ events).any p =
        true) :
    ∃ c, Reached k init mem freelist fails c ∧ p c = true := by
  rw [performStrict_eq] at h
  exact exists_reach_of_follow _ _ _ events p h

end Strict

-- `init` forks twice; the second `kalloc` of the first `fork` fails.
theorem address_spaces_consistent_fork :
    ∃ c : Config (Sys Bool) Bool (Act Bool) Act.Reply Int,
      Reached image false (fun _ _ => 0) somePages (· == 8) c ∧ c.Quiescent ∧
      c.shared.life true = .running ∧
        Consistent image false (· ∈ somePages) c := by
  obtain ⟨c, hreach, hc⟩ := exists_reached image false (fun _ _ => 0) somePages (· == 8)
    ([.start false .userinit] ++ List.replicate 37 (.run false) ++
      [.start false (.fork (some true))] ++ List.replicate 12 (.run false) ++
      [.start false (.fork (some true))] ++ List.replicate 41 (.run false))
    (fun c => (c.jobs false).isNone && (c.jobs true).isNone && c.shared.life true == .running)
    (by decide +kernel)
  simp only [Bool.and_eq_true, isNone_iff_eq_none, beq_iff_eq] at hc
  have hvalid : ∀ a ∈ somePages, image.Valid a := by
    intro a ha
    obtain ⟨i, hi, rfl⟩ := List.mem_map.mp ha
    have hlt := List.mem_range.mp hi
    refine ⟨?_, ?_, ?_⟩
    · simp only [PGSIZE]
      omega
    · exact Nat.le_add_right ..
    · simp only [PHYSTOP, KERNBASE, PGSIZE]
      omega
  exact ⟨c, hreach, Bool.forall_bool.mpr hc.1, hc.2,
    address_spaces_consistent (by decide) hvalid hreach⟩

-- `init` has forked and is in `sbrk`, where the new page is mapped and the size not yet stored; the
-- trampoline is mapped in both processes.
theorem shared_trampoline_and_page_before_size :
    ∃ c : Config (Sys Bool) Bool (Act Bool) Act.Reply Int,
      Reached image false (fun _ _ => 0) somePages (fun _ => false) c ∧
        c.shared.life false = .running ∧ c.shared.life true = .running ∧
        (∃ a, c.shared.page false (TRAMPOLINE / PGSIZE) = some a ∧
          c.shared.page true (TRAMPOLINE / PGSIZE) = some a) ∧
        c.shared.leaf false 1 ≠ none ∧ PGROUNDUP (c.shared.proc false).sz = PGSIZE := by
  obtain ⟨c, hreach, hc⟩ := exists_reached image false (fun _ _ => 0) somePages (fun _ => false)
    ([.start false .userinit] ++ List.replicate 37 (.run false) ++
      [.start false (.fork (some true))] ++ List.replicate 41 (.run false) ++
      [.start false (.sbrk 4096)] ++ List.replicate 9 (.run false))
    (fun c => c.shared.life false == .running && c.shared.life true == .running &&
      c.shared.page false (TRAMPOLINE / PGSIZE) == some image.trampoline &&
      c.shared.page true (TRAMPOLINE / PGSIZE) == some image.trampoline &&
      (c.shared.leaf false 1).isSome && PGROUNDUP (c.shared.proc false).sz == PGSIZE)
      (by decide +kernel)
  simp only [Bool.and_eq_true, beq_iff_eq, isSome_iff_ne_none] at hc
  obtain ⟨⟨⟨⟨⟨hrun, hrun'⟩, hpage⟩, hpage'⟩, hleaf⟩, hsize⟩ := hc
  exact ⟨c, hreach, hrun, hrun', ⟨_, hpage, hpage'⟩, hleaf, hsize⟩

end OsProjects.Kernel.Vm
