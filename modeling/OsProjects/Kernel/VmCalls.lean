import OsProjects.Kernel.UserMemory

/-!
# VmCalls — the system calls keep the memory of a process in order
-/

namespace OsProjects.Kernel.Vm

open Lib Function Nat
open Discipline (keeps_bind)

variable {P α : Type} {k : Image} {init np : P} {l : Loc P} {F A : Heap Nat Idx Nat}
  {place : List Idx → Option Nat} {flags : Nat → Leaf} {top : Nat → Nat} {root va tf : Nat}
  {S : Nat → Prop}
  {x : Proc} {Q : Unit → Loc P → Prop} {image : Option (List (Option Proghdr))} {args : List Arg}
  {argv : List Nat}

/-! ## `uvmclear` and `loadseg` -/

theorem clear_user {a f : Nat} (ha : k.Valid a) (hf : f < 1024) :
    (PA2PTE a ||| f) &&& (WORD - 1 - PTE_U) = PA2PTE a ||| (f &&& 1007) := by
  have hlow : ∀ j < 10, Nat.testBit (WORD - 1 - PTE_U) j = Nat.testBit 1007 j := by decide
  have hhigh : ∀ j < 64, 10 ≤ j → Nat.testBit (WORD - 1 - PTE_U) j = true := by decide
  refine eq_of_testBit_eq fun j => ?_
  rw [testBit_and, testBit_or, testBit_or, testBit_and, PA2PTE, testBit_shiftLeft]
  by_cases hj : 10 ≤ j
  · have hfj : f.testBit j = false :=
      Nat.testBit_lt_two_pow (lt_of_lt_of_le hf (Nat.pow_le_pow_right Nat.two_pos hj))
    rw [hfj, Bool.false_and, Bool.or_false]
    by_cases hlt : j < 64
    · rw [hhigh j hlt hj, Bool.and_true]
    · have hbit : (a >>> 12).testBit (j - 10) = false := by
        refine Nat.testBit_lt_two_pow (lt_of_le_of_lt (shiftRight_le a 12) (ha.lt_stop.trans ?_))
        exact lt_of_lt_of_le (show PHYSTOP < 2 ^ 54 by decide)
          (Nat.pow_le_pow_right Nat.two_pos (by omega))
      rw [hbit, Bool.and_false, Bool.false_and]
  · have hshift : decide (10 ≤ j) = false := decide_eq_false hj
    simp only [ge_iff_le, hshift, Bool.false_and, Bool.false_or, hlow j (Nat.lt_of_not_le hj)]

/-- The flags without `PTE_U`. -/
def Leaf.clear (f : Leaf) : Leaf where
  val := f.val &&& 1007
  lt := lt_of_le_of_lt and_le_left f.lt
  valid := by
    rw [Nat.and_assoc]
    exact f.valid
  read := by
    rw [Nat.and_assoc]
    exact f.read

theorem keeps_uvmclear (hva : va < MAXVA) (h : Table k F l.heap place flags top root S)
    (hS : S (va / PGSIZE))
    (hQ : ∀ l' flags', l.Same l' → Table k F l'.heap place flags' top root S → Q () l') :
    (rules k init).Keeps (uvmclear root va) l Q := by
  obtain ⟨q, b, hq, hb⟩ := h.place_ne_none hva hS
  refine keeps_bind.mpr (keeps_walk hva h ?_)
  rw [hq]
  refine keeps_loadLeaf h hq fun t ht => keeps_store (x := pure) ht ?_
  rw [hb, word_leaf _ _ hva, clear_user (h.valid _ b hb) (flags _).lt]
  exact hQ _ _ ⟨rfl, rfl, rfl⟩ (h.setFlags hva hq ht hb (flags _).clear)

theorem keeps_walkaddr (hva : va < MAXVA) (h : Table k F l.heap place flags top root S)
    (hS : S (va / PGSIZE)) (huser : (flags (va / PGSIZE)).val &&& PTE_U ≠ 0)
    {Q : Nat → Loc P → Prop} (hQ : ∀ pa, pa ≠ 0 → Q pa l) :
    (rules k init).Keeps (walkaddr root va) l Q := by
  obtain ⟨q, b, hq, hb⟩ := h.place_ne_none hva hS
  have hvalid := h.valid _ b hb
  rw [walkaddr, if_neg (not_le.mpr hva)]
  refine keeps_bind.mpr (keeps_walk hva h ?_)
  rw [hq]
  refine keeps_loadLeaf h hq fun _ _ => ?_
  have hflag : ∀ m < 1024, (PA2PTE b ||| (flags (va / PGSIZE)).val) &&& m =
      (flags (va / PGSIZE)).val &&& m :=
    fun m hm => PA2PTE_or_and hm
  rw [hb, word_leaf _ _ hva, hflag PTE_V (by decide), hflag PTE_U (by decide),
    if_neg (flags _).valid, if_neg huser, hvalid.decode (flags _).lt]
  exact hQ b hvalid.ne_zero

theorem keeps_loadFrom {reads : Nat → Bool} {n i : Nat} (hva : va + (i + n) * PGSIZE ≤ MAXVA)
    (h : Table k F l.heap place flags top root S)
    (hS : ∀ j < n, S (va / PGSIZE + (i + j))) (huser : ∀ v, (flags v).val &&& PTE_U ≠ 0)
    {Q : Int → Loc P → Prop} (hQ : ∀ r, Q r l) :
    (rules k init).Keeps (loadFrom root va reads n i) l Q := by
  induction n generalizing i with
  | zero => exact hQ 0
  | succ n ih =>
    have hpage : (va + i * PGSIZE) / PGSIZE = va / PGSIZE + i := add_mul_div_right va i (by decide)
    refine keeps_bind.mpr (keeps_walkaddr ?_ h ?_ (huser _) fun pa hpa => ?_)
    · simp only [PGSIZE, MAXVA] at hva ⊢
      omega
    · rw [hpage]
      exact hS 0 (succ_pos n)
    · rw [if_neg hpa]
      split
      · refine ih (by rwa [add_right_comm, add_assoc]) fun j hj => ?_
        have hj' := hS (j + 1) (by omega)
        rwa [show i + (j + 1) = i + 1 + j by omega] at hj'
      · exact hQ (-1)

/-! ## `proc_pagetable` -/

def userLeaf : Leaf := ⟨PTE_R ||| PTE_U ||| PTE_V, by decide, by decide, by decide⟩

def rwLeaf : Leaf := ⟨PTE_R ||| PTE_U ||| PTE_W ||| PTE_V, by decide, by decide, by decide⟩

-- A page of zeros in the frame is a table that maps nothing.
theorem Table.create {heap : Heap Nat Idx Nat} {b : Nat} (hfree : heap b = none)
    (hvalid : k.Valid b) (flags : Nat → Leaf) :
    Table k heap (update heap b (some fun _ => 0)) (fun ρ => if ρ = [] then some b else none) flags
      (fun _ => 0) b fun v => v < npages 0 := by
  have hempty : ∀ i, 0 = word flags (fun _ => 0) [i] none := fun i => by simp only [word, ite_self]
  have hradix := Radix.plant (F := update heap b (some fun _ => 0)) (b := b)
    (update_self ..) hempty 2
  rw [update_gone hfree] at hradix
  refine ⟨hradix, if_pos rfl, fun ρ a hρ => ?_, fun ρ hρ => ?_, fun _ _ _ htop => absurd rfl htop,
    fun _ _ => rfl⟩
  · split at hρ
    · cases hρ
      exact hvalid
    · cases hρ
  · have hne : ρ ≠ [] := by
      rintro rfl
      cases hρ
    rw [if_neg hne, npages_zero]
    exact iff_of_false (fun hno => hno rfl) (not_lt_zero _)

theorem keeps_procPagetable (hactive : l.active = true) {Q : Nat → Loc P → Prop} (hnone : Q 0 l)
    (hsome : ∀ l' place root, l.Same l' → root ≠ 0 →
      UserTable k l.heap l'.heap place (fun _ => userLeaf) tf root (npages 0) → Q root l') :
    (rules k init).Keeps (procPagetable k tf) l Q := by
  -- a table that maps nothing is freed again
  have hundo : ∀ (l' : Loc P) place root, l.Same l' →
      Table k l.heap l'.heap place (fun _ => userLeaf) (fun _ => 0) root (fun v => v < npages 0) →
        (rules k init).Keeps (do uvmfree root 0; pure 0) l' Q := by
    intro l' place root hsame h'
    refine keeps_bind.mpr (keeps_uvmfree h' ?_)
    rwa [hsame.setHeap_eq]
  refine keeps_bind.mpr (keeps_zeroed hactive hnone fun root hvalid hfree => ?_)
  show (rules k init).Keeps (ite _ _ _) _ _
  rw [if_neg hvalid.ne_zero]
  have hnot : ∀ v, ¬v < npages 0 := fun v => npages_zero ▸ not_lt_zero v
  have hnew := Table.create hfree hvalid fun _ => userLeaf
  refine keeps_bind.mpr (keeps_mappages (by decide) (by decide) ?_ hnew ?_ rfl
    (fun l1 place1 hleaves1 h1 => ?_) fun l1 place1 q1 t1 hleaves1 h1 hq1 ht1 => ?_)
  · exact hactive
  · exact hnot _
  · exact hundo l1 place1 root hleaves1.of_setHeap h1
  have hsame1 : l.Same l1 := hleaves1.of_setHeap
  have h2 := h1.setTop (by decide) hq1 ht1 (hnot (TRAMPOLINE / PGSIZE))
    (PA2PTE k.trampoline ||| (PTE_R ||| PTE_X) ||| PTE_V)
  refine keeps_bind.mpr (keeps_mappages (by decide) (by decide) ?_ h2 ?_ ?_
    (fun l3 place3 hleaves3 h3 => ?_) fun l3 place3 q3 t3 hleaves3 h3 hq3 ht3 => ?_)
  · exact hsame1.active.trans hactive
  · exact hnot _
  · exact update_of_ne (by decide) ..
  · have htop : update (fun _ => 0) (TRAMPOLINE / PGSIZE)
        (PA2PTE k.trampoline ||| (PTE_R ||| PTE_X) ||| PTE_V) (TRAMPOLINE / PGSIZE) =
          PA2PTE k.trampoline ||| (PTE_R ||| PTE_X ||| PTE_V) := by
      rw [update_self, Nat.or_assoc]
    refine keeps_bind.mpr
      (keeps_uvmunmap_top (by decide) (by decide) h3 htop (by decide) (by decide)
      (by decide) fun l4 hsame4 h4 => ?_)
    rw [update_idem, update_eq_self (TRAMPOLINE / PGSIZE) fun _ => 0] at h4
    exact hundo l4 place3 root (hsame1.trans (hleaves3.of_setHeap.trans hsame4)) h4
  · have h4 := h3.setTop (by decide) hq3 ht3 (hnot (TRAPFRAME / PGSIZE))
      (PA2PTE tf ||| (PTE_R ||| PTE_W) ||| PTE_V)
    exact hsome _ place3 root
      ((hsame1.trans hleaves3.of_setHeap).trans ⟨rfl, rfl, rfl⟩) hvalid.ne_zero h4

/-! ## `allocproc` and `freeproc` -/

theorem keeps_freeproc (hslot : l.slot = some (np, x)) (hspace : Space k F l.heap x)
    (hpt : x.pagetable ≠ 0) (hQ : Q () ⟨l.active, F, l.self, none⟩) :
    (rules k init).Keeps (freeproc np) l Q := by
  obtain ⟨hF, htf, t, place, flags, h⟩ := hspace
  refine keeps_act ⟨x, hslot⟩ ?_
  rintro y l' ⟨hy, rfl⟩
  cases hslot.symm.trans hy
  rw [if_pos htf.ne_zero]
  refine keeps_kfree h hF fun l1 hsame1 h1 => ?_
  refine keeps_act ⟨x, hsame1.slot.trans hslot⟩ ?_
  rintro - l2 rfl
  rw [if_pos hpt]
  refine keeps_bind.mpr
    (keeps_procFreepagetable (l := { l1 with slot := some (np, { x with trapframe := 0 }) }) h1 ?_)
  refine keeps_act ⟨_, rfl⟩ ?_
  rintro - l3 rfl
  refine ⟨rfl, ?_⟩
  rintro - l4 rfl
  have heq : (⟨l1.active, F, l1.self, none⟩ : Loc P) = ⟨l'.active, F, l'.self, none⟩ := by
    rw [hsame1.active, hsame1.self]
  exact heq ▸ hQ

-- `allocproc` has not got as far as the page table.
theorem keeps_freeproc_early (hslot : l.slot = some (np, ⟨0, 0, tf⟩))
    (htf : tf ≠ 0 → F tf = none ∧ ∃ t, l.heap = update F tf (some t)) (hzero : tf = 0 → l.heap = F)
    (hQ : Q () ⟨l.active, F, l.self, none⟩) : (rules k init).Keeps (freeproc np) l Q := by
  have hend : ∀ l' : Loc P, (∃ x, l'.slot = some (np, x)) → l'.heap = F → l'.active = l.active →
      l'.self = l.self → (rules k init).Keeps (do
        act (.setProc (some np) ⟨0, 0, 0⟩)
        act (.setProc (some np) .zero)
        act (.freed np)) l' Q := by
    intro l' hslot' hheap hactive hself
    refine keeps_act hslot' ?_
    rintro - l2 rfl
    refine keeps_act ⟨_, rfl⟩ ?_
    rintro - l3 rfl
    refine ⟨rfl, ?_⟩
    rintro - l4 rfl
    simp only [hheap, hactive, hself]
    exact hQ
  refine keeps_act ⟨_, hslot⟩ ?_
  rintro y l' ⟨hy, rfl⟩
  cases hslot.symm.trans hy
  by_cases hnull : tf = 0
  · simp only [hnull, ne_eq, not_true_eq_false, if_false]
    exact hend l' ⟨_, hslot⟩ (hzero hnull) rfl rfl
  · obtain ⟨hF, t, hheap⟩ := htf hnull
    simp only [hnull, ne_eq, not_true_eq_false, not_false_eq_true, if_true, if_false]
    refine keeps_act ?_ ?_
    · simp [pre, hheap]
    rintro - l1 rfl
    refine hend _ ⟨_, hslot⟩ ?_ rfl rfl
    show update l'.heap tf none = F
    rw [hheap, update_gone hF]

theorem keeps_allocproc (hactive : l.active = true) (hslot : l.slot = none)
    {Q : Bool → Loc P → Prop} (hnone : Q false l)
    (hsome : ∀ l' x, l'.active = true → l'.self = l.self → l'.slot = some (np, x) → x.sz = 0 →
      x.pagetable ≠ 0 → Space k l.heap l'.heap x → Q true l') :
    (rules k init).Keeps (allocproc k np) l Q := by
  have hback : (⟨l.active, l.heap, l.self, none⟩ : Loc P) = l := by rw [← hslot]
  rw [← hback] at hnone
  refine keeps_act ⟨hactive, hslot⟩ ?_
  rintro - l1 rfl
  refine keeps_act ⟨_, rfl⟩ ?_
  rintro y l2 ⟨hy, rfl⟩
  cases hy
  refine keeps_act hactive ?_
  rintro tf l3 (⟨rfl, rfl⟩ | ⟨hvalid, hfree, u, rfl⟩)
  · refine keeps_act ⟨_, rfl⟩ ?_
    rintro - l4 rfl
    exact keeps_bind.mpr (keeps_freeproc_early rfl (fun hno => absurd rfl hno) (fun _ => rfl) hnone)
  · refine keeps_act ⟨_, rfl⟩ ?_
    rintro - l4 rfl
    rw [if_neg hvalid.ne_zero]
    refine keeps_bind.mpr (keeps_procPagetable ?_ ?_ fun l5 place root hsame h hroot => ?_)
    · exact hactive
    · refine keeps_act ⟨_, rfl⟩ ?_
      rintro - l5 rfl
      exact keeps_bind.mpr (keeps_freeproc_early rfl (fun _ => ⟨hfree, u, rfl⟩)
        (fun hno => absurd hno hvalid.ne_zero) hnone)
    · refine keeps_act ⟨_, hsame.slot⟩ ?_
      rintro - l6 rfl
      rw [if_neg h]
      exact hsome _ _ (hsame.active.trans hactive) hsame.self rfl rfl h
        ⟨hfree, hvalid, u, place, fun _ => userLeaf, hroot⟩

/-! ## `userinit`, `sbrk`, `fork`, `exit` and `wait` -/

section

variable (hactive : l.active = true)
include hactive

theorem keeps_userinit (hself : l.self = none) (hslot : l.slot = none)
    (hheap : l.heap = fun _ => none) (hQ : Q () .out) :
    (rules k init).Keeps (userinit k init) l Q := by
  have hhalt : ∀ l' : Loc P, (rules k init).Keeps halt l' Q := fun _ => ⟨trivial, nofun⟩
  refine keeps_bind.mpr (keeps_allocproc hactive hslot (hhalt l)
    fun l1 x hactive1 hself1 hslot1 hsz hpt hspace => ?_)
  obtain ⟨hF, htf, t, place, flags, h⟩ := hspace
  refine keeps_act ⟨x, hslot1⟩ ?_
  rintro y l2 ⟨hy, rfl⟩
  cases hslot1.symm.trans hy
  refine keeps_zeroed hactive1 (hhalt l2) fun b hvalid hfree => ?_
  rw [hsz, npages_zero] at h
  refine keeps_bind.mpr (keeps_mapNew (a := 0)
    (f := ⟨PTE_W ||| PTE_R ||| PTE_X ||| PTE_U ||| PTE_V, by decide, by decide, by decide⟩) rfl
    hactive1 (by decide) h hfree hvalid _ (fun l3 _ _ _ _ => hhalt l3)
    fun l3 place3 hleaves3 h3 _ _ => ?_)
  rw [show 0 + 1 = npages PGSIZE by decide] at h3
  have hself3 : l3.self = none := hleaves3.self.trans (hself1.trans hself)
  refine keeps_act ⟨x, hleaves3.slot.trans hslot1⟩ ?_
  rintro - l4 rfl
  refine ⟨⟨{ x with sz := PGSIZE }, l.heap, rfl, ⟨hF, htf, t, place3, _, h3⟩, ?_⟩,
    fun _ l5 hpost => ?_⟩
  · simp only [hself3]
    exact ⟨trivial, hheap⟩
  · simp only [rules, post, hself3] at hpost
    exact hpost ▸ hQ

/-- The size of a process after a `growproc` that reports success. -/
def Proc.grown (x : Proc) (n : Int) : Nat :=
  if n > 0 then max x.sz ((x.sz + n) % WORD).toNat
  else if n < 0 then min x.sz ((x.sz + n) % WORD).toNat
  else x.sz

theorem keeps_growproc {n : Int} (hself : l.self = some x)
    (h : UserTable k F l.heap place flags x.trapframe x.pagetable (npages x.sz))
    {Q : Int → Loc P → Prop}
    (hnone : ∀ l' place' flags', Leaves (· < npages x.sz) l place flags l' place' flags' →
      UserTable k F l'.heap place' flags' x.trapframe x.pagetable (npages x.sz) → Q (-1) l')
    (hsome : ∀ l' place' flags', l'.active = l.active → l'.self = some { x with sz := x.grown n } →
      l'.slot = l.slot → Zeroed (npages x.sz) (npages (x.grown n)) l'.heap place' →
      UserTable k F l'.heap place' flags' x.trapframe x.pagetable (npages (x.grown n)) →
      Q 0 l') :
    (rules k init).Keeps (growproc n) l Q := by
  -- the size is stored when the memory is there
  have hstore : ∀ (l' : Loc P) place' flags' sz, l.Same l' → sz = x.grown n →
      Zeroed (npages x.sz) (npages sz) l'.heap place' →
      UserTable k F l'.heap place' flags' x.trapframe x.pagetable (npages sz) →
      (rules k init).Keeps (do act (.setProc none { x with sz := sz }); pure 0) l' Q := by
    rintro l' place' flags' sz hsame rfl hzeros h'
    refine keeps_act (by simp [pre, hsame.self, hself]) ?_
    rintro - l1 rfl
    exact hsome _ place' flags' hsame.active rfl hsame.slot hzeros h'
  have hempty : ∀ {a m} {heap : Heap Nat Idx Nat}, m ≤ a → Zeroed a m heap place :=
    fun hle v hv hlt => absurd (lt_of_le_of_lt hv hlt) (not_lt.mpr hle)
  refine keeps_act (by simp [pre, hself]) ?_
  rintro y l' ⟨hy, rfl⟩
  cases hself.symm.trans hy
  by_cases hpos : n > 0
  · have hgrown : x.grown n = max x.sz ((x.sz + n) % WORD).toNat := if_pos hpos
    simp only [hpos, if_true]
    refine keeps_bind.mpr (keeps_uvmalloc (f := rwLeaf) rfl (by decide) hactive h
      (fun l1 place1 flags1 hleaves1 _ => hnone l1 place1 flags1 hleaves1)
      fun l1 place1 flags1 r hleaves1 _ hr h1 hzeros => ?_)
    by_cases hzero : r = 0
    · have hsz : r = x.sz := by omega
      rw [if_pos hzero]
      exact hnone l1 place1 flags1 hleaves1 (hsz ▸ h1)
    · rw [if_neg hzero]
      exact hstore l1 place1 flags1 r hleaves1.toSame (hr.trans hgrown.symm) hzeros h1
  · by_cases hneg : n < 0
    · have hgrown : x.grown n = min x.sz ((x.sz + n) % WORD).toNat :=
        (if_neg hpos).trans (if_pos hneg)
      simp only [hpos, hneg, if_true, if_false]
      refine keeps_bind.mpr (keeps_uvmdealloc h fun l1 place1 r hleaves1 hr h1 =>
        hstore l1 place1 flags r hleaves1.toSame (hr.trans hgrown.symm) ?_ h1)
      exact fun v hv hlt =>
        absurd (lt_of_le_of_lt hv hlt) (not_lt.mpr (npages_mono (hr ▸ Nat.min_le_left ..)))
    · have hgrown : x.grown n = x.sz := (if_neg hpos).trans (if_neg hneg)
      simp only [hpos, hneg, if_false]
      refine hsome l' place flags rfl ?_ rfl (hempty (by rw [hgrown])) ?_
      · rw [hgrown, hself]
      · rwa [hgrown]

variable (hidle : l.Idle k)
include hidle

theorem keeps_sysSbrk {n : Int} : (rules k init).Keeps (sysSbrk n) l fun _ => Loc.Idle k := by
  have hslot := hidle.slot
  obtain ⟨x, hself, hF, htf, t, place, flags, h⟩ := hidle.space hactive
  refine keeps_act (by simp [pre, hself]) ?_
  rintro y l' ⟨-, rfl⟩
  refine keeps_bind.mpr (keeps_growproc hactive hself h (fun l1 place1 flags1 hleaves1 h1 => ?_)
    fun l1 place1 flags1 _ hself1 hslot1 _ h1 => ?_)
  · exact ⟨hleaves1.slot.trans hslot,
      fun _ => ⟨x, hleaves1.self.trans hself, hF, htf, t, place1, flags1, h1⟩⟩
  · exact ⟨hslot1.trans hslot, fun _ => ⟨_, hself1, hF, htf, t, place1, flags1, h1⟩⟩

theorem keeps_fork {slot : Option P} :
    (rules k init).Keeps (fork k slot) l fun _ => Loc.Idle k := by
  obtain ⟨x, hself, hspace⟩ := hidle.space hactive
  cases slot with
  | none => exact hidle
  | some np =>
    refine keeps_bind.mpr (keeps_allocproc hactive hidle.slot hidle
      fun l1 y hactive1 hself1 hslot1 hsz hpt hchild => ?_)
    have hself1' : l1.self = some x := hself1.trans hself
    refine keeps_act (by simp [pre, hself1']) ?_
    rintro x' l2 ⟨hx', rfl⟩
    cases hself1'.symm.trans hx'
    refine keeps_act ⟨y, hslot1⟩ ?_
    rintro y' l2 ⟨hy', rfl⟩
    cases hslot1.symm.trans hy'
    obtain ⟨hF, htf, t, place, flags, h⟩ := hchild
    have hown := hspace
    obtain ⟨-, -, t0, place0, flags0, hold⟩ := hspace
    -- the parent's table, with the trapframe of the child beside it
    have hold' := hold.outer (hold.radix.not_place_of_free hF) (some t)
    have hcopy : (rules k init).Keeps
        (copyFrom x.pagetable y.pagetable (npages x.sz) (0 * PGSIZE)) l2 fun r l' =>
        l2.Same l' ∧ ((r = -1 ∧ Space k l.heap l'.heap y) ∨
          (r = 0 ∧ Space k l.heap l'.heap { y with sz := x.sz })) := by
      rw [hsz, npages_zero] at h
      refine keeps_copyFrom hactive1 (le_of_eq (zero_add _)) hold' h
        (fun l' place' flags' hsame h' => ⟨hsame, .inl ⟨rfl, hF, htf, t, place', flags', ?_⟩⟩)
        fun l' place' flags' hsame h' => ⟨hsame, .inr ⟨rfl, hF, htf, t, place', flags', ?_⟩⟩
      · rwa [hsz]
      · rwa [zero_add] at h'
    refine keeps_bind.mpr (hcopy.mono ?_)
    rintro r l3 ⟨hsame3, ⟨rfl, hchild3⟩ | ⟨rfl, hchild3⟩⟩
    · refine keeps_bind.mpr (keeps_freeproc (hsame3.slot.trans hslot1) hchild3 hpt ?_)
      refine ⟨rfl, fun _ => ⟨x, ?_, hown⟩⟩
      exact hsame3.self.trans hself1'
    · refine keeps_act ⟨y, hsame3.slot.trans hslot1⟩ ?_
      rintro - l4 rfl
      have hself3 : l3.self = some x := hsame3.self.trans hself1'
      refine keeps_act ⟨{ y with sz := x.sz }, l.heap, rfl, hchild3, ?_⟩ ?_
      · simp only [hself3]
        exact hown
      · intro _ l5 hpost
        simp only [post, hself3] at hpost
        obtain ⟨F, hF', rfl⟩ := hpost
        exact ⟨rfl, fun _ => ⟨x, rfl, hF'⟩⟩

theorem keeps_exit : (rules k init).Keeps exit l fun _ => Loc.Idle k := by
  refine keeps_act ⟨hidle, hactive⟩ ?_
  rintro - l' rfl
  exact ⟨rfl, nofun⟩

theorem keeps_wait {q : P} {copied : Bool} :
    (rules k init).Keeps (wait q copied) l fun _ => Loc.Idle k := by
  obtain ⟨x, hself, hspace⟩ := hidle.space hactive
  refine keeps_act ⟨hidle, hactive⟩ ?_
  rintro - l1 ⟨y, heap, hpt, hzombie, rfl⟩
  cases copied with
  | true =>
    refine keeps_bind.mpr (keeps_freeproc rfl hzombie hpt ?_)
    exact ⟨rfl, fun _ => ⟨x, hself, hspace⟩⟩
  | false =>
    refine keeps_act ⟨y, l.heap, x, rfl, hzombie, hself, hspace⟩ ?_
    rintro - l2 ⟨y', F, hF, -, rfl⟩
    exact ⟨rfl, fun _ => ⟨y', rfl, hF⟩⟩

end

/-! ## `exec` -/

theorem flags2perm_leaf (f : Nat) :
    ∃ g : Leaf, PTE_R ||| PTE_U ||| flags2perm f ||| PTE_V = g.val ∧ g.val &&& PTE_U ≠ 0 := by
  unfold flags2perm
  split <;> split <;> exact ⟨⟨_, by decide, by decide, by decide⟩, rfl, by decide⟩

theorem Extends.user {flags' : Nat → Leaf} (h : Extends flags flags')
    (huser : ∀ v, (flags v).val &&& PTE_U ≠ 0) (v : Nat) : (flags' v).val &&& PTE_U ≠ 0 := by
  rcases h v with heq | hnew
  · rw [heq]
    exact huser v
  · exact hnew

-- The segments are loaded as far as possible; the induction is on the program headers.
theorem keeps_loadAll {phs : List (Option Proghdr)} {sz : Nat} (hactive : l.active = true)
    (huser : ∀ v, (flags v).val &&& PTE_U ≠ 0)
    (h : UserTable k F l.heap place flags tf root (npages sz)) {Q : Bool × Nat → Loc P → Prop}
    (hQ : ∀ r l' place' flags', l.Same l' →
      UserTable k F l'.heap place' flags' tf root (npages r.2) → Q r l') :
    (rules k init).Keeps (loadAll root phs sz) l Q := by
  induction phs generalizing sz l place flags with
  | nil => exact hQ (true, sz) l place flags (.refl l) h
  | cons ph phs ih =>
    cases ph with
    | none => exact hQ (false, sz) l place flags (.refl l) h
    | some ph =>
      have hbad := hQ (false, sz) l place flags (.refl l) h
      unfold loadAll
      split
      · exact ih hactive huser h hQ
      by_cases hmem : ph.memsz < ph.filesz
      · rwa [if_pos hmem]
      rw [if_neg hmem]
      by_cases hwrap : ph.vaddr + ph.memsz < ph.vaddr
      · rwa [if_pos hwrap]
      rw [if_neg hwrap]
      by_cases haligned : ph.vaddr.toNat % PGSIZE ≠ 0
      · rwa [if_pos haligned]
      rw [if_neg haligned]
      obtain ⟨g, hg, hgu⟩ := flags2perm_leaf ph.flags
      refine keeps_bind.mpr (keeps_uvmalloc hg hgu hactive h
        (fun l1 place1 flags1 hleaves1 _ => hQ (false, sz) l1 place1 flags1 hleaves1.toSame)
        fun l1 place1 flags1 r hleaves1 hext hr h1 _ => ?_)
      have hsame1 := hleaves1.toSame
      by_cases hzero : r = 0
      · have hsz : sz = 0 := by
          omega
        rw [if_pos hzero]
        refine hQ (false, sz) l1 place1 flags1 hsame1 ?_
        rwa [hzero, ← hsz] at h1
      rw [if_neg hzero]
      have huser1 := hext.user huser
      have hcount := h1.count_le (n := npages r) fun _ hv => hv
      -- the file's part of the segment is mapped
      have hsum : (ph.vaddr + ph.memsz).toNat = ph.vaddr.toNat + ph.memsz.toNat := by
        rw [BitVec.lt_def, BitVec.toNat_add] at hwrap
        rw [BitVec.toNat_add]
        omega
      rw [BitVec.lt_def] at hmem
      refine keeps_bind.mpr (keeps_loadFrom ?_ h1 (fun j hj => ?_) huser1 fun ret => ?_)
      · unfold npages at hcount
        simp only [PHYSTOP, KERNBASE, PGSIZE, MAXVA] at hcount ⊢
        omega
      · unfold npages
        simp only [PGSIZE] at haligned hj ⊢
        omega
      · split
        · exact hQ (false, r) l1 place1 flags1 hsame1 h1
        · refine ih (hsame1.active.trans hactive) huser1 h1 fun r' l2 place2 flags2 hsame2 h2 => ?_
          exact hQ r' l2 place2 flags2 (hsame1.trans hsame2) h2

/-- The process has another address space in the end, or the old one; what else it has stays. -/
theorem keeps_exec {fits : Bool}
    (hactive : l.active = true) (hself : l.self = some x) (hspace : Space k A l.heap x)
    {Q : Int → Loc P → Prop} (hQ : ∀ r l' x', l'.active = true → l'.self = some x' →
      l'.slot = l.slot → Space k A l'.heap x' → Q r l') :
    (rules k init).Keeps (exec k image fits) l Q := by
  have hback := hQ (-1) l x hactive hself rfl hspace
  -- the new table is freed again
  have hundo : ∀ (l' : Loc P) place flags root sz, l.Same l' →
      UserTable k l.heap l'.heap place flags x.trapframe root (npages sz) →
        (rules k init).Keeps (do procFreepagetable root sz; pure (-1)) l' Q := by
    intro l' place flags root sz hsame h'
    refine keeps_bind.mpr (keeps_procFreepagetable h' ?_)
    rwa [hsame.setHeap_eq]
  cases image with
  | none => exact hback
  | some phs =>
    refine keeps_act (by simp [pre, hself]) ?_
    rintro x' l' ⟨hx', rfl⟩
    cases hself.symm.trans hx'
    refine keeps_bind.mpr
      (keeps_procPagetable hactive hback fun l1 place1 root hsame1 hroot h1 => ?_)
    rw [if_neg hroot]
    refine keeps_bind.mpr (keeps_loadAll (hsame1.active.trans hactive) (fun _ => by decide) h1 ?_)
    rintro ⟨ok, sz⟩ l2 place2 flags2 hsame2 h2
    have hsame2 := hsame1.trans hsame2
    cases ok with
    | false => exact hundo l2 place2 flags2 root sz hsame2 h2
    | true =>
      have hcount := h2.count_le (n := npages sz) fun _ hv => hv
      have hround : PGROUNDUP sz = npages sz * PGSIZE := PGROUNDUP_eq hcount
      rw [← npages_mul (npages sz)] at h2
      simp only [Bool.not_true, Bool.false_eq_true, if_false, hround]
      refine keeps_bind.mpr (keeps_uvmalloc (f := rwLeaf) rfl (by decide)
        (hsame2.active.trans hactive) h2
        (fun l3 place3 flags3 hleaves3 _ =>
          hundo l3 place3 flags3 root _ (hsame2.trans hleaves3.toSame))
        fun l3 place3 flags3 r hleaves3 _ hr h3 _ => ?_)
      have hsame3 := hsame2.trans hleaves3.toSame
      have hsize : r = npages sz * PGSIZE + (USERSTACK + 1) * PGSIZE := by
        rw [hr]
        simp only [PHYSTOP, KERNBASE, PGSIZE, USERSTACK, WORD] at hcount ⊢
        omega
      have hne : r ≠ 0 := by
        rw [hsize]
        simp only [PGSIZE, USERSTACK]
        omega
      rw [if_neg hne]
      have hguard : r - (USERSTACK + 1) * PGSIZE = npages sz * PGSIZE := by omega
      rw [hguard]
      refine keeps_bind.mpr (keeps_uvmclear ?_ h3 ?_ fun l4 flags4 hsame4 h4 => ?_)
      · simp only [PHYSTOP, KERNBASE, PGSIZE, MAXVA] at hcount ⊢
        omega
      · rw [Nat.mul_div_cancel _ (by decide), hsize]
        unfold npages
        simp only [PGSIZE, USERSTACK]
        omega
      have hsame4 := hsame3.trans hsame4
      cases fits with
      | false => exact hundo l4 place3 flags4 root r hsame4 h4
      | true =>
        refine keeps_act ?_ ?_
        · simp [pre, hsame4.self, hself]
        rintro - l5 rfl
        obtain ⟨hA, htf, t0, place0, flags0, h0⟩ := hspace
        obtain ⟨F', hnew, hold⟩ := h0.swap h4
        refine keeps_bind.mpr (keeps_procFreepagetable
          (l := { l4 with self := some { x with pagetable := root, sz := r } }) hold ?_)
        exact hQ 0 _ _ (hsame4.active.trans hactive) rfl hsame4.slot
          ⟨hA, htf, t0, place3, flags4, hnew⟩

/-! ## `sys_exec` -/

section Space

variable {heap : Heap Nat Idx Nat} {b : Nat}

theorem Space.heap_of_frame (h : Space k F heap x) (hb : F b ≠ none) : heap b = F b := by
  obtain ⟨hF, -, t, place, flags, h⟩ := h
  have hne : b ≠ x.trapframe := by
    rintro rfl
    exact hb hF
  have hframe : update F x.trapframe (some t) b = F b := update_of_ne hne ..
  rw [← hframe] at hb ⊢
  exact h.radix.heap_of_frame hb

/-- Something comes into the frame, or leaves it. -/
theorem Space.outer (h : Space k F heap x) (hb : F b ≠ none ∨ heap b = none) (u : Option Words) :
    Space k (update F b u) (update heap b u) x := by
  obtain ⟨hF, htf, t, place, flags, h⟩ := h
  have htrap : update F x.trapframe (some t) x.trapframe = some t := update_self ..
  have hheap : heap x.trapframe = some t :=
    (h.radix.heap_of_frame (by rw [htrap]; nofun)).trans htrap
  have hne : b ≠ x.trapframe := by
    rintro rfl
    rcases hb with hb | hb
    · exact hb hF
    · cases hheap.symm.trans hb
  have hnot : ∀ ρ, place ρ ≠ some b := by
    rcases hb with hb | hb
    · exact h.radix.not_place_of_frame (by rwa [update_of_ne hne])
    · exact h.radix.not_place_of_free hb
  refine ⟨(update_of_ne hne.symm ..).trans hF, htf, t, place, flags, ?_⟩
  rw [update_comm hne]
  exact h.outer hnot u

end Space

/-- The pages of `argv`. -/
def Args (A : Heap Nat Idx Nat) (argv : List Nat) : Prop := argv.Nodup ∧ ∀ a, A a ≠ none ↔ a ∈ argv

theorem keeps_fetchArgs (hactive : l.active = true)
    (hargs : Args A argv) (hspace : Space k A l.heap x) {Q : Bool × List Nat → Loc P → Prop}
    (hQ : ∀ ok argv' l' A', l.Same l' → Args A' argv' → Space k A' l'.heap x → Q (ok, argv') l') :
    (rules k init).Keeps (fetchArgs args argv) l Q := by
  induction args generalizing l A argv with
  | nil =>
    unfold fetchArgs
    split
    · exact hQ _ _ l A (.refl l) hargs hspace
    · exact hQ _ _ l A (.refl l) hargs hspace
  | cons arg args ih =>
    -- the page for the next argument
    have hpage : (rules k init).Keeps (do
        let mem ← act .kalloc
        if mem = 0 then pure (false, argv)
        else if arg = .noString then pure (false, argv ++ [mem])
        else fetchArgs args (argv ++ [mem])) l Q := by
      refine keeps_act hactive ?_
      rintro b l' (⟨rfl, rfl⟩ | ⟨hvalid, hfree, u, rfl⟩)
      · exact hQ _ _ l' A (.refl l') hargs hspace
      have hA : A b = none := by
        by_contra hb
        exact hb ((hspace.heap_of_frame hb).symm.trans hfree)
      have hargs' : Args (update A b (some u)) (argv ++ [b]) := by
        refine ⟨?_, fun a => ?_⟩
        · refine List.nodup_append.mpr ⟨hargs.1, List.nodup_singleton b, ?_⟩
          intro c hc d hd heq
          cases List.mem_singleton.mp hd
          exact (hargs.2 c).mpr hc (heq ▸ hA)
        · by_cases hab : a = b
          · simp [hab]
          · simp [hab, hargs.2 a]
      have hspace' := hspace.outer (.inr hfree) (some u)
      rw [if_neg hvalid.ne_zero]
      split
      · exact hQ _ _ _ _ ⟨rfl, rfl, rfl⟩ hargs' hspace'
      · refine ih ?_ hargs' hspace' fun ok argv' l' A' hsame => hQ ok argv' l' A' hsame.of_setHeap
        exact hactive
    unfold fetchArgs
    split
    · exact hQ _ _ l A (.refl l) hargs hspace
    · cases arg with
      | noAddr => exact hQ _ _ l A (.refl l) hargs hspace
      | noString | string => exact hpage

theorem keeps_freeArgs (hargs : Args A argv) (hspace : Space k A l.heap x)
    (hQ : ∀ l', l.Same l' → Space k (fun _ => none) l'.heap x → Q () l') :
    (rules k init).Keeps (freeArgs argv) l Q := by
  induction argv generalizing l A with
  | nil =>
    have hA : A = fun _ => none := by
      funext a
      by_contra hne
      exact List.not_mem_nil ((hargs.2 a).mp hne)
    exact hQ l (.refl l) (hA ▸ hspace)
  | cons b argv ih =>
    obtain ⟨hnodup, hmem⟩ := hargs
    have hA : A b ≠ none := (hmem b).mpr List.mem_cons_self
    refine keeps_act ?_ ?_
    · rwa [pre, hspace.heap_of_frame hA]
    rintro - l' rfl
    refine ih ⟨hnodup.of_cons, fun a => ?_⟩ (hspace.outer (.inl hA) none) fun l' hsame =>
      hQ l' hsame.of_setHeap
    by_cases hab : a = b
    · simp [hab, (List.nodup_cons.mp hnodup).1]
    · simp [hab, hmem a]

theorem keeps_sysExec {fits : Bool} (hactive : l.active = true) (hidle : l.Idle k) :
    (rules k init).Keeps (sysExec k args image fits) l fun _ => Loc.Idle k := by
  obtain ⟨x, hself, hspace⟩ := hidle.space hactive
  have hnil : Args (fun _ => none) [] := ⟨List.nodup_nil, fun _ => by simp⟩
  -- the arguments are freed in the end
  have hfree : ∀ (l' : Loc P) A argv x' (r : Int), l'.self = some x' → l'.slot = none →
      Args A argv →
      Space k A l'.heap x' → (rules k init).Keeps (do freeArgs argv; pure r) l' fun _ =>
        Loc.Idle k := by
    intro l' A argv x' r hself' hslot' hargs hspace'
    exact keeps_bind.mpr (keeps_freeArgs hargs hspace' fun l'' hsame hspace'' =>
      ⟨hsame.slot.trans hslot', fun _ => ⟨x', hsame.self.trans hself', hspace''⟩⟩)
  refine keeps_bind.mpr (keeps_fetchArgs hactive hnil hspace fun ok argv l1 A hsame hargs h1 => ?_)
  have hself1 := hsame.self.trans hself
  have hslot1 := hsame.slot.trans hidle.slot
  cases ok with
  | false => exact hfree l1 A argv x (-1) hself1 hslot1 hargs h1
  | true =>
    exact keeps_bind.mpr (keeps_exec (hsame.active.trans hactive) hself1 h1
      fun r l2 x2 _ hself2 hslot2 h2 => hfree l2 A argv x2 r hself2 (hslot2.trans hslot1) hargs h2)

theorem keeps_enter {x : Unit → Code P α} {Q : α → Loc P → Prop} (hidle : l.Idle k)
    (hx : ∀ l', l'.active = true → l'.Idle k → (rules k init).Keeps (x ()) l' Q) :
    (rules k init).Keeps (act .enter >>= x) l Q := by
  refine keeps_act hidle ?_
  rintro - l' ⟨heap, y, hspace, rfl⟩
  exact hx _ rfl ⟨rfl, fun _ => ⟨y, rfl, hspace⟩⟩

/-- Every call keeps to the rules. -/
theorem keeps_code (c : Call P) (l : Loc P) (hidle : l.Idle k) :
    (rules k init).Keeps (c.code k init) l fun _ => Loc.Idle k := by
  cases c with
  | userinit =>
    refine keeps_act hidle ?_
    rintro - l' rfl
    exact keeps_bind.mpr (keeps_userinit rfl rfl rfl rfl ⟨rfl, nofun⟩)
  | sbrk n => exact keeps_enter hidle fun _ hactive hidle => keeps_sysSbrk hactive hidle
  | fork slot => exact keeps_enter hidle fun _ hactive hidle => keeps_fork hactive hidle
  | exec args image fits => exact keeps_enter hidle fun _ => keeps_sysExec
  | exit => exact keeps_enter hidle fun _ => keeps_exit
  | wait q copied => exact keeps_enter hidle fun _ hactive hidle => keeps_wait hactive hidle

end OsProjects.Kernel.Vm
