import OsProjects.Kernel.VmRules

/-!
# UserMemory — growing, copying and freeing the memory of a process
-/

namespace OsProjects.Kernel.Vm

open Lib Function Nat
open Discipline (keeps_bind)

variable {P α : Type} {k : Image} {init : P} {l : Loc P} {F : Heap Nat Idx Nat}
  {place : List Idx → Option Nat} {flags flags₀ : Nat → Leaf} {top : Nat → Nat} {root va tf : Nat}
  {S : Nat → Prop} {Q : Unit → Loc P → Prop} {w : List Idx → Option Nat → Nat} {f : Leaf}

/-! ## `freewalk` -/

theorem place_below_none {D : Nat} {heap : Heap Nat Idx Nat} {i : Idx}
    (h : Radix D w F heap place) (hnone : place [i] = none) (ρ : List Idx) :
    place (ρ ++ [i]) = none := by
  induction ρ with
  | nil => exact hnone
  | cons j ρ ih => exact h.parent j (ρ ++ [i]) ih

/-- A tree of tables without leaves, as `freewalk` needs it. -/
structure Bare (k : Image) (D : Nat) (w : List Idx → Option Nat → Nat) (F heap : Heap Nat Idx Nat)
    (place : List Idx → Option Nat) (root : Nat) : Prop where
  radix : Radix D w F heap place
  root : place [] = some root
  valid : ∀ ρ a, place ρ = some a → k.Valid a
  leaf : ∀ ρ, ρ.length = D → place ρ = none
  empty : ∀ ρ, ρ ≠ [] → w ρ none = 0
  table : ∀ ρ a, ρ ≠ [] → ρ.length < D → w ρ (some a) = PA2PTE a ||| PTE_V

-- The entries `is` of a table are cleared; `hbelow` is for what is below them.
theorem keeps_freeEntries {D : Nat} {below : Nat → Code P Unit}
    (hbelow : ∀ (i : Idx) (a : Nat) (G : Heap Nat Idx Nat) (l : Loc P)
      (place : List Idx → Option Nat) (Q : Unit → Loc P → Prop),
      Bare k D (fun ρ => w (ρ ++ [i])) G l.heap (fun ρ => place (ρ ++ [i])) a → Q () (l.setHeap G) →
        (rules k init).Keeps (below a) l Q)
    (is : List Idx) (h : Bare k (D + 1) w F l.heap place root)
    (hQ : ∀ l' place', l.Same l' → Bare k (D + 1) w F l'.heap place' root →
      (∀ ρ a, place' ρ = some a → place ρ = some a ∧ ∀ i ∈ is, ρ.getLast? ≠ some i) → Q () l') :
    (rules k init).Keeps (freeEntries below root is) l Q := by
  induction is generalizing l place with
  | nil => exact hQ l place (.refl l) h fun ρ a hρ => ⟨hρ, nofun⟩
  | cons i is ih =>
    have hentry := h.radix.entry [] root h.root (succ_pos D)
    refine keeps_act (h.radix.inside [] root h.root) ?_
    rintro r l' ⟨rfl, t, ht, rfl⟩
    have hword : t i = w [i] (place [i]) := by
      have heq := Option.some.inj (ht.symm.trans hentry)
      rw [heq]
    rw [hword]
    cases hplace : place [i] with
    | none =>
      rw [h.empty [i] (List.cons_ne_nil _ _)]
      refine ih h fun l1 place' hsame h' hkept => hQ l1 place' hsame h' fun ρ a hρ => ?_
      obtain ⟨hold, hlast⟩ := hkept ρ a hρ
      refine ⟨hold, fun j hj heq => ?_⟩
      rcases List.mem_cons.mp hj with rfl | hj
      · obtain ⟨σ, rfl⟩ := List.getLast?_eq_some_iff.mp heq
        cases (place_below_none h.radix hplace σ).symm.trans hold
      · exact hlast j hj heq
    | some a =>
      have hshort : [i].length < D + 1 := by
        refine lt_of_le_of_ne (succ_le_succ (zero_le D)) fun heq => ?_
        cases (h.leaf [i] heq).symm.trans hplace
      have hptr : (PA2PTE a ||| PTE_V) &&& PTE_V ≠ 0 ∧
          (PA2PTE a ||| PTE_V) &&& (PTE_R ||| PTE_W ||| PTE_X) = 0 := by
        rw [PA2PTE_or_and (by decide), PA2PTE_or_and (by decide)]
        decide
      rw [h.table [i] a (List.cons_ne_nil _ _) hshort, if_pos hptr,
        (h.valid _ a hplace).decode (by decide)]
      obtain ⟨G, hsub⟩ := h.radix.sub i
      have hnil : ∀ ρ : List Idx, ρ ++ [i] ≠ [] := fun ρ =>
        List.append_ne_nil_of_right_ne_nil ρ (List.cons_ne_nil i [])
      have hG : G root = some t := by
        rw [← ht]
        exact (hsub.frame root fun ρ hρ => hnil ρ (h.radix.inj _ _ root hρ h.root)).symm
      have hlen : ∀ ρ : List Idx, (ρ ++ [i]).length = ρ.length + 1 := fun ρ => by
        rw [List.length_append, List.length_singleton]
      refine keeps_bind.mpr (hbelow i a G l' place _ ?_ ?_)
      · exact ⟨hsub, hplace, fun ρ => h.valid _, fun ρ hρ => h.leaf _ (by rw [hlen, hρ]),
          fun ρ _ => h.empty _ (hnil ρ), fun ρ b _ hρ => h.table _ b (hnil ρ) (by rw [hlen]; omega)⟩
      · refine keeps_store hG ?_
        have hcut := h.radix.cut h.root hsub hG
        rw [h.empty [i] (List.cons_ne_nil _ _)] at hcut
        refine ih ⟨hcut, Radix.prune_nil.trans h.root,
          fun ρ b hρ => h.valid ρ b (Radix.prune_eq_some.mp hρ).2,
          fun ρ hρ => ?_, h.empty, h.table⟩ fun l2 place' hsame h' hkept =>
            hQ l2 place' hsame.of_setHeap.of_setHeap h' fun ρ b hρ => ?_
        · rw [Radix.prune, h.leaf ρ hρ]
          exact ite_self none
        · obtain ⟨hold, hlast⟩ := hkept ρ b hρ
          obtain ⟨hlast', hold⟩ := Radix.prune_eq_some.mp hold
          refine ⟨hold, fun j hj => ?_⟩
          rcases List.mem_cons.mp hj with rfl | hj
          · exact hlast'
          · exact hlast j hj

/-- All tables are freed.  The induction is on the depth. -/
theorem keeps_freewalk {D : Nat} (h : Bare k D w F l.heap place root)
    (hQ : Q () (l.setHeap F)) : (rules k init).Keeps (freewalk D root) l Q := by
  induction D generalizing w F l place root Q with
  | zero => cases (h.leaf [] rfl).symm.trans h.root
  | succ D ih =>
    refine keeps_bind.mpr (keeps_freeEntries (fun i a G l place Q hsub hQ => ih hsub hQ) _ h
      fun l' place' hsame h' hkept => ?_)
    refine ⟨h'.radix.inside [] root h'.root, ?_⟩
    rintro - l1 rfl
    have hlast : ∀ ρ, ρ ≠ [] → place' ρ = none := by
      intro ρ hρ
      by_contra hplace
      obtain ⟨a, ha⟩ := Option.ne_none_iff_exists'.mp hplace
      obtain ⟨i, hi⟩ := Option.ne_none_iff_exists'.mp fun hnone =>
        hρ (List.getLast?_eq_none_iff.mp hnone)
      exact (hkept ρ a ha).2 i (mem_indices i) hi
    have hgone := h'.radix.uproot h'.root hlast
    rwa [hgone, hsame.setHeap_eq]

/-! ## Sizes -/

theorem npages_zero : npages 0 = 0 := by decide

theorem PGROUNDUP_eq {sz : Nat} (h : npages sz ≤ (PHYSTOP - KERNBASE) / PGSIZE) :
    PGROUNDUP sz = npages sz * PGSIZE := by
  unfold npages at h
  unfold PGROUNDUP npages
  simp only [PHYSTOP, KERNBASE, PGSIZE, WORD] at h ⊢
  omega

theorem npages_mono {sz sz' : Nat} (h : sz ≤ sz') : npages sz ≤ npages sz' := by
  unfold npages
  simp only [PGSIZE]
  omega

theorem npages_mul (n : Nat) : npages (n * PGSIZE) = n := by
  unfold npages
  simp only [PGSIZE]
  omega

/-! ## Freeing -/

theorem keeps_unmapAll {n : Nat} (h : Table k F l.heap place flags top root fun v => v < n)
    (hQ : ∀ l' place', l.Same l' → Table k F l'.heap place' flags top root (fun v => v < npages 0) →
      Q () l') :
    (rules k init).Keeps (uvmunmap root 0 n true) l Q := by
  have hcount := h.count_le (n := n) fun _ hv => hv
  refine keeps_uvmunmap (Nat.zero_mod _) ?_ h (fun i hi => ?_) fun l' place' hleaves h' =>
    hQ l' place' hleaves.toSame ?_
  · simp only [PHYSTOP, KERNBASE, PGSIZE, MAXVA] at hcount ⊢
    omega
  · rwa [Nat.zero_div, Nat.zero_add]
  · have hset : (fun v => v < n ∧ ¬(0 / PGSIZE ≤ v ∧ v < 0 / PGSIZE + n)) = fun v =>
        v < npages 0 := by
      funext v
      rw [Nat.zero_div, Nat.zero_add, npages_zero]
      exact propext (by omega)
    rwa [hset] at h'

theorem keeps_uvmfree {sz : Nat}
    (h : Table k F l.heap place flags (fun _ => 0) root fun v => v < npages sz)
    (hQ : Q () (l.setHeap F)) : (rules k init).Keeps (uvmfree root sz) l Q := by
  have hfree : ∀ (l' : Loc P) place', l.Same l' →
      Table k F l'.heap place' flags (fun _ => 0) root (fun v => v < npages 0) →
        (rules k init).Keeps (freewalk 3 root) l' Q := by
    intro l' place' hsame h'
    have hbare : Bare k 3 (word flags fun _ => 0) F l'.heap place' root := by
      refine ⟨h'.radix, h'.root, h'.valid, fun ρ hρ => ?_, fun ρ _ => ite_self 0,
        fun ρ a _ hlt => ?_⟩
      · by_contra hplace
        exact not_lt_zero _ ((h'.user ρ hρ).mp hplace)
      · rw [word, if_neg (Nat.ne_of_lt hlt)]
    exact keeps_freewalk hbare (by rwa [hsame.setHeap_eq])
  unfold uvmfree
  split
  · rw [PGROUNDUP_eq (h.count_le fun _ hv => hv), Nat.mul_div_cancel _ (by decide)]
    exact keeps_bind.mpr (keeps_unmapAll h hfree)
  next hsz => exact hfree l place (.refl l) (Nat.eq_zero_of_not_pos hsz ▸ h)

theorem fullTop_trampoline (k : Image) (tf : Nat) :
    fullTop k tf (TRAMPOLINE / PGSIZE) = PA2PTE k.trampoline ||| (PTE_R ||| PTE_X ||| PTE_V) := by
  rw [fullTop, update_of_ne (by decide), update_self, Nat.or_assoc]

theorem fullTop_trapframe (k : Image) (tf : Nat) :
    fullTop k tf (TRAPFRAME / PGSIZE) = PA2PTE tf ||| (PTE_R ||| PTE_W ||| PTE_V) := by
  rw [fullTop, update_self, Nat.or_assoc]

theorem fullTop_user (k : Image) (tf : Nat) {v : Nat} (hv : v < TRAPFRAME / PGSIZE) :
    fullTop k tf v = 0 := by
  have hne : v ≠ TRAPFRAME / PGSIZE := Nat.ne_of_lt hv
  have hne' : v ≠ TRAMPOLINE / PGSIZE := Nat.ne_of_lt (hv.trans (by decide))
  rw [fullTop, update_of_ne hne, update_of_ne hne']

theorem keeps_procFreepagetable {tf sz : Nat}
    (h : UserTable k F l.heap place flags tf root (npages sz))
    (hQ : Q () (l.setHeap F)) : (rules k init).Keeps (procFreepagetable root sz) l Q := by
  refine keeps_bind.mpr (keeps_uvmunmap_top (by decide) (by decide) h (fullTop_trampoline k tf)
    (by decide) (by decide) (by decide) fun l1 hsame1 h1 => ?_)
  have htop : update (fullTop k tf) (TRAMPOLINE / PGSIZE) 0 (TRAPFRAME / PGSIZE) =
      PA2PTE tf ||| (PTE_R ||| PTE_W ||| PTE_V) := by
    rw [update_of_ne (by decide), fullTop_trapframe]
  refine keeps_bind.mpr (keeps_uvmunmap_top (by decide) (by decide) h1 htop (by decide) (by decide)
    (by decide) fun l2 hsame2 h2 => ?_)
  have hnone : update (update (fullTop k tf) (TRAMPOLINE / PGSIZE) 0) (TRAPFRAME / PGSIZE) 0 =
      fun _ => 0 := by
    funext v
    by_cases htf : v = TRAPFRAME / PGSIZE
    · rw [htf, update_self]
    · rw [update_of_ne htf]
      by_cases htr : v = TRAMPOLINE / PGSIZE
      · rw [htr, update_self]
      · rw [update_of_ne htr, fullTop, update_of_ne htf, update_of_ne htr]
  rw [hnone] at h2
  refine keeps_uvmfree h2 ?_
  rwa [hsame2.setHeap_eq, hsame1.setHeap_eq]

theorem keeps_uvmdealloc {oldsz newsz : Nat}
    (h : Table k F l.heap place flags top root fun v => v < npages oldsz) {Q : Nat → Loc P → Prop}
    (hQ : ∀ l' place' r, Leaves (· < npages r) l place flags l' place' flags → r = min oldsz newsz →
      Table k F l'.heap place' flags top root (fun v => v < npages r) → Q r l') :
    (rules k init).Keeps (uvmdealloc root oldsz newsz) l Q := by
  unfold uvmdealloc
  by_cases hle : newsz ≥ oldsz
  · rw [if_pos hle]
    exact hQ l place oldsz (.refl ..) (min_eq_left hle).symm h
  · have hold := h.count_le (n := npages oldsz) fun _ hv => hv
    have hmono := npages_mono (Nat.le_of_not_le hle)
    have hmin : newsz = min oldsz newsz := (Nat.min_eq_right (Nat.le_of_not_le hle)).symm
    rw [if_neg hle, PGROUNDUP_eq hold, PGROUNDUP_eq (hmono.trans hold)]
    by_cases hlt : npages newsz * PGSIZE < npages oldsz * PGSIZE
    · have hdiv : npages newsz * PGSIZE / PGSIZE = npages newsz := Nat.mul_div_cancel _ (by decide)
      rw [if_pos hlt, ← Nat.sub_mul, Nat.mul_div_cancel _ (by decide)]
      refine keeps_bind.mpr (keeps_uvmunmap (Nat.mul_mod_left _ _) ?_ h (fun i hi => ?_)
        fun l' place' hleaves h' =>
          hQ l' place' newsz (.trans (.refl (fun _ => True) ..) hleaves fun v hv => ?_) hmin ?_)
      · simp only [PHYSTOP, KERNBASE, PGSIZE, MAXVA] at hold ⊢
        omega
      · omega
      · refine ⟨trivial, ?_⟩
        omega
      · rw [hdiv] at h'
        have hset : (fun v => v < npages newsz) = fun v => v < npages oldsz ∧
            ¬(npages newsz ≤ v ∧ v < npages newsz + (npages oldsz - npages newsz)) := by
          funext v
          exact propext (by omega)
        rwa [hset]
    · have heq : npages newsz = npages oldsz := by
        simp only [PGSIZE] at hlt
        omega
      rw [if_neg hlt]
      exact hQ l place newsz (.refl ..) hmin (heq ▸ h)

/-! ## Growing -/

/-- Of the flags only those for new pages differ, and users may use these. -/
def Extends (flags flags' : Nat → Leaf) : Prop :=
  ∀ v, flags' v = flags v ∨ (flags' v).val &&& PTE_U ≠ 0

theorem Extends.update {flags' : Nat → Leaf} (h : Extends flags flags') (v : Nat)
    (hf : f.val &&& PTE_U ≠ 0) : Extends flags (update flags' v f) :=
  (forall_update_iff flags' fun w g => g = flags w ∨ g.val &&& PTE_U ≠ 0).mpr
  ⟨.inr hf, fun w _ => h w⟩

-- A page of the frame can be given back.
theorem keeps_kfree {b : Nat} {u : Words}
    (h : Table k (update F b (some u)) l.heap place flags top root S)
    (hF : F b = none) {x : Unit → Code P α} {Q : α → Loc P → Prop}
    (hx : ∀ l', Leaves (fun _ => True) l place flags l' place flags →
      Table k F l'.heap place flags top root S → (rules k init).Keeps (x ()) l' Q) :
    (rules k init).Keeps (act (.kfree b) >>= x) l Q := by
  have hb : update F b (some u) b ≠ none := by
    rw [update_self]
    nofun
  have hnot := h.radix.not_place_of_frame hb
  refine keeps_act ?_ ?_
  · rwa [pre, h.radix.heap_of_frame hb]
  · rintro - l' rfl
    have hfreed := h.outer hnot none
    rw [update_gone hF] at hfreed
    exact hx _ (.write (fun ρ _ _ => hnot ρ) _ (fun _ _ _ => id) fun _ _ => rfl) hfreed

/-- The page `b`, which is new, becomes user memory, unless there is no memory for the tables. -/
theorem keeps_mapNew {a b perm : Nat} (hf : perm ||| PTE_V = f.val) (hactive : l.active = true)
    (ha : a < TRAPFRAME / PGSIZE) (h : UserTable k F l.heap place flags tf root a)
    (hfree : l.heap b = none) (hvalid : k.Valid b) (u : Words) {Q : Int → Loc P → Prop}
    (hnone : ∀ l' place', Leaves (fun _ => True) l place flags l' place' flags → F b = none →
      UserTable k (update F b (some u)) l'.heap place' flags tf root a → Q (-1) l')
    (hsome : ∀ l' place', Leaves (· < a) l place flags l' place' (update flags a f) →
      UserTable k F l'.heap place' (update flags a f) tf root (a + 1) →
      place' (trail (a * PGSIZE) 0) = some b → l'.heap b = some u → Q 0 l') :
    (rules k init).Keeps (mappages root (a * PGSIZE) PGSIZE b perm)
    (l.setHeap (update l.heap b (some u))) Q := by
  have hpage : a * PGSIZE / PGSIZE = a := Nat.mul_div_cancel _ (by decide)
  have hva : a * PGSIZE < MAXVA := by
    simp only [TRAPFRAME, TRAMPOLINE, PGSIZE, MAXVA] at ha ⊢
    omega
  have hout : ¬a * PGSIZE / PGSIZE < a := by
    rw [hpage]
    exact lt_irrefl a
  have htop : fullTop k tf (a * PGSIZE / PGSIZE) = 0 := by rw [hpage, fullTop_user k tf ha]
  have hnot := h.radix.not_place_of_free hfree
  have hF : F b = none := by rw [← h.radix.frame b hnot, hfree]
  have hnew : Leaves (fun _ => True) l place flags
      (l.setHeap (update l.heap b (some u))) place flags :=
    .write (fun ρ _ _ => hnot ρ) _ (fun _ _ _ => id) fun _ _ => rfl
  refine keeps_mappages (Nat.mul_mod_left _ _) hva ?_ (h.outer hnot (some u)) hout htop
    (fun l1 place1 hleaves1 => hnone l1 place1 (hnew.trans hleaves1 fun _ hv => ⟨hv, hv⟩) hF)
    fun l1 place1 q t hleaves1 h1 hq ht => ?_
  · exact hactive
  have hb : update F b (some u) b = some u := update_self ..
  have hb' : update F b (some u) b ≠ none := by rw [hb]; nofun
  have hset : (fun v => v < a ∨ v = a) = fun v => v < a + 1 := by
    funext v
    exact propext Nat.lt_succ_iff_lt_or_eq.symm
  have h2 := h1.map hva hq ht hout htop hb hvalid f
  rw [hpage, update_gone hF, hset] at h2
  rw [Nat.or_assoc, hf]
  refine hsome _ _ (hnew.trans
    (hleaves1.trans (.write (q := q) (V := (· < a)) (fun ρ hρ _ heq => ?_) _
    (fun ρ c hV hρ => ?_) fun v hv => update_of_ne (Nat.ne_of_lt hv) ..) fun _ hv => ⟨trivial, hv⟩)
      fun _ hv => ⟨trivial, hv⟩) h2 (update_self ..) ?_
  · rw [h1.radix.inj _ _ _ heq hq] at hρ
    cases hρ
  · have hne : ρ ≠ trail (a * PGSIZE) 0 := by
      rintro rfl
      have hlt := hV rfl
      rw [vpn_trail hva, hpage] at hlt
      exact lt_irrefl a hlt
    rwa [update_of_ne hne]
  · have hbq : b ≠ q := fun heq => h1.radix.not_place_of_frame hb' _ (heq ▸ hq)
    exact (update_of_ne hbq ..).trans ((h1.radix.heap_of_frame hb').trans hb)

theorem keeps_shrink {a first : Nat} (hfirst : first ≤ a)
    (h : UserTable k F l.heap place flags tf root a) {x : Code P α} {Q : α → Loc P → Prop}
    (hx : ∀ l' place', Leaves (· < first) l place flags l' place' flags →
      UserTable k F l'.heap place' flags tf root first → (rules k init).Keeps x l' Q) :
    (rules k init).Keeps (do let _ ← uvmdealloc root (a * PGSIZE) (first * PGSIZE); x) l Q := by
  refine keeps_bind.mpr (keeps_uvmdealloc (by rwa [npages_mul]) fun l' place' r hleaves hr h' => ?_)
  rw [Nat.min_eq_right (mul_le_mul_right _ hfirst)] at hr
  rw [hr, npages_mul] at hleaves h'
  exact hx l' place' hleaves h'

/-- The pages with numbers from `a` to `m` are there, and full of zeros. -/
def Zeroed (a m : Nat) (heap : Heap Nat Idx Nat) (place : List Idx → Option Nat) : Prop :=
  ∀ v, a ≤ v → v < m → ∃ b, place (trail (v * PGSIZE) 0) = some b ∧ heap b = some fun _ => 0

/-- The loop of `uvmalloc`, by induction on the number of pages that are missing: all of them are
mapped in the end, or none that was not there when it began. -/
theorem keeps_allocFrom {xperm n a first : Nat} (hf : PTE_R ||| PTE_U ||| xperm ||| PTE_V = f.val)
    (huser : f.val &&& PTE_U ≠ 0) (hactive : l.active = true) (hfirst : first ≤ a)
    (hflags : Extends flags₀ flags) (h : UserTable k F l.heap place flags tf root a)
    {Q : Bool → Loc P → Prop}
    (hnone : ∀ l' place' flags', Leaves (· < first) l place flags l' place' flags' →
      Extends flags₀ flags' → UserTable k F l'.heap place' flags' tf root first → Q false l')
    (hsome : ∀ l' place' flags', Leaves (· < a) l place flags l' place' flags' →
      Extends flags₀ flags' →
      UserTable k F l'.heap place' flags' tf root (a + n) → Zeroed a (a + n) l'.heap place' →
      Q true l') :
    (rules k init).Keeps (allocFrom root (first * PGSIZE) xperm n (a * PGSIZE)) l Q := by
  induction n generalizing a l place flags with
  | zero =>
    exact hsome l place flags (.refl ..) hflags h fun v hv hlt => absurd hlt (Nat.not_lt.mpr hv)
  | succ n ih =>
    have hcount := h.count_le (n := a) fun _ hv => hv
    have hbelow : a < TRAPFRAME / PGSIZE := lt_of_le_of_lt hcount (by decide)
    refine keeps_zeroed hactive
      (keeps_shrink hfirst h fun l' place' hleaves h' => hnone l' place' flags hleaves hflags h')
      fun b hvalid hfree => keeps_bind.mpr (keeps_mapNew hf hactive hbelow h hfree hvalid _
        (fun l1 place1 hleaves1 hF h1 => keeps_kfree h1 hF fun l2 hleaves2 h2 =>
          keeps_shrink hfirst h2 fun l3 place3 hleaves3 h3 => hnone l3 place3 flags
            (hleaves1.trans (hleaves2.trans hleaves3 fun _ hv => ⟨trivial, hv⟩) fun _ hv =>
              ⟨trivial, hv⟩) hflags h3)
        fun l1 place1 hleaves1 h1 hb hzero => ?_)
    have hnext : a * PGSIZE + PGSIZE = (a + 1) * PGSIZE := (succ_mul a PGSIZE).symm
    rw [hnext]
    refine ih (hleaves1.active.trans hactive) (le_succ_of_le hfirst) (hflags.update _ huser) h1
      (fun l2 place2 flags2 hleaves2 => hnone l2 place2 flags2
        (hleaves1.trans hleaves2 fun v hv => ⟨lt_of_lt_of_le hv hfirst, hv⟩))
      fun l2 place2 flags2 hleaves2 hext2 h2 hzeros => ?_
    rw [Nat.add_right_comm] at h2 hzeros
    refine hsome l2 place2 flags2 (hleaves1.trans hleaves2 fun v hv => ⟨hv, lt_succ_of_lt hv⟩) hext2
      h2 fun v hv hlt => ?_
    rcases Nat.eq_or_lt_of_le hv with rfl | hgt
    · have hva : a * PGSIZE < MAXVA := by
        simp only [TRAPFRAME, TRAMPOLINE, PGSIZE, MAXVA] at hbelow ⊢
        omega
      obtain ⟨hplace, hheap⟩ := hleaves2.stays _ b
        (fun _ => by rw [vpn_trail hva, Nat.mul_div_cancel _ (by decide)]; exact lt_succ_self a) hb
      exact ⟨b, hplace, (hheap rfl).trans hzero⟩
    · exact hzeros v hgt hlt

theorem keeps_uvmalloc {xperm oldsz newsz : Nat} (hf : PTE_R ||| PTE_U ||| xperm ||| PTE_V = f.val)
    (huser : f.val &&& PTE_U ≠ 0) (hactive : l.active = true)
    (h : UserTable k F l.heap place flags tf root (npages oldsz)) {Q : Nat → Loc P → Prop}
    (hnone : ∀ l' place' flags', Leaves (· < npages oldsz) l place flags l' place' flags' →
      Extends flags flags' → UserTable k F l'.heap place' flags' tf root (npages oldsz) → Q 0 l')
    (hsome : ∀ l' place' flags' r, Leaves (· < npages oldsz) l place flags l' place' flags' →
      Extends flags flags' → r = max oldsz newsz →
      UserTable k F l'.heap place' flags' tf root (npages r) →
      Zeroed (npages oldsz) (npages r) l'.heap place' → Q r l') :
    (rules k init).Keeps (uvmalloc root oldsz newsz xperm) l Q := by
  have hrefl : Extends flags flags := fun _ => .inl rfl
  unfold uvmalloc
  by_cases hlt : newsz < oldsz
  · rw [if_pos hlt]
    exact hsome l place flags oldsz (.refl ..) hrefl (max_eq_left (le_of_lt hlt)).symm h
      fun v hv hno => absurd hno (Nat.not_lt.mpr hv)
  · have hcount := h.count_le (n := npages oldsz) fun _ hv => hv
    have hpages : npages oldsz + (newsz - npages oldsz * PGSIZE + PGSIZE - 1) / PGSIZE =
        npages newsz := by
      unfold npages
      simp only [PGSIZE]
      omega
    rw [if_neg hlt, PGROUNDUP_eq hcount]
    refine keeps_bind.mpr (keeps_allocFrom hf huser hactive (le_refl _) hrefl h hnone
      fun l' place' flags' hleaves hext h' hzeros => ?_)
    rw [hpages] at h' hzeros
    exact hsome l' place' flags' newsz hleaves hext
      (Nat.max_eq_right (Nat.le_of_not_lt hlt)).symm h' hzeros

/-! ## Copying -/

/-- The loop of `uvmcopy`, by induction on the number of pages still to be copied.  The table that
is copied is in the frame of the other. -/
theorem keeps_copyFrom {G : Heap Nat Idx Nat} {place₀ : List Idx → Option Nat}
    {top₀ : Nat → Nat} {old m n i : Nat} (hactive : l.active = true) (hm : i + n ≤ m)
    (hold : Table k G F place₀ flags₀ top₀ old fun v => v < m)
    (h : UserTable k F l.heap place flags tf root i) {Q : Int → Loc P → Prop}
    (hnone : ∀ l' place' flags', l.Same l' →
      UserTable k F l'.heap place' flags' tf root (npages 0) → Q (-1) l')
    (hsome : ∀ l' place' flags', l.Same l' →
      UserTable k F l'.heap place' flags' tf root (i + n) → Q 0 l') :
    (rules k init).Keeps (copyFrom old root n (i * PGSIZE)) l Q := by
  induction n generalizing i l place flags with
  | zero => exact hsome l place flags (.refl l) h
  | succ n ih =>
    have hcount := hold.count_le (n := m) fun _ hv => hv
    have hpage : i * PGSIZE / PGSIZE = i := Nat.mul_div_cancel _ (by decide)
    have hbelow : i < TRAPFRAME / PGSIZE := by
      simp only [PHYSTOP, KERNBASE, PGSIZE, TRAPFRAME, TRAMPOLINE, MAXVA] at hcount ⊢
      omega
    have hva : i * PGSIZE < MAXVA := by
      simp only [PGSIZE, TRAPFRAME, TRAMPOLINE, MAXVA] at hbelow ⊢
      omega
    obtain ⟨F', -, hold'⟩ := hold.swap h
    obtain ⟨q, a, hq, ha⟩ := hold'.place_ne_none hva (by rw [hpage]; omega)
    have hflag : (PA2PTE a ||| (flags₀ i).val) &&& PTE_V ≠ 0 := by
      rw [PA2PTE_or_and (by decide)]
      exact (flags₀ i).valid
    refine keeps_bind.mpr (keeps_walk hva hold' ?_)
    rw [hq]
    refine keeps_loadLeaf hold' hq fun _ _ => ?_
    rw [ha, word_leaf _ _ hva, hpage, if_neg hflag, (hold.valid _ a ha).decode (flags₀ i).lt,
      PTE_FLAGS_or (flags₀ i).lt]
    refine keeps_act hactive ?_
    rintro b l1 (⟨rfl, rfl⟩ | ⟨hvalid, hfree, u, rfl⟩)
    · exact keeps_bind.mpr
        (keeps_unmapAll h fun l2 place2 hsame2 h2 => hnone l2 place2 flags hsame2 h2)
    simp only [hvalid.ne_zero, if_false]
    have hne : a ≠ b := by
      rintro rfl
      exact hold'.radix.inside _ a ha hfree
    refine keeps_act ⟨?_, ?_⟩ ?_
    · simp [Loc.setHeap]
    · simp only [Loc.setHeap, update_of_ne hne]
      exact hold'.radix.inside _ a ha
    rintro - l2 ⟨u', rfl⟩
    simp only [Loc.setHeap, update_idem]
    refine keeps_bind.mpr (keeps_mapNew (flags₀ i).or_valid hactive hbelow h hfree hvalid u'
      (fun l3 place3 hleaves3 hF h3 => keeps_kfree h3 hF fun l4 hleaves4 h4 => keeps_bind.mpr
        (keeps_unmapAll h4 fun l5 place5 hsame5 => hnone l5 place5 flags
          (hleaves3.toSame.trans (hleaves4.toSame.trans hsame5))))
      fun l3 place3 hleaves3 h3 _ _ => ?_)
    have hnext : i * PGSIZE + PGSIZE = (i + 1) * PGSIZE := (succ_mul i PGSIZE).symm
    rw [hnext]
    refine ih (hleaves3.active.trans hactive) (by omega) h3
      (fun l4 place4 flags4 hsame4 => hnone l4 place4 flags4 (hleaves3.toSame.trans hsame4))
      fun l4 place4 flags4 hsame4 h4 => ?_
    rw [Nat.add_right_comm] at h4
    exact hsome l4 place4 flags4 (hleaves3.toSame.trans hsame4) h4

end OsProjects.Kernel.Vm
