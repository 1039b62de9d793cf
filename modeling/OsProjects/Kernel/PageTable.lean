import OsProjects.Kernel.Vm
import OsProjects.Lib.Radix
import Mathlib.Data.Fintype.Card
import Mathlib.Data.Nat.Bitwise

/-!
# PageTable — a page table and the user memory it maps, in physical memory
-/

namespace OsProjects.Kernel.Vm

open Lib Function Nat

/-! ## Entries -/

section Pte

variable {a f m : Nat}

theorem PA2PTE_or (hf : f < 1024) : PA2PTE a ||| f = a / 4096 * 1024 + f := by
  have hor := shiftLeft_add_eq_or_of_lt (show f < 2 ^ 10 from hf) (a >>> 12)
  rw [PA2PTE, ← hor, shiftLeft_eq, shiftRight_eq_div_pow]

theorem PTE2PA_or (ha : a % PGSIZE = 0) (hlt : a < 2 ^ 56) (hf : f < 1024) :
    PTE2PA (PA2PTE a ||| f) = a := by
  rw [PA2PTE_or hf, PTE2PA, shiftRight_eq_div_pow, shiftLeft_eq]
  simp only [WORD, PGSIZE] at ha ⊢
  omega

theorem PTE_FLAGS_or (hf : f < 1024) : PTE_FLAGS (PA2PTE a ||| f) = f := by
  rw [PA2PTE_or hf, PTE_FLAGS]
  omega

-- The flags are below the address.
theorem PA2PTE_or_and (hm : m < 1024) : (PA2PTE a ||| f) &&& m = f &&& m := by
  have hzero : PA2PTE a &&& m = 0 := by
    refine eq_of_testBit_eq fun j => ?_
    rw [PA2PTE, testBit_and, testBit_shiftLeft, zero_testBit]
    by_cases hj : 10 ≤ j
    · have hlt : m < 2 ^ j := lt_of_lt_of_le hm (Nat.pow_le_pow_right Nat.two_pos hj)
      rw [Nat.testBit_lt_two_pow hlt, Bool.and_false]
    · simp only [hj, decide_false, Bool.false_and]
  rw [and_or_distrib_right, hzero, zero_or]

/-- The flags of a page that a user table maps for itself. -/
structure Leaf where
  val : Nat
  lt : val < 1024
  valid : val &&& PTE_V ≠ 0
  read : val &&& PTE_R ≠ 0

theorem Leaf.ne_valid (f : Leaf) : f.val ≠ PTE_V := by
  intro heq
  have hread := f.read
  rw [heq] at hread
  exact hread rfl

theorem Leaf.or_valid (f : Leaf) : f.val ||| PTE_V = f.val := by
  refine eq_of_testBit_eq fun j => ?_
  rw [testBit_or]
  cases j with
  | zero =>
    have hbit : f.val.testBit 0 = true := by
      have hvalid := f.valid
      rw [PTE_V, and_one_is_mod] at hvalid
      rw [testBit_zero]
      exact decide_eq_true (by omega)
    rw [hbit, Bool.true_or]
  | succ j =>
    have hone : Nat.testBit PTE_V (j + 1) = false := by
      rw [testBit_succ]
      exact zero_testBit j
    rw [hone, Bool.or_false]

end Pte

/-! ## Addresses -/

/-- A page that the allocator can hand out. -/
structure Image.Valid (k : Image) (pa : Nat) : Prop where
  aligned : pa % PGSIZE = 0
  end_le : k.end ≤ pa
  lt_stop : pa < PHYSTOP

variable {k : Image}

theorem Image.Valid.base_lt {pa : Nat} (h : k.Valid pa) : KERNBASE < pa :=
  lt_of_le_of_lt k.base_le (lt_of_lt_of_le k.trampoline_lt h.end_le)

theorem Image.Valid.ne_zero {pa : Nat} (h : k.Valid pa) : pa ≠ 0 :=
  Nat.pos_iff_ne_zero.mp (Nat.zero_lt_of_lt h.base_lt)

theorem Image.Valid.decode {pa f : Nat} (h : k.Valid pa) (hf : f < 1024) :
    PTE2PA (PA2PTE pa ||| f) = pa :=
  PTE2PA_or h.aligned (h.lt_stop.trans (by decide)) hf

/-- The number that a path through a page table spells. -/
def vpn : List Idx → Nat
  | [] => 0
  | i :: π => vpn π * 512 + i

variable {ρ : List Idx} {va : Nat}

theorem vpn_inj {σ : List Idx} (hlen : ρ.length = σ.length) (h : vpn ρ = vpn σ) : ρ = σ := by
  induction ρ generalizing σ with
  | nil =>
    cases σ with
    | nil => rfl
    | cons j σ => cases hlen
  | cons i ρ ih =>
    cases σ with
    | nil => cases hlen
    | cons j σ =>
      simp only [vpn] at h
      have hij : i = j := Fin.ext (by omega)
      rw [hij, ih (Nat.succ.inj hlen) (by omega)]

/-- The path to the entry for `va` at a level, the last step first. -/
def trail (va : Nat) : (level : Nat) → List Idx
  | 0 => [PX 0 va, PX 1 va, PX 2 va]
  | 1 => [PX 1 va, PX 2 va]
  | 2 => [PX 2 va]
  | _ => []

theorem trail_cons (va : Nat) {level : Nat} (h : level ≤ 2) :
    trail va level = PX level va :: trail va (level + 1) := by
  match level, h with
  | 0, _ | 1, _ | 2, _ => rfl

theorem length_trail (va : Nat) {level : Nat} (h : level ≤ 2) :
    (trail va (level + 1)).length = 2 - level := by
  match level, h with
  | 0, _ | 1, _ | 2, _ => rfl

theorem length_trail_zero (va : Nat) : (trail va 0).length = 3 := rfl

theorem vpn_trail {va : Nat} (h : va < MAXVA) : vpn (trail va 0) = va / PGSIZE := by
  simp only [trail, vpn, PX, Fin.val_ofNat, shiftRight_eq_div_pow]
  simp only [MAXVA, PGSIZE] at h ⊢
  omega

/-- Every page number is spelt by one path. -/
theorem trail_of_vpn (hlen : ρ.length = 3) (hva : va < MAXVA)
    (h : vpn ρ = va / PGSIZE) : ρ = trail va 0 :=
  vpn_inj hlen (h.trans (vpn_trail hva).symm)

/-! ## Tables -/

/-- The entry for a path: where the table or the page is, or what else is mapped there. -/
def word (flags : Nat → Leaf) (top : Nat → Nat) (ρ : List Idx) : Option Nat → Nat
  | some a => PA2PTE a ||| if ρ.length = 3 then (flags (vpn ρ)).val else PTE_V
  | none => if ρ.length = 3 then top (vpn ρ) else 0

theorem word_leaf (flags : Nat → Leaf) (top : Nat → Nat) (hva : va < MAXVA) (a : Nat) :
    word flags top (trail va 0) (some a) = PA2PTE a ||| (flags (va / PGSIZE)).val := by
  simp only [word, length_trail_zero, if_true, vpn_trail hva]

theorem word_empty (flags : Nat → Leaf) (top : Nat → Nat) (hva : va < MAXVA) :
    word flags top (trail va 0) none = top (va / PGSIZE) := by
  simp only [word, length_trail_zero, if_true, vpn_trail hva]

/-- A page table at `root`, with the pages of user memory that it maps: those with a number in `S`.
`top` are entries for pages that are not the table's own. -/
structure Table (k : Image) (F heap : Heap Nat Idx Nat) (place : List Idx → Option Nat)
    (flags : Nat → Leaf) (top : Nat → Nat) (root : Nat) (S : Nat → Prop) : Prop where
  radix : Radix 3 (word flags top) F heap place
  root : place [] = some root
  valid : ∀ ρ a, place ρ = some a → k.Valid a
  user : ∀ ρ, ρ.length = 3 → (place ρ ≠ none ↔ S (vpn ρ))
  tables : ∀ i π, π.length = 2 → top (vpn (i :: π)) ≠ 0 → place π ≠ none
  apart : ∀ v, S v → top v = 0

namespace Table

variable {k : Image} {F heap : Heap Nat Idx Nat} {place : List Idx → Option Nat}
  {flags : Nat → Leaf} {top : Nat → Nat} {root va q b : Nat} {S : Nat → Prop} {t : Words}

section

variable (h : Table k F heap place flags top root S)
include h

theorem lookup (hq : place (trail va 1) = some q) :
    ∃ t, heap q = some t ∧ t (PX 0 va) = word flags top (trail va 0) (place (trail va 0)) :=
  ⟨_, h.radix.entry (trail va 1) q hq (lt_succ_self 2), rfl⟩

theorem outer (hb : ∀ ρ, place ρ ≠ some b) (x : Option Words) :
    Table k (update F b x) (update heap b x) place flags top root S :=
  { h with radix := h.radix.outer hb x }

-- A new table page, for a level above that of the leaves.
theorem grow {i : Idx} {π : List Idx} (hπ : place π = some q)
    (hlen : π.length < 2) (ht : heap q = some t) (hnone : place (i :: π) = none)
    (hb : F b = some fun _ => 0) (hvalid : k.Valid b) :
    Table k (update F b none) (update heap q (some (update t i (PA2PTE b ||| PTE_V))))
      (update place (i :: π) (some b)) flags top root S := by
  have hshort : (i :: π).length ≠ 3 := by
    rw [List.length_cons]
    omega
  have hword : word flags top (i :: π) (some b) = PA2PTE b ||| PTE_V := by rw [word, if_neg hshort]
  have hempty : ∀ j, word flags top (j :: i :: π) none = 0 := by
    intro j
    by_cases hthree : (j :: i :: π).length = 3
    · rw [word, if_pos hthree]
      by_contra htop
      exact h.tables j (i :: π) (Nat.succ.inj hthree) htop hnone
    · rw [word, if_neg hthree]
  refine ⟨?_, ?_, fun ρ a hρ => ?_, fun ρ hρ => ?_, fun j σ hσ htop => ?_, h.apart⟩
  · rw [← hword]
    exact h.radix.attach hπ (by omega) ht (fun _ _ => rfl) hnone hb fun _ j => (hempty j).symm
  · exact h.root
  · by_cases hne : ρ = i :: π
    · rw [hne, update_self] at hρ
      cases hρ
      exact hvalid
    · rw [update_of_ne hne] at hρ
      exact h.valid ρ a hρ
  · have hne : ρ ≠ i :: π := fun heq => hshort (heq ▸ hρ)
    rw [update_of_ne hne]
    exact h.user ρ hρ
  · by_cases hne : σ = i :: π
    · rw [hne, update_self]
      nofun
    · rw [update_of_ne hne]
      exact h.tables j σ hσ htop

theorem place_eq_none (hva : va < MAXVA) (hnot : ¬S (va / PGSIZE)) : place (trail va 0) = none := by
  by_contra hplace
  exact hnot (vpn_trail hva ▸ (h.user _ rfl).mp hplace)

theorem place_ne_none (hva : va < MAXVA)
    (hS : S (va / PGSIZE)) : ∃ q b, place (trail va 1) = some q ∧ place (trail va 0) = some b := by
  obtain ⟨b, hb⟩ := Option.ne_none_iff_exists'.mp
    ((h.user (trail va 0) rfl).mpr (vpn_trail hva ▸ hS))
  obtain ⟨q, hq⟩ := h.radix.parent_place hb
  exact ⟨q, b, hq, hb⟩

end

-- Paths other than that of `va` spell other numbers.
theorem vpn_ne (hva : va < MAXVA) (hlen : ρ.length = 3) (hne : ρ ≠ trail va 0) :
    vpn ρ ≠ va / PGSIZE := fun heq => hne (trail_of_vpn hlen hva heq)

theorem word_flags (hva : va < MAXVA) (f : Leaf) (hne : ρ ≠ trail va 0) :
    word (update flags (va / PGSIZE) f) top ρ = word flags top ρ := by
  funext o
  cases o with
  | none => rfl
  | some a =>
    by_cases hlen : ρ.length = 3
    · simp only [word, hlen, if_true, update_of_ne (vpn_ne hva hlen hne)]
    · simp only [word, hlen, if_false]

theorem word_top (hva : va < MAXVA) (pte : Nat) (hne : ρ ≠ trail va 0) :
    word flags (update top (va / PGSIZE) pte) ρ = word flags top ρ := by
  funext o
  cases o with
  | some a => rfl
  | none =>
    by_cases hlen : ρ.length = 3
    · simp only [word, hlen, if_true, update_of_ne (vpn_ne hva hlen hne)]
    · simp only [word, hlen, if_false]

section

variable (h : Table k F heap place flags top root S)
include h

/-- A page of the frame becomes user memory at `va`. -/
theorem map (hva : va < MAXVA) (hq : place (trail va 1) = some q)
    (ht : heap q = some t) (hnot : ¬S (va / PGSIZE)) (htop : top (va / PGSIZE) = 0) {u : Words}
    (hb : F b = some u) (hvalid : k.Valid b) (f : Leaf) : Table k (update F b none)
      (update heap q (some (update t (PX 0 va) (PA2PTE b ||| f.val))))
      (update place (trail va 0) (some b)) (update flags (va / PGSIZE) f) top root
      fun v => S v ∨ v = va / PGSIZE := by
  have hnone := h.place_eq_none hva hnot
  have hword : word (update flags (va / PGSIZE) f) top (trail va 0)
      (some b) = PA2PTE b ||| f.val := by
    rw [word_leaf _ _ hva, update_self]
  refine ⟨?_, ?_, fun ρ a hρ => ?_, fun ρ hρ => ?_, fun j σ hσ htop' => ?_, fun v hv => ?_⟩
  · rw [← hword]
    exact h.radix.attach hq (lt_succ_self 2) ht (fun ρ hne => word_flags hva f hne) hnone hb
      fun hlt => absurd hlt (lt_irrefl 3)
  · exact (update_of_ne (List.cons_ne_nil _ _).symm ..).trans h.root
  · by_cases hne : ρ = trail va 0
    · rw [hne, update_self] at hρ
      cases hρ
      exact hvalid
    · rw [update_of_ne hne] at hρ
      exact h.valid ρ a hρ
  · by_cases hne : ρ = trail va 0
    · rw [hne, update_self, vpn_trail hva]
      exact iff_of_true nofun (.inr rfl)
    · rw [update_of_ne hne, h.user ρ hρ]
      exact (or_iff_left (vpn_ne hva hρ hne)).symm
  · have hne : σ ≠ trail va 0 := by
      rintro rfl
      cases hσ
    rw [update_of_ne hne]
    exact h.tables j σ hσ htop'
  · rcases hv with hv | rfl
    · exact h.apart v hv
    · exact htop

/-- Another entry is made for `va`, which is no user memory of the table. -/
theorem setTop (hva : va < MAXVA)
    (hq : place (trail va 1) = some q) (ht : heap q = some t) (hnot : ¬S (va / PGSIZE))
    (pte : Nat) : Table k F (update heap q (some (update t (PX 0 va) pte))) place flags
      (update top (va / PGSIZE) pte) root S := by
  have hword : word flags (update top (va / PGSIZE) pte) (trail va 0) (place (trail va 0)) =
      pte := by
    rw [h.place_eq_none hva hnot, word_empty _ _ hva, update_self]
  refine ⟨?_, h.root, h.valid, h.user, fun j σ hσ htop => ?_, fun v hv => ?_⟩
  · have hother : ∀ ρ ≠ PX 0 va :: trail va 1,
        word flags (update top (va / PGSIZE) pte) ρ = word flags top ρ :=
          fun ρ hne => word_top hva pte hne
    have hradix := h.radix.rewrite hq (lt_succ_self 2) ht hother
    rwa [show PX 0 va :: trail va 1 = trail va 0 from rfl, hword] at hradix
  · by_cases hne : vpn (j :: σ) = va / PGSIZE
    · have hpath := trail_of_vpn (ρ := j :: σ) (congrArg Nat.succ hσ) hva hne
      have hσ' : σ = trail va 1 := (List.cons.inj hpath).2
      rw [hσ', hq]
      nofun
    · rw [update_of_ne hne] at htop
      exact h.tables j σ hσ htop
  · have hne : v ≠ va / PGSIZE := by
      rintro rfl
      exact hnot hv
    rw [update_of_ne hne]
    exact h.apart v hv

/-- The page at `va` is given away. -/
theorem unmap (hva : va < MAXVA)
    (hq : place (trail va 1) = some q) (ht : heap q = some t) (hb : place (trail va 0) = some b) :
    Table k F (update (update heap b none) q (some (update t (PX 0 va) 0)))
      (update place (trail va 0) none) flags top root fun v => S v ∧ v ≠ va / PGSIZE := by
  have hS : S (va / PGSIZE) := by
    rw [← vpn_trail hva, ← h.user _ rfl, hb]
    nofun
  have hword : word flags top (trail va 0) none = 0 := by
    rw [word_empty _ _ hva, h.apart _ hS]
  refine ⟨?_, ?_, fun ρ a hρ => ?_, fun ρ hρ => ?_, fun j σ hσ htop => ?_,
    fun v hv => h.apart v hv.1⟩
  · have hsame : ∀ ρ ≠ PX 0 va :: trail va 1, word flags top ρ = word flags top ρ := fun _ _ => rfl
    have hradix := h.radix.detach hq (lt_succ_self 2) ht hsame hb
      fun j => h.radix.depth _ (lt_succ_self 3)
    rwa [show PX 0 va :: trail va 1 = trail va 0 from rfl, hword] at hradix
  · exact (update_of_ne (List.cons_ne_nil _ _).symm ..).trans h.root
  · have hne : ρ ≠ trail va 0 := by
      rintro rfl
      rw [update_self] at hρ
      cases hρ
    rw [update_of_ne hne] at hρ
    exact h.valid ρ a hρ
  · by_cases hne : ρ = trail va 0
    · rw [hne, update_self, vpn_trail hva]
      exact iff_of_false (fun hno => hno rfl) fun hno => hno.2 rfl
    · rw [update_of_ne hne, h.user ρ hρ]
      exact (and_iff_left (vpn_ne hva hρ hne)).symm
  · have hne : σ ≠ trail va 0 := by
      rintro rfl
      cases hσ
    rw [update_of_ne hne]
    exact h.tables j σ hσ htop

/-- The flags of the page at `va` change. -/
theorem setFlags (hva : va < MAXVA)
    (hq : place (trail va 1) = some q) (ht : heap q = some t) (hb : place (trail va 0) = some b)
    (f : Leaf) : Table k F (update heap q (some (update t (PX 0 va) (PA2PTE b ||| f.val)))) place
      (update flags (va / PGSIZE) f) top root S := by
  have hword : word (update flags (va / PGSIZE) f) top (trail va 0) (place (trail va 0)) =
      PA2PTE b ||| f.val := by
    rw [hb, word_leaf _ _ hva, update_self]
  refine { h with radix := ?_ }
  have hother : ∀ ρ ≠ PX 0 va :: trail va 1,
      word (update flags (va / PGSIZE) f) top ρ = word flags top ρ :=
        fun ρ hne => word_flags hva f hne
  have hradix := h.radix.rewrite hq (lt_succ_self 2) ht hother
  rwa [show PX 0 va :: trail va 1 = trail va 0 from rfl, hword] at hradix

end

/-- Of two tables either is in the frame of the other. -/
theorem swap {G : Heap Nat Idx Nat} {place₁ : List Idx → Option Nat} {flags₁ : Nat → Leaf}
    {top₁ : Nat → Nat} {root₁ : Nat} {S₁ : Nat → Prop}
    (h₁ : Table k G F place₁ flags₁ top₁ root₁ S₁) (h : Table k F heap place flags top root S) :
    ∃ F', Table k G F' place flags top root S ∧ Table k F' heap place₁ flags₁ top₁ root₁ S₁ := by
  obtain ⟨F', hradix, hradix1⟩ := h₁.radix.swap h.radix
  exact ⟨F', { h with radix := hradix }, { h₁ with radix := hradix1 }⟩

/-- The pages that the machine has are a bound for user memory. -/
theorem count_le (h : Table k F heap place flags top root S) {n : Nat} (hn : ∀ v < n, S v) :
    n ≤ (PHYSTOP - KERNBASE) / PGSIZE := by
  by_contra hmore
  have hmapped : ∀ v : Fin ((PHYSTOP - KERNBASE) / PGSIZE + 1), ∃ b, place (trail (v * PGSIZE) 0) =
      some b := by
    intro v
    have hlt := v.isLt
    have hva : v * PGSIZE < MAXVA := by
      simp only [PHYSTOP, KERNBASE, PGSIZE, MAXVA] at hlt ⊢
      omega
    obtain ⟨-, b, -, hb⟩ :=
      h.place_ne_none hva (hn _ (by rw [Nat.mul_div_cancel _ (by decide)]; omega))
    exact ⟨b, hb⟩
  choose page hpage using hmapped
  have hvalid : ∀ v, k.Valid (page v) := fun v => h.valid _ _ (hpage v)
  have hinj : Function.Injective page := by
    intro v w heq
    have hpath := h.radix.inj _ _ _ (hpage v) (heq ▸ hpage w)
    have hlt := v.isLt
    have hlt' := w.isLt
    have hv := @vpn_trail (v * PGSIZE)
      (by simp only [PHYSTOP, KERNBASE, PGSIZE, MAXVA] at hlt ⊢; omega)
    have hw := @vpn_trail (w * PGSIZE)
      (by simp only [PHYSTOP, KERNBASE, PGSIZE, MAXVA] at hlt' ⊢; omega)
    rw [hpath, hw, Nat.mul_div_cancel _ (by decide), Nat.mul_div_cancel _ (by decide)] at hv
    exact Fin.ext hv.symm
  have hindex : ∀ v, (page v - KERNBASE) / PGSIZE < (PHYSTOP - KERNBASE) / PGSIZE := by
    intro v
    have hstop := (hvalid v).lt_stop
    simp only [PHYSTOP, KERNBASE, PGSIZE] at hstop ⊢
    omega
  have hcard := Fintype.card_le_of_injective
    (fun v => (⟨(page v - KERNBASE) / PGSIZE, hindex v⟩ : Fin ((PHYSTOP - KERNBASE) / PGSIZE)))
    fun v w heq => hinj (by
      have hbase := (hvalid v).base_lt
      have hbase' := (hvalid w).base_lt
      have halign := (hvalid v).aligned
      have halign' := (hvalid w).aligned
      have hval := congrArg Fin.val heq
      simp only [KERNBASE, PGSIZE] at hbase hbase' halign halign' hval
      omega)
  rw [Fintype.card_fin, Fintype.card_fin] at hcard
  exact not_succ_le_self _ hcard

end Table

end OsProjects.Kernel.Vm
