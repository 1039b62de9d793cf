import OsProjects.Kernel.Itrunc
import OsProjects.Kernel.NoHoles
import OsProjects.Kernel.Placement

/-!
# BmapFailure — `bmap` when a block cannot be had, among other processes

`bmap` holds the lock of its inode and of the buffer it reads, but not of the bitmap: before each
of its calls of `balloc` other processes may allocate and free blocks.
-/

namespace OsProjects.Kernel

open Lib List

/-- Steps of other processes: they call `balloc`, and free blocks in use that are not `ip`'s. -/
inductive Interferes (sb : Superblock) (ip : Dinode) (m : Machine) : Machine → Prop where
  | refl : Interferes sb ip m m
  | balloc {m₁ : Machine} : Interferes sb ip m m₁ → Interferes sb ip m (balloc sb m₁).2
  | bfree {m₁ m₂ : Machine} {b : Nat} : Interferes sb ip m m₁ → Used sb m₁.disk b →
      b ∉ treeBlocks m₁.disk ip → bfree sb m₁ b = .ok m₂ → Interferes sb ip m m₂

/-- A call of `bmap` on its way: `got` are the results of `balloc`, `stored` the blocks that the
call has modified. -/
structure Mapping where
  ip : Dinode
  machine : Machine
  got : List Nat
  stored : List Nat

/-- What the others do before the allocation of each level. -/
abbrev Others := Nat → Dinode → Machine → Machine

namespace Mapping

def disk (s : Mapping) : Disk := s.machine.disk

/-- The blocks that `balloc` modifies on the disk `d`. -/
def touched (sb : Superblock) (d : Disk) : List Nat :=
  match findFree sb d with
  | some b => [BBLOCK sb b, b]
  | none => []

/-- `balloc`, after `others` have had their turn. -/
def balloc (sb : Superblock) (others : Dinode → Machine → Machine) (s : Mapping) : Nat × Mapping :=
  let m := others s.ip s.machine
  match Kernel.balloc sb m with
  | (addr, m') =>
    (addr, { s with
      machine := m'
      got := addr :: s.got
      stored := touched sb m.disk ++ s.stored })

/-- Load the block of a slot of `addrs[]`, allocating if necessary. -/
def slot (sb : Superblock) (others : Dinode → Machine → Machine) (s : Mapping)
    (k : Fin (NDIRECT + 2)) : Nat × Mapping :=
  if s.ip.addrs k = 0 then
    match s.balloc sb others with
    | (addr, s) =>
      if addr = 0 then (0, s)
      else (addr, { s with ip := { s.ip with addrs := Function.update s.ip.addrs k addr } })
  else (s.ip.addrs k, s)

/-- Load entry `j` of the indirect block `b`, allocating if necessary. -/
def entry (sb : Superblock) (others : Dinode → Machine → Machine) (s : Mapping) (b j : Nat) :
    Nat × Mapping :=
  if word (s.disk b) j = 0 then
    match s.balloc sb others with
    | (addr, s) =>
      if addr = 0 then (0, s)
      else (addr, { s with
        machine := (s.machine.store b (setWord (s.disk b) j addr)).logWrite b
        stored := b :: s.stored })
  else (word (s.disk b) j, s)

end Mapping

/-- `bmap`, with the others taking their turns. -/
def bmapAmong (sb : Superblock) (others : Others) (m : Machine) (ip : Dinode) (bn : Nat) :
    Except String (Nat × Mapping) :=
  let s : Mapping := ⟨ip, m, [], []⟩
  if h : bn < NDIRECT then .ok (s.slot sb (others 0) ⟨bn, direct_lt h⟩)
  else if bn - NDIRECT < NINDIRECT then
    match s.slot sb (others 0) indSlot with
    | (addr, s) =>
      if addr = 0 then .ok (0, s)
      else .ok (s.entry sb (others 1) addr (bn - NDIRECT))
  else if bn - NDIRECT - NINDIRECT < DOUBLEINDIRECT then
    match s.slot sb (others 0) dblSlot with
    | (addr, s) =>
      if addr = 0 then .ok (0, s)
      else
        match s.entry sb (others 1) addr ((bn - NDIRECT - NINDIRECT) / NINDIRECT) with
        -- no test for a failed allocation here, as in `bmap`
        | (addr, s) =>
          .ok (s.entry sb (others 2) addr ((bn - NDIRECT - NINDIRECT) % NINDIRECT))
  else .error "bmap: out of range"

/-- What a call that fails cleanly guarantees: `a` is its result, `s` its end. -/
structure CleanCall (sb : Superblock) (m : Machine) (ip : Dinode) (bn a : Nat) (s : Mapping) :
    Prop where
  failure : 0 ∈ s.got → a = 0
  recorded : a ≠ 0 → addr s.disk s.ip (leafNode bn) = a ∧
    bmap sb s.machine s.ip bn = .ok (a, s.ip, s.machine)
  others : ∀ bn' < MAXFILE, bn' ≠ bn →
    addr s.disk s.ip (leafNode bn') = addr m.disk ip (leafNode bn')
  frame : ∀ c ∈ s.stored, (∃ b < sb.size, c = BBLOCK sb b) ∨ (c ≠ 0 ∧ c ∈ s.got) ∨
    c ∈ treeBlocks m.disk ip

/-! ## Without others this is `bmap` -/

variable {sb : Superblock} {m m' m₁ : Machine} {ip ip' ip₁ : Dinode} {bn b : Nat}

theorem slot_alone (sb : Superblock) (s : Mapping) (k : Fin (NDIRECT + 2)) :
    bmapSlot sb s.machine s.ip k = ((s.slot sb (fun _ m => m) k).1,
      (s.slot sb (fun _ m => m) k).2.ip, (s.slot sb (fun _ m => m) k).2.machine) := by
  unfold bmapSlot Mapping.slot Mapping.balloc
  by_cases hempty : s.ip.addrs k = 0
  · rw [if_pos hempty, if_pos hempty]
    by_cases hfull : (balloc sb s.machine).1 = 0
    · simp only [if_pos hfull]
    · simp only [if_neg hfull]
  · rw [if_neg hempty, if_neg hempty]

theorem entry_alone (sb : Superblock) (s : Mapping) (b j : Nat) :
    bmapEntry sb s.machine b j = ((s.entry sb (fun _ m => m) b j).1,
      (s.entry sb (fun _ m => m) b j).2.machine) ∧ (s.entry sb (fun _ m => m) b j).2.ip = s.ip := by
  unfold bmapEntry Mapping.entry Mapping.balloc Mapping.disk
  by_cases hempty : word (s.machine.disk b) j = 0
  · rw [if_pos hempty, if_pos hempty]
    by_cases hfull : (balloc sb s.machine).1 = 0
    · simp only [if_pos hfull, and_self]
    · simp only [if_neg hfull, and_self]
  · rw [if_neg hempty, if_neg hempty]
    exact ⟨rfl, rfl⟩

theorem bmapAmong_alone (sb : Superblock) (m : Machine) (ip : Dinode) (bn : Nat) :
    bmap sb m ip bn = (bmapAmong sb (fun _ _ m => m) m ip bn).map fun r =>
      (r.1, r.2.ip, r.2.machine) := by
  unfold bmap bmapAmong
  have hslot := slot_alone sb ⟨ip, m, [], []⟩
  by_cases hdirect : bn < NDIRECT
  · rw [dif_pos hdirect, dif_pos hdirect]
    exact congrArg Except.ok (hslot _)
  rw [dif_neg hdirect, dif_neg hdirect]
  by_cases hind : bn - NDIRECT < NINDIRECT
  · rw [if_pos hind, if_pos hind]
    have hs := hslot indSlot
    generalize (Mapping.mk ip m [] []).slot sb (fun _ m => m) indSlot = r at hs ⊢
    obtain ⟨a, s⟩ := r
    have he := entry_alone sb s a (bn - NDIRECT)
    simp only [hs]
    split
    · rw [Except.map]
    · rw [he.1, Except.map, he.2]
  rw [if_neg hind, if_neg hind]
  by_cases hdbl : bn - NDIRECT - NINDIRECT < DOUBLEINDIRECT
  · rw [if_pos hdbl, if_pos hdbl]
    have hs := hslot dblSlot
    generalize (Mapping.mk ip m [] []).slot sb (fun _ m => m) dblSlot = r at hs ⊢
    obtain ⟨a, s⟩ := r
    have he := entry_alone sb s a ((bn - NDIRECT - NINDIRECT) / NINDIRECT)
    simp only [hs]
    split
    · rw [Except.map]
    · generalize s.entry sb (fun _ m => m) a ((bn - NDIRECT - NINDIRECT) / NINDIRECT) = r at he ⊢
      obtain ⟨a', s'⟩ := r
      have he' := entry_alone sb s' a' ((bn - NDIRECT - NINDIRECT) % NINDIRECT)
      simp only [he.1, he'.1, Except.map]
      rw [he'.2, ← he.2]
  · rw [if_neg hdbl, if_neg hdbl]
    rfl

/-! ## What a step leaves of the tree -/

/-- From `ip`, `m` to `ip'`, `m'` addresses have only appeared, on the way to block `bn`. -/
structure Grew (sb : Superblock) (bn : Nat) (ip : Dinode) (m : Machine) (ip' : Dinode)
    (m' : Machine) : Prop where
  tree : WellFormedTree sb m'.disk ip'
  reserved : Reserved sb m'.disk
  low : ∀ c < sb.bmapstart, m'.disk c = m.disk c
  keep : ∀ n : Node, n.Valid → addr m.disk ip n ≠ 0 ∨ ¬ n.OnPath bn →
    addr m'.disk ip' n = addr m.disk ip n

theorem Grew.trans (h₁ : Grew sb bn ip m ip₁ m₁)
    (h₂ : Grew sb bn ip₁ m₁ ip' m') : Grew sb bn ip m ip' m' := by
  refine ⟨h₂.tree, h₂.reserved, fun c hc => (h₂.low c hc).trans (h₁.low c hc), fun n hn hkeep => ?_⟩
  have hone := h₁.keep n hn hkeep
  rw [← hone]
  apply h₂.keep n hn
  rwa [hone]

theorem Placed.grew {new : Node} (h : Placed sb ip m ip' m' new b)
    (hpath : new.OnPath bn) : Grew sb bn ip m ip' m' := by
  refine ⟨h.tree, h.reserved, h.low, fun n hn hkeep => h.elsewhere n hn ?_⟩
  rintro rfl
  exact hkeep.elim (fun hne => hne h.empty) fun hnot => hnot hpath

section Steps

variable (htree : WellFormedTree sb m.disk ip)
  (hreserved : Reserved sb m.disk)

/-- From `m` to `m'` the tree of `ip` has not changed. -/
structure Kept (sb : Superblock) (ip : Dinode) (m m' : Machine) : Prop where
  tree : WellFormedTree sb m'.disk ip
  reserved : Reserved sb m'.disk
  low : ∀ c < sb.bmapstart, m'.disk c = m.disk c
  addr : ∀ n : Node, n.Valid → addr m'.disk ip n = addr m.disk ip n

theorem Kept.grew (h : Kept sb ip m m') (bn : Nat) : Grew sb bn ip m ip m' :=
  ⟨h.tree, h.reserved, h.low, fun n hn _ => h.addr n hn⟩

theorem Kept.trans (h₁ : Kept sb ip m m₁) (h₂ : Kept sb ip m₁ m') : Kept sb ip m m' :=
  ⟨h₂.tree, h₂.reserved, fun c hc => (h₂.low c hc).trans (h₁.low c hc),
    fun n hn => (h₂.addr n hn).trans (h₁.addr n hn)⟩

include htree in
-- Steps that leave the blocks of the tree alone.
theorem Kept.of_same (hused : ∀ b, Used sb m.disk b → b ∈ treeBlocks m.disk ip →
      Used sb m'.disk b ∧ m'.disk b = m.disk b)
    (hreserved' : Reserved sb m'.disk)
    (hlow : ∀ c < sb.bmapstart, m'.disk c = m.disk c) : Kept sb ip m m' := by
  have hblock : ∀ n : Node, n.Valid → Kernel.addr m.disk ip n ≠ 0 →
      Used sb m'.disk (Kernel.addr m.disk ip n) ∧
        m'.disk (Kernel.addr m.disk ip n) = m.disk (Kernel.addr m.disk ip n) :=
    fun n hn hne => hused _ (htree.used_of_own n hn hne) (mem_treeBlocks.mpr ⟨hne, n, hn, rfl⟩)
  have haddr : ∀ n : Node, n.Valid → Kernel.addr m'.disk ip n = Kernel.addr m.disk ip n := by
    intro n hn
    refine @own_congr (· = 0) (fun _ => ip) (fun _ => ip) m.disk m'.disk (fun _ _ => rfl) ?_ (0, n)
      ⟨rfl, hn⟩
    intro _ slot q _ hq _ hne j
    exact congrArg (word · j) (hblock ⟨slot, q⟩ hq hne).2
  refine ⟨htree.transfer (fun n hn hne => ⟨hn, haddr n hn⟩) fun n hn hne _ => ?_, hreserved', hlow,
    haddr⟩
  rw [haddr n hn] at hne
  exact (hblock n hn hne).1

include htree hreserved

theorem Kept.refl : Kept sb ip m m :=
  .of_same htree (fun _ hb _ => ⟨hb, rfl⟩) hreserved fun _ _ => rfl

theorem kept_printf (line : String) : Kept sb ip m (m.printf line) := by
  refine .of_same htree ?_ hreserved fun _ _ => rfl
  exact fun _ hb _ => ⟨hb, rfl⟩

theorem kept_balloc : Kept sb ip m (balloc sb m).2 := by
  rcases balloc_cases sb m hreserved with ⟨b, m1, hballoc, halloc, -⟩ | ⟨hballoc, -⟩
  · rw [hballoc]
    have hle := sb.dataStart_le_size
    refine .of_same htree (fun c hc _ => ⟨⟨hc.1, hc.2.1, ?_⟩, ?_⟩) (fun c hc => ?_) halloc.low
    · rw [halloc.bits c hc.2.1, hc.2.2, Bool.true_or]
    · exact halloc.others c hc.1 (halloc.ne_of_used hc)
    · rw [halloc.bits c (by omega), hreserved c hc, Bool.true_or]
  · rw [hballoc]
    exact kept_printf htree hreserved outOfBlocks

theorem kept_bfree (hb : Used sb m.disk b) (hout : b ∉ treeBlocks m.disk ip)
    (h : bfree sb m b = .ok m') : Kept sb ip m m' := by
  obtain ⟨m1, hfree, hfreed, -⟩ := bfree_ok sb m hb.2.1 hb.2.2
  rw [hfree] at h
  cases h
  refine .of_same htree (fun c hc hmem => ⟨⟨hc.1, hc.2.1, ?_⟩, hfreed.data c hc.1⟩) (fun c hc => ?_)
    hfreed.low
  · have hne : b ≠ c := fun heq => hout (heq ▸ hmem)
    rw [hfreed.bits, hc.2.2, decide_eq_false hne]
    rfl
  · have hne : b ≠ c := by
      have hdata := hb.1
      omega
    rw [hfreed.bits, hreserved c hc, decide_eq_false hne]
    rfl

theorem Interferes.kept (h : Interferes sb ip m m') : Kept sb ip m m' := by
  induction h with
  | refl => exact .refl htree hreserved
  | balloc _ ih => exact ih.trans (kept_balloc ih.tree ih.reserved)
  | bfree _ hb hout hfree ih => exact ih.trans (kept_bfree ih.tree ih.reserved hb hout hfree)

end Steps

/-! ## The stages of the call -/

/-- What a call may modify: blocks of the bitmap, blocks that it has got, blocks of the tree. -/
def Own (sb : Superblock) (m : Machine) (ip : Dinode) (got : List Nat) (c : Nat) : Prop :=
  (∃ b < sb.size, c = BBLOCK sb b) ∨ (c ≠ 0 ∧ c ∈ got) ∨ c ∈ treeBlocks m.disk ip

theorem Own.cons {got : List Nat} {c : Nat} (h : Own sb m ip got c) (b : Nat) :
    Own sb m ip (b :: got) c :=
  h.imp_right (.imp_left (.imp_right (mem_cons_of_mem b)))

/-- The call has so far grown the tree of `ip` and modified nothing else. -/
structure Going (sb : Superblock) (bn : Nat) (m : Machine) (ip : Dinode) (s : Mapping) : Prop where
  grew : Grew sb bn ip m s.ip s.machine
  stored : ∀ c ∈ s.stored, Own sb m ip s.got c
  ours : ∀ n : Node, n.Valid → addr s.disk s.ip n ≠ 0 →
    addr s.disk s.ip n ∈ s.got ∨ addr s.disk s.ip n ∈ treeBlocks m.disk ip

variable {s s' : Mapping} {others : Dinode → Machine → Machine}

theorem going_init (htree : WellFormedTree sb m.disk ip)
    (hreserved : Reserved sb m.disk) (bn : Nat) :
    Going sb bn m ip ⟨ip, m, [], []⟩ := by
  refine ⟨(Kept.refl htree hreserved).grew bn, fun _ hc => (by cases hc), fun n hn hne => ?_⟩
  exact .inr (mem_treeBlocks.mpr ⟨hne, n, hn, rfl⟩)

/-- The turn of the others before an allocation. -/
def Mapping.interrupted (s : Mapping) (others : Dinode → Machine → Machine) : Machine :=
  others s.ip s.machine

-- The outcome of `balloc`: a fresh block, or a full disk.
theorem Mapping.balloc_cases (hreserved : ∀ b < sb.dataStart,
      bitOf sb (s.interrupted others).disk b = true) :
    (∃ b m₁, s.balloc sb others =
        (b, { s with machine := m₁, got := b :: s.got, stored := BBLOCK sb b :: b :: s.stored }) ∧
      Kernel.balloc sb (s.interrupted others) = (b, m₁) ∧
      Alloc sb (s.interrupted others).disk m₁.disk b) ∨
    (s.balloc sb others = (0, { s with
        machine := (s.interrupted others).printf outOfBlocks, got := 0 :: s.got }) ∧
      Full sb (s.interrupted others).disk) := by
  have hcases := Kernel.balloc_cases sb (s.interrupted others) hreserved
  unfold Mapping.balloc Mapping.touched
  unfold Mapping.interrupted at hcases ⊢
  unfold Kernel.balloc at hcases ⊢
  cases hfind : findFree sb (others s.ip s.machine).disk with
  | none =>
    right
    simp only [hfind]
    exact ⟨rfl, findFree_none hfind⟩
  | some b =>
    left
    simp only [hfind] at hcases ⊢
    rcases hcases with ⟨b', m₁, heq, halloc, -⟩ | ⟨-, hfull⟩
    · cases heq
      exact ⟨_, _, rfl, rfl, halloc⟩
    · obtain ⟨hlt, hfree, -⟩ := findFree_some hfind
      rw [hfull b hlt] at hfree
      cases hfree

theorem onPath_leafNode {bn bn' : Nat} (h : (leafNode bn').OnPath bn) : bn' = bn := by
  obtain ⟨hslot, hpath⟩ := h
  have hlen : (leafNode bn').path.length = (leafNode bn).path.length := by
    rw [length_leafNode, length_leafNode, hslot]
  have hsame : leafNode bn' = ⟨(leafNode bn).slot, (leafNode bn).path⟩ := by
    rw [← hslot, ← hpath.eq_of_length hlen]
  exact leafNode_inj hsame

namespace Going

section

variable (h : Going sb bn m ip s) (hothers : ∀ ip m, Interferes sb ip m (others ip m))

include h hothers

theorem kept : Kept sb s.ip s.machine (s.interrupted others) :=
  (hothers s.ip s.machine).kept h.grew.tree h.grew.reserved

-- A call of `balloc` that fails changes nothing.
theorem failed : Going sb bn m ip
    { s with machine := (s.interrupted others).printf outOfBlocks, got := 0 :: s.got } := by
  have hkept := h.kept hothers
  have hprint := hkept.trans (kept_printf hkept.tree hkept.reserved outOfBlocks)
  refine ⟨h.grew.trans (hprint.grew bn), fun c hc => (h.stored c hc).cons 0, fun n hn => ?_⟩
  have haddr := hprint.addr n hn
  change addr (s.interrupted others).disk s.ip n = _ at haddr
  change addr (s.interrupted others).disk s.ip n ≠ 0 →
    addr (s.interrupted others).disk s.ip n ∈ 0 :: s.got ∨
    addr (s.interrupted others).disk s.ip n ∈ treeBlocks m.disk ip
  rw [haddr]
  exact fun hne => (h.ours n hn hne).imp_left (mem_cons_of_mem 0)

-- A call of `balloc` that succeeds, its block being put at the node `new`.
theorem took {ip' : Dinode} {m' : Machine} {stored : List Nat} {new : Node}
    (hpath : new.OnPath bn) (hplaced : Placed sb s.ip (s.interrupted others) ip' m' new b)
    (hstored : ∀ c ∈ stored, Own sb m ip (b :: s.got) c) :
    Going sb bn m ip ⟨ip', m', b :: s.got, stored⟩ := by
  have hkept := h.kept hothers
  refine ⟨(h.grew.trans (hkept.grew bn)).trans (hplaced.grew hpath), hstored,
    fun n hn hne => ?_⟩
  change addr m'.disk ip' n ≠ 0 at hne
  change addr m'.disk ip' n ∈ b :: s.got ∨ addr m'.disk ip' n ∈ treeBlocks m.disk ip
  by_cases hn' : n = new
  · rw [hn', hplaced.here]
    exact .inl mem_cons_self
  · have haddr := (hplaced.elsewhere n hn hn').trans (hkept.addr n hn)
    rw [haddr] at hne ⊢
    exact (h.ours n hn hne).imp_left (mem_cons_of_mem b)

-- What `balloc` itself modifies.
omit hothers in
theorem stored_balloc (hlt : b < sb.size) (hne : b ≠ 0) :
    ∀ c ∈ BBLOCK sb b :: b :: s.stored, Own sb m ip (b :: s.got) c :=
  forall_mem_cons.mpr ⟨.inl ⟨b, hlt, rfl⟩, forall_mem_cons.mpr ⟨.inr (.inl ⟨hne, mem_cons_self⟩),
    fun c hc => (h.stored c hc).cons b⟩⟩

theorem slot {k : Fin (NDIRECT + 2)} (hk : k = (leafNode bn).slot) {a : Nat}
    (hrun : s.slot sb others k = (a, s')) : Going sb bn m ip s' ∧
      (a ≠ 0 → addr s'.disk s'.ip ⟨k, []⟩ = a ∧ (0 ∉ s.got → 0 ∉ s'.got)) := by
  have hkept := h.kept hothers
  unfold Mapping.slot at hrun
  split at hrun
  next hempty =>
    rcases Mapping.balloc_cases hkept.reserved with
      ⟨b, m1, hballoc, -, halloc⟩ | ⟨hballoc, -⟩
    · have hne := halloc.ne_zero
      have hplaced := placed_slot hkept.tree hkept.reserved halloc hempty
      simp only [hballoc, if_neg hne] at hrun
      cases hrun
      exact ⟨h.took hothers ⟨hk, nil_prefix⟩ hplaced (h.stored_balloc halloc.lt hne), fun _ =>
        ⟨hplaced.here, fun hfresh hzero => hfresh ((mem_cons.mp hzero).resolve_left hne.symm)⟩⟩
    · simp only [hballoc, if_true] at hrun
      cases hrun
      exact ⟨h.failed hothers, fun hne => absurd rfl hne⟩
  · cases hrun
    exact ⟨h, fun _ => ⟨rfl, id⟩⟩

theorem entry {slot : Fin (NDIRECT + 2)} {q : List Nat} {j a : Nat}
    (hvalid : Node.Valid ⟨slot, q ++ [j]⟩) (hpath : Node.OnPath ⟨slot, q ++ [j]⟩ bn)
    (ha : addr s.disk s.ip ⟨slot, q⟩ = a) (hne : a ≠ 0) {a' : Nat}
    (hrun : s.entry sb others a j = (a', s')) : Going sb bn m ip s' ∧
      (a' ≠ 0 → addr s'.disk s'.ip ⟨slot, q ++ [j]⟩ = a' ∧ (0 ∉ s.got → 0 ∉ s'.got) ∧
        ¬ (word (s.disk a) j = 0 ∧ Full sb (s.interrupted others).disk)) ∧
      (a' = 0 → s' = { s with
          machine := (s.interrupted others).printf outOfBlocks, got := 0 :: s.got } ∧
        word (s.disk a) j = 0 ∧ Full sb (s.interrupted others).disk) := by
  have hkept := h.kept hothers
  have hparent := hvalid.of_snoc.1
  have hchild : addr s.disk s.ip ⟨slot, q ++ [j]⟩ = word (s.disk a) j := by
    rw [addr_snoc, ha, Kernel.entry, if_neg hne]
  unfold Mapping.entry at hrun
  split at hrun
  next hempty =>
    have ha' : addr (s.interrupted others).disk s.ip ⟨slot, q⟩ = a :=
      (hkept.addr _ hparent).trans ha
    have hempty' : word ((s.interrupted others).disk a) j = 0 := by
      have hsame := hkept.addr _ hvalid
      change _ = addr s.disk s.ip ⟨slot, q ++ [j]⟩ at hsame
      rwa [hchild, hempty, addr_snoc, ha', Kernel.entry, if_neg hne] at hsame
    rcases Mapping.balloc_cases hkept.reserved with
      ⟨b, m1, hballoc, -, halloc⟩ | ⟨hballoc, hfull⟩
    · have hb := halloc.ne_zero
      have hplaced : Placed sb s.ip (s.interrupted others) s.ip
          ((m1.store a (setWord (m1.disk a) j b)).logWrite a) ⟨slot, q ++ [j]⟩ b :=
        placed_entry hkept.tree hkept.reserved halloc hvalid (by rw [ha']; exact hne)
          (by rw [ha']; exact hempty') (by rw [ha']; rfl)
      simp only [hballoc, if_neg hb] at hrun
      cases hrun
      refine ⟨h.took hothers hpath hplaced (forall_mem_cons.mpr ⟨?_, h.stored_balloc halloc.lt hb⟩),
        fun _ => ⟨hplaced.here, fun hfresh hzero => ?_, fun hfull => ?_⟩,
        fun hzero => absurd hzero hb⟩
      · -- the indirect block is one of the tree, or fresh
        have hours := h.ours _ hparent (by rw [ha]; exact hne)
        rw [ha] at hours
        exact .inr (hours.imp_left fun hgot => ⟨hne, mem_cons_of_mem _ hgot⟩)
      · exact hfresh ((mem_cons.mp hzero).resolve_left hb.symm)
      · have hset := hfull.2 _ halloc.lt
        rw [halloc.free] at hset
        cases hset
    · simp only [hballoc, if_true] at hrun
      cases hrun
      exact ⟨h.failed hothers, fun hzero => absurd rfl hzero, fun _ => ⟨rfl, hempty, hfull⟩⟩
  next hempty =>
    cases hrun
    exact ⟨h, fun _ => ⟨hchild, id, fun hfull => hempty hfull.1⟩, fun hzero => absurd hzero hempty⟩

end

theorem clean (h : Going sb bn m ip s) (hbn : bn < MAXFILE) {a : Nat}
    (hfound : a ≠ 0 → addr s.disk s.ip (leafNode bn) = a ∧ 0 ∉ s.got) :
    CleanCall sb m ip bn a s := by
  refine ⟨fun hzero => ?_, fun ha => ⟨(hfound ha).1, ?_⟩, fun bn' hbn' hne => ?_, h.stored⟩
  · by_contra ha
    exact (hfound ha).2 hzero
  · have hmapped : addr s.machine.disk s.ip (leafNode bn) = a := (hfound ha).1
    rw [bmap_mapped sb s.machine s.ip hbn (by rw [hmapped]; exact ha), hmapped]
  · exact h.grew.keep _ (leafNode_valid hbn') (.inr fun hpath => hne (onPath_leafNode hpath))

theorem clean_zero (h : Going sb bn m ip s) (hbn : bn < MAXFILE) : CleanCall sb m ip bn 0 s :=
  h.clean hbn fun hne => absurd rfl hne

end Going

/-! ## The defect -/

/-- The double-indirect block of `ip` is there, or `balloc` finds one: `ip₁`, `m₁` are the state in
which the second-level block is looked up. -/
def DoubleReady (sb : Superblock) (others : Others) (m : Machine) (ip ip₁ : Dinode) (m₁ : Machine) :
    Prop :=
  (ip.addrs dblSlot ≠ 0 ∧ ip₁ = ip ∧ m₁ = m) ∨
    (ip.addrs dblSlot = 0 ∧ ∃ b ≠ 0, balloc sb (others 0 ip m) = (b, m₁) ∧
      ip₁ = { ip with addrs := Function.update ip.addrs dblSlot b })

/-- The call needs a second-level block when every block is in use, and goes on with block 0: the
boot block has a non-zero word at the index of the data block, or a block has become free by the
time of the next `balloc`. -/
def GoesOn (sb : Superblock) (others : Others) (m : Machine) (ip : Dinode) (bn : Nat) : Prop :=
  NDIRECT + NINDIRECT ≤ bn ∧ ∃ ip₁ m₁, DoubleReady sb others m ip ip₁ m₁ ∧
    word (m₁.disk (ip₁.addrs dblSlot)) ((bn - NDIRECT - NINDIRECT) / NINDIRECT) = 0 ∧
    Full sb (others 1 ip₁ m₁).disk ∧
    (word (m.disk 0) ((bn - NDIRECT - NINDIRECT) % NINDIRECT) ≠ 0 ∨
      ¬ Full sb (others 2 ip₁ ((others 1 ip₁ m₁).printf outOfBlocks)).disk)

theorem doubleReady_iff {others : Others} : DoubleReady sb others m ip ip₁ m₁ ↔
      ((Mapping.mk ip m [] []).slot sb (others 0) dblSlot).1 ≠ 0 ∧
      ((Mapping.mk ip m [] []).slot sb (others 0) dblSlot).2.ip = ip₁ ∧
      ((Mapping.mk ip m [] []).slot sb (others 0) dblSlot).2.machine = m₁ := by
  unfold DoubleReady Mapping.slot Mapping.balloc
  by_cases hempty : ip.addrs dblSlot = 0
  · rcases hb : balloc sb (others 0 ip m) with ⟨b, m'⟩
    by_cases hzero : b = 0
    · simp only [hempty, if_true, hb, hzero]
      constructor
      · rintro (⟨hne, -⟩ | ⟨-, b', hne, heq, -⟩)
        · exact absurd rfl hne
        · exact absurd (Prod.mk.inj heq).1.symm hne
      · rintro ⟨hne, -⟩
        exact absurd rfl hne
    · simp only [hempty, if_true, hb, if_neg hzero]
      constructor
      · rintro (⟨hne, -⟩ | ⟨-, b', -, heq, rfl⟩)
        · exact absurd rfl hne
        · cases heq
          exact ⟨hzero, rfl, rfl⟩
      · rintro ⟨-, rfl, rfl⟩
        exact .inr ⟨trivial, b, hzero, rfl, rfl⟩
  · simp only [if_neg hempty]
    constructor
    · rintro (⟨hne, rfl, rfl⟩ | ⟨hzero, -⟩)
      · exact ⟨hne, rfl, rfl⟩
      · exact absurd hzero hempty
    · rintro ⟨hne, rfl, rfl⟩
      exact .inl ⟨hne, rfl, rfl⟩

-- The stage that takes block 0 for the second-level block.
theorem entry_boot {others : Dinode → Machine → Machine} (hreserved : ∀ b < sb.dataStart,
      bitOf sb (s.interrupted others).disk b = true) {k a : Nat}
    (hrun : s.entry sb others 0 k = (a, s')) : (a ≠ 0 → (0 ∈ s.got → 0 ∈ s'.got) ∧
        (word (s.disk 0) k ≠ 0 ∨ ¬ Full sb (s.interrupted others).disk)) ∧
      (a = 0 → s' = { s with
          machine := (s.interrupted others).printf outOfBlocks, got := 0 :: s.got } ∧
        word (s.disk 0) k = 0 ∧ Full sb (s.interrupted others).disk) := by
  unfold Mapping.entry at hrun
  split at hrun
  next hempty =>
    rcases Mapping.balloc_cases hreserved with ⟨b, m1, hballoc, -, halloc⟩ | ⟨hballoc, hfull⟩
    · simp only [hballoc, if_neg halloc.ne_zero] at hrun
      obtain ⟨rfl, rfl⟩ := Prod.mk.inj hrun
      refine ⟨fun _ => ⟨mem_cons_of_mem b, .inr fun hfull => ?_⟩,
        fun hzero => absurd hzero halloc.ne_zero⟩
      have hset := hfull b halloc.lt
      rw [halloc.free] at hset
      cases hset
    · simp only [hballoc, if_true] at hrun
      cases hrun
      exact ⟨fun hzero => absurd rfl hzero, fun _ => ⟨rfl, hempty, hfull⟩⟩
  next hempty =>
    cases hrun
    exact ⟨fun _ => ⟨id, .inl hempty⟩, fun hzero => absurd hzero hempty⟩

section Levels

variable {others : Others} (hbn : bn < MAXFILE) (hinit : Going sb bn m ip ⟨ip, m, [], []⟩)
  (hothers : ∀ k ip m, Interferes sb ip m (others k ip m))

include hbn hinit hothers

theorem bmapAmong_direct (hdirect : bn < NDIRECT) :
    ∃ a s, bmapAmong sb others m ip bn = .ok (a, s) ∧ CleanCall sb m ip bn a s := by
  have hleaf := leafNode_direct hdirect
  unfold bmapAmong
  rw [dif_pos hdirect]
  rcases hslot : (Mapping.mk ip m [] []).slot sb (others 0) ⟨bn, by omega⟩ with ⟨a, s⟩
  obtain ⟨hgoing, hfound⟩ := hinit.slot (hothers 0) (by rw [hleaf]) hslot
  refine ⟨a, s, rfl, hgoing.clean hbn fun hne => ?_⟩
  rw [hleaf]
  exact ⟨(hfound hne).1, (hfound hne).2 not_mem_nil⟩

theorem bmapAmong_indirect (hdirect : ¬ bn < NDIRECT) (hind : bn - NDIRECT < NINDIRECT) :
    ∃ a s, bmapAmong sb others m ip bn = .ok (a, s) ∧ CleanCall sb m ip bn a s := by
  have hleaf := leafNode_ind hdirect hind
  unfold bmapAmong
  rw [dif_neg hdirect, if_pos hind]
  rcases hslot : (Mapping.mk ip m [] []).slot sb (others 0) indSlot with ⟨a1, s1⟩
  obtain ⟨hgoing, hfound⟩ := hinit.slot (hothers 0) (by rw [hleaf]) hslot
  by_cases hzero : a1 = 0
  · simp only [if_pos hzero]
    exact ⟨0, s1, rfl, hgoing.clean_zero hbn⟩
  · obtain ⟨haddr, hfresh⟩ := hfound hzero
    simp only [if_neg hzero]
    rcases hentry : s1.entry sb (others 1) a1 (bn - NDIRECT) with ⟨a, s⟩
    have hvalid : Node.Valid ⟨indSlot, [] ++ [bn - NDIRECT]⟩ :=
      (valid_root indSlot).snoc (by decide) hind
    have hpath : Node.OnPath ⟨indSlot, [] ++ [bn - NDIRECT]⟩ bn := by
      rw [Node.OnPath, hleaf]
      exact ⟨rfl, prefix_rfl⟩
    obtain ⟨hgoing2, hfound2, -⟩ := hgoing.entry (hothers 1) hvalid hpath haddr hzero hentry
    refine ⟨a, s, rfl, hgoing2.clean hbn fun hne => ?_⟩
    rw [hleaf]
    exact ⟨(hfound2 hne).1, (hfound2 hne).2.1 (hfresh not_mem_nil)⟩

theorem bmapAmong_double (hdirect : ¬ bn < NDIRECT) (hind : ¬ bn - NDIRECT < NINDIRECT) :
    ∃ a s, bmapAmong sb others m ip bn = .ok (a, s) ∧
      (CleanCall sb m ip bn a s ↔ ¬ GoesOn sb others m ip bn) := by
  have hleaf := leafNode_dbl hdirect hind
  have hdbl : bn - NDIRECT - NINDIRECT < DOUBLEINDIRECT := by
    simp only [MAXFILE, NDIRECT, NINDIRECT, DOUBLEINDIRECT] at *
    omega
  have hle : NDIRECT + NINDIRECT ≤ bn := by omega
  unfold bmapAmong GoesOn
  rw [dif_neg hdirect, if_neg hind, if_pos hdbl]
  simp only [doubleReady_iff]
  generalize hj : (bn - NDIRECT - NINDIRECT) / NINDIRECT = j at hleaf
  generalize hk : (bn - NDIRECT - NINDIRECT) % NINDIRECT = k at hleaf
  have hjlt : j < NINDIRECT := by rw [← hj]; exact Nat.div_lt_of_lt_mul hdbl
  have hklt : k < NINDIRECT := by rw [← hk]; exact Nat.mod_lt _ (by decide)
  have hvalid : Node.Valid ⟨dblSlot, [] ++ [j]⟩ := (valid_root dblSlot).snoc (by decide) hjlt
  have hvalid' : Node.Valid ⟨dblSlot, [j] ++ [k]⟩ :=
    hvalid.snoc (by rw [nil_append, length_singleton]; decide) hklt
  have hpath : Node.OnPath ⟨dblSlot, [] ++ [j]⟩ bn := by
    rw [Node.OnPath, hleaf]
    exact ⟨rfl, prefix_append [j] [k]⟩
  have hpath' : Node.OnPath ⟨dblSlot, [j] ++ [k]⟩ bn := by
    rw [Node.OnPath, hleaf]
    exact ⟨rfl, prefix_rfl⟩
  rcases hslot : (Mapping.mk ip m [] []).slot sb (others 0) dblSlot with ⟨a1, s1⟩
  obtain ⟨hgoing, hfound⟩ := hinit.slot (hothers 0) (by rw [hleaf]) hslot
  by_cases hzero : a1 = 0
  · simp only [if_pos hzero]
    refine ⟨0, s1, rfl, iff_of_true (hgoing.clean_zero hbn) ?_⟩
    rintro ⟨-, ip1, m1, ⟨hne, -⟩, -⟩
    exact hne hzero
  obtain ⟨haddr, hfresh⟩ := hfound hzero
  simp only [if_neg hzero]
  rcases hentry : s1.entry sb (others 1) a1 j with ⟨a2, s2⟩
  obtain ⟨hgoing2, hfound2, hfailed2⟩ := hgoing.entry (hothers 1) hvalid hpath haddr hzero hentry
  rcases hentry' : s2.entry sb (others 2) a2 k with ⟨a, s⟩
  refine ⟨a, s, rfl, ?_⟩
  rw [addr_root] at haddr
  by_cases hzero2 : a2 = 0
  · -- the second-level block is not there, and none can be had
    obtain ⟨rfl, hword, hfull⟩ := hfailed2 hzero2
    have hboot : word ((s1.interrupted (others 1)).disk 0) k = word (m.disk 0) k :=
      congrArg (word · k) (hgoing2.grew.low 0 sb.bmapstart_pos)
    rw [hzero2] at hentry'
    obtain ⟨hgoes, hstops⟩ := entry_boot (hgoing2.kept (hothers 2)).reserved hentry'
    by_cases hlast : a = 0
    · obtain ⟨rfl, hword', hfull'⟩ := hstops hlast
      rw [hlast]
      refine iff_of_true ((hgoing2.failed (hothers 2)).clean_zero hbn) ?_
      rintro ⟨-, ip1, m1, ⟨-, rfl, rfl⟩, -, -, hboth⟩
      exact hboth.elim (fun h => h (hboot.symm.trans hword')) fun h => h hfull'
    · obtain ⟨hgot, hwhy⟩ := hgoes hlast
      refine iff_of_false (fun hclean => hlast (hclean.failure (hgot mem_cons_self)))
        (not_not.mpr ⟨hle, s1.ip, s1.machine, ⟨hzero, rfl, rfl⟩, by rw [haddr]; exact hword, hfull,
          hwhy.imp_left fun hne h => hne (hboot.trans h)⟩)
  · obtain ⟨haddr2, hfresh2, hnot⟩ := hfound2 hzero2
    obtain ⟨hgoing3, hfound3, -⟩ := hgoing2.entry (hothers 2) hvalid' hpath' haddr2 hzero2 hentry'
    refine iff_of_true (hgoing3.clean hbn fun hne => ?_) ?_
    · rw [hleaf]
      exact ⟨(hfound3 hne).1, (hfound3 hne).2.1 (hfresh2 (hfresh not_mem_nil))⟩
    · rintro ⟨-, ip1, m1, ⟨-, rfl, rfl⟩, hword, hfull, -⟩
      rw [haddr] at hword
      exact hnot ⟨hword, hfull⟩

end Levels

/-- A call of `bmap` for a block number in range returns, whatever other processes allocate and free
before each of its calls of `balloc`, and it fails cleanly exactly when it does not go on from a
failed allocation of a second-level block. -/
theorem bmap_fails_cleanly_iff {others : Others} (hbn : bn < MAXFILE)
    (htree : WellFormedTree sb m.disk ip)
    (hreserved : ∀ b < sb.dataStart, bitOf sb m.disk b = true)
    (hothers : ∀ k ip m, Interferes sb ip m (others k ip m)) :
    ∃ a s, bmapAmong sb others m ip bn = .ok (a, s) ∧
      (CleanCall sb m ip bn a s ↔ ¬ GoesOn sb others m ip bn) := by
  have hinit := going_init htree hreserved bn
  have hshallow : bn - NDIRECT < NINDIRECT → ¬ GoesOn sb others m ip bn := fun hlt h => by
    have hle := h.1
    omega
  by_cases hdirect : bn < NDIRECT
  · obtain ⟨a, s, hrun, hclean⟩ := bmapAmong_direct hbn hinit hothers hdirect
    exact ⟨a, s, hrun, iff_of_true hclean
      (hshallow (by simp only [NDIRECT, NINDIRECT] at *; omega))⟩
  by_cases hind : bn - NDIRECT < NINDIRECT
  · obtain ⟨a, s, hrun, hclean⟩ := bmapAmong_indirect hbn hinit hothers hdirect hind
    exact ⟨a, s, hrun, iff_of_true hclean (hshallow hind)⟩
  · exact bmapAmong_double hbn hinit hothers hdirect hind

/-! ## A full disk -/

/-- Every data block is in use. -/
@[irreducible] def fullDisk (sb : Superblock) : Disk :=
  diskWith sb (List.range' sb.dataStart sb.nblocks)

theorem full_fullDisk (sb : Superblock) : Full sb (fullDisk sb) := by
  intro c hc
  rw [fullDisk, bitOf_diskWith, Bool.or_eq_true, decide_eq_true_eq, decide_eq_true_eq,
    mem_dataBlocks]
  omega

theorem wellFormedTree_fullDisk (k : Fin (NDIRECT + 2)) (hdata : sb.dataStart ≤ b)
    (hb : b < sb.size) : WellFormedTree sb (fullDisk sb) (oneBlock k b) := by
  rw [fullDisk]
  exact wellFormedTree_oneBlock (fun _ hc => mem_dataBlocks.mp hc) (mem_dataBlocks.mpr ⟨hdata, hb⟩)

/-- Another process frees block `b` before the allocation of the data block, if it may. -/
def freeLate (sb : Superblock) (b : Nat) : Others := fun k ip m =>
  if k = 2 ∧ (sb.dataStart ≤ b ∧ b < sb.size ∧ bitOf sb m.disk b = true) ∧
      b ∉ treeBlocks m.disk ip then
    match bfree sb m b with
    | .ok m' => m'
    | .error _ => m
  else m

theorem freeLate_interferes (b k : Nat) (ip : Dinode) (m : Machine) :
    Interferes sb ip m (freeLate sb b k ip m) := by
  unfold freeLate
  split
  next hmay =>
    obtain ⟨m', hfree, -⟩ := bfree_ok sb m hmay.2.1.2.1 hmay.2.1.2.2
    rw [hfree]
    exact .bfree .refl hmay.2.1 hmay.2.2 hfree
  · exact .refl

-- The double-indirect block `b` has nothing below it, and all blocks are in use.
theorem goesOn_freeLate (hdata : sb.dataStart ≤ b) (hb : b + 1 < sb.size) :
    GoesOn sb (freeLate sb (b + 1)) ⟨fullDisk sb, [], []⟩ (oneBlock dblSlot b) 267 := by
  have htwo := sb.two_le_dataStart
  have hslot := oneBlock_addrs dblSlot b
  have hmem : b ∈ List.range' sb.dataStart sb.nblocks := mem_dataBlocks.mpr ⟨hdata, by omega⟩
  refine ⟨by decide, oneBlock dblSlot b, ⟨fullDisk sb, [], []⟩, .inl ⟨?_, rfl, rfl⟩, ?_, ?_,
    .inr ?_⟩
  · rw [hslot]
    omega
  · rw [hslot]
    change word (fullDisk sb b) _ = 0
    rw [fullDisk, diskWith_of_not_bitmap (fun _ hc => (mem_dataBlocks.mp hc).2) (.inr hdata),
      word_zero]
  · exact full_fullDisk sb
  · -- the other process frees its block when the second-level block has been refused
    have hmay : 2 = 2 ∧ (sb.dataStart ≤ b + 1 ∧ b + 1 < sb.size ∧
        bitOf sb (fullDisk sb) (b + 1) = true) ∧
        b + 1 ∉ treeBlocks (fullDisk sb) (oneBlock dblSlot b) := by
      refine ⟨rfl, ⟨by omega, hb, full_fullDisk sb _ hb⟩, fun hin => ?_⟩
      obtain ⟨hne, n, -, haddr⟩ := mem_treeBlocks.mp hin
      rw [← haddr, fullDisk] at hne
      have hone := addr_oneBlock (fun _ hc => mem_dataBlocks.mp hc) hmem hne
      rw [fullDisk] at haddr
      omega
    intro hfull
    have hbit := hfull _ hb
    change bitOf sb (freeLate sb (b + 1) 2 (oneBlock dblSlot b)
      ⟨fullDisk sb, [], [outOfBlocks]⟩).disk (b + 1) = true at hbit
    unfold freeLate at hbit
    rw [if_pos hmay] at hbit
    obtain ⟨m', hfree, hfreed, -⟩ := bfree_ok sb ⟨fullDisk sb, [], [outOfBlocks]⟩ hb hmay.2.1.2.2
    rw [hfree] at hbit
    rw [hfreed.bits, decide_eq_true rfl, Bool.and_eq_true] at hbit
    exact absurd hbit.2 (by decide)

theorem reserved_fullDisk : Reserved sb (fullDisk sb) := fun b hb =>
  full_fullDisk sb b (lt_of_lt_of_le hb sb.dataStart_le_size)

theorem unclean_freeLate (hdata : sb.dataStart ≤ b) (hb : b + 1 < sb.size) :
    ∃ a s, bmapAmong sb (freeLate sb (b + 1)) ⟨fullDisk sb, [], []⟩ (oneBlock dblSlot b) 267 =
        .ok (a, s) ∧
      ¬ CleanCall sb ⟨fullDisk sb, [], []⟩ (oneBlock dblSlot b) 267 a s := by
  have hinit := going_init (m := ⟨fullDisk sb, [], []⟩)
    (wellFormedTree_fullDisk dblSlot hdata (by omega)) reserved_fullDisk 267
  obtain ⟨a, s, hrun, hiff⟩ := bmapAmong_double (by decide) hinit (freeLate_interferes (b + 1))
    (by decide) (by decide)
  exact ⟨a, s, hrun, fun hclean => hiff.mp hclean (goesOn_freeLate hdata hb)⟩

-- A direct block on the full disk: the call returns 0 and has changed nothing.
theorem bmap_fails_cleanly_direct : ∃ a s,
    bmapAmong mkfsLayout (freeLate mkfsLayout 101) ⟨fullDisk mkfsLayout, [], []⟩
        (oneBlock dblSlot 100) 5 = .ok (a, s) ∧
      CleanCall mkfsLayout ⟨fullDisk mkfsLayout, [], []⟩ (oneBlock dblSlot 100) 5 a s := by
  have htree : WellFormedTree mkfsLayout (fullDisk mkfsLayout) (oneBlock dblSlot 100) :=
    wellFormedTree_fullDisk dblSlot (by decide) (by decide)
  have hreserved : Reserved mkfsLayout (fullDisk mkfsLayout) :=
    reserved_fullDisk
  obtain ⟨a, s, hrun, hiff⟩ := bmap_fails_cleanly_iff (m := ⟨fullDisk mkfsLayout, [], []⟩)
    (by decide : 5 < MAXFILE) htree hreserved (freeLate_interferes 101)
  exact ⟨a, s, hrun, hiff.mpr fun hgoes => absurd hgoes.1 (by decide)⟩

/-- All blocks are in use when `bmap` asks for the first second-level block of the file; another
process then frees one, `bmap` takes it for the data block and records it in the boot block. -/
theorem bmap_goes_on_with_boot_block :
    WellFormedTree mkfsLayout (fullDisk mkfsLayout) (oneBlock dblSlot 100) ∧
      (∀ k ip m, Interferes mkfsLayout ip m (freeLate mkfsLayout 101 k ip m)) ∧
      ∃ a s, bmapAmong mkfsLayout (freeLate mkfsLayout 101) ⟨fullDisk mkfsLayout, [], []⟩
          (oneBlock dblSlot 100) 267 = .ok (a, s) ∧
        ¬ CleanCall mkfsLayout ⟨fullDisk mkfsLayout, [], []⟩ (oneBlock dblSlot 100) 267 a s :=
  ⟨wellFormedTree_fullDisk dblSlot (by decide) (by decide), freeLate_interferes 101,
    unclean_freeLate (by decide) (by decide)⟩

end OsProjects.Kernel
