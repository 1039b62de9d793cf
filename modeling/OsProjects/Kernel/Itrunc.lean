import OsProjects.Kernel.Tree
import OsProjects.Lib.FoldM
import Mathlib.Data.List.Nodup

/-!
# Itrunc — `itrunc` of `fs.c`

The loops free the blocks of the tree in post-order.  They follow a second-level entry without
testing it: an absent second-level block is taken to be block 0, and block 0 is freed.
-/

namespace OsProjects.Kernel

open Lib Function List

/-- `ip->addrs[k] = 0`. -/
def Dinode.dropAddr (ip : Dinode) (k : Fin (NDIRECT + 2)) : Dinode :=
  { ip with addrs := update ip.addrs k 0 }

/-- Free the block of one direct slot. -/
def freeDirect (sb : Superblock) (s : Dinode × Machine) (k : Fin (NDIRECT + 2)) :
    Except String (Dinode × Machine) :=
  if s.1.addrs k ≠ 0 then
    (bfree sb s.2 (s.1.addrs k)).map fun m => (s.1.dropAddr k, m)
  else .ok s

/-- Free the blocks that an indirect block names. -/
def freeEntries (sb : Superblock) (a : Block) (m : Machine) : Except String Machine :=
  (List.range NINDIRECT).foldlM (fun m j => if word a j ≠ 0 then bfree sb m (word a j) else .ok m) m

/-- Free the tree below the single-indirect block, and the block. -/
def freeIndirect (sb : Superblock) (s : Dinode × Machine) : Except String (Dinode × Machine) :=
  if s.1.addrs indSlot ≠ 0 then do
    let m ← freeEntries sb (s.2.disk (s.1.addrs indSlot)) s.2
    let m ← bfree sb m (s.1.addrs indSlot)
    return (s.1.dropAddr indSlot, m)
  else .ok s

/-- Free the tree below the double-indirect block, and the block. -/
def freeDouble (sb : Superblock) (s : Dinode × Machine) : Except String (Dinode × Machine) :=
  if s.1.addrs dblSlot ≠ 0 then do
    let a := s.2.disk (s.1.addrs dblSlot)
    let m ← (List.range NINDIRECT).foldlM (fun m j => do
      -- `a[j]` is not tested here
      let m ← freeEntries sb (m.disk (word a j)) m
      bfree sb m (word a j)) s.2
    let m ← bfree sb m (s.1.addrs dblSlot)
    return (s.1.dropAddr dblSlot, m)
  else .ok s

/-- The direct slots, in the order of the loop. -/
def directSlots : List (Fin (NDIRECT + 2)) := (List.finRange NDIRECT).map (Fin.castAdd 2)

def itrunc (sb : Superblock) (m : Machine) (inum : Nat) (ip : Dinode) :
    Except String (Dinode × Machine) := do
  let s ← directSlots.foldlM (freeDirect sb) (ip, m)
  let s ← freeIndirect sb s
  let s ← freeDouble sb s
  let ip := { s.1 with size := 0 }
  return (ip, iupdate sb s.2 inum ip)

/-! ## Freeing a list of blocks -/

def bfreeAll (sb : Superblock) (bs : List Nat) (m : Machine) : Except String Machine :=
  bs.foldlM (bfree sb) m

/-- What freeing all of `bs` does to the disk. -/
structure FreedAll (sb : Superblock) (d d' : Disk) (bs : List Nat) : Prop where
  data : ∀ c, sb.dataStart ≤ c → d' c = d c
  low : ∀ c < sb.bmapstart, d' c = d c
  bits : ∀ c, bitOf sb d' c = (bitOf sb d c && !decide (c ∈ bs))

variable {sb : Superblock} {m m' : Machine} {ip : Dinode} {d : Disk} {b : Nat}
  {k : Fin (NDIRECT + 2)} {bs : List Nat} {ks : List (Fin (NDIRECT + 2))}

theorem bfreeAll_cons (b : Nat) (bs : List Nat) (m : Machine) :
    bfreeAll sb (b :: bs) m = (bfree sb m b).bind fun m => bfreeAll sb bs m :=
  foldlM_cons

theorem bfreeAll_append (bs cs : List Nat) (m : Machine) :
    bfreeAll sb (bs ++ cs) m = (bfreeAll sb bs m).bind fun m => bfreeAll sb cs m :=
  foldlM_append_except _ _ _ _

theorem bfreeAll_ok (hnodup : bs.Nodup) (hset : ∀ b ∈ bs, b < sb.size ∧ bitOf sb m.disk b = true) :
    ∃ m', bfreeAll sb bs m = .ok m' ∧ FreedAll sb m.disk m'.disk bs ∧ m'.console = m.console := by
  induction bs generalizing m with
  | nil => exact ⟨m, rfl, ⟨fun _ _ => rfl, fun _ _ => rfl, fun c => by simp⟩, rfl⟩
  | cons b bs ih =>
    obtain ⟨hb, hnodup⟩ := nodup_cons.mp hnodup
    obtain ⟨hlt, hbit⟩ := hset b mem_cons_self
    obtain ⟨m1, hfree, hfreed, hconsole1⟩ := bfree_ok sb m hlt hbit
    have hset1 : ∀ c ∈ bs, c < sb.size ∧ bitOf sb m1.disk c = true := by
      intro c hc
      obtain ⟨hclt, hcbit⟩ := hset c (mem_cons_of_mem b hc)
      have hne : b ≠ c := fun heq => hb (heq ▸ hc)
      refine ⟨hclt, ?_⟩
      rw [hfreed.bits c, hcbit, decide_eq_false hne]
      rfl
    obtain ⟨m', hall, hfreed', hconsole'⟩ := ih hnodup hset1
    refine ⟨m', by rw [bfreeAll_cons, hfree]; exact hall, ⟨fun c hc => ?_, fun c hc => ?_,
      fun c => ?_⟩, hconsole'.trans hconsole1⟩
    · rw [hfreed'.data c hc, hfreed.data c hc]
    · rw [hfreed'.low c hc, hfreed.low c hc]
    · rw [hfreed'.bits c, hfreed.bits c, Bool.and_assoc]
      congr 1
      by_cases hbc : b = c
      · simp [hbc]
      · have hcb : ¬ c = b := fun h => hbc h.symm
        simp [hbc, hcb]

-- Freeing a free block, or one block twice, panics.
theorem bfreeAll_panics (hlt : ∀ b ∈ bs, b < sb.size)
    (hbad : ¬ bs.Nodup ∨ ∃ b ∈ bs, bitOf sb m.disk b = false) :
    bfreeAll sb bs m = .error "freeing free block" := by
  induction bs generalizing m with
  | nil => simp at hbad
  | cons b bs ih =>
    rw [bfreeAll_cons]
    cases hbit : bitOf sb m.disk b with
    | false =>
      rw [bfree_free sb m hbit]
      rfl
    | true =>
      obtain ⟨m1, hfree, hfreed, -⟩ := bfree_ok sb m (hlt b mem_cons_self) hbit
      rw [hfree]
      apply ih fun c hc => hlt c (mem_cons_of_mem b hc)
      rw [nodup_cons, not_and_or, not_not] at hbad
      rcases hbad with (hmem | hdup) | ⟨c, hc, hclear⟩
      · exact .inr ⟨b, hmem, by rw [hfreed.bits b, decide_eq_true rfl]; simp⟩
      · exact .inl hdup
      · rcases mem_cons.mp hc with heq | hc
        · rw [heq, hbit] at hclear
          cases hclear
        · exact .inr ⟨c, hc, by rw [hfreed.bits c, hclear]; rfl⟩

/-! ## The loops free a list -/

/-- Outside the bitmap the disk is as before. -/
def SameOutsideBitmap (sb : Superblock) (d : Disk) (m : Machine) : Prop :=
  ∀ c, c < sb.bmapstart ∨ sb.dataStart ≤ c → m.disk c = d c

theorem bfree_sameOutsideBitmap (hb : b < sb.size)
    (hm : SameOutsideBitmap sb d m) (h : bfree sb m b = .ok m') : SameOutsideBitmap sb d m' := by
  intro c hc
  obtain ⟨m1, hfree, hfreed, -⟩ := bfree_ok sb m hb (bfree_inv h).1
  rw [hfree] at h
  cases h
  rcases hc with hlow | hdata
  · rw [hfreed.low c hlow, hm c (.inl hlow)]
  · rw [hfreed.data c hdata, hm c (.inr hdata)]

/-- The blocks that `freeEntries` frees. -/
def entryBlocks (a : Block) : List Nat :=
  (List.range NINDIRECT).flatMap fun j => if word a j ≠ 0 then [word a j] else []

theorem freeEntries_eq (a : Block) (m : Machine) :
    freeEntries sb a m = bfreeAll sb (entryBlocks a) m := by
  apply foldlM_flatten (fun _ => True) _ (fun _ _ _ _ _ _ => trivial) trivial
  intro m j _ _
  split
  · exact (bind_pure _).symm
  · rfl

/-- The blocks freed for a single-indirect block. -/
def indirectBlocks (d : Disk) (a : Nat) : List Nat := entryBlocks (d a) ++ [a]

/-- The blocks freed for a double-indirect block. -/
def doubleBlocks (d : Disk) (a : Nat) : List Nat :=
  ((List.range NINDIRECT).flatMap fun j => indirectBlocks d (word (d a) j)) ++ [a]

/-- The blocks that `itrunc` frees, in its order. -/
def truncBlocks (d : Disk) (ip : Dinode) : List Nat :=
  (directSlots.flatMap fun k => if ip.addrs k ≠ 0 then [ip.addrs k] else []) ++
    (if ip.addrs indSlot ≠ 0 then indirectBlocks d (ip.addrs indSlot) else []) ++
    (if ip.addrs dblSlot ≠ 0 then doubleBlocks d (ip.addrs dblSlot) else [])

/-- The inode with the slots `ks` cleared. -/
def Dinode.cleared (ip : Dinode) (ks : List (Fin (NDIRECT + 2))) : Dinode :=
  { ip with addrs := fun k => if k ∈ ks then 0 else ip.addrs k }

theorem cleared_nil (ip : Dinode) : ip.cleared [] = ip := by simp [Dinode.cleared]

theorem dropAddr_cleared (ip : Dinode) (ks : List (Fin (NDIRECT + 2))) (k : Fin (NDIRECT + 2)) :
    (ip.cleared ks).dropAddr k = ip.cleared (k :: ks) := by
  ext k'
  all_goals try rfl
  change update (ip.cleared ks).addrs k 0 k' = if k' ∈ k :: ks then 0 else ip.addrs k'
  by_cases hk : k' = k
  · rw [hk, update_self, if_pos mem_cons_self]
  · rw [update_of_ne hk]
    simp only [Dinode.cleared, mem_cons, hk, false_or]

theorem cleared_of_zero (h : ip.addrs k = 0) : ip.cleared (k :: ks) = ip.cleared ks := by
  unfold Dinode.cleared
  congr 1
  funext k'
  by_cases hk : k' = k
  · rw [hk, if_pos mem_cons_self, h, ite_self]
  · simp only [mem_cons, hk, false_or]

theorem cleared_addrs (h : k ∉ ks) : (ip.cleared ks).addrs k = ip.addrs k := if_neg h

theorem foldlM_freeDirect (sb : Superblock) (ip : Dinode) (m : Machine)
    (ks cleared : List (Fin (NDIRECT + 2))) (hnodup : ks.Nodup) (hnew : ∀ k ∈ ks, k ∉ cleared) :
    ks.foldlM (freeDirect sb) (ip.cleared cleared, m) =
      (bfreeAll sb (ks.flatMap fun k => if ip.addrs k ≠ 0 then [ip.addrs k] else []) m).map
        fun m' => (ip.cleared (ks.reverse ++ cleared), m') := by
  induction ks generalizing m cleared with
  | nil => rfl
  | cons k ks ih =>
    obtain ⟨hk, hnodup⟩ := nodup_cons.mp hnodup
    have hrest : ∀ k' ∈ ks, k' ∉ k :: cleared := by
      intro k' hk' hmem
      rcases mem_cons.mp hmem with heq | hmem
      · exact hk (heq ▸ hk')
      · exact hnew k' (mem_cons_of_mem k hk') hmem
    rw [foldlM_cons, freeDirect, flatMap_cons, bfreeAll_append, reverse_cons,
      append_assoc]
    simp only [cleared_addrs (hnew k mem_cons_self)]
    by_cases hzero : ip.addrs k ≠ 0
    · rw [if_pos hzero, if_pos hzero, bfreeAll_cons]
      cases hfree : bfree sb m (ip.addrs k) with
      | error e => rfl
      | ok m1 =>
        rw [dropAddr_cleared]
        exact ih m1 (k :: cleared) hnodup hrest
    · rw [if_neg hzero, if_neg hzero]
      have hsame : ip.cleared (k :: cleared) = ip.cleared cleared :=
        cleared_of_zero (not_not.mp hzero)
      rw [← hsame]
      exact ih m (k :: cleared) hnodup hrest

variable {cleared : List (Fin (NDIRECT + 2))} {din : Dinode} {slot : Fin (NDIRECT + 2)}
  {q : List Nat}

-- The blocks below slot `k` are freed, then its own, and the slot is cleared.
theorem freeSlot_eq (h : k ∉ cleared) {free : Except String Machine}
    (hfree : ip.addrs k ≠ 0 → free = bfreeAll sb bs m) :
    (if (ip.cleared cleared).addrs k ≠ 0 then do
        let m ← free
        let m ← bfree sb m ((ip.cleared cleared).addrs k)
        return ((ip.cleared cleared).dropAddr k, m)
      else .ok (ip.cleared cleared, m)) =
      (bfreeAll sb (if ip.addrs k ≠ 0 then bs ++ [ip.addrs k] else []) m).map fun m' =>
        (ip.cleared (k :: cleared), m') := by
  rw [cleared_addrs h]
  by_cases hzero : ip.addrs k ≠ 0
  · rw [if_pos hzero, if_pos hzero, hfree hzero, bfreeAll_append, dropAddr_cleared]
    cases bfreeAll sb bs m with
    | error e => rfl
    | ok m1 =>
      change (bfree sb m1 (ip.addrs k)).bind _ = ((bfreeAll sb [_] m1).map _)
      rw [bfreeAll_cons]
      cases bfree sb m1 (ip.addrs k) with
      | error e | ok m2 => rfl
  · rw [if_neg hzero, if_neg hzero, cleared_of_zero (not_not.mp hzero)]
    rfl

theorem freeIndirect_eq (h : indSlot ∉ cleared) (m : Machine) :
    freeIndirect sb (ip.cleared cleared, m) =
      (bfreeAll sb (if ip.addrs indSlot ≠ 0 then indirectBlocks m.disk (ip.addrs indSlot)
        else []) m).map fun m' => (ip.cleared (indSlot :: cleared), m') := by
  refine freeSlot_eq h fun _ => ?_
  simp only [cleared_addrs h]
  exact freeEntries_eq _ m

theorem freeDouble_eq (h : dblSlot ∉ cleared) (hm : SameOutsideBitmap sb d m)
    (hdata : ip.addrs dblSlot ≠ 0 → sb.dataStart ≤ ip.addrs dblSlot ∧ ∀ j < NINDIRECT,
      word (d (ip.addrs dblSlot)) j = 0 ∨ sb.dataStart ≤ word (d (ip.addrs dblSlot)) j)
    (hlt : ip.addrs dblSlot ≠ 0 → ∀ b ∈ doubleBlocks d (ip.addrs dblSlot), b < sb.size) :
    freeDouble sb (ip.cleared cleared, m) =
      (bfreeAll sb (if ip.addrs dblSlot ≠ 0 then doubleBlocks d (ip.addrs dblSlot)
        else []) m).map fun m' => (ip.cleared (dblSlot :: cleared), m') := by
  refine freeSlot_eq h fun hzero => ?_
  obtain ⟨hblock, hentry⟩ := hdata hzero
  have hpos := sb.bmapstart_pos
  simp only [cleared_addrs h, hm _ (.inr hblock)]
  -- the second-level blocks are read as they were, since only the bitmap changes meanwhile
  apply foldlM_flatten (SameOutsideBitmap sb d) _ _ hm
  · intro m j hj hm
    have hread : m.disk (word (d (ip.addrs dblSlot)) j) = d (word (d (ip.addrs dblSlot)) j) := by
      rcases hentry j (mem_range.mp hj) with hnone | hsome
      · rw [hnone, hm 0 (.inl hpos)]
      · exact hm _ (.inr hsome)
    change _ = bfreeAll sb (indirectBlocks d _) m
    rw [hread, freeEntries_eq, indirectBlocks, bfreeAll_append]
    cases bfreeAll sb (entryBlocks (d (word (d (ip.addrs dblSlot)) j))) m with
    | error e => rfl
    | ok m1 => exact (bind_pure _).symm
  · intro m b m' hb hm hfree
    exact bfree_sameOutsideBitmap (hlt hzero b (mem_append_left _ hb)) hm hfree

/-- The inode after `itrunc`. -/
def Dinode.truncated (ip : Dinode) : Dinode := { ip with size := 0, addrs := fun _ => 0 }

/-- The blocks of the direct slots and of the single-indirect tree, which `itrunc` frees first. -/
def shallowBlocks (d : Disk) (ip : Dinode) : List Nat :=
  (directSlots.flatMap fun k => if ip.addrs k ≠ 0 then [ip.addrs k] else []) ++
    (if ip.addrs indSlot ≠ 0 then indirectBlocks d (ip.addrs indSlot) else [])

theorem bfreeAll_sameOutsideBitmap
    (hlt : ∀ b ∈ bs, b < sb.size) (hm : SameOutsideBitmap sb d m) (h : bfreeAll sb bs m = .ok m') :
    SameOutsideBitmap sb d m' :=
  foldlM_invariant (fun _ b _ hb => bfree_sameOutsideBitmap (hlt b hb)) hm h

/-- The slots cleared before the double-indirect one. -/
def shallowSlots : List (Fin (NDIRECT + 2)) := indSlot :: (directSlots.reverse ++ [])

theorem itrunc_shallow (inum : Nat) (hind : ip.addrs indSlot ≠ 0 → sb.dataStart ≤ ip.addrs indSlot)
    (hlt : ∀ b ∈ shallowBlocks m.disk ip, b < sb.size) :
    itrunc sb m inum ip = (bfreeAll sb (shallowBlocks m.disk ip) m).bind fun m₂ =>
      (freeDouble sb (ip.cleared shallowSlots, m₂)).bind fun s =>
        .ok ({ s.1 with size := 0 }, iupdate sb s.2 inum { s.1 with size := 0 }) := by
  have hdirect := foldlM_freeDirect sb ip m directSlots [] (by decide) (by decide)
  rw [cleared_nil] at hdirect
  unfold itrunc shallowBlocks
  unfold shallowBlocks at hlt
  rw [hdirect, bfreeAll_append]
  generalize hbs : (directSlots.flatMap fun k => if ip.addrs k ≠ 0 then [ip.addrs k] else []) = bs
    at hlt
  cases hone : bfreeAll sb bs m with
  | error e => rfl
  | ok m1 =>
    have hsame := bfreeAll_sameOutsideBitmap (fun b hb => hlt b (mem_append_left _ hb))
      (fun _ _ => rfl : SameOutsideBitmap sb m.disk m) hone
    have hread : (if ip.addrs indSlot ≠ 0 then indirectBlocks m1.disk (ip.addrs indSlot) else []) =
        if ip.addrs indSlot ≠ 0 then indirectBlocks m.disk (ip.addrs indSlot) else [] := by
      by_cases hzero : ip.addrs indSlot ≠ 0
      · rw [if_pos hzero, if_pos hzero, indirectBlocks, hsame _ (.inr (hind hzero))]
        rfl
      · rw [if_neg hzero, if_neg hzero]
    change (freeIndirect sb (ip.cleared (directSlots.reverse ++ []), m1)).bind _ =
      (bfreeAll sb _ m1).bind _
    rw [freeIndirect_eq (by decide), hread]
    cases bfreeAll sb (if ip.addrs indSlot ≠ 0 then indirectBlocks m.disk (ip.addrs indSlot)
        else []) m1 with
    | error e | ok m₂ => rfl

theorem itrunc_eq (inum : Nat) (hind : ip.addrs indSlot ≠ 0 → sb.dataStart ≤ ip.addrs indSlot)
    (hdata : ip.addrs dblSlot ≠ 0 → sb.dataStart ≤ ip.addrs dblSlot ∧ ∀ j < NINDIRECT,
      word (m.disk (ip.addrs dblSlot)) j = 0 ∨ sb.dataStart ≤ word (m.disk (ip.addrs dblSlot)) j)
    (hlt : ∀ b ∈ truncBlocks m.disk ip, b < sb.size) :
    itrunc sb m inum ip = (bfreeAll sb (truncBlocks m.disk ip) m).map fun m' =>
      (ip.truncated, iupdate sb m' inum ip.truncated) := by
  have hslots : ∀ k, k ∈ dblSlot :: shallowSlots := by decide
  have hsplit : truncBlocks m.disk ip = shallowBlocks m.disk ip ++
      if ip.addrs dblSlot ≠ 0 then doubleBlocks m.disk (ip.addrs dblSlot) else [] := rfl
  have hempty : { ip.cleared (dblSlot :: shallowSlots) with size := 0 } = ip.truncated := by
    ext k
    all_goals try rfl
    exact if_pos (hslots k)
  rw [hsplit] at hlt ⊢
  have hlow := fun b hb => hlt b (mem_append_left _ hb)
  rw [itrunc_shallow inum hind hlow, bfreeAll_append]
  cases htwo : bfreeAll sb (shallowBlocks m.disk ip) m with
  | error e => rfl
  | ok m2 =>
    have hsame := bfreeAll_sameOutsideBitmap hlow
      (fun _ _ => rfl : SameOutsideBitmap sb m.disk m) htwo
    change (freeDouble sb (ip.cleared shallowSlots, m2)).bind _ = (bfreeAll sb _ m2).map _
    rw [freeDouble_eq (by decide) hsame hdata fun hzero b hb => hlt b (by
      rw [if_pos hzero]
      exact mem_append_right _ hb)]
    cases bfreeAll sb (if ip.addrs dblSlot ≠ 0 then doubleBlocks m.disk (ip.addrs dblSlot)
        else []) m2 with
    | error e => rfl
    | ok m3 =>
      change Except.ok (_, iupdate sb m3 inum _) = Except.ok _
      rw [hempty]

/-! ## The blocks of a tree, in post-order -/

/-- The paths from `q` downwards through `l` levels. -/
def below : Nat → List Nat → List (List Nat)
  | 0, q => [q]
  | l + 1, q => ((List.range NINDIRECT).flatMap fun j => below l (q ++ [j])) ++ [q]

def nodeList : List Node :=
  (List.finRange (NDIRECT + 2)).flatMap fun k => (below (levels k) []).map (Node.mk k)

/-- The blocks of the tree of height `l` at block `a`. -/
def subtree (d : Disk) : Nat → Nat → List Nat
  | 0, a => if a ≠ 0 then [a] else []
  | l + 1, a =>
    if a ≠ 0 then ((List.range NINDIRECT).flatMap fun j => subtree d l (word (d a) j)) ++ [a]
    else []

def treeBlocks (d : Disk) (ip : Dinode) : List Nat :=
  (List.finRange (NDIRECT + 2)).flatMap fun k => subtree d (levels k) (ip.addrs k)

theorem mem_below (l : Nat) (q p : List Nat) :
    p ∈ below l q ↔ ∃ t, p = q ++ t ∧ t.length ≤ l ∧ ∀ j ∈ t, j < NINDIRECT := by
  induction l generalizing q with
  | zero =>
    rw [below, mem_singleton]
    constructor
    · intro h
      exact ⟨[], by rw [h, append_nil], le_rfl, by simp⟩
    · rintro ⟨t, rfl, ht, -⟩
      rw [length_eq_zero_iff.mp (Nat.le_zero.mp ht), append_nil]
  | succ l ih =>
    rw [below, mem_append, mem_flatMap, mem_singleton]
    constructor
    · rintro (⟨j, hj, hp⟩ | hp)
      · obtain ⟨t, rfl, ht, hindex⟩ := (ih (q ++ [j])).mp hp
        refine ⟨j :: t, by rw [append_assoc]; rfl, Nat.succ_le_succ ht, fun k hk => ?_⟩
        rcases mem_cons.mp hk with heq | hk
        · rw [heq]
          exact mem_range.mp hj
        · exact hindex k hk
      · exact ⟨[], by rw [hp, append_nil], Nat.zero_le _, by simp⟩
    · rintro ⟨t, rfl, ht, hindex⟩
      cases t with
      | nil => exact .inr (append_nil q)
      | cons j t =>
        refine .inl ⟨j, mem_range.mpr (hindex j mem_cons_self), (ih _).mpr ⟨t, ?_, ?_, ?_⟩⟩
        · rw [append_assoc]
          rfl
        · exact Nat.le_of_succ_le_succ ht
        · exact fun k hk => hindex k (mem_cons_of_mem j hk)

theorem nodup_below (l : Nat) (q : List Nat) : (below l q).Nodup := by
  induction l generalizing q with
  | zero => exact nodup_singleton q
  | succ l ih =>
    rw [below, nodup_append']
    refine ⟨nodup_flatMap.mpr ⟨fun j _ => ih _, ?_⟩, nodup_singleton q, ?_⟩
    · -- the subtrees of two entries differ in the index after `q`
      refine nodup_range.imp fun hne p hp hp' => hne ?_
      obtain ⟨t, rfl, -⟩ := (mem_below l _ p).mp hp
      obtain ⟨t', heq, -⟩ := (mem_below l _ _).mp hp'
      rw [append_assoc, append_assoc] at heq
      have hcons := append_cancel_left heq
      simp only [singleton_append, List.cons.injEq] at hcons
      exact hcons.1
    · intro p hp hq
      obtain ⟨j, -, hp⟩ := mem_flatMap.mp hp
      obtain ⟨t, rfl, -⟩ := (mem_below l _ p).mp hp
      have hlen := congrArg List.length (mem_singleton.mp hq)
      simp at hlen

theorem mem_nodeList (n : Node) : n ∈ nodeList ↔ n.Valid := by
  obtain ⟨k, p⟩ := n
  unfold nodeList
  rw [mem_flatMap]
  constructor
  · rintro ⟨k', -, hmem⟩
    obtain ⟨p', hp', heq⟩ := mem_map.mp hmem
    obtain ⟨rfl, rfl⟩ := Node.mk.inj heq
    obtain ⟨t, rfl, ht, hindex⟩ := (mem_below _ _ _).mp hp'
    exact ⟨ht, hindex⟩
  · rintro ⟨hdepth, hindex⟩
    exact ⟨k, mem_finRange k, mem_map.mpr
      ⟨p, (mem_below _ _ _).mpr ⟨p, rfl, hdepth, hindex⟩, rfl⟩⟩

theorem nodup_nodeList : nodeList.Nodup := by
  refine nodup_flatMap.mpr ⟨fun k _ => (nodup_below _ _).map fun p p' heq => ?_, ?_⟩
  · exact (Node.mk.inj heq).2
  · refine (nodup_finRange _).imp fun hne n hn hn' => hne ?_
    obtain ⟨p, -, rfl⟩ := mem_map.mp hn
    obtain ⟨p', -, heq⟩ := mem_map.mp hn'
    exact (Node.mk.inj heq).1.symm

-- Nothing hangs below an absent block.
theorem subtree_of_zero (h : addr d din ⟨slot, q⟩ = 0) (l : Nat) :
    subtree d l (addr d din ⟨slot, q⟩) =
      ((below l q).filter fun p => addr d din ⟨slot, p⟩ ≠ 0).map fun p => addr d din ⟨slot, p⟩ := by
  have hnone : ((below l q).filter fun p => addr d din ⟨slot, p⟩ ≠ 0) = [] := by
    rw [filter_eq_nil_iff]
    intro p hp
    obtain ⟨t, rfl, -⟩ := (mem_below l q p).mp hp
    rw [addr_append_of_zero h t]
    decide
  rw [hnone, h]
  cases l <;> rfl

theorem subtree_eq (d : Disk) (din : Dinode) (slot : Fin (NDIRECT + 2)) (l : Nat) (q : List Nat) :
    subtree d l (addr d din ⟨slot, q⟩) =
      ((below l q).filter fun p => addr d din ⟨slot, p⟩ ≠ 0).map fun p => addr d din ⟨slot, p⟩ := by
  induction l generalizing q with
  | zero =>
    by_cases hzero : addr d din ⟨slot, q⟩ = 0
    · exact subtree_of_zero hzero 0
    · simp [subtree, below, hzero]
  | succ l ih =>
    by_cases hzero : addr d din ⟨slot, q⟩ = 0
    · exact subtree_of_zero hzero (l + 1)
    rw [subtree, if_pos hzero, below, filter_append, map_append, filter_flatMap,
      map_flatMap]
    congr 1
    · apply flatMap_congr
      intro j _
      have hsnoc : addr d din ⟨slot, q ++ [j]⟩ = word (d (addr d din ⟨slot, q⟩)) j := by
        rw [addr_snoc, entry, if_neg hzero]
      rw [← hsnoc]
      exact ih (q ++ [j])
    · simp [hzero]

theorem treeBlocks_eq (d : Disk) (din : Dinode) :
    treeBlocks d din = (nodeList.filter fun n => addr d din n ≠ 0).map (addr d din) := by
  unfold treeBlocks nodeList
  rw [filter_flatMap, map_flatMap]
  apply flatMap_congr
  intro k _
  rw [filter_map, map_map]
  exact subtree_eq d din k (levels k) []

theorem mem_treeBlocks : b ∈ treeBlocks d din ↔ b ≠ 0 ∧ ∃ n : Node, n.Valid ∧ addr d din n = b := by
  rw [treeBlocks_eq, mem_map]
  constructor
  · rintro ⟨n, hn, rfl⟩
    obtain ⟨hmem, hne⟩ := mem_filter.mp hn
    exact ⟨by simpa using hne, n, (mem_nodeList n).mp hmem, rfl⟩
  · rintro ⟨hne, n, hvalid, rfl⟩
    exact ⟨n, mem_filter.mpr ⟨(mem_nodeList n).mpr hvalid, by simpa using hne⟩, rfl⟩

variable {F : Nat → Prop} {ino : Nat → Dinode} {d : Disk} {ip : Dinode} {i : Nat} {m₀ : Machine}

namespace WellFormedTree

theorem nodup_treeBlocks (h : WellFormedTree sb d ip) : (treeBlocks d ip).Nodup := by
  rw [treeBlocks_eq]
  refine List.Nodup.map_on (fun n hn n' hn' heq => ?_) (nodup_nodeList.filter _)
  obtain ⟨hmem, hne⟩ := mem_filter.mp hn
  obtain ⟨hmem', -⟩ := mem_filter.mp hn'
  exact h.inj n n' ((mem_nodeList n).mp hmem) ((mem_nodeList n').mp hmem') (of_decide_eq_true hne)
    heq

theorem used_treeBlocks (h : WellFormedTree sb d ip) (hb : b ∈ treeBlocks d ip) : Used sb d b := by
  obtain ⟨hne, n, hvalid, rfl⟩ := mem_treeBlocks.mp hb
  exact h.used_of_own n hvalid hne

theorem slot_data (h : WellFormedTree sb d ip) (hne : ip.addrs k ≠ 0) : sb.dataStart ≤ ip.addrs k :=
  (h.used_of_own ⟨k, []⟩ (valid_root k) hne).1

theorem entry_data (h : WellFormedTree sb d ip) (hne : ip.addrs dblSlot ≠ 0) {j : Nat}
    (hj : j < NINDIRECT) :
    word (d (ip.addrs dblSlot)) j = 0 ∨ sb.dataStart ≤ word (d (ip.addrs dblSlot)) j := by
  have hsnoc : addr d ip ⟨dblSlot, [] ++ [j]⟩ = word (d (ip.addrs dblSlot)) j := by
    rw [addr_snoc, addr_root, entry, if_neg hne]
  by_cases hzero : word (d (ip.addrs dblSlot)) j = 0
  · exact .inl hzero
  · rw [← hsnoc] at hzero ⊢
    exact .inr (h.used_of_own _ ((valid_root dblSlot).snoc (by decide) hj) hzero).1

end WellFormedTree

/-! ## `itrunc` -/

/-- The double-indirect block is absent, or every one of its entries is in use. -/
def FullTree (d : Disk) (ip : Dinode) : Prop :=
  ip.addrs dblSlot = 0 ∨ ∀ j < NINDIRECT, word (d (ip.addrs dblSlot)) j ≠ 0

instance (d : Disk) (ip : Dinode) : Decidable (FullTree d ip) :=
  inferInstanceAs (Decidable (_ ∨ _))

-- The tree as the three stages of `itrunc` walk it.
theorem treeBlocks_stages (d : Disk) (ip : Dinode) :
    treeBlocks d ip = shallowBlocks d ip ++ subtree d 2 (ip.addrs dblSlot) := by
  have hslots : List.finRange (NDIRECT + 2) = directSlots ++ [indSlot] ++ [dblSlot] := by decide
  unfold treeBlocks
  rw [hslots, flatMap_append, flatMap_append, flatMap_singleton, flatMap_singleton]
  rfl

theorem truncBlocks_of_fullTree (h : FullTree d ip) : truncBlocks d ip = treeBlocks d ip := by
  rw [treeBlocks_stages, truncBlocks, shallowBlocks, append_cancel_left_eq]
  by_cases hzero : ip.addrs dblSlot ≠ 0
  · have hall := h.resolve_left hzero
    rw [if_pos hzero, subtree, if_pos hzero, doubleBlocks, append_cancel_right_eq]
    apply flatMap_congr
    intro j hj
    rw [subtree, if_pos (hall j (mem_range.mp hj))]
    rfl
  · rw [if_neg hzero, subtree, if_neg hzero]

/-- The absent entries of the double-indirect block. -/
def absent (d : Disk) (ip : Dinode) : Nat :=
  if ip.addrs dblSlot = 0 then 0
  else (List.range NINDIRECT).countP (word (d (ip.addrs dblSlot)) · = 0)

-- Besides the blocks of the tree the code frees block 0, once for each absent entry.
theorem truncBlocks_perm (hboot : BootZero d) (ip : Dinode) :
    truncBlocks d ip ~ replicate (absent d ip) 0 ++ treeBlocks d ip := by
  have hround : ∀ a, indirectBlocks d a = (if a = 0 then [0] else []) ++ subtree d 1 a := by
    intro a
    by_cases ha : a = 0
    · simp [ha, indirectBlocks, entryBlocks, subtree, hboot _]
    · rw [if_neg ha, subtree, if_pos ha]
      rfl
  have hzeros (a : Block) (js : List Nat) : (js.flatMap fun j => if word a j = 0 then [0] else []) =
      replicate (js.countP (word a · = 0)) 0 := by
    induction js with
    | nil => rfl
    | cons j js ih =>
      rw [flatMap_cons, ih]
      by_cases hj : word a j = 0
      · simp [hj, replicate_succ]
      · simp [hj]
  rw [treeBlocks_stages, absent, show truncBlocks d ip = shallowBlocks d ip ++ _ from rfl, subtree]
  by_cases hzero : ip.addrs dblSlot = 0
  · simp [hzero]
  · rw [if_pos hzero, if_pos hzero, if_neg hzero, doubleBlocks, flatMap_congr fun _ _ => hround _,
      ← hzeros]
    refine (((flatMap_append_perm ..).symm.append_right _).append_left _).trans ?_
    simp only [← append_assoc]
    exact (perm_append_comm.append_right _).append_right _

namespace WellFormedTree

theorem truncBlocks_lt (h : WellFormedTree sb d ip) (hfree : FullTree d ip ∨ BootZero d) :
    ∀ b ∈ truncBlocks d ip, b < sb.size := by
  intro b hb
  rcases hfree with hfull | hboot
  · rw [truncBlocks_of_fullTree hfull] at hb
    exact (h.used_treeBlocks hb).2.1
  · rcases mem_append.mp ((truncBlocks_perm hboot ip).mem_iff.mp hb) with hmem | hmem
    · obtain rfl := eq_of_mem_replicate hmem
      have hle := sb.dataStart_le_size
      have htwo := sb.two_le_dataStart
      omega
    · exact (h.used_treeBlocks hmem).2.1

theorem itrunc_eq (h : WellFormedTree sb m.disk ip)
    (hfree : FullTree m.disk ip ∨ BootZero m.disk) (inum : Nat) :
    itrunc sb m inum ip = (bfreeAll sb (truncBlocks m.disk ip) m).map fun m' =>
      (ip.truncated, iupdate sb m' inum ip.truncated) :=
  Kernel.itrunc_eq inum h.slot_data (fun hne => ⟨h.slot_data hne, fun _ => h.entry_data hne⟩)
    (h.truncBlocks_lt hfree)

/-- On a full tree `itrunc` frees exactly the blocks of the tree. -/
theorem itrunc_fullTree (h : WellFormedTree sb m.disk ip) (hfull : FullTree m.disk ip)
    (inum : Nat) : ∃ m', itrunc sb m inum ip = .ok (ip.truncated, iupdate sb m' inum ip.truncated) ∧
      FreedAll sb m.disk m'.disk (treeBlocks m.disk ip) ∧ m'.console = m.console := by
  obtain ⟨m', hfree, hfreed, hconsole⟩ := bfreeAll_ok h.nodup_treeBlocks fun b hb =>
    ⟨(h.used_treeBlocks hb).2.1, (h.used_treeBlocks hb).2.2⟩
  refine ⟨m', ?_, hfreed, hconsole⟩
  rw [h.itrunc_eq (.inl hfull), truncBlocks_of_fullTree hfull, hfree]
  rfl

end WellFormedTree

/-- What is left on disk `d'` after the tree of inode `i` has been freed. -/
structure Truncated (sb : Superblock) (F : Nat → Prop) (ino : Nat → Dinode) (i : Nat)
    (d d' : Disk) : Prop where
  blocks : Blocks sb F (update ino i (ino i).truncated) d'
  noLeak : NoLeak (Pos F) (own d ino) (Used sb d) →
    NoLeak (Pos F) (own d' (update ino i (ino i).truncated)) (Used sb d')
  low : ∀ c < sb.bmapstart, d' c = d c

theorem own_truncated {d' : Disk} {x : Nat × Node} (hx : x.1 = i) :
    own d' (update ino i (ino i).truncated) x = 0 :=
  own_of_addrs_zero fun k => by rw [hx, update_self]; rfl

theorem FreedAll.truncated {d' : Disk} (hblocks : Blocks sb F ino d) (hi : F i)
    (h : FreedAll sb d d' (treeBlocks d (ino i))) : Truncated sb F ino i d d' := by
  have hother : ∀ x, Pos F x → x.1 ≠ i →
      own d' (update ino i (ino i).truncated) x = own d ino x := by
    intro x hx hne
    apply own_congr (F := fun j => F j ∧ j ≠ i) _ _ x ⟨⟨hx.1, hne⟩, hx.2⟩
    · intro j hj
      rw [update_of_ne hj.2]
    · intro j slot q hj hq _ hown k
      rw [h.data _ (hblocks.data_of_own (⟨hj.1, hq⟩ : Pos F (j, ⟨slot, q⟩)) hown).1]
  have hkept : ∀ x, Pos F x → x.1 ≠ i → own d ino x ≠ 0 → Used sb d (own d ino x) →
      Used sb d' (own d ino x) := by
    rintro ⟨j, n⟩ hx hne hown ⟨hlo, hhi, hset⟩
    refine ⟨hlo, hhi, ?_⟩
    have hout : own d ino (j, n) ∉ treeBlocks d (ino i) := by
      intro hmem
      obtain ⟨-, n', hvalid, heq⟩ := mem_treeBlocks.mp hmem
      have hsame := hblocks.owned.inj (j, n) (i, n') hx ⟨hi, hvalid⟩ hown heq.symm
      exact hne (Prod.mk.inj hsame).1
    rw [h.bits, hset, decide_eq_false hout]
    rfl
  refine ⟨⟨hblocks.owned.transfer (fun x hx hne => ⟨hx, ?_⟩) (fun x hx hne hused => ?_),
    fun c hc => ?_⟩, fun hleak b hb => ?_, h.low⟩
  · by_cases hxi : x.1 = i
    · exact absurd (own_truncated hxi) hne
    · exact hother x hx hxi
  · by_cases hxi : x.1 = i
    · exact absurd (own_truncated hxi) hne
    · rw [hother x hx hxi] at hne
      exact hkept x hx hxi hne hused
  · have hout : c ∉ treeBlocks d (ino i) := fun hmem => by
      have hused := ((hblocks.wellFormedTree hi).used_treeBlocks hmem).1
      omega
    rw [h.bits, hblocks.reserved c hc, decide_eq_false hout]
    rfl
  · obtain ⟨hlo, hhi, hset⟩ := hb
    rw [h.bits, Bool.and_eq_true, Bool.not_eq_true', decide_eq_false_iff_not] at hset
    obtain ⟨x, hx, hown⟩ := hleak b ⟨hlo, hhi, hset.1⟩
    have hxi : x.1 ≠ i := by
      intro hxi
      have htwo := sb.two_le_dataStart
      refine hset.2 (mem_treeBlocks.mpr ⟨by omega, x.2, hx.2, ?_⟩)
      rw [← hown, own, hxi]
    exact ⟨x, hx, (hother x hx hxi).trans hown⟩

theorem Blocks.itrunc_fullTree (h : Blocks sb F ino m.disk) (hi : F i)
    (hfull : FullTree m.disk (ino i)) (inum : Nat) : ∃ m', itrunc sb m inum (ino i) =
        .ok ((ino i).truncated, iupdate sb m' inum (ino i).truncated) ∧
      Truncated sb F ino i m.disk m'.disk ∧ m'.console = m.console := by
  obtain ⟨m', htrunc, hfreed, hconsole⟩ := (h.wellFormedTree hi).itrunc_fullTree hfull inum
  exact ⟨m', htrunc, hfreed.truncated h hi, hconsole⟩

-- Block 0 can be freed once, and only while its bit is set.
theorem WellFormedTree.itrunc_absent (h : WellFormedTree sb m.disk ip) (hboot : BootZero m.disk)
    (inum : Nat) : if 2 ≤ absent m.disk ip + (!bitOf sb m.disk 0).toNat then
        itrunc sb m inum ip = .error "freeing free block"
      else ∃ m', itrunc sb m inum ip = .ok (ip.truncated, iupdate sb m' inum ip.truncated) ∧
        FreedAll sb m.disk m'.disk (truncBlocks m.disk ip) := by
  have hperm := truncBlocks_perm hboot ip
  rw [h.itrunc_eq (.inr hboot) inum]
  split
  next hbad =>
    rw [bfreeAll_panics (h.truncBlocks_lt (.inr hboot)) ?_]
    · rfl
    by_cases htwo : 2 ≤ absent m.disk ip
    · refine .inl fun hnodup => ?_
      have hzeros := (nodup_append'.mp (hperm.nodup_iff.mp hnodup)).1
      rw [nodup_replicate] at hzeros
      omega
    · refine .inr ⟨0, hperm.mem_iff.mpr (mem_append_left _ (mem_replicate.mpr ⟨?_, rfl⟩)), ?_⟩
      · have hle := (!bitOf sb m.disk 0).toNat_le
        omega
      · cases hbit : bitOf sb m.disk 0 with
        | false => rfl
        | true =>
          rw [hbit] at hbad
          exact absurd hbad htwo
  next hfits =>
    have hone : absent m.disk ip ≤ 1 := by omega
    have hnodup : (truncBlocks m.disk ip).Nodup := by
      refine hperm.nodup_iff.mpr
        (nodup_append'.mpr ⟨nodup_replicate.mpr hone, h.nodup_treeBlocks, ?_⟩)
      intro b hb hmem
      exact (mem_treeBlocks.mp hmem).1 (eq_of_mem_replicate hb)
    obtain ⟨m', hfree, hfreed, -⟩ := bfreeAll_ok hnodup fun b hb => by
      rcases mem_append.mp (hperm.mem_iff.mp hb) with hmem | hmem
      · obtain ⟨hne, rfl⟩ := mem_replicate.mp hmem
        refine ⟨h.truncBlocks_lt (.inr hboot) 0 hb, ?_⟩
        cases hbit : bitOf sb m.disk 0 with
        | true => rfl
        | false =>
          rw [hbit] at hfits
          change ¬ 2 ≤ absent m.disk ip + 1 at hfits
          omega
      · exact (h.used_treeBlocks hmem).2
    exact ⟨m', by rw [hfree]; rfl, hfreed⟩

/-! ## A missing second-level block -/

theorem freeEntries_keeps {inv : Machine → Prop}
    (hinv : ∀ m b m', inv m → bfree sb m b = .ok m' → inv m') {a : Block}
    (hm : inv m) (h : freeEntries sb a m = .ok m') : inv m' := by
  rw [freeEntries_eq] at h
  exact foldlM_invariant (fun m b m' _ => hinv m b m') hm h

/-- The bit of the boot block was set on `m₀` and is clear on `m`. -/
def BootFreed (sb : Superblock) (m₀ m : Machine) : Prop :=
  bitOf sb m₀.disk 0 = true ∧ bitOf sb m.disk 0 = false

theorem bfree_bootFreed (h : BootFreed sb m₀ m)
    (hfree : bfree sb m b = .ok m') : BootFreed sb m₀ m' := by
  refine ⟨h.1, ?_⟩
  rw [(bfree_inv hfree).2.2, h.2, Bool.false_and]

-- No step sets a bit.
theorem bfree_bit_zero {p : Prop} (h : bitOf sb m.disk 0 = true → p)
    (hfree : bfree sb m b = .ok m') (hset : bitOf sb m'.disk 0 = true) : p := by
  rw [(bfree_inv hfree).2.2, Bool.and_eq_true] at hset
  exact h hset.1

theorem freeDouble_bootFreed {s s' : Dinode × Machine}
    (hm₀ : bitOf sb s.2.disk 0 = true → bitOf sb m₀.disk 0 = true)
    (hne : s.1.addrs dblSlot ≠ 0) {j : Nat} (hj : j < NINDIRECT)
    (hzero : word (s.2.disk (s.1.addrs dblSlot)) j = 0) (h : freeDouble sb s = .ok s') :
    BootFreed sb m₀ s'.2 := by
  unfold freeDouble at h
  rw [if_pos hne] at h
  obtain ⟨m1, hloop, h⟩ := bind_eq_ok.mp h
  obtain ⟨m2, hlast, h⟩ := bind_eq_ok.mp h
  cases h
  apply bfree_bootFreed _ hlast
  apply foldlM_establishes (P := fun m => bitOf sb m.disk 0 = true → bitOf sb m₀.disk 0 = true)
    (Q := BootFreed sb m₀) (mem_range.mpr hj) _ _ _ hm₀ hloop
  · intro m j m' hm hstep
    obtain ⟨m3, hentries, hstep⟩ := bind_eq_ok.mp hstep
    exact bfree_bit_zero (freeEntries_keeps (fun _ _ _ => bfree_bit_zero) hm hentries) hstep
  · intro m j m' hm hstep
    obtain ⟨m3, hentries, hstep⟩ := bind_eq_ok.mp hstep
    exact bfree_bootFreed (freeEntries_keeps (fun _ _ _ => bfree_bootFreed) hm hentries) hstep
  · -- the round of the absent block frees block 0
    intro m m' hm hstep
    obtain ⟨m3, hentries, hstep⟩ := bind_eq_ok.mp hstep
    rw [hzero] at hstep
    obtain ⟨hset, -, hbits⟩ := bfree_inv hstep
    refine ⟨freeEntries_keeps (fun _ _ _ => bfree_bit_zero) hm hentries hset, ?_⟩
    rw [hbits, decide_eq_true rfl]
    simp

/-- If `itrunc` gets past an absent second-level block, then by freeing the boot block. -/
theorem WellFormedTree.itrunc_bootFreed (h : WellFormedTree sb m.disk ip)
    (hlacks : ¬ FullTree m.disk ip) {inum : Nat} (hinum : inum < sb.ninodes) {r : Dinode × Machine}
    (hrun : itrunc sb m inum ip = .ok r) : BootFreed sb m r.2 := by
  unfold FullTree at hlacks
  rw [not_or, not_forall] at hlacks
  obtain ⟨hne, j, hj⟩ := hlacks
  rw [Classical.not_imp, not_not] at hj
  obtain ⟨hj, hzero⟩ := hj
  have hlt : ∀ b ∈ shallowBlocks m.disk ip, b < sb.size := by
    intro b hb
    have hmem : b ∈ treeBlocks m.disk ip := by
      rw [treeBlocks_stages]
      exact mem_append_left _ hb
    exact (h.used_treeBlocks hmem).2.1
  rw [itrunc_shallow inum h.slot_data hlt] at hrun
  obtain ⟨m2, hshallow, hrun⟩ := bind_eq_ok.mp hrun
  obtain ⟨s, hdouble, hrun⟩ := bind_eq_ok.mp hrun
  cases hrun
  have hsame := bfreeAll_sameOutsideBitmap hlt (fun _ _ => rfl : SameOutsideBitmap sb m.disk m)
    hshallow
  have haddr : (ip.cleared shallowSlots).addrs dblSlot = ip.addrs dblSlot :=
    cleared_addrs (by decide)
  have hm2 : bitOf sb m2.disk 0 = true → bitOf sb m.disk 0 = true :=
    foldlM_invariant (P := fun m' => bitOf sb m'.disk 0 = true → bitOf sb m.disk 0 = true)
      (fun _ _ _ _ => bfree_bit_zero) id hshallow
  obtain ⟨hset, hclear⟩ := freeDouble_bootFreed (s := (ip.cleared shallowSlots, m2)) hm2
    (by rw [haddr]; exact hne) hj
    (by rw [haddr, hsame _ (.inr (h.slot_data hne))]; exact hzero) hdouble
  have hlow := sb.IBLOCK_lt_bmapstart hinum
  have hbm := sb.bmapstart_le_BBLOCK 0
  refine ⟨hset, ?_⟩
  rw [← hclear]
  exact bitOf_congr (update_of_ne (by omega) _ _)

end OsProjects.Kernel
