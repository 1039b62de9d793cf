import OsProjects.Kernel.Tree

/-!
# Bmap — `bmap` of `fs.c`, and what it leaves of the trees and the contents of all files

`Wrote` relates the state before and after operations on inode `i`: the trees stay disjoint and
allocated, nothing allocated moves, and of all bytes of all files only a stretch of `i` changes.
-/

namespace OsProjects.Kernel

open Lib Function List

/-- Load the block of a slot of `addrs[]`, allocating if necessary. -/
def bmapSlot (sb : Superblock) (m : Machine) (ip : Dinode) (k : Fin (NDIRECT + 2)) :
    Nat × Dinode × Machine :=
  if ip.addrs k = 0 then
    match balloc sb m with
    | (addr, m) =>
      if addr = 0 then (0, ip, m)
      else (addr, { ip with addrs := update ip.addrs k addr }, m)
  else (ip.addrs k, ip, m)

/-- Load entry `j` of the indirect block `b`, allocating if necessary. -/
def bmapEntry (sb : Superblock) (m : Machine) (b j : Nat) : Nat × Machine :=
  if word (m.disk b) j = 0 then
    match balloc sb m with
    | (addr, m) =>
      if addr = 0 then (0, m)
      else (addr, (m.store b (setWord (m.disk b) j addr)).logWrite b)
  else (word (m.disk b) j, m)

def bmap (sb : Superblock) (m : Machine) (ip : Dinode) (bn : Nat) :
    Except String (Nat × Dinode × Machine) :=
  if h : bn < NDIRECT then .ok (bmapSlot sb m ip ⟨bn, direct_lt h⟩)
  else if bn - NDIRECT < NINDIRECT then
    match bmapSlot sb m ip indSlot with
    | (addr, ip, m) =>
      if addr = 0 then .ok (0, ip, m)
      else
        match bmapEntry sb m addr (bn - NDIRECT) with
        | (addr, m) => .ok (addr, ip, m)
  else if bn - NDIRECT - NINDIRECT < DOUBLEINDIRECT then
    match bmapSlot sb m ip dblSlot with
    | (addr, ip, m) =>
      if addr = 0 then .ok (0, ip, m)
      else
        match bmapEntry sb m addr ((bn - NDIRECT - NINDIRECT) / NINDIRECT) with
        -- no test for a failed allocation here: block 0 is then read as the second-level block
        | (addr, m) =>
          match bmapEntry sb m addr ((bn - NDIRECT - NINDIRECT) % NINDIRECT) with
          | (addr, m) => .ok (addr, ip, m)
  else .error "bmap: out of range"

/-- The entries on the way down from the block `a`. -/
def bmapEntries (sb : Superblock) : Machine → Nat → List Nat → Nat × Machine
  | m, a, [] => (a, m)
  | m, a, j :: js =>
    match bmapEntry sb m a j with
    | (a, m) => bmapEntries sb m a js

/-- The three levels as one: `bmap` goes from the slot down the path of the leaf. -/
theorem bmap_eq (sb : Superblock) (m : Machine) (ip : Dinode) {bn : Nat} (hbn : bn < MAXFILE) :
    bmap sb m ip bn = .ok (match bmapSlot sb m ip (leafNode bn).slot with
      | (a, ip, m) =>
        if a = 0 then (0, ip, m)
        else
          match bmapEntries sb m a (leafNode bn).path with
          | (a, m) => (a, ip, m)) := by
  unfold bmap
  split
  next hdirect =>
    rw [leafNode_direct hdirect]
    rcases bmapSlot sb m ip ⟨bn, _⟩ with ⟨a, ip1, m1⟩
    by_cases ha : a = 0
    · simp only [ha, if_true]
    · simp only [if_neg ha, bmapEntries]
  rename_i hdirect
  split
  next hind =>
    rw [leafNode_ind hdirect hind]
    simp only [bmapEntries, apply_ite Except.ok]
  next hind =>
    rw [if_pos, leafNode_dbl hdirect hind]
    · simp only [bmapEntries, apply_ite Except.ok]
    · simp only [MAXFILE, NDIRECT, NINDIRECT, DOUBLEINDIRECT] at *
      omega

structure Wrote (sb : Superblock) (F : Nat → Prop) (ino : Nat → Dinode) (d : Disk) (i : Nat)
    (d' : Disk) (din' : Dinode) (off : Nat) (data : List UInt8) : Prop where
  blocks : Blocks sb F (update ino i din') d'
  noLeak : NoLeak (Pos F) (own d ino) (Used sb d) →
    NoLeak (Pos F) (own d' (update ino i din')) (Used sb d')
  low : ∀ c < sb.bmapstart, d' c = d c
  fields : din' = { ino i with addrs := din'.addrs }
  keep : ∀ x, Pos F x → own d ino x ≠ 0 → own d' (update ino i din') x = own d ino x
  bytes : ∀ i', F i' → ∀ k < MAXFILE * BSIZE, byteAt d' (update ino i din' i') k =
    if i' = i ∧ off ≤ k ∧ k < off + data.length then data.getD (k - off) 0
    else byteAt d (ino i') k

variable {sb : Superblock} {F : Nat → Prop} {ino ino' : Nat → Dinode} {d d' d₁ : Disk} {i b : Nat}
  {slot k : Fin (NDIRECT + 2)} {q : List Nat} {x₀ : Nat × Node}

theorem Wrote.refl (hblocks : Blocks sb F ino d) (i off : Nat) :
    Wrote sb F ino d i d (ino i) off [] := by
  refine ⟨?_, ?_, fun _ _ => rfl, rfl, ?_, ?_⟩
  · rwa [update_eq_self]
  · rw [update_eq_self]
    exact id
  · rw [update_eq_self]
    exact fun _ _ _ => rfl
  · intro i' _ k _
    rw [update_eq_self, if_neg]
    rintro ⟨-, hlo, hhi⟩
    simp at hhi
    omega

theorem Wrote.trans {d₂ : Disk} {din₁ din₂ : Dinode} {off : Nat} {data₁ data₂ : List UInt8}
    (h₁ : Wrote sb F ino d i d₁ din₁ off data₁)
    (h₂ : Wrote sb F (update ino i din₁) d₁ i d₂ din₂ (off + data₁.length) data₂) :
    Wrote sb F ino d i d₂ din₂ off (data₁ ++ data₂) := by
  have hidem : update (update ino i din₁) i din₂ =
      update ino i din₂ := update_idem _ _ _
  obtain ⟨hblocks, hleak, hlow, hfields, hkeep, hbytes⟩ := h₂
  rw [hidem] at hblocks hleak hkeep hbytes
  rw [update_self] at hfields
  refine ⟨hblocks, fun h => hleak (h₁.noLeak h), fun c hc => (hlow c hc).trans (h₁.low c hc), ?_,
    fun x hx hne => ?_, fun i' hi' k hk => ?_⟩
  · rw [hfields, h₁.fields]
  · have hmid := h₁.keep x hx hne
    rw [← hmid] at hne
    rw [hkeep x hx hne, hmid]
  · rw [hbytes i' hi' k hk, h₁.bytes i' hi' k hk]
    by_cases hi : i' = i
    · rw [length_append]
      by_cases hhi : off + data₁.length ≤ k ∧ k < off + data₁.length + data₂.length
      · rw [if_pos ⟨hi, hhi⟩, if_pos ⟨hi, by omega⟩, getD_append_right _ _ _ _ (by omega),
          Nat.sub_add_eq]
      · rw [if_neg (fun h => hhi h.2)]
        by_cases hlo : off ≤ k ∧ k < off + data₁.length
        · rw [if_pos ⟨hi, hlo⟩, if_pos ⟨hi, by omega⟩, getD_append _ _ _ _ (by omega)]
        · rw [if_neg (fun h => hlo h.2), if_neg (fun h => by omega)]
    · rw [if_neg (fun h => hi h.1), if_neg (fun h => hi h.1), if_neg (fun h => hi h.1)]

/-! ## One allocation -/

-- A leaf is no indirect block: their contents can change without moving any address.
theorem Blocks.leaf_ne_indirect (h : Blocks sb F ino d) {x : Nat × Node} (hx : Pos F x)
    (hleaf : x.2.path.length = levels x.2.slot) (hne : own d ino x ≠ 0) {i : Nat}
    (hi : F i) (hq : Node.Valid ⟨slot, q⟩)
    (hlen : q.length < levels slot) : own d ino x ≠ own d ino (i, ⟨slot, q⟩) := by
  intro heq
  have hsame := h.owned.inj x (i, ⟨slot, q⟩) hx ⟨hi, hq⟩ hne heq
  rw [hsame] at hleaf
  exact absurd hleaf (by change ¬ q.length = levels slot; omega)

theorem Alloc.not_used (h : Alloc sb d d' b) : ¬ Used sb d b := fun hused => by
  have hset := hused.2.2
  rw [h.free] at hset
  cases hset

theorem Alloc.ne_zero (h : Alloc sb d d' b) : b ≠ 0 := by
  have hdata := h.data
  have htwo := sb.two_le_dataStart
  omega

theorem Alloc.ne_of_used (h : Alloc sb d d' b) {c : Nat} (hc : Used sb d c) : c ≠ b :=
  fun heq => h.not_used (heq ▸ hc)

/-- What is known once the fresh block `b` has been linked at the position `x₀` of inode `i`. -/
structure Linked (sb : Superblock) (F : Nat → Prop) (ino ino' : Nat → Dinode) (d d' : Disk)
    (x₀ : Nat × Node) (b : Nat) : Prop where
  address : ∀ x, Pos F x → own d' ino' x = if x = x₀ then b else own d ino x
  empty : own d ino x₀ = 0
  free : ¬ Used sb d b
  data : sb.dataStart ≤ b ∧ b < sb.size
  zeroed : d' b = Buffer.zero
  low : ∀ c < sb.bmapstart, d' c = d c
  bits : ∀ c < sb.size, bitOf sb d' c = (bitOf sb d c || decide (b = c))
  leaves : ∀ x, Pos F x → x.2.path.length = levels x.2.slot → own d ino x ≠ 0 →
    d' (own d ino x) = d (own d ino x)

theorem Linked.used
    (h : Linked sb F ino ino' d d' x₀ b) (c : Nat) : Used sb d' c ↔ Used sb d c ∨ c = b := by
  constructor
  · rintro ⟨hlo, hhi, hset⟩
    rw [h.bits c hhi, Bool.or_eq_true, decide_eq_true_eq] at hset
    rcases hset with hset | heq
    · exact .inl ⟨hlo, hhi, hset⟩
    · exact .inr heq.symm
  · rintro (⟨hlo, hhi, hset⟩ | heq)
    · exact ⟨hlo, hhi, by rw [h.bits c hhi, hset, Bool.true_or]⟩
    · rw [heq]
      exact ⟨h.data.1, h.data.2, by rw [h.bits b h.data.2, decide_eq_true rfl, Bool.or_true]⟩

theorem Linked.wrote {din' : Dinode}
    (h : Linked sb F ino (update ino i din') d d' x₀ b) (hblocks : Blocks sb F ino d)
    (hx₀ : Pos F x₀) (hfields : din' = { ino i with addrs := din'.addrs }) (off : Nat) :
    Wrote sb F ino d i d' din' off [] := by
  have hle := sb.dataStart_le_size
  refine ⟨⟨hblocks.owned.alloc h.free h.address h.used, fun c hc => ?_⟩, fun hleak c hc => ?_,
    h.low, hfields, fun x hx hne => ?_, fun i' hi' k hk => ?_⟩
  · rw [h.bits c (by omega), hblocks.reserved c hc, Bool.true_or]
  · rcases (h.used c).mp hc with hold | hnew
    · obtain ⟨x, hx, hown⟩ := hleak c hold
      refine ⟨x, hx, ?_⟩
      rw [h.address x hx, if_neg, hown]
      intro heq
      have hdata := hold.1
      have htwo := sb.two_le_dataStart
      rw [heq, h.empty] at hown
      omega
    · exact ⟨x₀, hx₀, by rw [h.address x₀ hx₀, if_pos rfl, hnew]⟩
  · rw [h.address x hx, if_neg]
    intro heq
    exact hne (by rw [heq, h.empty])
  · rw [if_neg (by rintro ⟨-, hlo, hhi⟩; simp at hhi; omega)]
    have hx : Pos F (i', leafNode (k / BSIZE)) := ⟨hi', leafNode_valid (block_lt_MAXFILE hk)⟩
    have hown := h.address _ hx
    change (if own d' (update ino i din') (i', leafNode (k / BSIZE)) = 0 then 0 else
        (d' (own d' (update ino i din') (i', leafNode (k / BSIZE)))).get _) =
      if own d ino (i', leafNode (k / BSIZE)) = 0 then 0 else
        (d (own d ino (i', leafNode (k / BSIZE)))).get _
    rw [hown]
    split
    next hnew =>
      rw [hnew, h.empty, if_pos rfl, h.zeroed, Buffer.get_zero]
      split <;> rfl
    · by_cases hzero : own d ino (i', leafNode (k / BSIZE)) = 0
      · rw [if_pos hzero, if_pos hzero]
      · rw [if_neg hzero, if_neg hzero, h.leaves _ hx (length_leafNode _) hzero]

-- A fresh block in an empty slot of `addrs[]`.
theorem linked_slot (hblocks : Blocks sb F ino d) (halloc : Alloc sb d d' b)
    (hempty : (ino i).addrs k = 0) : Linked sb F ino
      (update ino i { ino i with addrs := update (ino i).addrs k b }) d d'
      (i, ⟨k, []⟩) b := by
  have hsame : ∀ x, Pos F x → own d ino x ≠ 0 → d' (own d ino x) = d (own d ino x) :=
    fun x hx hne => halloc.others _ (hblocks.data_of_own hx hne).1
      (halloc.ne_of_used (hblocks.owned.used_of_own x hx hne))
  refine ⟨?_, hempty, halloc.not_used, ⟨halloc.data, halloc.lt⟩, halloc.zeroed, halloc.low,
    halloc.bits, fun x hx _ hne => hsame x hx hne⟩
  apply own_link (show own d ino (i, ⟨k, []⟩) = 0 from hempty)
  · intro i' slot _
    by_cases hi : i' = i
    · rw [hi, update_self]
      change update (ino i).addrs k b slot = _
      by_cases hk : slot = k
      · rw [hk, update_self, if_pos rfl]
      · rw [update_of_ne hk, if_neg]
        intro heq
        exact hk (congrArg (fun x : Nat × Node => x.2.slot) heq)
    · rw [update_of_ne hi, if_neg]
      intro heq
      exact hi (congrArg Prod.fst heq)
  · intro i' slot q j hi' hvalid hne
    rw [hsame _ ⟨hi', hvalid.of_snoc.1⟩ hne, if_neg]
    intro heq
    have hpath := congrArg (fun x : Nat × Node => x.2.path) heq
    simp at hpath
  · intro i' slot q j heq
    have hpath := congrArg (fun x : Nat × Node => x.2.path) heq
    simp at hpath
  · exact halloc.zeroed

-- A fresh block in an empty entry of an indirect block.
theorem linked_entry (hblocks : Blocks sb F ino d) (hi : F i) {j : Nat} (halloc : Alloc sb d d₁ b)
    (hvalid : Node.Valid ⟨slot, q ++ [j]⟩) (hparent : own d ino (i, ⟨slot, q⟩) ≠ 0)
    (hempty : word (d (own d ino (i, ⟨slot, q⟩))) j = 0) :
    Linked sb F ino ino d (update d₁ (own d ino (i, ⟨slot, q⟩))
      (setWord (d₁ (own d ino (i, ⟨slot, q⟩))) j b)) (i, ⟨slot, q ++ [j]⟩) b := by
  obtain ⟨hq, hlen, hj⟩ := hvalid.of_snoc
  have hused := hblocks.owned.used_of_own _ (⟨hi, hq⟩ : Pos F (i, ⟨slot, q⟩)) hparent
  have hbm := sb.bmapstart_le_data
  have hsame : ∀ x, Pos F x → own d ino x ≠ 0 → d₁ (own d ino x) = d (own d ino x) :=
    fun x hx hne => halloc.others _ (hblocks.data_of_own hx hne).1
      (halloc.ne_of_used (hblocks.owned.used_of_own x hx hne))
  have hbp : b ≠ own d ino (i, ⟨slot, q⟩) := (halloc.ne_of_used hused).symm
  have hnode : own d ino (i, ⟨slot, q ++ [j]⟩) = 0 := by
    rw [own_snoc, entry, if_neg hparent, hempty]
  have hzeroed : update d₁ (own d ino (i, ⟨slot, q⟩))
      (setWord (d₁ (own d ino (i, ⟨slot, q⟩))) j b) b = Buffer.zero := by
    rw [update_of_ne hbp, halloc.zeroed]
  refine ⟨?_, hnode, halloc.not_used, ⟨halloc.data, halloc.lt⟩, hzeroed, fun c hc => ?_,
    fun c hc => ?_, fun x hx hleaf hne => ?_⟩
  · apply own_link hnode
    · intro i' slot' _
      rw [if_neg]
      intro heq
      have hpath := congrArg (fun x : Nat × Node => x.2.path) heq
      simp at hpath
    · intro i' slot' q' j' hi' hvalid' hne
      obtain ⟨hq', -, -⟩ := hvalid'.of_snoc
      by_cases hat : own d ino (i', ⟨slot', q'⟩) = own d ino (i, ⟨slot, q⟩)
      · -- the block that was written is the parent of the new position and of no other node
        have hinj := hblocks.owned.inj _ _ (⟨hi', hq'⟩ : Pos F (i', ⟨slot', q'⟩)) ⟨hi, hq⟩ hne hat
        obtain ⟨rfl, hn⟩ := Prod.mk.inj hinj
        obtain ⟨rfl, rfl⟩ := Node.mk.inj hn
        rw [update_self, hsame _ ⟨hi, hq⟩ hparent]
        by_cases hjj : j' = j
        · subst hjj
          have hlt : b < 2 ^ 32 := by
            have hsize := halloc.lt
            have hint := sb.int_size
            omega
          rw [word_setWord_self _ hj hlt, if_pos rfl]
        · rw [word_setWord_of_ne _ _ hjj, if_neg]
          intro heq
          have hpath := congrArg (fun x : Nat × Node => x.2.path) heq
          simp at hpath
          exact hjj hpath
      · rw [update_of_ne hat, hsame _ ⟨hi', hq'⟩ hne, if_neg]
        intro heq
        obtain ⟨rfl, hn⟩ := Prod.mk.inj heq
        obtain ⟨rfl, hpath⟩ := Node.mk.inj hn
        exact hat (by rw [(append_inj' hpath rfl).1])
    · intro i' slot' q' j' heq
      obtain ⟨rfl, hn⟩ := Prod.mk.inj heq
      obtain ⟨rfl, hpath⟩ := Node.mk.inj hn
      rwa [← (append_inj' hpath rfl).1]
    · exact hzeroed
  · rw [update_of_ne (by have hdata := hused.1; omega), halloc.low c hc]
  · rw [← halloc.bits c hc]
    have hbb := sb.BBLOCK_lt_dataStart hc
    exact bitOf_congr (update_of_ne (by have hdata := hused.1; omega) _ _)
  · rw [update_of_ne (hblocks.leaf_ne_indirect hx hleaf hne hi hq hlen),
      hsame x hx hne]

/-! ## `bmap` -/

/-- Every bit is set. -/
def Full (sb : Superblock) (d : Disk) : Prop := ∀ c < sb.size, bitOf sb d c = true

variable {m m' : Machine} {off : Nat}

theorem bmapSlot_spec (off : Nat) (hblocks : Blocks sb F ino m.disk) (hi : F i) :
    (∃ a din' m', bmapSlot sb m (ino i) k = (a, din', m') ∧ a ≠ 0 ∧ din'.addrs k = a ∧
      Wrote sb F ino m.disk i m'.disk din' off [] ∧ m'.console = m.console) ∨
    bmapSlot sb m (ino i) k = (0, ino i, m.printf outOfBlocks) := by
  unfold bmapSlot
  by_cases hempty : (ino i).addrs k = 0
  · rw [if_pos hempty]
    rcases balloc_cases sb m hblocks.reserved with
      ⟨b, m', hballoc, halloc, hconsole⟩ | ⟨hballoc, hfull⟩
    · left
      have hlinked := linked_slot (i := i) hblocks halloc hempty
      rw [hballoc]
      exact ⟨b, { ino i with addrs := update (ino i).addrs k b }, m', if_neg halloc.ne_zero,
        halloc.ne_zero, update_self _ _ _, hlinked.wrote hblocks ⟨hi, valid_root k⟩ rfl off,
        hconsole⟩
    · right
      rw [hballoc]
      rfl
  · left
    rw [if_neg hempty]
    exact ⟨_, _, _, rfl, hempty, rfl, .refl hblocks i off, rfl⟩

theorem bmapEntry_spec (hblocks : Blocks sb F ino m.disk) (hi : F i)
    {j : Nat} (hvalid : Node.Valid ⟨slot, q ++ [j]⟩) (hparent : own m.disk ino (i, ⟨slot, q⟩) ≠ 0) :
    (∃ a m', bmapEntry sb m (own m.disk ino (i, ⟨slot, q⟩)) j = (a, m') ∧ a ≠ 0 ∧
      own m'.disk ino (i, ⟨slot, q ++ [j]⟩) = a ∧
      Wrote sb F ino m.disk i m'.disk (ino i) off [] ∧ m'.console = m.console) ∨
    bmapEntry sb m (own m.disk ino (i, ⟨slot, q⟩)) j = (0, m.printf outOfBlocks) ∧
      Full sb m.disk := by
  unfold bmapEntry
  by_cases hempty : word (m.disk (own m.disk ino (i, ⟨slot, q⟩))) j = 0
  · rw [if_pos hempty]
    rcases balloc_cases sb m hblocks.reserved with
      ⟨b, m', hballoc, halloc, hconsole⟩ | ⟨hballoc, hfull⟩
    · left
      have hlinked := linked_entry hblocks hi halloc hvalid hparent hempty
      have hpos : Pos F (i, ⟨slot, q ++ [j]⟩) := ⟨hi, hvalid⟩
      rw [hballoc]
      refine ⟨b, _, if_neg halloc.ne_zero, halloc.ne_zero, ?_, ?_, hconsole⟩
      · have haddr := hlinked.address _ hpos
        rwa [if_pos rfl] at haddr
      · apply Linked.wrote (b := b) _ hblocks hpos rfl off
        rwa [update_eq_self]
    · right
      rw [hballoc]
      exact ⟨rfl, hfull⟩
  · left
    rw [if_neg hempty]
    refine ⟨_, _, rfl, hempty, ?_, .refl hblocks i off, rfl⟩
    rw [own_snoc, entry, if_neg hparent]

theorem balloc_console (sb : Superblock) (m : Machine) : m.console <:+ (balloc sb m).2.console := by
  unfold balloc
  cases findFree sb m.disk with
  | some b => exact suffix_rfl
  | none => exact suffix_cons _ _

-- `bmapSlot` touches no field but `addrs[]`, and only adds to the console.
theorem bmapSlot_frame {ip ip' : Dinode} {a : Nat} (h : bmapSlot sb m ip k = (a, ip', m')) :
    m.console <:+ m'.console ∧ ip' = { ip with addrs := ip'.addrs } := by
  have hballoc := balloc_console sb m
  unfold bmapSlot at h
  rcases hb : balloc sb m with ⟨b, m1⟩
  rw [hb] at h hballoc
  split at h
  · by_cases hfull : b = 0
    · simp only [if_pos hfull] at h
      cases h
      exact ⟨hballoc, rfl⟩
    · simp only [if_neg hfull] at h
      cases h
      exact ⟨hballoc, rfl⟩
  · cases h
    exact ⟨suffix_rfl, rfl⟩

theorem bmapEntry_console {a j : Nat} (h : bmapEntry sb m b j = (a, m')) :
    m.console <:+ m'.console := by
  have hballoc := balloc_console sb m
  unfold bmapEntry at h
  rcases hb : balloc sb m with ⟨c, m1⟩
  rw [hb] at h hballoc
  split at h
  · by_cases hfull : c = 0
    · simp only [if_pos hfull] at h
      cases h
      exact hballoc
    · simp only [if_neg hfull] at h
      cases h
      exact hballoc
  · cases h
    exact suffix_rfl

theorem bmapEntries_console (sb : Superblock) (m : Machine) (a : Nat) (js : List Nat) :
    m.console <:+ (bmapEntries sb m a js).2.console := by
  induction js generalizing m a with
  | nil => exact suffix_rfl
  | cons j js ih => exact (bmapEntry_console rfl).trans (ih _ _)

-- Whatever the disk holds, `bmap` returns for a block number in range.
theorem bmap_total (sb : Superblock) (m : Machine) (ip : Dinode) {bn : Nat} (hbn : bn < MAXFILE) :
    ∃ a ip' m', bmap sb m ip bn = .ok (a, ip', m') ∧ m.console <:+ m'.console ∧
      ip' = { ip with addrs := ip'.addrs } := by
  rw [bmap_eq sb m ip hbn]
  rcases hslot : bmapSlot sb m ip (leafNode bn).slot with ⟨a, ip', m'⟩
  obtain ⟨hconsole, hfields⟩ := bmapSlot_frame hslot
  by_cases ha : a = 0
  · simp only [if_pos ha]
    exact ⟨0, ip', m', rfl, hconsole, hfields⟩
  · simp only [if_neg ha]
    exact ⟨_, ip', _, rfl, hconsole.trans (bmapEntries_console sb m' a _), hfields⟩

-- On a full disk `bmapEntry` leaves the disk alone, whatever block it is given.
theorem bmapEntry_full (hfull : Full sb m.disk) (b j : Nat) :
    (bmapEntry sb m b j = (word (m.disk b) j, m) ∧ word (m.disk b) j ≠ 0) ∨
      bmapEntry sb m b j = (0, m.printf outOfBlocks) := by
  have hle := sb.dataStart_le_size
  unfold bmapEntry
  by_cases hempty : word (m.disk b) j = 0
  · right
    rw [if_pos hempty]
    rcases balloc_cases sb m fun c hc => hfull c (by omega) with
      ⟨b', m', hballoc, halloc, -⟩ | ⟨hballoc, -⟩
    · have hset := hfull b' halloc.lt
      rw [halloc.free] at hset
      cases hset
    · rw [hballoc]
      rfl
  · left
    rw [if_neg hempty]
    exact ⟨rfl, hempty⟩

-- Nor do the entries below it change anything: on a zero boot block all of them fail.
theorem bmapEntries_full (hfull : Full sb m.disk) (a : Nat) (js : List Nat) :
    (bmapEntries sb m a js).2.disk = m.disk ∧
      (BootZero m.disk → a = 0 → (bmapEntries sb m a js).1 = 0) := by
  induction js generalizing m a with
  | nil => exact ⟨rfl, fun _ h => h⟩
  | cons j js ih =>
    rw [bmapEntries]
    rcases bmapEntry_full hfull a j with ⟨hread, hne⟩ | hread
    · rw [hread]
      refine ⟨(ih hfull _).1, fun hboot ha => absurd ?_ hne⟩
      rw [ha]
      exact hboot j
    · rw [hread]
      have hrest := ih (m := m.printf outOfBlocks) hfull 0
      exact ⟨hrest.1, fun hboot _ => hrest.2 hboot rfl⟩

theorem bmapEntries_spec (hblocks : Blocks sb F ino m.disk) (hi : F i)
    (js : List Nat) (hvalid : Node.Valid ⟨slot, q ++ js⟩) {a : Nat}
    (hown : own m.disk ino (i, ⟨slot, q⟩) = a) (ha : a ≠ 0) :
    ∃ a' m', bmapEntries sb m a js = (a', m') ∧
      Wrote sb F ino m.disk i m'.disk (ino i) off [] ∧
      ((a' ≠ 0 ∧ own m'.disk ino (i, ⟨slot, q ++ js⟩) = a' ∧ m'.console = m.console) ∨
        (outOfBlocks :: m.console) <:+ m'.console ∧ (BootZero m.disk → a' = 0)) := by
  induction js generalizing q m a with
  | nil =>
    rw [append_nil]
    exact ⟨a, m, rfl, .refl hblocks i off, .inl ⟨ha, hown, rfl⟩⟩
  | cons j js ih =>
    rw [append_cons] at hvalid ⊢
    have hentry := @bmapEntry_spec _ _ _ _ _ _ _ off hblocks hi _ (hvalid.above (prefix_append _ _))
      (by rw [hown]; exact ha)
    rw [hown] at hentry
    rcases hentry with ⟨a1, m1, hentry, ha1, hown1, hwrote1, hconsole1⟩ | ⟨hentry, hfull⟩
    · have hblocks1 := hwrote1.blocks
      rw [update_eq_self] at hblocks1
      obtain ⟨a', m', hrest, hwrote, hfound⟩ := ih hblocks1 hvalid hown1 ha1
      refine ⟨a', m', by rw [bmapEntries, hentry]; exact hrest, ?_, ?_⟩
      · exact hwrote1.trans (by rw [update_eq_self]; exact hwrote)
      · rw [hconsole1] at hfound
        exact hfound.imp_right fun h => ⟨h.1, fun hboot => h.2 fun k => by
          rw [hwrote1.low 0 sb.bmapstart_pos, hboot k]⟩
    · -- no block could be had, and the code goes on with block 0
      obtain ⟨hdisk, hzero⟩ := bmapEntries_full (m := m.printf outOfBlocks) hfull 0 js
      refine ⟨_, _, by rw [bmapEntries, hentry], ?_, .inr ⟨?_, fun hboot => hzero hboot rfl⟩⟩
      · rw [hdisk]
        exact .refl hblocks i off
      · exact bmapEntries_console sb (m.printf outOfBlocks) 0 js

/-- What a call of `bmap` for block `off / BSIZE` of inode `i` leaves: the address of the block, or
a line on the console.  A failed call returns `0` if the boot block is zero. -/
structure Mapped (sb : Superblock) (F : Nat → Prop) (ino : Nat → Dinode) (m : Machine) (i off : Nat)
    (a : Nat) (din' : Dinode) (m' : Machine) : Prop where
  wrote : Wrote sb F ino m.disk i m'.disk din' off []
  found : (a ≠ 0 ∧ own m'.disk (update ino i din') (i, leafNode (off / BSIZE)) = a ∧
      m'.console = m.console) ∨
    (outOfBlocks :: m.console) <:+ m'.console ∧ (BootZero m.disk → a = 0)

theorem bmap_spec (hblocks : Blocks sb F ino m.disk) (hi : F i) (hoff : off / BSIZE < MAXFILE) :
    ∃ a din' m', bmap sb m (ino i) (off / BSIZE) = .ok (a, din', m') ∧
      Mapped sb F ino m i off a din' m' := by
  rw [bmap_eq sb m (ino i) hoff]
  rcases bmapSlot_spec off hblocks hi with
    ⟨a1, din1, m1, hslot, ha1, haddr, hwrote1, hconsole1⟩ | hslot
  · have hown : own m1.disk (update ino i din1) (i, ⟨(leafNode (off / BSIZE)).slot, []⟩) = a1 := by
      change addr m1.disk (update ino i din1 i) ⟨_, []⟩ = a1
      rw [update_self, addr_root, haddr]
    obtain ⟨a, m', hentries, hwrote, hfound⟩ := bmapEntries_spec hwrote1.blocks
      hi (leafNode (off / BSIZE)).path (leafNode_valid hoff) hown ha1
    rw [update_self] at hwrote
    simp only [hslot, if_neg ha1, hentries]
    refine ⟨a, din1, m', rfl, hwrote1.trans hwrote, ?_⟩
    rw [hconsole1] at hfound
    exact hfound.imp_right fun h => ⟨h.1, fun hboot => h.2 fun k => by
      rw [hwrote1.low 0 sb.bmapstart_pos, hboot k]⟩
  · simp only [hslot, if_true]
    exact ⟨0, ino i, _, rfl, .refl hblocks i off, .inr ⟨suffix_rfl, fun _ => rfl⟩⟩

end OsProjects.Kernel
