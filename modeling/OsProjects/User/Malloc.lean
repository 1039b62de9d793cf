import OsProjects.User.FreeList

/-!
# Malloc — taking units off the free list

The loop looks at every free block once, from the one behind `freep` round to the one at `freep`,
before it asks for more.  What it gets is then found in a second round.
-/

namespace OsProjects.User

open Lib List

variable {base : Nat} {h h' : Heap} {bs l r : List Span} {b : Span} {nunits : UInt32} {z : Nat}
  {A : List Nat}

/-! ## Taking a block -/

/-- Block `c` of `nunits` units has been taken off the free blocks `bs`, of which `bs'` are left. -/
structure Taken (base : Nat) (h h' : Heap) (bs bs' : List Span) (nunits : UInt32) (c : Span) :
    Prop where
  list : FreeList base h' bs'
  regions : h'.regions = h.regions
  len : c.len = HEADER * nunits.toNat
  size : (h'.mem c.start).size = nunits
  same : ∀ x, x ∉ nodes base bs → (∀ b ∈ bs, x ∉ b) → h'.mem x = h.mem x
  retiles : Retiles bs (c :: bs')

section

variable (hf : FreeList base h (l ++ b :: r))
include hf

-- The whole block is unlinked.
theorem FreeList.take_all (hA : nodes base l = A ++ [z]) (hexact : (h.mem b.start).size = nunits) :
    Taken base h { h.set z { h.mem z with ptr := h.next b.start } with freep := z } (l ++ b :: r)
      (l ++ r) nunits b := by
  obtain ⟨hlow, hhigh⟩ := hf.lt_of_split
  have hzl : z ∈ nodes base l := by simp [hA]
  have hzb := hlow z hzl
  have hnext : ∀ x, x ≠ z → (h.set z { h.mem z with ptr := h.next b.start }).next x = h.next x := by
    intro x hx
    rw [Heap.next, Heap.set_mem, if_neg hx]
    rfl
  refine ⟨FreeList.splice (m := [b]) (o := none) hf ?_ (fun x _ => relinked_size h z _ x)
    (by simp) ?_, rfl, ?_, ?_, fun x hx _ => ?_, ?_⟩
  · have hpath := hf.circle
    rw [nodes_append, map_cons, hA] at hpath
    obtain ⟨w, hw, -, hrest⟩ := path_append.mp hpath
    rw [nodes_append, hA]
    refine hw.relink (r := h.next b.start) ?_ (fun x hx => hnext x (hf.lt_last hA x hx).ne)
      (hrest.congr fun x hx => hnext x ?_)
    · rw [Heap.next, Heap.set_mem, if_pos rfl]
    · have hx := hhigh x hx
      omega
  · rw [nodes_append]
    exact mem_append_left _ hzl
  · rw [← hexact]
    exact hf.sizes b (by simp)
  · exact (relinked_size h z _ b.start).trans hexact
  · rw [Heap.set_mem, if_neg]
    rintro rfl
    rw [nodes_append] at hx
    exact hx (mem_append_left _ hzl)
  · exact .of_perm perm_middle

-- Or its last units are cut off.
theorem FreeList.take_tail (hA : nodes base l = A ++ [z])
    (hlt : nunits < (h.mem b.start).size) (hpos : 0 < nunits) {k : Nat}
    (hk : k = HEADER * ((h.mem b.start).size - nunits).toNat) :
    Taken base h { (h.set b.start { h.mem b.start with size := (h.mem b.start).size - nunits }).set
        (b.start + k) { h.mem (b.start + k) with size := nunits } with freep := z }
      (l ++ b :: r) (l ++ ⟨b.start, k⟩ :: r) nunits ⟨b.start + k, b.len - k⟩ := by
  have hsizeb := hf.sizes b (by simp)
  have hsub : ((h.mem b.start).size - nunits).toNat = (h.mem b.start).size.toNat - nunits.toNat :=
    UInt32.toNat_sub_of_le _ _ (UInt32.le_of_lt hlt)
  have hlt' : nunits.toNat < (h.mem b.start).size.toNat := UInt32.lt_iff_toNat_lt.mp hlt
  have hpos' : 0 < nunits.toNat := UInt32.lt_iff_toNat_lt.mp hpos
  have hlen : b.len - k = HEADER * nunits.toNat := by
    simp only [HEADER] at *
    omega
  have hk0 : 0 < k := by
    simp only [HEADER] at *
    omega
  have hkb : k < b.len := by
    simp only [HEADER] at *
    omega
  obtain ⟨hlow, hhigh⟩ := hf.lt_of_split
  obtain ⟨-, hgapbr, hcross⟩ := pairwise_append.mp hf.gapped
  obtain ⟨hgapb, -⟩ := pairwise_cons.mp hgapbr
  have hzl : z ∈ nodes base l := by simp [hA]
  -- the new header is inside the block, where there is no node
  have hfresh : ∀ x ∈ nodes base (l ++ b :: r), x ≠ b.start + k := by
    intro x hx
    rw [nodes_append, map_cons] at hx
    rcases mem_append.mp hx with hx | hx
    · have hx := hlow x hx
      omega
    · rcases mem_cons.mp hx with rfl | hx
      · omega
      · obtain ⟨c, hc, rfl⟩ := mem_map.mp hx
        have hc := hgapb c hc
        unfold Span.stop at hc
        omega
  let h2 := (h.set b.start { h.mem b.start with size := (h.mem b.start).size - nunits }).set
    (b.start + k) { h.mem (b.start + k) with size := nunits }
  have hmem : ∀ x, x ≠ b.start → x ≠ b.start + k → h2.mem x = h.mem x := by
    intro x hb hq
    rw [Heap.set_mem, if_neg hq, Heap.set_mem, if_neg hb]
  have hmemb : h2.mem b.start = { h.mem b.start with size := (h.mem b.start).size - nunits } := by
    rw [Heap.set_mem, if_neg (by omega), Heap.set_mem, if_pos rfl]
  have hsame : nodes base (l ++ ⟨b.start, k⟩ :: r) = nodes base (l ++ b :: r) := by
    rw [nodes_append, nodes_append]
    rfl
  refine ⟨FreeList.splice (m := [b]) (o := some ⟨b.start, k⟩) hf ?_ (fun x hx => ?_)
    (fun c hc => ?_) ?_, rfl, hlen, ?_, fun x hx hout => ?_, ?_⟩
  · show Path h2.next base (nodes base (l ++ ⟨b.start, k⟩ :: r)) base
    rw [hsame]
    refine hf.circle.congr fun x hx => ?_
    show (h2.mem x).ptr = (h.mem x).ptr
    by_cases hxb : x = b.start
    · rw [hxb, hmemb]
    · rw [hmem x hxb (hfresh x hx)]
  · rw [nodes_append] at hx
    rw [hmem x ?_ (hfresh x ?_)]
    · exact (mem_append.mp hx).elim (fun hx => (hlow x hx).ne) fun hx => (hhigh x hx).ne'
    · rw [nodes_append, map_cons]
      exact mem_append.mpr ((mem_append.mp hx).imp_right (mem_cons_of_mem _))
  · cases hc
    refine ⟨?_, hk0, hf.above b (by simp), fun c hc => hcross c hc b mem_cons_self, fun c hc => ?_⟩
    · rwa [hmemb]
    · have hc := hgapb c hc
      unfold Span.stop at *
      simp only
      omega
  · rw [nodes_append]
    exact mem_append_left _ hzl
  · rw [Heap.set_mem, if_pos rfl]
  · have hb : x ≠ b.start := by
      rintro rfl
      exact hx (by simp [nodes])
    refine hmem x hb ?_
    rintro rfl
    refine hout b (by simp) ?_
    rw [Span.mem_iff]
    omega
  · refine (Retiles.of_perm perm_middle).trans ((retiles_cut hk0 hkb).trans (.of_perm ?_))
    exact (List.Perm.swap _ _ _).trans (perm_middle.symm.cons _)

theorem FreeList.take (hA : nodes base l = A ++ [z])
    (hfits : nunits ≤ (h.mem b.start).size) (hpos : 0 < nunits) :
    ∃ c bs', (h.take z b.start nunits).1 = c.start + HEADER ∧
      Taken base h (h.take z b.start nunits).2 (l ++ b :: r) bs' nunits c := by
  unfold Heap.take
  split
  next hexact =>
    exact ⟨b, l ++ r, rfl, hf.take_all hA hexact⟩
  next hexact =>
    have hlt : nunits < (h.mem b.start).size := UInt32.lt_of_le_of_ne hfits (Ne.symm hexact)
    obtain ⟨k, hk⟩ : ∃ k, k = HEADER * ((h.mem b.start).size - nunits).toNat := ⟨_, rfl⟩
    have hpos' : 0 < k := by
      have hlt' := UInt32.lt_iff_toNat_lt.mp hlt
      rw [hk, UInt32.toNat_sub_of_le _ _ hfits]
      simp only [HEADER]
      omega
    have hbehind : (h.set b.start
        { h.mem b.start with size := (h.mem b.start).size - nunits }).behind
        b.start = b.start + k := by
      rw [Heap.behind, Heap.set_mem, if_pos rfl, hk]
    refine ⟨⟨b.start + k, b.len - k⟩, l ++ ⟨b.start, k⟩ :: r, ?_, ?_⟩
    · simp only [hbehind]
    · simp only [hbehind]
      rw [Heap.set_mem h, if_neg (by omega)]
      exact hf.take_tail hA hlt hpos hk

end

/-! ## The loop -/

section Loop

variable {sbrk : List Span → Int → Option Nat} {fuel : Nat}

-- Blocks that are too small are passed by.
theorem mallocLoop_skip {m : List Nat} {prevp p q : Nat} (hpath : Path h.next p m q)
    (hsmall : ∀ x ∈ m, ¬nunits ≤ (h.mem x).size) (hne : ∀ x ∈ m, x ≠ h.freep) :
    Heap.mallocLoop sbrk nunits (m.length + fuel) h prevp p =
      Heap.mallocLoop sbrk nunits fuel h (m.getLastD prevp) q := by
  induction m generalizing prevp p with
  | nil =>
    rw [path_nil.mp hpath, length_nil, Nat.zero_add]
    rfl
  | cons a m ih =>
    obtain ⟨rfl, hrest⟩ := hpath
    rw [length_cons, Nat.add_right_comm, Heap.mallocLoop, if_neg (hsmall p mem_cons_self),
      if_neg (hne p mem_cons_self), getLastD_cons]
    exact ih hrest (fun x hx => hsmall x (mem_cons_of_mem p hx))
      fun x hx => hne x (mem_cons_of_mem p hx)

-- The round of the loop: `m` and then `freep`.
theorem FreeList.round (hf : FreeList base h bs) : ∃ m, Path h.next (h.next h.freep) m h.freep ∧
    (h.freep :: m).Perm (nodes base bs) := by
  obtain ⟨L, R, hLR⟩ := append_of_mem hf.entry
  have hpath := hf.circle
  rw [hLR] at hpath
  refine ⟨R ++ L, hpath.rotate.2, ?_⟩
  rw [hLR, ← cons_append]
  exact perm_append_comm

-- The first block of the round that is large enough, and the ones passed by.
theorem FreeList.first_fit (hf : FreeList base h bs) (hpos : 0 < nunits)
    (hfits : ∃ b ∈ bs, nunits ≤ (h.mem b.start).size) :
    ∃ m b, b ∈ bs ∧ nunits ≤ (h.mem b.start).size ∧ Path h.next (h.next h.freep) m b.start ∧
      (∀ y ∈ m, ¬nunits ≤ (h.mem y).size ∧ y ≠ h.freep ∧ y ∈ nodes base bs) ∧
      m.length ≤ bs.length := by
  obtain ⟨m, hm, hperm⟩ := hf.round
  have hround : Path h.next (h.next h.freep) (m ++ [h.freep]) (h.next h.freep) :=
    path_append.mpr ⟨_, hm, rfl, rfl⟩
  replace hperm : (m ++ [h.freep]).Perm (nodes base bs) :=
    (perm_append_singleton _ _).trans hperm
  obtain ⟨x, hx⟩ : ∃ x, (m ++ [h.freep]).find? (fun x => nunits ≤ (h.mem x).size) = some x := by
    obtain ⟨b, hb, hfit⟩ := hfits
    refine Option.isSome_iff_exists.mp (List.find?_isSome.mpr ⟨b.start, ?_, decide_eq_true hfit⟩)
    exact hperm.mem_iff.mpr (mem_cons_of_mem _ (mem_map_of_mem hb))
  obtain ⟨hfit, before, after, hsplit, hbefore⟩ := List.find?_eq_some_iff_append.mp hx
  have hfit : nunits ≤ (h.mem x).size := of_decide_eq_true hfit
  have hlast : h.freep ∈ x :: after := by
    rcases eq_nil_or_concat (x :: after) with hnil | ⟨m', e, he⟩
    · cases hnil
    · rw [he, concat_eq_append, ← append_assoc] at hsplit
      obtain ⟨-, he'⟩ := append_inj' hsplit rfl
      rw [he, singleton_inj.mp he']
      simp
  rw [hsplit] at hround hperm
  have hnodup := hperm.nodup_iff.mpr hf.nodup
  obtain ⟨w, hw, hwx, -⟩ := path_append.mp hround
  rw [hwx] at hw
  -- `base` has no units
  obtain ⟨b, hb, rfl⟩ : ∃ b ∈ bs, b.start = x := by
    have hmem : x ∈ nodes base bs := hperm.mem_iff.mp (by simp)
    rcases mem_cons.mp hmem with rfl | hmem
    · rw [hf.empty] at hfit
      exact absurd hpos (UInt32.not_lt.mpr hfit)
    · exact mem_map.mp hmem
  refine ⟨before, b, hb, hfit, hw, fun y hy => ⟨fun hfit => ?_, ?_, ?_⟩, ?_⟩
  · have hnot := hbefore y hy
    rw [decide_eq_true hfit] at hnot
    cases hnot
  · rintro rfl
    exact (nodup_append.mp hnodup).2.2 _ hy _ hlast rfl
  · exact hperm.mem_iff.mp (mem_append_left _ hy)
  · have hlen := hperm.length_eq
    simp only [length_append, length_cons, nodes, length_map] at hlen
    omega

variable (sbrk) in
theorem FreeList.mallocLoop_fits (hf : FreeList base h bs) (hpos : 0 < nunits)
    (hfits : ∃ b ∈ bs, nunits ≤ (h.mem b.start).size) (hfuel : bs.length < fuel) :
    ∃ h' c bs', Heap.mallocLoop sbrk nunits fuel h h.freep (h.next h.freep) =
      some (c.start + HEADER, h') ∧ Taken base h h' bs bs' nunits c := by
  obtain ⟨m, b, hb, hfit, hm, hpassed, hlen⟩ := hf.first_fit hpos hfits
  obtain ⟨l, r, rfl⟩ := append_of_mem hb
  obtain ⟨A, z, hA⟩ := exists_last base l
  -- the loop comes to the block from its predecessor in the list
  have hz : m.getLastD h.freep = z := by
    have hcircle := hf.circle
    have hlink : h.next z = b.start := by
      rw [nodes_append, hA, map_cons, append_assoc] at hcircle
      exact hcircle.link
    refine hcircle.next_inj hf.nodup ?_ ?_ (hm.next_getLastD.trans hlink.symm)
    · have hlast : m.getLastD h.freep ∈ h.freep :: m := getLastD_mem_cons
      rcases mem_cons.mp hlast with heq | hmem
      · rw [heq]
        exact hf.entry
      · exact (hpassed _ hmem).2.2
    · rw [← nodes, nodes_append, hA]
      simp
  obtain ⟨n, rfl⟩ : ∃ n, fuel = m.length + (n + 1) := ⟨fuel - m.length - 1, by omega⟩
  rw [mallocLoop_skip hm (fun y hy => (hpassed y hy).1) (fun y hy => (hpassed y hy).2.1),
    Heap.mallocLoop, if_pos hfit, hz]
  obtain ⟨c, bs', hc, htaken⟩ := hf.take hA hfit hpos
  exact ⟨_, c, bs', by rw [← hc], htaken⟩

-- No block is large enough, and the loop comes to `morecore`.
theorem FreeList.mallocLoop_none (hf : FreeList base h bs) (hpos : 0 < nunits)
    (hsmall : ∀ b ∈ bs, ¬nunits ≤ (h.mem b.start).size) :
    Heap.mallocLoop sbrk nunits (bs.length + (fuel + 1)) h h.freep (h.next h.freep) =
      (h.morecore sbrk fuel nunits).bind fun r => if r.1 = 0 then some (0, r.2) else
        Heap.mallocLoop sbrk nunits fuel r.2 r.1 (r.2.next r.1) := by
  obtain ⟨m, hm, hperm⟩ := hf.round
  have hnot : ∀ y ∈ h.freep :: m, ¬nunits ≤ (h.mem y).size := by
    intro y hy
    rcases mem_cons.mp (hperm.mem_iff.mp hy) with rfl | hy
    · rw [hf.empty]
      exact UInt32.not_le.mpr hpos
    · obtain ⟨b, hb, rfl⟩ := mem_map.mp hy
      exact hsmall b hb
  have hnodup := hperm.nodup_iff.mpr hf.nodup
  have hlen : bs.length = m.length := by
    have hlen := hperm.length_eq
    simp only [length_cons, nodes, length_map] at hlen
    omega
  rw [hlen, mallocLoop_skip hm (fun y hy => hnot y (mem_cons_of_mem _ hy)), Heap.mallocLoop,
    if_neg (hnot _ mem_cons_self), if_pos rfl]
  · rfl
  · intro y hy heq
    exact (nodup_cons.mp hnodup).1 (heq ▸ hy)

end Loop

/-! ## Asking for more -/

section More

variable {sbrk : List Span → Int → Option Nat} {fuel a : Nat} {nu : UInt32}

/-- What `sbrk` returns is a region of as many units as asked for, beyond all free blocks, and it
does not make the free blocks more than a `size` can hold. -/
structure Extends (base : Nat) (bs : List Span) (nu : UInt32) (a : Nat) : Prop where
  request : Heap.request nu = HEADER * nu.toNat
  base_le : base + HEADER ≤ a
  beyond : ∀ b ∈ bs, b.stop ≤ a
  total : HEADER * nu.toNat + (bs.map Span.len).sum < HEADER * 2 ^ 32

theorem atLeast_pos : 0 < (Heap.atLeast nu).toNat := by
  unfold Heap.atLeast
  split
  · decide
  · have hle := UInt32.le_iff_toNat_le.mp (UInt32.not_lt.mp ‹_›)
    exact lt_of_lt_of_le (by decide) hle

theorem le_atLeast : nu ≤ Heap.atLeast nu := by
  unfold Heap.atLeast
  split
  · exact UInt32.le_of_lt ‹_›
  · exact UInt32.le_refl nu

theorem FreeList.morecore (hf : FreeList base h bs)
    (hsbrk : sbrk h.regions (Heap.request (Heap.atLeast nunits)) = some a)
    (hext : Extends base bs (Heap.atLeast nunits) a) (hfuel : bs.length < fuel) :
    ∃ h₁ h' bs', h.morecore sbrk fuel nunits = some (h'.freep, h') ∧
      (∀ x, x ≠ a → h₁.mem x = h.mem x) ∧
      h₁.regions = ⟨a, HEADER * (Heap.atLeast nunits).toNat⟩ :: h.regions ∧
      Freed base h₁ h' ⟨a, HEADER * (Heap.atLeast nunits).toNat⟩ bs bs' := by
  let b : Span := ⟨a, HEADER * (Heap.atLeast nunits).toNat⟩
  let h₁ : Heap := { h with regions := b :: h.regions }.set a
    { h.mem a with size := Heap.atLeast nunits }
  have hmem : ∀ x, x ≠ a → h₁.mem x = h.mem x := by
    intro x hx
    rw [Heap.set_mem, if_neg hx]
  -- the new block is not a node yet
  have hnew : ∀ x ∈ nodes base bs, x ≠ a := by
    intro x hx
    rcases mem_cons.mp hx with rfl | hx
    · have hle := hext.base_le
      simp only [HEADER] at hle
      omega
    · obtain ⟨c, hc, rfl⟩ := mem_map.mp hx
      have hle := hext.beyond c hc
      have hpos := hf.pos c hc
      unfold Span.stop at hle
      omega
  have hf1 : FreeList base h₁ bs := hf.congr (fun x hx => hmem x (hnew x hx)) rfl
  have hpos : 0 < b.len := Nat.mul_pos (by decide) atLeast_pos
  have hsize : b.len = HEADER * (h₁.mem b.start).size.toNat := by
    rw [Heap.set_mem, if_pos rfl]
  obtain ⟨h', bs', hrun, hfreed⟩ := hf1.free hpos hsize hext.base_le
    (fun c hc => .inr (hext.beyond c hc)) hext.total hfuel
  refine ⟨h₁, h', bs', ?_, hmem, rfl, hfreed⟩
  have hlen : (Heap.request (Heap.atLeast nunits)).toNat =
      HEADER * (Heap.atLeast nunits).toNat := by
    rw [hext.request]
    rfl
  simp only [Heap.morecore, hsbrk, hlen]
  rw [show (({ h with regions := b :: h.regions } : Heap).set a
    { h.mem a with size := Heap.atLeast nunits }).free fuel (a + HEADER) = some h' from hrun]
  rfl

-- Afterwards there is a block that is large enough.
theorem FreeList.fits_of_len (hf : FreeList base h bs) {c : Span} (hc : c ∈ bs)
    (hle : HEADER * nu.toNat ≤ c.len) : nu ≤ (h.mem c.start).size := by
  rw [hf.sizes c hc] at hle
  rw [UInt32.le_iff_toNat_le]
  exact Nat.le_of_mul_le_mul_left hle (by decide)

/-- Block `c` is the result of `malloc`; `new` is what has been obtained for it. -/
structure Granted (base : Nat) (h h' : Heap) (bs new bs' : List Span) (nunits : UInt32) (c : Span) :
    Prop where
  list : FreeList base h' bs'
  regions : h'.regions = new ++ h.regions
  len : c.len = HEADER * nunits.toNat
  size : (h'.mem c.start).size = nunits
  same : ∀ x, x ≠ base → (∀ b ∈ new ++ bs, x ∉ b) → h'.mem x = h.mem x
  retiles : Retiles (new ++ bs) (c :: bs')

-- The nodes other than `base` are in their blocks.
theorem FreeList.not_mem_nodes (hf : FreeList base h bs) {x : Nat} (hx : x ≠ base)
    (hout : ∀ b ∈ bs, x ∉ b) : x ∉ nodes base bs := by
  intro hmem
  rcases mem_cons.mp hmem with rfl | hmem
  · exact hx rfl
  · obtain ⟨b, hb, rfl⟩ := mem_map.mp hmem
    have hpos := hf.pos b hb
    refine hout b hb ?_
    rw [Span.mem_iff]
    omega

theorem FreeList.apart (hf : FreeList base h bs) : bs.Pairwise Span.Apart :=
  hf.gapped.imp fun hab => .inl (Nat.le_of_lt hab)

theorem Taken.granted {bs' : List Span} {c : Span} (ht : Taken base h h' bs bs' nunits c)
    (hf : FreeList base h bs) : Granted base h h' bs [] bs' nunits c :=
  ⟨ht.list, ht.regions, ht.len, ht.size, fun x hx hout => ht.same x (hf.not_mem_nodes hx hout) hout,
    ht.retiles⟩

theorem FreeList.malloc (hf : FreeList base h bs) (hbase : 0 < base) (hpos : 0 < nunits)
    (hext : (∃ b ∈ bs, nunits ≤ (h.mem b.start).size) ∨
      ∀ a, sbrk h.regions (Heap.request (Heap.atLeast nunits)) = some a →
        Extends base bs (Heap.atLeast nunits) a) (hfuel : 2 * bs.length + 3 ≤ fuel) :
    ∃ p h', Heap.mallocLoop sbrk nunits fuel h h.freep (h.next h.freep) = some (p, h') ∧
      (p = 0 ∧ h' = h ∨ ∃ c new bs', p = c.start + HEADER ∧ Granted base h h' bs new bs' nunits c ∧
        (new = [] ∨ (¬∃ b ∈ bs, nunits ≤ (h.mem b.start).size) ∧
          ∃ a, sbrk h.regions (Heap.request (Heap.atLeast nunits)) = some a ∧
            new = [⟨a, HEADER * (Heap.atLeast nunits).toNat⟩])) := by
  by_cases hfits : ∃ b ∈ bs, nunits ≤ (h.mem b.start).size
  · obtain ⟨h', c, bs', hrun, htaken⟩ := hf.mallocLoop_fits sbrk hpos hfits
      (show bs.length < fuel by omega)
    exact ⟨_, h', hrun, .inr ⟨c, [], bs', rfl, htaken.granted hf, .inl rfl⟩⟩
  obtain ⟨n, rfl⟩ : ∃ n, fuel = bs.length + (n + 1) := ⟨fuel - bs.length - 1, by omega⟩
  rw [hf.mallocLoop_none hpos fun b hb hfit => hfits ⟨b, hb, hfit⟩]
  cases hsbrk : sbrk h.regions (Heap.request (Heap.atLeast nunits)) with
  | none =>
    have hmore : h.morecore sbrk n nunits = some (0, h) := by
      simp only [Heap.morecore, hsbrk]
      rfl
    rw [hmore]
    exact ⟨0, h, rfl, .inl ⟨rfl, rfl⟩⟩
  | some a =>
    have hext := hext.resolve_left hfits a hsbrk
    obtain ⟨h1, h2, bs2, hmore, hmem, hregions, hfreed⟩ := hf.morecore hsbrk hext
      (show bs.length < n by omega)
    -- the second round
    have hfits2 : ∃ b ∈ bs2, nunits ≤ (h2.mem b.start).size := by
      obtain ⟨c, hc, hle⟩ := hfreed.holds
      exact ⟨c, hc, UInt32.le_trans le_atLeast (hfreed.list.fits_of_len hc hle)⟩
    obtain ⟨h', c, bs', hrun, htaken⟩ := hfreed.list.mallocLoop_fits sbrk hpos hfits2
      (show bs2.length < n by
        have hlen := hfreed.length
        omega)
    have hne : h2.freep ≠ 0 := by
      have hle := hfreed.list.base_le hfreed.list.entry
      omega
    rw [hmore, Option.bind_some, if_neg hne, hrun]
    have hbnew : ∀ b ∈ bs, Span.Apart ⟨a, HEADER * (Heap.atLeast nunits).toNat⟩ b :=
      fun b hb => .inr (hext.beyond b hb)
    have hself := tiles_self
      (forall_mem_cons.mpr ⟨Nat.mul_pos (by decide) atLeast_pos, hf.pos⟩)
      (pairwise_cons.mpr ⟨hbnew, hf.apart⟩)
    have hcovers := (hfreed.retiles [] _ (by simpa using hself)).covers
    have htaken' := htaken.granted hfreed.list
    refine ⟨_, h', rfl, .inr ⟨c, [_], bs', rfl, ⟨htaken'.list, ?_, htaken'.len, htaken'.size,
      fun x hx hout => ?_, hfreed.retiles.trans htaken'.retiles⟩, .inr ⟨hfits, a, rfl, rfl⟩⟩⟩
    · rw [htaken.regions, hfreed.regions, hregions]
      rfl
    · have hout2 : ∀ b ∈ bs2, x ∉ b := by
        intro b hb hmem
        obtain ⟨b', hb', hmem'⟩ := (hcovers x).mp ⟨b, by simpa using hb, hmem⟩
        exact hout b' hb' hmem'
      have hxa : x ≠ a := by
        intro hxa
        refine hout _ mem_cons_self ?_
        rw [Span.mem_iff, hxa]
        exact ⟨le_rfl, Nat.lt_add_of_pos_right (Nat.mul_pos (by decide) atLeast_pos)⟩
      rw [htaken'.same x hx hout2, hfreed.same x, hmem x hxa]
      intro hmem
      rcases mem_cons.mp hmem with heq | hmem
      · exact hxa heq
      · exact hf.not_mem_nodes hx (fun b hb => hout b (mem_cons_of_mem _ hb)) hmem

end More

end OsProjects.User
