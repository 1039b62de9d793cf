import OsProjects.User.Umalloc

/-!
# FreeList — the free blocks as a circular list in address order

The list runs from `base` upwards through the free blocks and back to `base`; `freep` may be any of
its nodes.  Each free block is as large as it can be: between two of them there is a gap.
-/

namespace OsProjects.User

open Lib List

/-- The nodes of the free list, from `base` on. -/
def nodes (base : Nat) (bs : List Span) : List Nat := base :: bs.map Span.start

/-- `bs` are the free blocks. -/
structure FreeList (base : Nat) (h : Heap) (bs : List Span) : Prop where
  circle : Path h.next base (nodes base bs) base
  empty : (h.mem base).size = 0
  sizes : ∀ b ∈ bs, b.len = HEADER * (h.mem b.start).size.toNat
  pos : ∀ b ∈ bs, 0 < b.len
  gapped : bs.Pairwise fun a b => a.stop < b.start
  above : ∀ b ∈ bs, base + HEADER ≤ b.start
  entry : h.freep ∈ nodes base bs

variable {base : Nat} {h h' : Heap} {bs l r : List Span} {b c : Span}

theorem nodes_append : nodes base (l ++ r) = nodes base l ++ r.map Span.start := by
  simp [nodes]

section

variable (hf : FreeList base h bs)
include hf

theorem FreeList.sorted : (nodes base bs).Pairwise (· < ·) := by
  refine pairwise_cons.mpr ⟨fun x hx => ?_, pairwise_map.mpr (hf.gapped.imp ?_)⟩
  · obtain ⟨b, hb, rfl⟩ := mem_map.mp hx
    have habove := hf.above b hb
    simp only [HEADER] at habove
    omega
  · intro a b hab
    unfold Span.stop at hab
    omega

theorem FreeList.nodup : (nodes base bs).Nodup :=
  hf.sorted.imp fun hlt => Nat.ne_of_lt hlt

theorem FreeList.base_le {x : Nat} (hx : x ∈ nodes base bs) : base ≤ x := by
  rcases mem_cons.mp hx with rfl | hx
  · exact le_rfl
  · exact Nat.le_of_lt ((pairwise_cons.mp hf.sorted).1 x hx)

theorem FreeList.behind (hb : b ∈ bs) : h.behind b.start = b.stop := by
  rw [Heap.behind, ← hf.sizes b hb]
  rfl

-- The list is made of what the nodes hold.
theorem FreeList.congr (hsame : ∀ x ∈ nodes base bs, h'.mem x = h.mem x)
    (hfreep : h'.freep = h.freep) : FreeList base h' bs := by
  refine ⟨hf.circle.congr fun x hx => ?_, ?_, fun b hb => ?_, hf.pos, hf.gapped, hf.above, ?_⟩
  · rw [Heap.next, hsame x hx]
    rfl
  · rw [hsame base mem_cons_self]
    exact hf.empty
  · rw [hsame b.start (mem_cons_of_mem _ (mem_map_of_mem hb))]
    exact hf.sizes b hb
  · rw [hfreep]
    exact hf.entry

end

theorem FreeList.lt_of_split (hf : FreeList base h (l ++ b :: r)) :
    (∀ x ∈ nodes base l, x < b.start) ∧ ∀ x ∈ r.map Span.start, b.start < x := by
  have hsorted := hf.sorted
  rw [nodes_append, map_cons] at hsorted
  obtain ⟨-, hbr, hcross⟩ := pairwise_append.mp hsorted
  exact ⟨fun x hx => hcross x hx _ mem_cons_self, (pairwise_cons.mp hbr).1⟩

theorem exists_last (base : Nat) (l : List Span) : ∃ A z, nodes base l = A ++ [z] := by
  rcases eq_nil_or_concat (nodes base l) with hnil | ⟨A, z, hA⟩
  · cases hnil
  · exact ⟨A, z, by rw [hA, concat_eq_append]⟩

theorem FreeList.lt_last (hf : FreeList base h (l ++ r)) {A : List Nat} {z : Nat}
    (hA : nodes base l = A ++ [z]) : ∀ x ∈ A, x < z := by
  have hsorted := hf.sorted
  rw [nodes_append, hA] at hsorted
  obtain ⟨hAz, -, -⟩ := pairwise_append.mp hsorted
  exact fun x hx => (pairwise_append.mp hAz).2.2 x hx z (by simp)

-- A new link leaves the sizes.
theorem relinked_size (h : Heap) (z q x : Nat) :
    ((h.set z { h.mem z with ptr := q }).mem x).size = (h.mem x).size := by
  rw [Heap.set_mem]
  by_cases hx : x = z
  · rw [if_pos hx, hx]
  · rw [if_neg hx]

-- One block at most, `o`, comes in the place of the blocks `m`.
theorem FreeList.splice {m : List Span} {o : Option Span} (hf : FreeList base h (l ++ (m ++ r)))
    (hpath : Path h'.next base (nodes base (l ++ (o.toList ++ r))) base)
    (hsize : ∀ x ∈ nodes base (l ++ r), (h'.mem x).size = (h.mem x).size)
    (hnew : ∀ b, o = some b → b.len = HEADER * (h'.mem b.start).size.toNat ∧ 0 < b.len ∧
      base + HEADER ≤ b.start ∧ (∀ c ∈ l, c.stop < b.start) ∧ ∀ c ∈ r, b.stop < c.start)
    (hentry : h'.freep ∈ nodes base (l ++ (o.toList ++ r))) :
    FreeList base h' (l ++ (o.toList ++ r)) := by
  have hsub : (l ++ r).Sublist (l ++ (m ++ r)) := (sublist_append_right m r).append_left l
  have hcases : ∀ c ∈ l ++ (o.toList ++ r), c ∈ l ++ r ∨ o = some c := by
    intro c hc
    simp only [mem_append, Option.mem_toList] at hc ⊢
    tauto
  refine ⟨hpath, ?_, fun c hc => ?_, fun c hc => ?_, ?_, fun c hc => ?_, hentry⟩
  · rw [hsize base mem_cons_self]
    exact hf.empty
  · rcases hcases c hc with hc | hc
    · rw [hsize c.start (mem_cons_of_mem _ (mem_map_of_mem hc))]
      exact hf.sizes c (hsub.subset hc)
    · exact (hnew c hc).1
  · exact (hcases c hc).elim (fun hc => hf.pos c (hsub.subset hc)) fun hc => (hnew c hc).2.1
  · have hgap := hf.gapped.sublist hsub
    cases o with
    | none => exact hgap
    | some b =>
      obtain ⟨hl, hr, hcross⟩ := pairwise_append.mp hgap
      obtain ⟨-, -, -, hlow, hhigh⟩ := hnew b rfl
      refine pairwise_append.mpr ⟨hl, pairwise_cons.mpr ⟨hhigh, hr⟩, fun c hc d hd => ?_⟩
      rcases mem_cons.mp hd with rfl | hd
      · exact hlow c hc
      · exact hcross c hc d hd
  · exact (hcases c hc).elim (fun hc => hf.above c (hsub.subset hc)) fun hc => (hnew c hc).2.2.1

/-! ## The place of a block -/

-- The blocks below `b` and those above it.
theorem exists_split (hgap : bs.Pairwise fun a b => a.stop < b.start)
    (hapart : ∀ c ∈ bs, Span.Apart b c) : ∃ l r, bs = l ++ r ∧ (∀ c ∈ l, c.stop ≤ b.start) ∧
      ∀ c ∈ r, b.stop ≤ c.start := by
  induction bs with
  | nil => exact ⟨[], [], rfl, nofun, nofun⟩
  | cons c bs ih =>
    obtain ⟨hc, hbs⟩ := pairwise_cons.mp hgap
    rcases hapart c mem_cons_self with habove | hbelow
    · refine ⟨[], c :: bs, rfl, nofun, fun d hd => ?_⟩
      rcases mem_cons.mp hd with rfl | hd
      · exact habove
      · have hgap' := hc d hd
        unfold Span.stop at *
        omega
    · obtain ⟨l, r, rfl, hl, hr⟩ := ih hbs fun d hd => hapart d (mem_cons_of_mem c hd)
      exact ⟨c :: l, r, rfl, forall_mem_cons.mpr ⟨hbelow, hl⟩, hr⟩

/-- `z` is the last node below address `bp`: the nodes are cut there into `A ++ [z]` and `C`. -/
structure Cut (base : Nat) (h : Heap) (bp : Nat) (A : List Nat) (z : Nat) (C : List Nat) :
    Prop where
  path : Path h.next base (A ++ [z] ++ C) base
  sorted : (A ++ [z] ++ C).Pairwise (· < ·)
  low : ∀ x ∈ A ++ [z], x < bp
  high : ∀ x ∈ C, bp < x
  base_lt : base < bp
  base_le : ∀ x ∈ A ++ [z] ++ C, base ≤ x

section Cuts

variable {bp z : Nat} {A C : List Nat}

-- The loop of `free` ends there ...
theorem Cut.placed (hcut : Cut base h bp A z C) : h.placed bp z = true := by
  have hlow := hcut.low z (by simp)
  unfold Heap.placed
  cases C with
  | nil =>
    have hlink : h.next z = base := by
      have hpath := hcut.path
      rw [append_nil] at hpath
      exact hpath.last_link
    have hle := hcut.base_le z (by simp)
    simp [hlink, hle, hlow]
  | cons w C =>
    have hpath := hcut.path
    rw [append_assoc] at hpath
    have hlink : h.next z = w := hpath.link
    have hhigh := hcut.high w mem_cons_self
    simp [hlink, hlow, hhigh]

-- ... and nowhere else.
theorem Cut.eq_of_placed (hcut : Cut base h bp A z C) {y : Nat} (hy : y ∈ A ++ [z] ++ C)
    (hplaced : h.placed bp y = true) : y = z := by
  obtain ⟨L, R, hLR⟩ := append_of_mem hy
  have hpath := hcut.path
  have hsorted := hcut.sorted
  rw [hLR] at hpath hsorted
  obtain ⟨-, hyR, hcross⟩ := pairwise_append.mp hsorted
  have hbp := hcut.base_lt
  -- a node below `bp`, all of whose successors are above
  have hlow : y < bp ∧ ∀ x ∈ R, bp < x := by
    unfold Heap.placed at hplaced
    cases R with
    | nil =>
      simp only [hpath.last_link, Bool.or_eq_true, Bool.and_eq_true, decide_eq_true_eq] at hplaced
      exact ⟨by omega, nofun⟩
    | cons w R =>
      obtain ⟨hy, hw⟩ := pairwise_cons.mp hyR
      have hyw := hy w mem_cons_self
      simp only [hpath.link, Bool.or_eq_true, Bool.and_eq_true, decide_eq_true_eq] at hplaced
      refine ⟨by omega, fun x hx => ?_⟩
      rcases mem_cons.mp hx with rfl | hx
      · omega
      · have hwx := (pairwise_cons.mp hw).1 x hx
        omega
  have hz : z ∈ L ++ y :: R := by
    rw [← hLR]
    simp
  have hzbp := hcut.low z (by simp)
  have hle : y ≤ z := by
    obtain ⟨hAz, -, -⟩ := pairwise_append.mp hcut.sorted
    rcases mem_append.mp hy with hy | hy
    · rcases mem_append.mp hy with hy | hy
      · exact Nat.le_of_lt ((pairwise_append.mp hAz).2.2 y hy z (by simp))
      · exact Nat.le_of_eq (mem_singleton.mp hy)
    · have hhigh := hcut.high y hy
      omega
  rcases mem_append.mp hz with hz | hz
  · have hlt := hcross z hz y mem_cons_self
    omega
  · rcases mem_cons.mp hz with rfl | hz
    · rfl
    · have hhigh := hlow.2 z hz
      omega

-- So this is where it ends from wherever it starts.
theorem Cut.search_eq (hcut : Cut base h bp A z C) {p : Nat} (hp : p ∈ A ++ [z] ++ C) {fuel : Nat}
    (hfuel : (A ++ [z] ++ C).length ≤ fuel) : search h.next (h.placed bp) fuel p = some z := by
  obtain ⟨L, R, hLR⟩ := append_of_mem hp
  have hpath := hcut.path
  rw [hLR] at hpath hfuel
  have hperm : (L ++ p :: R).Perm (p :: R ++ L) := perm_append_comm
  refine hpath.rotate.search_eq (find?_eq_of_unique (a := z) ?_ hcut.placed fun y hy => ?_) ?_
  · rw [← hperm.mem_iff, ← hLR]
    simp
  · rw [← hperm.mem_iff, ← hLR] at hy
    exact hcut.eq_of_placed hy
  · rwa [← hperm.length_eq]

end Cuts

/-! ## Freeing a block -/

-- Sizes add up while the whole is below 2³² units.
theorem units_add {x y : UInt32} {m n : Nat} (hm : m = HEADER * x.toNat) (hn : n = HEADER * y.toNat)
    (hlt : m + n < HEADER * 2 ^ 32) : m + n = HEADER * (x + y).toNat := by
  rw [UInt32.toNat_add, Nat.mod_eq_of_lt]
  · simp only [HEADER] at *
    omega
  · simp only [HEADER] at *
    omega

/-- Block `b` has been joined to the blocks `r` above it: it is `b'` now, and `r'` are left. -/
structure Upper (base : Nat) (h h' : Heap) (b : Span) (r : List Span) (b' : Span) (r' : List Span) :
    Prop where
  start : b'.start = b.start
  same : ∀ x, x ≠ b.start → h'.mem x = h.mem x
  path : Path h'.next (h'.next b.start) (r'.map Span.start) base
  size : b'.len = HEADER * (h'.mem b.start).size.toNat
  gap : ∀ c ∈ r', b'.stop < c.start
  grown : b.len ≤ b'.len
  rest : ∃ m, r = m ++ r'
  total : b'.len + (r'.map Span.len).sum = b.len + (r.map Span.len).sum
  retiles : Retiles (b :: r) (b' :: r')

theorem joinUpper_upper {z : Nat} (hpath : Path h.next (h.next z) (r.map Span.start) base)
    (hsize : b.len = HEADER * (h.mem b.start).size.toNat)
    (hsizes : ∀ c ∈ r, c.len = HEADER * (h.mem c.start).size.toNat) (hpos : 0 < b.len)
    (hgap : r.Pairwise fun a b => a.stop < b.start) (habove : ∀ c ∈ r, b.stop ≤ c.start)
    (hbase : base < b.start) (htotal : b.len + (r.map Span.len).sum < HEADER * 2 ^ 32) :
    ∃ b' r', Upper base h (h.joinUpper b.start z) b r b' r' := by
  have hbehind : h.behind b.start = b.stop := by
    rw [Heap.behind, ← hsize]
    rfl
  have hne : ∀ c ∈ r, c.start ≠ b.start := by
    intro c hc
    have hc := habove c hc
    unfold Span.stop at hc
    omega
  -- the links of the blocks above stay
  have hframe : ∀ (x : Header) (r' : List Span) (q : Nat), (∀ c ∈ r', c ∈ r) →
      Path h.next q (r'.map Span.start) base →
      Path (h.set b.start x).next q (r'.map Span.start) base := by
    intro x r' q hsub hq
    refine hq.congr fun y hy => ?_
    obtain ⟨c, hc, rfl⟩ := mem_map.mp hy
    simp only [Heap.next, Heap.set_mem, if_neg (hne c (hsub c hc))]
  have hsame : ∀ (x : Header) (y : Nat), y ≠ b.start → (h.set b.start x).mem y = h.mem y := by
    intro x y hy
    rw [Heap.set_mem, if_neg hy]
  have hself : ∀ x : Header, (h.set b.start x).mem b.start = x := by
    intro x
    rw [Heap.set_mem, if_pos rfl]
  unfold Heap.joinUpper
  split
  next htouch =>
    cases r with
    | nil =>
      rw [hbehind, path_nil.mp hpath] at htouch
      unfold Span.stop at htouch
      omega
    | cons c r =>
      obtain ⟨hz, hrest⟩ := hpath
      obtain ⟨hcr, hr⟩ := pairwise_cons.mp hgap
      rw [hbehind, hz] at htouch
      rw [hz]
      simp only [map_cons, sum_cons] at htotal
      have hsum := units_add hsize (hsizes c mem_cons_self) (by omega)
      have hstop : (b.join c).stop = c.stop := by
        unfold Span.stop Span.join at *
        simp only
        omega
      refine ⟨b.join c, r, ⟨rfl, hsame _, ?_, ?_, ?_, ?_, ⟨[c], rfl⟩, ?_, retiles_join htouch⟩⟩
      · have hnext : (h.set b.start ⟨h.next c.start, (h.mem b.start).size +
            (h.mem c.start).size⟩).next b.start = h.next c.start := by
          rw [Heap.next, hself]
        rw [hnext]
        exact hframe _ r _ (fun d hd => mem_cons_of_mem c hd) hrest
      · rwa [hself]
      · rwa [hstop]
      · exact Nat.le_add_right _ _
      · simp only [Span.join, map_cons, sum_cons]
        omega
  next htouch =>
    have hgap' : ∀ c ∈ r, b.stop < c.start := by
      cases r with
      | nil => simp
      | cons c r =>
        rw [hbehind, hpath.1] at htouch
        have hc := habove c mem_cons_self
        obtain ⟨hcr, -⟩ := pairwise_cons.mp hgap
        intro d hd
        rcases mem_cons.mp hd with rfl | hd
        · omega
        · have hcd := hcr d hd
          unfold Span.stop at *
          omega
    refine ⟨b, r, ⟨rfl, hsame _, ?_, ?_, hgap', le_rfl, ⟨[], rfl⟩, rfl, fun _ _ ht => ht⟩⟩
    · have hnext : (h.set b.start { h.mem b.start with ptr := h.next z }).next b.start =
          h.next z := by
        rw [Heap.next, hself]
      rw [hnext]
      exact hframe _ r _ (fun _ hc => hc) hpath
    · rwa [hself]

/-- Block `b` has been added to the free blocks `bs`, which are `bs'` now. -/
structure Freed (base : Nat) (h h' : Heap) (b : Span) (bs bs' : List Span) : Prop where
  list : FreeList base h' bs'
  regions : h'.regions = h.regions
  same : ∀ x, x ∉ b.start :: nodes base bs → h'.mem x = h.mem x
  retiles : Retiles (b :: bs) bs'
  holds : ∃ c ∈ bs', b.len ≤ c.len
  length : bs'.length ≤ bs.length + 1

section Lower

variable {b' : Span} {r' : List Span} {z : Nat} {A : List Nat}

theorem FreeList.low_lt (hf : FreeList base h (l ++ r)) (hlow : ∀ c ∈ l, c.stop ≤ b.start)
    (hbase : base + HEADER ≤ b.start) : ∀ x ∈ nodes base l, x < b.start := by
  intro x hx
  rcases mem_cons.mp hx with rfl | hx
  · simp only [HEADER] at hbase
    omega
  · obtain ⟨c, hc, rfl⟩ := mem_map.mp hx
    have hstop := hlow c hc
    have hpos := hf.pos c (mem_append_left r hc)
    unfold Span.stop at hstop
    omega

theorem Upper.high_lt (hup : Upper base h h' b r b' r') : ∀ x ∈ r'.map Span.start, b.start < x := by
  intro x hx
  obtain ⟨c, hc, rfl⟩ := mem_map.mp hx
  have hgap := hup.gap c hc
  have hstart := hup.start
  unfold Span.stop at hgap
  omega

-- The block below is not touched: `b'` is linked in between.
theorem Upper.link (hup : Upper base h h' b r b' r') (hf : FreeList base h (l ++ r))
    (hA : nodes base l = A ++ [z]) (hlow : ∀ c ∈ l, c.stop ≤ b.start)
    (hbase : base + HEADER ≤ b.start) (hpos : 0 < b.len) (hapart : h'.behind z ≠ b.start)
    (hregions : h'.regions = h.regions) :
    Freed base h { h'.set z { h'.mem z with ptr := b.start } with freep := z } b (l ++ r)
      (l ++ b' :: r') := by
  have hlt := hf.low_lt hlow hbase
  have hzl : z ∈ nodes base l := by simp [hA]
  have hzb := hlt z hzl
  obtain ⟨hgapl, -, -⟩ := pairwise_append.mp hf.gapped
  -- a block below would touch `b` only if it were the last
  have hstrict : ∀ c ∈ l, c.stop < b.start := by
    intro c hc
    refine lt_of_le_of_ne (hlow c hc) fun htouch => ?_
    rcases eq_nil_or_concat l with rfl | ⟨l0, e, rfl⟩
    · cases hc
    rw [concat_eq_append] at hA hc hgapl hf
    rw [nodes_append] at hA
    obtain ⟨-, hez⟩ := append_inj' hA rfl
    obtain rfl : e.start = z := singleton_inj.mp hez
    rcases mem_append.mp hc with hc | hc
    · have hce := (pairwise_append.mp hgapl).2.2 c hc e (by simp)
      omega
    · obtain rfl := mem_singleton.mp hc
      apply hapart
      rwa [Heap.behind, hup.same _ (Nat.ne_of_lt hzb), ← Heap.behind, hf.behind (by simp)]
  have hmem : ∀ x, x ≠ z → x ≠ b.start →
      (h'.set z { h'.mem z with ptr := b.start }).mem x = h.mem x := by
    intro x hz hb
    rw [Heap.set_mem, if_neg hz, hup.same x hb]
  refine ⟨?_, hregions, fun x hx => ?_, ?_, ⟨b', by simp, hup.grown⟩, ?_⟩
  · obtain ⟨m, rfl⟩ := hup.rest
    refine hf.splice (o := some b') ?_ (fun x hx => ?_) (fun c hc => ?_) ?_
    · have hpath := hf.circle
      rw [nodes_append, hA] at hpath
      obtain ⟨w, hw, -⟩ := path_append.mp hpath
      show Path (h'.set z _).next base (nodes base (l ++ b' :: r')) base
      rw [nodes_append, hA, map_cons, hup.start]
      refine hw.relink (r := b.start) ?_ (fun x hx => ?_) ⟨rfl, ?_⟩
      · rw [Heap.next, Heap.set_mem, if_pos rfl]
      · have hxz := hf.lt_last hA x hx
        rw [Heap.next, hmem x (by omega) (by omega)]
        rfl
      · have hnext : (h'.set z { h'.mem z with ptr := b.start }).next b.start =
            h'.next b.start := by
          rw [Heap.next, Heap.set_mem, if_neg (by omega)]
          rfl
        rw [hnext]
        refine hup.path.congr fun x hx => ?_
        have hx := hup.high_lt x hx
        rw [Heap.next, Heap.set_mem, if_neg (by omega)]
        rfl
    · refine (relinked_size h' z b.start x).trans ?_
      rw [hup.same]
      rw [nodes_append] at hx
      exact (mem_append.mp hx).elim (fun hx => (hlt x hx).ne) fun hx => (hup.high_lt x hx).ne'
    · cases hc
      rw [hup.start]
      have hsize := congrArg (HEADER * ·.toNat) (relinked_size h' z b.start b.start)
      exact ⟨hup.size.trans hsize.symm, hpos.trans_le hup.grown, hbase, hstrict, hup.gap⟩
    · rw [nodes_append]
      exact mem_append_left _ hzl
  · rw [mem_cons, not_or, nodes_append, mem_append, not_or] at hx
    exact hmem x (fun hz => hx.2.1 (hz ▸ hzl)) hx.1
  · refine (Retiles.of_perm ?_).trans ((hup.retiles.frame l).trans (.of_perm perm_append_comm))
    exact perm_append_comm.cons b
  · obtain ⟨m, rfl⟩ := hup.rest
    simp only [length_append, length_cons]
    omega

-- The block below takes `b'` in.
theorem Upper.join (hup : Upper base h h' b r b' r') (hf : FreeList base h (l ++ c :: r))
    (htouch : c.stop = b.start)
    (htotal : b.len + ((l ++ c :: r).map Span.len).sum < HEADER * 2 ^ 32)
    (hregions : h'.regions = h.regions) :
    Freed base h
      { h'.set c.start ⟨h'.next b.start, (h'.mem c.start).size + (h'.mem b.start).size⟩ with
      freep := c.start } b (l ++ c :: r) (l ++ c.join b' :: r') := by
  have hposc := hf.pos c (by simp)
  have hcb : c.start < b.start := by
    unfold Span.stop at htouch
    omega
  obtain ⟨-, -, hcross⟩ := pairwise_append.mp hf.gapped
  have hlow := hf.lt_of_split.1
  have hmem : ∀ x, x ≠ c.start → x ≠ b.start → (h'.set c.start ⟨h'.next b.start,
      (h'.mem c.start).size + (h'.mem b.start).size⟩).mem x = h.mem x := by
    intro x hc hb
    rw [Heap.set_mem, if_neg hc, hup.same x hb]
  have hself : (h'.set c.start ⟨h'.next b.start,
      (h'.mem c.start).size + (h'.mem b.start).size⟩).mem c.start =
      ⟨h'.next b.start, (h'.mem c.start).size + (h'.mem b.start).size⟩ := by
    rw [Heap.set_mem, if_pos rfl]
  have hstop : (c.join b').stop = b'.stop := by
    have hstart := hup.start
    unfold Span.stop Span.join at *
    simp only at *
    omega
  refine ⟨?_, hregions, fun x hx => ?_, ?_, ⟨c.join b', by simp, le_trans hup.grown ?_⟩, ?_⟩
  · obtain ⟨m, rfl⟩ := hup.rest
    refine FreeList.splice (m := c :: m) (o := some (c.join b')) hf ?_ (fun x hx => ?_)
      (fun d hd => ?_) ?_
    · have hpath := hf.circle
      rw [nodes_append, map_cons, append_cons] at hpath
      obtain ⟨w, hw, -⟩ := path_append.mp hpath
      show Path (h'.set c.start _).next base (nodes base (l ++ c.join b' :: r')) base
      rw [nodes_append, map_cons, append_cons]
      refine hw.relink (r := h'.next b.start) ?_ (fun x hx => ?_) (hup.path.congr fun x hx => ?_)
      · show ((h'.set c.start _).mem c.start).ptr = _
        rw [hself]
      · have hx := hlow x hx
        rw [Heap.next, hmem x (by omega) (by omega)]
        rfl
      · have hx := hup.high_lt x hx
        rw [Heap.next, Heap.set_mem, if_neg (by omega)]
        rfl
    · have hne : x < c.start ∨ b.start < x := by
        rw [nodes_append] at hx
        exact (mem_append.mp hx).imp (hlow x) (hup.high_lt x)
      rw [hmem x (by omega) (by omega)]
    · cases hd
      refine ⟨?_, Nat.add_pos_left hposc _, hf.above c (by simp),
        fun d hd => hcross d hd c mem_cons_self, ?_⟩
      · show c.len + b'.len = HEADER * ((h'.set c.start _).mem c.start).size.toNat
        rw [hself]
        refine units_add ?_ hup.size ?_
        · rw [hup.same _ (by omega)]
          exact hf.sizes c (by simp)
        · have hsum := hup.total
          simp only [map_append, map_cons, sum_append, sum_cons] at htotal hsum
          omega
      · rw [hstop]
        exact hup.gap
    · rw [nodes_append]
      exact mem_append_right _ mem_cons_self
  · rw [mem_cons, not_or, nodes_append, mem_append, not_or, map_cons, mem_cons,
      not_or] at hx
    exact hmem x hx.2.2.1 hx.1
  · -- `b` is joined with what is above it, then with `c`
    have hperm : (b :: (l ++ c :: r)).Perm ((b :: r) ++ (c :: l)) := by
      refine List.Perm.cons b (perm_middle.trans ?_)
      exact (perm_append_comm.cons c).trans perm_middle.symm
    have hperm' : ((b' :: r') ++ (c :: l)).Perm (c :: b' :: (r' ++ l)) := perm_middle
    have hperm'' : (c.join b' :: (r' ++ l)).Perm (l ++ c.join b' :: r') :=
      (perm_append_comm.cons _).trans perm_middle.symm
    exact (Retiles.of_perm hperm).trans ((hup.retiles.frame _).trans ((Retiles.of_perm hperm').trans
      ((retiles_join (by rw [htouch, hup.start])).trans (.of_perm hperm''))))
  · exact Nat.le_add_left _ _
  · obtain ⟨m, rfl⟩ := hup.rest
    simp only [length_append, length_cons]
    omega

end Lower

theorem FreeList.free (hf : FreeList base h bs) (hpos : 0 < b.len)
    (hsize : b.len = HEADER * (h.mem b.start).size.toNat) (hbase : base + HEADER ≤ b.start)
    (hapart : ∀ c ∈ bs, b.Apart c)
    (htotal : b.len + (bs.map Span.len).sum < HEADER * 2 ^ 32) {fuel : Nat}
    (hfuel : bs.length < fuel) :
    ∃ h' bs', h.free fuel (b.start + HEADER) = some h' ∧ Freed base h h' b bs bs' := by
  obtain ⟨l, r, rfl, hlow, hhigh⟩ := exists_split hf.gapped hapart
  obtain ⟨A, z, hA⟩ := exists_last base l
  have hnodes : nodes base (l ++ r) = A ++ [z] ++ r.map Span.start := by rw [nodes_append, hA]
  have hlt : base < b.start := by
    omega
  have hcut : Cut base h b.start A z (r.map Span.start) := by
    refine ⟨hnodes ▸ hf.circle, hnodes ▸ hf.sorted, fun x hx => ?_, fun x hx => ?_, hlt,
      fun x hx => hf.base_le (hnodes ▸ hx)⟩
    · rw [← hA] at hx
      rcases mem_cons.mp hx with rfl | hx
      · exact hlt
      · obtain ⟨c, hc, rfl⟩ := mem_map.mp hx
        have hstop := hlow c hc
        have hposc := hf.pos c (mem_append_left r hc)
        unfold Span.stop at hstop
        omega
    · obtain ⟨c, hc, rfl⟩ := mem_map.mp hx
      have hstart := hhigh c hc
      unfold Span.stop at hstart
      omega
  have hsearch : search h.next (h.placed b.start) fuel h.freep = some z := by
    apply hcut.search_eq (hnodes ▸ hf.entry)
    rwa [← hnodes, nodes, length_cons, length_map]
  have hpath : Path h.next (h.next z) (r.map Span.start) base := by
    obtain ⟨w, hw, hrest⟩ := path_append.mp hcut.path
    rwa [hw.last_link]
  rw [map_append, sum_append] at htotal
  obtain ⟨b', r', hup⟩ := joinUpper_upper hpath hsize
    (fun c hc => hf.sizes c (mem_append_right l hc)) hpos
    (pairwise_append.mp hf.gapped).2.1 hhigh hlt (by omega)
  have hregions : (h.joinUpper b.start z).regions = h.regions := by
    unfold Heap.joinUpper
    split <;> rfl
  have hrun : h.free fuel (b.start + HEADER) =
      some { (h.joinUpper b.start z).joinLower b.start z with freep := z } := by
    simp only [Heap.free, Nat.add_sub_cancel, hsearch]
    rfl
  rw [hrun]
  unfold Heap.joinLower
  split
  next htouch =>
    rcases eq_nil_or_concat l with rfl | ⟨l0, c, rfl⟩
    · -- `base` has no units, so nothing touches it
      obtain ⟨-, hz⟩ := append_inj' (show [] ++ [base] = A ++ [z] from hA) rfl
      obtain rfl : base = z := singleton_inj.mp hz
      rw [Heap.behind, hup.same _ (Nat.ne_of_lt hlt), hf.empty] at htouch
      simp only [UInt32.toNat_zero, Nat.mul_zero] at htouch
      omega
    · rw [concat_eq_append] at *
      rw [nodes_append] at hA
      obtain ⟨-, hz⟩ := append_inj' hA rfl
      obtain rfl : c.start = z := singleton_inj.mp hz
      rw [append_assoc, singleton_append] at hf ⊢
      have hne : c.start ≠ b.start := Nat.ne_of_lt (hcut.low c.start (by simp))
      rw [Heap.behind, hup.same _ hne, ← Heap.behind, hf.behind (by simp)] at htouch
      exact ⟨_, _, rfl, hup.join hf htouch (by simpa [Nat.add_assoc] using htotal) hregions⟩
  next htouch =>
    exact ⟨_, _, rfl, hup.link hf hA hlow hbase hpos htouch hregions⟩

end OsProjects.User
