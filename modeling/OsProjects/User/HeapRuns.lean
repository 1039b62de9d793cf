import OsProjects.User.Malloc
import OsProjects.Lib.Reach

/-!
# HeapRuns — sequences of `malloc` and `free`

A program calls `malloc` and `free` in any order, and writes into the blocks it holds.  What `sbrk`
returns is up to the kernel, as long as it is fresh memory.
-/

namespace OsProjects.User

open Lib List

/-- The heap, and the blocks the program holds, header included. -/
structure World where
  heap : Heap
  live : List Span

namespace World

inductive Event where
  | malloc (nbytes : UInt32) (sbrk : List Span → Int → Option Nat)
  | free (ap : Nat)
  | store (mem : Nat → Header)

/-- Nothing has been obtained yet. -/
def boot (mem : Nat → Header) : World := ⟨⟨mem, 0, []⟩, []⟩

/-- The block that `malloc(nbytes)` returns as `p`. -/
def block (p : Nat) (nbytes : UInt32) : Span := ⟨p - HEADER, HEADER * (Heap.units nbytes).toNat⟩

/-- A call that has not returned when the fuel is used up ends the run. -/
def step (base : Nat) (w : World) : Nat × Event → Except Unit World
  | (fuel, .malloc nbytes sbrk) =>
    match w.heap.malloc sbrk base fuel nbytes with
    | none => .error ()
    | some (p, h) => .ok ⟨h, if p = 0 then w.live else block p nbytes :: w.live⟩
  | (fuel, .free ap) =>
    match w.heap.free fuel ap with
    | none => .error ()
    | some h => .ok ⟨h, w.live.eraseP fun b => b.start + HEADER = ap⟩
  | (_, .store mem) => .ok { w with heap := { w.heap with mem := mem } }

/-- What is assumed of the kernel and of the program: `sbrk` returns memory above all it has
returned before, or fails; `free` is called on blocks that are held; and the program writes to these
only, behind their headers. -/
def Calls (base : Nat) (w : World) : Event → Prop
  | .malloc _ sbrk => ∀ n a, sbrk w.heap.regions n = some a →
      0 ≤ n ∧ base + HEADER ≤ a ∧ ∀ r ∈ w.heap.regions, r.stop ≤ a
  | .free ap => ∃ b ∈ w.live, ap = b.start + HEADER
  | .store mem => ∀ x, (∀ b ∈ w.live, ¬(b.start + HEADER ≤ x ∧ x < b.stop)) → mem x = w.heap.mem x

/-- Some block of the free list is large enough. -/
def Fits (h : Heap) (nunits : UInt32) : Prop :=
  h.freep ≠ 0 ∧ ∃ k, nunits ≤ (h.mem (h.next^[k] h.freep)).size

/-- `malloc` finds a block, or what it gets from `sbrk` for `nu` units has `nu` units, and there are
not 2³² units in all. -/
def Sized (w : World) : Event → Prop
  | .malloc nbytes sbrk => Fits w.heap (Heap.units nbytes) ∨ ∀ a,
      sbrk w.heap.regions (Heap.request (Heap.atLeast (Heap.units nbytes))) = some a →
        HEADER * (Heap.atLeast (Heap.units nbytes)).toNat < 2 ^ 31 ∧
        HEADER * (Heap.atLeast (Heap.units nbytes)).toNat + (w.heap.regions.map Span.len).sum <
          HEADER * 2 ^ 32
  | _ => True

/-- `bs` and the blocks held make up what has been obtained. -/
structure Sound (base : Nat) (w : World) (bs : List Span) : Prop where
  list : FreeList base w.heap bs ∨ w.heap.freep = 0 ∧ bs = [] ∧ w.heap.regions = []
  sizes : ∀ b ∈ w.live, b.len = HEADER * (w.heap.mem b.start).size.toNat
  tiles : Tiles (bs ++ w.live) w.heap.regions
  above : ∀ r ∈ w.heap.regions, base + HEADER ≤ r.start
  total : (w.heap.regions.map Span.len).sum < HEADER * 2 ^ 32

variable {base fuel : Nat} {w w' : World} {bs : List Span} {b : Span} {nbytes nunits : UInt32}
  {sbrk : List Span → Int → Option Nat} {h' : Heap} {mem : Nat → Header}

theorem sound_boot (mem : Nat → Header) : Sound base (boot mem) [] :=
  ⟨.inr ⟨rfl, rfl, rfl⟩, nofun, tiles_nil, nofun, Nat.zero_lt_succ _⟩

/-! ## Blocks -/

theorem Sound.apart (hs : Sound base w bs) (hb : b ∈ w.live) : ∀ c ∈ bs, b.Apart c := by
  intro c hc
  exact ((pairwise_append.mp hs.tiles.apart).2.2 c hc b hb).symm

theorem Sound.live_above (hs : Sound base w bs) (hb : b ∈ w.live) : base + HEADER ≤ b.start :=
  hs.tiles.above hs.above b (mem_append_right bs hb)

theorem Sound.pos (hs : Sound base w bs) (hb : b ∈ w.live) : 0 < b.len :=
  hs.tiles.pos b (mem_append_right bs hb)

theorem Sound.freeList (hs : Sound base w bs) (hb : b ∈ w.live) : FreeList base w.heap bs := by
  refine hs.list.resolve_right fun ⟨_, _, hnone⟩ => ?_
  have hle := hs.tiles.len_le (mem_append_right bs hb)
  have hpos := hs.pos hb
  rw [hnone] at hle
  simp only [map_nil, sum_nil] at hle
  omega

-- The header of a block that is held is neither a node nor in a free block.
theorem Sound.start_out (hs : Sound base w bs) (hb : b ∈ w.live) :
    b.start ≠ base ∧ ∀ c ∈ bs, b.start ∉ c := by
  have habove := hs.live_above hb
  have hpos := hs.pos hb
  simp only [HEADER] at habove
  refine ⟨by omega, fun c hc => (hs.apart hb c hc).not_mem ?_⟩
  rw [Span.mem_iff]
  omega

/-! ## `store` -/

theorem Sound.store (hs : Sound base w bs) (hcalls : Calls base w (.store mem)) :
    Sound base { w with heap := { w.heap with mem := mem } } bs := by
  -- an address behind a header is in the block
  have hin : ∀ (b : Span) (x : Nat), b.start + HEADER ≤ x ∧ x < b.stop → x ∈ b :=
    fun b x hx => ⟨le_trans (Nat.le_add_right _ _) hx.1, hx.2⟩
  have hlist : ∀ x ∈ nodes base bs, FreeList base w.heap bs → mem x = w.heap.mem x := by
    intro x hx hf
    refine hcalls x fun b hb hmem => ?_
    rcases mem_cons.mp hx with rfl | hx
    · have habove := hs.live_above hb
      simp only [HEADER] at *
      omega
    · obtain ⟨c, hc, rfl⟩ := mem_map.mp hx
      refine (hs.apart hb c hc).not_mem (hin b _ hmem) ?_
      have hpos := hf.pos c hc
      rw [Span.mem_iff]
      omega
  have hheader : ∀ b ∈ w.live, mem b.start = w.heap.mem b.start := by
    intro b hb
    refine hcalls b.start fun c hc hmem => ?_
    have hne : c ≠ b := by
      rintro rfl
      simp only [HEADER] at hmem
      omega
    have hpair := (pairwise_append.mp hs.tiles.apart).2.1
    refine (hpair.forall hc hb hne).not_mem (hin c _ hmem) ?_
    have hpos := hs.pos hb
    rw [Span.mem_iff]
    omega
  refine ⟨hs.list.imp_left fun hf => hf.congr (fun x hx => hlist x hx hf) rfl, fun b hb => ?_,
    hs.tiles, hs.above, hs.total⟩
  show b.len = HEADER * (mem b.start).size.toNat
  rw [hheader b hb]
  exact hs.sizes b hb

/-! ## `free` -/

-- The free blocks are part of what there is.
theorem Sound.free_le (hs : Sound base w bs) :
    (bs.map Span.len).sum + (w.live.map Span.len).sum = (w.heap.regions.map Span.len).sum := by
  rw [← hs.tiles.total, map_append, sum_append]

theorem Sound.free_returns (hs : Sound base w bs) (hb : b ∈ w.live) (hfuel : bs.length < fuel) :
    ∃ h' bs', w.heap.free fuel (b.start + HEADER) = some h' ∧ Freed base w.heap h' b bs bs' := by
  refine (hs.freeList hb).free (hs.pos hb) (hs.sizes b hb) (hs.live_above hb) (hs.apart hb) ?_ hfuel
  have hsum := hs.free_le
  have htotal := hs.total
  have hle : b.len ≤ (w.live.map Span.len).sum := le_sum_of_mem (mem_map_of_mem hb)
  omega

theorem Sound.free (hs : Sound base w bs) {l r : List Span} (hlive : w.live = l ++ b :: r)
    (hrun : w.heap.free fuel (b.start + HEADER) = some h') :
    ∃ bs', Sound base ⟨h', l ++ r⟩ bs' := by
  have hb : b ∈ w.live := by simp [hlive]
  obtain ⟨h1, bs', hfree, hfreed⟩ := hs.free_returns hb
    (show bs.length < bs.length + 1 + fuel by omega)
  rw [Heap.free_mono hrun (Nat.le_add_left _ _)] at hfree
  obtain rfl := Option.some.inj hfree
  have hpair := (pairwise_append.mp hs.tiles.apart).2.1
  have hsub : ∀ c ∈ l ++ r, c ∈ w.live ∧ c.start ≠ b.start := by
    intro c hc
    rw [hlive] at hpair ⊢
    have hmem : c ∈ l ++ b :: r := by
      rcases mem_append.mp hc with hc | hc
      · exact mem_append_left _ hc
      · exact mem_append_right _ (mem_cons_of_mem b hc)
    have hapart : b.Apart c := by
      have hperm := perm_middle.pairwise hpair Span.Apart.symm
      exact (pairwise_cons.mp hperm).1 c hc
    have hposb := hs.pos hb
    have hposc := hs.pos (hlive ▸ hmem)
    unfold Span.Apart Span.stop at hapart
    exact ⟨hmem, by omega⟩
  refine ⟨bs', .inl hfreed.list, fun c hc => ?_, ?_, ?_, ?_⟩
  · obtain ⟨hc, hne⟩ := hsub c hc
    obtain ⟨hbase, hout⟩ := hs.start_out hc
    rw [hfreed.same]
    · exact hs.sizes c hc
    · intro hmem
      rcases mem_cons.mp hmem with heq | hmem
      · exact hne heq
      · exact (hs.freeList hb).not_mem_nodes hbase hout hmem
  · rw [hfreed.regions]
    refine hfreed.retiles _ _ (hs.tiles.perm ?_)
    rw [hlive, cons_append, ← append_assoc, ← append_assoc]
    exact perm_middle
  · rw [hfreed.regions]
    exact hs.above
  · rw [hfreed.regions]
    exact hs.total

/-! ## `malloc` -/

theorem units_toNat : (Heap.units nbytes).toNat = (nbytes.toNat + HEADER - 1) / HEADER + 1 := by
  have hlt := nbytes.toNat_lt
  rw [Heap.units, UInt32.toNat_ofNat_of_lt']
  simp only [UInt32.size, HEADER]
  omega

-- The block has room for the bytes asked for behind its header.
theorem block_len {p : Nat} : nbytes.toNat + HEADER ≤ (block p nbytes).len := by
  rw [block, units_toNat]
  simp only [HEADER]
  omega

theorem units_pos : 0 < Heap.units nbytes := by
  rw [UInt32.lt_iff_toNat_lt, units_toNat]
  exact Nat.succ_pos _

theorem request_eq {nu : UInt32} (hlt : HEADER * nu.toNat < 2 ^ 31) :
    Heap.request nu = HEADER * nu.toNat := by
  unfold Heap.request
  rw [Int.bmod_eq_of_le] <;> omega

-- The first call makes the list.
theorem Sound.start (hs : Sound base w bs) (hbase : 0 < base) :
    FreeList base (w.heap.start base) bs ∧ (w.heap.start base).regions = w.heap.regions ∧
      ∀ x, x ≠ base → (w.heap.start base).mem x = w.heap.mem x := by
  unfold Heap.start
  rcases hs.list with hf | ⟨hzero, rfl, -⟩
  · have hle := hf.base_le hf.entry
    rw [if_neg (by omega)]
    exact ⟨hf, rfl, fun _ _ => rfl⟩
  · rw [if_pos hzero]
    refine ⟨⟨⟨rfl, ?_⟩, ?_, nofun, nofun, .nil, nofun, mem_cons_self⟩, rfl, fun x hx => ?_⟩
    · show ((w.heap.set base ⟨base, 0⟩).mem base).ptr = base
      rw [Heap.set_mem, if_pos rfl]
    · rw [Heap.set_mem, if_pos rfl]
    · rw [Heap.set_mem, if_neg hx]

-- The links do not leave the list.
theorem next_mem {h : Heap} (hf : FreeList base h bs) {x : Nat} (hx : x ∈ nodes base bs) :
    h.next x ∈ nodes base bs := by
  have hmap := mem_map_of_mem (f := h.next) hx
  have heq := hf.circle.map_next
  rw [← nodes] at heq
  rw [heq] at hmap
  exact (perm_append_singleton _ _).mem_iff.mp hmap

theorem fits_block {h : Heap} (hf : FreeList base h bs) (hpos : 0 < nunits)
    (hfits : Fits h nunits) : ∃ b ∈ bs, nunits ≤ (h.mem b.start).size := by
  obtain ⟨-, k, hk⟩ := hfits
  have hmem : ∀ k, h.next^[k] h.freep ∈ nodes base bs := by
    intro k
    induction k with
    | zero => exact hf.entry
    | succ k ih =>
      rw [Function.iterate_succ_apply']
      exact next_mem hf ih
  rcases mem_cons.mp (hmem k) with heq | hmem
  · rw [heq, hf.empty] at hk
    exact absurd hpos (UInt32.not_lt.mpr hk)
  · obtain ⟨b, hb, heq⟩ := mem_map.mp hmem
    exact ⟨b, hb, heq ▸ hk⟩

theorem Sound.fits_start (hs : Sound base w bs) (hbase : 0 < base)
    (hfits : Fits w.heap (Heap.units nbytes)) :
    ∃ b ∈ bs, Heap.units nbytes ≤ ((w.heap.start base).mem b.start).size := by
  refine fits_block (hs.start hbase).1 units_pos ?_
  rwa [Heap.start, if_neg hfits.1]

/-- `malloc` finds a block, or what it gets from `sbrk` is fresh and has the units it asks for. -/
def Served (base : Nat) (w : World) (nbytes : UInt32) (sbrk : List Span → Int → Option Nat) :
    Prop :=
  Fits w.heap (Heap.units nbytes) ∨ ∀ a,
    sbrk w.heap.regions (Heap.request (Heap.atLeast (Heap.units nbytes))) = some a →
      (HEADER * (Heap.atLeast (Heap.units nbytes)).toNat < 2 ^ 31 ∧
        HEADER * (Heap.atLeast (Heap.units nbytes)).toNat + (w.heap.regions.map Span.len).sum <
          HEADER * 2 ^ 32) ∧
      base + HEADER ≤ a ∧ ∀ r ∈ w.heap.regions, r.stop ≤ a

theorem Sized.served (hsized : Sized w (.malloc nbytes sbrk))
    (hcalls : Calls base w (.malloc nbytes sbrk)) : Served base w nbytes sbrk :=
  hsized.imp_right fun hmore a ha => ⟨hmore a ha, (hcalls _ a ha).2⟩

-- The heap with the list made is as sound as before.
theorem Sound.started (hs : Sound base w bs) (hbase : 0 < base) :
    Sound base { w with heap := w.heap.start base } bs := by
  obtain ⟨hf, hregions, hmem⟩ := hs.start hbase
  refine ⟨.inl hf, fun b hb => ?_, ?_, ?_, ?_⟩
  · rw [hmem _ (hs.start_out hb).1]
    exact hs.sizes b hb
  · rw [hregions]
    exact hs.tiles
  · rw [hregions]
    exact hs.above
  · rw [hregions]
    exact hs.total

/-- `new` is what `sbrk` has added: nothing, or a region above the others. -/
structure Added (base : Nat) (w : World) (new : List Span) : Prop where
  tiles : ∀ l, Tiles l w.heap.regions → Tiles (new ++ l) (new ++ w.heap.regions)
  above : ∀ r ∈ new, base + HEADER ≤ r.start
  total : ((new ++ w.heap.regions).map Span.len).sum < HEADER * 2 ^ 32

theorem Sound.added_nil (hs : Sound base w bs) : Added base w [] :=
  ⟨fun _ ht => ht, nofun, hs.total⟩

theorem Sound.granted (hs : Sound base w bs) {new bs' : List Span}
    (hadded : Added base w new) (hg : Granted base w.heap h' bs new bs' nunits b) :
    Sound base ⟨h', b :: w.live⟩ bs' := by
  have htiles := hadded.tiles _ hs.tiles
  rw [← append_assoc] at htiles
  refine ⟨.inl hg.list, fun c hc => ?_, ?_, ?_, ?_⟩
  · rcases mem_cons.mp hc with rfl | hc
    · rw [hg.size]
      exact hg.len
    · rw [hg.same _ (hs.start_out hc).1]
      · exact hs.sizes c hc
      · intro d hd
        refine ((pairwise_append.mp htiles.apart).2.2 d hd c hc).symm.not_mem ?_
        have hpos := hs.pos hc
        rw [Span.mem_iff]
        omega
  · rw [hg.regions]
    exact (hg.retiles _ _ htiles).perm perm_middle.symm
  · rw [hg.regions]
    intro r hr
    exact (mem_append.mp hr).elim (hadded.above r) (hs.above r)
  · rw [hg.regions]
    exact hadded.total

/-- The regions after a `malloc`: those before, or one more, which has the units asked for. -/
def Obtained (w : World) (nbytes : UInt32) (sbrk : List Span → Int → Option Nat)
    (regions : List Span) : Prop :=
  regions = w.heap.regions ∨ ∃ a,
    sbrk w.heap.regions (Heap.request (Heap.atLeast (Heap.units nbytes))) = some a ∧
    HEADER * (Heap.atLeast (Heap.units nbytes)).toNat < 2 ^ 31 ∧
    regions = ⟨a, HEADER * (Heap.atLeast (Heap.units nbytes)).toNat⟩ :: w.heap.regions

theorem Sound.malloc_returns (hs : Sound base w bs) (hbase : 0 < base)
    (hserved : Served base w nbytes sbrk) (hfuel : 2 * bs.length + 3 ≤ fuel) :
    ∃ p h' bs', w.heap.malloc sbrk base fuel nbytes = some (p, h') ∧
      Sound base ⟨h', if p = 0 then w.live else block p nbytes :: w.live⟩ bs' ∧
      Obtained w nbytes sbrk h'.regions := by
  obtain ⟨hf, hregions, -⟩ := hs.start hbase
  have hext : (∃ b ∈ bs, Heap.units nbytes ≤ ((w.heap.start base).mem b.start).size) ∨
      ∀ a, sbrk (w.heap.start base).regions
          (Heap.request (Heap.atLeast (Heap.units nbytes))) = some a →
        Extends base bs (Heap.atLeast (Heap.units nbytes)) a := by
    rw [hregions]
    refine hserved.imp (hs.fits_start hbase) fun hmore a ha => ?_
    obtain ⟨⟨hint, htotal⟩, habove, hfresh⟩ := hmore a ha
    have hsum := hs.free_le
    exact ⟨request_eq hint, habove, fun b hb => hs.tiles.below hfresh b (mem_append_left _ hb),
      by omega⟩
  obtain ⟨p, h', hrun, hcases⟩ := hf.malloc hbase units_pos hext hfuel
  rcases hcases with ⟨rfl, rfl⟩ | ⟨c, new, bs', rfl, hg, hnew⟩
  · exact ⟨0, _, bs, hrun, hs.started hbase, .inl hregions⟩
  · have hblock : block (c.start + HEADER) nbytes = c := by
      rw [block, ← hg.len, Nat.add_sub_cancel]
    refine ⟨_, h', bs', hrun, ?_⟩
    rw [if_neg (by simp), hblock, hg.regions, hregions]
    rcases hnew with rfl | ⟨hnone, a, ha, rfl⟩
    · exact ⟨(hs.started hbase).granted (hs.started hbase).added_nil hg, .inl rfl⟩
    · rw [hregions] at ha
      obtain ⟨⟨hint, htotal⟩, habove, hfresh⟩ :=
        hserved.resolve_left (fun hfits => hnone (hs.fits_start hbase hfits)) a ha
      refine ⟨(hs.started hbase).granted
        ⟨fun l ht => ht.add (Nat.mul_pos (by decide) atLeast_pos) ?_,
        fun r hr => ?_, ?_⟩ hg, .inr ⟨a, ha, hint, rfl⟩⟩
      · rwa [hregions]
      · rwa [mem_singleton.mp hr]
      · rwa [hregions]

theorem Sound.malloc (hs : Sound base w bs) (hbase : 0 < base)
    (hserved : Served base w nbytes sbrk) {p : Nat}
    (hrun : w.heap.malloc sbrk base fuel nbytes = some (p, h')) :
    ∃ bs', Sound base ⟨h', if p = 0 then w.live else block p nbytes :: w.live⟩ bs' ∧
      Obtained w nbytes sbrk h'.regions := by
  obtain ⟨p1, h1, bs', hreturns, hs'⟩ := hs.malloc_returns hbase hserved
    (show 2 * bs.length + 3 ≤ 2 * bs.length + 3 + fuel by omega)
  rw [Heap.malloc_mono hrun (Nat.le_add_left _ _)] at hreturns
  obtain ⟨rfl, rfl⟩ := Prod.mk.inj (Option.some.inj hreturns)
  exact ⟨bs', hs'⟩

/-! ## Runs -/

theorem Sound.step (hs : Sound base w bs) (hbase : 0 < base) {e : Event} (hcalls : Calls base w e)
    (hsized : Sized w e) (hstep : step base w (fuel, e) = .ok w') : ∃ bs', Sound base w' bs' := by
  cases e with
  | malloc nbytes sbrk =>
    unfold World.step at hstep
    simp only at hstep
    split at hstep
    · cases hstep
    · cases hstep
      exact (hs.malloc hbase (hsized.served hcalls) ‹_›).imp fun _ => And.left
  | free ap =>
    unfold World.step at hstep
    simp only at hstep
    split at hstep
    · cases hstep
    · rename_i h' hrun
      cases hstep
      obtain ⟨b, hb, rfl⟩ := hcalls
      obtain ⟨c, l, r, -, hc, hlive, herase⟩ :=
        exists_of_eraseP (p := fun c => c.start + HEADER = b.start + HEADER) hb (by simp)
      rw [herase]
      rw [← of_decide_eq_true hc] at hrun
      exact hs.free hlive hrun
  | store mem =>
    cases hstep
    exact ⟨bs, hs.store hcalls⟩

-- Every call returns when it is given time.
theorem Sound.returns (hs : Sound base w bs) (hbase : 0 < base) {e : Event}
    (hcalls : Calls base w e) (hsized : Sized w e) (hfuel : 2 * bs.length + 3 ≤ fuel) :
    ∃ w', World.step base w (fuel, e) = .ok w' := by
  unfold World.step
  cases e with
  | malloc nbytes sbrk =>
    obtain ⟨p, h', bs', hrun, -⟩ := hs.malloc_returns hbase (hsized.served hcalls) hfuel
    simp only [hrun]
    exact ⟨_, rfl⟩
  | free ap =>
    obtain ⟨b, hb, rfl⟩ := hcalls
    obtain ⟨h', bs', hrun, -⟩ := hs.free_returns hb (show bs.length < fuel by omega)
    simp only [hrun]
    exact ⟨_, rfl⟩
  | store mem => exact ⟨_, rfl⟩

theorem sound_of_reach (hbase : 0 < base)
    (hreach : Reach (World.step base) (fun w e => Calls base w e.2 ∧ Sized w e.2) (boot mem) w) :
    ∃ bs, Sound base w bs := by
  refine @Reach.invariant _ _ _ (World.step base) _ _ w
    (fun w => ∃ bs, Sound base w bs) hreach ?_ ?_
  · exact ⟨[], sound_boot mem⟩
  · intro w e w' ⟨bs, hs⟩ ⟨hcalls, hsized⟩ hstep
    exact hs.step hbase hcalls hsized hstep

/-- The free blocks are a circular list in address order with gaps between them; each byte that
`sbrk` has returned is in one block, free or held, and in no other; every call returns; and a block
that `malloc` returns has room for what was asked for, and no other block overlaps it. -/
theorem umalloc_partitions_heap {mem : Nat → Header} (hbase : 0 < base)
    (hreach : Reach (World.step base) (fun w e => Calls base w e.2 ∧ Sized w e.2) (boot mem) w) :
    ∃ bs, (FreeList base w.heap bs ∨ w.heap.freep = 0 ∧ bs = [] ∧ w.heap.regions = []) ∧
      (∀ x, (∃ r ∈ w.heap.regions, x ∈ r) ↔ ∃! b, b ∈ bs ++ w.live ∧ x ∈ b) ∧
      (bs ++ w.live).Pairwise Span.Apart ∧
      (∃ n, ∀ e, Calls base w e → Sized w e →
        ∀ fuel ≥ n, ∃ w', World.step base w (fuel, e) = .ok w') ∧
      ∀ fuel nbytes sbrk p h', Calls base w (.malloc nbytes sbrk) → Sized w (.malloc nbytes sbrk) →
        w.heap.malloc sbrk base fuel nbytes = some (p, h') → p ≠ 0 →
        nbytes.toNat + HEADER ≤ (block p nbytes).len ∧
        (∀ b ∈ w.live, (block p nbytes).Apart b) ∧
        ∃ bs', FreeList base h' bs' ∧ ∀ b ∈ bs', (block p nbytes).Apart b := by
  obtain ⟨bs, hs⟩ := sound_of_reach hbase hreach
  refine ⟨bs, hs.list, fun x => ⟨hs.tiles.existsUnique, fun ⟨b, hb, _⟩ => ?_⟩, hs.tiles.apart,
    ⟨2 * bs.length + 3, fun e hcalls hsized fuel hfuel => hs.returns hbase hcalls hsized hfuel⟩,
    fun fuel nbytes sbrk p h' hcalls hsized hrun hp => ⟨block_len, ?_⟩⟩
  · exact (hs.tiles.covers x).mp ⟨b, hb⟩
  · obtain ⟨bs', hs', -⟩ := hs.malloc hbase (hsized.served hcalls) hrun
    rw [if_neg hp] at hs'
    have hpair := (pairwise_append.mp hs'.tiles.apart).2.1
    exact ⟨(pairwise_cons.mp hpair).1, bs', hs'.freeList mem_cons_self,
      hs'.apart mem_cons_self⟩

/-! ## Some runs -/

/-- An `sbrk` that goes on where the last region ends. -/
def bump (rs : List Span) (n : Int) : Option Nat :=
  if n < 0 then none else some (rs.foldr (fun r a => max r.stop a) 65536)

theorem calls_bump (w : World) (nbytes : UInt32) : Calls 4096 w (.malloc nbytes bump) := by
  intro n a ha
  unfold bump at ha
  split at ha
  · cases ha
  · obtain rfl := Option.some.inj ha
    have hle : ∀ rs : List Span, 65536 ≤ rs.foldr (fun r a => max r.stop a) 65536 ∧
        ∀ r ∈ rs, r.stop ≤ rs.foldr (fun r a => max r.stop a) 65536 := by
      intro rs
      induction rs with
      | nil => exact ⟨le_rfl, nofun⟩
      | cons r rs ih =>
        refine ⟨le_trans ih.1 (le_max_right _ _), fun d hd => ?_⟩
        rcases mem_cons.mp hd with rfl | hd
        · exact le_max_left _ _
        · exact le_trans (ih.2 d hd) (le_max_right _ _)
    exact ⟨by omega, le_trans (by decide) (hle _).1, (hle _).2⟩

/-- Calls of `malloc` with this `sbrk`, and of `free`. -/
def scripted : UInt32 ⊕ Nat → Nat × Event
  | .inl nbytes => (100, .malloc nbytes bump)
  | .inr ap => (100, .free ap)

def follows (room : World → UInt32 → Bool) (w : World) : UInt32 ⊕ Nat → Bool
  | .inl nbytes => room w nbytes
  | .inr ap => w.live.any fun b => ap = b.start + HEADER

theorem exists_reach_scripted (allowed : World → Nat × Event → Prop) (room : World → UInt32 → Bool)
    (hmalloc : ∀ w nbytes, room w nbytes = true → allowed w (scripted (.inl nbytes)))
    (hfree : ∀ w ap, (∃ b ∈ w.live, ap = b.start + HEADER) → allowed w (scripted (.inr ap)))
    (es : List (UInt32 ⊕ Nat)) (p : World → Bool)
    (h : (follow (fun w e => World.step 4096 w (scripted e)) (fun w e => decide (follows room w e))
      (boot fun _ => ⟨0, 0⟩) es).any p = true) :
    ∃ w, Reach (World.step 4096) allowed (boot fun _ => ⟨0, 0⟩) w ∧ p w = true := by
  obtain ⟨w, hreach, hp⟩ := exists_reach_of_follow _ (fun w e => follows room w e = true) _ es p h
  refine ⟨w, hreach.map fun w e he => ?_, hp⟩
  cases e with
  | inl nbytes => exact hmalloc w nbytes he
  | inr ap =>
    obtain ⟨b, hb, heq⟩ := any_eq_true.mp he
    exact hfree w ap ⟨b, hb, of_decide_eq_true heq⟩

/-- Of two blocks the first is freed. -/
theorem umalloc_partitions_heap_reuse : ∃ w, (0 < 4096 ∧
    Reach (World.step 4096) (fun w e => Calls 4096 w e.2 ∧ Sized w e.2) (boot fun _ => ⟨0, 0⟩) w) ∧
    w.live = [⟨131008, 32⟩] ∧ ∃ bs, (FreeList 4096 w.heap bs ∨ w.heap.freep = 0 ∧ bs = [] ∧
      w.heap.regions = []) ∧ (bs ++ w.live).Pairwise Span.Apart := by
  obtain ⟨w, hreach, hw⟩ : ∃ w, Reach (World.step 4096) (fun w e => Calls 4096 w e.2 ∧ Sized w e.2)
      (boot fun _ => ⟨0, 0⟩) w ∧ decide (w.live = [⟨131008, 32⟩]) = true := by
    refine exists_reach_scripted _ (fun w n =>
      decide (HEADER * (Heap.atLeast (Heap.units n)).toNat < 2 ^ 31 ∧
        HEADER * (Heap.atLeast (Heap.units n)).toNat + (w.heap.regions.map Span.len).sum <
          HEADER * 2 ^ 32)) (fun w n hn => ?_) (fun w ap hap => ⟨hap, trivial⟩)
      [.inl 10, .inl 16, .inr 131056] _ ?_
    · exact ⟨calls_bump w n, .inr fun _ _ => of_decide_eq_true hn⟩
    · decide +kernel
  obtain ⟨bs, hlist, -, hpair, -⟩ := umalloc_partitions_heap (by decide) hreach
  exact ⟨w, ⟨by decide, hreach⟩, of_decide_eq_true hw, bs, hlist, hpair⟩

/-- `sbrk` takes an `int`: for 4294967295 bytes it is asked for 16, and the block that `malloc`
returns reaches into those it returns later.  And 33 blocks of 2147483632 bytes, freed, are merged
into one that claims fewer units than one of them had. -/
theorem umalloc_loses_units : (∃ w, Reach (World.step 4096) (fun w e => Calls 4096 w e.2)
      (boot fun _ => ⟨0, 0⟩) w ∧ ¬w.live.Pairwise Span.Apart) ∧
    ∃ w, Reach (World.step 4096) (fun w e => Calls 4096 w e.2) (boot fun _ => ⟨0, 0⟩) w ∧
      w.live = [] ∧ w.heap.regions.map Span.len = List.replicate 33 2147483632 ∧
      w.heap.next 4096 = 65536 ∧ w.heap.next 65536 = 4096 ∧
      (w.heap.mem 65536).size = 134217695 := by
  constructor
  · obtain ⟨w, hreach, hw⟩ := exists_reach_scripted (fun w e => Calls 4096 w e.2) (fun _ _ => true)
      (fun w n _ => calls_bump w n) (fun _ _ hap => hap) [.inl 4294967295, .inl 1]
      (fun w => decide (¬w.live.Pairwise Span.Apart)) (by decide +kernel)
    exact ⟨w, hreach, of_decide_eq_true hw⟩
  · obtain ⟨w, hreach, hw⟩ := exists_reach_scripted (fun w e => Calls 4096 w e.2) (fun _ _ => true)
      (fun w n _ => calls_bump w n) (fun _ _ hap => hap)
      (List.replicate 33 (.inl 2147483616) ++
        (List.range 33).map fun k => .inr (65552 + k * 2147483632))
      (fun w => decide (w.live = [] ∧ w.heap.regions.map Span.len = List.replicate 33 2147483632 ∧
        w.heap.next 4096 = 65536 ∧ w.heap.next 65536 = 4096 ∧ (w.heap.mem 65536).size = 134217695))
      (by decide +kernel)
    exact ⟨w, hreach, of_decide_eq_true hw⟩

end World

end OsProjects.User
