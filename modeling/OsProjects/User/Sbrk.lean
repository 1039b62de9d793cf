import OsProjects.User.HeapRuns
import OsProjects.Kernel.VmCalls

/-!
# Sbrk — `malloc` over the `sbrk` of the kernel

`sbrk` takes an `int`.  A request of `2 ^ 31` bytes or more is a negative number or a small one, and
`growproc` answers a negative number that exceeds the process with success and the size as it was.
-/

namespace OsProjects.User

open Lib

/-- `growproc` on `p->sz`, a `uint64`; `room` says whether `uvmalloc` gets its pages. -/
def growproc (room : Bool) (sz : Nat) (n : Int) : Option Nat :=
  let newsz := ((sz + n) % 2 ^ 64).toNat
  if 0 < n then
    -- `uvmalloc`
    if newsz < sz then some sz else if room then some newsz else none
  else if n < 0 then
    -- `uvmdealloc`
    if sz ≤ newsz then some sz else some newsz
  else some sz

/-- What `growproc` answers is the size that it stores in the run over the page table. -/
theorem eq_grown_of_growproc {room : Bool} {x : Kernel.Vm.Proc} {n : Int} {sz : Nat}
    (h : growproc room x.sz n = some sz) : sz = x.grown n := by
  simp only [growproc] at h
  unfold Kernel.Vm.Proc.grown Kernel.Vm.WORD
  split_ifs at h ⊢ <;> simp_all <;> omega

/-- The size after so many calls of `growproc` that have succeeded. -/
def grown (n : Int) (sz calls : Nat) : Nat := (fun sz => (growproc true sz n).getD sz)^[calls] sz

/-- `sys_sbrk` in a `malloc` that begins with the regions `before` and the size `sz`; all its
requests are the same. -/
def sysSbrk (room : Nat → Bool) (before : List Span) (sz : Nat) (rs : List Span) (n : Int) :
    Option Nat :=
  let addr := grown n sz (rs.length - before.length)
  (growproc (room rs.length) addr n).map fun _ => addr

/-- A process: its heap and its size. -/
structure Process where
  world : World
  sz : Nat

namespace Process

open World

def step (base : Nat) (s : Process) (e : Nat × Event) : Except Unit Process :=
  (World.step base s.world e).map fun w =>
    ⟨w, match e.2 with
      | .malloc nbytes _ => grown (Heap.request (Heap.atLeast (Heap.units nbytes))) s.sz
          (w.heap.regions.length - s.world.heap.regions.length)
      | _ => s.sz⟩

/-- `sbrk` is the kernel's; `free` and stores are as assumed. -/
def Calls (base : Nat) (s : Process) : Event → Prop
  | .malloc _ sbrk => ∃ room, sbrk = sysSbrk room s.world.heap.regions s.sz
  | e => World.Calls base s.world e

/-- What has been obtained lies below the size, which has not wrapped. -/
structure Inside (base : Nat) (s : Process) : Prop where
  sound : ∃ bs, Sound base s.world bs
  above : base + HEADER ≤ s.sz
  below : ∀ r ∈ s.world.heap.regions, r.stop ≤ s.sz
  bound : s.sz ≤ 2 ^ 38 + (s.world.heap.regions.map Span.len).sum

variable {base fuel : Nat} {s s' : Process} {nbytes : UInt32} {room : Nat → Bool}

-- The first call of a `malloc` returns the size.
theorem eq_of_sysSbrk {before : List Span} {sz a : Nat} {n : Int}
    (h : sysSbrk room before sz before n = some a) : a = sz := by
  unfold sysSbrk at h
  rw [Nat.sub_self] at h
  obtain ⟨_, -, heq⟩ := Option.map_eq_some_iff.mp h
  exact heq.symm

-- A request that is a positive `int` is added to the size.
theorem grown_one {n sz : Nat} (hpos : 0 < n) (hn : n < 2 ^ 31) (hsz : sz < 2 ^ 63) :
    grown n sz 1 = sz + n := by
  have hmod : (((sz : Int) + n) % 2 ^ 64).toNat = sz + n := by omega
  show (growproc true sz n).getD sz = sz + n
  unfold growproc
  rw [hmod, if_pos (by omega), if_neg (by omega)]
  rfl

section

variable (h : Inside base s)
  (hsized : Sized s.world (.malloc nbytes (sysSbrk room s.world.heap.regions s.sz)))
include h hsized

theorem Inside.served : Served base s.world nbytes (sysSbrk room s.world.heap.regions s.sz) := by
  refine hsized.imp_right fun hmore a ha => ⟨hmore a ha, ?_⟩
  rw [eq_of_sysSbrk ha]
  exact ⟨h.above, h.below⟩

theorem Inside.malloc (hbase : 0 < base) {p : Nat} {h' : Heap}
    (hrun : s.world.heap.malloc (sysSbrk room s.world.heap.regions s.sz) base fuel nbytes =
      some (p, h')) :
    Inside base ⟨⟨h', if p = 0 then s.world.live else block p nbytes :: s.world.live⟩,
      grown (Heap.request (Heap.atLeast (Heap.units nbytes))) s.sz
        (h'.regions.length - s.world.heap.regions.length)⟩ := by
  obtain ⟨bs, hs⟩ := h.sound
  obtain ⟨bs', hs', hobtained⟩ := hs.malloc hbase (h.served hsized) hrun
  have hbound := h.bound
  have htotal := hs.total
  rcases hobtained with hsame | ⟨a, ha, hint, hnew⟩
  · rw [hsame, Nat.sub_self]
    exact ⟨⟨bs', hs'⟩, h.above, hsame ▸ h.below, hsame ▸ h.bound⟩
  · have hpos : 0 < (Heap.atLeast (Heap.units nbytes)).toNat := atLeast_pos
    have hsz : grown (Heap.request (Heap.atLeast (Heap.units nbytes))) s.sz 1 =
        s.sz + HEADER * (Heap.atLeast (Heap.units nbytes)).toNat := by
      rw [request_eq hint]
      exact grown_one (Nat.mul_pos (by decide) hpos) hint (by simp only [HEADER] at *; omega)
    rw [hnew, List.length_cons, Nat.add_sub_cancel_left, hsz]
    refine ⟨⟨bs', hs'⟩, le_trans h.above (Nat.le_add_right _ _), fun r hr => ?_, ?_⟩
    · rw [hnew] at hr
      rcases List.mem_cons.mp hr with rfl | hr
      · exact Nat.add_le_add_right (eq_of_sysSbrk ha).le _
      · exact le_trans (h.below r hr) (Nat.le_add_right _ _)
    · rw [hnew, List.map_cons, List.sum_cons]
      show s.sz + _ ≤ _ + (HEADER * _ + _)
      omega

end

theorem free_regions {h h' : Heap} {ap : Nat} (hrun : h.free fuel ap = some h') :
    h'.regions = h.regions := by
  obtain ⟨p, -, hret⟩ := Option.bind_eq_some_iff.mp hrun
  cases hret
  unfold Heap.joinLower Heap.joinUpper
  split <;> split <;> rfl

theorem Inside.step (h : Inside base s) (hbase : 0 < base) {e : Event} (hcalls : Calls base s e)
    (hsized : Sized s.world e) (hstep : step base s (fuel, e) = .ok s') : Inside base s' := by
  unfold Process.step at hstep
  cases hw : World.step base s.world (fuel, e) with
  | error _ =>
    rw [hw] at hstep
    cases hstep
  | ok w =>
    rw [hw] at hstep
    cases hstep
    obtain ⟨bs, hs⟩ := h.sound
    cases e with
    | malloc nbytes sbrk =>
      obtain ⟨room, rfl⟩ := hcalls
      unfold World.step at hw
      simp only at hw
      split at hw
      · cases hw
      · cases hw
        exact h.malloc hsized hbase ‹_›
    | free ap =>
      have hsame : w.heap.regions = s.world.heap.regions := by
        unfold World.step at hw
        simp only at hw
        split at hw
        · cases hw
        · cases hw
          exact free_regions ‹_›
      exact ⟨hs.step (e := .free ap) hbase hcalls hsized hw, h.above, hsame ▸ h.below,
        hsame ▸ h.bound⟩
    | store mem =>
      refine ⟨hs.step (e := .store mem) hbase hcalls hsized hw, h.above, ?_, ?_⟩ <;> cases hw
      · exact h.below
      · exact h.bound

/-- A block that `malloc` returns lies inside what successful calls of `sbrk` have added to the
process, in every run whose calls of `malloc` all find a block or ask for less
than `2 ^ 31` bytes. -/
theorem malloc_inside_process {mem : Nat → Header} {sz p : Nat} {h' : Heap} (hbase : 0 < base)
    (hsz : base + HEADER ≤ sz) (hmax : sz ≤ 2 ^ 38)
    (hreach : Reach (Process.step base) (fun s e => Calls base s e.2 ∧ Sized s.world e.2)
      ⟨boot mem, sz⟩ s)
    (hsized : Sized s.world (.malloc nbytes (sysSbrk room s.world.heap.regions s.sz)))
    (hrun : s.world.heap.malloc (sysSbrk room s.world.heap.regions s.sz) base fuel nbytes =
      some (p, h')) (hp : p ≠ 0) :
    ∀ x, p ≤ x → x < p + nbytes.toNat → ∃ r ∈ h'.regions, x ∈ r := by
  have hinside : Inside base s := by
    refine @Reach.invariant _ _ _ (Process.step base) _ _ s (Inside base) hreach ?_ ?_
    · exact ⟨⟨[], sound_boot mem⟩, hsz, nofun, le_trans hmax (Nat.le_add_right _ _)⟩
    · intro s e s' h ⟨hcalls, hsized⟩ hstep
      exact h.step hbase hcalls hsized hstep
  obtain ⟨bs, hs⟩ := (hinside.malloc hsized hbase hrun).sound
  rw [if_neg hp] at hs
  intro x hlo hhi
  refine (hs.tiles.covers x).mp ⟨block p nbytes, List.mem_append_right _ List.mem_cons_self, ?_⟩
  have hlen : nbytes.toNat + HEADER ≤ (block p nbytes).len := block_len
  show p - HEADER ≤ x ∧ x < p - HEADER + (block p nbytes).len
  omega

/-- A process of 65536 bytes that has not called `malloc`. -/
def young : Process := ⟨boot fun _ => ⟨0, 0⟩, 65536⟩

/-- `malloc` with `base` at 4096 and memory enough. -/
def malloc (s : Process) (nbytes : UInt32) : Option (Nat × Heap) :=
  s.world.heap.malloc (sysSbrk (fun _ => true) s.world.heap.regions s.sz) 4096 100 nbytes

-- The block lies in the second region, the first having been obtained for a block since freed.
theorem malloc_inside_process_again : ∃ s p h',
    Reach (Process.step 4096) (fun s e => Calls 4096 s e.2 ∧ Sized s.world e.2) young s ∧
      s.sz = 131072 ∧ s.malloc 70000 = some (p, h') ∧ p ≠ 0 ∧
      ∀ x, p ≤ x → x < p + 70000 → ∃ r ∈ h'.regions, x ∈ r := by
  let grab : Nat × Event := (100, .malloc 10 (sysSbrk (fun _ => true) [] 65536))
  have hlive : (Process.step 4096 young grab).map (fun s => s.world.live) = .ok [⟨131040, 32⟩] := by
    decide +kernel
  have hlast : ((Process.step 4096 young grab).bind fun s =>
      Process.step 4096 s (100, .free 131056)).map
      (fun s => (s.sz, s.world.heap.regions, (s.malloc 70000).map Prod.fst)) =
        .ok (131072, [⟨65536, 65536⟩], some 131088) := by
    decide +kernel
  rcases hgrab : Process.step 4096 young grab with _ | s₁
  · rw [hgrab] at hlive
    cases hlive
  rw [hgrab] at hlive hlast
  rcases hfree : Process.step 4096 s₁ (100, .free 131056) with _ | s
  · rw [Except.bind, hfree] at hlast
    cases hlast
  rw [Except.bind, hfree] at hlast
  obtain ⟨hsz, hregions, hval⟩ : _ ∧ _ ∧ _ := by simpa [Except.map] using hlast
  obtain ⟨p, h', hrun, rfl⟩ : ∃ p h', s.malloc 70000 = some (p, h') ∧ p = 131088 := by
    simpa using hval
  have hlive : s₁.world.live = [⟨131040, 32⟩] := Except.ok.inj hlive
  have hcalls : Calls 4096 s₁ (.free 131056) := ⟨_, hlive ▸ List.mem_singleton_self _, rfl⟩
  have hreach : Reach (Process.step 4096)
      (fun s e => Calls 4096 s e.2 ∧ Sized s.world e.2) young s :=
    .step (e := (100, .free 131056))
      (.step (e := grab) .init ⟨⟨_, rfl⟩, .inr fun _ _ => by decide⟩ hgrab) ⟨hcalls, trivial⟩ hfree
  refine ⟨s, _, h', hreach, hsz, hrun, by decide, ?_⟩
  refine malloc_inside_process (by decide) (by decide) (by decide) hreach (.inr fun _ _ => ?_) hrun
    (by decide)
  rw [hregions]
  decide

/-- For 4294967295 bytes `sbrk` is asked for 16, and they are the header of the block returned. -/
theorem malloc_outside_process : ∃ p h', young.malloc 4294967295 = some (p, h') ∧ p ≠ 0 ∧
    ∀ r ∈ h'.regions, p ∉ r := by
  have hval : (young.malloc 4294967295).map (fun r => (r.1, r.2.regions)) =
      some (65552, [⟨65536, 16⟩]) := by decide +kernel
  obtain ⟨⟨p, h'⟩, hrun, heq⟩ := Option.map_eq_some_iff.mp hval
  obtain ⟨rfl, hregions⟩ := Prod.mk.inj heq
  refine ⟨_, h', hrun, by decide, fun r hr => ?_⟩
  rw [hregions] at hr
  rw [List.mem_singleton.mp hr, Span.mem_iff]
  decide

end Process

end OsProjects.User
