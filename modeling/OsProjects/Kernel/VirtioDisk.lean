import OsProjects.Lib.Ring
import OsProjects.Lib.Reach
import Mathlib.Data.List.Nodup

/-!
# VirtioDisk — the disk driver, its callers, its interrupt handler and the device

`virtio_disk_rw` and `virtio_disk_intr` (`virtio_disk.c`), with the device as a further party: it
takes chains from the `avail` ring and completes those it has taken in any order, each with status
0, by an entry of the `used` ring. A step of a call is a stretch that holds `vdisk_lock`; a call
that sleeps may go on at any time. The interrupt handler holds the lock from its start to its end,
but the device does not stop meanwhile, so each round of its loop is a step of its own.

`virtio_disk_rw` is called by `bread` and `bwrite` only, which hold the sleep lock of the buffer.
-/

namespace OsProjects.Kernel.Virtio

open Function List

open Lib

abbrev NUM : Nat := 8

abbrev VRING_DESC_F_NEXT : BitVec 16 := 1
abbrev VRING_DESC_F_WRITE : BitVec 16 := 2

abbrev BSIZE : Nat := 1024

/-- What an address of a descriptor points to, for buffers of type `B`. -/
inductive Addr (B : Type)
  | null
  | op (i : Nat)
  | data (b : B)
  | status (i : Nat)

/-- `struct virtq_desc`. -/
structure Desc (B : Type) where
  addr : Addr B
  len : Nat
  flags : BitVec 16
  next : Nat

/-- `struct virtio_blk_req`. -/
structure BlkReq where
  write : Bool
  sector : Nat

/-- An element of `info`. -/
structure Info (B : Type) where
  b : Option B
  status : UInt8

/-- `disk`, with the rings and the field `disk` of the buffers. -/
structure Disk (B : Type) where
  desc : Nat → Desc B
  availRing : Fin NUM → Nat
  availIdx : BitVec 16
  usedRing : Fin NUM → Nat
  usedIdx : BitVec 16
  free : Nat → Bool
  /-- `disk.used_idx`. -/
  usedSeen : BitVec 16
  info : Nat → Info B
  ops : Nat → BlkReq
  /-- `b->disk`. -/
  busy : B → Bool

/-- Why a party takes no step: it has to wait, or the kernel panics. -/
inductive Halt
  | blocked
  | panic (msg : String)
  deriving DecidableEq

variable {B : Type}

def Desc.zero : Desc B := ⟨.null, 0, 0, 0⟩

/-- The state that `virtio_disk_init` leaves. -/
def Disk.init : Disk B where
  desc _ := .zero
  availRing _ := 0
  availIdx := 0
  usedRing _ := 0
  usedIdx := 0
  free i := decide (i < NUM)
  usedSeen := 0
  info _ := ⟨none, 0⟩
  ops _ := ⟨false, 0⟩
  busy _ := false

/-! ## Descriptors -/

namespace Disk

def setFree (d : Disk B) (i : Nat) (v : Bool) : Disk B :=
  { d with free := update d.free i v }

def allocDesc (d : Disk B) : Option Nat × Disk B :=
  match (List.range NUM).find? d.free with
  | some i => (some i, d.setFree i false)
  | none => (none, d)

def freeDesc (d : Disk B) (i : Nat) : Except Halt (Disk B) :=
  if i ≥ NUM then .error (.panic "free_desc 1")
  else if d.free i = true then .error (.panic "free_desc 2")
  else .ok ({ d with desc := update d.desc i .zero }.setFree i true)

/-- The loop of `free_chain`. A round marks a descriptor that was not free, so after `NUM` rounds
the next one panics. -/
def freeChainLoop : Nat → Nat → Disk B → Except Halt (Disk B)
  | 0, _, _ => .error (.panic "free_desc 2")
  | rounds + 1, i, d =>
    (d.freeDesc i).bind fun d' =>
      if (d.desc i).flags &&& VRING_DESC_F_NEXT ≠ 0 then freeChainLoop rounds (d.desc i).next d'
      else .ok d'

def freeChain (d : Disk B) (i : Nat) : Except Halt (Disk B) := freeChainLoop (NUM + 1) i d

/-- The loop of `alloc3_desc`: `n` descriptors are to be allocated in addition to `idx`. -/
def allocDescs : Nat → List Nat → Disk B → Except Halt (Option (List Nat) × Disk B)
  | 0, idx, d => .ok (some idx, d)
  | n + 1, idx, d =>
    match d.allocDesc with
    | (some i, d) => allocDescs n (idx ++ [i]) d
    | (none, d) => (idx.foldlM freeDesc d).map fun d => (none, d)

def alloc3Desc (d : Disk B) : Except Halt (Option (List Nat) × Disk B) := allocDescs 3 [] d

/-- The request as `virtio_disk_rw` formats it, in the descriptors `i₀`, `i₁` and `i₂`. -/
def format [DecidableEq B] (d : Disk B) (blockno : B → Nat) (b : B) (write : Bool)
    (i₀ i₁ i₂ : Nat) : Disk B :=
  { d with
    ops := update d.ops i₀ ⟨write, blockno b * (BSIZE / 512) % 2 ^ 32⟩
    desc := update (update (update d.desc
      i₀ ⟨.op i₀, 16, VRING_DESC_F_NEXT, i₁⟩)
      i₁ ⟨.data b, BSIZE, (if write then 0 else VRING_DESC_F_WRITE) ||| VRING_DESC_F_NEXT, i₂⟩)
      i₂ ⟨.status i₀, 1, VRING_DESC_F_WRITE, 0⟩
    info := update d.info i₀ ⟨some b, 255⟩
    busy := update d.busy b true }

/-- The device is told of the chain with head `i`. -/
def publish (d : Disk B) (i : Nat) : Disk B :=
  { d with
    availRing := update d.availRing (slot NUM d.availIdx) i
    availIdx := d.availIdx + 1 }

/-- A round of `virtio_disk_intr` for the next element of the `used` ring. -/
def handle [DecidableEq B] (d : Disk B) : Except Halt (Disk B) :=
  let id := d.usedRing (slot NUM d.usedSeen)
  if (d.info id).status ≠ 0 then .error (.panic "virtio_disk_intr status")
  else match (d.info id).b with
    | none => .error (.panic "null pointer")
    | some b => .ok { d with busy := update d.busy b false, usedSeen := d.usedSeen + 1 }

/-- The device completes the chain with head `i`: the third descriptor says where
the status goes. -/
def complete (d : Disk B) (i : Nat) : Disk B :=
  let info := match (d.desc (d.desc (d.desc i).next).next).addr with
    | .status j => update d.info j { d.info j with status := 0 }
    | _ => d.info
  { d with
    info := info
    usedRing := update d.usedRing (slot NUM d.usedIdx) i
    usedIdx := d.usedIdx + 1 }

end Disk

/-! ## The machine -/

/-- A request in flight: its buffer, its descriptors and its number. -/
structure Req (B : Type) where
  buf : B
  i₀ : Nat
  i₁ : Nat
  i₂ : Nat
  serial : Nat

def Req.idx (r : Req B) : List Nat := [r.i₀, r.i₁, r.i₂]

/-- Where a process is in `virtio_disk_rw`. -/
inductive Call (B : Type)
  | idle
  /-- It wants three descriptors. -/
  | starting (b : B) (write : Bool)
  /-- It waits for `b->disk` to be cleared. -/
  | waiting (r : Req B)

/-- The device: how far it has read the `avail` ring, and the chains it has taken. -/
structure Device where
  fetched : BitVec 16
  working : List Nat

/-- The last five fields are history: requests are numbered in the order of submission. -/
structure State (P B : Type) where
  disk : Disk B
  device : Device
  call : P → Call B
  /-- The sleep locks of the buffers. -/
  locked : B → Option P
  /-- `virtio_disk_intr` is running and holds `vdisk_lock`. -/
  handling : Bool
  /-- The buffer of each request. -/
  reqs : List B
  /-- The number of the request that last had this descriptor as its head. -/
  owner : Nat → Nat
  completed : List Nat
  processed : List Nat
  returned : List Nat

variable {P : Type}

def State.init : State P B where
  disk := .init
  device := ⟨0, []⟩
  call _ := .idle
  locked _ := none
  handling := false
  reqs := []
  owner _ := 0
  completed := []
  processed := []
  returned := []

inductive Event (P B : Type)
  | acquiresleep (p : P) (b : B)
  | releasesleep (p : P) (b : B)
  | rw (p : P) (b : B) (write : Bool)
  | submit (p : P)
  | finish (p : P)
  | intr
  | round
  | fetch
  | complete (i : Nat)

namespace State

variable [DecidableEq P]

def setCall (s : State P B) (p : P) (c : Call B) : State P B :=
  { s with call := update s.call p c }

/-- The stretch of `virtio_disk_rw` up to the wait for the device. -/
def submit [DecidableEq B] (blockno : B → Nat) (s : State P B) (p : P) (b : B) (write : Bool) :
    Except Halt (State P B) :=
  s.disk.alloc3Desc.bind fun (idx, d) =>
    match idx with
    | some [i₀, i₁, i₂] => .ok
        { s.setCall p (.waiting ⟨b, i₀, i₁, i₂, s.reqs.length⟩) with
          disk := (d.format blockno b write i₀ i₁ i₂).publish i₀
          reqs := s.reqs ++ [b]
          owner := update s.owner i₀ s.reqs.length }
    | _ => .ok { s with disk := d }

/-- The rest of `virtio_disk_rw`, once `b->disk` is found cleared. -/
def finish (s : State P B) (p : P) (r : Req B) : Except Halt (State P B) :=
  ({ s.disk with info := update s.disk.info r.i₀ { s.disk.info r.i₀ with b := none } }.freeChain
    r.i₀).map fun d => { s.setCall p .idle with disk := d, returned := s.returned ++ [r.serial] }

def step [DecidableEq B] (blockno : B → Nat) (s : State P B) : Event P B → Except Halt (State P B)
  | .acquiresleep p b =>
    if s.locked b = none then .ok { s with locked := update s.locked b (some p) }
    else .error .blocked
  | .releasesleep p b =>
    match s.call p with
    | .idle =>
      if s.locked b = some p then .ok { s with locked := update s.locked b none }
      else .error .blocked
    | _ => .error .blocked
  | .rw p b write =>
    match s.call p with
    | .idle =>
      if s.locked b = some p then .ok (s.setCall p (.starting b write)) else .error .blocked
    | _ => .error .blocked
  | .submit p =>
    match s.call p with
    | .starting b write =>
      if s.handling = true then .error .blocked else s.submit blockno p b write
    | _ => .error .blocked
  | .finish p =>
    match s.call p with
    | .waiting r =>
      if s.handling = true ∨ s.disk.busy r.buf = true then .error .blocked else s.finish p r
    | _ => .error .blocked
  | .intr => if s.handling = true then .error .blocked else .ok { s with handling := true }
  | .round =>
    if s.handling = false then .error .blocked
    else if s.disk.usedSeen ≠ s.disk.usedIdx then
      s.disk.handle.map fun d =>
        { s with
          disk := d
          processed := s.processed ++ [s.owner (s.disk.usedRing (slot NUM s.disk.usedSeen))] }
    else .ok { s with handling := false }
  | .fetch =>
    if s.device.fetched ≠ s.disk.availIdx then
      .ok { s with device := ⟨s.device.fetched + 1,
        s.device.working ++ [s.disk.availRing (slot NUM s.device.fetched)]⟩ }
    else .error .blocked
  | .complete i =>
    if i ∈ s.device.working then
      .ok { s with
        disk := s.disk.complete i
        device := { s.device with working := s.device.working.erase i }
        completed := s.completed ++ [s.owner i] }
    else .error .blocked

def Reached [DecidableEq B] (blockno : B → Nat) : State P B → Prop :=
  Reach (step blockno) (fun _ _ => True) init

end State

/-! ## What the descriptor functions do -/

namespace Disk

variable {d : Disk B} {i : Nat} {idx : List Nat}

theorem freeDesc_ok (hi : i < NUM) (hfree : d.free i = false) :
    d.freeDesc i = .ok ({ d with desc := update d.desc i .zero }.setFree i true) := by
  unfold freeDesc
  rw [if_neg (Nat.not_le.mpr hi), if_neg (by rw [hfree]; nofun)]

theorem update_free_mem (free : Nat → Bool) (v : Bool) (i : Nat) (idx : List Nat) :
    (fun j => if j ∈ idx then v else update free i v j) =
      fun j => if j ∈ i :: idx then v else free j := by
  funext j
  by_cases hj : j = i
  · rw [hj, update_self, if_pos mem_cons_self, ite_self]
  · rw [update_of_ne hj]
    simp only [mem_cons, hj, false_or]

theorem foldlM_freeDesc (hidx : idx.Nodup) (hlt : ∀ i ∈ idx, i < NUM)
    (hfree : ∀ i ∈ idx, d.free i = false) : ∃ desc, idx.foldlM freeDesc d =
        .ok { d with free := fun i => if i ∈ idx then true else d.free i, desc := desc } ∧
      ∀ i ∉ idx, desc i = d.desc i := by
  induction idx generalizing d with
  | nil =>
    refine ⟨d.desc, ?_, fun _ _ => rfl⟩
    rfl
  | cons i idx ih =>
    rw [nodup_cons] at hidx
    rw [foldlM_cons, freeDesc_ok (hlt i mem_cons_self) (hfree i mem_cons_self)]
    obtain ⟨desc, hok, hdesc⟩ := @ih ({ d with desc := update d.desc i .zero }.setFree i true)
      hidx.2 (fun j hj => hlt j (mem_cons_of_mem _ hj)) fun j hj => by
        have hne : j ≠ i := fun heq => hidx.1 (heq ▸ hj)
        exact (update_of_ne hne ..).trans (hfree j (mem_cons_of_mem _ hj))
    refine ⟨desc, hok.trans ?_, fun j hj => ?_⟩
    · simp only [setFree, update_free_mem]
    · rw [mem_cons, not_or] at hj
      exact (hdesc j hj.2).trans (update_of_ne hj.1 ..)

theorem allocDesc_cases (d : Disk B) : d.allocDesc = (none, d) ∨
    ∃ i, d.allocDesc = (some i, d.setFree i false) ∧ i < NUM ∧ d.free i = true := by
  unfold allocDesc
  cases hfind : (List.range NUM).find? d.free with
  | none => exact .inl rfl
  | some i => exact .inr ⟨i, rfl, mem_range.mp (mem_of_find?_eq_some hfind),
      List.find?_some hfind⟩

/-- The allocation of `n` descriptors more: those given back are all that were taken. -/
theorem allocDescs_cases (n : Nat) (hidx : idx.Nodup) (hlt : ∀ i ∈ idx, i < NUM)
    (hfree : ∀ i ∈ idx, d.free i = false) : (∃ desc, allocDescs n idx d =
        .ok (none, { d with free := fun i => if i ∈ idx then true else d.free i, desc := desc }) ∧
      ∀ i ∉ idx, d.free i = false → desc i = d.desc i) ∨
    ∃ new, allocDescs n idx d =
        .ok (some (idx ++ new), { d with free := fun i => if i ∈ new then false else d.free i }) ∧
      new.length = n ∧ (idx ++ new).Nodup ∧ ∀ i ∈ new, i < NUM ∧ d.free i = true := by
  induction n generalizing idx d with
  | zero =>
    refine .inr ⟨[], ?_, rfl, ?_, nofun⟩
    · simp only [allocDescs, append_nil, not_mem_nil, if_false]
    · rwa [append_nil]
  | succ n ih =>
    rw [allocDescs]
    rcases allocDesc_cases d with hnone | ⟨i, hsome, hi, hifree⟩
    · rw [hnone]
      obtain ⟨desc, hok, hdesc⟩ := foldlM_freeDesc hidx hlt hfree
      refine .inl ⟨desc, ?_, fun i hi _ => hdesc i hi⟩
      simp only [hok]
      rfl
    · rw [hsome]
      have hnew : i ∉ idx := by
        intro hmem
        rw [hfree i hmem] at hifree
        cases hifree
      have hfree' : ∀ j ∈ idx ++ [i], (d.setFree i false).free j = false := by
        intro j hj
        show update d.free i false j = false
        by_cases hji : j = i
        · rw [hji, update_self]
        · rw [update_of_ne hji]
          refine hfree j ((mem_append.mp hj).resolve_right fun h => hji ?_)
          exact mem_singleton.mp h
      have hidx' : (idx ++ [i]).Nodup :=
        nodup_append.mpr ⟨hidx, nodup_singleton i, fun j hj k hk heq =>
          hnew (mem_singleton.mp hk ▸ heq ▸ hj)⟩
      have hlt' : ∀ j ∈ idx ++ [i], j < NUM := by
        intro j hj
        rcases mem_append.mp hj with hj | hj
        · exact hlt j hj
        · rwa [mem_singleton.mp hj]
      rcases @ih (d.setFree i false) (idx ++ [i]) hidx' hlt' hfree' with
        ⟨desc, hok, hdesc⟩ | ⟨new, hok, hlen, hnodup, hnewfree⟩
      · refine .inl ⟨desc, ?_, fun j hj hjfree => ?_⟩
        · refine hok.trans ?_
          have hsame : (fun j => if j ∈ idx ++ [i] then true else (d.setFree i false).free j) =
              fun j => if j ∈ idx then true else d.free j := by
            funext j
            by_cases hji : j = i
            · rw [hji, if_pos mem_concat_self, if_neg hnew, hifree]
            · rw [show (d.setFree i false).free j = d.free j from update_of_ne hji ..]
              simp only [mem_append, mem_singleton, hji, or_false]
          rw [hsame]
          rfl
        · have hji : j ≠ i := by
            rintro rfl
            rw [hjfree] at hifree
            cases hifree
          refine hdesc j ?_ ((update_of_ne hji ..).trans hjfree)
          rw [mem_append, mem_singleton, not_or]
          exact ⟨hj, hji⟩
      · rw [append_assoc] at hok hnodup
        refine .inr ⟨i :: new, ?_, by rw [length_cons, hlen], hnodup, fun j hj => ?_⟩
        · refine hok.trans ?_
          simp only [setFree, update_free_mem]
          rfl
        · rcases mem_cons.mp hj with rfl | hj
          · exact ⟨hi, hifree⟩
          · obtain ⟨hjlt, hjfree⟩ := hnewfree j hj
            refine ⟨hjlt, ?_⟩
            have hji : j ≠ i := by
              rintro rfl
              rw [show (d.setFree j false).free j = false from update_self ..] at hjfree
              cases hjfree
            exact (update_of_ne hji ..).symm.trans hjfree

theorem alloc3Desc_cases (d : Disk B) :
    (∃ desc, d.alloc3Desc = .ok (none, { d with desc := desc }) ∧
      ∀ i, d.free i = false → desc i = d.desc i) ∨
    ∃ i₀ i₁ i₂, d.alloc3Desc = .ok (some [i₀, i₁, i₂],
        { d with free := fun i => if i ∈ [i₀, i₁, i₂] then false else d.free i }) ∧
      [i₀, i₁, i₂].Nodup ∧ ∀ i ∈ [i₀, i₁, i₂], i < NUM ∧ d.free i = true := by
  rcases @allocDescs_cases B d [] 3 nodup_nil nofun nofun with
    ⟨desc, hok, hdesc⟩ | ⟨new, hok, hlen, hnodup, hnew⟩
  · refine .inl ⟨desc, ?_, fun i => hdesc i not_mem_nil⟩
    refine hok.trans ?_
    simp only [not_mem_nil, if_false]
  · obtain ⟨i₀, i₁, i₂, rfl⟩ := length_eq_three.mp hlen
    exact .inr ⟨i₀, i₁, i₂, hok, hnodup, hnew⟩

/-- The descriptors of the request are taken, and linked to a chain of three that ends with its
status. -/
structure Chain (d : Disk B) (r : Req B) : Prop where
  lt : ∀ i ∈ r.idx, i < NUM
  nodup : r.idx.Nodup
  taken : ∀ i ∈ r.idx, d.free i = false
  first : (d.desc r.i₀).flags &&& VRING_DESC_F_NEXT ≠ 0 ∧ (d.desc r.i₀).next = r.i₁
  second : (d.desc r.i₁).flags &&& VRING_DESC_F_NEXT ≠ 0 ∧ (d.desc r.i₁).next = r.i₂
  third : (d.desc r.i₂).flags &&& VRING_DESC_F_NEXT = 0 ∧ (d.desc r.i₂).addr = .status r.i₀

section Chain

variable {r : Req B} {rounds : Nat}

theorem mem_idx (i : Nat) : i ∈ r.idx ↔ i = r.i₀ ∨ i = r.i₁ ∨ i = r.i₂ := by
  simp only [Req.idx, mem_cons, not_mem_nil, or_false]

-- A chain depends on what the disk says of its descriptors only.
theorem Chain.congr {d' : Disk B} (h : d.Chain r) (hfree : ∀ i ∈ r.idx, d'.free i = d.free i)
    (hdesc : ∀ i ∈ r.idx, d'.desc i = d.desc i) : d'.Chain r := by
  have h0 := hdesc r.i₀ ((mem_idx _).mpr (.inl rfl))
  have h1 := hdesc r.i₁ ((mem_idx _).mpr (.inr (.inl rfl)))
  have h2 := hdesc r.i₂ ((mem_idx _).mpr (.inr (.inr rfl)))
  exact ⟨h.lt, h.nodup, fun i hi => (hfree i hi).trans (h.taken i hi), h0 ▸ h.first, h1 ▸ h.second,
    h2 ▸ h.third⟩

theorem Chain.ne (h : d.Chain r) : r.i₀ ≠ r.i₁ ∧ r.i₀ ≠ r.i₂ ∧ r.i₁ ≠ r.i₂ := by
  have hnodup := h.nodup
  simp only [Req.idx, nodup_cons, mem_cons, not_mem_nil, or_false, not_or] at hnodup
  exact ⟨hnodup.1.1, hnodup.1.2, hnodup.2.1⟩

/-- The disk after `free_desc(i)`. -/
def freed (d : Disk B) (i : Nat) : Disk B :=
  { d with desc := update d.desc i .zero }.setFree i true

theorem freed_of_ne {j : Nat} (h : j ≠ i) :
    (d.freed i).free j = d.free j ∧ (d.freed i).desc j = d.desc j :=
  ⟨update_of_ne h .., update_of_ne h ..⟩

theorem freeChainLoop_next (hfree : d.freeDesc i = .ok (d.freed i))
    (hnext : (d.desc i).flags &&& VRING_DESC_F_NEXT ≠ 0) :
    freeChainLoop (rounds + 1) i d = freeChainLoop rounds (d.desc i).next (d.freed i) := by
  rw [freeChainLoop, hfree]
  exact if_pos hnext

theorem freeChainLoop_last (hfree : d.freeDesc i = .ok (d.freed i))
    (hlast : (d.desc i).flags &&& VRING_DESC_F_NEXT = 0) :
    freeChainLoop (rounds + 1) i d = .ok (d.freed i) := by
  rw [freeChainLoop, hfree]
  exact if_neg (not_not.mpr hlast)

theorem Chain.freeChain_eq (h : d.Chain r) : d.freeChain r.i₀ = r.idx.foldlM freeDesc d := by
  obtain ⟨h01, h02, h12⟩ := h.ne
  have hlt := h.lt
  have htaken := h.taken
  simp only [mem_idx, forall_eq_or_imp, forall_eq] at hlt htaken
  obtain ⟨hfree1, hdesc1⟩ := @freed_of_ne B d r.i₀ r.i₁ h01.symm
  obtain ⟨hfree2, hdesc2⟩ := @freed_of_ne B d r.i₀ r.i₂ h02.symm
  obtain ⟨hfree2', hdesc2'⟩ := @freed_of_ne B (d.freed r.i₀) r.i₁ r.i₂ h12.symm
  have e0 : d.freeDesc r.i₀ = .ok (d.freed r.i₀) := freeDesc_ok hlt.1 htaken.1
  have e1 : (d.freed r.i₀).freeDesc r.i₁ = .ok ((d.freed r.i₀).freed r.i₁) :=
    freeDesc_ok hlt.2.1 (hfree1.trans htaken.2.1)
  have e2 : ((d.freed r.i₀).freed r.i₁).freeDesc r.i₂ = .ok
      (((d.freed r.i₀).freed r.i₁).freed r.i₂) :=
    freeDesc_ok hlt.2.2 (hfree2'.trans (hfree2.trans htaken.2.2))
  rw [freeChain, freeChainLoop_next e0 h.first.1, h.first.2,
    freeChainLoop_next e1 (hdesc1 ▸ h.second.1), hdesc1, h.second.2,
    freeChainLoop_last e2 (by rw [hdesc2', hdesc2]; exact h.third.1)]
  have hbind : ∀ (d : Disk B) (f : Disk B → Except Halt (Disk B)), (Except.ok d >>= f) = f d :=
    fun _ _ => rfl
  simp only [Req.idx, foldlM_cons, foldlM_nil, e0, e1, e2, hbind]
  rfl

theorem Chain.freeChain_ok (h : d.Chain r) : ∃ desc, d.freeChain r.i₀ =
        .ok { d with free := fun i => if i ∈ r.idx then true else d.free i, desc := desc } ∧
      ∀ i ∉ r.idx, desc i = d.desc i := by
  rw [h.freeChain_eq]
  exact foldlM_freeDesc h.nodup h.lt h.taken

end Chain

end Disk

end OsProjects.Kernel.Virtio
