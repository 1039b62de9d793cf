import OsProjects.Kernel.VirtioDisk
import Mathlib.Data.List.Perm.Subperm

/-!
# VirtioInv — every request has its own chain and is completed once

The chains that the device has not completed, and those whose completion is not handled, are heads
of different requests: `A` stands for those in the `avail` ring that the device has not taken, `U`
for those in the `used` ring that the handler has not seen.
-/

namespace OsProjects.Kernel.Virtio

open Function List

open Lib

variable {P B : Type}

/-- A request in flight, by what the driver, the device and the history have of it. -/
structure State.Tracks (s : State P B) (A U : List Nat) (r : Req B) : Prop where
  chain : s.disk.Chain r
  info : (s.disk.info r.i₀).b = some r.buf
  busy : s.disk.busy r.buf = true ↔ r.i₀ ∈ A ++ (s.device.working ++ U)
  owner : s.owner r.i₀ = r.serial
  numbered : s.reqs[r.serial]? = some r.buf
  completed : r.serial ∈ s.completed ↔ r.i₀ ∉ A ++ s.device.working

/-- The buffer that a process is in `virtio_disk_rw` with. -/
def Call.buf? : Call B → Option B
  | .idle => none
  | .starting b _ => some b
  | .waiting r => some r.buf

structure State.Inv (s : State P B) (A U : List Nat) : Prop where
  avail : Queued s.disk.availRing s.device.fetched s.disk.availIdx A
  used : Queued s.disk.usedRing s.disk.usedSeen s.disk.usedIdx U
  nodup : (A ++ (s.device.working ++ U)).Nodup
  flying : ∀ i ∈ A ++ (s.device.working ++ U), ∃ p r, s.call p = .waiting r ∧ r.i₀ = i
  tracks : ∀ p r, s.call p = .waiting r → s.Tracks A U r
  apart : ∀ p q r r', s.call p = .waiting r → s.call q = .waiting r' → p ≠ q →
    r.idx.Disjoint r'.idx ∧ r.serial ≠ r'.serial
  cover : ∀ i < NUM, s.disk.free i = true ∨ ∃ p r, s.call p = .waiting r ∧ i ∈ r.idx
  locked : ∀ p b, (s.call p).buf? = some b → s.locked b = some p
  status : ∀ i ∈ U, (s.disk.info i).status = 0
  completed : s.completed = s.processed ++ U.map s.owner
  once : s.completed.Nodup
  known : ∀ n ∈ s.completed, n < s.reqs.length
  returned : ∀ n ∈ s.returned, n ∈ s.processed

section Invariant

variable {s s' : State P B} {A U : List Nat} {p q : P} {r r' : Req B} {d : Disk B}

theorem dvd_num : NUM ∣ 2 ^ 16 := ⟨2 ^ 13, rfl⟩

theorem num_lt : NUM < 2 ^ 16 := by decide

theorem mem_head (r : Req B) : r.i₀ ∈ r.idx := mem_cons_self

namespace State.Inv

theorem eq_of_head (h : s.Inv A U) (hp : s.call p = .waiting r) (hq : s.call q = .waiting r')
    (hi : r.i₀ = r'.i₀) : p = q := by
  by_contra hne
  exact (h.apart p q r r' hp hq hne).1 (mem_head r) (hi ▸ mem_head r')

theorem eq_of_buf (h : s.Inv A U) (hp : (s.call p).buf? = some r.buf) (hq : s.call q = .waiting r')
    (hb : r.buf = r'.buf) : p = q := by
  have hlock := h.locked p r.buf hp
  rw [hb, h.locked q r'.buf (by rw [hq]; rfl)] at hlock
  exact (Option.some.inj hlock).symm

theorem head_lt (h : s.Inv A U) {i : Nat} (hi : i ∈ A ++ (s.device.working ++ U)) : i < NUM := by
  obtain ⟨p, r, hp, rfl⟩ := h.flying i hi
  exact (h.tracks p r hp).chain.lt _ (mem_head r)

-- There is room for one more in the rings.
theorem room {l : List Nat} (hnodup : l.Nodup) (hlt : ∀ i ∈ l, i < NUM) : l.length ≤ NUM := by
  have hle := (subperm_of_subset hnodup fun i hi => mem_range.mpr (hlt i hi)).length_le
  rwa [length_range] at hle

end State.Inv

theorem State.inv_init : (State.init : State P B).Inv [] [] where
  avail := queued_nil _ _
  used := queued_nil _ _
  nodup := nodup_nil
  flying := nofun
  tracks := nofun
  apart := nofun
  cover _ hi := .inl (decide_eq_true hi)
  locked := nofun
  status := nofun
  completed := rfl
  once := nodup_nil
  known := nofun
  returned := nofun

/-! ## The device -/

section Device

-- The lists change places only.
theorem State.Tracks.congr (h : s.Tracks A U r) {A' U' : List Nat} (hdisk : s'.disk.Chain r)
    (hinfo : (s'.disk.info r.i₀).b = (s.disk.info r.i₀).b)
    (hbusy : s'.disk.busy r.buf = s.disk.busy r.buf) (howner : s'.owner r.i₀ = s.owner r.i₀)
    (hreqs : s'.reqs[r.serial]? = s.reqs[r.serial]?)
    (hmem : r.i₀ ∈ A' ++ (s'.device.working ++ U') ↔ r.i₀ ∈ A ++ (s.device.working ++ U))
    (hcompleted : (r.serial ∈ s'.completed ↔ r.i₀ ∉ A' ++ s'.device.working)) : s'.Tracks A' U' r :=
  ⟨hdisk, hinfo.trans h.info, by rw [hbusy, h.busy, hmem], howner.trans h.owner,
    hreqs.trans h.numbered, hcompleted⟩

theorem State.Inv.fetch (h : s.Inv A U) (hne : s.device.fetched ≠ s.disk.availIdx) :
    ∃ A', ({ s with device := ⟨s.device.fetched + 1,
      s.device.working ++ [s.disk.availRing (slot NUM s.device.fetched)]⟩ } :
        State P B).Inv A' U := by
  obtain ⟨i, A, rfl⟩ := exists_cons_of_ne_nil (mt (h.avail.eq_iff num_lt).mpr hne)
  obtain ⟨hi, havail⟩ := h.avail.pop
  rw [hi]
  have hperm : (A ++ ((s.device.working ++ [i]) ++ U)).Perm
      (i :: A ++ (s.device.working ++ U)) := by
    rw [append_assoc, ← append_assoc, cons_append, ← append_assoc]
    exact perm_middle
  have hperm' : (A ++ (s.device.working ++ [i])).Perm (i :: A ++ s.device.working) := by
    rw [← append_assoc]
    exact perm_append_singleton i _
  refine ⟨A, { h with
    avail := havail
    nodup := hperm.nodup_iff.mpr h.nodup
    flying := fun j hj => h.flying j (hperm.mem_iff.mp hj)
    tracks := fun p r hp => ?_ }⟩
  have ht := h.tracks p r hp
  refine ht.congr ht.chain rfl rfl rfl rfl hperm.mem_iff ?_
  rw [show r.serial ∈ s.completed ↔ _ from ht.completed]
  exact (not_congr hperm'.mem_iff).symm

-- The device has written the status of the chain and nothing else that the driver reads of it.
theorem Disk.Chain.complete_info (h : d.Chain r) :
    (d.complete r.i₀).info = update d.info r.i₀ { d.info r.i₀ with status := 0 } := by
  unfold Disk.complete
  rw [h.first.2, h.second.2, h.third.2]

theorem State.Inv.complete (h : s.Inv A U) {i : Nat} (hi : i ∈ s.device.working) : ({ s with
      disk := s.disk.complete i
      device := { s.device with working := s.device.working.erase i }
      completed := s.completed ++ [s.owner i] } : State P B).Inv A (U ++ [i]) := by
  have hW : s.device.working.Perm (i :: s.device.working.erase i) := perm_cons_erase hi
  have hperm : (A ++ (s.device.working.erase i ++ (U ++ [i]))).Perm
      (A ++ (s.device.working ++ U)) := by
    apply List.Perm.append_left
    rw [← append_assoc]
    refine (perm_append_singleton i _).trans ?_
    rw [← cons_append]
    exact hW.symm.append_right U
  have hmem : i ∈ A ++ (s.device.working ++ U) :=
    mem_append_right _ (mem_append_left _ hi)
  obtain ⟨p, r, hp, rfl⟩ := h.flying i hmem
  have hr := h.tracks p r hp
  have hinfo := hr.chain.complete_info
  have hnot : r.serial ∉ s.completed := by
    rw [hr.completed, not_not]
    exact mem_append_right _ hi
  have hnodup : (A ++ (s.device.working.erase r.i₀ ++ (U ++ [r.i₀]))).Nodup :=
    hperm.nodup_iff.mpr h.nodup
  -- the head is in no list but the `used` ring now
  have hgone : r.i₀ ∉ A ++ s.device.working.erase r.i₀ := by
    intro hin
    rw [← append_assoc] at hnodup
    exact (nodup_append.mp hnodup).2.2 _ hin _ (mem_append_right _ (mem_singleton_self _)) rfl
  have hroom : U.length < NUM := by
    have hlen := State.Inv.room hnodup fun j hj => h.head_lt (hperm.mem_iff.mp hj)
    simp only [length_append, length_singleton] at hlen
    omega
  refine { h with
    used := h.used.push dvd_num hroom
    nodup := hnodup
    flying := fun j hj => h.flying j (hperm.mem_iff.mp hj)
    tracks := fun q r' hq => ?_
    status := fun j hj => ?_
    completed := ?_
    once := ?_
    known := fun n hn => ?_ }
  · have ht := h.tracks q r' hq
    refine ht.congr (ht.chain.congr (fun _ _ => rfl) fun _ _ => rfl) ?_ rfl rfl rfl hperm.mem_iff ?_
    · rw [hinfo]
      by_cases heq : r'.i₀ = r.i₀
      · rw [heq, update_self]
      · rw [update_of_ne heq]
    · rw [mem_append, mem_singleton, hr.owner]
      by_cases hpq : q = p
      · subst hpq
        cases hp.symm.trans hq
        exact iff_of_true (.inr rfl) hgone
      · obtain ⟨hdisjoint, hserial⟩ := h.apart q p r' r hq hp hpq
        have hhead : r'.i₀ ≠ r.i₀ := fun heq => hdisjoint (mem_head r') (heq ▸ mem_head r)
        rw [ht.completed, mem_append, mem_append, mem_erase_of_ne hhead]
        exact or_iff_left hserial
  · rw [hinfo]
    by_cases heq : j = r.i₀
    · rw [heq, update_self]
    · rw [update_of_ne heq]
      rcases mem_append.mp hj with hj | hj
      · exact h.status j hj
      · exact absurd (mem_singleton.mp hj) heq
  · rw [h.completed, map_append, append_assoc]
    rfl
  · refine nodup_append.mpr ⟨h.once, nodup_singleton _, fun n hn m hm heq => hnot ?_⟩
    rwa [← hr.owner, ← mem_singleton.mp hm, ← heq]
  · rcases mem_append.mp hn with hn | hn
    · exact h.known n hn
    · rw [mem_singleton.mp hn, hr.owner]
      exact (List.getElem?_eq_some_iff.mp hr.numbered).1

end Device

/-! ## The driver -/

section Driver

variable [DecidableEq B]

-- The next completion is that of a request in flight, and it is the buffer of that request that is
-- cleared.
theorem State.Inv.round (h : s.Inv A U) (hne : s.disk.usedSeen ≠ s.disk.usedIdx) :
    ∃ i U' p r d, U = i :: U' ∧ s.call p = .waiting r ∧ r.i₀ = i ∧ s.disk.handle = .ok d ∧
      d = { s.disk with
        busy := update s.disk.busy r.buf false
        usedSeen := s.disk.usedSeen + 1 } ∧
      s.disk.usedRing (slot NUM s.disk.usedSeen) = i ∧
      ({ s with disk := d, processed := s.processed ++ [s.owner i] } : State P B).Inv A U' := by
  obtain ⟨i, U', rfl⟩ := exists_cons_of_ne_nil (mt (h.used.eq_iff num_lt).mpr hne)
  obtain ⟨hi, hused⟩ := h.used.pop
  have hmem : i ∈ A ++ (s.device.working ++ i :: U') :=
    mem_append_right _ (mem_append_right _ mem_cons_self)
  obtain ⟨p, r, hp, rfl⟩ := h.flying i hmem
  have hr := h.tracks p r hp
  refine ⟨r.i₀, U', p, r, _, rfl, hp, rfl, ?_, rfl, hi, ?_⟩
  · unfold Disk.handle
    simp only [hi, h.status r.i₀ mem_cons_self, ne_eq, not_true_eq_false, if_false, hr.info]
  have hnodup : (r.i₀ :: (A ++ (s.device.working ++ U'))).Nodup := by
    refine List.Perm.nodup_iff ?_ |>.mp h.nodup
    rw [← append_assoc, ← append_assoc]
    exact perm_middle
  rw [nodup_cons] at hnodup
  -- the lists lose the head of the request that is completed, and no other
  have hsub : ∀ j, j ≠ r.i₀ → (j ∈ A ++ (s.device.working ++ U') ↔
      j ∈ A ++ (s.device.working ++ r.i₀ :: U')) := by
    intro j hj
    simp only [mem_append, mem_cons, hj, false_or]
  refine { h with
    used := hused
    nodup := hnodup.2
    flying := fun j hj => h.flying j ((hsub j fun heq => hnodup.1 (heq ▸ hj)).mp hj)
    tracks := fun q r' hq => ?_
    status := fun j hj => h.status j (mem_cons_of_mem _ hj)
    completed := ?_
    returned := fun n hn => mem_append_left _ (h.returned n hn) }
  · have hq : s.call q = .waiting r' := hq
    have ht := h.tracks q r' hq
    by_cases hqp : q = p
    · subst hqp
      cases hp.symm.trans hq
      have hclear : update s.disk.busy r.buf false r.buf = false := update_self ..
      exact ⟨ht.chain.congr (fun _ _ => rfl) fun _ _ => rfl, ht.info,
        iff_of_false (fun hb => nomatch hclear.symm.trans hb) hnodup.1, ht.owner, ht.numbered,
        ht.completed⟩
    · have hbuf : r'.buf ≠ r.buf := fun heq => hqp (h.eq_of_buf (by rw [hq]; rfl) hp heq)
      have hhead : r'.i₀ ≠ r.i₀ := fun heq => hqp (h.eq_of_head hq hp heq)
      exact ht.congr (ht.chain.congr (fun _ _ => rfl) fun _ _ => rfl) rfl
        (update_of_ne hbuf ..) rfl rfl (hsub _ hhead) ht.completed
  · rw [h.completed, append_assoc]
    rfl

omit [DecidableEq B] in
theorem State.Inv.noDesc (h : s.Inv A U) {desc : Nat → Desc B}
    (hdesc : ∀ i, s.disk.free i = false → desc i = s.disk.desc i) :
    ({ s with disk := { s.disk with desc := desc } } : State P B).Inv A U := by
  refine { h with tracks := fun p r hp => ?_ }
  have ht := h.tracks p r hp
  have hchain : ({ s.disk with desc := desc } : Disk B).Chain r :=
    ht.chain.congr (fun _ _ => rfl) fun i hi => hdesc i (ht.chain.taken i hi)
  exact { ht with chain := hchain }

theorem Disk.format_desc_of_notMem (blockno : B → Nat) (b : B) (write : Bool)
    {i i₀ i₁ i₂ : Nat} (hi : i ∉ [i₀, i₁, i₂]) :
    (d.format blockno b write i₀ i₁ i₂).desc i = d.desc i := by
  simp only [mem_cons, not_mem_nil, or_false, not_or] at hi
  show update (update (update d.desc i₀ _) i₁ _) i₂ _ i = d.desc i
  rw [update_of_ne hi.2.2, update_of_ne hi.2.1, update_of_ne hi.1]

theorem Disk.chain_format (blockno : B → Nat) (b : B) (write : Bool) {i₀ i₁ i₂ : Nat}
    (n : Nat) (hnodup : [i₀, i₁, i₂].Nodup) (hlt : ∀ i ∈ [i₀, i₁, i₂], i < NUM)
    (htaken : ∀ i ∈ [i₀, i₁, i₂], d.free i = false) :
    (d.format blockno b write i₀ i₁ i₂).Chain ⟨b, i₀, i₁, i₂, n⟩ := by
  have hne := hnodup
  simp only [nodup_cons, mem_cons, not_mem_nil, or_false, not_or] at hne
  have h0 : (d.format blockno b write i₀ i₁ i₂).desc i₀ = ⟨.op i₀, 16, VRING_DESC_F_NEXT, i₁⟩ := by
    show update (update (update d.desc i₀ _) i₁ _) i₂ _ i₀ = _
    rw [update_of_ne hne.1.2, update_of_ne hne.1.1, update_self]
  have h1 : (d.format blockno b write i₀ i₁ i₂).desc i₁ =
      ⟨.data b, BSIZE, (if write then 0 else VRING_DESC_F_WRITE) ||| VRING_DESC_F_NEXT, i₂⟩ := by
    show update (update (update d.desc i₀ _) i₁ _) i₂ _ i₁ = _
    rw [update_of_ne hne.2.1, update_self]
  have h2 : (d.format blockno b write i₀ i₁ i₂).desc i₂ = ⟨.status i₀, 1, VRING_DESC_F_WRITE, 0⟩ :=
    update_self ..
  have hnext : ∀ w : Bool,
      ((if w then 0 else VRING_DESC_F_WRITE) ||| VRING_DESC_F_NEXT) &&& VRING_DESC_F_NEXT ≠ 0 := by
    decide
  have hlast : VRING_DESC_F_WRITE &&& VRING_DESC_F_NEXT = 0 := by decide
  refine ⟨hlt, hnodup, htaken, ?_, ?_, ?_⟩
  · exact h0 ▸ ⟨hnext true, rfl⟩
  · exact h1 ▸ ⟨hnext write, rfl⟩
  · exact h2 ▸ ⟨hlast, rfl⟩

variable [DecidableEq P]

/-- The state after a request got its descriptors and was submitted. -/
def State.submitted (s : State P B) (p : P) (r : Req B) (d : Disk B) : State P B :=
  { s.setCall p (.waiting r) with
    disk := d
    reqs := s.reqs ++ [r.buf]
    owner := update s.owner r.i₀ s.reqs.length }

omit [DecidableEq B] in
theorem State.submitted_call (hq : (s.submitted p r d).call q = .waiting r') :
    (q = p ∧ r' = r) ∨ (q ≠ p ∧ s.call q = .waiting r') := by
  by_cases hqp : q = p
  · subst hqp
    have hself : (s.submitted q r d).call q = .waiting r := update_self ..
    cases hself.symm.trans hq
    exact .inl ⟨rfl, rfl⟩
  · have hother : (s.submitted p r d).call q = s.call q := update_of_ne hqp ..
    exact .inr ⟨hqp, hother.symm.trans hq⟩

-- The descriptors of the new request were free, so it shares none with a request in flight.
theorem State.Inv.submitted (h : s.Inv A U) (blockno : B → Nat) {b : B} {write : Bool}
    {i₀ i₁ i₂ : Nat} (hp : s.call p = .starting b write) (hnodup : [i₀, i₁, i₂].Nodup)
    (hfree : ∀ i ∈ [i₀, i₁, i₂], i < NUM ∧ s.disk.free i = true) :
    (s.submitted p ⟨b, i₀, i₁, i₂, s.reqs.length⟩
      ((({ s.disk with free := fun i => if i ∈ [i₀, i₁, i₂] then false else s.disk.free i } : Disk
        B).format blockno b write i₀ i₁ i₂).publish i₀)).Inv (A ++ [i₀]) U := by
  set d : Disk B := { s.disk with free := fun i => if i ∈
    [i₀, i₁, i₂] then false else s.disk.free i }
  have htaken : ∀ i ∈ [i₀, i₁, i₂], d.free i = false := fun i hi => if_pos hi
  have hchain := Disk.chain_format blockno b write s.reqs.length hnodup
    (fun i hi => (hfree i hi).1) htaken
  have hclash : ∀ q r', s.call q = .waiting r' → ∀ i ∈ r'.idx, i ∉ [i₀, i₁, i₂] := by
    intro q r' hq i hi hmem
    exact nomatch ((h.tracks q r' hq).chain.taken i hi).symm.trans (hfree i hmem).2
  have hhead : ∀ q r', s.call q = .waiting r' → r'.i₀ ≠ i₀ := fun q r' hq heq =>
    hclash q r' hq _ (mem_head r') (heq ▸ mem_cons_self)
  have hnew : i₀ ∉ A ++ (s.device.working ++ U) := by
    intro hmem
    obtain ⟨q, r', hq, heq⟩ := h.flying i₀ hmem
    exact hhead q r' hq heq
  have hserial : ∀ q r', s.call q = .waiting r' → r'.serial < s.reqs.length := fun q r' hq =>
    (List.getElem?_eq_some_iff.mp (h.tracks q r' hq).numbered).1
  have hwait : ∀ q r', s.call q = .waiting r' → q ≠ p := by
    rintro q r' hq rfl
    cases hp.symm.trans hq
  have hperm : ((A ++ [i₀]) ++ (s.device.working ++ U)).Perm
      (i₀ :: (A ++ (s.device.working ++ U))) := by
    rw [append_assoc]
    exact perm_middle
  have hmem : ∀ j, j ∈ (A ++ [i₀]) ++ (s.device.working ++ U) ↔
      j = i₀ ∨ j ∈ A ++ (s.device.working ++ U) :=
    fun j => hperm.mem_iff.trans mem_cons
  have hroom : A.length < NUM := by
    have hlen := State.Inv.room (nodup_cons.mpr ⟨hnew, h.nodup⟩) fun j hj => by
      rcases mem_cons.mp hj with rfl | hj
      · exact (hfree _ mem_cons_self).1
      · exact h.head_lt hj
    simp only [length_cons, length_append] at hlen
    omega
  refine { h with
    avail := h.avail.push dvd_num hroom
    nodup := hperm.nodup_iff.mpr (nodup_cons.mpr ⟨hnew, h.nodup⟩)
    flying := fun j hj => ?_
    tracks := fun q r' hq => ?_
    apart := fun q q' r' r'' hq hq' hne => ?_
    cover := fun i hi => ?_
    locked := fun q b' hq => ?_
    status := fun j hj => ?_
    completed := ?_
    known := fun n hn => ?_ }
  · rcases (hmem j).mp hj with rfl | hj
    · exact ⟨p, _, update_self .., rfl⟩
    · obtain ⟨q, r', hq, hj⟩ := h.flying j hj
      exact ⟨q, r', (update_of_ne (hwait q r' hq) ..).trans hq, hj⟩
  · rcases State.submitted_call hq with ⟨rfl, rfl⟩ | ⟨hqp, hq⟩
    · refine ⟨hchain.congr (fun _ _ => rfl) fun _ _ => rfl, ?_, ?_, ?_, ?_, ?_⟩
      · have hinfo : update s.disk.info i₀ ⟨some b, 255⟩ i₀ = ⟨some b, 255⟩ :=
          update_self ..
        exact congrArg Info.b hinfo
      · exact iff_of_true (update_self ..) ((hmem i₀).mpr (.inl rfl))
      · exact update_self ..
      · exact List.getElem?_concat_length
      · refine iff_of_false (fun hn => Nat.lt_irrefl _ (h.known _ hn)) (not_not.mpr ?_)
        exact mem_append_left _ mem_concat_self
    · have ht := h.tracks q r' hq
      have hne := hhead q r' hq
      have hbuf : r'.buf ≠ b := by
        intro heq
        have hlock := h.locked p b (by rw [hp]; rfl)
        rw [← heq, h.locked q r'.buf (by rw [hq]; rfl)] at hlock
        exact hqp (Option.some.inj hlock)
      refine ht.congr (ht.chain.congr (fun i hi => if_neg (hclash q r' hq i hi)) fun i hi =>
          Disk.format_desc_of_notMem blockno b write (hclash q r' hq i hi))
        (congrArg Info.b (update_of_ne hne ..)) (update_of_ne hbuf ..)
        (update_of_ne hne ..) ?_ ?_ ?_
      · exact List.getElem?_append_left (hserial q r' hq)
      · exact (hmem r'.i₀).trans (or_iff_right hne)
      · refine ht.completed.trans (not_congr ?_)
        show _ ↔ r'.i₀ ∈ A ++ [i₀] ++ s.device.working
        simp only [mem_append, mem_singleton, hne, or_false]
  · rcases State.submitted_call hq with ⟨rfl, rfl⟩ | ⟨hqp, hq⟩
    · rcases State.submitted_call hq' with ⟨rfl, rfl⟩ | ⟨-, hq'⟩
      · exact absurd rfl hne
      · exact ⟨fun i hi hi' => hclash q' r'' hq' i hi' hi, (hserial q' r'' hq').ne'⟩
    · rcases State.submitted_call hq' with ⟨-, rfl⟩ | ⟨-, hq'⟩
      · exact ⟨fun i hi hi' => hclash q r' hq i hi hi', (hserial q r' hq).ne⟩
      · exact h.apart q q' r' r'' hq hq' hne
  · by_cases hi' : i ∈ [i₀, i₁, i₂]
    · exact .inr ⟨p, _, update_self .., hi'⟩
    · rcases h.cover i hi with hif | ⟨q, r', hq, hir⟩
      · exact .inl ((if_neg hi').trans hif)
      · exact .inr ⟨q, r', (update_of_ne (hwait q r' hq) ..).trans hq, hir⟩
  · by_cases hqp : q = p
    · subst hqp
      have hself : update s.call q (.waiting ⟨b, i₀, i₁, i₂, s.reqs.length⟩) q =
          .waiting ⟨b, i₀, i₁, i₂, s.reqs.length⟩ := update_self ..
      cases (congrArg Call.buf? hself).symm.trans hq
      exact h.locked q b (by rw [hp]; rfl)
    · refine h.locked q b' ?_
      rw [← hq]
      exact congrArg Call.buf? (update_of_ne hqp ..).symm
  · have hne : j ≠ i₀ := by
      rintro rfl
      exact hnew (mem_append_right _ (mem_append_right _ hj))
    exact (congrArg Info.status (update_of_ne hne ..)).trans (h.status j hj)
  · refine h.completed.trans (congrArg _ (map_congr_left fun j hj => ?_))
    have hne : j ≠ i₀ := by
      rintro rfl
      exact hnew (mem_append_right _ (mem_append_right _ hj))
    exact (update_of_ne hne ..).symm
  · show n < (s.reqs ++ [b]).length
    rw [length_append]
    exact Nat.lt_of_lt_of_le (h.known n hn) (Nat.le_add_right ..)

omit [DecidableEq B] [DecidableEq P] in
-- A request that is no longer busy was completed, and its completion has been handled.
theorem State.Inv.mem_processed (h : s.Inv A U) (hp : s.call p = .waiting r)
    (hgone : r.i₀ ∉ A ++ (s.device.working ++ U)) : r.serial ∈ s.processed := by
  have hr := h.tracks p r hp
  rw [← append_assoc, mem_append, not_or] at hgone
  have hmem := hr.completed.mpr hgone.1
  rw [h.completed] at hmem
  refine (mem_append.mp hmem).resolve_right fun hused => ?_
  obtain ⟨j, hj, howner⟩ := mem_map.mp hused
  obtain ⟨q, r', hq, rfl⟩ := h.flying j (mem_append_right _ (mem_append_right _ hj))
  rw [(h.tracks q r' hq).owner] at howner
  by_cases hqp : q = p
  · subst hqp
    cases hp.symm.trans hq
    exact hgone.2 hj
  · exact (h.apart q p r' r hq hp hqp).2 howner

omit [DecidableEq B] in
theorem State.Inv.finish (h : s.Inv A U) (hp : s.call p = .waiting r)
    (hbusy : s.disk.busy r.buf ≠ true) : ∃ d, s.finish p r =
        .ok { s.setCall p .idle with disk := d, returned := s.returned ++ [r.serial] } ∧
      d.busy = s.disk.busy ∧ r.serial ∈ s.processed ∧
      ({ s.setCall p .idle with disk := d, returned := s.returned ++ [r.serial] } :
        State P B).Inv A U := by
  have hr := h.tracks p r hp
  have hgone : r.i₀ ∉ A ++ (s.device.working ++ U) := fun hmem => hbusy (hr.busy.mpr hmem)
  have hprocessed := h.mem_processed hp hgone
  have hchain : ({ s.disk with
      info := update s.disk.info r.i₀ { s.disk.info r.i₀ with b := none } } : Disk B).Chain r :=
    hr.chain.congr (fun _ _ => rfl) fun _ _ => rfl
  obtain ⟨desc, hok, hdesc⟩ := hchain.freeChain_ok
  refine ⟨{ s.disk with
    info := update s.disk.info r.i₀ { s.disk.info r.i₀ with b := none }
    free := fun i => if i ∈ r.idx then true else s.disk.free i
    desc := desc }, by rw [State.finish, hok]; rfl, rfl, hprocessed, ?_⟩
  have hcall : ∀ {q r'}, update s.call p .idle q = .waiting r' →
      q ≠ p ∧ s.call q = .waiting r' := by
    intro q r' hq
    by_cases hqp : q = p
    · rw [hqp, update_self] at hq
      cases hq
    · rw [update_of_ne hqp] at hq
      exact ⟨hqp, hq⟩
  have hstay : ∀ {q r'}, s.call q = .waiting r' → q ≠ p → update s.call p .idle q = .waiting r' :=
    fun hq hqp => (update_of_ne hqp ..).trans hq
  refine { h with
    flying := fun j hj => ?_
    tracks := fun q r' hq => ?_
    apart := fun q q' r' r'' hq hq' => h.apart q q' r' r'' (hcall hq).2 (hcall hq').2
    cover := fun i hi => ?_
    locked := fun q b' hq => ?_
    status := fun j hj => ?_
    returned := fun n hn => ?_ }
  · obtain ⟨q, r', hq, rfl⟩ := h.flying j hj
    refine ⟨q, r', hstay hq ?_, rfl⟩
    rintro rfl
    cases hp.symm.trans hq
    exact hgone hj
  · obtain ⟨hqp, hq⟩ := hcall hq
    have ht := h.tracks q r' hq
    have hdisjoint := (h.apart q p r' r hq hp hqp).1
    have hne : r'.i₀ ≠ r.i₀ := fun heq => hdisjoint (mem_head r') (heq ▸ mem_head r)
    have hkept : ∀ i ∈ r'.idx, i ∉ r.idx := fun i hi hi' => hdisjoint hi hi'
    exact ht.congr (ht.chain.congr (fun i hi => if_neg (hkept i hi)) fun i hi =>
      hdesc i (hkept i hi)) (congrArg Info.b (update_of_ne hne ..)) rfl rfl rfl Iff.rfl ht.completed
  · by_cases hir : i ∈ r.idx
    · exact .inl (if_pos hir)
    · rcases h.cover i hi with hfree | ⟨q, r', hq, hir'⟩
      · exact .inl ((if_neg hir).trans hfree)
      · refine .inr ⟨q, r', hstay hq ?_, hir'⟩
        rintro rfl
        cases hp.symm.trans hq
        exact hir hir'
  · have hq : (update s.call p .idle q).buf? = some b' := hq
    by_cases hqp : q = p
    · rw [hqp, update_self] at hq
      cases hq
    · rw [update_of_ne hqp] at hq
      exact h.locked q b' hq
  · show (update s.disk.info r.i₀ { s.disk.info r.i₀ with b := none } j).status = 0
    by_cases hjr : j = r.i₀
    · rw [hjr, update_self, ← hjr]
      exact h.status j hj
    · rw [update_of_ne hjr]
      exact h.status j hj
  · rcases mem_append.mp hn with hn | hn
    · exact h.returned n hn
    · rwa [mem_singleton.mp hn]

end Driver

end Invariant

end OsProjects.Kernel.Virtio
