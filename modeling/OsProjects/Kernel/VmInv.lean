import OsProjects.Kernel.VmCalls

/-!
# VmInv — whose every page is

Every page that can be allocated is on the free list or belongs to one process.  A process that is
not in a call has its address space and nothing else; one that is dead has nothing, though its slot
may be in the hands of another.
-/

namespace OsProjects.Kernel.Vm

open Lib Function Option

/-! ## Parts of memory -/

/-- Two parts of memory together. -/
def join (F G : Heap Nat Idx Nat) : Heap Nat Idx Nat := fun a => (F a).or (G a)

theorem join_none (F : Heap Nat Idx Nat) : join F (fun _ => none) = F := funext fun _ => or_none

section Space

variable {k : Image} {F G heap : Heap Nat Idx Nat} {x : Proc}

theorem Space.pagetable_ne_zero (h : Space k F heap x) : x.pagetable ≠ 0 := by
  obtain ⟨-, -, t, place, flags, h⟩ := h
  exact (h.valid _ _ h.root).ne_zero

/-- What is around an address space does not matter to it. -/
theorem Space.reframe (h : Space k F heap x) {F' heap' : Heap Nat Idx Nat}
    (hin : ∀ a, F a = none → heap a ≠ none → F' a = none ∧ heap' a = heap a)
    (hout : ∀ a, F a = none → heap a = none → heap' a = F' a)
    (hframe : ∀ a, F a ≠ none → heap' a = F' a) : Space k F' heap' x := by
  obtain ⟨hF, htf, t, place, flags, h⟩ := h
  have htrap : update F x.trapframe (some t) x.trapframe ≠ none := by
    rw [update_self]
    nofun
  have hheap : heap x.trapframe = some t := (h.radix.heap_of_frame htrap).trans (update_self ..)
  obtain ⟨hF', hheap'⟩ := hin x.trapframe hF (by rw [hheap]; nofun)
  refine ⟨hF', htf, t, place, flags,
    { h with radix := h.radix.reframe (fun ρ a hρ => ?_) fun a ha => ?_ }⟩
  · have hne : a ≠ x.trapframe := by
      rintro rfl
      exact h.radix.not_place_of_frame htrap ρ hρ
    have hFa := h.radix.outside ρ a hρ
    rw [update_of_ne hne] at hFa ⊢
    exact hin a hFa (h.radix.inside ρ a hρ)
  · by_cases hne : a = x.trapframe
    · rw [hne, update_self, hheap', hheap]
    · have hframe' := h.radix.frame a ha
      rw [update_of_ne hne] at hframe' ⊢
      by_cases hFa : F a = none
      · exact hout a hFa (hframe'.trans hFa)
      · exact hframe a hFa

theorem Space.split (h : Space k F heap x) :
    ∃ G, (∀ a, F a = none ∨ G a = none) ∧ heap = join F G ∧ Space k (fun _ => none) G x := by
  refine ⟨fun a => if F a = none then heap a else none, fun a => ?_, ?_,
    h.reframe (fun a ha _ => ⟨rfl, if_pos ha⟩) (fun a ha hno => (if_pos ha).trans hno)
      fun a ha => if_neg ha⟩
  · by_cases ha : F a = none
    · exact .inl ha
    · exact .inr (if_neg ha)
  · funext a
    unfold join
    cases ha : F a with
    | none => exact (if_pos ha).symm
    | some t =>
      rw [h.heap_of_frame (by rw [ha]; nofun), ha]
      rfl

theorem Space.join (h : Space k (fun _ => none) G x) (hapart : ∀ a, F a = none ∨ G a = none) :
    Space k F (join F G) x := by
  have hF : ∀ a, G a ≠ none → F a = none := fun a ha => (hapart a).resolve_right ha
  refine h.reframe (fun a _ ha => ⟨hF a ha, ?_⟩) (fun a _ ha => ?_) fun a ha => absurd rfl ha
  · rw [Vm.join, hF a ha]
    rfl
  · rw [Vm.join, ha, or_none]

end Space

/-! ## Pages -/

/-- `pages` are the pages that can be allocated, `own` what is in those of each process. -/
structure Pages {P : Type} (k : Image) (pages : Nat → Prop) (mem : Nat → Words)
    (freelist : List Nat) (own : P → Heap Nat Idx Nat) : Prop where
  valid : ∀ a, pages a → k.Valid a
  nodup : freelist.Nodup
  free : ∀ a, a ∈ freelist ↔ pages a ∧ ∀ p, own p a = none
  inside : ∀ p a, own p a ≠ none → pages a
  apart : ∀ p q a, own p a ≠ none → own q a ≠ none → p = q
  agree : ∀ p a t, own p a = some t → mem a = t

namespace Pages

variable {P : Type} [DecidableEq P] {k : Image} {pages : Nat → Prop} {mem : Nat → Words}
  {freelist : List Nat} {own : P → Heap Nat Idx Nat} {p q : P} {a : Nat}

/-- Page `a`, which no other process has, changes, and whether `p` has it. -/
theorem change (h : Pages k pages mem freelist own) (hpage : pages a)
    (hothers : ∀ q ≠ p, own q a = none) {t : Words} {o : Option Words}
    (ho : ∀ u, o = some u → u = t) {freelist' : List Nat}
    (hnodup : freelist'.Nodup) (hlist : a ∈ freelist' ↔ o = none)
    (hrest : ∀ b ≠ a, (b ∈ freelist' ↔ b ∈ freelist)) :
    Pages k pages (update mem a t) freelist' (update own p (update (own p) a o)) := by
  have hself : update own p (update (own p) a o) p a = o := by
    rw [update_self, update_self]
  have hother : ∀ q ≠ p, update own p (update (own p) a o) q a = none := fun q hq => by
    rw [update_of_ne hq]
    exact hothers q hq
  have hold : ∀ q, ∀ b ≠ a, update own p (update (own p) a o) q b = own q b := by
    intro q b hb
    by_cases hq : q = p
    · rw [hq, update_self, update_of_ne hb]
    · rw [update_of_ne hq]
  -- only `p` can have page `a`
  have hone : ∀ q, update own p (update (own p) a o) q a ≠ none → q = p := fun q hq => by
    by_contra hne
    exact hq (hother q hne)
  refine ⟨h.valid, hnodup, fun b => ?_, fun q b hb => ?_, fun q r b hq hr => ?_, fun q b u hu => ?_⟩
  · by_cases hb : b = a
    · subst hb
      rw [hlist]
      refine ⟨fun hnone => ⟨hpage, fun q => ?_⟩, fun hnone => hself.symm.trans (hnone.2 p)⟩
      by_cases hq : q = p
      · rw [hq, hself, hnone]
      · exact hother q hq
    · rw [hrest b hb, h.free b]
      exact and_congr_right fun _ => forall_congr' fun q => by rw [hold q b hb]
  · by_cases hb' : b = a
    · exact hb' ▸ hpage
    · rw [hold q b hb'] at hb
      exact h.inside q b hb
  · by_cases hb : b = a
    · subst hb
      rw [hone q hq, hone r hr]
    · rw [hold q b hb] at hq
      rw [hold r b hb] at hr
      exact h.apart q r b hq hr
  · by_cases hb : b = a
    · subst hb
      cases hone q (by rw [hu]; nofun)
      rw [update_self, ho u (hself.symm.trans hu)]
    · rw [hold q b hb] at hu
      rw [update_of_ne hb]
      exact h.agree q b u hu

omit [DecidableEq P] in
theorem others (h : Pages k pages mem freelist own) (ha : own p a ≠ none) :
    ∀ q ≠ p, own q a = none := by
  intro q hq
  by_contra hqa
  exact hq (h.apart q p a hqa ha)

theorem write (h : Pages k pages mem freelist own) (ha : own p a ≠ none) (t : Words) :
    Pages k pages (update mem a t) freelist
      (update own p (update (own p) a (some t))) := by
  refine h.change (h.inside p a ha) (h.others ha) (fun u hu => (Option.some.inj hu).symm) h.nodup ?_
    fun _ _ => Iff.rfl
  exact iff_of_false (fun hno => ha (((h.free a).mp hno).2 p)) nofun

theorem take (h : Pages k pages mem (a :: freelist) own) (p : P) (t : Words) :
    k.Valid a ∧ own p a = none ∧ Pages k pages (update mem a t) freelist
      (update own p (update (own p) a (some t))) := by
  obtain ⟨hpage, hfree⟩ := (h.free a).mp List.mem_cons_self
  obtain ⟨hnot, hnodup⟩ := List.nodup_cons.mp h.nodup
  refine ⟨h.valid a hpage, hfree p,
    h.change hpage (fun q _ => hfree q) (fun u hu => (Option.some.inj hu).symm)
    hnodup (iff_of_false hnot nofun) fun b hb => ?_⟩
  rw [List.mem_cons, or_iff_right hb]

theorem give (h : Pages k pages mem freelist own) (ha : own p a ≠ none) (t : Words) :
    k.Valid a ∧ Pages k pages (update mem a t) (a :: freelist)
      (update own p (update (own p) a none)) := by
  have hpage := h.inside p a ha
  have hnot : a ∉ freelist := fun hno => ha (((h.free a).mp hno).2 p)
  refine ⟨h.valid a hpage, h.change (o := none) hpage (h.others ha) nofun
    (List.nodup_cons.mpr ⟨hnot, h.nodup⟩)
    (iff_of_true List.mem_cons_self rfl) fun b hb => ?_⟩
  rw [List.mem_cons, or_iff_right hb]

omit [DecidableEq P] in
/-- What the processes have is dealt out anew: page by page, they change places. -/
theorem deal (h : Pages k pages mem freelist own) {own' : P → Heap Nat Idx Nat}
    (hperm : ∀ a, ∃ σ : Equiv.Perm P, ∀ r, own' r a = own (σ r) a) :
    Pages k pages mem freelist own' := by
  refine ⟨h.valid, h.nodup, fun a => ?_, fun q a => ?_, fun q r a => ?_, fun q a t => ?_⟩
  all_goals
    obtain ⟨σ, hσ⟩ := hperm a
    simp only [hσ]
  · rw [h.free a, σ.forall_congr_right (q := fun r => own r a = none)]
  · exact h.inside (σ q) a
  · exact fun hq hr => σ.injective (h.apart _ _ a hq hr)
  · exact h.agree (σ q) a t

/-- Two processes share what they have in another way. -/
theorem regroup (h : Pages k pages mem freelist own) (hpq : p ≠ q) {F G : Heap Nat Idx Nat}
    (hsum : join F G = join (own p) (own q)) (hapart : ∀ a, F a = none ∨ G a = none) :
    Pages k pages mem freelist (update (update own p F) q G) := by
  refine h.deal fun a => ?_
  have hown : own p a = none ∨ own q a = none := by
    by_contra hno
    obtain ⟨hp, hq⟩ := not_or.mp hno
    exact hpq (h.apart p q a hp hq)
  have hjoin := congrFun hsum a
  unfold join at hjoin
  -- page `a` stays with its owner, or goes to the other of the two
  have hcase : F a = own p a ∧ G a = own q a ∨ F a = own q a ∧ G a = own p a := by
    rcases hapart a with hF | hG <;> rcases hown with hp | hq <;> simp_all
  have hall (σ : Equiv.Perm P) (hp : F a = own (σ p) a) (hq : G a = own (σ q) a)
      (hrest : ∀ r, r ≠ p → r ≠ q → σ r = r) :
      ∀ r, update (update own p F) q G r a = own (σ r) a := by
    intro r
    by_cases hrq : r = q
    · rw [hrq, update_self, hq]
    · rw [update_of_ne hrq]
      by_cases hrp : r = p
      · rw [hrp, update_self, hp]
      · rw [update_of_ne hrp, hrest r hrp hrq]
  rcases hcase with ⟨hF, hG⟩ | ⟨hF, hG⟩
  · exact ⟨.refl P, hall _ hF hG fun _ _ _ => rfl⟩
  · exact ⟨.swap p q, hall _ (by rwa [Equiv.swap_apply_left]) (by rwa [Equiv.swap_apply_right])
      fun _ => Equiv.swap_apply_of_ne_of_ne⟩

end Pages

/-! ## Processes -/

/-- What a process is doing, and what it has. -/
inductive Role {P : Type} (k : Image) : Loc P → Life → Proc → Heap Nat Idx Nat → Prop
  | gone {life x} : life ≠ .running → life ≠ .zombie → Role k .out life x fun _ => none
  | rests {life x heap} : life = .running ∨ life = .zombie → Space k (fun _ => none) heap x →
    Role k .out life x heap
  | calls {x heap slot} : Role k ⟨true, heap, some x, slot⟩ .running x heap
  | boots {life x heap slot} : life = .unused ∨ life = .used →
      Role k ⟨true, heap, none, slot⟩ life x heap

variable {y : Proc}

namespace Role

variable {P : Type} {k : Image} {l : Loc P} {life : Life} {x : Proc} {heap : Heap Nat Idx Nat}

theorem out (h : Role k l life x heap) (hidle : l.active = false) : l = .out := by
  cases h with
  | gone | rests => rfl
  | calls | boots => cases hidle

/-- A process that is between two calls and alive has its address space. -/
theorem space (h : Role k l life x heap) (hidle : l.Idle k)
    (hlive : life = .running ∨ life = .zombie) : Space k (fun _ => none) heap x := by
  cases h with
  | gone hrun hzombie => exact (hlive.elim hrun hzombie).elim
  | rests _ hspace => exact hspace
  | calls =>
    obtain ⟨y, hy, hspace⟩ := hidle.space rfl
    cases hy
    exact hspace
  | boots hlife =>
    obtain ⟨y, hy, -⟩ := hidle.space rfl
    cases hy

theorem of_zombie (h : Role k l .zombie x heap) : l = .out ∧ Space k (fun _ => none) heap x := by
  cases h with
  | gone _ hno => exact absurd rfl hno
  | rests _ hspace => exact ⟨rfl, hspace⟩
  | boots hlife =>
    rcases hlife with hlife | hlife
    · cases hlife
    · cases hlife

section

variable (h : Role k l life x heap)
include h

theorem none_of_dead (hidle : l.Idle k) (hrun : life ≠ .running)
    (hzombie : life ≠ .zombie) : heap = fun _ => none := by
  cases h with
  | gone => rfl
  | rests hlive => exact (hlive.elim hrun hzombie).elim
  | calls => exact absurd rfl hrun
  | boots hlife =>
    obtain ⟨y, hy, -⟩ := hidle.space rfl
    cases hy

theorem heap_eq (hactive : l.active = true) : heap = l.heap := by
  cases h with
  | gone | rests => cases hactive
  | calls | boots => rfl

theorem setHeap (hactive : l.active = true) (heap' : Heap Nat Idx Nat) :
    Role k (l.setHeap heap') life x heap' := by
  cases h with
  | gone | rests => cases hactive
  | calls => exact .calls
  | boots hlife => exact .boots hlife

theorem setSlot (hactive : l.active = true) (slot : Option (P × Proc)) :
    Role k { l with slot := slot } life x heap := by
  cases h with
  | gone | rests => cases hactive
  | calls => exact .calls
  | boots hlife => exact .boots hlife

theorem setSelf (hself : l.self = some y) (x' : Proc) :
    Role k { l with self := some x' } life x' heap := by
  cases h with
  | gone | rests => cases hself
  | calls => exact .calls
  | boots => cases hself

/-- A slot that is taken can be filled as one likes. -/
theorem setProc (hrun : life ≠ .running) (hzombie : life ≠ .zombie) (x' : Proc) :
    Role k l life x' heap := by
  cases h with
  | gone => exact .gone hrun hzombie
  | rests hlive => exact (hlive.elim hrun hzombie).elim
  | calls => exact absurd rfl hrun
  | boots hlife => exact .boots hlife

theorem setLife (hrun : life ≠ .running) (hzombie : life ≠ .zombie) {life' : Life}
    (hlife' : life' = .unused ∨ life' = .used) : Role k l life' x heap := by
  cases h with
  | gone =>
    rcases hlife' with rfl | rfl
    · exact .gone nofun nofun
    · exact .gone nofun nofun
  | rests hlive => exact (hlive.elim hrun hzombie).elim
  | calls => exact absurd rfl hrun
  | boots => exact .boots hlife'

end

end Role

/-- The slot that `p` has taken, if any, is as `p` knows it, and nobody else has taken it. -/
def Takes {P : Type} (proc : P → Proc) (life : P → Life) (locs : P → Loc P) (p : P)
    (slot : Option (P × Proc)) : Prop :=
  ∀ np x, slot = some (np, x) → proc np = x ∧ (life np = .used ∨ life np = .freeing) ∧
    ∀ q ≠ p, ∀ y, (locs q).slot ≠ some (np, y)

structure Owners {P : Type} (k : Image) (init : P) (proc : P → Proc) (life : P → Life)
    (booted : Bool) (locs : P → Loc P) (own : P → Heap Nat Idx Nat) : Prop where
  role : ∀ p, Role k (locs p) (life p) (proc p) (own p)
  slot : ∀ p, Takes proc life locs p (locs p).slot
  unused : ∀ p, life p = .unused → proc p = .zero
  boot : ∀ p, (locs p).active = true → (locs p).self = none →
    p = init ∧ booted = true ∧ ∀ q, q ≠ p → locs q = .out ∧ life q ≠ .running
  unbooted : booted = false → ∀ p, locs p = .out ∧ life p = .unused

variable {x : Proc} {v : Life}

namespace Owners

variable {P : Type} {k : Image} {init p np : P} {proc proc' : P → Proc} {life life' : P → Life}
  {booted : Bool} {locs : P → Loc P} {own own' : P → Heap Nat Idx Nat} {l : Loc P}

/-- A process whose slot another has taken is not alive. -/
theorem taken (h : Owners k init proc life booted locs own)
    (hslot : (locs p).slot = some (np, x)) : life np ≠ .running ∧ life np ≠ .zombie := by
  rcases (h.slot p np x hslot).2.1 with hlife | hlife
  · rw [hlife]
    exact ⟨nofun, nofun⟩
  · rw [hlife]
    exact ⟨nofun, nofun⟩

theorem self_eq (h : Owners k init proc life booted locs own) (hself : (locs p).self = some x) :
    (locs p).active = true ∧ proc p = x ∧ life p = .running := by
  have hrole := h.role p
  generalize locs p = l at hrole hself
  generalize own p = heap at hrole
  generalize life p = life at hrole ⊢
  generalize proc p = y at hrole ⊢
  cases hrole with
  | gone | rests => cases hself
  | calls => exact ⟨rfl, Option.some.inj hself, rfl⟩
  | boots => cases hself

variable [DecidableEq P]

theorem running_of_update {q : P} (hv : v ≠ .running)
    (hq : update life np v q = .running) : life q = .running := by
  by_cases hqnp : q = np
  · rw [hqnp, update_self] at hq
    exact absurd hq hv
  · rwa [update_of_ne hqnp] at hq

section

variable (h : Owners k init proc life booted locs own)
include h

theorem unused_update (v : Life) (hv : v ≠ .unused) (np : P) :
    ∀ q, update life np v q = .unused → proc q = .zero :=
  (forall_update_iff life fun q v => v = .unused → proc q = .zero).mpr
    ⟨fun hno => absurd hno hv, fun q _ => h.unused q⟩

/-- An action of `p`: each clause for `p`, and what the others see of it. -/
theorem step (hon : (locs p).active = true ∨ life p = .running)
    (hrole : Role k l (life' p) (proc' p) (own' p) ∧
      ∀ q, q ≠ p → Role k (locs q) (life' q) (proc' q) (own' q))
    (hslot : Takes proc' life' locs p l.slot)
    (hothers : ∀ q, q ≠ p → ∀ np x, (locs q).slot = some (np, x) →
      proc' np = proc np ∧ life' np = life np)
    (hunused : ∀ q, life' q = .unused → proc' q = .zero)
    (hboot : l.active = true → l.self = none → (locs p).active = true ∧ (locs p).self = none ∧
      ∀ q, q ≠ p → life' q = .running → life q = .running) :
    Owners k init proc' life' booted (update locs p l) own' := by
  refine ⟨(forall_update_iff locs fun q l => Role k l (life' q) (proc' q) (own' q)).mpr hrole,
    fun q np x hx => ?_, hunused, fun q hactive hself => ?_, fun hno => ?_⟩
  · by_cases hqp : q = p
    · subst hqp
      rw [update_self] at hx
      refine ⟨(hslot np x hx).1, (hslot np x hx).2.1, fun r hr y => ?_⟩
      rw [update_of_ne hr]
      exact (hslot np x hx).2.2 r hr y
    · rw [update_of_ne hqp] at hx
      obtain ⟨hproc, hlife⟩ := hothers q hqp np x hx
      rw [hproc, hlife]
      refine ⟨(h.slot q np x hx).1, (h.slot q np x hx).2.1, fun r hr y => ?_⟩
      by_cases hrp : r = p
      · rw [hrp, update_self]
        exact fun hy => (hslot np y hy).2.2 q hqp x hx
      · rw [update_of_ne hrp]
        exact (h.slot q np x hx).2.2 r hr y
  · by_cases hqp : q = p
    · subst hqp
      rw [update_self] at hactive hself
      obtain ⟨hactive', hself', hlife⟩ := hboot hactive hself
      obtain ⟨hinit, hbooted, hrest⟩ := h.boot q hactive' hself'
      refine ⟨hinit, hbooted, fun r hr => ?_⟩
      rw [update_of_ne hr]
      exact ⟨(hrest r hr).1, fun hrun => (hrest r hr).2 (hlife r hr hrun)⟩
    · rw [update_of_ne hqp] at hactive hself
      obtain ⟨hout, hno⟩ := (h.boot q hactive hself).2.2 p (Ne.symm hqp)
      rw [hout] at hon
      exact (hon.elim nofun hno).elim
  · obtain ⟨hout, hunused'⟩ := h.unbooted hno p
    rw [hout, hunused'] at hon
    rcases hon with hon | hon
    · cases hon
    · cases hon

theorem setHeap (hactive : (locs p).active = true) (heap : Heap Nat Idx Nat) :
    Owners k init proc life booted (update locs p ((locs p).setHeap heap))
      (update own p heap) := by
  refine h.step (.inl hactive) ⟨?_, fun q hq => ?_⟩ (h.slot p) (fun _ _ _ _ _ => ⟨rfl, rfl⟩)
    h.unused fun _ hself => ⟨hactive, hself, fun _ _ => id⟩
  · rw [update_self]
    exact (h.role p).setHeap hactive heap
  · rw [update_of_ne hq]
    exact h.role q

theorem setSelf (hself : (locs p).self = some x) (x' : Proc) :
    Owners k init (update proc p x') life booted (update locs p { locs p with self := some x' })
      own := by
  obtain ⟨hactive, hproc, hlife⟩ := h.self_eq hself
  -- nobody has taken the slot of a process that runs
  have hne : ∀ {q np y}, (locs q).slot = some (np, y) → np ≠ p := by
    rintro q np y hslot rfl
    exact (h.taken hslot).1 hlife
  refine h.step (.inl hactive) ⟨?_, fun q hq => ?_⟩ (fun np y hy => ?_)
    (fun q hq np y hy => ⟨update_of_ne (hne hy) .., rfl⟩)
    ((forall_update_iff proc fun q x => life q = .unused → x = .zero).mpr
      ⟨fun hno => (nomatch hlife.symm.trans hno), fun q _ => h.unused q⟩) fun _ hno => nomatch hno
  · rw [update_self]
    exact (h.role p).setSelf hself x'
  · rw [update_of_ne hq]
    exact h.role q
  · rw [update_of_ne (hne hy)]
    exact h.slot p np y hy

/-- `p` writes to the slot that it has taken. -/
theorem setSlot (hslot : (locs p).slot = some (np, x)) (hactive : (locs p).active = true)
    (x' : Proc) : Owners k init (update proc np x') life booted
      (update locs p { locs p with slot := some (np, x') }) own := by
  obtain ⟨hrun, hzombie⟩ := h.taken hslot
  obtain ⟨-, hlife, hfree⟩ := h.slot p np x hslot
  have hrole := (forall_update_iff proc fun q x => Role k (locs q) (life q) x (own q)).mpr
    ⟨(h.role np).setProc hrun hzombie x', fun q _ => h.role q⟩
  refine h.step (.inl hactive) ⟨(hrole p).setSlot hactive _, fun q _ => hrole q⟩ ?_
    (fun q hq np' y hy => ?_) ((forall_update_iff proc fun q x => life q = .unused → x = .zero).mpr
      ⟨fun hno => ?_, fun q _ => h.unused q⟩) fun _ hself => ⟨hactive, hself, fun _ _ => id⟩
  · rintro np' y hy
    cases hy
    exact ⟨update_self .., hlife, hfree⟩
  · have hne : np' ≠ np := by
      rintro rfl
      exact hfree q hq y hy
    exact ⟨update_of_ne hne .., rfl⟩
  · rcases hlife with hlife | hlife
    · cases hlife.symm.trans hno
    · cases hlife.symm.trans hno

theorem found (hactive : (locs p).active = true) (hnp : life np = .unused) :
    Owners k init proc (update life np .used) booted
      (update locs p { locs p with slot := some (np, .zero) }) own := by
  have hne : ∀ {q np' y}, (locs q).slot = some (np', y) → np' ≠ np := by
    rintro q np' y hslot rfl
    rcases (h.slot q np' y hslot).2.1 with hlife | hlife
    · cases hnp.symm.trans hlife
    · cases hnp.symm.trans hlife
  have hrole := (forall_update_iff life fun q v => Role k (locs q) v (proc q) (own q)).mpr
    ⟨(h.role np).setLife (by rw [hnp]; nofun) (by rw [hnp]; nofun) (.inr rfl), fun q _ => h.role q⟩
  refine h.step (.inl hactive) ⟨(hrole p).setSlot hactive _, fun q _ => hrole q⟩ ?_
    (fun q _ np' y hy => ⟨rfl, update_of_ne (hne hy) ..⟩)
    (h.unused_update .used nofun np) fun _ hself =>
      ⟨hactive, hself, fun _ _ => running_of_update nofun⟩
  rintro np' y hy
  cases hy
  exact ⟨h.unused np hnp, .inl (update_self ..), fun q _ z hz => hne hz rfl⟩

theorem freed (hslot : (locs p).slot = some (np, .zero)) (hactive : (locs p).active = true) :
    Owners k init proc (update life np .unused) booted
      (update locs p { locs p with slot := none }) own := by
  obtain ⟨hrun, hzombie⟩ := h.taken hslot
  have hrole := (forall_update_iff life fun q v => Role k (locs q) v (proc q) (own q)).mpr
    ⟨(h.role np).setLife hrun hzombie (.inl rfl), fun q _ => h.role q⟩
  refine h.step (.inl hactive) ⟨(hrole p).setSlot hactive _, fun q _ => hrole q⟩
    (fun _ _ hno => nomatch hno) (fun q hq np' y hy => ⟨rfl, update_of_ne ?_ ..⟩)
    ((forall_update_iff life fun q v => v = .unused → proc q = .zero).mpr
      ⟨fun _ => (h.slot p np .zero hslot).1, fun q _ => h.unused q⟩)
    fun _ hself => ⟨hactive, hself, fun _ _ => running_of_update nofun⟩
  rintro rfl
  exact (h.slot p np' .zero hslot).2.2 q hq y hy

end

omit [DecidableEq P] in
/-- Who has taken the slot of another is alone with it. -/
theorem slot_out (h : Owners k init proc life booted locs own)
    (hslot : (locs p).slot = some (np, x)) (hself : (locs p).self = some y) :
    np ≠ p ∧ locs np = .out ∧ own np = fun _ => none := by
  obtain ⟨hactive, -, hlife⟩ := h.self_eq hself
  obtain ⟨hrun, hzombie⟩ := h.taken hslot
  have hne : np ≠ p := by
    rintro rfl
    exact hrun hlife
  have hout : (locs np).active = false := by
    by_contra hon
    rw [Bool.not_eq_false] at hon
    cases hnp : (locs np).self with
    | none =>
      have hp := ((h.boot np hon hnp).2.2 p hne.symm).1
      rw [hp] at hactive
      cases hactive
    | some z => exact hrun (h.self_eq hnp).2.2
  have hloc := (h.role np).out hout
  have hidle : (locs np).Idle k := by
    rw [hloc]
    exact ⟨rfl, nofun⟩
  exact ⟨hne, hloc, (h.role np).none_of_dead hidle hrun hzombie⟩

section

variable (h : Owners k init proc life booted locs own)
include h

/-- The slot that `p` has filled comes to life, with a part of what `p` has. -/
theorem release
    (hv : v = .running ∨ v = .zombie) (hslot : (locs p).slot = some (np, x))
    (hself : (locs p).self = some y) (F : Heap Nat Idx Nat) {G : Heap Nat Idx Nat}
    (hspace : Space k (fun _ => none) G x) :
    Owners k init proc (update life np v) booted (update locs p ⟨true, F, some y, none⟩)
      (update (update own p F) np G) := by
  obtain ⟨hactive, hproc, hlife⟩ := h.self_eq hself
  obtain ⟨hne, hout, -⟩ := h.slot_out hslot hself
  refine h.step (.inl hactive) ⟨?_, fun q hq => ?_⟩ (fun _ _ hno => nomatch hno)
    (fun q hq np' y hy => ⟨rfl, update_of_ne ?_ ..⟩)
    (h.unused_update v (by rcases hv with rfl | rfl <;> exact nofun) np) fun _ hno => nomatch hno
  · rw [update_of_ne hne.symm, update_of_ne hne.symm, update_self, hlife, hproc]
    exact .calls
  · by_cases hqnp : q = np
    · rw [hqnp, update_self, update_self, hout, (h.slot p np x hslot).1]
      exact .rests hv hspace
    · rw [update_of_ne hqnp, update_of_ne hqnp, update_of_ne hq]
      exact h.role q
  · rintro rfl
    exact (h.slot p np' x hslot).2.2 q hq y hy

/-- `p` leaves the kernel for good, or `userinit` ends; its address space stays. -/
theorem leave (hv : v = .running ∨ v = .zombie)
    (hactive : (locs p).active = true) (hfree : ∀ q ≠ p, ∀ y, (locs q).slot ≠ some (p, y))
    (hspace : Space k (fun _ => none) (own p) (proc p)) :
    Owners k init proc (update life p v) booted (update locs p .out) own := by
  refine h.step (.inl hactive) ⟨?_, fun q hq => ?_⟩ (fun _ _ hno => nomatch hno)
    (fun q hq np y hy => ⟨rfl, update_of_ne ?_ ..⟩)
    (h.unused_update v (by rcases hv with rfl | rfl <;> exact nofun) p) nofun
  · rw [update_self]
    exact .rests hv hspace
  · rw [update_of_ne hq]
    exact h.role q
  · rintro rfl
    exact hfree q hq y hy

theorem reap {q : P} {y : Proc} (hself : (locs p).self = some y)
    (hq : life q = .zombie) (heap : Heap Nat Idx Nat) :
    q ≠ p ∧ Space k (fun _ => none) (own q) (proc q) ∧
      Owners k init proc (update life q .freeing) booted
        (update locs p { locs p with heap := heap, slot := some (q, proc q) })
        (update (update own p heap) q fun _ => none) := by
  obtain ⟨hactive, hproc, hlife⟩ := h.self_eq hself
  have hne : q ≠ p := by
    rintro rfl
    cases hq.symm.trans hlife
  have hfree : ∀ {r np z}, (locs r).slot = some (np, z) → np ≠ q := by
    rintro r np z hslot rfl
    exact (h.taken hslot).2 hq
  obtain ⟨hout, hspace⟩ := (hq ▸ h.role q).of_zombie
  refine ⟨hne, hspace, h.step (.inl hactive) ⟨?_, fun r hr => ?_⟩ (fun np z hz => ?_)
    (fun r hr np z hz => ⟨rfl, update_of_ne (hfree hz) ..⟩)
    (h.unused_update .freeing nofun q) fun _ hno => nomatch hself.symm.trans hno⟩
  · rw [update_of_ne hne.symm, update_of_ne hne.symm, update_self]
    exact ((h.role p).setHeap hactive heap).setSlot hactive _
  · by_cases hrq : r = q
    · rw [hrq, update_self, update_self, hout]
      exact .gone nofun nofun
    · rw [update_of_ne hrq, update_of_ne hrq, update_of_ne hr]
      exact h.role r
  · cases hz
    exact ⟨rfl, .inr (update_self ..), fun r _ w hw => hfree hw rfl⟩

theorem userinit (hbooted : booted = false) :
    Owners k init proc life true (update locs init ⟨true, fun _ => none, none, none⟩) own := by
  have hall := h.unbooted hbooted
  have hslot : ∀ q, (update locs init ⟨true, fun _ => none, none, none⟩ q).slot = none := by
    intro q
    by_cases hq : q = init
    · rw [hq, update_self]
    · rw [update_of_ne hq, (hall q).1]
      rfl
  refine ⟨fun q => ?_, fun q np x hx => ?_, h.unused, fun q hactive hself => ?_, nofun⟩
  · have hrole := h.role q
    by_cases hq : q = init
    · subst hq
      have hidle : (locs q).Idle k := by
        rw [(hall q).1]
        exact ⟨rfl, nofun⟩
      rw [update_self,
        hrole.none_of_dead hidle (by rw [(hall q).2]; nofun) (by rw [(hall q).2]; nofun)]
      exact .boots (.inl (hall q).2)
    · rwa [update_of_ne hq]
  · cases (hslot q).symm.trans hx
  · by_cases hq : q = init
    · refine ⟨hq, rfl, fun r hr => ?_⟩
      rw [update_of_ne (hq ▸ hr), (hall r).2]
      exact ⟨(hall r).1, nofun⟩
    · rw [update_of_ne hq, (hall q).1] at hactive
      cases hactive

theorem enter (hlife : life p = .running)
    (hidle : (locs p).Idle k) : Space k (fun _ => none) (own p) (proc p) ∧
      Owners k init proc life booted (update locs p ⟨true, own p, some (proc p), none⟩) own := by
  refine ⟨(h.role p).space hidle (.inl hlife),
    h.step (.inr hlife) ⟨?_, fun q _ => h.role q⟩ (fun _ _ hno => nomatch hno)
    (fun _ _ _ _ _ => ⟨rfl, rfl⟩) h.unused fun _ hno => nomatch hno⟩
  rw [hlife]
  exact .calls

end

end Owners

/-- `own` says whose every page is. -/
def Inv {P : Type} (k : Image) (init : P) (pages : Nat → Prop) (s : Sys P) (locs : P → Loc P) :
    Prop :=
  ∃ own, Pages k pages s.mem s.freelist own ∧ Owners k init s.proc s.life s.booted locs own

/-! ## Every action -/

section Sound

variable {P : Type} [DecidableEq P] {k : Image} {init : P} {pages : Nat → Prop}

variable {s : Sys P} {locs : P → Loc P} {own : P → Heap Nat Idx Nat} {p : P}

theorem inv_release (hpages : Pages k pages s.mem s.freelist own)
    (howners : Owners k init s.proc s.life s.booted locs own) {np : P}
    (hv : v = .running ∨ v = .zombie) (hslot : (locs p).slot = some (np, x))
    (hself : (locs p).self = some y) {F : Heap Nat Idx Nat} (hspace : Space k F (locs p).heap x) :
    Inv k init pages (s.setLife np v) (update locs p ⟨true, F, some y, none⟩) := by
  obtain ⟨G, hapart, hheap, hG⟩ := hspace.split
  obtain ⟨hne, -, hnone⟩ := howners.slot_out hslot hself
  refine ⟨_, hpages.regroup (F := F) (G := G) hne.symm ?_ hapart,
    howners.release hv hslot hself F hG⟩
  rw [hnone, join_none, (howners.role p).heap_eq (howners.self_eq hself).1, hheap]

theorem inv_reap (hpages : Pages k pages s.mem s.freelist own)
    (howners : Owners k init s.proc s.life s.booted locs own) {q : P}
    (hself : (locs p).self = some y) (hq : s.life q = .zombie) :
    ∃ heap, Space k (locs p).heap heap (s.proc q) ∧ Inv k init pages (s.setLife q .freeing)
      (update locs p { locs p with heap := heap, slot := some (q, s.proc q) }) := by
  have hheap := (howners.role p).heap_eq (howners.self_eq hself).1
  obtain ⟨hne, hspace, howners'⟩ := howners.reap hself hq (join (own p) (own q))
  have hapart : ∀ a, own p a = none ∨ own q a = none := by
    intro a
    by_contra hno
    obtain ⟨hp, hq⟩ := not_or.mp hno
    exact hne (hpages.apart q p a hq hp)
  refine ⟨join (own p) (own q), ?_, _, hpages.regroup hne.symm (join_none _) fun _ => .inr rfl,
    howners'⟩
  rw [← hheap]
  exact hspace.join hapart

theorem sound : (rules k init).Sound (perform k init) (fun _ _ _ => True) (Inv k init pages) := by
  rintro s locs p a r s' ⟨own, hpages, howners⟩ - hpre hexec
  have hactive : ∀ {b}, (locs p).heap b ≠ none → (locs p).active = true := by
    intro b hb
    by_contra hoff
    rw [(howners.role p).out (Bool.not_eq_true _ ▸ hoff)] at hb
    exact hb rfl
  have hslotted : ∀ {np x}, (locs p).slot = some (np, x) → (locs p).active = true := by
    intro np x hx
    by_contra hoff
    rw [(howners.role p).out (Bool.not_eq_true _ ▸ hoff)] at hx
    cases hx
  -- an action on a page that `p` has
  have hwrite : ∀ {b} t, (locs p).heap b ≠ none →
      Inv k init pages (s.setMem b t)
        (update locs p ((locs p).setHeap (update (locs p).heap b (some t)))) := by
    intro b t hb
    have hheap := (howners.role p).heap_eq (hactive hb)
    refine ⟨_, hpages.write (p := p) (hheap ▸ hb) t, ?_⟩
    rw [hheap]
    exact howners.setHeap (hactive hb) _
  have hmem : ∀ {b t}, (locs p).heap b = some t → s.mem b = t := fun {b t} ht =>
    hpages.agree p b t (((howners.role p).heap_eq (hactive (by rw [ht]; nofun))) ▸ ht)
  have hsame : Inv k init pages s (update locs p (locs p)) := by
    rw [update_eq_self]
    exact ⟨own, hpages, howners⟩
  cases a with
  | boot =>
    simp only [perform] at hexec
    split at hexec
    · rename_i hboot
      cases hexec
      obtain ⟨rfl, hbooted⟩ := hboot
      exact ⟨_, rfl, own, hpages, howners.userinit hbooted⟩
    · cases hexec
  | enter =>
    simp only [perform] at hexec
    split at hexec
    · rename_i hlife
      cases hexec
      obtain ⟨hspace, howners'⟩ := howners.enter hlife hpre
      exact ⟨_, ⟨_, _, hspace, rfl⟩, own, hpages, howners'⟩
    · cases hexec
  | panic msg | halt => exact r.elim
  | kalloc =>
    simp only [perform] at hexec
    split at hexec
    · cases hexec
      exact ⟨_, .inl ⟨rfl, rfl⟩, hsame⟩
    · split at hexec
      · cases hexec
        exact ⟨_, .inl ⟨rfl, rfl⟩, hsame⟩
      · rename_i pa freelist hlist
        cases hexec
        have hheap := (howners.role p).heap_eq hpre
        rw [hlist] at hpages
        obtain ⟨hvalid, hfree, hpages'⟩ := hpages.take p fun _ => 0x0505050505050505
        refine ⟨_, .inr ⟨hvalid, hheap ▸ hfree, fun _ => 0x0505050505050505, rfl⟩, _, hpages', ?_⟩
        rw [hheap]
        exact howners.setHeap hpre _
  | kfree pa =>
    have hheap := (howners.role p).heap_eq (hactive hpre)
    have hown : own p pa ≠ none := by rwa [hheap]
    simp only [perform] at hexec
    split at hexec
    · cases hexec
    · cases hexec
      obtain ⟨-, hpages'⟩ := hpages.give hown fun _ => 0x0101010101010101
      refine ⟨_, rfl, _, hpages', ?_⟩
      rw [hheap]
      exact howners.setHeap (hactive hpre) _
  | load page i =>
    cases hexec
    obtain ⟨t, ht⟩ := ne_none_iff_exists'.mp hpre
    exact ⟨_, ⟨rfl, t, ht, by rw [hmem ht]⟩, hsame⟩
  | store page i pte =>
    cases hexec
    obtain ⟨t, ht⟩ := ne_none_iff_exists'.mp hpre
    rw [hmem ht]
    exact ⟨_, ⟨t, ht, rfl⟩, hwrite _ hpre⟩
  | zero page =>
    cases hexec
    exact ⟨_, rfl, hwrite _ hpre⟩
  | copy dst src =>
    cases hexec
    exact ⟨_, ⟨_, rfl⟩, hwrite _ hpre.1⟩
  | proc q =>
    cases q with
    | none =>
      cases hexec
      obtain ⟨x, hx⟩ := ne_none_iff_exists'.mp hpre
      refine ⟨_, ⟨?_, rfl⟩, hsame⟩
      show (locs p).self = some (s.proc p)
      rw [(howners.self_eq hx).2.1, hx]
    | some np =>
      cases hexec
      obtain ⟨x, hx⟩ := hpre
      refine ⟨_, ⟨?_, rfl⟩, hsame⟩
      show (locs p).slot = some (np, s.proc np)
      rw [(howners.slot p np x hx).1, hx]
  | setProc q x =>
    cases q with
    | none =>
      cases hexec
      obtain ⟨y, hy⟩ := ne_none_iff_exists'.mp hpre
      exact ⟨_, rfl, own, hpages, howners.setSelf hy x⟩
    | some np =>
      cases hexec
      obtain ⟨y, hy⟩ := hpre
      exact ⟨_, rfl, own, hpages, howners.setSlot hy (hslotted hy) x⟩
  | found np =>
    simp only [perform] at hexec
    split at hexec
    · rename_i hnp
      cases hexec
      exact ⟨_, rfl, own, hpages, howners.found hpre.1 hnp⟩
    · cases hexec
  | freed np =>
    cases hexec
    exact ⟨_, rfl, own, hpages, howners.freed hpre (hslotted hpre)⟩
  | start np =>
    cases hexec
    obtain ⟨x, F, hslot, hspace, hrest⟩ := hpre
    cases hself : (locs p).self with
    | some y =>
      simp only [hself] at hrest
      refine ⟨⟨true, F, some y, none⟩, ?_, inv_release hpages howners (.inl rfl) hslot hself hspace⟩
      simp only [rules, post, hself]
      exact ⟨F, hrest, rfl⟩
    | none =>
      simp only [hself] at hrest
      obtain ⟨rfl, rfl⟩ := hrest
      have hon := hslotted hslot
      obtain ⟨rfl, -, -⟩ := howners.boot p hon hself
      refine ⟨.out, ?_, own, hpages,
        howners.leave (.inl rfl) hon (howners.slot p p x hslot).2.2 ?_⟩
      · simp only [rules, post, hself]
      · rwa [(howners.role p).heap_eq hon, (howners.slot p p x hslot).1]
  | zombie =>
    simp only [perform] at hexec
    split at hexec
    · cases hexec
    · cases hexec
      obtain ⟨hidle, hon⟩ := hpre
      obtain ⟨x, hx, hspace⟩ := hidle.space hon
      obtain ⟨-, hproc, hlife⟩ := howners.self_eq hx
      refine ⟨_, rfl, own, hpages,
        howners.leave (.inr rfl) hon (fun q _ y hy => (howners.taken hy).1 hlife) ?_⟩
      rwa [(howners.role p).heap_eq hon, hproc]
  | reap q =>
    simp only [perform] at hexec
    split at hexec
    · rename_i hq
      cases hexec
      obtain ⟨hidle, hon⟩ := hpre
      obtain ⟨x, hx, -⟩ := hidle.space hon
      obtain ⟨heap, hspace, hinv⟩ := inv_reap hpages howners hx hq
      exact ⟨_, ⟨s.proc q, heap, hspace.pagetable_ne_zero, hspace, rfl⟩, hinv⟩
    · cases hexec
  | unreap q =>
    cases hexec
    obtain ⟨x, F, y, hslot, hspace, hself, hown⟩ := hpre
    exact ⟨_, ⟨y, F, hown, hself, rfl⟩, inv_release hpages howners (.inr rfl) hslot hself hspace⟩

end Sound

end OsProjects.Kernel.Vm
