import Mathlib.Data.List.Pairwise
import Mathlib.Algebra.Order.BigOperators.Group.List
import Mathlib.Algebra.Order.Group.Nat
import Mathlib.Algebra.GroupWithZero.Nat

/-!
# Spans — stretches of addresses, and tilings

A tiling cuts up the regions into tiles that do not overlap.  Joining two tiles that touch and
cutting one in two lead from tilings to tilings of the same regions.
-/

namespace OsProjects.Lib

/-- The addresses from `start` on, `len` of them. -/
structure Span where
  start : Nat
  len : Nat
deriving DecidableEq

namespace Span

def stop (s : Span) : Nat := s.start + s.len

instance : Membership Nat Span := ⟨fun s a => s.start ≤ a ∧ a < s.stop⟩

theorem mem_iff {s : Span} {a : Nat} : a ∈ s ↔ s.start ≤ a ∧ a < s.start + s.len := Iff.rfl

/-- The spans do not overlap. -/
def Apart (s t : Span) : Prop := s.stop ≤ t.start ∨ t.stop ≤ s.start

instance (s t : Span) : Decidable (Apart s t) := inferInstanceAs (Decidable (_ ∨ _))

theorem Apart.symm {s t : Span} (h : Apart s t) : Apart t s := Or.symm h

instance : Std.Symm Apart := ⟨fun _ _ => Apart.symm⟩

theorem Apart.not_mem {s t : Span} (h : Apart s t) {a : Nat} (hs : a ∈ s) : a ∉ t := by
  intro ht
  rw [mem_iff] at hs ht
  unfold Apart stop at h
  omega

/-- Two spans that touch, as one. -/
def join (s t : Span) : Span := ⟨s.start, s.len + t.len⟩

end Span

open OsProjects.Lib.Span List

/-- `l` cuts the regions `r` up into tiles. -/
structure Tiles (l r : List Span) : Prop where
  pos : ∀ b ∈ l, 0 < b.len
  apart : l.Pairwise Apart
  covers : ∀ a : Nat, (∃ b ∈ l, a ∈ b) ↔ ∃ c ∈ r, a ∈ c
  total : (l.map len).sum = (r.map len).sum

variable {l l' m r : List Span} {a b : Span} {x : Nat}

theorem tiles_nil : Tiles [] [] := ⟨nofun, .nil, fun _ => Iff.rfl, rfl⟩

theorem Tiles.perm (h : Tiles l r) (hp : l.Perm l') : Tiles l' r := by
  refine ⟨fun b hb => h.pos b (hp.mem_iff.mpr hb), hp.pairwise h.apart Apart.symm, fun a => ?_, ?_⟩
  · rw [← h.covers a]
    simp only [hp.mem_iff]
  · rw [← h.total]
    exact (hp.map len).sum_eq.symm

theorem Tiles.join (h : Tiles (a :: b :: l) r) (hab : a.stop = b.start) :
    Tiles (a.join b :: l) r := by
  have hpos := h.pos a mem_cons_self
  obtain ⟨ha, hb, hl⟩ : (∀ c ∈ b :: l, Apart a c) ∧ (∀ c ∈ l, Apart b c) ∧ l.Pairwise Apart := by
    have hpair := h.apart
    rwa [pairwise_cons, pairwise_cons] at hpair
  refine ⟨fun c hc => ?_, pairwise_cons.mpr ⟨fun c hc => ?_, hl⟩, fun x => ?_, ?_⟩
  · rcases mem_cons.mp hc with rfl | hc
    · show 0 < a.len + b.len
      omega
    · exact h.pos c (by simp [hc])
  · have hac := ha c (mem_cons_of_mem b hc)
    have hbc := hb c hc
    have hposb := h.pos b (by simp)
    have hposc := h.pos c (by simp [hc])
    unfold Apart stop Span.join at *
    simp only at *
    omega
  · rw [← h.covers x]
    have hmem : x ∈ a.join b ↔ x ∈ a ∨ x ∈ b := by
      simp only [mem_iff, Span.join]
      unfold stop at hab
      omega
    simp only [mem_cons, exists_eq_or_imp, hmem, or_assoc]
  · rw [← h.total]
    simp only [map_cons, sum_cons, Span.join]
    omega

theorem Tiles.cut (h : Tiles (a :: l) r) {n : Nat} (hn : 0 < n) (hlt : n < a.len) :
    Tiles (⟨a.start, n⟩ :: ⟨a.start + n, a.len - n⟩ :: l) r := by
  obtain ⟨ha, hl⟩ := pairwise_cons.mp h.apart
  refine ⟨fun c hc => ?_, pairwise_cons.mpr ⟨fun c hc => ?_,
    pairwise_cons.mpr ⟨fun c hc => ?_, hl⟩⟩, fun x => ?_, ?_⟩
  · rcases mem_cons.mp hc with rfl | hc
    · exact hn
    · rcases mem_cons.mp hc with rfl | hc
      · show 0 < a.len - n
        omega
      · exact h.pos c (by simp [hc])
  · rcases mem_cons.mp hc with rfl | hc
    · exact .inl le_rfl
    · have hac := ha c hc
      unfold Apart stop at *
      simp only at *
      omega
  · have hac := ha c hc
    unfold Apart stop at *
    simp only at *
    omega
  · rw [← h.covers x]
    have hmem : x ∈ a ↔ x ∈ (⟨a.start, n⟩ : Span) ∨ x ∈ (⟨a.start + n, a.len - n⟩ : Span) := by
      simp only [mem_iff]
      omega
    simp only [mem_cons, exists_eq_or_imp, hmem, or_assoc]
  · rw [← h.total]
    simp only [map_cons, sum_cons]
    omega

-- Every tile lies below what all regions lie below.
theorem Tiles.below (h : Tiles l r) (hr : ∀ c ∈ r, c.stop ≤ x) : ∀ b ∈ l, b.stop ≤ x := by
  intro b hb
  have hpos := h.pos b hb
  obtain ⟨c, hc, hmem⟩ := (h.covers (b.stop - 1)).mp ⟨b, hb, by
    rw [mem_iff]
    unfold stop
    omega⟩
  have hstop := hr c hc
  rw [mem_iff] at hmem
  unfold stop at *
  omega

-- And above what all regions lie above.
theorem Tiles.above (h : Tiles l r) (hr : ∀ c ∈ r, x ≤ c.start) : ∀ b ∈ l, x ≤ b.start := by
  intro b hb
  have hpos := h.pos b hb
  obtain ⟨c, hc, hmem⟩ := (h.covers b.start).mp ⟨b, hb, by
    rw [mem_iff]
    omega⟩
  exact le_trans (hr c hc) hmem.1

/-- A region is added above the others, as one tile. -/
theorem Tiles.add (h : Tiles l r) (hpos : 0 < b.len) (hr : ∀ c ∈ r, c.stop ≤ b.start) :
    Tiles (b :: l) (b :: r) := by
  refine ⟨forall_mem_cons.mpr ⟨hpos, h.pos⟩, pairwise_cons.mpr ⟨fun c hc => ?_, h.apart⟩,
    fun x => ?_, ?_⟩
  · exact .inr (h.below hr c hc)
  · simp only [mem_cons, exists_eq_or_imp, h.covers x]
  · simp only [map_cons, sum_cons, h.total]

/-- An address of the regions is in one tile. -/
theorem Tiles.existsUnique (h : Tiles l r) (hx : ∃ c ∈ r, x ∈ c) : ∃! b, b ∈ l ∧ x ∈ b := by
  obtain ⟨b, hb, hmem⟩ := (h.covers x).mpr hx
  refine ⟨b, ⟨hb, hmem⟩, fun b' ⟨hb', hmem'⟩ => ?_⟩
  by_contra hne
  exact (h.apart.forall hb' hb hne).not_mem hmem' hmem

theorem Tiles.len_le (h : Tiles l r) (hb : b ∈ l) : b.len ≤ (r.map len).sum := by
  rw [← h.total]
  exact le_sum_of_mem (mem_map_of_mem hb)

-- Spans that do not overlap tile themselves.
theorem tiles_self (hpos : ∀ b ∈ l, 0 < b.len) (hapart : l.Pairwise Apart) : Tiles l l :=
  ⟨hpos, hapart, fun _ => Iff.rfl, rfl⟩

/-- Whatever else there is, tiles `l` may be exchanged for `l'`. -/
def Retiles (l l' : List Span) : Prop := ∀ m r, Tiles (l ++ m) r → Tiles (l' ++ m) r

theorem Retiles.trans {l'' : List Span} (h : Retiles l l') (h' : Retiles l' l'') : Retiles l l'' :=
  fun m r ht => h' m r (h m r ht)

theorem Retiles.of_perm (h : l.Perm l') : Retiles l l' := fun m _ ht => ht.perm (h.append_right m)

theorem Retiles.frame (h : Retiles l l') (m : List Span) : Retiles (l ++ m) (l' ++ m) := by
  intro m' r ht
  rw [append_assoc] at ht ⊢
  exact h (m ++ m') r ht

theorem retiles_join (hab : a.stop = b.start) : Retiles (a :: b :: l) (a.join b :: l) :=
  fun _ _ ht => ht.join hab

theorem retiles_cut {n : Nat} (hn : 0 < n) (hlt : n < a.len) :
    Retiles (a :: l) (⟨a.start, n⟩ :: ⟨a.start + n, a.len - n⟩ :: l) :=
  fun _ _ ht => ht.cut hn hlt

end OsProjects.Lib
