import OsProjects.Lib.Links
import OsProjects.Lib.Spans
import Mathlib.Logic.Function.Basic

/-!
# Umalloc — the storage allocator of user programs

`malloc` and `free` of `umalloc.c` on a memory of headers.  Addresses are in bytes, and the null
pointer is 0.  The loops follow links that may lead anywhere, so they are given fuel; `none` is a
call that has not returned.
-/

namespace OsProjects.User

open Lib

/-- `sizeof(Header)` -/
abbrev HEADER : Nat := 16

structure Header where
  ptr : Nat
  size : UInt32

/-- The memory as headers, `freep`, and the history of what `sbrk` has returned. -/
structure Heap where
  mem : Nat → Header
  freep : Nat
  regions : List Span

namespace Heap

/-- `p->s.ptr` -/
def next (h : Heap) (p : Nat) : Nat := (h.mem p).ptr

/-- `p + p->s.size` -/
def behind (h : Heap) (p : Nat) : Nat := p + HEADER * (h.mem p).size.toNat

def set (h : Heap) (p : Nat) (x : Header) : Heap := { h with mem := Function.update h.mem p x }

@[simp] theorem set_mem (h : Heap) (p : Nat) (x : Header) (q : Nat) :
    (h.set p x).mem q = if q = p then x else h.mem q := Function.update_apply _ _ _ _

/-- Where the loop of `free` ends: `bp` is between `p` and the next free block, or `p` is the last
block of the list and `bp` lies beyond one of its ends. -/
def placed (h : Heap) (bp p : Nat) : Bool :=
  (p < bp && bp < h.next p) || (h.next p ≤ p && (p < bp || bp < h.next p))

/-- `free` up to its first `else`: the block is joined to the upper neighbour or linked to it. -/
def joinUpper (h : Heap) (bp p : Nat) : Heap :=
  if h.behind bp = h.next p then
    h.set bp ⟨h.next (h.next p), (h.mem bp).size + (h.mem (h.next p)).size⟩
  else h.set bp { h.mem bp with ptr := h.next p }

/-- The rest: the lower neighbour takes the block in or is linked to it. -/
def joinLower (h : Heap) (bp p : Nat) : Heap :=
  if h.behind p = bp then h.set p ⟨h.next bp, (h.mem p).size + (h.mem bp).size⟩
  else h.set p { h.mem p with ptr := bp }

def free (fuel : Nat) (h : Heap) (ap : Nat) : Option Heap := do
  let bp := ap - HEADER
  let p ← search h.next (h.placed bp) fuel h.freep
  return { (h.joinUpper bp p).joinLower bp p with freep := p }

/-- The number of units `morecore` asks for. -/
def atLeast (nu : UInt32) : UInt32 := if nu < 4096 then 4096 else nu

/-- The argument of `sbrk`, which is an `int`. -/
def request (nu : UInt32) : Int := Int.bmod (HEADER * nu.toNat) (2 ^ 32)

variable (sbrk : List Span → Int → Option Nat)

/-- `sbrk` answers with an address, or fails; it may know what it has returned before. -/
def morecore (fuel : Nat) (h : Heap) (nu : UInt32) : Option (Nat × Heap) := do
  let nu := atLeast nu
  match sbrk h.regions (request nu) with
  | none => return (0, h)
  | some hp =>
    let h := { h with regions := ⟨hp, (request nu).toNat⟩ :: h.regions }
    let h ← (h.set hp { h.mem hp with size := nu }).free fuel (hp + HEADER)
    return (h.freep, h)

/-- `malloc` takes `nunits` units off the free block at `p`: all of it, or its tail. -/
def take (h : Heap) (prevp p : Nat) (nunits : UInt32) : Nat × Heap :=
  if (h.mem p).size = nunits then
    (p + HEADER, { h.set prevp { h.mem prevp with ptr := h.next p } with freep := prevp })
  else
    let h := h.set p { h.mem p with size := (h.mem p).size - nunits }
    let q := h.behind p
    (q + HEADER, { h.set q { h.mem q with size := nunits } with freep := prevp })

/-- The loop of `malloc`. -/
def mallocLoop (nunits : UInt32) : Nat → Heap → Nat → Nat → Option (Nat × Heap)
  | 0, _, _, _ => none
  | fuel + 1, h, prevp, p =>
    if nunits ≤ (h.mem p).size then some (h.take prevp p nunits)
    else if p = h.freep then do
      let (p, h) ← h.morecore sbrk fuel nunits
      if p = 0 then return (0, h)
      else mallocLoop nunits fuel h p (h.next p)
    else mallocLoop nunits fuel h p (h.next p)

-- `sizeof` is 64 bits wide, and so is the sum.
def units (nbytes : UInt32) : UInt32 := UInt32.ofNat ((nbytes.toNat + HEADER - 1) / HEADER + 1)

/-- The free list with nothing in it but `base`. -/
def start (base : Nat) (h : Heap) : Heap :=
  if h.freep = 0 then { h.set base ⟨base, 0⟩ with freep := base } else h

def malloc (base fuel : Nat) (h : Heap) (nbytes : UInt32) : Option (Nat × Heap) :=
  let h := h.start base
  mallocLoop sbrk (units nbytes) fuel h h.freep (h.next h.freep)

/-! ## A call that has returned needs no more fuel -/

section Fuel

variable {sbrk} {h h' : Heap} {p prevp ap base fuel fuel' : Nat} {nu nunits nbytes : UInt32}
  {r : Nat × Heap}

theorem free_mono (hrun : h.free fuel ap = some h') (hle : fuel ≤ fuel') :
    h.free fuel' ap = some h' := by
  obtain ⟨p, hp, hret⟩ := Option.bind_eq_some_iff.mp hrun
  exact Option.bind_eq_some_iff.mpr ⟨p, search_mono hp hle, hret⟩

theorem morecore_mono (hrun : h.morecore sbrk fuel nu = some r) (hle : fuel ≤ fuel') :
    h.morecore sbrk fuel' nu = some r := by
  unfold morecore at hrun ⊢
  simp only at hrun ⊢
  split at hrun
  · exact hrun
  · obtain ⟨h', hfree, hret⟩ := Option.bind_eq_some_iff.mp hrun
    exact Option.bind_eq_some_iff.mpr ⟨h', free_mono hfree hle, hret⟩

theorem mallocLoop_mono (hrun : mallocLoop sbrk nunits fuel h prevp p = some r)
    (hle : fuel ≤ fuel') : mallocLoop sbrk nunits fuel' h prevp p = some r := by
  induction fuel generalizing h prevp p fuel' with
  | zero => cases hrun
  | succ fuel ih =>
    cases fuel' with
    | zero => omega
    | succ fuel' =>
      rw [mallocLoop] at hrun ⊢
      split at hrun
      · rwa [if_pos ‹_›]
      · rw [if_neg ‹_›]
        split at hrun
        · rw [if_pos ‹_›]
          obtain ⟨⟨p, h'⟩, hmore, hrest⟩ := Option.bind_eq_some_iff.mp hrun
          refine Option.bind_eq_some_iff.mpr ⟨(p, h'), morecore_mono hmore (by omega), ?_⟩
          simp only at hrest ⊢
          split at hrest
          · rwa [if_pos ‹_›]
          · rw [if_neg ‹_›]
            exact ih hrest (by omega)
        · rw [if_neg ‹_›]
          exact ih hrun (by omega)

theorem malloc_mono (hrun : h.malloc sbrk base fuel nbytes = some r) (hle : fuel ≤ fuel') :
    h.malloc sbrk base fuel' nbytes = some r := mallocLoop_mono hrun hle

end Fuel

end Heap

end OsProjects.User
