import OsProjects.Kernel.Bitmap

/-!
# Dinode — the 64-byte slots of the inode blocks

`getDinode` and `putDinode` are the two directions of the field-by-field copies in `ilock`,
`iupdate` and `ialloc`.  The shorts come first, then `size`, then the thirteen addresses.
-/

namespace OsProjects.Kernel

open Lib Function Nat

/-- `struct dinode`, and with it the fields that `struct inode` copies from the disk. -/
@[ext] structure Dinode where
  type : Int16
  major : Int16
  minor : Int16
  nlink : Int16
  size : Nat
  addrs : Fin (NDIRECT + 2) → Nat

instance (priority := 2000) : NeZero (NDIRECT + 2) := ⟨by decide⟩

theorem direct_lt {bn : Nat} (h : bn < NDIRECT) : bn < NDIRECT + 2 := by omega

/-- The slot that `ialloc` leaves behind: everything zero but the type. -/
def freshDinode (type : Int16) : Dinode := ⟨type, 0, 0, 0, 0, fun _ => 0⟩

def shortNum (x : Int16) : Nat := x.toBitVec.toNat

def getDinode (sb : Superblock) (d : Disk) (i : Nat) : Dinode :=
  let b := d (IBLOCK sb i)
  let off := i % IPB * 64
  { type := Int16.ofNat (b.num off 2)
    major := Int16.ofNat (b.num (off + 2) 2)
    minor := Int16.ofNat (b.num (off + 4) 2)
    nlink := Int16.ofNat (b.num (off + 6) 2)
    size := b.num (off + 8) 4
    addrs := fun k => b.num (off + 12 + 4 * k) 4 }

def putDinode (b : Block) (i : Nat) (din : Dinode) : Block :=
  let off := i % IPB * 64
  let shorts := [shortNum din.type, shortNum din.major, shortNum din.minor, shortNum din.nlink]
  ((b.setArr off 2 shorts).setNum (off + 8) 4 din.size).setArr (off + 12) 4 (List.ofFn din.addrs)

def iupdate (sb : Superblock) (m : Machine) (i : Nat) (din : Dinode) : Machine :=
  (m.store (IBLOCK sb i) (putDinode (m.disk (IBLOCK sb i)) i din)).logWrite (IBLOCK sb i)

/-- The sizes and addresses fit a `uint`. -/
structure Dinode.Uint (din : Dinode) : Prop where
  size : din.size < 2 ^ 32
  addrs : ∀ k, din.addrs k < 2 ^ 32

theorem ofNat_shortNum (x : Int16) : Int16.ofNat (shortNum x % 256 ^ 2) = x := by
  have hlt : shortNum x < 256 ^ 2 := lt_of_lt_of_eq x.toBitVec.isLt (by norm_num)
  rw [mod_eq_of_lt hlt]
  apply Int16.toBitVec_inj.mp
  simp [shortNum]

theorem getDinode_iupdate_self (sb : Superblock) (m : Machine) (i : Nat) {din : Dinode}
    (huint : din.Uint) : getDinode sb (iupdate sb m i din).disk i = din := by
  have hslot : i % IPB * 64 + 64 ≤ BSIZE := by
    have hmod := mod_lt i (by decide : 0 < IPB)
    simp only [IPB, BSIZE] at *
    omega
  have hblock : (iupdate sb m i din).disk (IBLOCK sb i) =
      putDinode (m.disk (IBLOCK sb i)) i din := update_self _ _ _
  generalize hoff : i % IPB * 64 = off at hslot
  have hlen : (List.ofFn din.addrs).length = 13 := List.length_ofFn
  have hshort : ∀ k, k < 4 → (putDinode (m.disk (IBLOCK sb i)) i din).num (off + 2 * k) 2 =
      [shortNum din.type, shortNum din.major, shortNum din.minor, shortNum din.nlink].getD k 0 %
        256 ^ 2 := by
    intro k hk
    rw [putDinode, hoff, Buffer.num_setArr_outside _ _ _ _ _ _ (by omega),
      Buffer.num_setNum_outside _ _ _ _ _ _ (by omega),
      Buffer.num_setArr_self _ _ _ _ _ hk (by simp; omega)]
  have hsize : (putDinode (m.disk (IBLOCK sb i)) i din).num (off + 8) 4 = din.size := by
    rw [putDinode, hoff, Buffer.num_setArr_outside _ _ _ _ _ _ (by omega),
      Buffer.num_setNum_self _ _ _ _ (by omega)]
    exact mod_eq_of_lt (lt_of_lt_of_eq huint.size (by norm_num))
  have haddrs : ∀ k : Fin (NDIRECT + 2),
      (putDinode (m.disk (IBLOCK sb i)) i din).num (off + 12 + 4 * k) 4 = din.addrs k := by
    intro k
    have hk : k.val < (List.ofFn din.addrs).length := by rw [List.length_ofFn]; exact k.isLt
    rw [putDinode, hoff, Buffer.num_setArr_self _ _ _ _ _ hk (by rw [hlen]; omega),
      List.getD_eq_getElem _ _ hk, List.getElem_ofFn]
    exact mod_eq_of_lt (lt_of_lt_of_eq (huint.addrs k) (by norm_num))
  unfold getDinode
  simp only [hblock, hoff, hsize, haddrs]
  have h0 := hshort 0 (by decide)
  have h1 := hshort 1 (by decide)
  have h2 := hshort 2 (by decide)
  have h3 := hshort 3 (by decide)
  simp only [mul_zero, add_zero, mul_one, Nat.reduceMul] at h0 h1 h2 h3
  rw [h0, h1, h2, h3]
  change Dinode.mk (Int16.ofNat (shortNum din.type % 256 ^ 2))
    (Int16.ofNat (shortNum din.major % 256 ^ 2)) (Int16.ofNat (shortNum din.minor % 256 ^ 2))
    (Int16.ofNat (shortNum din.nlink % 256 ^ 2)) _ _ = din
  rw [ofNat_shortNum, ofNat_shortNum, ofNat_shortNum, ofNat_shortNum]

theorem getDinode_congr {sb : Superblock} {d d' : Disk} {i : Nat}
    (h : d' (IBLOCK sb i) = d (IBLOCK sb i)) : getDinode sb d' i = getDinode sb d i := by
  unfold getDinode
  rw [h]

theorem num_putDinode_outside (b : Block) (i : Nat) (din : Dinode) (off w : Nat)
    (h : off + w ≤ i % IPB * 64 ∨ i % IPB * 64 + 64 ≤ off) :
    (putDinode b i din).num off w = b.num off w := by
  have hlen : (List.ofFn din.addrs).length = 13 := List.length_ofFn
  generalize hslot : i % IPB * 64 = slot at h
  rw [putDinode, hslot, Buffer.num_setArr_outside _ _ _ _ _ _ (by rw [hlen]; omega),
    Buffer.num_setNum_outside _ _ _ _ _ _ (by omega),
    Buffer.num_setArr_outside _ _ _ _ _ _ (by simp; omega)]

-- Two inodes share a block only in different slots.
theorem getDinode_iupdate_of_ne (sb : Superblock) (m : Machine) {i j : Nat} (din : Dinode)
    (hne : j ≠ i) : getDinode sb (iupdate sb m i din).disk j = getDinode sb m.disk j := by
  by_cases hblock : IBLOCK sb j = IBLOCK sb i
  · have hmod : j % IPB ≠ i % IPB := by
      intro heq
      have hdiv : j / IPB = i / IPB := add_right_cancel hblock
      exact hne (by rw [← div_add_mod j IPB, ← div_add_mod i IPB, hdiv, heq])
    have hread : ∀ off w, off + w ≤ 64 →
        ((iupdate sb m i din).disk (IBLOCK sb j)).num (j % IPB * 64 + off) w =
          (m.disk (IBLOCK sb j)).num (j % IPB * 64 + off) w := by
      intro off w hfit
      rw [hblock, show (iupdate sb m i din).disk (IBLOCK sb i) =
        putDinode (m.disk (IBLOCK sb i)) i din from update_self _ _ _]
      exact num_putDinode_outside _ _ _ _ _ (by omega)
    have htype := hread 0 2 (by decide)
    rw [add_zero] at htype
    unfold getDinode
    simp only [htype, hread 2 2 (by decide), hread 4 2 (by decide), hread 6 2 (by decide),
      hread 8 4 (by decide), add_assoc]
    congr 1
    funext k
    have hk : k.val < 13 := k.isLt
    exact hread (12 + 4 * k.val) 4 (by omega)
  · exact getDinode_congr (update_of_ne hblock _ _)

end OsProjects.Kernel
