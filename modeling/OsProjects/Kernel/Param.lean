import OsProjects.Lib.Buffer

/-!
# Param — the constants of `param.h` and `fs.h`, and the words of a disk block
-/

namespace OsProjects.Kernel

open Lib

/-! ## `param.h` -/

abbrev NOFILE : Nat := 16
abbrev NFILE : Nat := 100
abbrev NINODE : Nat := 50
abbrev NDEV : Nat := 10
abbrev MAXOPBLOCKS : Nat := 10
abbrev LOGSIZE : Nat := MAXOPBLOCKS * 3
abbrev MAXPATH : Nat := 128

/-! ## `fs.h` -/

abbrev ROOTINO : Nat := 1
abbrev BSIZE : Nat := 1024
abbrev NDIRECT : Nat := 11
abbrev NINDIRECT : Nat := 256
abbrev DOUBLEINDIRECT : Nat := NINDIRECT * NINDIRECT
abbrev MAXFILE : Nat := NDIRECT + NINDIRECT + DOUBLEINDIRECT
abbrev IPB : Nat := 16
abbrev BPB : Nat := BSIZE * 8
abbrev DIRSIZ : Nat := 14

/-- One disk block. -/
abbrev Block := Buffer BSIZE

/-- The disk as the buffer cache presents it: `bread` of a block number gives its contents. -/
abbrev Disk := Nat → Block

/-- The `uint` at index `j` of a block. -/
def word (b : Block) (j : Nat) : Nat := b.num (4 * j) 4

/-- Store a `uint` at index `j` of a block. -/
def setWord (b : Block) (j v : Nat) : Block := b.setNum (4 * j) 4 v

theorem word_setWord_self (b : Block) {j v : Nat} (hj : j < NINDIRECT) (hv : v < 2 ^ 32) :
    word (setWord b j v) j = v := by
  unfold word setWord
  simp only [NINDIRECT] at hj
  rw [Buffer.num_setNum_self _ _ _ _ (by simp only [BSIZE]; omega)]
  exact Nat.mod_eq_of_lt (by omega)

theorem word_setWord_of_ne (b : Block) {j k : Nat} (v : Nat) (h : k ≠ j) :
    word (setWord b j v) k = word b k :=
  Buffer.num_setNum_outside _ _ _ _ _ _ (by omega)

@[simp] theorem word_zero (j : Nat) : word Buffer.zero j = 0 := Buffer.num_zero _ _

end OsProjects.Kernel
