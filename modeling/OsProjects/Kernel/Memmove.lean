import Mathlib.Logic.Function.Basic

/-!
# Memmove — the `memmove` of `string.c` and that of `ulib.c`

The ranges may overlap.  Addresses are numbers: no range wraps around.
-/

namespace OsProjects.Kernel.Memmove

open Function

abbrev Mem := Nat → UInt8

/-- `while(n-- > 0) *d++ = *s++;` -/
def upward : (n d s : Nat) → Mem → Mem
  | 0, _, _, m => m
  | n + 1, d, s, m => upward n (d + 1) (s + 1) (update m d (m s))

/-- `while(n-- > 0) *--d = *--s;`, from `d + n` and `s + n` -/
def downward : (n d s : Nat) → Mem → Mem
  | 0, _, _, m => m
  | n + 1, d, s, m => downward n d s (update m (d + n) (m (s + n)))

def memmove (dst src : Nat) (n : BitVec 32) (m : Mem) : Mem :=
  if n = 0 then m
  else if src < dst ∧ src + n.toNat > dst then downward n.toNat dst src m
  else upward n.toNat dst src m

/-- Here `n` is an `int`. -/
def ulibMemmove (dst src : Nat) (n : BitVec 32) (m : Mem) : Mem :=
  if src > dst then upward n.toInt.toNat dst src m else downward n.toInt.toNat dst src m

/-- All `n` bytes are read before one is stored. -/
def moved (n d s : Nat) (m : Mem) : Mem :=
  fun a => if d ≤ a ∧ a < d + n then m (s + (a - d)) else m a

variable {n d s : Nat} {m : Mem}

theorem moved_zero : moved 0 d s m = m := funext fun a => if_neg (by omega)

-- Neither loop stores where it has still to read.
theorem upward_eq (h : ¬(s < d ∧ d < s + n)) : upward n d s m = moved n d s m := by
  induction n generalizing d s m with
  | zero => exact moved_zero.symm
  | succ n ih =>
    rw [upward, ih (by omega)]
    funext a
    grind [moved, update_apply]

theorem downward_eq (h : s ≤ d) : downward n d s m = moved n d s m := by
  induction n generalizing m with
  | zero => exact moved_zero.symm
  | succ n ih =>
    rw [downward, ih]
    funext a
    grind [moved, update_apply]

theorem memmove_moves (dst src : Nat) (n : BitVec 32) (m : Mem) :
    memmove dst src n m = moved n.toNat dst src m ∧
      ulibMemmove dst src n m = moved n.toInt.toNat dst src m := by
  rw [memmove, ulibMemmove]
  constructor
  · split
    case isTrue hn => exact hn ▸ moved_zero.symm
    split
    case isTrue h => exact downward_eq (by omega)
    case isFalse h => exact upward_eq h
  · split
    · exact upward_eq (by omega)
    · exact downward_eq (by omega)

end OsProjects.Kernel.Memmove
