import OsProjects.Kernel.PageTable
import OsProjects.Lib.FlatArray
import OsProjects.Lib.Writes

/-!
# UserCopy — `copyout`, `copyin` and `copyinstr`

Bytes are moved between the kernel and the pages of a user, which `walk` finds.  Tables and user
pages are in one memory, whose words have eight bytes each.
-/

namespace OsProjects.Kernel.Vm

open Lib Function Nat

def PGROUNDDOWN (a : Nat) : Nat := a / PGSIZE * PGSIZE

/-! ## Bytes of memory -/

section Bytes

/-- Byte `j` of a word, the lowest first. -/
def wordByte (w j : Nat) : UInt8 := (leBytes 8 w).getD j 0

/-- The word with `c` for its byte `j`. -/
def setWordByte (w j : Nat) (c : UInt8) : Nat := leValue ((leBytes 8 w).set j c)

/-- The word of its page that the byte at `pa` is in. -/
def wordAt (pa : Nat) : Idx := ⟨pa / 8 % 512, Nat.mod_lt _ (by decide)⟩

def byteAt (mem : Nat → Words) (pa : Nat) : UInt8 :=
  wordByte (mem (PGROUNDDOWN pa) (wordAt pa)) (pa % 8)

def setByte (mem : Nat → Words) (pa : Nat) (c : UInt8) : Nat → Words :=
  update mem (PGROUNDDOWN pa) (update (mem (PGROUNDDOWN pa)) (wordAt pa)
    (setWordByte (mem (PGROUNDDOWN pa) (wordAt pa)) (pa % 8) c))

theorem wordByte_setWordByte (w i : Nat) {j : Nat} (hj : j < 8) (c : UInt8) :
    wordByte (setWordByte w j c) i = if i = j then c else wordByte w i := by
  have hlen : ((leBytes 8 w).set j c).length = 8 := by rw [List.length_set, length_leBytes]
  have hbytes := leBytes_leValue ((leBytes 8 w).set j c)
  rw [hlen] at hbytes
  rw [wordByte, wordByte, setWordByte, hbytes, List.getD_eq_getElem?_getD,
    List.getD_eq_getElem?_getD]
  by_cases hij : i = j
  · rw [hij, List.getElem?_set_self (by rwa [length_leBytes]), if_pos rfl, Option.getD_some]
  · rw [List.getElem?_set_ne (Ne.symm hij), if_neg hij]

theorem byteAt_setByte (mem : Nat → Words) (pa : Nat) (c : UInt8) :
    byteAt (setByte mem pa c) = update (byteAt mem) pa c := by
  funext q
  by_cases hq : q = pa
  · rw [hq, update_self, byteAt, setByte, update_self, update_self,
      wordByte_setWordByte _ _ (mod_lt _ (by decide)), if_pos rfl]
  rw [update_of_ne hq, byteAt, byteAt, setByte]
  by_cases hpage : PGROUNDDOWN q = PGROUNDDOWN pa
  · rw [hpage, update_self]
    by_cases hword : wordAt q = wordAt pa
    · have hne : q % 8 ≠ pa % 8 := by
        have hmod := congrArg Fin.val hword
        simp only [wordAt, PGROUNDDOWN, PGSIZE] at hmod hpage
        omega
      rw [hword, update_self, wordByte_setWordByte _ _ (mod_lt _ (by decide)), if_neg hne]
    · rw [update_of_ne hword]
  · rw [update_of_ne hpage]

end Bytes

/-! ## `vm.c` -/

section Code

variable {P σ : Type} (pagetable : Nat)

/-- How `copyout` finds `pa0`, or fails. -/
def outPage (va0 : Nat) : Code P (Option Nat) := do
  if va0 ≥ MAXVA then pure none
  else
    match ← walk pagetable va0 false with
    | none => pure none
    | some (page, i) =>
      let pte ← act (.load page i)
      if pte &&& PTE_V = 0 ∨ pte &&& PTE_U = 0 ∨ pte &&& PTE_W = 0 then pure none
      else pure (some (PTE2PA pte))

/-- How `copyin` and `copyinstr` do. -/
def inPage (va0 : Nat) : Code P (Option Nat) := do
  let pa0 ← walkaddr pagetable va0
  pure (if pa0 = 0 then none else some pa0)

def loadByte (pa : Nat) : Code P UInt8 := do
  let word ← act (.load (PGROUNDDOWN pa) (wordAt pa))
  pure (wordByte word (pa % 8))

def storeByte (pa : Nat) (c : UInt8) : Code P Unit := do
  let word ← act (.load (PGROUNDDOWN pa) (wordAt pa))
  act (.store (PGROUNDDOWN pa) (wordAt pa) (setWordByte word (pa % 8) c))

/-- The `n` bytes at `pa`, one by one: `memmove`, or the inner loop of `copyinstr`,
which may stop. -/
def each (one : Nat → σ → Code P (Bool × σ)) : (n pa : Nat) → σ → Code P (Bool × σ)
  | 0, _, x => pure (false, x)
  | n + 1, pa, x => do
    match ← one pa x with
    | (true, x) => pure (true, x)
    | (false, x) => each one n (pa + 1) x

/-- The loop of all three, with `len` bytes left.  A round moves one byte at least.  `none` is a
page that is not there, and `some true` the stop. -/
def copyLoop (page : Nat → Code P (Option Nat)) (one : Nat → σ → Code P (Bool × σ)) :
    (rounds va len : Nat) → σ → Code P (Option Bool × σ)
  | 0, _, _, x => pure (some false, x)
  | rounds + 1, va, len, x => do
    if len = 0 then pure (some false, x)
    else
      let va0 := PGROUNDDOWN va
      match ← page va0 with
      | none => pure (none, x)
      | some pa0 =>
        let n := min (PGSIZE - (va - va0)) len
        match ← each one n (pa0 + (va - va0)) x with
        | (true, x) => pure (some true, x)
        | (false, x) => copyLoop page one rounds ((va0 + PGSIZE) % WORD) (len - n) x

/-- The next byte of `src` goes to `pa`. -/
def outByte (pa : Nat) : List UInt8 → Code P (Bool × List UInt8)
  | [] => pure (false, [])
  | c :: src => do
    storeByte pa c
    pure (false, src)

def inByte (pa : Nat) (dst : List UInt8) : Code P (Bool × List UInt8) := do
  let c ← loadByte pa
  pure (false, dst ++ [c])

def strByte (p : Nat) (dst : List UInt8) : Code P (Bool × List UInt8) := do
  let c ← loadByte p
  pure (if c = 0 then (true, dst ++ [0]) else (false, dst ++ [c]))

/-- `src` has `len` bytes. -/
def copyout (dstva : Nat) (src : List UInt8) : Code P Int := do
  let (found, _) ← copyLoop (outPage pagetable) outByte src.length dstva src.length src
  pure (if found = none then -1 else 0)

/-- What is stored at `dst` is returned, too. -/
def copyin (srcva len : Nat) : Code P (Int × List UInt8) := do
  let (found, dst) ← copyLoop (inPage pagetable) inByte len srcva len []
  pure (if found = none then -1 else 0, dst)

def copyinstr (srcva max : Nat) : Code P (Int × List UInt8) := do
  let (found, dst) ← copyLoop (inPage pagetable) strByte max srcva max []
  pure (if found = some true then 0 else -1, dst)

end Code

/-! ## What is mapped -/

section Mapped

variable (mem : Nat → Words)

def entryFrom (va : Nat) : (level pagetable : Nat) → Option Nat
  | 0, pagetable => some (mem pagetable (PX 0 va))
  | level + 1, pagetable =>
    if mem pagetable (PX (level + 1) va) &&& PTE_V ≠ 0 then
      entryFrom va level (PTE2PA (mem pagetable (PX (level + 1) va)))
    else none

/-- The tables on the way to that entry. -/
def tablesFrom (va : Nat) : (level pagetable : Nat) → List Nat
  | 0, pagetable => [pagetable]
  | level + 1, pagetable => pagetable ::
    if mem pagetable (PX (level + 1) va) &&& PTE_V ≠ 0 then
      tablesFrom va level (PTE2PA (mem pagetable (PX (level + 1) va)))
    else []

variable (pagetable : Nat)

/-- The entry of the lowest table for an address, if there are tables down to it. -/
def entry (va : Nat) : Option Nat := if va < MAXVA then entryFrom mem va 2 pagetable else none

/-- The page that is mapped at an address, if it is valid and for users, and writable if need be. -/
def frame (write : Bool) (va : Nat) : Option Nat :=
  (entry mem pagetable va).bind fun pte =>
    if pte &&& PTE_V ≠ 0 ∧ pte &&& PTE_U ≠ 0 ∧ (write = true → pte &&& PTE_W ≠ 0) then
      some (PTE2PA pte)
    else none

/-- Where the byte at an address is, if the page is there. -/
def physical (write : Bool) (va : Nat) : Option Nat :=
  (frame mem pagetable write va).map (· + va % PGSIZE)

/-- What is mapped for users are pages of `kalloc`, and not the tables themselves. -/
def UserPages (k : Image) : Prop :=
  ∀ va pa, frame mem pagetable false va = some pa →
    k.Valid pa ∧ ∀ va', pa ∉ tablesFrom mem va' 2 pagetable

end Mapped

section Pages

variable {mem mem' : Nat → Words} {pagetable va pa : Nat} {write : Bool} {k : Image}

theorem PX_page (level : Nat) {a b : Nat} (h : a / PGSIZE = b / PGSIZE) :
    PX level a = PX level b := by
  have hshift : ∀ x, x >>> (12 + 9 * level) = x / PGSIZE / 2 ^ (9 * level) := by
    intro x
    rw [Nat.shiftRight_eq_div_pow, Nat.pow_add, Nat.div_div_eq_div_mul]
  rw [PX, PX, hshift, hshift, h]

theorem entryFrom_page {a b : Nat} (h : a / PGSIZE = b / PGSIZE) (level pagetable : Nat) :
    entryFrom mem a level pagetable = entryFrom mem b level pagetable := by
  induction level generalizing pagetable with
  | zero => rw [entryFrom, entryFrom, PX_page 0 h]
  | succ level ih => rw [entryFrom, entryFrom, PX_page (level + 1) h, ih]

-- All addresses of a page have one entry.
theorem frame_page {a b : Nat} (h : a / PGSIZE = b / PGSIZE) :
    frame mem pagetable write a = frame mem pagetable write b := by
  have hlow : a < MAXVA ↔ b < MAXVA := by
    simp only [PGSIZE, MAXVA] at *
    omega
  simp only [frame, entry, entryFrom_page h, hlow]

theorem frame_rounddown (va : Nat) :
    frame mem pagetable write (PGROUNDDOWN va) = frame mem pagetable write va := by
  apply frame_page
  rw [PGROUNDDOWN, Nat.mul_div_cancel _ (by decide)]

theorem lt_of_frame (h : frame mem pagetable write va ≠ none) : va < MAXVA := by
  by_contra hva
  rw [frame, entry, if_neg hva] at h
  exact h rfl

theorem lt_of_physical (h : physical mem pagetable write va ≠ none) : va < MAXVA :=
  lt_of_frame fun hnone => h (by rw [physical, hnone, Option.map_none])

theorem entryFrom_congr {level pagetable : Nat}
    (h : ∀ t ∈ tablesFrom mem va level pagetable, mem' t = mem t) :
    entryFrom mem' va level pagetable = entryFrom mem va level pagetable := by
  induction level generalizing pagetable with
  | zero => rw [entryFrom, entryFrom, h pagetable (by simp [tablesFrom])]
  | succ level ih =>
    rw [entryFrom, entryFrom, h pagetable (by simp [tablesFrom])]
    split
    next hvalid =>
      refine ih fun t ht => h t ?_
      rw [tablesFrom, if_pos hvalid]
      exact List.mem_cons_of_mem _ ht
    · rfl

-- A page for reading and writing is one for reading.
theorem UserPages.valid (h : UserPages mem pagetable k)
    (hframe : frame mem pagetable write va = some pa) :
    k.Valid pa ∧ ∀ va', pa ∉ tablesFrom mem va' 2 pagetable := by
  refine h va pa ?_
  obtain ⟨pte, hpte, hif⟩ := Option.bind_eq_some_iff.mp hframe
  rw [frame, hpte, Option.bind_some]
  split at hif
  next hflags => rwa [if_pos ⟨hflags.1, hflags.2.1, nofun⟩]
  · cases hif

/-- The tables of `mem` are in `mem'`, too. -/
def SameTables (mem mem' : Nat → Words) (pagetable : Nat) : Prop :=
  ∀ va, ∀ t ∈ tablesFrom mem va 2 pagetable, mem' t = mem t

theorem SameTables.frame (h : SameTables mem mem' pagetable) :
    frame mem' pagetable write va = Vm.frame mem pagetable write va := by
  simp only [Vm.frame, entry, entryFrom_congr (h va)]

-- A byte of a user page is in no table.
theorem SameTables.setByte (h : SameTables mem mem' pagetable) (huser : UserPages mem pagetable k)
    (hpa : physical mem pagetable write va = some pa) (c : UInt8) :
    SameTables mem (setByte mem' pa c) pagetable := by
  obtain ⟨pa0, hframe, rfl⟩ := Option.map_eq_some_iff.mp hpa
  obtain ⟨hvalid, hnot⟩ := huser.valid hframe
  have hpage : PGROUNDDOWN (pa0 + va % PGSIZE) = pa0 := by
    have haligned := hvalid.aligned
    simp only [PGROUNDDOWN, PGSIZE] at *
    omega
  intro va' t ht
  have hne : t ≠ pa0 := fun heq => hnot va' (heq ▸ ht)
  rw [Vm.setByte, hpage, update_of_ne hne, h va' t ht]

end Pages

section Run

variable {P : Type} [DecidableEq P] {k : Image} {init p : P} {s : Sys P}

theorem run_walkFrom (va level pagetable : Nat) :
    ∃ x, (walkFrom false va level pagetable).run (perform k init p) s = .ok (x, s) ∧
      x.map (fun x => s.mem x.1 x.2) = entryFrom s.mem va level pagetable := by
  induction level generalizing pagetable with
  | zero => exact ⟨_, rfl, rfl⟩
  | succ level ih =>
    rw [walkFrom, entryFrom, Prog.run_bind_ok _ (Prog.run_call _ _ s)]
    split
    · exact ih _
    · exact ⟨none, rfl, rfl⟩

theorem run_walk {va : Nat} (h : va < MAXVA) (pagetable : Nat) :
    ∃ x, (walk pagetable va false).run (perform k init p) s = .ok (x, s) ∧
      x.map (fun x => s.mem x.1 x.2) = entry s.mem pagetable va := by
  rw [walk, if_neg (not_le.mpr h), entry, if_pos h]
  exact run_walkFrom va 2 pagetable

theorem run_outPage (pagetable va : Nat) :
    (outPage pagetable va).run (perform k init p) s = .ok (frame s.mem pagetable true va, s) := by
  unfold outPage
  by_cases hva : va < MAXVA
  · obtain ⟨x, hrun, hx⟩ := @run_walk P _ k init p s va hva pagetable
    rw [if_neg (not_le.mpr hva), Prog.run_bind_ok _ hrun, frame, ← hx]
    cases x with
    | none => rfl
    | some x =>
      rw [Prog.run_bind_ok _ (Prog.run_call _ _ s), Option.map_some, Option.bind_some]
      simp only [forall_const, ne_eq, ← not_or, ite_not]
      split <;> rfl
  · rw [if_pos (not_lt.mp hva), frame, entry, if_neg hva]
    rfl

theorem run_walkaddr (pagetable va : Nat) : (walkaddr pagetable va).run (perform k init p) s =
    .ok ((frame s.mem pagetable false va).getD 0, s) := by
  unfold walkaddr
  by_cases hva : va < MAXVA
  · obtain ⟨x, hrun, hx⟩ := @run_walk P _ k init p s va hva pagetable
    rw [if_neg (not_le.mpr hva), Prog.run_bind_ok _ hrun, frame, ← hx]
    cases x with
    | none => rfl
    | some x =>
      rw [Prog.run_bind_ok _ (Prog.run_call _ _ s), Option.map_some, Option.bind_some]
      by_cases hv : s.mem x.1 x.2 &&& PTE_V = 0
      · rw [if_pos hv, if_neg fun h => h.1 hv]
        rfl
      by_cases hu : s.mem x.1 x.2 &&& PTE_U = 0
      · rw [if_neg hv, if_pos hu, if_neg fun h => h.2.1 hu]
        rfl
      rw [if_neg hv, if_neg hu, if_pos ⟨hv, hu, nofun⟩]
      rfl
  · rw [if_pos (not_lt.mp hva), frame, entry, if_neg hva]
    rfl

-- `walkaddr` returns 0 for what is not mapped, and no user page is there.
theorem run_inPage {pagetable : Nat} (h : UserPages s.mem pagetable k) (va : Nat) :
    (inPage pagetable va).run (perform k init p) s = .ok (frame s.mem pagetable false va, s) := by
  rw [inPage, Prog.run_bind_ok _ (run_walkaddr pagetable va)]
  cases hframe : frame s.mem pagetable false va with
  | none => rfl
  | some pa =>
    rw [Option.getD_some, if_neg (h va pa hframe).1.ne_zero]
    rfl

end Run

/-! ## The loops -/

section Loops

variable {P σ : Type}

/-- Byte by byte. -/
def byteLoop (addr : Nat → Option Nat) (step : Nat → σ → Sys P → (Bool × σ) × Sys P) :
    (len va : Nat) → σ → Sys P → (Option Bool × σ) × Sys P
  | 0, _, x, s => ((some false, x), s)
  | len + 1, va, x, s =>
    match addr va with
    | none => ((none, x), s)
    | some pa =>
      match step pa x s with
      | ((true, x), s) => ((some true, x), s)
      | ((false, x), s) => byteLoop addr step len (va + 1) x s

variable {exec : (a : Act P) → Sys P → Except Stop (a.Reply × Sys P)} {addr : Nat → Option Nat}
  {one : Nat → σ → Code P (Bool × σ)} {step : Nat → σ → Sys P → (Bool × σ) × Sys P}
  {I : Sys P → Prop} {va len n pa : Nat} {x : σ} {s : Sys P}

-- Bytes that lie next to each other.
theorem run_each (hone : ∀ va pa x s, addr va = some pa → I s →
      (one pa x).run exec s = .ok (step pa x s) ∧ I (step pa x s).2)
    (hI : I s) (hn : n ≤ len) (haddr : ∀ i < n, addr (va + i) = some (pa + i)) :
    ∃ b x' s', (each one n pa x).run exec s = .ok ((b, x'), s') ∧ I s' ∧
      byteLoop addr step len va x s =
        if b then ((some true, x'), s') else byteLoop addr step (len - n) (va + n) x' s' := by
  induction n generalizing len va pa x s with
  | zero => exact ⟨false, x, s, rfl, hI, by simp⟩
  | succ n ih =>
    obtain ⟨len, rfl⟩ : ∃ l, len = l + 1 := ⟨len - 1, by omega⟩
    have hva : addr va = some pa := haddr 0 (succ_pos n)
    obtain ⟨hrun, hI'⟩ := hone va pa x s hva hI
    rw [each, Prog.run_bind_ok _ hrun, byteLoop, hva]
    dsimp only
    generalize step pa x s = y at hI'
    obtain ⟨⟨b, x'⟩, s'⟩ := y
    cases b with
    | true => exact ⟨true, x', s', rfl, hI', by simp⟩
    | false =>
      rw [Nat.add_sub_add_right, Nat.add_comm n 1, ← Nat.add_assoc va 1 n]
      refine @ih (va + 1) len (pa + 1) x' s' hI' (by omega) fun i hi => ?_
      rw [Nat.add_assoc va 1 i, Nat.add_assoc pa 1 i, Nat.add_comm 1 i]
      exact haddr (i + 1) (by omega)

theorem next_page (hva : va < MAXVA) :
    (PGROUNDDOWN va + PGSIZE) % WORD = va + (PGSIZE - va % PGSIZE) := by
  simp only [PGROUNDDOWN, PGSIZE, MAXVA, WORD] at *
  omega

/-- The loop goes page by page, and comes to the same, if what is done with a byte leaves the
tables. -/
theorem run_copyLoop {page : Nat → Code P (Option Nat)} {mem : Nat → Words} {pagetable : Nat}
    {write : Bool} (hpage : ∀ s va, I s →
      (page va).run exec s = .ok (frame mem pagetable write va, s))
    (hone : ∀ va pa x s, physical mem pagetable write va = some pa → I s →
      (one pa x).run exec s = .ok (step pa x s) ∧ I (step pa x s).2)
    {rounds : Nat} (hrounds : len ≤ rounds) (hI : I s) :
    (copyLoop page one rounds va len x).run exec s =
        .ok (byteLoop (physical mem pagetable write) step len va x s) ∧
      I (byteLoop (physical mem pagetable write) step len va x s).2 := by
  induction rounds generalizing va len x s with
  | zero =>
    obtain rfl : len = 0 := le_zero.mp hrounds
    exact ⟨rfl, hI⟩
  | succ rounds ih =>
    rw [copyLoop]
    cases len with
    | zero => exact ⟨rfl, hI⟩
    | succ len =>
      rw [if_neg (succ_ne_zero len), Prog.run_bind_ok _ (hpage s _ hI), frame_rounddown]
      cases hva : frame mem pagetable write va with
      | none =>
        have hnone : physical mem pagetable write va = none := by
          rw [physical, hva, Option.map_none]
        rw [byteLoop, hnone]
        exact ⟨rfl, hI⟩
      | some pa0 =>
        have hlow : va < MAXVA := lt_of_frame (by rw [hva]; nofun)
        have hmod : va - PGROUNDDOWN va = va % PGSIZE := by
          simp only [PGROUNDDOWN, PGSIZE]
          omega
        have hpos : va % PGSIZE < PGSIZE := mod_lt va (by decide)
        have hn : min (PGSIZE - va % PGSIZE) (len + 1) ≤ len + 1 := min_le_right _ _
        have hbytes : ∀ i < min (PGSIZE - va % PGSIZE) (len + 1),
            physical mem pagetable write (va + i) = some (pa0 + va % PGSIZE + i) := by
          intro i hi
          have hsame : (va + i) / PGSIZE = va / PGSIZE ∧ (va + i) % PGSIZE = va % PGSIZE + i := by
            simp only [PGSIZE] at *
            omega
          rw [physical, frame_page hsame.1, hva, Option.map_some, hsame.2, Nat.add_assoc]
        obtain ⟨b, x', s', hrun, hI', heq⟩ := run_each (x := x) hone hI hn hbytes
        rw [hmod, heq]
        rw [Prog.run_bind_ok _ hrun]
        cases b with
        | true => exact ⟨rfl, hI'⟩
        | false =>
          -- the next page, unless this was the last
          have hnext := @ih ((PGROUNDDOWN va + PGSIZE) % WORD)
            (len + 1 - min (PGSIZE - va % PGSIZE) (len + 1)) x' s' (by omega) hI'
          by_cases hend : PGSIZE - va % PGSIZE ≤ len + 1
          · rwa [next_page hlow, min_eq_left hend] at hnext ⊢
          · have hlast : len + 1 - min (PGSIZE - va % PGSIZE) (len + 1) = 0 := by omega
            rw [hlast, byteLoop] at hnext ⊢
            exact hnext

/-- What is returned for `len` bytes at `va` says whether they are all mapped; they are not if the
addresses wrap. -/
structure Exact (addr : Nat → Option Nat) (va len : Nat) (r : Int) : Prop where
  either : r = 0 ∨ r = -1
  mapped : r = 0 ↔ ∀ a, va ≤ a → a < va + len → addr a ≠ none
  wraps : va < WORD → WORD < va + len → r = -1

-- Nothing but a page that is not there stops the loop.
theorem byteLoop_through (hlow : ∀ a, addr a ≠ none → a < MAXVA) (g : Nat → σ → Sys P → σ × Sys P)
    (len va : Nat) (x : σ) (s : Sys P) :
    let y := byteLoop addr (fun pa x s => ((false, (g pa x s).1), (g pa x s).2)) len va x s
    Exact addr va len (if y.1.1 = none then -1 else 0) ∧ (y.1.1 ≠ none → (y.1.2, y.2) =
      ((List.range' va len).filterMap addr).foldl (fun y pa => g pa y.1 y.2) (x, s)) := by
  induction len generalizing va x s with
  | zero =>
    refine ⟨⟨.inl rfl, iff_of_true rfl fun a hle hlt => ?_, fun hva hlt => ?_⟩, fun _ => rfl⟩
    · omega
    · omega
  | succ len ih =>
    rw [byteLoop, List.range'_succ]
    cases hva : addr va with
    | none =>
      exact ⟨⟨.inr rfl, ⟨nofun, fun hall => absurd hva (hall va le_rfl (by omega))⟩,
        fun _ _ => rfl⟩, fun hne => absurd rfl hne⟩
    | some pa =>
      have hva' := hlow va (by rw [hva]; nofun)
      obtain ⟨⟨heither, hmapped, hwraps⟩, hrest⟩ := ih (va + 1) (g pa x s).1 (g pa x s).2
      rw [List.filterMap_cons_some hva, List.foldl_cons]
      refine ⟨⟨heither, hmapped.trans ⟨fun hall a hle hlt => ?_, fun hall a hle hlt => ?_⟩,
        fun _ hlt => hwraps ?_ (by omega)⟩, hrest⟩
      · rcases eq_or_lt_of_le hle with rfl | hgt
        · rw [hva]
          nofun
        · exact hall a hgt (by omega)
      · exact hall a (by omega) (by omega)
      · simp only [MAXVA, WORD] at *
        omega

variable {mem : Nat → Words}

/-- The bytes at `va` and after it are `l`. -/
def Holds (addr : Nat → Option Nat) (mem : Nat → Words) : (va : Nat) → (l : List UInt8) → Prop
  | _, [] => True
  | va, c :: l => (addr va).map (byteAt mem) = some c ∧ Holds addr mem (va + 1) l

theorem holds_cons {c : UInt8} {l : List UInt8} (hva : addr va = some pa) :
    Holds addr mem va (c :: l) ↔ byteAt mem pa = c ∧ Holds addr mem (va + 1) l := by
  rw [Holds, hva, Option.map_some, Option.some.injEq]

theorem byteLoop_string (max va : Nat) (dst dst' : List UInt8) :
    (byteLoop addr (fun p dst s =>
        (if byteAt s.mem p = 0 then (true, dst ++ [0]) else (false, dst ++ [byteAt s.mem p]), s))
      max va dst s).1 = (some true, dst') ↔
    ∃ str, 0 ∉ str ∧ str.length < max ∧ Holds addr s.mem va (str ++ [0]) ∧
    dst' = dst ++ (str ++ [0]) := by
  induction max generalizing va dst with
  | zero => simp [byteLoop]
  | succ max ih =>
    rw [byteLoop]
    cases hva : addr va with
    | none =>
      refine ⟨nofun, fun ⟨str, _, _, hholds, _⟩ => ?_⟩
      cases str <;> simp [Holds, hva] at hholds
    | some pa =>
      dsimp only
      by_cases hnul : byteAt s.mem pa = 0
      · rw [if_pos hnul]
        constructor
        · rintro ⟨⟩
          exact ⟨[], List.not_mem_nil, succ_pos max, (holds_cons hva).mpr ⟨hnul, trivial⟩, rfl⟩
        · rintro ⟨str, hstr, -, hholds, rfl⟩
          cases str with
          | nil => rfl
          | cons c str => simp [← ((holds_cons hva).mp hholds).1, hnul] at hstr
      · rw [if_neg hnul]
        refine (ih (va + 1) (dst ++ [byteAt s.mem pa])).trans ⟨?_, ?_⟩
        · rintro ⟨str, hstr, hlen, hholds, rfl⟩
          refine ⟨byteAt s.mem pa :: str, ?_, succ_lt_succ hlen, (holds_cons hva).mpr ⟨rfl, hholds⟩,
            ?_⟩
          · simp [hstr, Ne.symm hnul]
          · simp
        · rintro ⟨str, hstr, hlen, hholds, rfl⟩
          cases str with
          | nil => exact absurd ((holds_cons hva).mp hholds).1 hnul
          | cons c str =>
            obtain ⟨rfl, hrest⟩ := (holds_cons hva).mp hholds
            exact ⟨str, fun h => hstr (List.mem_cons_of_mem _ h), lt_of_succ_lt_succ hlen,
              hrest, by simp⟩

end Loops

/-! ## Exactness -/

section Exact

variable {P : Type} [DecidableEq P] {k : Image} {init p : P} {s : Sys P} {pagetable : Nat}
  {write : Bool}

/-- `outByte` on the state. -/
def store (pa : Nat) : List UInt8 → Sys P → List UInt8 × Sys P
  | [], s => ([], s)
  | c :: src, s => (src, { s with mem := setByte s.mem pa c })

omit [DecidableEq P] in
theorem foldl_store (l : List Nat) (src : List UInt8) (s : Sys P) :
    byteAt (l.foldl (fun y pa => store pa y.1 y.2) (src, s)).2.mem =
      applyWrites (byteAt s.mem) (l.zip src) := by
  induction l generalizing src s with
  | nil => rfl
  | cons pa l ih =>
    cases src with
    | nil =>
      rw [List.foldl_cons, store, ih, List.zip_nil_right, List.zip_nil_right]
    | cons c src =>
      rw [List.foldl_cons, store, ih, byteAt_setByte]
      rfl

omit [DecidableEq P] in
theorem foldl_load (l : List Nat) (dst : List UInt8) (s : Sys P) :
    l.foldl (fun (y : List UInt8 × Sys P) pa => (y.1 ++ [byteAt y.2.mem pa], y.2)) (dst, s) =
      (dst ++ l.map (byteAt s.mem), s) := by
  induction l generalizing dst with
  | nil => simp
  | cons pa l ih => rw [List.foldl_cons, ih, List.map_cons, List.append_assoc,
    List.singleton_append]

-- The stores leave the tables, so each page is found where it was at first.
theorem run_stores (huser : UserPages s.mem pagetable k) (va : Nat) (src : List UInt8) :
    ∃ y mem', (copyLoop (outPage pagetable) outByte src.length va src.length src).run
      (perform k init p) s =
        .ok (y, { s with mem := mem' }) ∧
      (y, { s with mem := mem' }) = byteLoop (physical s.mem pagetable true)
        (fun pa src s => ((false, (store pa src s).1), (store pa src s).2))
        src.length va src s := by
  obtain ⟨hrun, mem', hmem, -⟩ := @run_copyLoop P _ (perform k init p) outByte
    (fun pa src s => ((false, (store pa src s).1), (store pa src s).2))
    (fun s' => ∃ mem', s' = { s with mem := mem' } ∧ SameTables s.mem mem' pagetable) va src.length
    src s (outPage pagetable) s.mem pagetable true
    (by
      rintro _ va ⟨mem', rfl, hsame⟩
      rw [run_outPage, hsame.frame])
    (by
      rintro va pa src _ hpa ⟨mem', rfl, hsame⟩
      cases src with
      | nil => exact ⟨rfl, mem', rfl, hsame⟩
      | cons c src => exact ⟨rfl, _, rfl, hsame.setByte huser hpa c⟩)
    _ le_rfl ⟨s.mem, rfl, fun _ _ _ => rfl⟩
  exact ⟨_, mem', hrun.trans (congrArg Except.ok (Prod.ext rfl hmem)), Prod.ext rfl hmem.symm⟩

-- What only loads leaves the state.
theorem run_loads (huser : UserPages s.mem pagetable k) {σ : Type}
    {one : Nat → σ → Code P (Bool × σ)} {step : Nat → σ → Sys P → (Bool × σ) × Sys P}
    (hone : ∀ pa x, (one pa x).run (perform k init p) s = .ok (step pa x s) ∧ (step pa x s).2 = s)
    (len va : Nat) (x : σ) :
    (copyLoop (inPage pagetable) one len va len x).run (perform k init p) s =
      .ok ((byteLoop (physical s.mem pagetable false) step len va x s).1, s) := by
  obtain ⟨hrun, hsame⟩ := @run_copyLoop P _ (perform k init p) one step (· = s) va len x s
    (inPage pagetable) s.mem pagetable false (by rintro _ va rfl; exact run_inPage huser va)
    (by rintro va pa x _ - rfl; exact hone pa x) _ le_rfl rfl
  rw [hrun]
  exact congrArg Except.ok (Prod.ext rfl hsame)

theorem Holds.lt {mem : Nat → Words} {str : List UInt8} {va : Nat}
    (h : Holds (physical mem pagetable write) mem va (str ++ [0])) : va + str.length < MAXVA := by
  induction str generalizing va with
  | nil =>
    refine @lt_of_physical mem pagetable va write fun hnone => ?_
    simp [Holds, hnone] at h
  | cons c str ih =>
    have hlt := ih h.2
    rw [List.length_cons]
    omega

end Exact

/-- The calls return, and what they return is exact. -/
theorem user_copies_exact {P : Type} [DecidableEq P] {k : Image} (init p : P) {s : Sys P}
    {pagetable : Nat} (huser : UserPages s.mem pagetable k) (va : Nat) :
    (∀ src : List UInt8, ∃ r mem',
      (copyout pagetable va src).run (perform k init p) s = .ok (r, { s with mem := mem' }) ∧
      Exact (physical s.mem pagetable true) va src.length r ∧
      (r = 0 → byteAt mem' = applyWrites (byteAt s.mem)
        (((List.range' va src.length).filterMap (physical s.mem pagetable true)).zip src))) ∧
    (∀ len, ∃ r dst, (copyin pagetable va len).run (perform k init p) s = .ok ((r, dst), s) ∧
      Exact (physical s.mem pagetable false) va len r ∧
      (r = 0 → dst = ((List.range' va len).filterMap (physical s.mem pagetable false)).map
        (byteAt s.mem))) ∧
    ∀ max, ∃ r dst,
      (copyinstr pagetable va max).run (perform k init p) s = .ok ((r, dst), s) ∧ (r = 0 ∨ r = -1) ∧
      (r = 0 ↔ ∃ str, 0 ∉ str ∧ str.length < max ∧
        Holds (physical s.mem pagetable false) s.mem va (str ++ [0])) ∧
      (r = 0 → ∃ str, 0 ∉ str ∧ Holds (physical s.mem pagetable false) s.mem va (str ++ [0]) ∧
        dst = str ++ [0] ∧ va + str.length < WORD) := by
  refine ⟨fun src => ?_, fun len => ?_, fun max => ?_⟩
  · obtain ⟨y, mem', hrun, heq⟩ := @run_stores P _ k init p s pagetable huser va src
    obtain ⟨hexact, hfold⟩ := byteLoop_through (fun _ => lt_of_physical) store src.length va src s
    rw [← heq] at hexact hfold
    refine ⟨_, mem', Prog.run_bind_ok _ hrun, hexact, fun hr => ?_⟩
    have hfound : y.1 ≠ none := fun hnone => by simp [hnone] at hr
    rw [← foldl_store, ← hfold hfound]
  · have hrun := @run_loads P _ k init p s pagetable huser _ inByte
      (fun pa dst s => ((false, dst ++ [byteAt s.mem pa]), s)) (fun _ _ => ⟨rfl, rfl⟩) len va []
    obtain ⟨hexact, hfold⟩ := byteLoop_through (fun _ => lt_of_physical)
      (fun pa dst s => (dst ++ [byteAt s.mem pa], s)) len va [] s
    refine ⟨_, _, Prog.run_bind_ok _ hrun, hexact, fun hr => ?_⟩
    have hfound := hfold fun hnone => by simp [hnone] at hr
    rw [foldl_load] at hfound
    exact congrArg Prod.fst hfound
  · have hrun := @run_loads P _ k init p s pagetable huser _ strByte (fun p dst s =>
      (if byteAt s.mem p = 0 then (true, dst ++ [0]) else (false, dst ++ [byteAt s.mem p]), s))
      (fun _ _ => ⟨rfl, rfl⟩) max va []
    have hstr := @byteLoop_string P (physical s.mem pagetable false) s max va []
    refine ⟨_, _, Prog.run_bind_ok _ hrun, ?_⟩
    generalize (byteLoop _ _ max va [] s).1 = y at hstr
    by_cases hstop : y.1 = some true
    · obtain ⟨str, hnul, hlen, hholds, hdst⟩ := (hstr y.2).mp (Prod.ext hstop rfl)
      rw [if_pos hstop]
      exact ⟨.inl rfl, ⟨fun _ => ⟨str, hnul, hlen, hholds⟩, fun _ => rfl⟩,
        fun _ => ⟨str, hnul, hholds, hdst, hholds.lt.trans (by decide)⟩⟩
    · rw [if_neg hstop]
      refine ⟨.inr rfl, ⟨nofun, fun ⟨str, hnul, hlen, hholds⟩ => ?_⟩, nofun⟩
      exact absurd (congrArg Prod.fst ((hstr _).mpr ⟨str, hnul, hlen, hholds, rfl⟩)) hstop

/-- Three tables that lead every address to one user page. -/
def oneUserPage : Sys Unit where
  mem page _ :=
    if page = KERNBASE + PGSIZE then PA2PTE (KERNBASE + 2 * PGSIZE) ||| PTE_V
    else if page = KERNBASE + 2 * PGSIZE then PA2PTE (KERNBASE + 3 * PGSIZE) ||| PTE_V
    else PA2PTE (KERNBASE + 4 * PGSIZE) ||| (PTE_V ||| PTE_R ||| PTE_W ||| PTE_U)
  freelist := []
  fails _ := false
  kallocs := 0
  proc _ := .zero
  life _ := .running
  booted := true

/-- Two bytes go to the last place of the page and, at the next address, to its first. -/
theorem user_copies_exact_twoPages :
    let k : Image := ⟨KERNBASE + PGSIZE, KERNBASE, by decide, by decide, by decide⟩
    UserPages oneUserPage.mem (KERNBASE + PGSIZE) k ∧ ∃ mem',
      (copyout (KERNBASE + PGSIZE) (PGSIZE - 1) [7, 8]).run (perform k () ()) oneUserPage =
        .ok (0, { oneUserPage with mem := mem' }) ∧
      byteAt mem' (KERNBASE + 5 * PGSIZE - 1) = 7 ∧ byteAt mem' (KERNBASE + 4 * PGSIZE) = 8 := by
  intro k
  have hnext : PTE2PA (PA2PTE (KERNBASE + 2 * PGSIZE) ||| PTE_V) = KERNBASE + 2 * PGSIZE := by
    decide
  have hlast : PTE2PA (PA2PTE (KERNBASE + 3 * PGSIZE) ||| PTE_V) = KERNBASE + 3 * PGSIZE := by
    decide
  have huser : UserPages oneUserPage.mem (KERNBASE + PGSIZE) k := by
    intro va pa hframe
    have hva : va < MAXVA := lt_of_frame (by rw [hframe]; nofun)
    have hentry : entryFrom oneUserPage.mem va 2 (KERNBASE + PGSIZE) =
        some (PA2PTE (KERNBASE + 4 * PGSIZE) ||| (PTE_V ||| PTE_R ||| PTE_W ||| PTE_U)) := by
      simp [entryFrom, oneUserPage, hnext, hlast]
    rw [frame, entry, if_pos hva, hentry] at hframe
    obtain rfl : KERNBASE + 4 * PGSIZE = pa := Option.some.inj hframe
    exact ⟨⟨by decide, by decide, by decide⟩, fun va' => by
      simp [tablesFrom, oneUserPage, hnext, hlast]⟩
  obtain ⟨r, mem', hrun, hexact, hbytes⟩ :=
    (user_copies_exact () () huser (PGSIZE - 1)).1 [7, 8]
  obtain rfl : r = 0 := hexact.mapped.mpr fun a hle hlt => by
    obtain rfl | rfl : a = 4095 ∨ a = 4096 := by
      simp only [PGSIZE, List.length_cons, List.length_nil] at hle hlt
      omega
    · decide
    · decide
  refine ⟨huser, mem', hrun, ?_⟩
  rw [hbytes rfl]
  exact ⟨by decide, by decide⟩

end OsProjects.Kernel.Vm
