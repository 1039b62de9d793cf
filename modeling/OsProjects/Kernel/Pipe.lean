import OsProjects.Lib.Ring
import OsProjects.Lib.Reach

/-!
# Pipe — the bounded queue between writers and readers

`pipewrite`, `piperead` and `pipeclose` (`pipe.c`), run by any number of processes. A step is a
stretch of one call that holds `pi->lock`: from `acquire`, or from the return of `sleep`, to the
next `sleep` or to `release`. A call that sleeps may go on at any time, which covers every `wakeup`
and `kill`.
-/

namespace OsProjects.Kernel.Pipes

open Lib

abbrev PIPESIZE : Nat := 512

local instance : NeZero PIPESIZE := ⟨by decide⟩

/-- `struct pipe`. The last two fields are no part of it: the bytes put into the buffer and those
taken out of it so far. -/
structure Pipe where
  data : Fin PIPESIZE → UInt8
  nread : BitVec 32
  nwrite : BitVec 32
  readopen : Bool
  writeopen : Bool
  putIn : List UInt8
  takenOut : List UInt8

/-- The pipe as `pipealloc` leaves it, in a page that held `data`. -/
def pipealloc (data : Fin PIPESIZE → UInt8) : Pipe := ⟨data, 0, 0, true, true, [], []⟩

namespace Pipe

/-- `pi->data[pi->nwrite++ % PIPESIZE] = ch`. -/
def put (pi : Pipe) (ch : UInt8) : Pipe :=
  { pi with
    data := Function.update pi.data (slot PIPESIZE pi.nwrite) ch
    nwrite := pi.nwrite + 1
    putIn := pi.putIn ++ [ch] }

/-- `ch = pi->data[pi->nread++ % PIPESIZE]`. -/
def take (pi : Pipe) : UInt8 × Pipe :=
  (pi.data (slot PIPESIZE pi.nread),
    { pi with
      nread := pi.nread + 1
      takenOut := pi.takenOut ++ [pi.data (slot PIPESIZE pi.nread)] })

/-- The bytes in the buffer. -/
def inBuffer (pi : Pipe) : List UInt8 := between pi.data pi.nread pi.nwrite

end Pipe

/-! ## The calls -/

/-- How a stretch ends: in `sleep`, after `i` bytes, or with a return value. -/
inductive Outcome
  | sleeps (i : Nat)
  | returns (r : Int)
  deriving DecidableEq

/-- What a round of `pipewrite` finds: whether the process is killed, and what `copyin` gets. -/
structure WriteEnv where
  killed : Bool
  copyin : Option UInt8

/-- The loop of `pipewrite`, with `left` bytes to write after the first `i`. -/
def pipewriteLoop (env : Nat → WriteEnv) : (left i : Nat) → Pipe → Outcome × Pipe
  | 0, i, pi => (.returns i, pi)
  | left + 1, i, pi =>
    if pi.readopen = false ∨ (env i).killed = true then (.returns (-1), pi)
    else if pi.nwrite = pi.nread + BitVec.ofNat 32 PIPESIZE then (.sleeps i, pi)
    else match (env i).copyin with
      | none => (.returns i, pi)
      | some ch => pipewriteLoop env left (i + 1) (pi.put ch)

def pipewrite (env : Nat → WriteEnv) (n : Int) (i : Nat) (pi : Pipe) : Outcome × Pipe :=
  pipewriteLoop env (n - i).toNat i pi

/-- The second loop of `piperead`; `copyout i` says whether byte `i` can be copied out. -/
def pipereadLoop (copyout : Nat → Bool) : (left i : Nat) → Pipe → Outcome × Pipe
  | 0, i, pi => (.returns i, pi)
  | left + 1, i, pi =>
    if pi.nread = pi.nwrite then (.returns i, pi)
    else if copyout i then pipereadLoop copyout left (i + 1) pi.take.2
    else (.returns i, pi.take.2)

def piperead (killed : Bool) (copyout : Nat → Bool) (n : Int) (pi : Pipe) : Outcome × Pipe :=
  if pi.nread = pi.nwrite ∧ pi.writeopen = true then
    if killed = true then (.returns (-1), pi) else (.sleeps 0, pi)
  else pipereadLoop copyout n.toNat 0 pi

def pipeclose (writable : Bool) (pi : Pipe) : Pipe :=
  if writable = true then { pi with writeopen := false } else { pi with readopen := false }

/-! ## The machine -/

/-- Where a process is in its call. -/
inductive Call
  | returned (r : Int)
  | writing (n : Int) (i : Nat)
  | reading (n : Int)
  deriving DecidableEq

structure State (P : Type) where
  pipe : Pipe
  call : P → Call

inductive Event (P : Type)
  | callWrite (p : P) (n : Int)
  | callRead (p : P) (n : Int)
  | write (p : P) (env : Nat → WriteEnv)
  | read (p : P) (killed : Bool) (copyout : Nat → Bool)
  | close (writable : Bool)

variable {P : Type} [DecidableEq P]

def State.setCall (s : State P) (p : P) (c : Call) : State P :=
  { s with call := Function.update s.call p c }

/-- One step; a pipe with both ends closed is freed, and no step follows. -/
def step (s : State P) (e : Event P) : Except Unit (State P) :=
  if s.pipe.readopen = false ∧ s.pipe.writeopen = false then .error ()
  else match e with
    | .callWrite p n =>
      match s.call p with
      | .returned _ => .ok (s.setCall p (.writing n 0))
      | _ => .error ()
    | .callRead p n =>
      match s.call p with
      | .returned _ => .ok (s.setCall p (.reading n))
      | _ => .error ()
    | .write p env =>
      match s.call p with
      | .writing n i =>
        match pipewrite env n i s.pipe with
        | (.sleeps i, pi) => .ok ({ s with pipe := pi }.setCall p (.writing n i))
        | (.returns r, pi) => .ok ({ s with pipe := pi }.setCall p (.returned r))
      | _ => .error ()
    | .read p killed copyout =>
      match s.call p with
      | .reading n =>
        match piperead killed copyout n s.pipe with
        | (.sleeps _, pi) => .ok { s with pipe := pi }
        | (.returns r, pi) => .ok ({ s with pipe := pi }.setCall p (.returned r))
      | _ => .error ()
    | .close writable => .ok { s with pipe := pipeclose writable s.pipe }

def Reached (s : State P) : Prop :=
  ∃ data, Reach step (fun _ _ => True) ⟨pipealloc data, fun _ => .returned 0⟩ s

/-! ## The queue -/

/-- What was put in is what was taken out, followed by what is in the buffer. -/
def Pipe.Fifo (pi : Pipe) : Prop :=
  ∃ l, pi.putIn = pi.takenOut ++ l ∧ Queued pi.data pi.nread pi.nwrite l

section Queue

variable {pi : Pipe}

theorem dvd_pipesize : PIPESIZE ∣ 2 ^ 32 := ⟨2 ^ 23, rfl⟩

theorem pipesize_lt : PIPESIZE < 2 ^ 32 := by decide

theorem Pipe.Fifo.put (h : pi.Fifo) (hroom : pi.nwrite ≠ pi.nread + BitVec.ofNat 32 PIPESIZE)
    (ch : UInt8) : (pi.put ch).Fifo := by
  obtain ⟨l, hput, hl⟩ := h
  have hlen : l.length ≠ PIPESIZE := mt (hl.full_iff pipesize_lt).mpr hroom
  have hfits := hl.fits
  refine ⟨l ++ [ch], ?_, hl.push dvd_pipesize (by omega)⟩
  show pi.putIn ++ [ch] = pi.takenOut ++ (l ++ [ch])
  rw [hput, List.append_assoc]

theorem Pipe.Fifo.take (h : pi.Fifo) (hsome : pi.nread ≠ pi.nwrite) : pi.take.2.Fifo := by
  obtain ⟨l, hput, hl⟩ := h
  cases l with
  | nil => exact absurd ((hl.eq_iff pipesize_lt).mpr rfl) hsome
  | cons ch l =>
    obtain ⟨hch, hrest⟩ := hl.pop
    refine ⟨l, ?_, hrest⟩
    show pi.putIn = pi.takenOut ++ [pi.data (slot PIPESIZE pi.nread)] ++ l
    rw [hput, hch, List.append_assoc]
    rfl

theorem Pipe.Fifo.pipewriteLoop (h : pi.Fifo) (env : Nat → WriteEnv) (left i : Nat) :
    (pipewriteLoop env left i pi).2.Fifo := by
  induction left generalizing i pi with
  | zero => exact h
  | succ left ih =>
    rw [Pipes.pipewriteLoop]
    split
    · exact h
    · split
      · exact h
      · rename_i hroom
        split
        · exact h
        · exact ih (h.put hroom _) _

theorem Pipe.Fifo.pipereadLoop (h : pi.Fifo) (copyout : Nat → Bool) (left i : Nat) :
    (pipereadLoop copyout left i pi).2.Fifo := by
  induction left generalizing i pi with
  | zero => exact h
  | succ left ih =>
    rw [Pipes.pipereadLoop]
    split
    · exact h
    · rename_i hsome
      split
      · exact ih (h.take hsome) _
      · exact h.take hsome

theorem Pipe.Fifo.piperead (h : pi.Fifo) (killed : Bool) (copyout : Nat → Bool) (n : Int) :
    (piperead killed copyout n pi).2.Fifo := by
  unfold Pipes.piperead
  split
  · split
    · exact h
    · exact h
  · exact h.pipereadLoop copyout _ 0

theorem Pipe.Fifo.pipeclose (h : pi.Fifo) (writable : Bool) : (pipeclose writable pi).Fifo := by
  unfold Pipes.pipeclose
  split
  · exact h
  · exact h

theorem fifo_step {s s' : State P} {e : Event P} (h : s.pipe.Fifo) (hok : step s e = .ok s') :
    s'.pipe.Fifo := by
  unfold step at hok
  split at hok
  · cases hok
  cases e with
  | callWrite p n | callRead p n =>
    simp only at hok
    split at hok
    · cases hok
      exact h
    · cases hok
  | close writable =>
    cases hok
    exact h.pipeclose writable
  | write p env =>
    simp only at hok
    split at hok
    · rename_i n i hcall
      have hnext : (pipewrite env n i s.pipe).2.Fifo := h.pipewriteLoop env _ i
      split at hok
      · rename_i heq
        cases hok
        rwa [heq] at hnext
      · rename_i heq
        cases hok
        rwa [heq] at hnext
    · cases hok
  | read p killed copyout =>
    simp only at hok
    split at hok
    · rename_i n hcall
      have hnext := h.piperead killed copyout n
      split at hok
      · rename_i heq
        cases hok
        rwa [heq] at hnext
      · rename_i heq
        cases hok
        rwa [heq] at hnext
    · cases hok

theorem Reached.fifo {s : State P} (h : Reached s) : s.pipe.Fifo := by
  obtain ⟨data, h⟩ := h
  refine @Reach.invariant _ _ _ step _ _ s (fun s => s.pipe.Fifo) h ?_ fun s e s' hs _ hok =>
    fifo_step hs hok
  exact ⟨[], rfl, queued_nil _ _⟩

end Queue

/-- Whatever the interleaving and however often the counters have wrapped, the buffer holds at most
`PIPESIZE` bytes, and they are what was put in and not yet taken out, in order. -/
theorem pipe_is_fifo {s : State P} (h : Reached s) :
    (s.pipe.nwrite - s.pipe.nread).toNat ≤ PIPESIZE ∧
      s.pipe.putIn = s.pipe.takenOut ++ s.pipe.inBuffer ∧
      s.pipe.inBuffer.length = (s.pipe.nwrite - s.pipe.nread).toNat := by
  obtain ⟨l, hput, hl⟩ := h.fifo
  have hlen := hl.toNat_sub pipesize_lt
  have hbuffer : s.pipe.inBuffer = l := hl.between_eq pipesize_lt
  rw [hbuffer]
  exact ⟨hlen ▸ hl.fits, hput, hlen.symm⟩

theorem pipe_is_fifo_three : ∃ s : State Bool, Reached s ∧ s.pipe.takenOut = [7] ∧
    s.pipe.putIn = [7, 8, 9] ∧ s.pipe.inBuffer = [8, 9] := by
  obtain ⟨s, hs, hp⟩ := exists_reach_of_follow step (fun _ _ => True)
    (⟨pipealloc fun _ => 0, fun _ => .returned 0⟩ : State Bool)
    [.callWrite true 3, .callRead false 1, .write true fun i => ⟨false, some (UInt8.ofNat (7 + i))⟩,
      .read false false fun _ => true]
    (fun s => decide (s.pipe.takenOut = [7] ∧ s.pipe.putIn = [7, 8, 9])) (by decide +kernel)
  obtain ⟨htaken, hput⟩ := of_decide_eq_true hp
  have hfifo := (pipe_is_fifo ⟨_, hs⟩).2.1
  rw [htaken, hput] at hfifo
  exact ⟨s, ⟨_, hs⟩, htaken, hput, (List.cons.inj hfifo).2.symm⟩

/-! ## Reads that fault -/

section Fault

variable {pi : Pipe} {copyout : Nat → Bool}

/-- `r` bytes have been taken from the pipe, and no more. -/
def Pipe.Gave (pi pi' : Pipe) (r : Int) : Prop :=
  pi'.nread = pi.nread + BitVec.ofInt 32 r ∧ pi'.takenOut.length = pi.takenOut.length + r

theorem Pipe.gave_take (pi : Pipe) : pi.Gave pi.take.2 1 := ⟨rfl, by simp [Pipe.take]⟩

theorem Pipe.Gave.trans {pi' pi'' : Pipe} {r r' : Int} (h : pi.Gave pi' r) (h' : pi'.Gave pi'' r') :
    pi.Gave pi'' (r + r') := by
  refine ⟨?_, ?_⟩
  · rw [h'.1, h.1, BitVec.ofInt_add, BitVec.add_assoc]
  · have hlen := h.2
    have hlen' := h'.2
    omega

-- As many as are asked for and there are, when all of them can be copied out; otherwise the loop
-- ends at the first that cannot, and that one is taken as well.
theorem pipereadLoop_cases (copyout : Nat → Bool) (left i : Nat) (pi : Pipe) :
    let wanted := min left (pi.nwrite - pi.nread).toNat
    ∃ k pi', pipereadLoop copyout left i pi = (.returns (i + k : Nat), pi') ∧
      ((k = wanted ∧ (∀ j < wanted, copyout (i + j) = true) ∧ pi.Gave pi' k) ∨
        (k < wanted ∧ copyout (i + k) = false ∧ pi.Gave pi' (k + 1))) := by
  induction left generalizing i pi with
  | zero => exact ⟨0, pi, rfl, .inl ⟨by simp, by simp, by simp [Pipe.Gave]⟩⟩
  | succ left ih =>
    rw [pipereadLoop]
    by_cases hempty : pi.nread = pi.nwrite
    · rw [if_pos hempty, hempty, BitVec.sub_self]
      exact ⟨0, pi, rfl, .inl ⟨by simp, by simp, by simp [Pipe.Gave]⟩⟩
    · have hone : (pi.nwrite - pi.take.2.nread).toNat + 1 = (pi.nwrite - pi.nread).toNat := by
        show (pi.nwrite - (pi.nread + 1)).toNat + 1 = _
        bv_omega
      rw [if_neg hempty]
      split
      next hcopy =>
        obtain ⟨k, pi', hloop, hends⟩ := ih (i + 1) pi.take.2
        have hshift : ∀ j, i + 1 + j = i + (j + 1) := fun j => by omega
        have hwanted : min (left + 1) (pi.nwrite - pi.nread).toNat =
            min left (pi.nwrite - pi.take.2.nread).toNat + 1 := by omega
        have hcount : ((k + 1 : Nat) : Int) = 1 + k := by omega
        refine ⟨k + 1, pi', by rw [hloop, hshift], ?_⟩
        simp only [hwanted]
        rcases hends with ⟨hk, hall, hgave⟩ | ⟨hk, hfault, hgave⟩
        · refine .inl ⟨congrArg (· + 1) hk, fun j hj => ?_, ?_⟩
          · cases j with
            | zero => exact hcopy
            | succ j => exact hshift j ▸ hall j (by exact Nat.lt_of_succ_lt_succ hj)
          · rw [hcount]
            exact pi.gave_take.trans hgave
        · refine .inr ⟨Nat.succ_lt_succ hk, hshift k ▸ hfault, ?_⟩
          rw [hcount, add_assoc]
          exact pi.gave_take.trans hgave
      next hcopy =>
        refine ⟨0, pi.take.2, rfl, .inr ⟨?_, by simpa using hcopy, pi.gave_take⟩⟩
        omega

end Fault

/-- A call that returns `r` has taken `r` bytes exactly when the destinations of the bytes asked
for, as far as there are any in the pipe, can be written. -/
theorem piperead_takes_what_it_returns_iff (pi : Pipe) (killed : Bool) (copyout : Nat → Bool)
    (n : Int) :
    (∀ r pi', piperead killed copyout n pi = (.returns r, pi') → 0 ≤ r → pi.Gave pi' r) ↔
      ∀ i < min n.toNat (pi.nwrite - pi.nread).toNat, copyout i = true := by
  unfold piperead
  split
  next hwait =>
    rw [hwait.1, BitVec.sub_self]
    refine iff_of_true ?_ (by simp)
    intro r pi' hret hr
    split at hret
    · cases hret
      omega
    · cases hret
  · obtain ⟨k, pi', hloop, hends⟩ := pipereadLoop_cases copyout n.toNat 0 pi
    simp only [Nat.zero_add] at hloop hends
    rw [hloop]
    rcases hends with ⟨rfl, hall, hgave⟩ | ⟨hk, hfault, hgave⟩
    · refine iff_of_true ?_ hall
      intro r pi'' hret _
      cases hret
      exact hgave
    · refine iff_of_false (fun h => ?_) fun h => ?_
      · have htaken := (h k pi' rfl (Int.natCast_nonneg k)).2
        have htaken' := hgave.2
        omega
      · rw [h k hk] at hfault
        cases hfault

-- The byte cannot be copied out: nothing is returned, and the pipe is empty.
theorem piperead_loses_byte :
    let pi := (pipealloc fun _ => 0).put 7
    ∃ pi', piperead false (fun _ => false) 1 pi = (.returns 0, pi') ∧ ¬ pi.Gave pi' 0 ∧
      pi'.nread = pi'.nwrite := by
  refine ⟨_, rfl, fun h => ?_, rfl⟩
  have hlen := h.2
  exact absurd hlen (by decide)

end OsProjects.Kernel.Pipes
