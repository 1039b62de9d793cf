import OsProjects.Lib.Ring
import OsProjects.Lib.Reach

/-!
# Console — input from the keyboard to the readers

`consoleintr` and `consoleread` (`console.c`). Input goes into a ring with three counters: `r` where
readers go on, `w` up to where the input is committed, `e` up to where it is being edited. A step is
an interrupt, or a stretch of a read that holds `cons.lock`; a read that sleeps may go on at any
time, which covers every `wakeup` and `kill`. The echo is left out.
-/

namespace OsProjects.Kernel.Console

open Lib Function List

abbrev INPUT_BUF_SIZE : Nat := 128

/-- `C(x)`, the character of control-x. -/
def ctrl (x : Char) : UInt8 := UInt8.ofNat (x.toNat - '@'.toNat)

abbrev newline : UInt8 := 10
abbrev carriageReturn : UInt8 := 13
abbrev delete : UInt8 := 127

/-- `cons`. The last two fields are no part of it: the bytes committed and those consumed so far. -/
structure Cons where
  buf : Fin INPUT_BUF_SIZE → UInt8
  r : BitVec 32
  w : BitVec 32
  e : BitVec 32
  committed : List UInt8
  consumed : List UInt8

def Cons.init : Cons := ⟨fun _ => 0, 0, 0, 0, [], []⟩

/-! ## The interrupt -/

/-- The loop of kill-line, which ends at `w` at the latest. -/
def killLine : Nat → Cons → Cons
  | 0, c => c
  | n + 1, c =>
    if c.e ≠ c.w ∧ c.buf (slot INPUT_BUF_SIZE (c.e - 1)) ≠ newline then
      killLine n { c with e := c.e - 1 }
    else c

/-- `cons.buf[cons.e++ % INPUT_BUF_SIZE] = ch`. -/
def Cons.store (c : Cons) (ch : UInt8) : Cons :=
  { c with buf := update c.buf (slot INPUT_BUF_SIZE c.e) ch, e := c.e + 1 }

/-- `cons.w = cons.e`. -/
def Cons.commit (c : Cons) : Cons :=
  { c with w := c.e, committed := c.committed ++ between c.buf c.w c.e }

/-- The default case, for a character that is not 0 when the buffer has room. -/
def Cons.append (c : Cons) (ch : UInt8) : Cons :=
  let c' := c.store ch
  if ch = newline ∨ ch = ctrl 'D' ∨ (c'.e - c'.r).toNat = INPUT_BUF_SIZE then c'.commit else c'

def consoleintr (ch : UInt8) (c : Cons) : Cons :=
  if ch = ctrl 'P' then c
  else if ch = ctrl 'U' then killLine (c.e - c.w).toNat c
  else if ch = ctrl 'H' ∨ ch = delete then
    if c.e ≠ c.w then { c with e := c.e - 1 } else c
  else if ch ≠ 0 ∧ (c.e - c.r).toNat < INPUT_BUF_SIZE then
    c.append (if ch = carriageReturn then newline else ch)
  else c

/-! ## The read -/

/-- How a stretch of a read ends: in `sleep`, with `n` bytes still wanted; or with a return value,
where `atEof` says whether control-D ended it. -/
inductive Outcome
  | sleeps (n : Int)
  | returns (r : Int) (atEof : Bool)
  deriving DecidableEq

/-- `cons.r++`. -/
def Cons.take (c : Cons) : Cons :=
  { c with r := c.r + 1, consumed := c.consumed ++ [c.buf (slot INPUT_BUF_SIZE c.r)] }

/-- The loop of `consoleread`; the number of rounds left is that of the bytes still wanted. `copyout
n` says whether `either_copyout` succeeds. -/
def consolereadLoop (killed : Bool) (copyout : Int → Bool) (target : Int) :
    Nat → Int → Cons → Outcome × Cons
  | 0, n, c => (.returns (target - n) false, c)
  | left + 1, n, c =>
    if c.r = c.w then
      if killed = true then (.returns (-1) false, c) else (.sleeps n, c)
    else
      let ch := c.buf (slot INPUT_BUF_SIZE c.r)
      if ch = ctrl 'D' then
        -- `cons.r--` takes the character back
        if n < target then (.returns (target - n) true, { c with r := c.r + 1 - 1 })
        else (.returns (target - n) true, c.take)
      else if copyout n = false then (.returns (target - n) false, c.take)
      else if ch = newline then (.returns (target - (n - 1)) false, c.take)
      else consolereadLoop killed copyout target left (n - 1) c.take

def consoleread (killed : Bool) (copyout : Int → Bool) (target n : Int) (c : Cons) :
    Outcome × Cons :=
  consolereadLoop killed copyout target n.toNat n c

/-! ## The machine -/

/-- Where a process is: back from a read, or in one of `target` bytes of which `n`
are still wanted. -/
inductive Call
  | returned (r : Int) (atEof : Bool)
  | reading (target n : Int)
  deriving DecidableEq

structure State (P : Type) where
  cons : Cons
  call : P → Call

inductive Event (P : Type)
  | intr (ch : UInt8)
  | callRead (p : P) (n : Int)
  | read (p : P) (killed : Bool) (copyout : Int → Bool)

variable {P : Type} [DecidableEq P]

def State.setCall (s : State P) (p : P) (c : Call) : State P :=
  { s with call := update s.call p c }

def step (s : State P) : Event P → Except Unit (State P)
  | .intr ch => .ok { s with cons := consoleintr ch s.cons }
  | .callRead p n =>
    match s.call p with
    | .returned .. => .ok (s.setCall p (.reading n n))
    | .reading .. => .error ()
  | .read p killed copyout =>
    match s.call p with
    | .returned .. => .error ()
    | .reading target n =>
      match consoleread killed copyout target n s.cons with
      | (.sleeps n, c) => .ok ({ s with cons := c }.setCall p (.reading target n))
      | (.returns r atEof, c) => .ok ({ s with cons := c }.setCall p (.returned r atEof))

def Reached : State P → Prop :=
  Reach step (fun _ _ => True) ⟨Cons.init, fun _ => .returned 0 false⟩

/-! ## What the ring holds -/

/-- The bytes at positions `r` to `w - 1`. -/
def Cons.pending (c : Cons) : List UInt8 := between c.buf c.r c.w

/-- The bytes at positions `w` to `e - 1`. -/
def Cons.line (c : Cons) : List UInt8 := between c.buf c.w c.e

/-- The ring holds the committed bytes that are not consumed, and then the line being edited. -/
structure Cons.Holds (c : Cons) (pending line : List UInt8) : Prop where
  queued : Queued c.buf c.r c.e (pending ++ line)
  stop : c.w = c.r + BitVec.ofNat 32 pending.length
  committed : c.committed = c.consumed ++ pending

section Ring

variable {c : Cons} {pending line : List UInt8}

theorem dvd_size : INPUT_BUF_SIZE ∣ 2 ^ 32 := ⟨2 ^ 25, rfl⟩

theorem size_lt : INPUT_BUF_SIZE < 2 ^ 32 := by decide

namespace Cons.Holds

section

variable (h : c.Holds pending line)
include h

theorem queued_pending : Queued c.buf c.r c.w pending :=
  h.stop ▸ h.queued.left

theorem queued_line : Queued c.buf c.w c.e line :=
  h.stop ▸ h.queued.right

theorem pending_eq : c.pending = pending :=
  h.queued_pending.between_eq size_lt

theorem line_eq : c.line = line := h.queued_line.between_eq size_lt

theorem unstore (hne : c.e ≠ c.w) :
    ({ c with e := c.e - 1 } : Cons).Holds pending line.dropLast := by
  obtain ⟨line, ch, rfl⟩ : ∃ l a, line = l ++ [a] := by
    rcases eq_nil_or_concat line with rfl | ⟨l, a, rfl⟩
    · exact absurd ((h.queued_line.eq_iff size_lt).mpr rfl).symm hne
    · exact ⟨l, a, concat_eq_append⟩
  have hqueued := h.queued
  rw [← append_assoc] at hqueued
  rw [dropLast_concat]
  exact ⟨hqueued.unpush.2, h.stop, h.committed⟩

theorem store (hroom : (c.e - c.r).toNat < INPUT_BUF_SIZE) (ch : UInt8) :
    (c.store ch).Holds pending (line ++ [ch]) := by
  rw [h.queued.toNat_sub size_lt] at hroom
  have hqueued := @Queued.push _ _ _ _ dvd_size _ _ _ _ ch h.queued hroom
  rw [append_assoc] at hqueued
  exact ⟨hqueued, h.stop, h.committed⟩

theorem commit : c.commit.Holds (pending ++ line) [] := by
  refine ⟨?_, ?_, ?_⟩
  · rw [append_nil]
    exact h.queued
  · exact h.queued.stop
  · show c.committed ++ c.line = c.consumed ++ (pending ++ line)
    rw [h.committed, h.line_eq, append_assoc]

end

theorem take {ch : UInt8} (h : c.Holds (ch :: pending) line) :
    c.buf (slot INPUT_BUF_SIZE c.r) = ch ∧ c.take.Holds pending line := by
  obtain ⟨hch, hrest⟩ := h.queued.pop
  refine ⟨hch, hrest, ?_, ?_⟩
  · show c.w = c.r + 1 + BitVec.ofNat 32 pending.length
    rw [h.stop, length_cons, Nat.add_comm]
    exact (add_ofNat_add c.r 1 pending.length).symm
  · show c.committed = c.consumed ++ [c.buf (slot INPUT_BUF_SIZE c.r)] ++ pending
    rw [h.committed, hch, append_assoc]
    rfl

end Cons.Holds

/-- What a key does to the input: line editing takes bytes from the end of the line, a character
goes to its end, and the line may be committed with it. -/
inductive Types : List UInt8 × List UInt8 → List UInt8 × List UInt8 → Prop
  | erase (pending line : List UInt8) (k : Nat) : Types (pending, line) (pending, line.take k)
  | append (pending line : List UInt8) (ch : UInt8) : Types (pending, line) (pending, line ++ [ch])
  | commit (pending line : List UInt8) (ch : UInt8) :
      Types (pending, line) (pending ++ (line ++ [ch]), [])

theorem Types.refl (pending line : List UInt8) : Types (pending, line) (pending, line) := by
  have h := Types.erase pending line line.length
  rwa [take_length] at h

section

variable (h : c.Holds pending line)
include h

theorem Cons.Holds.killLine (n : Nat) :
    ∃ k, (killLine n c).Holds pending (line.take k) ∧ (killLine n c).consumed = c.consumed := by
  induction n generalizing c line with
  | zero => exact ⟨line.length, by rwa [take_length], rfl⟩
  | succ n ih =>
    rw [Console.killLine]
    split
    · rename_i hne
      obtain ⟨k, hk, hsame⟩ := ih (h.unstore hne.1)
      rw [dropLast_eq_take, take_take] at hk
      exact ⟨_, hk, hsame⟩
    · exact ⟨line.length, by rwa [take_length], rfl⟩

theorem Cons.Holds.append (hroom : (c.e - c.r).toNat < INPUT_BUF_SIZE)
    (ch : UInt8) : ∃ pending' line', (c.append ch).Holds pending' line' ∧
      (c.append ch).consumed = c.consumed ∧ Types (pending, line) (pending', line') := by
  have hstored := h.store hroom ch
  unfold Cons.append
  simp only
  split
  · exact ⟨_, _, hstored.commit, rfl, .commit _ _ _⟩
  · exact ⟨_, _, hstored, rfl, .append _ _ _⟩

theorem Cons.Holds.consoleintr (ch : UInt8) : ∃ pending' line',
    (consoleintr ch c).Holds pending' line' ∧ (consoleintr ch c).consumed = c.consumed ∧
      Types (pending, line) (pending', line') := by
  have hsame : ∃ pending' line', c.Holds pending' line' ∧ c.consumed = c.consumed ∧
      Types (pending, line) (pending', line') := ⟨pending, line, h, rfl, .refl _ _⟩
  unfold Console.consoleintr
  split
  · exact hsame
  split
  · obtain ⟨k, hk, hconsumed⟩ := h.killLine (c.e - c.w).toNat
    exact ⟨pending, _, hk, hconsumed, .erase _ _ k⟩
  split
  · split
    · rename_i hne
      refine ⟨pending, _, h.unstore hne, rfl, ?_⟩
      rw [dropLast_eq_take]
      exact .erase _ _ _
    · exact hsame
  split
  · rename_i hroom
    exact h.append hroom.2 _
  · exact hsame

theorem Cons.Holds.consolereadLoop (killed : Bool) (copyout : Int → Bool)
    (target : Int) (left : Nat) (n : Int) : ∃ got rest, pending = got ++ rest ∧
      (consolereadLoop killed copyout target left n c).2.Holds rest line ∧
      (consolereadLoop killed copyout target left n c).2.consumed = c.consumed ++ got ∧
      ∀ r, (consolereadLoop killed copyout target left n c).1 = .returns r true → 0 < r →
        rest.head? = some (ctrl 'D') := by
  induction left generalizing n c pending with
  | zero => exact ⟨[], pending, rfl, h, (append_nil _).symm, fun _ hr => by cases hr⟩
  | succ left ih =>
    rw [Console.consolereadLoop]
    split
    · split
      · exact ⟨[], pending, rfl, h, (append_nil _).symm, fun _ hr => by cases hr⟩
      · exact ⟨[], pending, rfl, h, (append_nil _).symm, fun _ hr => by cases hr⟩
    rename_i hsome
    obtain ⟨ch, pending, rfl⟩ : ∃ ch l, pending = ch :: l :=
      exists_cons_of_ne_nil (mt (h.queued_pending.eq_iff size_lt).mpr hsome)
    obtain ⟨hch, htake⟩ := h.take
    have hconsumed : c.take.consumed = c.consumed ++ [ch] := congrArg (c.consumed ++ [·]) hch
    simp only [hch]
    split
    · rename_i heof
      split
      · rw [BitVec.add_sub_cancel]
        exact ⟨[], ch :: pending, rfl, h, (append_nil _).symm, fun _ _ _ => congrArg some heof⟩
      · rename_i hn
        refine ⟨[ch], pending, rfl, htake, hconsumed, fun r hr hpos => ?_⟩
        cases hr
        omega
    split
    · exact ⟨[ch], pending, rfl, htake, hconsumed, fun _ hr => by cases hr⟩
    split
    · exact ⟨[ch], pending, rfl, htake, hconsumed, fun _ hr => by cases hr⟩
    · obtain ⟨got, rest, rfl, hrest, hgot, heof⟩ := ih htake (n - 1)
      refine ⟨ch :: got, rest, rfl, hrest, ?_, heof⟩
      rw [hgot, hconsumed, append_assoc]
      rfl

theorem Cons.Holds.consoleread_kept (killed : Bool) (copyout : Int → Bool)
    (target n : Int) : ∃ got rest, pending = got ++ rest ∧
      (consoleread killed copyout target n c).2.Holds rest line ∧
      (consoleread killed copyout target n c).2.consumed = c.consumed ++ got ∧
      ∀ r, (consoleread killed copyout target n c).1 = .returns r true → 0 < r →
        rest.head? = some (ctrl 'D') :=
  h.consolereadLoop killed copyout target n.toNat n

-- Control-D at the front ends the read.
theorem Cons.Holds.consoleread_eof (heof : pending.head? = some (ctrl 'D'))
    (killed : Bool) (copyout : Int → Bool) (target : Int) {n : Int} (hn : 0 < n) :
    (consoleread killed copyout target n c).1 = .returns (target - n) true := by
  obtain ⟨rest, rfl⟩ : ∃ l, pending = ctrl 'D' :: l := by
    cases pending with
    | nil => cases heof
    | cons ch l => exact ⟨l, by rw [Option.some.inj heof]⟩
  have hsome : c.r ≠ c.w := mt (h.queued_pending.eq_iff size_lt).mp nofun
  obtain ⟨left, hleft⟩ : ∃ left, n.toNat = left + 1 := ⟨n.toNat - 1, by omega⟩
  rw [Console.consoleread, hleft, Console.consolereadLoop, if_neg hsome]
  simp only [h.take.1, if_true]
  split
  · rfl
  · rfl

end

end Ring

/-! ## Runs -/

/-- What a step keeps of the input: a key leaves the pending bytes as they are, up to what it adds
behind them; a read consumes some of them from the front. -/
def Keeps (s : State P) (s' : State P) : Event P → Prop
  | .intr _ => s'.cons.consumed = s.cons.consumed ∧
      Types (s.cons.pending, s.cons.line) (s'.cons.pending, s'.cons.line)
  | .callRead .. => s'.cons = s.cons
  | .read p _ _ => ∃ target n got, s.call p = .reading target n ∧
      s'.cons.consumed = s.cons.consumed ++ got ∧ s.cons.pending = got ++ s'.cons.pending ∧
      s'.cons.line = s.cons.line ∧
      -- a control-D that ends a read of other bytes is still there
      (∀ r, s'.call p = .returned r true → 0 < r → s'.cons.pending.head? = some (ctrl 'D')) ∧
      -- and the next read ends there
      (s.cons.pending.head? = some (ctrl 'D') → 0 < n → s'.call p = .returned (target - n) true)

section Runs

variable {s s' : State P} {e : Event P}

theorem step_keeps {pending line : List UInt8} (h : s.cons.Holds pending line)
    (hok : step s e = .ok s') : (∃ pending line, s'.cons.Holds pending line) ∧ Keeps s s' e := by
  cases e with
  | intr ch =>
    cases hok
    obtain ⟨pending', line', hheld, hconsumed, htypes⟩ := h.consoleintr ch
    refine ⟨⟨pending', line', hheld⟩, hconsumed, ?_⟩
    rw [h.pending_eq, h.line_eq]
    rwa [hheld.pending_eq, hheld.line_eq]
  | callRead p n =>
    simp only [step] at hok
    split at hok
    · cases hok
      exact ⟨⟨pending, line, h⟩, rfl⟩
    · cases hok
  | read p killed copyout =>
    simp only [step] at hok
    split at hok
    · cases hok
    rename_i target n hcall
    obtain ⟨got, rest, rfl, hrest, hconsumed, heof⟩ := h.consoleread_kept killed copyout target n
    have hends : s.cons.pending.head? = some (ctrl 'D') → 0 < n →
        (consoleread killed copyout target n s.cons).1 = .returns (target - n) true :=
      fun hd => h.consoleread_eof (h.pending_eq ▸ hd) killed copyout target
    generalize consoleread killed copyout target n s.cons = res at hok hrest hconsumed heof hends
    obtain ⟨o, c'⟩ := res
    have hpending : s.cons.pending = got ++ c'.pending :=
      h.pending_eq.trans (congrArg (got ++ ·) hrest.pending_eq.symm)
    have hline : c'.line = s.cons.line := hrest.line_eq.trans h.line_eq.symm
    cases o with
    | sleeps n' =>
      cases hok
      refine ⟨⟨rest, line, hrest⟩, target, n, got, hcall, hconsumed, hpending, hline, ?_, ?_⟩
      · intro r hr
        cases (update_self p _ s.call).symm.trans hr
      · intro hd hn
        cases hends hd hn
    | returns r atEof =>
      cases hok
      refine ⟨⟨rest, line, hrest⟩, target, n, got, hcall, hconsumed, hpending, hline, ?_, ?_⟩
      · intro r' hr hpos
        cases (update_self p _ s.call).symm.trans hr
        exact (congrArg List.head? hrest.pending_eq).trans (heof r rfl hpos)
      · intro hd hn
        cases hends hd hn
        exact update_self p _ s.call

theorem Reached.holds (h : Reached s) : ∃ pending line, s.cons.Holds pending line := by
  refine @Reach.invariant _ _ _ step _ _ s
    (fun s => ∃ pending line, s.cons.Holds pending line) h ?_ ?_
  · exact ⟨[], [], queued_nil _ _, rfl, rfl⟩
  · rintro s e s' ⟨pending, line, hs⟩ - hok
    exact (step_keeps hs hok).1

end Runs

/-- The counters stay in order, whatever is committed is pending until it is consumed, in order, and
every step keeps what is pending. -/
theorem committed_input_kept {s : State P} (h : Reached s) :
    (s.cons.w - s.cons.r).toNat ≤ (s.cons.e - s.cons.r).toNat ∧
    (s.cons.e - s.cons.r).toNat ≤ INPUT_BUF_SIZE ∧
    s.cons.committed = s.cons.consumed ++ s.cons.pending ∧
    ∀ e s', step s e = .ok s' → Keeps s s' e := by
  obtain ⟨pending, line, hs⟩ := h.holds
  have hlen := hs.queued.toNat_sub size_lt
  have hpending := hs.queued_pending.toNat_sub size_lt
  rw [hlen, hpending, length_append, hs.pending_eq]
  refine ⟨by omega, ?_, hs.committed, fun e s' hok => (step_keeps hs hok).2⟩
  have hfits := hs.queued.fits
  rwa [length_append] at hfits

-- A line of one byte that control-D commits: the byte is read, control-D stays.
theorem committed_input_kept_eof : ∃ s : State Unit, Reached s ∧ s.call () = .returned 1 true ∧
    s.cons.consumed = [104] ∧ s.cons.pending = [ctrl 'D'] := by
  obtain ⟨s, hs, hp⟩ := exists_reach_of_follow step (fun _ _ => True)
    (⟨Cons.init, fun _ => .returned 0 false⟩ : State Unit)
    [.callRead () 5, .intr 104, .intr (ctrl 'D'), .read () false fun _ => true]
    (fun s => decide (s.call () = .returned 1 true ∧ s.cons.consumed = [104] ∧
      s.cons.committed = [104, ctrl 'D'])) (by decide +kernel)
  obtain ⟨hcall, hconsumed, hcommitted⟩ := of_decide_eq_true hp
  have hkept := (committed_input_kept hs).2.2.1
  rw [hcommitted, hconsumed] at hkept
  exact ⟨s, hs, hcall, hconsumed, (List.cons.inj hkept).2.symm⟩

end OsProjects.Kernel.Console
