import OsProjects.Lib.Ring

/-!
# Uart — the output of `uart.c`

A step holds `uart_tx_lock`: the stretch of a `uartputc` from `acquire`, or from the return of
`sleep`, to the next `sleep` or to `release`, or the end of `uartintr`. Or it is one
`uartputc_sync`, which takes no lock: of `printf`, or of the echo in the receive half of `uartintr`.
-/

namespace OsProjects.Kernel.Uart

open Lib Function

abbrev UART_TX_BUF_SIZE : Nat := 32

local instance : NeZero UART_TX_BUF_SIZE := ⟨by decide⟩

/-- Who writes a byte to `THR`. -/
inductive Writer
  | uartstart
  | uartputcSync
  deriving DecidableEq

structure Tx where
  buf : Fin UART_TX_BUF_SIZE → UInt8
  r : BitVec 64
  w : BitVec 64
  panicked : Bool
  /-- a `uartputc` spins with the lock, after a panic -/
  stuck : Bool
  /-- the bytes put into the buffer so far -/
  accepted : List UInt8
  /-- the bytes written to `THR` so far -/
  thr : List (Writer × UInt8)

def Tx.boot : Tx := ⟨fun _ => 0, 0, 0, false, false, [], []⟩

/-- After a panic it spins. -/
def uartputcSync (u : Tx) (c : UInt8) : Tx :=
  if u.panicked then u else { u with thr := u.thr ++ [(.uartputcSync, c)] }

/-- For each reading of `LSR`, what `uartputc_sync` wrote on other CPUs before it and whether the
device is idle; after the last one it is busy. -/
def uartstart : (rounds : List (List UInt8 × Bool)) → Tx → Tx
  | [], u => u
  | (others, idle) :: rest, u =>
    let u := others.foldl uartputcSync u
    if u.w = u.r then u
    else if idle = false then u
    else uartstart rest { u with
      r := u.r + 1, thr := u.thr ++ [(.uartstart, u.buf (slot UART_TX_BUF_SIZE u.r))] }

/-- The loop of `uartputc` and what follows it. With the buffer full it sleeps, and nothing has
happened. -/
def putByte (c : UInt8) (rounds : List (List UInt8 × Bool)) (u : Tx) : Tx :=
  if u.w = u.r + BitVec.ofNat 64 UART_TX_BUF_SIZE then u
  else uartstart rounds { u with
    buf := update u.buf (slot UART_TX_BUF_SIZE u.w) c, w := u.w + 1, accepted := u.accepted ++ [c] }

def uartputc (c : UInt8) (rounds : List (List UInt8 × Bool)) (u : Tx) : Tx :=
  if u.panicked then { u with stuck := true } else putByte c rounds u

inductive Event
  | putc (c : UInt8) (rounds : List (List UInt8 × Bool))
  /-- `uartputc` from the return of `sleep` -/
  | woken (c : UInt8) (rounds : List (List UInt8 × Bool))
  | sync (c : UInt8)
  /-- the end of `uartintr` -/
  | intr (rounds : List (List UInt8 × Bool))
  /-- `panicked = 1` -/
  | panic

def step (u : Tx) : Event → Tx
  | .sync c => uartputcSync u c
  | .panic => { u with panicked := true }
  | .putc c rounds => if u.stuck then u else uartputc c rounds u
  | .woken c rounds => if u.stuck then u else putByte c rounds u
  | .intr rounds => if u.stuck then u else uartstart rounds u

/-- The bytes that `uartstart` wrote. -/
def Tx.sent (u : Tx) : List UInt8 := (u.thr.filter (·.1 = .uartstart)).map (·.2)

variable {u : Tx}

def Tx.Fifo (u : Tx) : Prop := ∃ l, u.accepted = u.sent ++ l ∧ Queued u.buf u.r u.w l

theorem Tx.Fifo.uartputcSync (h : u.Fifo) (c : UInt8) : (uartputcSync u c).Fifo := by
  unfold Uart.uartputcSync
  split
  · exact h
  · obtain ⟨l, hacc, hl⟩ := h
    refine ⟨l, ?_, hl⟩
    rw [hacc]
    simp [Tx.sent, List.filter_append]

-- What the device takes it takes from the front.  The induction is on the readings.
theorem Tx.Fifo.uartstart (h : u.Fifo) (rounds : List (List UInt8 × Bool)) :
    (uartstart rounds u).Fifo := by
  induction rounds generalizing u with
  | nil => exact h
  | cons round rounds ih =>
    have h : (round.1.foldl Uart.uartputcSync u).Fifo :=
      List.foldlRecOn round.1 _ h fun u hu c _ => hu.uartputcSync c
    unfold Uart.uartstart
    generalize round.1.foldl Uart.uartputcSync u = u at h
    dsimp only
    split
    · exact h
    split
    · exact h
    next hne _ =>
      obtain ⟨l, hacc, hl⟩ := h
      cases l with
      | nil => exact absurd ((hl.eq_iff (by decide)).mpr rfl).symm hne
      | cons c l =>
        obtain ⟨hc, hl⟩ := hl.pop
        refine ih ⟨l, ?_, hl⟩
        rw [hacc]
        simp [Tx.sent, List.filter_append, hc]

theorem Tx.Fifo.putByte (h : u.Fifo) (c : UInt8) (rounds : List (List UInt8 × Bool)) :
    (putByte c rounds u).Fifo := by
  unfold Uart.putByte
  split
  · exact h
  next hroom =>
    obtain ⟨l, hacc, hl⟩ := h
    have hlt : l.length < UART_TX_BUF_SIZE :=
      lt_of_le_of_ne hl.fits fun heq => hroom ((hl.full_iff (by decide)).mpr heq)
    refine Tx.Fifo.uartstart ⟨l ++ [c], ?_, hl.push (by decide) hlt⟩ rounds
    show u.accepted ++ [c] = u.sent ++ (l ++ [c])
    rw [hacc, List.append_assoc]

theorem Tx.Fifo.step (h : u.Fifo) (e : Event) : (step u e).Fifo := by
  cases e with
  | sync c => exact h.uartputcSync c
  | panic => exact h
  | putc c rounds =>
    simp only [Uart.step, uartputc]
    split
    · exact h
    · split
      · exact h
      · exact h.putByte c rounds
  | woken c rounds =>
    simp only [Uart.step]
    split
    · exact h
    · exact h.putByte c rounds
  | intr rounds =>
    simp only [Uart.step]
    split
    · exact h
    · exact h.uartstart rounds

/-- Whoever calls and whenever the device is ready, `uartstart` sends the bytes in the order in
which they came into the buffer, each once; at most 32 are on their way. -/
theorem uart_sends_in_order (events : List Event) : ∃ l, (events.foldl step .boot).accepted =
    (events.foldl step .boot).sent ++ l ∧ l.length ≤ UART_TX_BUF_SIZE := by
  obtain ⟨l, hacc, hl⟩ : (events.foldl step .boot).Fifo :=
    List.foldlRecOn events step ⟨[], rfl, queued_nil _ _⟩ fun u hu e _ => hu.step e
  exact ⟨l, hacc, hl.fits⟩

end OsProjects.Kernel.Uart
