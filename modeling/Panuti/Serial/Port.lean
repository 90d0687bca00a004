import Panuti.Library.DropRing
import Panuti.Library.Runs
import Panuti.Serial.Uart

/-! The data handle of a serial port. The interrupt handler puts bytes into one ring, from which any
number of tasks read, and a write goes through another ring, into which it first puts all of its
bytes. Both rings drop their oldest byte when they are full.
-/

namespace Panuti.Serial

-- State

def SERIAL_RING_SIZE : Nat := 1024

def SERIAL_MAX_WAITERS : Nat := 8

abbrev ByteRing := DropRing UInt8 SERIAL_RING_SIZE

/-- `uart_t`, as far as the data handle uses it. The counters have 32 bits. -/
structure Uart where
  chip : Chip
  rxRing : ByteRing
  txRing : ByteRing
  rxWaiters : List Nat
  rxBytes : Nat
  txBytes : Nat
  overruns : Nat

/-- Where a task is in `serial_data_read`: about to look at the ring, or blocked. -/
inductive Control where
  | idle
  | looking (len : Nat)
  | blocked (len : Nat)
deriving Repr, DecidableEq

/-- A port with the tasks that read from it, and all that their reads have returned, in order. -/
structure Port where
  uart : Uart
  controls : Nat → Control
  returned : Bytes

-- The functions of the driver

def rxRingPush (u : Uart) (byte : UInt8) : Uart :=
  let pushed := u.rxRing.push byte
  { u with
    rxRing := pushed.1
    overruns := if pushed.2 then (u.overruns + 1) % 2 ^ 32 else u.overruns }

def txRingPush (u : Uart) (byte : UInt8) : Uart := { u with txRing := (u.txRing.push byte).1 }

def serialTxPull (u : Uart) : Option (UInt8 × Uart) :=
  u.txRing.pop.map fun popped => (popped.1, { u with txRing := popped.2 })

/-- `task_wake`. -/
def Control.wake : Control → Control
  | .blocked len => .looking len
  | control => control

/-- `serial_rx_push`: the waiters are woken, and there are none any more. -/
def serialRxPush (p : Port) (byte : UInt8) : Port :=
  let u := rxRingPush p.uart byte
  { p with
    uart := { u with rxBytes := (u.rxBytes + 1) % 2 ^ 32, rxWaiters := [] }
    controls := fun task =>
      if task ∈ u.rxWaiters then (p.controls task).wake else p.controls task }

/-- `serial_drain`, on what each look at the line status register finds: whether the chip lost
a byte, and the byte that is ready, if there is one. It stops where none is.
-/
def serialDrain (p : Port) : List (Bool × Option UInt8) → Port
  | [] => p
  | (overrun, ready) :: rest =>
      let p :=
        if overrun then
          { p with uart := { p.uart with overruns := (p.uart.overruns + 1) % 2 ^ 32 } }
        else p
      match ready with
      | none => p
      | some byte => serialDrain (serialRxPush p byte) rest

/-- What `serial_data_read` does each time it looks at the ring, with interrupts disabled: it
takes what there is, up to what it was asked for, or enters its task among the waiters and blocks.
-/
def serialDataRead (p : Port) (who len : Nat) : Port :=
  let taken := p.uart.rxRing.popMany len
  if taken.1 = [] then
    { p with
      uart :=
        { p.uart with
          rxWaiters :=
            if p.uart.rxWaiters.length < SERIAL_MAX_WAITERS then p.uart.rxWaiters ++ [who]
            else p.uart.rxWaiters }
      controls := Function.update p.controls who (.blocked len) }
  else
    { uart := { p.uart with rxRing := taken.2 }
      controls := Function.update p.controls who .idle
      returned := p.returned ++ taken.1 }

/-- The loop of `serial_data_write` that sends what is in the ring, each byte when the chip is
ready for it.
-/
def txLoop (u : Uart) : Uart :=
  match pulled : serialTxPull u with
  | none => u
  | some (byte, rest) => txLoop { rest with chip := uartPutcharRaw rest.chip byte }
termination_by u.txRing.count
decreasing_by
  obtain ⟨⟨_, ring⟩, popped, same⟩ := Option.map_eq_some_iff.mp pulled
  obtain ⟨rfl, rfl⟩ := Prod.mk.inj same
  exact DropRing.count_pop_lt popped

/-- The loop of `serial_data_write` that puts the bytes into the ring. -/
def txPushLoop (u : Uart) : Bytes → Uart
  | [] => u
  | byte :: data =>
      let u := txRingPush u byte
      txPushLoop { u with txBytes := (u.txBytes + 1) % 2 ^ 32 } data

/-- `serial_data_write`, with what it returns: the length as an `int`. -/
def serialDataWrite (u : Uart) (data : Bytes) : Uart × Int :=
  (txLoop (txPushLoop u data), Int.bmod data.length (2 ^ 32))

-- Runs

/-- What happens to a port: an interrupt, a write, a read that begins, the next look of a read at
the ring, and a wake-up by others.
-/
inductive Event where
  | interrupt (turns : List (Bool × Option UInt8))
  | write (data : Bytes)
  | read (who len : Nat)
  | advance (who : Nat)
  | wake (who : Nat)

def Port.step (p : Port) : Event → Port
  | .interrupt turns => serialDrain p turns
  | .write data => { p with uart := (serialDataWrite p.uart data).1 }
  | .read who len =>
      if p.controls who = .idle ∧ len ≠ 0 then
        { p with controls := Function.update p.controls who (.looking len) }
      else p
  | .advance who =>
      match p.controls who with
      | .looking len => serialDataRead p who len
      | _ => p
  | .wake who => { p with controls := Function.update p.controls who (p.controls who).wake }

def Port.run (p : Port) (events : List Event) : Port := Runs.run Port.step p events

/-- The bytes of an empty ring: what was in memory there. -/
def emptyRing (cells : Nat → UInt8) : ByteRing := DropRing.empty cells (by decide)

/-- A port as `serial_register` leaves it, with its chip at the default rate. -/
def serialRegister (chip : Chip) : Port where
  uart :=
    { chip := uartSetBaud chip 115200
      rxRing := emptyRing fun _ => 0
      txRing := emptyRing fun _ => 0
      rxWaiters := []
      rxBytes := 0
      txBytes := 0
      overruns := 0 }
  controls := fun _ => .idle
  returned := []

end Panuti.Serial
