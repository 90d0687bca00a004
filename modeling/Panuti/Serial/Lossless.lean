import Panuti.Serial.Port

/-! What a serial port loses. On the way in, every byte that the ring drops is counted. On the way
out nothing is counted: a write puts all of its bytes into the ring before it sends the first one,
so that only the last 1023 of them are sent.
-/

namespace Panuti.Serial

-- What is to be kept

/-- The bytes that are pushed while an interrupt is handled. -/
def drained : List (Bool × Option UInt8) → Bytes
  | [] => []
  | (_, none) :: _ => []
  | (_, some byte) :: rest => byte :: drained rest

/-- How often the chip reports in an interrupt that it lost a byte itself. -/
def chipLosses : List (Bool × Option UInt8) → Nat
  | [] => 0
  | (overrun, none) :: _ => overrun.toNat
  | (overrun, some _) :: rest => overrun.toNat + chipLosses rest

def Event.pushed : Event → Bytes
  | .interrupt turns => drained turns
  | _ => []

def Event.losses : Event → Nat
  | .interrupt turns => chipLosses turns
  | _ => 0

def Event.written : Event → Bytes
  | .write data => data
  | _ => []

/-- An event is no write, or one that reports all of its bytes. -/
def Event.Accepted (p : Port) : Event → Prop
  | .write data => (serialDataWrite p.uart data).2 = data.length
  | _ => True

/-- An accepted event puts on the line exactly the bytes that it writes. -/
def Sends (p : Port) (event : Event) : Prop :=
  event.Accepted p → (p.step event).uart.chip.line = p.uart.chip.line ++ event.written

/-- What was read and what is in the ring is what was pushed, in order, up to bytes that were
counted with those that the chip lost.
-/
def Counted (p : Port) (pushed : Bytes) (losses : Nat) : Prop :=
  ∃ left, (p.returned ++ p.uart.rxRing.contents).Sublist pushed
    ∧ (p.returned ++ p.uart.rxRing.contents).length + left = pushed.length
    ∧ p.uart.overruns = (left + losses) % 2 ^ 32

/-- In a run of a port no byte is lost without being counted. -/
structure NothingLost (chip : Chip) (events : List Event) : Prop where
  sends : ∀ before event after, events = before ++ event :: after
    → Sends ((serialRegister chip).run before) event
  counted : ∀ before after, events = before ++ after
    → Counted ((serialRegister chip).run before) (before.flatMap Event.pushed)
        (before.map Event.losses).sum

-- The way in

/-- The ring has what was pushed from a place on, and the reads have returned what was in front of
it, up to bytes that were counted.
-/
structure RxKept (p : Port) (pushed : Bytes) (losses first left : Nat) : Prop where
  window : p.uart.rxRing.Window pushed first
  sublist : p.returned.Sublist (pushed.take first)
  length : p.returned.length + left = first
  overruns : p.uart.overruns = (left + losses) % 2 ^ 32

variable {p : Port} {pushed : Bytes} {losses first left : Nat}

theorem RxKept.counted (kept : RxKept p pushed losses first left) : Counted p pushed losses := by
  have inside := kept.window.inside
  have length := kept.length
  refine ⟨left, ?_, ?_, kept.overruns⟩
  · rw [kept.window.contents]
    have parts := kept.sublist.append_right (pushed.drop first)
    rwa [List.take_append_drop] at parts
  · rw [kept.window.contents, List.length_append, List.length_drop]
    omega

theorem RxKept.push (kept : RxKept p pushed losses first left) (byte : UInt8)
    : ∃ first left, RxKept (serialRxPush p byte) (pushed ++ [byte]) losses first left := by
  have inside := kept.window.inside
  have length := kept.length
  have window := kept.window.push byte
  have returned : (serialRxPush p byte).returned = p.returned := rfl
  have overruns : (serialRxPush p byte).uart.overruns
      = if (p.uart.rxRing.push byte).2 = true then (p.uart.overruns + 1) % 2 ^ 32
        else p.uart.overruns := rfl
  by_cases drops : (p.uart.rxRing.push byte).2 = true
  · rw [if_pos drops] at window overruns
    refine ⟨first + 1, left + 1, window, ?_, by rw [returned]; omega, ?_⟩
    · refine kept.sublist.trans ?_
      have same : (pushed ++ [byte]).take first = pushed.take first :=
        List.take_append_of_le_length inside
      rw [← same]
      exact (List.take_prefix_take_left (Nat.le_succ first)).sublist
    · rw [overruns, kept.overruns]
      omega
  · rw [if_neg drops] at window overruns
    refine ⟨first, left, window, ?_, length, ?_⟩
    · rw [List.take_append_of_le_length inside]
      exact kept.sublist
    · rw [overruns, kept.overruns]

theorem RxKept.loss (kept : RxKept p pushed losses first left)
    : RxKept { p with uart := { p.uart with overruns := (p.uart.overruns + 1) % 2 ^ 32 } } pushed
        (losses + 1) first left := by
  refine ⟨kept.window, kept.sublist, kept.length, ?_⟩
  dsimp only
  rw [kept.overruns]
  omega

theorem RxKept.drain (kept : RxKept p pushed losses first left)
    (turns : List (Bool × Option UInt8))
    : ∃ first left, RxKept (serialDrain p turns) (pushed ++ drained turns)
        (losses + chipLosses turns) first left := by
  induction turns generalizing p pushed losses first left with
  | nil =>
      rw [drained, List.append_nil]
      exact ⟨first, left, kept⟩
  | cons turn turns ih =>
      obtain ⟨overrun, ready⟩ := turn
      have looked : ∃ q, RxKept q pushed (losses + overrun.toNat) first left
          ∧ serialDrain p ((overrun, ready) :: turns)
            = ready.elim q fun byte => serialDrain (serialRxPush q byte) turns := by
        cases overrun with
        | false => exact ⟨p, kept, by cases ready <;> rfl⟩
        | true => exact ⟨_, kept.loss, by cases ready <;> rfl⟩
      obtain ⟨q, keptToo, same⟩ := looked
      rw [same]
      cases ready with
      | none =>
          rw [drained, chipLosses, List.append_nil]
          exact ⟨first, left, keptToo⟩
      | some byte =>
          obtain ⟨firstToo, leftToo, later⟩ := keptToo.push byte
          have all := ih later
          rw [drained, chipLosses, ← Nat.add_assoc]
          rwa [List.append_assoc, List.singleton_append] at all

theorem RxKept.read (kept : RxKept p pushed losses first left) (who len : Nat)
    : ∃ first, RxKept (serialDataRead p who len) pushed losses first left := by
  obtain ⟨taken, window⟩ := kept.window.popMany len
  rw [serialDataRead]
  dsimp only
  split
  next => exact ⟨first, kept.window, kept.sublist, kept.length, kept.overruns⟩
  next =>
      refine ⟨_, window, ?_, ?_, kept.overruns⟩
      · have parts := kept.sublist.append (List.Sublist.refl ((pushed.drop first).take len))
        rw [← List.take_add] at parts
        dsimp only
        rw [taken]
        rwa [← List.take_take, List.take_length]
      · have length := kept.length
        have inside := kept.window.inside
        dsimp only
        rw [taken, List.length_append, List.length_take, List.length_drop]
        omega

-- The way out

/-- Nothing waits to be sent, and the chip puts on the line what it is given. -/
structure TxIdle (u : Uart) : Prop where
  closed : u.chip.lcr = UART_LCR_8N1
  empty : ∃ stream, u.txRing.Window stream stream.length

theorem txLoop_none {u : Uart} (popped : u.txRing.pop = none) : txLoop u = u := by
  have pulled : serialTxPull u = none := by
    rw [serialTxPull, popped]
    rfl
  rw [txLoop]
  split
  next => rfl
  next some' => cases pulled.symm.trans some'

theorem txLoop_some {u : Uart} {byte : UInt8} {rest : ByteRing}
    (popped : u.txRing.pop = some (byte, rest))
    : txLoop u = txLoop { u with txRing := rest, chip := uartPutcharRaw u.chip byte } := by
  have pulled : serialTxPull u = some (byte, { u with txRing := rest }) := by
    rw [serialTxPull, popped]
    rfl
  rw [txLoop]
  split
  next none' => cases pulled.symm.trans none'
  next some' =>
      obtain ⟨rfl, rfl⟩ := Prod.mk.inj (Option.some.inj (pulled.symm.trans some'))
      rfl

/-- The loop sends what is in the ring. -/
theorem txLoop_spec {u : Uart} {stream : Bytes} {first : Nat}
    (closed : u.chip.lcr = UART_LCR_8N1) (window : u.txRing.Window stream first)
    : ∃ ring, ring.Window stream stream.length
        ∧ txLoop u
          = { u with
              chip := { u.chip with line := u.chip.line ++ stream.drop first }
              txRing := ring } := by
  induction left : stream.length - first generalizing u first with
  | zero =>
      have inside := window.inside
      obtain rfl : first = stream.length := by omega
      refine ⟨u.txRing, window, ?_⟩
      rw [txLoop_none (window.pop_none rfl), List.drop_length, List.append_nil]
  | succ left ih =>
      have inside : first < stream.length := by omega
      obtain ⟨rest, popped, later⟩ := window.pop_some (List.getElem?_eq_getElem inside)
      have latched : u.chip.lcr &&& UART_LCR_DLAB = 0 := by
        rw [closed]
        decide
      rw [txLoop_some popped, uartPutcharRaw_line latched]
      obtain ⟨ring, last, sent⟩ := @ih { u with
          txRing := rest
          chip := { u.chip with line := u.chip.line ++ [stream.get ⟨first, inside⟩] } }
        (first + 1) closed later (by omega)
      refine ⟨ring, last, sent.trans ?_⟩
      rw [List.drop_eq_getElem_cons inside, ← List.append_cons]
      rfl

theorem txPushLoop_eq (u : Uart) (data : Bytes)
    : ∃ txBytes, txPushLoop u data
      = { u with
          txRing := data.foldl (fun ring byte => (ring.push byte).1) u.txRing
          txBytes := txBytes } := by
  induction data generalizing u with
  | nil => exact ⟨u.txBytes, rfl⟩
  | cons byte data ih => exact ih _

theorem serialDataWrite_spec {u : Uart} (idle : TxIdle u) (data : Bytes)
    : ∃ ring txBytes, (∃ stream, ring.Window stream stream.length)
        ∧ (serialDataWrite u data).1
          = { u with
              chip := { u.chip with
                line := u.chip.line ++ data.drop (data.length + 1 - SERIAL_RING_SIZE) }
              txRing := ring
              txBytes := txBytes } := by
  obtain ⟨closed, stream, window⟩ := idle
  obtain ⟨txBytes, pushed⟩ := txPushLoop_eq u data
  have filled := window.pushMany data
  have starts : max stream.length (stream.length + data.length + 1 - SERIAL_RING_SIZE)
      = stream.length + (data.length + 1 - SERIAL_RING_SIZE) := by omega
  rw [starts] at filled
  obtain ⟨ring, last, sent⟩ := txLoop_spec (u := txPushLoop u data) (by rw [pushed]; exact closed)
    (by rw [pushed]; exact filled)
  have line : (stream ++ data).drop (stream.length + (data.length + 1 - SERIAL_RING_SIZE))
      = data.drop (data.length + 1 - SERIAL_RING_SIZE) := by
    rw [← List.drop_drop, List.drop_left]
  rw [line, pushed] at sent
  refine ⟨ring, txBytes, ⟨_, last⟩, ?_⟩
  rw [serialDataWrite, pushed]
  exact sent

theorem TxIdle.write {u : Uart} (idle : TxIdle u) (data : Bytes)
    : TxIdle (serialDataWrite u data).1 := by
  obtain ⟨ring, txBytes, empty, sent⟩ := serialDataWrite_spec idle data
  rw [sent]
  exact ⟨idle.closed, empty⟩

theorem reported_iff (u : Uart) (data : Bytes)
    : (serialDataWrite u data).2 = data.length ↔ data.length < 2 ^ 31 := by
  rw [serialDataWrite]
  have high := Int.bmod_lt (x := (data.length : Int)) (m := 2 ^ 32) (by decide)
  constructor
  · intro same
    dsimp only at same
    omega
  · intro small
    dsimp only
    exact Int.bmod_eq_of_le (by omega) (by omega)

theorem sends_write_iff {p : Port} (idle : TxIdle p.uart) (data : Bytes)
    : Sends p (.write data) ↔ data.length < SERIAL_RING_SIZE ∨ 2 ^ 31 ≤ data.length := by
  obtain ⟨ring, txBytes, -, sent⟩ := serialDataWrite_spec idle data
  have line : (p.step (.write data)).uart.chip.line
      = p.uart.chip.line ++ data.drop (data.length + 1 - SERIAL_RING_SIZE) :=
    congrArg (fun u => u.chip.line) sent
  rw [Sends, line, Event.Accepted, reported_iff, Event.written, List.append_cancel_left_eq]
  constructor
  · intro sends
    by_cases small : data.length < 2 ^ 31
    · have length := congrArg List.length (sends small)
      rw [List.length_drop] at length
      have size : 0 < SERIAL_RING_SIZE := by decide
      omega
    · exact .inr (Nat.le_of_not_lt small)
  · rintro (fits | large) small
    · rw [(by omega : data.length + 1 - SERIAL_RING_SIZE = 0), List.drop_zero]
    · omega

-- Runs

/-- What is kept in every run: the way in, and an idle way out. -/
def Kept (p : Port) (pushed : Bytes) (losses : Nat) : Prop :=
  TxIdle p.uart ∧ ∃ first left, RxKept p pushed losses first left

theorem serialDrain_out (p : Port) (turns : List (Bool × Option UInt8))
    : (serialDrain p turns).uart.chip = p.uart.chip
      ∧ (serialDrain p turns).uart.txRing = p.uart.txRing := by
  induction turns generalizing p with
  | nil => exact ⟨rfl, rfl⟩
  | cons turn turns ih =>
      obtain ⟨overrun, ready⟩ := turn
      cases overrun <;> cases ready
      · exact ⟨rfl, rfl⟩
      · exact ih _
      · exact ⟨rfl, rfl⟩
      · exact ih _

theorem serialDataRead_out (p : Port) (who len : Nat)
    : (serialDataRead p who len).uart.chip = p.uart.chip
      ∧ (serialDataRead p who len).uart.txRing = p.uart.txRing := by
  rw [serialDataRead]
  dsimp only
  split
  next => exact ⟨rfl, rfl⟩
  next => exact ⟨rfl, rfl⟩

theorem step_out (p : Port) {event : Event} (silent : ∀ data, event ≠ .write data)
    : (p.step event).uart.chip = p.uart.chip ∧ (p.step event).uart.txRing = p.uart.txRing := by
  cases event with
  | interrupt turns => exact serialDrain_out p turns
  | write data => exact absurd rfl (silent data)
  | read who len =>
      rw [Port.step]
      split
      next => exact ⟨rfl, rfl⟩
      next => exact ⟨rfl, rfl⟩
  | advance who =>
      rw [Port.step]
      split
      next len _ => exact serialDataRead_out p who len
      next => exact ⟨rfl, rfl⟩
  | wake who => exact ⟨rfl, rfl⟩

theorem TxIdle.step {p : Port} (idle : TxIdle p.uart) (event : Event)
    : TxIdle (p.step event).uart := by
  by_cases writes : ∃ data, event = .write data
  · obtain ⟨data, rfl⟩ := writes
    exact idle.write data
  · obtain ⟨chip, ring⟩ := step_out p fun data same => writes ⟨data, same⟩
    refine ⟨by rw [chip]; exact idle.closed, ?_⟩
    rw [ring]
    exact idle.empty

theorem sends_iff {p : Port} (idle : TxIdle p.uart) (event : Event)
    : Sends p event
      ↔ event.written.length < SERIAL_RING_SIZE ∨ 2 ^ 31 ≤ event.written.length := by
  by_cases writes : ∃ data, event = .write data
  · obtain ⟨data, rfl⟩ := writes
    exact sends_write_iff idle data
  · have silent : event.written = [] := by
      cases event with
      | write data => exact absurd ⟨data, rfl⟩ writes
      | _ => rfl
    obtain ⟨chip, -⟩ := step_out p fun data same => writes ⟨data, same⟩
    rw [Sends, silent, chip, List.append_nil]
    exact iff_of_true (fun _ => rfl) (.inl (by decide))

/-- The way in is kept by every step. -/
theorem RxKept.step (kept : RxKept p pushed losses first left) (idle : TxIdle p.uart)
    (event : Event)
    : ∃ first left, RxKept (p.step event) (pushed ++ event.pushed) (losses + event.losses) first
        left := by
  have same {q : Port} (later : ∃ first, RxKept q pushed losses first left)
      : ∃ first left, RxKept q (pushed ++ []) (losses + 0) first left := by
    rw [List.append_nil]
    exact ⟨later.choose, left, later.choose_spec⟩
  cases event with
  | interrupt turns => exact kept.drain turns
  | write data =>
      obtain ⟨ring, txBytes, -, sent⟩ := serialDataWrite_spec idle data
      rw [Port.step, sent]
      exact same ⟨first, kept.window, kept.sublist, kept.length, kept.overruns⟩
  | read who len =>
      rw [Port.step]
      split
      next => exact same ⟨first, kept.window, kept.sublist, kept.length, kept.overruns⟩
      next => exact same ⟨first, kept⟩
  | advance who =>
      rw [Port.step]
      split
      next len _ => exact same (kept.read who len)
      next => exact same ⟨first, kept⟩
  | wake who => exact same ⟨first, kept.window, kept.sublist, kept.length, kept.overruns⟩

theorem kept_start (chip : Chip) : Kept (serialRegister chip) [] 0 :=
  ⟨⟨rfl, [], DropRing.window_empty _ _⟩, 0, 0, DropRing.window_empty _ _,
    List.Sublist.refl _, rfl, rfl⟩

theorem kept_run (chip : Chip) (events : List Event)
    : Kept ((serialRegister chip).run events) (events.flatMap Event.pushed)
        (events.map Event.losses).sum := by
  induction events using List.reverseRecOn with
  | nil => exact kept_start chip
  | append_singleton events event ih =>
      obtain ⟨idle, first, left, kept⟩ := ih
      rw [Port.run, Runs.run, List.foldl_append, List.flatMap_append, List.map_append,
        List.sum_append, List.flatMap_singleton, List.map_singleton, List.sum_singleton]
      exact ⟨idle.step event, kept.step idle event⟩

/-- A port loses nothing without counting it just if no write that it reports as accepted is longer
than its ring has room for.
-/
theorem nothing_lost_iff (chip : Chip) (events : List Event)
    : NothingLost chip events
      ↔ ∀ data, Event.write data ∈ events
          → data.length < SERIAL_RING_SIZE ∨ 2 ^ 31 ≤ data.length := by
  constructor
  · intro kept data among
    obtain ⟨before, after, parts⟩ := List.append_of_mem among
    exact (sends_iff (kept_run chip before).1 (.write data)).mp (kept.sends before _ after parts)
  · intro short
    refine ⟨fun before event after parts => ?_, fun before after _ => ?_⟩
    · refine (sends_iff (kept_run chip before).1 event).mpr ?_
      cases event with
      | write data =>
          refine short data ?_
          rw [parts]
          exact List.mem_append_right _ List.mem_cons_self
      | _ => exact .inl (by decide : 0 < SERIAL_RING_SIZE)
    · obtain ⟨-, first, left, kept⟩ := kept_run chip before
      exact kept.counted

/-- A write of 1024 bytes loses the first of them. -/
theorem write_loses : ¬ ∀ (chip : Chip) (events : List Event), NothingLost chip events := by
  intro always
  have short := (nothing_lost_iff ⟨0, 0, 0, 0, []⟩ [.write (List.replicate 1024 0)]).mp
    (always _ _) _ List.mem_cons_self
  rw [List.length_replicate, SERIAL_RING_SIZE] at short
  omega

end Panuti.Serial
