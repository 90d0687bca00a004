import Panuti.Library.WaitList
import Panuti.Serial.Port

/-! The tasks that wait for bytes of a serial port. -/

namespace Panuti.Serial

/-- A task is blocked in `serial_data_read`. -/
def Control.IsBlocked : Control → Prop
  | .blocked _ => True
  | _ => False

/-- The waiters of a port, and the tasks that are blocked in it. -/
def Port.waits (p : Port) : WaitList.State Nat :=
  ⟨p.uart.rxWaiters, fun task => (p.controls task).IsBlocked⟩

/-- An interrupt handler that looks at the chip so often finds no byte. -/
def noByte : List (Bool × Option UInt8) → Bool
  | (_, some _) :: _ => false
  | _ => true

def Port.op (p : Port) : Event → WaitList.Op Nat
  | .interrupt turns => if noByte turns then .nothing else .wakeAll
  | .write _ => .nothing
  | .read _ _ => .nothing
  | .advance who =>
      match p.controls who with
      | .looking len => if (p.uart.rxRing.popMany len).1 = [] then .block who else .nothing
      | _ => .nothing
  | .wake who => .wake who

theorem isBlocked_update (controls : Nat → Control) (who : Nat) (control : Control) (task : Nat)
    : (Function.update controls who control task).IsBlocked
      ↔ task = who ∧ control.IsBlocked ∨ task ≠ who ∧ (controls task).IsBlocked := by
  by_cases self : task = who
  · subst self
    rw [Function.update_self]
    simp
  · rw [Function.update_of_ne self]
    simp [self]

theorem not_isBlocked_wake (control : Control) : ¬ control.wake.IsBlocked := by
  cases control with
  | idle => exact id
  | looking len => exact id
  | blocked len => exact id

theorem serialRxPush_waits (p : Port) (byte : UInt8)
    : (serialRxPush p byte).waits = WaitList.step SERIAL_MAX_WAITERS p.waits .wakeAll := by
  refine congrArg (WaitList.State.mk []) (funext fun task => propext ?_)
  have control : (serialRxPush p byte).controls task
      = if task ∈ p.uart.rxWaiters then (p.controls task).wake else p.controls task := rfl
  rw [control]
  dsimp only [Port.waits]
  by_cases among : task ∈ p.uart.rxWaiters
  · rw [if_pos among]
    exact iff_of_false (not_isBlocked_wake _) fun both => both.2 among
  · rw [if_neg among]
    exact (and_iff_left among).symm

theorem wakeAll_again {state : WaitList.State Nat} (none' : state.waiting = [])
    : WaitList.step SERIAL_MAX_WAITERS state .wakeAll = state := by
  obtain ⟨waiting, blocked⟩ := state
  obtain rfl : waiting = [] := none'
  exact congrArg (WaitList.State.mk []) (funext fun task => by simp)

theorem serialDrain_waits (p : Port) (turns : List (Bool × Option UInt8))
    : (serialDrain p turns).waits
      = WaitList.step SERIAL_MAX_WAITERS p.waits
          (if noByte turns then .nothing else .wakeAll) := by
  induction turns generalizing p with
  | nil => rfl
  | cons turn turns ih =>
      obtain ⟨overrun, ready⟩ := turn
      cases ready with
      | none => cases overrun <;> rfl
      | some byte =>
          have woken (q : Port) (same : q.waits = p.waits)
              : (serialDrain (serialRxPush q byte) turns).waits
                = WaitList.step SERIAL_MAX_WAITERS p.waits .wakeAll := by
            have one := serialRxPush_waits q byte
            rw [ih, one, same]
            split
            next => rfl
            next => exact wakeAll_again rfl
          cases overrun with
          | false => exact woken p rfl
          | true => exact woken _ rfl

theorem txLoop_rxWaiters (u : Uart) : (txLoop u).rxWaiters = u.rxWaiters := by
  fun_induction txLoop u with
  | case1 => rfl
  | case2 u byte rest pulled ih =>
      obtain ⟨popped, -, same⟩ := Option.map_eq_some_iff.mp pulled
      obtain ⟨-, rfl⟩ := Prod.mk.inj same
      exact ih

theorem txPushLoop_rxWaiters (u : Uart) (data : Bytes)
    : (txPushLoop u data).rxWaiters = u.rxWaiters := by
  induction data generalizing u with
  | nil => rfl
  | cons byte data ih => exact ih _

/-- A port does to its waiters what a wait list does. -/
theorem Port.step_waits (p : Port) (event : Event)
    : (p.step event).waits = WaitList.step SERIAL_MAX_WAITERS p.waits (p.op event) := by
  -- a control that is not blocked is replaced by another one
  have kept {who : Nat} {control : Control} (before : ¬ (p.controls who).IsBlocked)
      (after : ¬ control.IsBlocked)
      : (fun task => (Function.update p.controls who control task).IsBlocked)
        = fun task => (p.controls task).IsBlocked := by
    funext task
    rw [isBlocked_update]
    refine propext ⟨?_, fun blocked => .inr ⟨?_, blocked⟩⟩
    · rintro (⟨-, other⟩ | ⟨-, blocked⟩)
      · exact absurd other after
      · exact blocked
    · rintro rfl
      exact before blocked
  cases event with
  | interrupt turns => exact serialDrain_waits p turns
  | write data =>
      refine congrArg (fun waiting => WaitList.State.mk waiting _) ?_
      exact (txLoop_rxWaiters _).trans (txPushLoop_rxWaiters p.uart data)
  | read who len =>
      rw [Port.step, Port.op]
      split
      next both =>
          exact congrArg (WaitList.State.mk _) (kept (by rw [both.1]; exact id) id)
      next => rfl
  | advance who =>
      rw [Port.step, Port.op]
      cases there : p.controls who with
      | idle => rfl
      | blocked len => rfl
      | looking len =>
          have before : ¬ (p.controls who).IsBlocked := by
            rw [there]
            exact id
          dsimp only
          rw [serialDataRead]
          dsimp only
          split
          next =>
              refine congrArg (WaitList.State.mk _) (funext fun task => propext ?_)
              dsimp only [Port.waits]
              rw [isBlocked_update]
              by_cases self : task = who
              · simp [self, Control.IsBlocked]
              · simp [self]
          next =>
              have idle : ¬ Control.idle.IsBlocked := id
              exact congrArg (WaitList.State.mk _) (kept before idle)
  | wake who =>
      refine congrArg (WaitList.State.mk _) (funext fun task => propext ?_)
      dsimp only [Port.waits, Port.step]
      rw [isBlocked_update]
      have awake := not_isBlocked_wake (p.controls who)
      tauto

end Panuti.Serial
