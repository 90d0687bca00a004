import Panuti.Kbd.Queue
import Panuti.Serial.Readers

/-! Tasks that wait for input from the keyboard or from a serial port. A task that finds the list of
waiters full blocks all the same, and no arrival wakes it.
-/

namespace Panuti.Kbd

open Panuti.Serial (Port serialRegister Chip SERIAL_MAX_WAITERS)

/-- Every task that is blocked in the raw device is among its waiters, and a packet that arrives
makes it ready.
-/
structure Raw.Served {Packet : Type} (r : Raw Packet) : Prop where
  listed : ∀ task, (r.controls task).IsBlocked → task ∈ r.queue.waiting
  woken : ∀ pkt task, ¬ ((r.step (.push pkt)).controls task).IsBlocked

/-- Every task that is blocked in a port is among its waiters, and a byte that arrives makes it
ready.
-/
structure PortServed (p : Port) : Prop where
  listed : ∀ task, (p.controls task).IsBlocked → task ∈ p.uart.rxWaiters
  woken : ∀ byte task, ¬ ((Serial.serialRxPush p byte).controls task).IsBlocked

/-- A read that is to block finds fewer waiters than there is room for, or its task among them. -/
def Raw.Ready {Packet : Type} (r : Raw Packet) (event : RawEvent Packet) : Prop :=
  ∀ who wanted got, event = .advance who → r.controls who = .looking wanted got
    → r.queue.count = 0
    → r.queue.waiting.length < KBD_MAX_WAITERS ∨ who ∈ r.queue.waiting

def PortReady (p : Port) (event : Serial.Event) : Prop :=
  ∀ who len, event = .advance who → p.controls who = .looking len
    → (p.uart.rxRing.popMany len).1 = []
    → p.uart.rxWaiters.length < SERIAL_MAX_WAITERS ∨ who ∈ p.uart.rxWaiters

theorem Raw.served_iff {Packet : Type} (r : Raw Packet) : r.Served ↔ WaitList.Awaited r.waits := by
  refine ⟨fun served => served.listed, fun awaited => ⟨awaited, fun pkt task blocked => ?_⟩⟩
  have same := congrArg WaitList.State.blocked (r.step_waits (.push pkt))
  exact awaited.wakeAll KBD_MAX_WAITERS task (congrFun same task ▸ blocked)

theorem portServed_iff (p : Port) : PortServed p ↔ WaitList.Awaited p.waits := by
  refine ⟨fun served => served.listed, fun awaited => ⟨awaited, fun byte task blocked => ?_⟩⟩
  have same := congrArg WaitList.State.blocked (Serial.serialRxPush_waits p byte)
  exact awaited.wakeAll SERIAL_MAX_WAITERS task (congrFun same task ▸ blocked)

theorem Raw.ready_iff {Packet : Type} (r : Raw Packet) (event : RawEvent Packet)
    : r.Ready event ↔ WaitList.Prepared KBD_MAX_WAITERS r.waits (r.op event) := by
  cases event with
  | advance who =>
      rw [Raw.op]
      cases there : r.controls who with
      | looking wanted got =>
          dsimp only
          by_cases empty : r.queue.count = 0
          · rw [if_pos empty]
            constructor
            · exact fun ready => ready who wanted got rfl there empty
            · rintro prepared _ _ _ ⟨⟩ - -
              exact prepared
          · rw [if_neg empty]
            exact iff_of_true (fun _ _ _ _ _ none' => absurd none' empty) trivial
      | idle =>
          refine iff_of_true (fun _ _ _ same other => ?_) trivial
          rw [← RawEvent.advance.inj same, there] at other
          cases other
      | blocked wanted got =>
          refine iff_of_true (fun _ _ _ same other => ?_) trivial
          rw [← RawEvent.advance.inj same, there] at other
          cases other
  | push pkt => exact iff_of_true (by rintro _ _ _ ⟨⟩) trivial
  | kbdRawOpen => exact iff_of_true (by rintro _ _ _ ⟨⟩) trivial
  | read who packets => exact iff_of_true (by rintro _ _ _ ⟨⟩) trivial
  | wake who => exact iff_of_true (by rintro _ _ _ ⟨⟩) trivial

theorem portReady_iff (p : Port) (event : Serial.Event)
    : PortReady p event ↔ WaitList.Prepared SERIAL_MAX_WAITERS p.waits (p.op event) := by
  cases event with
  | advance who =>
      rw [Port.op]
      cases there : p.controls who with
      | looking len =>
          dsimp only
          by_cases empty : (p.uart.rxRing.popMany len).1 = []
          · rw [if_pos empty]
            constructor
            · exact fun ready => ready who len rfl there empty
            · intro prepared _ _ same _ _
              rw [← Serial.Event.advance.inj same]
              exact prepared
          · rw [if_neg empty]
            refine iff_of_true (fun _ _ same other none' => ?_) trivial
            rw [← Serial.Event.advance.inj same, there] at other
            obtain rfl := Serial.Control.looking.inj other
            exact absurd none' empty
      | idle =>
          refine iff_of_true (fun _ _ same other => ?_) trivial
          rw [← Serial.Event.advance.inj same, there] at other
          cases other
      | blocked len =>
          refine iff_of_true (fun _ _ same other => ?_) trivial
          rw [← Serial.Event.advance.inj same, there] at other
          cases other
  | interrupt turns =>
      refine iff_of_true (by rintro _ _ ⟨⟩) ?_
      rw [Port.op]
      split <;> trivial
  | write data => exact iff_of_true (by rintro _ _ ⟨⟩) trivial
  | read who len => exact iff_of_true (by rintro _ _ ⟨⟩) trivial
  | wake who => exact iff_of_true (by rintro _ _ ⟨⟩) trivial

/-- No wake-up is lost, in the raw device and in a port, just if no read blocks while the waiters
have no room for its task.
-/
theorem wakeups_iff {Packet : Type} (pkt : Packet) (events : List (RawEvent Packet)) (chip : Chip)
    (portEvents : List Serial.Event)
    : ((∀ before after, events = before ++ after → ((Raw.init pkt).run before).Served)
        ↔ Runs.Throughout Raw.step Raw.Ready (Raw.init pkt) events)
      ∧ ((∀ before after, portEvents = before ++ after
            → PortServed ((serialRegister chip).run before))
        ↔ Runs.Throughout Port.step PortReady (serialRegister chip) portEvents) := by
  constructor
  · have ready : Raw.Ready = fun (r : Raw Packet) event =>
        WaitList.Prepared KBD_MAX_WAITERS r.waits (r.op event) :=
      funext fun r => funext fun event => propext (r.ready_iff event)
    have start : WaitList.Awaited (Raw.init pkt).waits := fun _ blocked => False.elim blocked
    rw [ready, ← WaitList.awaited_iff Raw.waits Raw.op KBD_MAX_WAITERS Raw.step_waits start]
    exact forall_congr' fun before => forall_congr' fun after => imp_congr_right fun _ =>
      Raw.served_iff _
  · have ready : PortReady = fun (p : Port) event =>
        WaitList.Prepared SERIAL_MAX_WAITERS p.waits (p.op event) :=
      funext fun p => funext fun event => propext (portReady_iff p event)
    have start : WaitList.Awaited (serialRegister chip).waits :=
      fun _ blocked => False.elim blocked
    rw [ready, ← WaitList.awaited_iff Port.waits Port.op SERIAL_MAX_WAITERS Port.step_waits start]
    exact forall_congr' fun before => forall_congr' fun after => imp_congr_right fun _ =>
      portServed_iff _

/-- Of nine tasks that read the raw device, the last one is not among the waiters. -/
theorem ninth_reader_left
    : ¬ ∀ (pkt : Nat) (events : List (RawEvent Nat)), ((Raw.init pkt).run events).Served := by
  intro always
  let events : List (RawEvent Nat) :=
    (List.range 9).flatMap fun who => [.read who 1, .advance who]
  have lost : ((Raw.init 0).run events).controls 8 = .blocked 1 [] := by rfl
  have among := (always 0 events).listed 8 (by rw [lost]; trivial)
  revert among
  decide

end Panuti.Kbd
