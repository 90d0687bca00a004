import Mathlib.Logic.Function.Basic
import Panuti.Library.Runs
import Panuti.Library.WaitList

/-! The queues of key packets and the raw keyboard device. The interrupt handler puts a packet into
a queue and wakes the tasks that wait for one; any number of tasks may read the raw device.
-/

namespace Panuti.Kbd

def KBD_QUEUE_SIZE : Nat := 64

def KBD_MAX_WAITERS : Nat := 8

/-- `kbd_queue_t`, over the packets. -/
structure Queue (Packet : Type) where
  buffer : Nat → Packet
  head : Nat
  tail : Nat
  count : Nat
  waiting : List Nat

section

variable {Packet : Type}

/-- `queue_push`: the waiters are woken by its caller here, and there are none any more. -/
def queuePush (q : Queue Packet) (pkt : Packet) : Queue Packet :=
  let q :=
    if q.count = KBD_QUEUE_SIZE then
      { q with head := (q.head + 1) % KBD_QUEUE_SIZE, count := q.count - 1 }
    else q
  { buffer := Function.update q.buffer q.tail pkt
    head := q.head
    tail := (q.tail + 1) % KBD_QUEUE_SIZE
    count := q.count + 1
    waiting := [] }

/-- A task enters itself in the queue, if there is room. -/
def Queue.register (q : Queue Packet) (who : Nat) : Queue Packet :=
  { q with
    waiting := if q.waiting.length < KBD_MAX_WAITERS then q.waiting ++ [who] else q.waiting }

/-- What `queue_read` takes from a queue that is not empty. -/
def Queue.take (q : Queue Packet) : Packet × Queue Packet :=
  (q.buffer q.head,
    { q with head := (q.head + 1) % KBD_QUEUE_SIZE, count := q.count - 1 })

/-- `kbd_core_drain_raw_queue` and `kbd_core_drain_line_queue`. -/
def Queue.drain (q : Queue Packet) : Queue Packet := { q with head := 0, tail := 0, count := 0 }

/-- A queue as `kbd_core_init` leaves it. -/
def Queue.init (pkt : Packet) : Queue Packet := ⟨fun _ => pkt, 0, 0, 0, []⟩

/-- Where a task is in `kbd_raw_read`: about to look at the queue or blocked in `queue_read`, with
how many packets it still wants and those that it has.
-/
inductive Control (Packet : Type) where
  | idle
  | looking (wanted : Nat) (got : List Packet)
  | blocked (wanted : Nat) (got : List Packet)

/-- `task_wake`. -/
def Control.wake : Control Packet → Control Packet
  | .blocked wanted got => .looking wanted got
  | control => control

/-- A task is blocked in `queue_read`. -/
def Control.IsBlocked : Control Packet → Prop
  | .blocked _ _ => True
  | _ => False

/-- The raw device with the tasks that read from it, and what their reads have returned. -/
structure Raw (Packet : Type) where
  queue : Queue Packet
  controls : Nat → Control Packet
  returned : List (Nat × List Packet)

/-- What happens to the raw device: a packet arrives, it is opened, a read of so many packets
begins, a read looks at the queue, and a task is woken by others.
-/
inductive RawEvent (Packet : Type) where
  | push (pkt : Packet)
  | kbdRawOpen
  | read (who packets : Nat)
  | advance (who : Nat)
  | wake (who : Nat)

/-- The next turn of the loop of `kbd_raw_read`, in `queue_read`. -/
def Raw.look (r : Raw Packet) (who wanted : Nat) (got : List Packet) : Raw Packet :=
  if r.queue.count = 0 then
    { r with
      queue := r.queue.register who
      controls := Function.update r.controls who (.blocked wanted got) }
  else
    let taken := r.queue.take
    if wanted ≤ 1 then
      { queue := taken.2
        controls := Function.update r.controls who .idle
        returned := r.returned ++ [(who, got ++ [taken.1])] }
    else
      { r with
        queue := taken.2
        controls := Function.update r.controls who (.looking (wanted - 1) (got ++ [taken.1])) }

def Raw.step (r : Raw Packet) : RawEvent Packet → Raw Packet
  | .push pkt =>
      { r with
        queue := queuePush r.queue pkt
        controls := fun task =>
          if task ∈ r.queue.waiting then (r.controls task).wake else r.controls task }
  | .kbdRawOpen => { r with queue := r.queue.drain }
  | .read who packets =>
      match r.controls who with
      | .idle =>
          if packets = 0 then r
          else { r with controls := Function.update r.controls who (.looking packets []) }
      | _ => r
  | .advance who =>
      match r.controls who with
      | .looking wanted got => r.look who wanted got
      | _ => r
  | .wake who => { r with controls := Function.update r.controls who (r.controls who).wake }

def Raw.run (r : Raw Packet) (events : List (RawEvent Packet)) : Raw Packet :=
  Runs.run Raw.step r events

def Raw.init (pkt : Packet) : Raw Packet := ⟨Queue.init pkt, fun _ => .idle, []⟩

-- The waiters

/-- The waiters of the raw device, and the tasks that are blocked in it. -/
def Raw.waits (r : Raw Packet) : WaitList.State Nat :=
  ⟨r.queue.waiting, fun task => (r.controls task).IsBlocked⟩

def Raw.op (r : Raw Packet) : RawEvent Packet → WaitList.Op Nat
  | .push _ => .wakeAll
  | .kbdRawOpen => .nothing
  | .read _ _ => .nothing
  | .advance who =>
      match r.controls who with
      | .looking _ _ => if r.queue.count = 0 then .block who else .nothing
      | _ => .nothing
  | .wake who => .wake who

theorem isBlocked_update (controls : Nat → Control Packet) (who : Nat) (control : Control Packet)
    (task : Nat)
    : (Function.update controls who control task).IsBlocked
      ↔ task = who ∧ control.IsBlocked ∨ task ≠ who ∧ (controls task).IsBlocked := by
  by_cases self : task = who
  · subst self
    rw [Function.update_self]
    simp
  · rw [Function.update_of_ne self]
    simp [self]

theorem not_isBlocked_wake (control : Control Packet) : ¬ control.wake.IsBlocked := by
  cases control with
  | idle => exact id
  | looking wanted got => exact id
  | blocked wanted got => exact id

/-- The raw device does to its waiters what a wait list does. -/
theorem Raw.step_waits (r : Raw Packet) (event : RawEvent Packet)
    : (r.step event).waits = WaitList.step KBD_MAX_WAITERS r.waits (r.op event) := by
  -- a control that is not blocked is replaced by another one
  have kept {who : Nat} {control : Control Packet} (before : ¬ (r.controls who).IsBlocked)
      (after : ¬ control.IsBlocked)
      : (fun task => (Function.update r.controls who control task).IsBlocked)
        = fun task => (r.controls task).IsBlocked := by
    funext task
    rw [isBlocked_update]
    refine propext ⟨?_, fun blocked => .inr ⟨?_, blocked⟩⟩
    · rintro (⟨-, other⟩ | ⟨-, blocked⟩)
      · exact absurd other after
      · exact blocked
    · rintro rfl
      exact before blocked
  cases event with
  | push pkt =>
      refine congrArg (WaitList.State.mk []) (funext fun task => propext ?_)
      dsimp only [Raw.waits, Raw.step]
      split
      next among =>
          exact iff_of_false (not_isBlocked_wake _) fun both => both.2 among
      next other => exact (and_iff_left other).symm
  | kbdRawOpen => rfl
  | read who packets =>
      rw [Raw.step, Raw.op]
      split
      next there =>
          split
          next => rfl
          next => exact congrArg (WaitList.State.mk _) (kept (by rw [there]; exact id) id)
      next => rfl
  | advance who =>
      rw [Raw.step, Raw.op]
      split
      next wanted got there =>
          have before : ¬ (r.controls who).IsBlocked := by
            rw [there]
            exact id
          rw [Raw.look]
          split
          next =>
              refine congrArg (WaitList.State.mk _) (funext fun task => propext ?_)
              rw [isBlocked_update]
              dsimp only [Raw.waits]
              by_cases self : task = who
              · simp [self, Control.IsBlocked]
              · simp [self]
          next =>
              dsimp only
              split
              next => exact congrArg (WaitList.State.mk _) (kept before id)
              next => exact congrArg (WaitList.State.mk _) (kept before id)
      next => rfl
  | wake who =>
      refine congrArg (WaitList.State.mk _) (funext fun task => propext ?_)
      dsimp only [Raw.waits, Raw.step]
      rw [isBlocked_update]
      have awake := not_isBlocked_wake (r.controls who)
      tauto

end

end Panuti.Kbd
