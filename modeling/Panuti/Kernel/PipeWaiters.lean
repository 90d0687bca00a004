import Panuti.Kernel.PipeRuns

/-! The waiters of a pipe. A task that blocks in `pipe_read` or `pipe_write` enters itself in one
of two arrays, and `pipe_wake_all` goes through one of them, with interrupts enabled, and empties
it. Every step is a step of the pipe or leaves it alone, so the pipe stays the queue it is.
-/

namespace Panuti.Pipe

-- State

def PIPE_MAX_WAITERS : Nat := 8

/-- `readers_waiting` and `no_readers_waiting`, or those of the writers. -/
structure Waiters where
  slots : Nat → Nat
  count : Nat

/-- A task that blocks enters itself where there is room. -/
def Waiters.register (waiters : Waiters) (who : Nat) : Waiters :=
  if waiters.count < PIPE_MAX_WAITERS then
    ⟨Function.update waiters.slots waiters.count who, waiters.count + 1⟩
  else waiters

/-- Where a task stands in `pipe_wake_all`: before the loop looks at the count, with the task
loaded from the array, or before the count is set to 0.
-/
inductive WakePlace where
  | test (i : Nat)
  | wake (i task : Nat)
  | reset
deriving Repr, DecidableEq

/-- The pipe with the waiters for data (`false`) and for room (`true`), and the tasks that are in
`pipe_wake_all` of one of the two.
-/
structure Waiting where
  pipe : State
  waiters : Bool → Waiters
  waking : Nat → Option (Bool × WakePlace)

-- Steps

/-- The array the next step of a call enters the task in, before it blocks. -/
def State.blocksIn (state : State) (who : Nat) : Option Bool :=
  match state.controls who with
  | .readCheck _ =>
      if 0 < state.pipe.count ∨ state.pipe.writeEndClosed then none else some false
  | .writeCheck _ =>
      if state.pipe.count < state.pipe.capacity ∨ state.pipe.readEndClosed then none
      else some true
  | _ => none

/-- The array whose tasks are woken behind the next step of a call. -/
def State.wakesFor (state : State) (who : Nat) : Option Bool :=
  match state.controls who with
  | .readCopy _ len out => if out.length < len then none else some true
  | .writeCopy _ len done => if done < len then none else some false
  | .releasing isWriteEnd => some (!isWriteEnd)
  | _ => none

/-- The next step of a call outside `pipe_wake_all`. -/
def Waiting.callStep (waiting : Waiting) (who : Nat) : Waiting where
  pipe := waiting.pipe.step (.advance who)
  waiters :=
    match waiting.pipe.blocksIn who with
    | some side => Function.update waiting.waiters side ((waiting.waiters side).register who)
    | none => waiting.waiters
  waking :=
    match waiting.pipe.wakesFor who with
    | some side => Function.update waiting.waking who (some (side, .test 0))
    | none => waiting.waking

/-- One step of `pipe_wake_all`. -/
def Waiting.wakeStep (waiting : Waiting) (who : Nat) (side : Bool) : WakePlace → Waiting
  | .test i =>
      let place :=
        if i < (waiting.waiters side).count then .wake i ((waiting.waiters side).slots i)
        else .reset
      { waiting with waking := Function.update waiting.waking who (some (side, place)) }
  | .wake i task =>
      { waiting with
        pipe := waiting.pipe.step (.wake task)
        waking := Function.update waiting.waking who (some (side, .test (i + 1))) }
  | .reset =>
      { waiting with
        waiters :=
          Function.update waiting.waiters side { waiting.waiters side with count := 0 }
        waking := Function.update waiting.waking who none }

/-- A task in `pipe_wake_all` begins no other call. `wake` is a wake-up by others, from a list
that the task was left in.
-/
def Waiting.step (waiting : Waiting) : Event → Waiting
  | .advance who =>
      match waiting.waking who with
      | some (side, place) => waiting.wakeStep who side place
      | none => waiting.callStep who
  | .wake who => { waiting with pipe := waiting.pipe.step (.wake who) }
  | .read who isWriteEnd len =>
      if waiting.waking who = none then
        { waiting with pipe := waiting.pipe.step (.read who isWriteEnd len) }
      else waiting
  | .write who isWriteEnd bytes =>
      if waiting.waking who = none then
        { waiting with pipe := waiting.pipe.step (.write who isWriteEnd bytes) }
      else waiting
  | .inherit who child isWriteEnd =>
      if waiting.waking who = none then
        { waiting with pipe := waiting.pipe.step (.inherit who child isWriteEnd) }
      else waiting
  | .drop who owner isWriteEnd =>
      if waiting.waking who = none ∧ waiting.waking owner = none then
        { waiting with pipe := waiting.pipe.step (.drop who owner isWriteEnd) }
      else waiting

def Waiting.run (waiting : Waiting) (events : List Event) : Waiting :=
  Runs.run Waiting.step waiting events

/-- `pipe_create_pair` with empty arrays of waiters, whose slots hold what was there before. -/
def createWaiting (creator : Nat) (old : Nat → UInt8) (slots : Bool → Nat → Nat) : Waiting where
  pipe := pipeCreatePair creator old
  waiters side := ⟨slots side, 0⟩
  waking _ := none

-- Blocked tasks

/-- The task is blocked, for data (`false`) or for room (`true`). -/
def Control.BlockedFor : Control → Bool → Prop
  | .readBlocked _, side => side = false
  | .writeBlocked _, side => side = true
  | _, _ => False

variable {state : State} {who task : Nat} {side : Bool} {waiting : Waiting}

theorem goto_blocked {control : Control} (not : ¬control.BlockedFor side)
    (blocked : ((state.goto who control).controls task).BlockedFor side)
    : task ≠ who ∧ (state.controls task).BlockedFor side := by
  rw [goto_controls] at blocked
  split at blocked
  · exact absurd blocked not
  · exact ⟨by assumption, blocked⟩

/-- The next step of a call blocks the task itself, in the array it is entered in, or no task. -/
theorem advance_blocked (blocked : ((state.step (.advance who)).controls task).BlockedFor side)
    : (state.controls task).BlockedFor side
      ∨ task = who ∧ state.blocksIn who = some side := by
  simp only [State.step] at blocked
  unfold State.blocksIn
  cases there : state.controls who with
  | idle => rw [there] at blocked; exact Or.inl blocked
  | readBlocked len => rw [there] at blocked; exact Or.inl blocked
  | writeBlocked bytes => rw [there] at blocked; exact Or.inl blocked
  | readCheck len =>
      simp only [there, readStep] at blocked ⊢
      split at blocked
      · exact Or.inl (goto_blocked (by simp [Control.BlockedFor]) blocked).2
      · rename_i empty
        rw [if_neg empty]
        rw [goto_controls] at blocked
        split at blocked
        · rename_i self
          obtain rfl : side = false := blocked
          exact Or.inr ⟨self, rfl⟩
        · exact Or.inl blocked
  | writeCheck bytes =>
      simp only [there, writeStep] at blocked ⊢
      split at blocked
      · exact Or.inl (goto_blocked (by simp [Control.BlockedFor]) blocked).2
      · rename_i full
        rw [if_neg full]
        rw [goto_controls] at blocked
        split at blocked
        · rename_i self
          obtain rfl : side = true := blocked
          exact Or.inr ⟨self, rfl⟩
        · exact Or.inl blocked
  | readTest len =>
      simp only [there, readStep] at blocked
      split at blocked <;> exact Or.inl (goto_blocked (by simp [Control.BlockedFor]) blocked).2
  | readStart len =>
      simp only [there, readStep] at blocked
      exact Or.inl (goto_blocked (by simp [Control.BlockedFor]) blocked).2
  | readCopy asked len out =>
      simp only [there, readStep] at blocked
      split at blocked <;> exact Or.inl (goto_blocked (by simp [Control.BlockedFor]) blocked).2
  | writeTest bytes =>
      simp only [there, writeStep] at blocked
      split at blocked <;> exact Or.inl (goto_blocked (by simp [Control.BlockedFor]) blocked).2
  | writeStart bytes =>
      simp only [there, writeStep] at blocked
      exact Or.inl (goto_blocked (by simp [Control.BlockedFor]) blocked).2
  | writeCopy bytes len done =>
      simp only [there, writeStep] at blocked
      split at blocked <;> exact Or.inl (goto_blocked (by simp [Control.BlockedFor]) blocked).2
  | releasing isWriteEnd =>
      simp only [there, releaseStep] at blocked
      exact Or.inl (goto_blocked (by simp [Control.BlockedFor]) blocked).2
  | leaving =>
      simp only [there, releaseStep] at blocked
      exact Or.inl (goto_blocked (by simp [Control.BlockedFor]) blocked).2

theorem wake_blocked (blocked : ((state.step (.wake who)).controls task).BlockedFor side)
    : task ≠ who ∧ (state.controls task).BlockedFor side := by
  simp only [State.step] at blocked
  split at blocked
  · exact goto_blocked (by simp [Control.BlockedFor]) blocked
  · exact goto_blocked (by simp [Control.BlockedFor]) blocked
  · rename_i notReading notWriting
    refine ⟨?_, blocked⟩
    rintro rfl
    cases there : state.controls task <;> rw [there] at blocked <;>
      simp_all [Control.BlockedFor]

theorem begin_blocked {event : Event} (notAdvance : ∀ who, event ≠ .advance who)
    (blocked : ((state.step event).controls task).BlockedFor side)
    : (state.controls task).BlockedFor side := by
  cases event with
  | advance who => exact absurd rfl (notAdvance who)
  | wake who => exact (wake_blocked blocked).2
  | read who isWriteEnd len =>
      simp only [State.step] at blocked
      split at blocked
      · split at blocked <;> exact (goto_blocked (by simp [Control.BlockedFor]) blocked).2
      · exact blocked
  | write who isWriteEnd bytes =>
      simp only [State.step] at blocked
      split at blocked
      · split at blocked
        · exact (goto_blocked (by simp [Control.BlockedFor]) blocked).2
        · split at blocked <;> exact (goto_blocked (by simp [Control.BlockedFor]) blocked).2
      · exact blocked
  | inherit who child isWriteEnd =>
      simp only [State.step] at blocked
      split at blocked <;> exact blocked
  | drop who owner isWriteEnd =>
      simp only [State.step, pipeEndUnref] at blocked
      split at blocked
      · split at blocked
        · exact blocked
        · exact (goto_blocked (by simp [Control.BlockedFor]) blocked).2
      · exact blocked

-- Every blocked task is registered, in front of every wake-up under way

/-- A task that is in `pipe_wake_all` will still come to this slot with this task in it. -/
def WakePlace.Ahead : WakePlace → (slot task : Nat) → Prop
  | .test i, slot, _ => i ≤ slot
  | .wake i loaded, slot, task => i < slot ∨ i = slot ∧ loaded = task
  | .reset, _, _ => False

/-- Every task in `pipe_wake_all` of the array will still come to the slot. -/
def Waiting.Covered (waiting : Waiting) (side : Bool) (slot task : Nat) : Prop :=
  ∀ waker place, waiting.waking waker = some (side, place) → place.Ahead slot task

/-- Every blocked task is in a slot that every wake-up under way will still come to. -/
def Waiting.Awaited (waiting : Waiting) : Prop :=
  ∀ task side, (waiting.pipe.controls task).BlockedFor side
    → ∃ slot < (waiting.waiters side).count,
        (waiting.waiters side).slots slot = task ∧ waiting.Covered side slot task

/-- A task that is to block finds a free slot, which every `pipe_wake_all` of the array that is
under way will still come to.
-/
def Waiting.Prepared (waiting : Waiting) : Event → Prop
  | .advance who =>
      waiting.waking who = none
      → ∀ side, waiting.pipe.blocksIn who = some side
      → (waiting.waiters side).count < PIPE_MAX_WAITERS
        ∧ waiting.Covered side (waiting.waiters side).count who
  | _ => True

theorem Waiting.Awaited.ofPipe (awaited : waiting.Awaited) {pipe : State}
    (blocks
      : ∀ task side, (pipe.controls task).BlockedFor side
        → (waiting.pipe.controls task).BlockedFor side)
    : Waiting.Awaited { waiting with pipe := pipe } :=
  fun task side blocked => awaited task side (blocks task side blocked)

/-- A task that blocks in a call is registered; no step both blocks a task and wakes others. -/
theorem Waiting.Awaited.callStep (awaited : waiting.Awaited) (idle : waiting.waking who = none)
    (prepared : waiting.Prepared (.advance who))
    : (waiting.callStep who).Awaited := by
  have room := prepared idle
  intro task side blocked
  -- a wake-up that begins now comes to every slot
  have covers {slot : Nat} (covered : waiting.Covered side slot task)
      : (waiting.callStep who).Covered side slot task := by
    intro waker place under
    cases wakes : waiting.pipe.wakesFor who with
    | none =>
        simp only [Waiting.callStep, wakes] at under
        exact covered waker place under
    | some begun =>
        simp only [Waiting.callStep, wakes] at under
        by_cases self : waker = who
        · rw [self, Function.update_self] at under
          injection under with same
          injection same with _ samePlace
          rw [← samePlace]
          exact Nat.zero_le _
        · rw [Function.update_of_ne self] at under
          exact covered waker place under
  rcases advance_blocked blocked with before | ⟨rfl, blocks⟩
  · obtain ⟨slot, inside, held, covered⟩ := awaited task side before
    cases registers : waiting.pipe.blocksIn who with
    | none =>
        refine ⟨slot, ?_, ?_, covers covered⟩ <;> simp only [Waiting.callStep, registers]
        · exact inside
        · exact held
    | some other =>
        by_cases same : side = other
        · subst same
          have free := (room side registers).1
          have apart : slot ≠ (waiting.waiters side).count := Nat.ne_of_lt inside
          refine ⟨slot, ?_, ?_, covers covered⟩ <;>
            simp only [Waiting.callStep, registers, Function.update_self, Waiters.register,
              if_pos free]
          · omega
          · rw [Function.update_of_ne apart]
            exact held
        · refine ⟨slot, ?_, ?_, covers covered⟩ <;>
            simp only [Waiting.callStep, registers, Function.update_of_ne same]
          · exact inside
          · exact held
  · obtain ⟨free, covered⟩ := room side blocks
    refine ⟨(waiting.waiters side).count, ?_, ?_, covers covered⟩ <;>
      simp only [Waiting.callStep, blocks, Function.update_self, Waiters.register, if_pos free]
    omega

/-- `pipe_wake_all` passes a slot only with its task woken, so none is blocked when it empties
the array.
-/
theorem Waiting.Awaited.wakeStep {place : WakePlace} (awaited : waiting.Awaited)
    (under : waiting.waking who = some (side, place))
    : (waiting.wakeStep who side place).Awaited := by
  -- the others' wake-ups are where they were
  have others {after : Waiting} {next : Option (Bool × WakePlace)} {slot task : Nat}
      {other : Bool} (waking : after.waking = Function.update waiting.waking who next)
      (covered : waiting.Covered other slot task)
      (mine : ∀ place, next = some (other, place) → place.Ahead slot task)
      : after.Covered other slot task := by
    intro waker place' there
    rw [waking] at there
    by_cases self : waker = who
    · rw [self, Function.update_self] at there
      exact mine place' there
    · rw [Function.update_of_ne self] at there
      exact covered waker place' there
  cases place with
  | test i =>
      intro task other blocked
      obtain ⟨slot, inside, held, covered⟩ := awaited task other blocked
      refine ⟨slot, inside, held, others rfl covered ?_⟩
      intro next same
      injection same with same
      injection same with sameSide samePlace
      subst sameSide
      have ahead : i ≤ slot := covered who _ under
      rw [← samePlace]
      split
      · rcases Nat.lt_or_eq_of_le ahead with before | here
        · exact Or.inl before
        · exact Or.inr ⟨here, by rw [here]; exact held⟩
      · omega
  | wake i loaded =>
      intro task other blocked
      obtain ⟨apart, before⟩ := wake_blocked blocked
      obtain ⟨slot, inside, held, covered⟩ := awaited task other before
      refine ⟨slot, inside, held, others rfl covered ?_⟩
      intro next same
      injection same with same
      injection same with sameSide samePlace
      subst sameSide
      have ahead : i < slot ∨ i = slot ∧ loaded = task := covered who _ under
      rw [← samePlace]
      rcases ahead with ahead | ⟨_, same⟩
      · exact ahead
      · exact absurd same.symm apart
  | reset =>
      intro task other blocked
      obtain ⟨slot, inside, held, covered⟩ := awaited task other blocked
      have different : other ≠ side := by
        rintro rfl
        exact covered who _ under
      refine ⟨slot, ?_, ?_, others rfl covered (fun place same => by cases same)⟩ <;>
        simp only [Waiting.wakeStep, Function.update_of_ne different]
      · exact inside
      · exact held

theorem Waiting.Awaited.step {waiting : Waiting} (awaited : waiting.Awaited) (event : Event)
    (prepared : waiting.Prepared event)
    : (waiting.step event).Awaited := by
  have begins (event : Event) (notAdvance : ∀ who, event ≠ .advance who)
      : Waiting.Awaited { waiting with pipe := waiting.pipe.step event } :=
    awaited.ofPipe (fun _ _ => begin_blocked notAdvance)
  cases event with
  | advance who =>
      simp only [Waiting.step]
      split
      · rename_i side place under
        exact awaited.wakeStep under
      · rename_i idle
        exact awaited.callStep idle prepared
  | wake who => exact begins _ nofun
  | read who isWriteEnd len =>
      simp only [Waiting.step]
      split
      · exact begins _ nofun
      · exact awaited
  | write who isWriteEnd bytes =>
      simp only [Waiting.step]
      split
      · exact begins _ nofun
      · exact awaited
  | inherit who child isWriteEnd =>
      simp only [Waiting.step]
      split
      · exact begins _ nofun
      · exact awaited
  | drop who owner isWriteEnd =>
      simp only [Waiting.step]
      split
      · exact begins _ nofun
      · exact awaited

-- No lost wake-up

/-- Every blocked task is registered, and none is left blocked by a `pipe_wake_all` that has gone
through its array.
-/
structure Waiting.Registered (waiting : Waiting) : Prop where
  registered
    : ∀ task side, (waiting.pipe.controls task).BlockedFor side
      → ∃ slot < (waiting.waiters side).count, (waiting.waiters side).slots slot = task
  woken
    : ∀ waker side, waiting.waking waker = some (side, .reset)
      → ∀ task, ¬(waiting.pipe.controls task).BlockedFor side

theorem Waiting.Awaited.registered (awaited : waiting.Awaited)
    : waiting.Registered where
  registered task side blocked := by
    obtain ⟨slot, inside, held, _⟩ := awaited task side blocked
    exact ⟨slot, inside, held⟩
  woken waker side under task blocked := by
    obtain ⟨slot, _, _, covered⟩ := awaited task side blocked
    exact covered waker _ under

theorem createWaiting_awaited (creator : Nat) (old : Nat → UInt8) (slots : Bool → Nat → Nat)
    : (createWaiting creator old slots).Awaited := by
  intro task side blocked
  have idle : Control.idle.BlockedFor side := blocked
  cases idle

/-- In every run in which tasks block only where their slot will be woken, every blocked task is
registered, and `pipe_wake_all` leaves none of its array blocked.
-/
theorem waiters_registered (creator : Nat) (old : Nat → UInt8) (slots : Bool → Nat → Nat)
    (events : List Event)
    (prepared
      : Runs.Throughout Waiting.step (fun waiting event => waiting.Prepared event)
          (createWaiting creator old slots) events)
    : ((createWaiting creator old slots).run events).Registered := by
  have awaited : ((createWaiting creator old slots).run events).Awaited :=
    prepared.invariant Waiting.Awaited (fun _ event holds fine => holds.step event fine)
      (createWaiting_awaited creator old slots)
  exact awaited.registered

/-- A reader blocks, and a write wakes it. -/
theorem waiters_registered_reader
    : ((createWaiting 0 (fun _ => 0) (fun _ _ => 0)).run
        [.inherit 0 1 true, .read 0 false 1, .advance 0, .write 1 true [7], .advance 1]
      ).Registered := by
  apply waiters_registered
  refine ⟨trivial, trivial, ?_, trivial, ?_, trivial⟩
  · intro _ side blocks
    obtain rfl : false = side := Option.some.inj blocks
    exact ⟨by decide, fun waker place under => by cases under⟩
  · intro _ side blocks
    cases blocks

/-- Of nine readers that wait for data, the last is not registered. -/
theorem ninth_reader_lost
    : ¬∀ creator old slots events,
        ((createWaiting creator old slots).run events).Registered := by
  intro claimed
  let events : List Event :=
    (List.range 8).map (fun i => .inherit 0 (i + 1) false)
      ++ (List.range 9).flatMap (fun i => [.read i false 1, .advance i])
  have lost : ((createWaiting 0 (fun _ => 0) (fun _ _ => 0)).run events).pipe.controls 8
      = .readBlocked 1 := by decide +kernel
  obtain ⟨slot, inside, held⟩ :=
    (claimed 0 (fun _ => 0) (fun _ _ => 0) events).registered 8 false (by rw [lost]; rfl)
  revert slot
  decide +kernel

-- No task sleeps through what it waits for

variable {out stored : List UInt8}

/-- What the waiters of a side wait for: data or the end of it, or room or the end of readers. -/
def Buffer.Ready (pipe : Buffer) : Bool → Prop
  | false => 0 < pipe.count ∨ pipe.writeEndClosed = true
  | true => pipe.count < pipe.capacity ∨ pipe.readEndClosed = true

/-- The pipe behind a turn of the loop of `pipe_read_raw`, or behind the loop. -/
theorem readCopy_pipe (asked len : Nat) (bytes : List UInt8)
    : (readStep state who (.readCopy asked len bytes)).pipe
      = if bytes.length < len then
          { state.pipe with head := (state.pipe.head + 1) % state.pipe.capacity }
        else { state.pipe with count := sizeSub state.pipe.count len } := by
  rw [readStep]
  split <;> rfl

theorem writeCopy_pipe (bytes : List UInt8) (len done : Nat)
    : (writeStep state who (.writeCopy bytes len done)).pipe
      = if done < len then
          { state.pipe with
            buffer := Function.update state.pipe.buffer state.pipe.tail (bytes.getD done 0)
            tail := (state.pipe.tail + 1) % state.pipe.capacity }
        else { state.pipe with count := sizeAdd state.pipe.count len } := by
  rw [writeStep]
  split <;> rfl

theorem blocksIn_not_ready (blocks : state.blocksIn who = some side)
    : ¬state.pipe.Ready side := by
  unfold State.blocksIn at blocks
  split at blocks
  · split at blocks
    · cases blocks
    · rename_i notReady
      obtain rfl := Option.some.inj blocks
      exact notReady
  · split at blocks
    · cases blocks
    · rename_i notReady
      obtain rfl := Option.some.inj blocks
      exact notReady
  · cases blocks

theorem begin_pipe {event : Event} (notAdvance : ∀ who, event ≠ .advance who)
    : (state.step event).pipe = state.pipe := by
  cases event with
  | advance who => exact absurd rfl (notAdvance who)
  | wake who =>
      simp only [State.step]
      split <;> rfl
  | read who isWriteEnd len =>
      simp only [State.step]
      split
      · split <;> rfl
      · rfl
  | write who isWriteEnd bytes =>
      simp only [State.step]
      split
      · split
        · rfl
        · split <;> rfl
      · rfl
  | inherit who child isWriteEnd =>
      simp only [State.step]
      split <;> rfl
  | drop who owner isWriteEnd =>
      simp only [State.step, pipeEndUnref]
      split
      · split <;> rfl
      · rfl

theorem Buffer.Ready.counted {pipe : Buffer} {count : Nat}
    (ready : Buffer.Ready { pipe with count } side)
    (less : side = false → 0 < count → 0 < pipe.count)
    (more : side = true → count < pipe.capacity → pipe.count < pipe.capacity)
    : pipe.Ready side := by
  cases side with
  | false => exact Or.imp_left (less rfl) ready
  | true => exact Or.imp_left (more rfl) ready

theorem Buffer.Ready.moved {pipe : Buffer} {buffer : Nat → UInt8} {head tail : Nat}
    (ready : Buffer.Ready { pipe with buffer, head, tail } side)
    : pipe.Ready side := by
  cases side with
  | false => exact ready
  | true => exact ready

theorem Buffer.closed_counted (pipe : Buffer) (count : Nat) (side : Bool)
    : Buffer.closed { pipe with count } side = pipe.closed side := by
  cases side <;> rfl

theorem Buffer.closed_moved (pipe : Buffer) (buffer : Nat → UInt8) (head tail : Nat) (side : Bool)
    : Buffer.closed { pipe with buffer, head, tail } side = pipe.closed side := by
  cases side <;> rfl

/-- A step of a call that makes data or room, or closes an end, begins the wake-up for it. -/
theorem advance_ready (sound : state.Sound out stored)
    (ready : (state.step (.advance who)).pipe.Ready side)
    : state.pipe.Ready side ∨ state.wakesFor who = some side := by
  have small := sound.flows.modulus.2
  have bounded := sound.flows.bounded
  simp only [State.step] at ready
  unfold State.wakesFor
  cases there : state.controls who with
  | readCopy asked len bytes =>
      have inside := (sound.copying.reading who asked len bytes there).2.2.1
      simp only [there] at ready
      rw [readCopy_pipe] at ready
      split at ready
      · exact Or.inl ready.moved
      · rename_i finished
        rw [sizeSub_of_le inside (by omega)] at ready
        simp only [if_neg finished]
        cases side with
        | true => exact Or.inr rfl
        | false => exact Or.inl (ready.counted (fun _ => by omega) (by rintro ⟨⟩))
  | writeCopy bytes len done =>
      have fits := (sound.copying.writing who bytes len done there).2.2.2
      simp only [there] at ready
      rw [writeCopy_pipe] at ready
      split at ready
      · exact Or.inl ready.moved
      · rename_i finished
        rw [sizeAdd_of_lt (by omega)] at ready
        simp only [if_neg finished]
        cases side with
        | false => exact Or.inr rfl
        | true => exact Or.inl (ready.counted (by rintro ⟨⟩) (fun _ => by omega))
  | releasing isWriteEnd =>
      simp only [there, releaseStep] at ready
      cases isWriteEnd with
      | true =>
          cases side with
          | false => exact Or.inr rfl
          | true => exact Or.inl ready
      | false =>
          cases side with
          | false => exact Or.inl ready
          | true => exact Or.inr rfl
  | leaving =>
      simp only [there, releaseStep] at ready
      exact Or.inl (by cases side <;> exact ready)
  | _ =>
      simp only [there, readStep, writeStep] at ready
      first
      | exact Or.inl ready
      | split at ready <;> exact Or.inl ready

/-- Where what a blocked task waits for is there, a wake-up for it is under way. -/
def Waiting.Alert (waiting : Waiting) : Prop :=
  ∀ task side, (waiting.pipe.controls task).BlockedFor side → waiting.pipe.pipe.Ready side
    → ∃ waker place, waiting.waking waker = some (side, place)

theorem Waiting.Alert.begin (alert : waiting.Alert) {event : Event}
    (notAdvance : ∀ who, event ≠ .advance who)
    : Waiting.Alert { waiting with pipe := waiting.pipe.step event } := by
  intro task side blocked ready
  rw [begin_pipe notAdvance] at ready
  exact alert task side (begin_blocked notAdvance blocked) ready

theorem Waiting.Alert.callStep (alert : waiting.Alert) (sound : waiting.pipe.Sound out stored)
    (idle : waiting.waking who = none)
    : (waiting.callStep who).Alert := by
  intro task side blocked ready
  have begun (wakes : waiting.pipe.wakesFor who = some side)
      : ∃ waker place, (waiting.callStep who).waking waker = some (side, place) := by
    refine ⟨who, .test 0, ?_⟩
    simp only [Waiting.callStep, wakes, Function.update_self]
  rcases advance_ready sound ready with before | wakes
  · rcases advance_blocked blocked with was | ⟨_, blocks⟩
    · obtain ⟨waker, place, under⟩ := alert task side was before
      refine ⟨waker, place, ?_⟩
      have apart : waker ≠ who := by
        rintro rfl
        rw [idle] at under
        cases under
      cases wakes : waiting.pipe.wakesFor who with
      | some _ => simp only [Waiting.callStep, wakes, Function.update_of_ne apart, under]
      | none => simp only [Waiting.callStep, wakes, under]
    · exact absurd before (blocksIn_not_ready blocks)
  · exact begun wakes

/-- A wake-up for a side stays under way until none of its tasks is blocked. -/
theorem Waiting.Alert.wakeStep {place : WakePlace} (alert : waiting.Alert)
    (awaited : waiting.Awaited) (under : waiting.waking who = some (side, place))
    : (waiting.wakeStep who side place).Alert := by
  have goesOn {after : Waiting} {next : WakePlace} {other : Bool}
      (waking : after.waking = Function.update waiting.waking who (some (side, next)))
      (was : ∃ waker place, waiting.waking waker = some (other, place))
      : ∃ waker place, after.waking waker = some (other, place) := by
    obtain ⟨waker, place', there⟩ := was
    rw [waking]
    by_cases self : waker = who
    · rw [self, under] at there
      obtain ⟨rfl, _⟩ := Prod.mk.inj (Option.some.inj there)
      exact ⟨who, next, Function.update_self ..⟩
    · exact ⟨waker, place', by rw [Function.update_of_ne self]; exact there⟩
  cases place with
  | test i => exact fun task other blocked ready => goesOn rfl (alert task other blocked ready)
  | wake i loaded =>
      intro task other blocked ready
      simp only [Waiting.wakeStep, @begin_pipe waiting.pipe (.wake loaded) (by rintro _ ⟨⟩)] at ready
      exact goesOn rfl (alert task other (wake_blocked blocked).2 ready)
  | reset =>
      intro task other blocked ready
      obtain ⟨waker, place', there⟩ := alert task other blocked ready
      obtain ⟨slot, _, _, covered⟩ := awaited task other blocked
      have apart : waker ≠ who := by
        rintro rfl
        rw [under] at there
        obtain ⟨rfl, _⟩ := Prod.mk.inj (Option.some.inj there)
        exact covered waker _ under
      exact ⟨waker, place', by simp only [Waiting.wakeStep, Function.update_of_ne apart, there]⟩

-- An end that nobody holds is closed

/-- An end without holders is closed, or a task is about to close it. -/
def State.Attended (state : State) : Prop :=
  ∀ isWriteEnd, (state.ends isWriteEnd).holders = []
    → state.pipe.closed isWriteEnd = true ∨ ∃ who, state.controls who = .releasing isWriteEnd

/-- The next step of a call leaves the ends and the other tasks alone, and opens no end again; one
that is to close an end closes it.
-/
theorem advance_frame (state : State) (who : Nat)
    : (state.step (.advance who)).ends = state.ends
      ∧ (∀ other, other ≠ who
        → (state.step (.advance who)).controls other = state.controls other)
      ∧ (∀ side, state.pipe.closed side = true
        → (state.step (.advance who)).pipe.closed side = true)
      ∧ ∀ side, state.controls who = .releasing side
        → (state.step (.advance who)).pipe.closed side = true := by
  have moved (other : Nat) (apart : other ≠ who) (control : Control)
      : Function.update state.controls who control other = state.controls other :=
    Function.update_of_ne apart _ _
  simp only [State.step]
  cases there : state.controls who with
  | readCopy _ _ _ | writeCopy _ _ _ =>
      dsimp only [readStep, writeStep]
      split <;>
        refine ⟨rfl, fun other apart => moved other apart _, fun side closed => ?_, by rintro _ ⟨⟩⟩
      · exact (Buffer.closed_moved ..).trans closed
      · exact (Buffer.closed_counted ..).trans closed
  | releasing isWriteEnd =>
      refine ⟨rfl, fun other apart => moved other apart _, fun side closed => ?_, ?_⟩
      · cases isWriteEnd <;> cases side <;> first | rfl | exact closed
      · rintro _ ⟨⟩
        cases isWriteEnd <;> rfl
  | leaving =>
      refine ⟨rfl, fun other apart => moved other apart _, fun side closed => ?_, by rintro _ ⟨⟩⟩
      cases side <;> exact closed
  | _ =>
      dsimp only [readStep, writeStep]
      repeat' split
      all_goals
        refine ⟨rfl, fun other apart => ?_, fun side closed => closed, by rintro _ ⟨⟩⟩
        first | rfl | exact moved other apart _

theorem State.Attended.advance (attended : state.Attended) (who : Nat)
    : (state.step (.advance who)).Attended := by
  obtain ⟨ends, others, stays, closes⟩ := advance_frame state who
  intro side nobody
  rw [ends] at nobody
  rcases attended side nobody with closed | ⟨releaser, releasing⟩
  · exact Or.inl (stays side closed)
  · by_cases self : releaser = who
    · subst self
      exact Or.inl (closes side releasing)
    · exact Or.inr ⟨releaser, by rw [others releaser self]; exact releasing⟩

theorem State.Attended.step (attended : state.Attended) (ends : state.EndsCounted)
    (event : Event)
    : (state.step event).Attended := by
  -- a task that is in no `pipe_end_release` goes on
  have goes {who : Nat} {control : Control} {after : State}
      (was : ∀ side, state.controls who ≠ .releasing side)
      (same : after.ends = state.ends) (pipe : after.pipe = state.pipe)
      (moved : after.controls = Function.update state.controls who control)
      : after.Attended := by
    intro side nobody
    rw [same] at nobody
    rw [pipe, moved]
    refine (attended side nobody).imp_right fun ⟨releaser, releasing⟩ => ⟨releaser, ?_⟩
    rw [Function.update_of_ne]
    · exact releasing
    · rintro rfl
      exact was side releasing
  have idles {who : Nat} (idle : state.controls who = .idle) (side : Bool)
      : state.controls who ≠ .releasing side := by
    rw [idle]
    rintro ⟨⟩
  cases event with
  | advance who => exact attended.advance who
  | wake who =>
      simp only [State.step]
      split
      · rename_i blocked
        exact goes (by rw [blocked]; rintro _ ⟨⟩) rfl rfl rfl
      · rename_i blocked
        exact goes (by rw [blocked]; rintro _ ⟨⟩) rfl rfl rfl
      · exact attended
  | read who isWriteEnd len =>
      simp only [State.step]
      split
      · rename_i may
        have was := idles (mayUse_spec may).1
        split <;> exact goes was rfl rfl rfl
      · exact attended
  | write who isWriteEnd bytes =>
      simp only [State.step]
      split
      · rename_i may
        have was := idles (mayUse_spec may).1
        split
        · exact goes was rfl rfl rfl
        · split <;> exact goes was rfl rfl rfl
      · exact attended
  | inherit who child isWriteEnd =>
      simp only [State.step]
      split
      · intro side nobody
        by_cases same : side = isWriteEnd
        · subst same
          simp [pipeEndRef, State.setEnd] at nobody
        · simp only [pipeEndRef, State.setEnd, Function.update_of_ne same] at nobody
          exact attended side nobody
      · exact attended
  | drop who owner isWriteEnd =>
      simp only [State.step]
      split
      · rename_i both
        have holds := (mayUse_spec both.1).2
        have left := List.length_erase_of_mem holds
        have counted := ends.counted isWriteEnd
        intro side nobody
        by_cases same : side = isWriteEnd
        · subst same
          simp only [pipeEndUnref] at nobody ⊢
          split at nobody
          · rename_i more
            simp only [State.setEnd, Function.update_self] at nobody
            rw [nobody] at left
            simp only [List.length_nil] at left
            omega
          · rename_i last
            rw [if_neg last]
            exact Or.inr ⟨who, Function.update_self ..⟩
        · have were : (state.ends side).holders = [] := by
            simp only [pipeEndUnref] at nobody
            split at nobody <;>
              simpa only [State.goto, State.setEnd, Function.update_of_ne same] using nobody
          simp only [pipeEndUnref]
          split
          · exact attended side were
          · refine (attended side were).imp_right fun ⟨releaser, releasing⟩ => ⟨releaser, ?_⟩
            refine (Function.update_of_ne ?_ _ _).trans releasing
            rintro rfl
            exact idles both.2 side releasing
      · exact attended

-- Runs

def Waiting.Careful (waiting : Waiting) : Event → Prop
  | .advance who => waiting.waking who = none → Event.Careful waiting.pipe (.advance who)
  | _ => True

/-- What holds between any two steps, of the bytes, of the waiters and of the wake-ups. -/
structure Waiting.Kept (waiting : Waiting) : Prop where
  sound : ∃ out stored, waiting.pipe.Sound out stored
  awaited : waiting.Awaited
  alert : waiting.Alert
  attended : waiting.pipe.Attended

/-- What begins a call is a step of the pipe, or nothing. -/
theorem Waiting.step_begin (waiting : Waiting) {event : Event}
    (notAdvance : ∀ who, event ≠ .advance who)
    : waiting.step event = waiting
      ∨ waiting.step event = { waiting with pipe := waiting.pipe.step event } := by
  cases event with
  | advance who => exact absurd rfl (notAdvance who)
  | wake who => exact Or.inr rfl
  | _ =>
      simp only [Waiting.step]
      split
      · exact Or.inr rfl
      · exact Or.inl rfl

theorem Waiting.Kept.begin (kept : waiting.Kept) {event : Event}
    (notAdvance : ∀ who, event ≠ .advance who)
    : (waiting.step event).Kept := by
  obtain ⟨out, stored, sound⟩ := kept.sound
  have careful : event.Careful waiting.pipe := by
    cases event with
    | advance who => exact absurd rfl (notAdvance who)
    | _ => trivial
  rcases waiting.step_begin notAdvance with same | stepped
  · rw [same]
    exact kept
  · rw [stepped]
    exact ⟨sound.step event careful, kept.awaited.ofPipe fun _ _ => begin_blocked notAdvance,
      kept.alert.begin notAdvance, kept.attended.step sound.ends event⟩

theorem Waiting.Kept.step (kept : waiting.Kept) (event : Event)
    (allowed : waiting.Prepared event ∧ waiting.Careful event)
    : (waiting.step event).Kept := by
  obtain ⟨out, stored, sound⟩ := kept.sound
  cases event with
  | advance who =>
      simp only [Waiting.step]
      split
      · rename_i side place under
        have wakes := kept.awaited.wakeStep under
        have goes := kept.alert.wakeStep kept.awaited under
        cases place with
        | test i => exact ⟨kept.sound, wakes, goes, kept.attended⟩
        | wake i task =>
            exact ⟨sound.step (.wake task) trivial, wakes, goes,
              kept.attended.step sound.ends (.wake task)⟩
        | reset => exact ⟨kept.sound, wakes, goes, kept.attended⟩
      · rename_i idle
        exact ⟨sound.step (.advance who) (allowed.2 idle), kept.awaited.callStep idle allowed.1,
          kept.alert.callStep sound idle, kept.attended.advance who⟩
  | _ => exact kept.begin (by rintro _ ⟨⟩)

/-- No task is in `pipe_wake_all`, and none in a call that is not blocked. -/
def Waiting.Quiet (waiting : Waiting) : Prop :=
  ∀ who, waiting.waking who = none
    ∧ (waiting.pipe.controls who = .idle ∨ ∃ side, (waiting.pipe.controls who).BlockedFor side)

/-- The pipe is a bounded queue, no blocked task is forgotten, and no task blocks another one. -/
structure Waiting.Flowing (waiting : Waiting) : Prop where
  isFifo : waiting.pipe.IsFifo
  /-- Where what a blocked task waits for is there, a wake-up will come to it. -/
  woken
    : ∀ task side, (waiting.pipe.controls task).BlockedFor side → waiting.pipe.pipe.Ready side
      → ∃ waker place, waiting.waking waker = some (side, place)
        ∧ ∃ slot < (waiting.waiters side).count,
          (waiting.waiters side).slots slot = task ∧ place.Ahead slot task
  /-- Where nothing is under way, a blocked task waits for holders of the other end, none of which
  waits for it.
  -/
  quiet
    : waiting.Quiet → ∀ task side, (waiting.pipe.controls task).BlockedFor side
      → (waiting.pipe.ends (!side)).holders ≠ []
        ∧ ∀ other, ¬(waiting.pipe.controls other).BlockedFor (!side)

theorem Waiting.Kept.flowing (kept : waiting.Kept) : waiting.Flowing := by
  obtain ⟨out, stored, sound⟩ := kept.sound
  have asleep (quiet : waiting.Quiet) (task : Nat) (side : Bool)
      (blocked : (waiting.pipe.controls task).BlockedFor side)
      : ¬waiting.pipe.pipe.Ready side := by
    intro ready
    obtain ⟨waker, place, under⟩ := kept.alert task side blocked ready
    rw [(quiet waker).1] at under
    cases under
  refine ⟨sound.isFifo, fun task side blocked ready => ?_, fun quiet task side blocked => ?_⟩
  · obtain ⟨waker, place, under⟩ := kept.alert task side blocked ready
    obtain ⟨slot, inside, held, covered⟩ := kept.awaited task side blocked
    exact ⟨waker, place, under, slot, inside, held, covered waker place under⟩
  · have notReady := asleep quiet task side blocked
    refine ⟨fun nobody => ?_, fun other alsoBlocked => ?_⟩
    · rcases kept.attended (!side) nobody with closed | ⟨who, releasing⟩
      · apply notReady
        cases side with
        | false => exact Or.inr closed
        | true => exact Or.inr closed
      · rcases (quiet who).2 with idle | ⟨other, alsoBlocked⟩
        · rw [releasing] at idle
          cases idle
        · rw [releasing] at alsoBlocked
          exact alsoBlocked
    · have positive := PIPE_BUFFER_SIZE_pos.1
      have capacity := sound.flows.capacity
      have alsoNotReady := asleep quiet other (!side) alsoBlocked
      cases side with
      | false =>
          have empty := not_or.mp notReady
          have full := not_or.mp alsoNotReady
          omega
      | true =>
          have full := not_or.mp notReady
          have empty := not_or.mp alsoNotReady
          omega

/-- In every run in which tasks are careful, and block only where their slot will be woken, the
pipe is a bounded queue that loses no wake-up and in which no two tasks wait for each other.
-/
theorem pipe_flows (creator : Nat) (old : Nat → UInt8) (slots : Bool → Nat → Nat)
    (events : List Event)
    (allowed
      : Runs.Throughout Waiting.step
          (fun waiting event => waiting.Prepared event ∧ waiting.Careful event)
          (createWaiting creator old slots) events)
    : ((createWaiting creator old slots).run events).Flowing := by
  have start : (createWaiting creator old slots).Kept := by
    refine ⟨⟨[], [], pipeCreatePair_sound creator old⟩, createWaiting_awaited creator old slots,
      fun task side blocked => blocked.elim, ?_⟩
    rintro isWriteEnd ⟨⟩
  exact (allowed.invariant Waiting.Kept (fun _ event kept fine => kept.step event fine)
    start).flowing

/-- A byte is written while a reader is blocked, and the writer is about to wake it. -/
theorem pipe_flows_reader
    : ((createWaiting 0 (fun _ => 0) (fun _ _ => 0)).run
        [.inherit 0 1 true, .read 0 false 1, .advance 0, .write 1 true [7], .advance 1, .advance 1,
          .advance 1, .advance 1, .advance 1]).Flowing := by
  apply pipe_flows
  have no {waiting : Waiting} {who : Nat} (none' : waiting.pipe.blocksIn who = none)
      : waiting.Prepared (.advance who) := by
    intro _ side blocks
    rw [none'] at blocks
    cases blocks
  refine ⟨⟨trivial, trivial⟩, ⟨trivial, trivial⟩, ⟨fun _ side blocks => ?_, fun _ => trivial⟩,
    ⟨trivial, trivial⟩, ⟨no rfl, fun _ => trivial⟩,
    ⟨no rfl, fun _ => Or.inl (by decide)⟩, ⟨no rfl, fun _ other copies => ?_⟩,
    ⟨no rfl, fun _ => trivial⟩, ⟨no rfl, fun _ => trivial⟩, trivial⟩
  · obtain rfl : false = side := Option.some.inj blocks
    exact ⟨by decide, fun waker place under => by cases under⟩
  · obtain ⟨bytes, len, done, there⟩ := copies
    rcases other with _ | _ | other <;> cases there

end Panuti.Pipe
