import Panuti.Library.Runs

/-! A list of waiting tasks with a fixed capacity. A task that blocks enters itself while there is
room, and an arrival wakes every task in the list and empties it. Tasks may also be woken by others,
and then enter themselves again.
-/

namespace WaitList

/-- The tasks in the list, and the tasks that are blocked. -/
structure State (Task : Type) where
  waiting : List Task
  blocked : Task → Prop

/-- What happens to the list: a task blocks, all in the list are woken, one task is woken by others,
or nothing.
-/
inductive Op (Task : Type) where
  | block (who : Task)
  | wakeAll
  | wake (who : Task)
  | nothing

variable {Task : Type}

def step (capacity : Nat) (state : State Task) : Op Task → State Task
  | .block who =>
      { waiting :=
          if state.waiting.length < capacity then state.waiting ++ [who] else state.waiting
        blocked := fun task => task = who ∨ state.blocked task }
  | .wakeAll => ⟨[], fun task => state.blocked task ∧ task ∉ state.waiting⟩
  | .wake who => { state with blocked := fun task => state.blocked task ∧ task ≠ who }
  | .nothing => state

def Awaited (state : State Task) : Prop := ∀ task, state.blocked task → task ∈ state.waiting

/-- A task that is to block finds room in the list, or itself. -/
def Prepared (capacity : Nat) (state : State Task) : Op Task → Prop
  | .block who => state.waiting.length < capacity ∨ who ∈ state.waiting
  | _ => True

variable {state : State Task}

theorem Awaited.wakeAll (awaited : Awaited state) (capacity : Nat) (task : Task)
    : ¬ (step capacity state .wakeAll).blocked task :=
  fun both => both.2 (awaited task both.1)

theorem Awaited.step_iff (awaited : Awaited state) (capacity : Nat) (op : Op Task)
    : Awaited (step capacity state op) ↔ Prepared capacity state op := by
  cases op with
  | block who =>
      constructor
      · intro later
        have there := later who (.inl rfl)
        by_cases room : state.waiting.length < capacity
        · exact .inl room
        · rw [step] at there
          dsimp only at there
          rw [if_neg room] at there
          exact .inr there
      · intro prepared task blocked
        rw [step]
        dsimp only
        split
        next =>
            rcases blocked with rfl | before
            · exact List.mem_append_right _ (List.mem_singleton_self task)
            · exact List.mem_append_left _ (awaited task before)
        next full =>
            rcases blocked with rfl | before
            · exact prepared.resolve_left full
            · exact awaited task before
  | wakeAll =>
      exact iff_of_true (fun task blocked => absurd blocked (awaited.wakeAll capacity task)) trivial
  | wake who => exact iff_of_true (fun task both => awaited task both.1) trivial
  | nothing => exact iff_of_true awaited trivial

theorem awaited_iff {Machine Event : Type} {next : Machine → Event → Machine}
    (view : Machine → State Task) (op : Machine → Event → Op Task) (capacity : Nat)
    (follows : ∀ machine event, view (next machine event) = step capacity (view machine)
      (op machine event)) {machine : Machine} (start : Awaited (view machine))
    (events : List Event)
    : (∀ before after, events = before ++ after
        → Awaited (view (Runs.run next machine before)))
      ↔ Runs.Throughout next
          (fun machine event => Prepared capacity (view machine) (op machine event)) machine
          events := by
  have turn (machine : Machine) (event : Event) (awaited : Awaited (view machine))
      : Awaited (view (next machine event))
        ↔ Prepared capacity (view machine) (op machine event) := by
    rw [follows]
    exact awaited.step_iff capacity (op machine event)
  exact Runs.always_iff next (fun machine => Awaited (view machine))
    (fun machine => Awaited (view machine)) (fun _ => id)
    (fun machine event awaited => (turn machine event awaited).mpr)
    (fun machine event awaited => (turn machine event awaited).mp) start events

end WaitList
