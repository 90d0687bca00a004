import Mathlib.Tactic.Common

/-! Runs of a step function over a list of events, and invariants along them. -/

namespace Runs

variable {State Event : Type} (step : State → Event → State)

def run (state : State) (events : List Event) : State := events.foldl step state

/-- Every step of the run is made where `allowed` admits it. -/
def Throughout (allowed : State → Event → Prop) : State → List Event → Prop
  | _, [] => True
  | state, event :: rest => allowed state event ∧ Throughout allowed (step state event) rest

variable {step} {allowed : State → Event → Prop} {state : State} {events : List Event}

theorem throughout_append {first second : List Event}
    : Throughout step allowed state (first ++ second)
      ↔ Throughout step allowed state first
        ∧ Throughout step allowed (run step state first) second := by
  induction first generalizing state with
  | nil => simp [Throughout, run]
  | cons event rest ih =>
      simp only [List.cons_append, Throughout, ih, and_assoc]
      rfl

theorem Throughout.invariant (holds : State → Prop)
    (keeps
      : ∀ state event, holds state → allowed state event → holds (step state event))
    (start : holds state) (throughout : Throughout step allowed state events)
    : holds (run step state events) := by
  induction events generalizing state with
  | nil => exact start
  | cons event rest ih => exact ih (keeps state event start throughout.1) throughout.2

theorem forall_event_iff (step : State → Event → State) (allowed : State → Event → Prop)
    (state : State) (events : List Event)
    : (∀ before event after, events = before ++ event :: after
        → allowed (run step state before) event)
      ↔ Throughout step allowed state events := by
  induction events generalizing state with
  | nil => exact iff_of_true (fun before event after parts => by simp at parts) trivial
  | cons first rest ih =>
      rw [Throughout, ← ih]
      constructor
      · intro each
        refine ⟨each [] first rest rfl, fun before event after parts => ?_⟩
        exact each (first :: before) event after (congrArg (first :: ·) parts)
      · rintro ⟨now, later⟩ before event after parts
        cases before with
        | nil =>
            obtain ⟨rfl, rfl⟩ := List.cons.inj parts
            exact now
        | cons head before =>
            obtain ⟨rfl, rest'⟩ := List.cons.inj parts
            exact later before event after rest'

theorem throughout_congr (step : State → Event → State) (holds : State → Prop)
    {other : State → Event → Prop}
    (same : ∀ state event, holds state → (allowed state event ↔ other state event))
    (keeps : ∀ state event, holds state → other state event → holds (step state event))
    (start : holds state)
    : Throughout step allowed state events ↔ Throughout step other state events := by
  induction events generalizing state with
  | nil => exact Iff.rfl
  | cons event rest ih =>
      rw [Throughout, Throughout, same state event start]
      exact and_congr_right fun admitted => ih (keeps state event start admitted)

theorem always_iff (step : State → Event → State) (holds seen : State → Prop)
    (sees : ∀ state, holds state → seen state)
    (keeps
      : ∀ state event, holds state → allowed state event → holds (step state event))
    (only
      : ∀ state event, holds state → seen (step state event) → allowed state event)
    (start : holds state) (events : List Event)
    : (∀ before after, events = before ++ after → seen (run step state before))
      ↔ Throughout step allowed state events := by
  induction events generalizing state with
  | nil =>
      refine iff_of_true (fun before after parts => ?_) trivial
      rw [(List.append_eq_nil_iff.mp parts.symm).1]
      exact sees state start
  | cons event rest ih =>
      rw [Throughout]
      constructor
      · intro always
        have admitted := only state event start (always [event] rest rfl)
        refine ⟨admitted, (ih (keeps state event start admitted)).mp ?_⟩
        intro before after parts
        exact always (event :: before) after (congrArg (event :: ·) parts)
      · rintro ⟨admitted, throughout⟩ before after parts
        cases before with
        | nil => exact sees state start
        | cons first before =>
            obtain ⟨rfl, rest'⟩ := List.cons.inj parts
            exact (ih (keeps state event start admitted)).mpr throughout before after rest'

end Runs
