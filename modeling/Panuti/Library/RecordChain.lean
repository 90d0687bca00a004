import Mathlib.Tactic.Common

/-! Walks along a chain of records of varying length: at every offset stands a record, or nothing
that is used, or something broken. A walk carries a state from record to record and may stop
early; it gives up where its turns run out or where a record cannot be read.
-/

namespace RecordChain

inductive Slot (Record : Type) where
  | record (record : Record)
  | unused
  | broken
deriving Repr, DecidableEq

/-- What a visit decides: to go on with a state, or to stop with a result. -/
inductive Turn (State Result : Type) where
  | next (state : State)
  | stop (result : Result)
deriving Repr, DecidableEq

inductive Ended (State Result : Type) where
  | unused (state : State)
  | broken (state : State)
  | stopped (result : Result)
deriving Repr, DecidableEq

variable {Record State Result : Type}
  (slotAt : Nat → Option (Slot Record)) (length : Record → Nat)
  (visit : State → Nat → Record → Option (Turn State Result))

/-- Walk from `offset` on, for at most `turns` turns. -/
def walk : (turns offset : Nat) → State → Option (Ended State Result)
  | 0, _, _ => none
  | turns + 1, offset, state =>
      match slotAt offset with
      | none => none
      | some .unused => some (.unused state)
      | some .broken => some (.broken state)
      | some (.record record) =>
          match visit state offset record with
          | none => none
          | some (.stop result) => some (.stopped result)
          | some (.next state) => walk turns (offset + length record) state

variable {slotAt} {length} {visit}

-- Walks over anything end

/-- An end that is as promised: the state of a walk that was not stopped keeps `holds`, and
the result of one that was is as `gives` says.
-/
def Ended.Meets (holds : State → Prop) (gives : Result → Prop) : Ended State Result → Prop
  | .unused state => holds state
  | .broken state => holds state
  | .stopped result => gives result

theorem walk_ends {limit : Nat} (holds : Nat → State → Prop) (gives : Result → Prop)
    (readable : ∀ offset, ∃ slot, slotAt offset = some slot)
    (moves
      : ∀ offset record,
          slotAt offset = some (.record record)
          → 0 < length record ∧ offset + length record ≤ limit)
    (keeps
      : ∀ offset state record,
          holds offset state
          → slotAt offset = some (.record record)
          → (∃ next, visit state offset record = some (.next next)
              ∧ holds (offset + length record) next)
            ∨ ∃ result, visit state offset record = some (.stop result) ∧ gives result)
    (turns offset : Nat) (state : State) (enough : limit < turns + offset)
    (within : offset ≤ limit) (start : holds offset state)
    : ∃ ended, walk slotAt length visit turns offset state = some ended
        ∧ ended.Meets (fun state => ∃ last ≤ limit, holds last state) gives := by
  induction turns generalizing offset state with
  | zero => omega
  | succ turns ih =>
      obtain ⟨slot, stands⟩ := readable offset
      cases slot with
      | unused => exact ⟨.unused state, by simp [walk, stands], offset, within, start⟩
      | broken => exact ⟨.broken state, by simp [walk, stands], offset, within, start⟩
      | record record =>
          obtain ⟨positive, inside⟩ := moves offset record stands
          rcases keeps offset state record start stands with
            ⟨next, visited, kept⟩ | ⟨result, visited, given⟩
          · obtain ⟨ended, walked, meets⟩ := ih _ next (by omega) inside kept
            exact ⟨ended, by simp [walk, stands, visited, walked], meets⟩
          · exact ⟨.stopped result, by simp [walk, stands, visited], given⟩

-- Walks over a chain of entries

variable {Entry : Type} {size : Entry → Nat}

/-- The entries stand one behind the other from `offset` on, and nothing is used behind them. -/
def Chain (slotAt : Nat → Option (Slot Record)) (stands : Nat → Entry → Prop)
    (size : Entry → Nat) : Nat → List Entry → Prop
  | offset, [] => slotAt offset = some .unused
  | offset, entry :: rest =>
      stands offset entry ∧ Chain slotAt stands size (offset + size entry) rest

/-- A walk seen on the entries: `view` says what a visit decides on an entry. -/
def tour (view : State → Nat → Entry → Turn State Result) (size : Entry → Nat)
    : List Entry → Nat → State → Ended State Result
  | [], _, state => .unused state
  | entry :: rest, offset, state =>
      match view state offset entry with
      | .stop result => .stopped result
      | .next state => tour view size rest (offset + size entry) state

variable {view : State → Nat → Entry → Turn State Result} {offset : Nat}

theorem tour_next {entry : Entry} {rest : List Entry} {state next : State}
    (goesOn : view state offset entry = .next next)
    : tour view size (entry :: rest) offset state
      = tour view size rest (offset + size entry) next := by
  simp [tour, goesOn]

theorem tour_stop {entry : Entry} {rest : List Entry} {state : State} {result : Result}
    (stops : view state offset entry = .stop result)
    : tour view size (entry :: rest) offset state = .stopped result := by
  simp [tour, stops]

theorem walk_chain {stands : Nat → Entry → Prop} (view : State → Nat → Entry → Turn State Result)
    (agrees
      : ∀ state offset entry,
          stands offset entry
          → ∃ record, slotAt offset = some (.record record)
              ∧ length record = size entry
              ∧ visit state offset record = some (view state offset entry))
    {entries : List Entry} {turns : Nat} (state : State)
    (chain : Chain slotAt stands size offset entries) (enough : entries.length < turns)
    : walk slotAt length visit turns offset state
      = some (tour view size entries offset state) := by
  induction entries generalizing turns offset state with
  | nil =>
      obtain ⟨turns, rfl⟩ : ∃ less, turns = less + 1 := ⟨turns - 1, by omega⟩
      have unused : slotAt offset = some .unused := chain
      simp [walk, tour, unused]
  | cons entry rest ih =>
      obtain ⟨turns, rfl⟩ : ∃ less, turns = less + 1 :=
        ⟨turns - 1, by simp at enough; omega⟩
      obtain ⟨standing, behind⟩ := chain
      obtain ⟨record, found, long, visited⟩ := agrees state offset entry standing
      simp only [walk, tour, found, visited]
      cases view state offset entry with
      | stop result => rfl
      | next state =>
          simp only [long]
          exact ih state behind (by simpa using enough)

end RecordChain
