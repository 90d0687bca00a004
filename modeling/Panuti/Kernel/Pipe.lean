import Mathlib.Algebra.Ring.Int.Defs
import Mathlib.Algebra.Ring.Nat
import Mathlib.Data.List.Basic
import Mathlib.Logic.Function.Basic
import Panuti.Library.Runs

/-! One pipe of `pipe.c` under preemption: tasks read and write through its two ends, hand
them down as streams and drop them. A step is what runs with interrupts disabled, the copy of
one byte, or one access to a field that tasks share. Which blocked task is woken when is left
open.
-/

namespace Panuti.Pipe

-- State

def PIPE_BUFFER_SIZE : Nat := 4096

/-- `pipe_t`, without the lists of waiters. -/
structure Buffer where
  buffer : Nat → UInt8
  capacity : Nat
  head : Nat
  tail : Nat
  count : Nat
  refcount : Int
  writeEndClosed : Bool
  readEndClosed : Bool
  freed : Bool

/-- `pipe_end_t`, with the task of every descriptor and stream that refers to it. -/
structure End where
  refcount : Int
  holders : List Nat

/-- Where a task stands in `pipe_read`, `pipe_write` or `pipe_end_unref`. -/
inductive Control where
  | idle
  | readCheck (len : Nat)
  | readBlocked (len : Nat)
  | readTest (len : Nat)
  | readStart (len : Nat)
  /-- In the loop of `pipe_read_raw`, which copied these bytes. -/
  | readCopy (asked len : Nat) (out : List UInt8)
  | writeCheck (bytes : List UInt8)
  | writeBlocked (bytes : List UInt8)
  | writeTest (bytes : List UInt8)
  | writeStart (bytes : List UInt8)
  /-- In the loop of `pipe_write_raw`, which copied `done` bytes. -/
  | writeCopy (bytes : List UInt8) (len done : Nat)
  /-- In `pipe_end_release`, before the flag of the end is set. -/
  | releasing (isWriteEnd : Bool)
  /-- In `pipe_end_release`, with the flag set. -/
  | leaving
deriving Repr, DecidableEq

/-- What a read of `asked` bytes returned: these bytes, or -1. -/
structure ReadAnswer where
  who : Nat
  isWriteEnd : Bool
  asked : Nat
  result : Option (List UInt8)
deriving Repr, DecidableEq

/-- What a write returned: the bytes it accepted, or -1. -/
structure WriteAnswer where
  who : Nat
  isWriteEnd : Bool
  result : Option (List UInt8)
deriving Repr, DecidableEq

structure State where
  pipe : Buffer
  ends : Bool → End
  controls : Nat → Control
  reads : List ReadAnswer
  writes : List WriteAnswer

def State.delivered (state : State) : List UInt8 :=
  state.reads.flatMap (fun answer => answer.result.getD [])

def State.accepted (state : State) : List UInt8 :=
  state.writes.flatMap (fun answer => answer.result.getD [])

-- pipe_read and pipe_write

def SIZE_T : Nat := 2 ^ 32

def sizeAdd (first second : Nat) : Nat := (first + second) % SIZE_T

def sizeSub (first second : Nat) : Nat := (first + SIZE_T - second) % SIZE_T

theorem sizeSub_of_le {first second : Nat} (le : second ≤ first) (small : first < SIZE_T)
    : sizeSub first second = first - second := by
  rw [sizeSub, Nat.sub_add_comm le, Nat.add_mod_right, Nat.mod_eq_of_lt (by omega)]

theorem sizeAdd_of_lt {first second : Nat} (small : first + second < SIZE_T)
    : sizeAdd first second = first + second := Nat.mod_eq_of_lt small

def State.goto (state : State) (who : Nat) (control : Control) : State :=
  { state with controls := Function.update state.controls who control }

def State.answerRead (state : State) (answer : ReadAnswer) : State :=
  { state.goto answer.who .idle with reads := state.reads ++ [answer] }

def State.answerWrite (state : State) (answer : WriteAnswer) : State :=
  { state.goto answer.who .idle with writes := state.writes ++ [answer] }

/-- One step of `pipe_read` behind its test for the end. -/
def readStep (state : State) (who : Nat) : Control → State
  | .readCheck len =>
      if 0 < state.pipe.count ∨ state.pipe.writeEndClosed then state.goto who (.readTest len)
      else state.goto who (.readBlocked len)
  | .readTest len =>
      if state.pipe.count = 0 then state.answerRead ⟨who, false, len, some []⟩
      else state.goto who (.readStart len)
  | .readStart len =>
      let len' := if state.pipe.count < len then state.pipe.count else len
      state.goto who (.readCopy len len' [])
  | .readCopy asked len out =>
      if out.length < len then
        let byte := state.pipe.buffer state.pipe.head
        let head := (state.pipe.head + 1) % state.pipe.capacity
        { state.goto who (.readCopy asked len (out ++ [byte])) with
          pipe := { state.pipe with head } }
      else
        { state.answerRead ⟨who, false, asked, some out⟩ with
          pipe := { state.pipe with count := sizeSub state.pipe.count len } }
  | _ => state

/-- One step of `pipe_write` behind its tests for the end and for a closed read end. -/
def writeStep (state : State) (who : Nat) : Control → State
  | .writeCheck bytes =>
      if state.pipe.count < state.pipe.capacity ∨ state.pipe.readEndClosed then
        state.goto who (.writeTest bytes)
      else state.goto who (.writeBlocked bytes)
  | .writeTest bytes =>
      if state.pipe.count = state.pipe.capacity then state.answerWrite ⟨who, true, none⟩
      else state.goto who (.writeStart bytes)
  | .writeStart bytes =>
      let freeSpace := sizeSub state.pipe.capacity state.pipe.count
      let len := if freeSpace < bytes.length then freeSpace else bytes.length
      state.goto who (.writeCopy bytes len 0)
  | .writeCopy bytes len done =>
      if done < len then
        let buffer := Function.update state.pipe.buffer state.pipe.tail (bytes.getD done 0)
        let tail := (state.pipe.tail + 1) % state.pipe.capacity
        { state.goto who (.writeCopy bytes len (done + 1)) with
          pipe := { state.pipe with buffer, tail } }
      else
        { state.answerWrite ⟨who, true, some (bytes.take len)⟩ with
          pipe := { state.pipe with count := sizeAdd state.pipe.count len } }
  | _ => state

-- The ends

def State.setEnd (state : State) (isWriteEnd : Bool) (changed : End) : State :=
  { state with ends := Function.update state.ends isWriteEnd changed }

/-- `pipe_end_ref`, for a stream of `child`. -/
def pipeEndRef (state : State) (child : Nat) (isWriteEnd : Bool) : State :=
  let pipeEnd := state.ends isWriteEnd
  state.setEnd isWriteEnd ⟨pipeEnd.refcount + 1, child :: pipeEnd.holders⟩

/-- The first step of `pipe_end_unref`, by `who` for a descriptor or stream of `owner`. -/
def pipeEndUnref (state : State) (who owner : Nat) (isWriteEnd : Bool) : State :=
  let pipeEnd := state.ends isWriteEnd
  let left := pipeEnd.refcount - 1
  let state := state.setEnd isWriteEnd ⟨left, pipeEnd.holders.erase owner⟩
  if left > 0 then state else state.goto who (.releasing isWriteEnd)

/-- The steps of `pipe_end_release`: set the flag of the end, then drop the pipe. -/
def releaseStep (state : State) (who : Nat) : Control → State
  | .releasing isWriteEnd =>
      let pipe :=
        if isWriteEnd then { state.pipe with writeEndClosed := true }
        else { state.pipe with readEndClosed := true }
      { state.goto who .leaving with pipe }
  | .leaving =>
      let refcount := state.pipe.refcount - 1
      { state.goto who .idle with
        pipe := { state.pipe with refcount, freed := state.pipe.freed || refcount == 0 } }
  | _ => state

-- Steps

/-- `advance` is the next step of a call that has begun; `drop` begins `pipe_end_unref` for a
reference of `owner`, in `close` or where another task tears `owner` down; `inherit` is
`install_stream` for a child of `who`.
-/
inductive Event where
  | read (who : Nat) (isWriteEnd : Bool) (len : Nat)
  | write (who : Nat) (isWriteEnd : Bool) (bytes : List UInt8)
  | advance (who : Nat)
  | wake (who : Nat)
  | inherit (who child : Nat) (isWriteEnd : Bool)
  | drop (who owner : Nat) (isWriteEnd : Bool)

def State.mayUse (state : State) (who : Nat) (isWriteEnd : Bool) : Bool :=
  decide (state.controls who = .idle) && decide (who ∈ (state.ends isWriteEnd).holders)

def State.step (state : State) : Event → State
  | .read who isWriteEnd len =>
      if state.mayUse who isWriteEnd then
        if isWriteEnd then state.answerRead ⟨who, true, len, none⟩
        else state.goto who (.readCheck len)
      else state
  | .write who isWriteEnd bytes =>
      if state.mayUse who isWriteEnd then
        if isWriteEnd = false then state.answerWrite ⟨who, false, none⟩
        else if state.pipe.readEndClosed then state.answerWrite ⟨who, true, none⟩
        else state.goto who (.writeCheck bytes)
      else state
  | .advance who =>
      match state.controls who with
      | .readCheck len => readStep state who (.readCheck len)
      | .readTest len => readStep state who (.readTest len)
      | .readStart len => readStep state who (.readStart len)
      | .readCopy asked len out => readStep state who (.readCopy asked len out)
      | .writeCheck bytes => writeStep state who (.writeCheck bytes)
      | .writeTest bytes => writeStep state who (.writeTest bytes)
      | .writeStart bytes => writeStep state who (.writeStart bytes)
      | .writeCopy bytes len done => writeStep state who (.writeCopy bytes len done)
      | .releasing isWriteEnd => releaseStep state who (.releasing isWriteEnd)
      | .leaving => releaseStep state who .leaving
      | _ => state
  | .wake who =>
      match state.controls who with
      | .readBlocked len => state.goto who (.readCheck len)
      | .writeBlocked bytes => state.goto who (.writeCheck bytes)
      | _ => state
  | .inherit who child isWriteEnd =>
      if state.mayUse who isWriteEnd then pipeEndRef state child isWriteEnd else state
  | .drop who owner isWriteEnd =>
      if state.mayUse owner isWriteEnd ∧ state.controls who = .idle then
        pipeEndUnref state who owner isWriteEnd
      else state

/-- `pipe_create_pair`, called by `creator`, where the buffer holds what was there before. -/
def pipeCreatePair (creator : Nat) (old : Nat → UInt8) : State where
  pipe := ⟨old, PIPE_BUFFER_SIZE, 0, 0, 0, 2, false, false, false⟩
  ends _ := ⟨1, [creator]⟩
  controls _ := .idle
  reads := []
  writes := []

def State.run (state : State) (events : List Event) : State := Runs.run State.step state events

end Panuti.Pipe
