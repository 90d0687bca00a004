import Panuti.Kernel.Pipe
import Panuti.Library.Ring

/-! What holds of a pipe between any two steps, as long as the sections of `pipe_read_raw` of
two readers do not overlap, nor those of `pipe_write_raw` of two writers, and no task behind its
availability check lost what it saw to another one.
-/

namespace Panuti.Pipe

-- The invariant

def Control.Copies (control : Control) : Bool → Prop
  | false => ∃ asked len out, control = .readCopy asked len out
  | true => ∃ bytes len done, control = .writeCopy bytes len done

def Control.Uses : Control → Bool → Prop
  | .readCheck _, isWriteEnd => isWriteEnd = false
  | .readBlocked _, isWriteEnd => isWriteEnd = false
  | .readTest _, isWriteEnd => isWriteEnd = false
  | .readStart _, isWriteEnd => isWriteEnd = false
  | .readCopy _ _ _, isWriteEnd => isWriteEnd = false
  | .writeCheck _, isWriteEnd => isWriteEnd = true
  | .writeBlocked _, isWriteEnd => isWriteEnd = true
  | .writeTest _, isWriteEnd => isWriteEnd = true
  | .writeStart _, isWriteEnd => isWriteEnd = true
  | .writeCopy _ _ _, isWriteEnd => isWriteEnd = true
  | _, _ => False

def Buffer.closed (pipe : Buffer) : Bool → Bool
  | true => pipe.writeEndClosed
  | false => pipe.readEndClosed

/-- The ring between the bytes delivered and the bytes accepted, while a reader copied `out`
and a writer copied `stored`.
-/
structure Flows (pipe : Buffer) (delivered accepted out stored : List UInt8) : Prop where
  capacity : pipe.capacity = PIPE_BUFFER_SIZE
  order : delivered ++ out <+: accepted
  counted : pipe.count + delivered.length = accepted.length
  bounded : pipe.count ≤ pipe.capacity
  head : pipe.head = (delivered.length + out.length) % pipe.capacity
  tail : pipe.tail = (accepted.length + stored.length) % pipe.capacity
  cells : Ring.Holds pipe.buffer pipe.capacity (accepted ++ stored) delivered.length

/-- The ends count their holders, and an end that is closed or being released has none. -/
structure State.EndsCounted (state : State) : Prop where
  counted
    : ∀ isWriteEnd, (state.ends isWriteEnd).refcount = (state.ends isWriteEnd).holders.length
  closed
    : ∀ isWriteEnd, state.pipe.closed isWriteEnd = true → (state.ends isWriteEnd).holders = []
  releasing
    : ∀ who isWriteEnd, state.controls who = .releasing isWriteEnd
      → (state.ends isWriteEnd).holders = []
  uses
    : ∀ who isWriteEnd, (state.controls who).Uses isWriteEnd
      → who ∈ (state.ends isWriteEnd).holders

/-- The task in a copy loop, of each end at most one. -/
structure State.Copying (state : State) (out stored : List UInt8) : Prop where
  one
    : ∀ isWriteEnd who other, (state.controls who).Copies isWriteEnd
      → (state.controls other).Copies isWriteEnd
      → who = other
  noReader : (∀ who, ¬(state.controls who).Copies false) → out = []
  noWriter : (∀ who, ¬(state.controls who).Copies true) → stored = []
  reading
    : ∀ who asked len bytes, state.controls who = .readCopy asked len bytes
      → bytes = out
        ∧ out.length ≤ len
        ∧ len ≤ state.pipe.count
        ∧ (len = 0 → asked = 0 ∨ state.pipe.count = 0 ∧ (state.ends true).holders = [])
  writing
    : ∀ who bytes len done, state.controls who = .writeCopy bytes len done
      → stored = bytes.take done
        ∧ done ≤ len
        ∧ len ≤ bytes.length
        ∧ state.pipe.count + len ≤ state.pipe.capacity

structure State.Answered (state : State) : Prop where
  endOfFile
    : ∀ answer ∈ state.reads, answer.isWriteEnd = false → answer.asked ≠ 0
      → answer.result = some []
      → state.pipe.count = 0 ∧ (state.ends true).holders = []
  broken
    : ∀ answer ∈ state.writes, answer.isWriteEnd = true → answer.result = none
      → (state.ends false).holders = []

structure State.Sound (state : State) (out stored : List UInt8) : Prop where
  flows : Flows state.pipe state.delivered state.accepted out stored
  ends : state.EndsCounted
  copying : state.Copying out stored
  answered : state.Answered

-- Going from one place of a call to another

theorem Control.Copies.uses {control : Control} {isWriteEnd : Bool}
    (copies : control.Copies isWriteEnd)
    : control.Uses isWriteEnd := by
  cases isWriteEnd with
  | false =>
      obtain ⟨asked, len, out, rfl⟩ := copies
      rfl
  | true =>
      obtain ⟨bytes, len, done, rfl⟩ := copies
      rfl

theorem State.EndsCounted.congr {state after : State} (ends : state.EndsCounted)
    (sameEnds : after.ends = state.ends) (sameControls : after.controls = state.controls)
    (sameClosed : ∀ isWriteEnd, after.pipe.closed isWriteEnd = state.pipe.closed isWriteEnd)
    : after.EndsCounted where
  counted := by
    rw [sameEnds]
    exact ends.counted
  closed := by
    intro isWriteEnd isClosed
    rw [sameClosed] at isClosed
    rw [sameEnds]
    exact ends.closed isWriteEnd isClosed
  releasing := by
    rw [sameEnds, sameControls]
    exact ends.releasing
  uses := by
    rw [sameEnds, sameControls]
    exact ends.uses

theorem State.Copying.congr {state after : State} {out stored : List UInt8}
    (copying : state.Copying out stored) (sameEnds : after.ends = state.ends)
    (sameControls : after.controls = state.controls)
    (sameCount : after.pipe.count = state.pipe.count)
    (sameCapacity : after.pipe.capacity = state.pipe.capacity)
    : after.Copying out stored where
  one := by
    rw [sameControls]
    exact copying.one
  noReader := by
    rw [sameControls]
    exact copying.noReader
  noWriter := by
    rw [sameControls]
    exact copying.noWriter
  reading := by
    rw [sameControls, sameCount, sameEnds]
    exact copying.reading
  writing := by
    rw [sameControls, sameCount, sameCapacity]
    exact copying.writing

section Goto

variable {state : State} {who : Nat} {out stored : List UInt8}

theorem goto_controls (state : State) (who : Nat) (control : Control) (other : Nat)
    : (state.goto who control).controls other
      = if other = who then control else state.controls other := by
  by_cases isWho : other = who
  · subst isWho
    simp [State.goto]
  · simp [State.goto, isWho]

theorem State.EndsCounted.goto (ends : state.EndsCounted) (who : Nat) (control : Control)
    (uses : ∀ isWriteEnd, control.Uses isWriteEnd → who ∈ (state.ends isWriteEnd).holders)
    (releasing
      : ∀ isWriteEnd, control = .releasing isWriteEnd → (state.ends isWriteEnd).holders = [])
    : (state.goto who control).EndsCounted where
  counted := ends.counted
  closed := ends.closed
  releasing := by
    intro other isWriteEnd there
    rw [goto_controls] at there
    split at there
    · exact releasing isWriteEnd there
    · exact ends.releasing other isWriteEnd there
  uses := by
    intro other isWriteEnd there
    rw [goto_controls] at there
    split at there
    · rename_i isWho
      rw [isWho]
      exact uses isWriteEnd there
    · exact ends.uses other isWriteEnd there

theorem State.Copying.goto {control : Control} (copying : state.Copying out stored)
    (was : ∀ isWriteEnd, ¬(state.controls who).Copies isWriteEnd)
    (now : ∀ isWriteEnd, ¬control.Copies isWriteEnd)
    : (state.goto who control).Copying out stored := by
  have copiesIff (other : Nat) (isWriteEnd : Bool)
      : ((state.goto who control).controls other).Copies isWriteEnd
        ↔ (state.controls other).Copies isWriteEnd := by
    rw [goto_controls]
    split
    · rename_i isWho
      rw [isWho]
      exact ⟨fun copies => absurd copies (now _), fun copies => absurd copies (was _)⟩
    · rfl
  have unchanged {other : Nat} {isWriteEnd : Bool}
      (copies : ((state.goto who control).controls other).Copies isWriteEnd)
      : (state.goto who control).controls other = state.controls other := by
    rw [goto_controls, if_neg]
    intro isWho
    rw [copiesIff, isWho] at copies
    exact was isWriteEnd copies
  constructor
  · intro isWriteEnd first second
    rw [copiesIff, copiesIff]
    exact copying.one isWriteEnd first second
  · intro nobody
    exact copying.noReader (fun other copies => nobody other ((copiesIff other _).mpr copies))
  · intro nobody
    exact copying.noWriter (fun other copies => nobody other ((copiesIff other _).mpr copies))
  · intro other asked len bytes there
    have copies : ((state.goto who control).controls other).Copies false := ⟨_, _, _, there⟩
    exact copying.reading other asked len bytes ((unchanged copies).symm.trans there)
  · intro other bytes len done there
    have copies : ((state.goto who control).controls other).Copies true := ⟨_, _, _, there⟩
    exact copying.writing other bytes len done ((unchanged copies).symm.trans there)

theorem State.Sound.goto (sound : state.Sound out stored) (control : Control)
    (was : ∀ isWriteEnd, ¬(state.controls who).Copies isWriteEnd)
    (now : ∀ isWriteEnd, ¬control.Copies isWriteEnd)
    (uses : ∀ isWriteEnd, control.Uses isWriteEnd → who ∈ (state.ends isWriteEnd).holders)
    (releasing
      : ∀ isWriteEnd, control = .releasing isWriteEnd → (state.ends isWriteEnd).holders = [])
    : (state.goto who control).Sound out stored where
  flows := sound.flows
  ends := sound.ends.goto who control uses releasing
  copying := sound.copying.goto was now
  answered := ⟨sound.answered.endOfFile, sound.answered.broken⟩

theorem Control.Uses.unique {control : Control} {one two : Bool} (first : control.Uses one)
    (second : control.Uses two)
    : one = two := by
  cases control <;> first | exact first.elim | exact first.trans second.symm

theorem State.EndsCounted.goesOn (ends : state.EndsCounted) {side : Bool}
    (holds : who ∈ (state.ends side).holders) {next : Control} (same : next.Uses side)
    : (state.goto who next).EndsCounted := by
  apply ends.goto who next
  · intro isWriteEnd uses
    rw [uses.unique same]
    exact holds
  · intro isWriteEnd releases
    rw [releases] at same
    exact same.elim

end Goto

-- Answers without bytes

section Answers

variable {state : State} {out stored : List UInt8}

theorem delivered_answerRead (state : State) (answer : ReadAnswer)
    : (state.answerRead answer).delivered = state.delivered ++ answer.result.getD [] := by
  simp [State.delivered, State.answerRead]

theorem accepted_answerWrite (state : State) (answer : WriteAnswer)
    : (state.answerWrite answer).accepted = state.accepted ++ answer.result.getD [] := by
  simp [State.accepted, State.answerWrite]

theorem not_copies_idle (isWriteEnd : Bool) : ¬Control.idle.Copies isWriteEnd :=
  fun copies => copies.uses

/-- A read returns no bytes. -/
theorem State.Sound.answerRead {answer : ReadAnswer} (sound : state.Sound out stored)
    (was : ∀ isWriteEnd, ¬(state.controls answer.who).Copies isWriteEnd)
    (nothing : answer.result.getD [] = [])
    (endOfFile
      : answer.isWriteEnd = false → answer.asked ≠ 0 → answer.result = some []
        → state.pipe.count = 0 ∧ (state.ends true).holders = [])
    : (state.answerRead answer).Sound out stored := by
  have left := sound.goto .idle was not_copies_idle (fun _ uses => uses.elim)
    (fun _ same => by cases same)
  refine ⟨?_, left.ends.congr rfl rfl (fun _ => rfl), left.copying.congr rfl rfl rfl rfl, ?_,
    left.answered.broken⟩
  · rw [delivered_answerRead, nothing, List.append_nil]
    exact sound.flows
  · intro other member
    rcases List.mem_append.mp member with inOld | isNew
    · exact sound.answered.endOfFile other inOld
    · rw [List.mem_singleton.mp isNew]
      exact endOfFile

theorem State.Sound.answerWrite {answer : WriteAnswer} (sound : state.Sound out stored)
    (was : ∀ isWriteEnd, ¬(state.controls answer.who).Copies isWriteEnd)
    (nothing : answer.result = none)
    (broken : answer.isWriteEnd = true → (state.ends false).holders = [])
    : (state.answerWrite answer).Sound out stored := by
  have left := sound.goto .idle was not_copies_idle (fun _ uses => uses.elim)
    (fun _ same => by cases same)
  refine ⟨?_, left.ends.congr rfl rfl (fun _ => rfl), left.copying.congr rfl rfl rfl rfl,
    left.answered.endOfFile, ?_⟩
  · rw [accepted_answerWrite, nothing, Option.getD_none, List.append_nil]
    exact sound.flows
  · intro other member
    rcases List.mem_append.mp member with inOld | isNew
    · exact sound.answered.broken other inOld
    · rw [List.mem_singleton.mp isNew]
      exact fun viaWriteEnd _ => broken viaWriteEnd

end Answers

-- Copying

section Copies

variable {state after : State} {who : Nat} {out stored : List UInt8} {len : Nat}
    {bytes : List UInt8}

theorem not_copies_read {asked : Nat} : ¬(Control.readCopy asked len bytes).Copies true :=
  fun copies => by cases copies.uses

theorem not_copies_write {done : Nat} : ¬(Control.writeCopy bytes len done).Copies false :=
  fun copies => by cases copies.uses

theorem copies_update {control : Control} {isWriteEnd : Bool}
    (controls : after.controls = Function.update state.controls who control)
    (was : ¬(state.controls who).Copies isWriteEnd) (now : ¬control.Copies isWriteEnd)
    {other : Nat} (copies : (after.controls other).Copies isWriteEnd)
    : after.controls other = state.controls other ∧ (state.controls other).Copies isWriteEnd := by
  rw [controls] at copies ⊢
  by_cases isWho : other = who
  · subst isWho
    rw [Function.update_self] at copies
    exact absurd copies now
  · rw [Function.update_of_ne isWho] at copies ⊢
    exact ⟨rfl, copies⟩

theorem copies_update_of {control : Control} {isWriteEnd : Bool}
    (controls : after.controls = Function.update state.controls who control)
    (was : ¬(state.controls who).Copies isWriteEnd)
    {other : Nat} (copies : (state.controls other).Copies isWriteEnd)
    : (after.controls other).Copies isWriteEnd := by
  have apart : other ≠ who := by
    rintro rfl
    exact was copies
  rw [controls, Function.update_of_ne apart]
  exact copies

theorem copies_alone {control : Control} {side : Bool}
    (others : ∀ other, other ≠ who → ¬(state.controls other).Copies side)
    (controls : after.controls = Function.update state.controls who control) {other : Nat}
    (copies : (after.controls other).Copies side)
    : other = who ∧ control.Copies side := by
  by_cases isWho : other = who
  · rw [controls, isWho, Function.update_self] at copies
    exact ⟨isWho, copies⟩
  · rw [controls, Function.update_of_ne isWho] at copies
    exact absurd copies (others other isWho)

theorem State.Copying.one_update (copying : state.Copying out stored) {control : Control}
    {side : Bool} (others : ∀ other, other ≠ who → ¬(state.controls other).Copies side)
    (controls : after.controls = Function.update state.controls who control)
    (was : ¬(state.controls who).Copies (!side)) (now : ¬control.Copies (!side))
    : ∀ isWriteEnd first second, (after.controls first).Copies isWriteEnd
      → (after.controls second).Copies isWriteEnd
      → first = second := by
  intro isWriteEnd first second copies copiesToo
  by_cases same : isWriteEnd = side
  · subst same
    rw [(copies_alone others controls copies).1, (copies_alone others controls copiesToo).1]
  · obtain rfl : isWriteEnd = !side := Bool.eq_not.mpr same
    exact copying.one _ first second (copies_update controls was now copies).2
      (copies_update controls was now copiesToo).2

/-- A reader enters its loop or goes on in it. -/
theorem State.Copying.readCopy {asked : Nat} (copying : state.Copying out stored)
    (others : ∀ other, other ≠ who → ¬(state.controls other).Copies false)
    (notWriter : ¬(state.controls who).Copies true)
    (controls
      : after.controls = Function.update state.controls who (.readCopy asked len bytes))
    (sameEnds : after.ends = state.ends) (sameCount : after.pipe.count = state.pipe.count)
    (sameCapacity : after.pipe.capacity = state.pipe.capacity) (fits : bytes.length ≤ len)
    (within : len ≤ state.pipe.count)
    (nothing
      : len = 0 → asked = 0 ∨ state.pipe.count = 0 ∧ (state.ends true).holders = [])
    : after.Copying bytes stored := by
  have reader {other : Nat} (copies : (after.controls other).Copies false) : other = who :=
    (copies_alone others controls copies).1
  have isReader : after.controls who = .readCopy asked len bytes := by
    rw [controls, Function.update_self]
  constructor
  · exact copying.one_update others controls notWriter not_copies_read
  · intro nobody
    exact absurd ⟨asked, len, bytes, isReader⟩ (nobody who)
  · intro nobody
    apply copying.noWriter
    intro other copies
    exact nobody other (copies_update_of controls notWriter copies)
  · intro other otherAsked otherLen otherBytes there
    rw [reader ⟨_, _, _, there⟩, isReader] at there
    cases there
    rw [sameCount, sameEnds]
    exact ⟨rfl, fits, within, nothing⟩
  · intro other otherBytes otherLen done there
    have same := (copies_update controls notWriter not_copies_read ⟨_, _, _, there⟩).1
    rw [sameCount, sameCapacity]
    exact copying.writing other otherBytes otherLen done (same.symm.trans there)

/-- A reader leaves its loop. -/
theorem State.Copying.readDone (copying : state.Copying out stored)
    (others : ∀ other, other ≠ who → ¬(state.controls other).Copies false)
    (notWriter : ¬(state.controls who).Copies true)
    (controls : after.controls = Function.update state.controls who .idle)
    (count : after.pipe.count ≤ state.pipe.count)
    (sameCapacity : after.pipe.capacity = state.pipe.capacity)
    : after.Copying [] stored := by
  have noReader {other : Nat} (copies : (after.controls other).Copies false) : False :=
    not_copies_idle false (copies_alone others controls copies).2
  constructor
  · exact copying.one_update others controls notWriter (not_copies_idle _)
  · intro _
    rfl
  · intro nobody
    apply copying.noWriter
    intro other copies
    exact nobody other (copies_update_of controls notWriter copies)
  · intro other asked len bytes there
    exact (noReader ⟨_, _, _, there⟩).elim
  · intro other bytes len done there
    have same := (copies_update controls notWriter (not_copies_idle _) ⟨_, _, _, there⟩).1
    obtain ⟨isStored, doneLe, lenLe, roomLe⟩ :=
      copying.writing other bytes len done (same.symm.trans there)
    refine ⟨isStored, doneLe, lenLe, ?_⟩
    rw [sameCapacity]
    omega

/-- A writer enters its loop or goes on in it. -/
theorem State.Copying.writeCopy {done : Nat} (copying : state.Copying out stored)
    (others : ∀ other, other ≠ who → ¬(state.controls other).Copies true)
    (notReader : ¬(state.controls who).Copies false)
    (controls
      : after.controls = Function.update state.controls who (.writeCopy bytes len done))
    (sameEnds : after.ends = state.ends) (sameCount : after.pipe.count = state.pipe.count)
    (sameCapacity : after.pipe.capacity = state.pipe.capacity) (doneLe : done ≤ len)
    (lenLe : len ≤ bytes.length) (roomLe : state.pipe.count + len ≤ state.pipe.capacity)
    : after.Copying out (bytes.take done) := by
  have writer {other : Nat} (copies : (after.controls other).Copies true) : other = who :=
    (copies_alone others controls copies).1
  have isWriter : after.controls who = .writeCopy bytes len done := by
    rw [controls, Function.update_self]
  constructor
  · exact copying.one_update others controls notReader not_copies_write
  · intro nobody
    apply copying.noReader
    intro other copies
    exact nobody other (copies_update_of controls notReader copies)
  · intro nobody
    exact absurd ⟨bytes, len, done, isWriter⟩ (nobody who)
  · intro other asked otherLen otherBytes there
    have same := (copies_update controls notReader not_copies_write ⟨_, _, _, there⟩).1
    rw [sameCount, sameEnds]
    exact copying.reading other asked otherLen otherBytes (same.symm.trans there)
  · intro other otherBytes otherLen otherDone there
    rw [writer ⟨_, _, _, there⟩, isWriter] at there
    cases there
    rw [sameCount, sameCapacity]
    exact ⟨rfl, doneLe, lenLe, roomLe⟩

/-- A writer leaves its loop. -/
theorem State.Copying.writeDone (copying : state.Copying out stored)
    (others : ∀ other, other ≠ who → ¬(state.controls other).Copies true)
    (notReader : ¬(state.controls who).Copies false)
    (controls : after.controls = Function.update state.controls who .idle)
    (holds : who ∈ (state.ends true).holders) (count : state.pipe.count ≤ after.pipe.count)
    : after.Copying out [] := by
  have noWriter {other : Nat} (copies : (after.controls other).Copies true) : False :=
    not_copies_idle true (copies_alone others controls copies).2
  constructor
  · exact copying.one_update others controls notReader (not_copies_idle _)
  · intro nobody
    apply copying.noReader
    intro other copies
    exact nobody other (copies_update_of controls notReader copies)
  · intro _
    rfl
  · intro other asked len bytes there
    have same := (copies_update controls notReader (not_copies_idle _) ⟨_, _, _, there⟩).1
    obtain ⟨isOut, outLe, lenLe, nothing⟩ :=
      copying.reading other asked len bytes (same.symm.trans there)
    refine ⟨isOut, outLe, by omega, ?_⟩
    intro isZero
    rcases nothing isZero with noneAsked | ⟨_, noHolders⟩
    · exact Or.inl noneAsked
    · rw [noHolders] at holds
      cases holds
  · intro other bytes len done there
    exact (noWriter ⟨_, _, _, there⟩).elim

end Copies

-- The ring

section Flows

variable {pipe : Buffer} {delivered accepted out stored : List UInt8}

theorem PIPE_BUFFER_SIZE_pos : 0 < PIPE_BUFFER_SIZE ∧ PIPE_BUFFER_SIZE < SIZE_T := by decide

theorem Flows.modulus (flows : Flows pipe delivered accepted out stored)
    : 0 < pipe.capacity ∧ pipe.capacity < SIZE_T := by
  rw [flows.capacity]
  exact PIPE_BUFFER_SIZE_pos

theorem Flows.take (flows : Flows pipe delivered accepted out stored)
    (behind : out.length < pipe.count)
    : Flows { pipe with head := (pipe.head + 1) % pipe.capacity } delivered accepted
        (out ++ [pipe.buffer pipe.head]) stored where
  capacity := flows.capacity
  order := by
    have below := flows.counted
    have taken := flows.cells.read flows.order (by simp)
      (by rw [List.length_append]; omega)
    rw [List.length_append, ← flows.head] at taken
    rw [← List.append_assoc]
    exact taken
  counted := flows.counted
  bounded := flows.bounded
  head := by
    have here := flows.head
    simp only [List.length_append, List.length_singleton]
    rw [here, Nat.mod_add_mod, Nat.add_assoc]
  tail := flows.tail
  cells := flows.cells

theorem Flows.took (flows : Flows pipe delivered accepted out stored)
    (within : out.length ≤ pipe.count)
    : Flows { pipe with count := sizeSub pipe.count out.length } (delivered ++ out) accepted []
        stored := by
  have small := flows.modulus.2
  have bounded := flows.bounded
  have exact : sizeSub pipe.count out.length = pipe.count - out.length :=
    sizeSub_of_le within (by omega)
  constructor
  · exact flows.capacity
  · rw [List.append_nil]
    exact flows.order
  · rw [exact, List.length_append]
    have counted := flows.counted
    simp only
    omega
  · rw [exact]
    simp only
    omega
  · rw [List.length_append, List.length_nil, Nat.add_zero]
    exact flows.head
  · exact flows.tail
  · exact flows.cells.later (by simp)

theorem Flows.store (flows : Flows pipe delivered accepted out stored) (byte : UInt8)
    (space : pipe.count + stored.length < pipe.capacity)
    : Flows
        { pipe with
          buffer := Function.update pipe.buffer pipe.tail byte
          tail := (pipe.tail + 1) % pipe.capacity }
        delivered accepted out (stored ++ [byte]) where
  capacity := flows.capacity
  order := flows.order
  counted := flows.counted
  bounded := flows.bounded
  head := flows.head
  tail := by
    have here := flows.tail
    simp only [List.length_append, List.length_singleton]
    rw [here, Nat.mod_add_mod, Nat.add_assoc]
  cells := by
    have counted := flows.counted
    have stores := flows.cells.push byte (by rw [List.length_append]; omega)
    rw [List.length_append, ← flows.tail, List.append_assoc] at stores
    exact stores

theorem Flows.stores (flows : Flows pipe delivered accepted out stored)
    (within : pipe.count + stored.length ≤ pipe.capacity)
    : Flows { pipe with count := sizeAdd pipe.count stored.length } delivered
        (accepted ++ stored) out [] := by
  have small := flows.modulus.2
  have exact : sizeAdd pipe.count stored.length = pipe.count + stored.length :=
    sizeAdd_of_lt (by omega)
  constructor
  · exact flows.capacity
  · exact flows.order.trans (List.prefix_append _ _)
  · rw [exact, List.length_append]
    have counted := flows.counted
    simp only
    omega
  · rw [exact]
    exact within
  · exact flows.head
  · rw [List.length_append, List.length_nil, Nat.add_zero]
    exact flows.tail
  · rw [List.append_nil]
    exact flows.cells

end Flows

-- The steps of a read and of a write

section Calls

variable {state : State} {who : Nat} {out stored : List UInt8} {control : Control}
    {bytes : List UInt8}

theorem not_copies_of {isWriteEnd : Bool} (there : state.controls who = control)
    (not : ¬control.Copies isWriteEnd)
    : ¬(state.controls who).Copies isWriteEnd := by
  rw [there]
  exact not

theorem not_copies_of_uses {isWriteEnd : Bool} (uses : control.Uses (!isWriteEnd))
    : ¬control.Copies isWriteEnd := by
  intro copies
  have both := copies.uses
  cases control <;> cases isWriteEnd <;> simp_all [Control.Uses]

theorem State.Sound.readStart {len : Nat} (sound : state.Sound out stored)
    (there : state.controls who = .readStart len)
    (alone : ∀ other, ¬(state.controls other).Copies false)
    (full : len = 0 ∨ state.pipe.count ≠ 0 ∨ (state.ends true).holders = [])
    : (readStep state who (.readStart len)).Sound [] stored := by
  have empty : out = [] := sound.copying.noReader alone
  have holds : who ∈ (state.ends false).holders := sound.ends.uses who false (by rw [there]; rfl)
  refine ⟨?_, sound.ends.goesOn holds rfl, ?_,
    ⟨sound.answered.endOfFile, sound.answered.broken⟩⟩
  · rw [← empty]
    exact sound.flows
  · refine sound.copying.readCopy (fun other _ => alone other)
      (not_copies_of there (not_copies_of_uses rfl)) rfl rfl rfl rfl (Nat.zero_le _) ?_ ?_
    · split <;> omega
    · intro isZero
      rcases full with noneAsked | some | nobody
      · exact Or.inl noneAsked
      · left
        split at isZero <;> omega
      · by_cases drained : state.pipe.count = 0
        · exact Or.inr ⟨drained, nobody⟩
        · left
          split at isZero <;> omega

/-- One turn of the loop of `pipe_read_raw`, or what follows it. -/
theorem State.Sound.readCopy {asked len : Nat} (sound : state.Sound out stored)
    (there : state.controls who = .readCopy asked len bytes)
    : ∃ out', (readStep state who (.readCopy asked len bytes)).Sound out' stored := by
  obtain ⟨rfl, outLe, lenLe, nothing⟩ := sound.copying.reading who asked len bytes there
  have copies : (state.controls who).Copies false := ⟨_, _, _, there⟩
  have holds : who ∈ (state.ends false).holders := sound.ends.uses who false copies.uses
  have others (other : Nat) (apart : other ≠ who) : ¬(state.controls other).Copies false :=
    fun copiesToo => apart (sound.copying.one false other who copiesToo copies)
  have notWriter := not_copies_of there not_copies_read
  simp only [readStep]
  split
  · rename_i goesOn
    refine ⟨_, sound.flows.take (by omega), ?_, ?_, ?_⟩
    · have next : (Control.readCopy asked len
          (bytes ++ [state.pipe.buffer state.pipe.head])).Uses false := rfl
      exact (sound.ends.goesOn holds next).congr rfl rfl
        (fun isWriteEnd => by cases isWriteEnd <;> rfl)
    · exact sound.copying.readCopy others notWriter rfl rfl rfl rfl
        (by rw [List.length_append, List.length_singleton]; omega) lenLe nothing
    · exact ⟨sound.answered.endOfFile, sound.answered.broken⟩
  · rename_i finished
    obtain rfl : len = bytes.length := by omega
    have bounded := sound.flows.bounded
    have small := sound.flows.modulus.2
    have less : sizeSub state.pipe.count bytes.length = state.pipe.count - bytes.length :=
      sizeSub_of_le lenLe (by omega)
    rw [less]
    refine ⟨[], ?_, ?_, ?_, ?_⟩
    · have answered := delivered_answerRead state ⟨who, false, asked, some bytes⟩
      have flows := sound.flows.took lenLe
      rw [Option.getD_some] at answered
      rw [← answered, less] at flows
      exact flows
    · have moved := sound.ends.goto who .idle (fun _ uses => uses.elim)
        (fun _ same => by cases same)
      exact moved.congr rfl rfl (fun isWriteEnd => by cases isWriteEnd <;> rfl)
    · exact sound.copying.readDone others notWriter rfl (Nat.sub_le _ _) rfl
    · constructor
      · intro answer member viaReadEnd notZero empty
        simp only
        rcases List.mem_append.mp member with inOld | isNew
        · obtain ⟨drained, nobody⟩ :=
            sound.answered.endOfFile answer inOld viaReadEnd notZero empty
          exact ⟨by omega, nobody⟩
        · rw [List.mem_singleton.mp isNew] at notZero empty
          obtain rfl : bytes = [] := Option.some.inj empty
          rcases nothing rfl with noneAsked | ⟨drained, nobody⟩
          · exact absurd noneAsked notZero
          · exact ⟨by omega, nobody⟩
      · exact sound.answered.broken

/-- The steps of a read before its copy loop. -/
theorem State.Sound.readEntry (sound : state.Sound out stored)
    (there : state.controls who = control)
    (entry : (∃ len, control = .readCheck len)
      ∨ ∃ len, control = .readTest len
        ∧ (len = 0 ∨ state.pipe.count ≠ 0 ∨ (state.ends true).holders = []))
    : (readStep state who control).Sound out stored := by
  have uses : control.Uses false := by
    rcases entry with ⟨len, rfl⟩ | ⟨len, rfl, _⟩ <;> rfl
  have holds : who ∈ (state.ends false).holders :=
    sound.ends.uses who false (by rw [there]; exact uses)
  have was (isWriteEnd : Bool) : ¬(state.controls who).Copies isWriteEnd := by
    rw [there]
    rcases entry with ⟨len, rfl⟩ | ⟨len, rfl, _⟩
    · cases isWriteEnd <;> simp [Control.Copies]
    · cases isWriteEnd <;> simp [Control.Copies]
  have goes (next : Control) (now : ∀ isWriteEnd, ¬next.Copies isWriteEnd)
      (isRead : next.Uses false)
      : (state.goto who next).Sound out stored :=
    ⟨sound.flows, sound.ends.goesOn holds isRead, sound.copying.goto was now,
      ⟨sound.answered.endOfFile, sound.answered.broken⟩⟩
  rcases entry with ⟨len, rfl⟩ | ⟨len, rfl, full⟩
  · simp only [readStep]
    split
    · exact goes _ (by intro isWriteEnd; cases isWriteEnd <;> simp [Control.Copies]) rfl
    · exact goes _ (by intro isWriteEnd; cases isWriteEnd <;> simp [Control.Copies]) rfl
  · simp only [readStep]
    split
    · rename_i drained
      apply sound.answerRead was rfl
      intro _ notZero _
      rcases full with isZero | some | nobody
      · exact absurd isZero notZero
      · exact absurd drained some
      · exact ⟨drained, nobody⟩
    · exact goes _ (by intro isWriteEnd; cases isWriteEnd <;> simp [Control.Copies]) rfl

theorem State.Sound.writeStart (sound : state.Sound out stored)
    (there : state.controls who = .writeStart bytes)
    (alone : ∀ other, ¬(state.controls other).Copies true)
    : (writeStep state who (.writeStart bytes)).Sound out [] := by
  have empty : stored = [] := sound.copying.noWriter alone
  have holds : who ∈ (state.ends true).holders := sound.ends.uses who true (by rw [there]; rfl)
  have bounded := sound.flows.bounded
  have small := sound.flows.modulus.2
  have space : sizeSub state.pipe.capacity state.pipe.count
      = state.pipe.capacity - state.pipe.count := sizeSub_of_le bounded small
  refine ⟨?_, sound.ends.goesOn holds rfl, ?_,
    ⟨sound.answered.endOfFile, sound.answered.broken⟩⟩
  · rw [← empty]
    exact sound.flows
  · have entered : (writeStep state who (.writeStart bytes)).Copying out (bytes.take 0) :=
      sound.copying.writeCopy (fun other _ => alone other)
        (not_copies_of there (not_copies_of_uses rfl)) rfl rfl rfl rfl (Nat.zero_le _)
        (by rw [space]; split <;> omega) (by rw [space]; split <;> omega)
    exact entered

/-- One turn of the loop of `pipe_write_raw`, or what follows it. -/
theorem State.Sound.writeCopy {len done : Nat} (sound : state.Sound out stored)
    (there : state.controls who = .writeCopy bytes len done)
    : ∃ stored', (writeStep state who (.writeCopy bytes len done)).Sound out stored' := by
  obtain ⟨rfl, doneLe, lenLe, roomLe⟩ := sound.copying.writing who bytes len done there
  have copies : (state.controls who).Copies true := ⟨_, _, _, there⟩
  have holds : who ∈ (state.ends true).holders := sound.ends.uses who true copies.uses
  have others (other : Nat) (apart : other ≠ who) : ¬(state.controls other).Copies true :=
    fun copiesToo => apart (sound.copying.one true other who copiesToo copies)
  have notReader := not_copies_of there not_copies_write
  have storedLength : (bytes.take done).length = done := by
    rw [List.length_take]
    omega
  simp only [writeStep]
  split
  · rename_i goesOn
    have next : bytes.take done ++ [bytes.getD done 0] = bytes.take (done + 1) := by
      have present : bytes[done]? = some bytes[done] := List.getElem?_eq_getElem (by omega)
      rw [List.getD, present, Option.getD_some, List.take_append_getElem]
    refine ⟨bytes.take (done + 1), ?_, ?_, ?_, ?_⟩
    · have flows := sound.flows.store (bytes.getD done 0) (by omega)
      rw [next] at flows
      exact flows
    · have further : (Control.writeCopy bytes len (done + 1)).Uses true := rfl
      exact (sound.ends.goesOn holds further).congr rfl rfl
        (fun isWriteEnd => by cases isWriteEnd <;> rfl)
    · exact sound.copying.writeCopy others notReader rfl rfl rfl rfl (by omega) lenLe roomLe
    · exact ⟨sound.answered.endOfFile, sound.answered.broken⟩
  · rename_i finished
    obtain rfl : len = done := by omega
    have small := sound.flows.modulus.2
    have more : sizeAdd state.pipe.count len = state.pipe.count + len :=
      sizeAdd_of_lt (by omega)
    refine ⟨[], ?_, ?_, ?_, ?_⟩
    · have answered := accepted_answerWrite state ⟨who, true, some (bytes.take len)⟩
      have flows := sound.flows.stores (by rw [storedLength]; exact roomLe)
      rw [Option.getD_some] at answered
      rw [← answered, storedLength] at flows
      exact flows
    · have moved := sound.ends.goto who .idle (fun _ uses => uses.elim)
        (fun _ same => by cases same)
      exact moved.congr rfl rfl (fun isWriteEnd => by cases isWriteEnd <;> rfl)
    · refine sound.copying.writeDone others notReader rfl holds ?_
      simp only [more]
      omega
    · constructor
      · intro answer member viaReadEnd notZero isEmpty
        have nobody := (sound.answered.endOfFile answer member viaReadEnd notZero isEmpty).2
        rw [nobody] at holds
        cases holds
      · intro answer member viaWriteEnd failed
        rcases List.mem_append.mp member with inOld | isNew
        · exact sound.answered.broken answer inOld viaWriteEnd failed
        · rw [List.mem_singleton.mp isNew] at failed
          cases failed

/-- The steps of a write before its copy loop. -/
theorem State.Sound.writeEntry (sound : state.Sound out stored)
    (there : state.controls who = control)
    (entry : (∃ bytes, control = .writeCheck bytes)
      ∨ ∃ bytes, control = .writeTest bytes
        ∧ (state.pipe.count ≠ state.pipe.capacity ∨ (state.ends false).holders = []))
    : (writeStep state who control).Sound out stored := by
  have uses : control.Uses true := by
    rcases entry with ⟨bytes, rfl⟩ | ⟨bytes, rfl, _⟩ <;> rfl
  have holds : who ∈ (state.ends true).holders :=
    sound.ends.uses who true (by rw [there]; exact uses)
  have was (isWriteEnd : Bool) : ¬(state.controls who).Copies isWriteEnd := by
    rw [there]
    rcases entry with ⟨bytes, rfl⟩ | ⟨bytes, rfl, _⟩
    · cases isWriteEnd <;> simp [Control.Copies]
    · cases isWriteEnd <;> simp [Control.Copies]
  have goes (next : Control) (now : ∀ isWriteEnd, ¬next.Copies isWriteEnd)
      (isWrite : next.Uses true)
      : (state.goto who next).Sound out stored :=
    ⟨sound.flows, sound.ends.goesOn holds isWrite, sound.copying.goto was now,
      ⟨sound.answered.endOfFile, sound.answered.broken⟩⟩
  rcases entry with ⟨bytes, rfl⟩ | ⟨bytes, rfl, room⟩
  · simp only [writeStep]
    split
    · exact goes _ (by intro isWriteEnd; cases isWriteEnd <;> simp [Control.Copies]) rfl
    · exact goes _ (by intro isWriteEnd; cases isWriteEnd <;> simp [Control.Copies]) rfl
  · simp only [writeStep]
    split
    · rename_i isFull
      apply sound.answerWrite was rfl
      intro _
      exact room.resolve_left (fun notFull => notFull isFull)
    · exact goes _ (by intro isWriteEnd; cases isWriteEnd <;> simp [Control.Copies]) rfl

end Calls

end Panuti.Pipe
