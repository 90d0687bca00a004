import Panuti.Kernel.PipeFlow

/-! Every run of one pipe: the bytes come out in the order they went in, and reads and writes
learn of closed ends only when nobody holds them.
-/

namespace Panuti.Pipe

-- The ends

section Ends

variable {state : State} {who : Nat} {out stored : List UInt8} {isWriteEnd : Bool}

theorem State.Sound.setEnd (sound : state.Sound out stored) (changed : End)
    (counted : changed.refcount = changed.holders.length)
    (still : (state.ends isWriteEnd).holders = [] → changed.holders = [])
    (uses : ∀ who, (state.controls who).Uses isWriteEnd → who ∈ changed.holders)
    : (state.setEnd isWriteEnd changed).Sound out stored := by
  have stillEmpty (other : Bool) (empty : (state.ends other).holders = [])
      : ((state.setEnd isWriteEnd changed).ends other).holders = [] := by
    by_cases same : other = isWriteEnd
    · subst same
      simp only [State.setEnd, Function.update_self]
      exact still empty
    · simp only [State.setEnd, Function.update_of_ne same]
      exact empty
  refine ⟨sound.flows, ⟨?_, ?_, ?_, ?_⟩, ⟨sound.copying.one, sound.copying.noReader,
    sound.copying.noWriter, ?_, sound.copying.writing⟩, ⟨?_, ?_⟩⟩
  · intro other
    by_cases same : other = isWriteEnd
    · subst same
      simp only [State.setEnd, Function.update_self]
      exact counted
    · simp only [State.setEnd, Function.update_of_ne same]
      exact sound.ends.counted other
  · intro other closed
    exact stillEmpty other (sound.ends.closed other closed)
  · intro other isWrite releasing
    exact stillEmpty isWrite (sound.ends.releasing other isWrite releasing)
  · intro other isWrite isUse
    by_cases same : isWrite = isWriteEnd
    · subst same
      simp only [State.setEnd, Function.update_self]
      exact uses other isUse
    · simp only [State.setEnd, Function.update_of_ne same]
      exact sound.ends.uses other isWrite isUse
  · intro other asked len bytes there
    obtain ⟨isOut, outLe, lenLe, nothing⟩ := sound.copying.reading other asked len bytes there
    refine ⟨isOut, outLe, lenLe, ?_⟩
    intro isZero
    rcases nothing isZero with noneAsked | ⟨drained, nobody⟩
    · exact Or.inl noneAsked
    · exact Or.inr ⟨drained, stillEmpty true nobody⟩
  · intro answer member viaReadEnd notZero empty
    obtain ⟨drained, nobody⟩ := sound.answered.endOfFile answer member viaReadEnd notZero empty
    exact ⟨drained, stillEmpty true nobody⟩
  · intro answer member viaWriteEnd failed
    exact stillEmpty false (sound.answered.broken answer member viaWriteEnd failed)

theorem mayUse_spec (may : state.mayUse who isWriteEnd = true)
    : state.controls who = .idle ∧ who ∈ (state.ends isWriteEnd).holders := by
  simpa [State.mayUse] using may

theorem State.Sound.inherit {child : Nat} (sound : state.Sound out stored)
    (may : state.mayUse who isWriteEnd = true)
    : (pipeEndRef state child isWriteEnd).Sound out stored := by
  apply sound.setEnd
  · simp [sound.ends.counted]
  · intro empty
    have holds := (mayUse_spec may).2
    rw [empty] at holds
    cases holds
  · intro other uses
    exact List.mem_cons_of_mem _ (sound.ends.uses other isWriteEnd uses)

theorem State.Sound.drop {owner : Nat} (sound : state.Sound out stored)
    (may : state.mayUse owner isWriteEnd = true) (idle : state.controls who = .idle)
    : (pipeEndUnref state who owner isWriteEnd).Sound out stored := by
  obtain ⟨ownerIdle, holds⟩ := mayUse_spec may
  have counted := sound.ends.counted isWriteEnd
  have shorter := List.length_erase_of_mem holds
  have positive := List.length_pos_of_mem holds
  have dropped : (state.setEnd isWriteEnd ⟨(state.ends isWriteEnd).refcount - 1,
      (state.ends isWriteEnd).holders.erase owner⟩).Sound out stored := by
    apply sound.setEnd
    · simp only [counted, shorter]
      omega
    · intro empty
      rw [empty] at holds
      cases holds
    · intro other uses
      have apart : other ≠ owner := by
        rintro rfl
        rw [ownerIdle] at uses
        exact uses
      exact (List.mem_erase_of_ne apart).mpr (sound.ends.uses other isWriteEnd uses)
  simp only [pipeEndUnref]
  split
  · exact dropped
  · rename_i last
    apply dropped.goto
    · intro other copies
      have there : state.controls who = _ := idle
      exact not_copies_idle other (there ▸ copies)
    · intro other copies
      exact copies.uses
    · intro other uses
      exact uses.elim
    · intro other same
      cases same
      simp only [State.setEnd, Function.update_self]
      apply List.eq_nil_of_length_eq_zero
      omega

/-- The steps of `pipe_end_release`. -/
theorem State.Sound.release {control : Control} (sound : state.Sound out stored)
    (there : state.controls who = control)
    (release : (∃ isWriteEnd, control = .releasing isWriteEnd) ∨ control = .leaving)
    : (releaseStep state who control).Sound out stored := by
  have was (isWriteEnd : Bool) : ¬(state.controls who).Copies isWriteEnd := by
    rw [there]
    rcases release with ⟨other, rfl⟩ | rfl <;> exact fun copies => copies.uses
  rcases release with ⟨isWriteEnd, rfl⟩ | rfl
  · have left := sound.goto .leaving was (fun _ copies => copies.uses) (fun _ uses => uses.elim)
      (fun _ same => by cases same)
    have empty := sound.ends.releasing who isWriteEnd there
    have flows := left.flows
    simp only [releaseStep]
    cases isWriteEnd with
    | true =>
        refine ⟨⟨flows.capacity, flows.order, flows.counted, flows.bounded, flows.head,
          flows.tail, flows.cells⟩, ⟨left.ends.counted, ?_, left.ends.releasing,
          left.ends.uses⟩, left.copying.congr rfl rfl rfl rfl, left.answered.endOfFile,
          left.answered.broken⟩
        intro other closed
        cases other with
        | true => exact empty
        | false => exact left.ends.closed false closed
    | false =>
        refine ⟨⟨flows.capacity, flows.order, flows.counted, flows.bounded, flows.head,
          flows.tail, flows.cells⟩, ⟨left.ends.counted, ?_, left.ends.releasing,
          left.ends.uses⟩, left.copying.congr rfl rfl rfl rfl, left.answered.endOfFile,
          left.answered.broken⟩
        intro other closed
        cases other with
        | false => exact empty
        | true => exact left.ends.closed true closed
  · have left := sound.goto .idle was not_copies_idle (fun _ uses => uses.elim)
      (fun _ same => by cases same)
    have flows := left.flows
    exact ⟨⟨flows.capacity, flows.order, flows.counted, flows.bounded, flows.head, flows.tail,
      flows.cells⟩, left.ends.congr rfl rfl (fun isWriteEnd => by cases isWriteEnd <;> rfl),
      left.copying.congr rfl rfl rfl rfl, left.answered.endOfFile, left.answered.broken⟩

end Ends

-- Runs

/-- A task that tests the buffer behind its availability check, or computes how much it copies,
does not find that other readers emptied it or other writers filled it, unless nobody holds the
other end; and it enters no copy loop of `pipe_read_raw` or `pipe_write_raw` that another task is
in.
-/
def Event.Careful (state : State) : Event → Prop
  | .advance who =>
      match state.controls who with
      | .readTest len => len = 0 ∨ state.pipe.count ≠ 0 ∨ (state.ends true).holders = []
      | .readStart len =>
          (∀ other, ¬(state.controls other).Copies false)
          ∧ (len = 0 ∨ state.pipe.count ≠ 0 ∨ (state.ends true).holders = [])
      | .writeTest _ =>
          state.pipe.count ≠ state.pipe.capacity ∨ (state.ends false).holders = []
      | .writeStart _ => ∀ other, ¬(state.controls other).Copies true
      | _ => True
  | _ => True

variable {state : State} {out stored : List UInt8}

/-- The next step of a call. -/
theorem State.Sound.advance {who : Nat} (sound : state.Sound out stored)
    (careful : Event.Careful state (.advance who))
    : ∃ out' stored', (state.step (.advance who)).Sound out' stored' := by
  simp only [Event.Careful] at careful
  simp only [State.step]
  cases there : state.controls who with
  | readCheck len => exact ⟨out, stored, sound.readEntry there (Or.inl ⟨len, rfl⟩)⟩
  | readTest len =>
      rw [there] at careful
      exact ⟨out, stored, sound.readEntry there (Or.inr ⟨len, rfl, careful⟩)⟩
  | readStart len =>
      rw [there] at careful
      exact ⟨[], stored, sound.readStart there careful.1 careful.2⟩
  | readCopy asked len bytes =>
      obtain ⟨out', after⟩ := sound.readCopy there
      exact ⟨out', stored, after⟩
  | writeCheck bytes => exact ⟨out, stored, sound.writeEntry there (Or.inl ⟨bytes, rfl⟩)⟩
  | writeTest bytes =>
      rw [there] at careful
      exact ⟨out, stored, sound.writeEntry there (Or.inr ⟨bytes, rfl, careful⟩)⟩
  | writeStart bytes =>
      rw [there] at careful
      exact ⟨out, [], sound.writeStart there careful⟩
  | writeCopy bytes len done =>
      obtain ⟨stored', after⟩ := sound.writeCopy there
      exact ⟨out, stored', after⟩
  | releasing isWriteEnd => exact ⟨out, stored, sound.release there (Or.inl ⟨_, rfl⟩)⟩
  | leaving => exact ⟨out, stored, sound.release there (Or.inr rfl)⟩
  | idle => exact ⟨out, stored, sound⟩
  | readBlocked len => exact ⟨out, stored, sound⟩
  | writeBlocked bytes => exact ⟨out, stored, sound⟩

theorem State.Sound.begin {who : Nat} {control : Control} {isWriteEnd : Bool}
    (sound : state.Sound out stored) (was : ∀ isWriteEnd, ¬(state.controls who).Copies isWriteEnd)
    (holds : who ∈ (state.ends isWriteEnd).holders)
    (now : isWriteEnd = false ∧ (∃ len, control = .readCheck len)
      ∨ isWriteEnd = true ∧ ∃ bytes, control = .writeCheck bytes)
    : (state.goto who control).Sound out stored := by
  apply sound.goto control was
  · intro other
    rcases now with ⟨_, len, rfl⟩ | ⟨_, bytes, rfl⟩ <;> cases other <;> simp [Control.Copies]
  · intro other uses
    rcases now with ⟨rfl, len, rfl⟩ | ⟨rfl, bytes, rfl⟩
    · obtain rfl : other = false := uses
      exact holds
    · obtain rfl : other = true := uses
      exact holds
  · intro other same
    rcases now with ⟨_, len, rfl⟩ | ⟨_, bytes, rfl⟩ <;> cases same

theorem State.Sound.step {state : State} {out stored : List UInt8}
    (sound : state.Sound out stored) (event : Event) (careful : event.Careful state)
    : ∃ out' stored', (state.step event).Sound out' stored' := by
  cases event with
  | advance who => exact sound.advance careful
  | read who isWriteEnd len =>
      simp only [State.step]
      split
      · rename_i may
        obtain ⟨idle, holds⟩ := mayUse_spec may
        have was (other : Bool) : ¬(state.controls who).Copies other := by
          rw [idle]
          exact not_copies_idle other
        cases isWriteEnd with
        | true =>
            refine ⟨out, stored, sound.answerRead was rfl ?_⟩
            intro viaReadEnd
            cases viaReadEnd
        | false => exact ⟨out, stored, sound.begin was holds (Or.inl ⟨rfl, len, rfl⟩)⟩
      · exact ⟨out, stored, sound⟩
  | write who isWriteEnd bytes =>
      simp only [State.step]
      split
      · rename_i may
        obtain ⟨idle, holds⟩ := mayUse_spec may
        have was (other : Bool) : ¬(state.controls who).Copies other := by
          rw [idle]
          exact not_copies_idle other
        cases isWriteEnd with
        | false =>
            refine ⟨out, stored, sound.answerWrite was rfl ?_⟩
            intro viaWriteEnd
            cases viaWriteEnd
        | true =>
            simp only [Bool.true_eq_false, if_false]
            split
            · rename_i closed
              exact ⟨out, stored, sound.answerWrite was rfl
                (fun _ => sound.ends.closed false closed)⟩
            · exact ⟨out, stored, sound.begin was holds (Or.inr ⟨rfl, bytes, rfl⟩)⟩
      · exact ⟨out, stored, sound⟩
  | wake who =>
      simp only [State.step]
      split
      · rename_i len there
        refine ⟨out, stored, sound.begin ?_ (sound.ends.uses who false (by rw [there]; rfl))
          (Or.inl ⟨rfl, len, rfl⟩)⟩
        intro other
        rw [there]
        cases other <;> simp [Control.Copies]
      · rename_i bytes there
        refine ⟨out, stored, sound.begin ?_ (sound.ends.uses who true (by rw [there]; rfl))
          (Or.inr ⟨rfl, bytes, rfl⟩)⟩
        intro other
        rw [there]
        cases other <;> simp [Control.Copies]
      · exact ⟨out, stored, sound⟩
  | inherit who child isWriteEnd =>
      simp only [State.step]
      split
      · rename_i may
        exact ⟨out, stored, sound.inherit may⟩
      · exact ⟨out, stored, sound⟩
  | drop who owner isWriteEnd =>
      simp only [State.step]
      split
      · rename_i both
        exact ⟨out, stored, sound.drop both.1 both.2⟩
      · exact ⟨out, stored, sound⟩

theorem pipeCreatePair_sound (creator : Nat) (old : Nat → UInt8)
    : (pipeCreatePair creator old).Sound [] [] := by
  have idle (who : Nat) : (pipeCreatePair creator old).controls who = .idle := rfl
  refine ⟨⟨rfl, List.prefix_rfl, rfl, Nat.zero_le _, rfl, rfl, ?_⟩, ⟨?_, ?_, ?_, ?_⟩,
    ⟨?_, fun _ => rfl, fun _ => rfl, ?_, ?_⟩, ⟨?_, ?_⟩⟩
  · intro place value _ present
    cases present
  · intro isWriteEnd
    rfl
  · intro isWriteEnd closed
    cases isWriteEnd <;> cases closed
  · intro who isWriteEnd there
    cases there
  · intro who isWriteEnd uses
    exact uses.elim
  · intro isWriteEnd who other copies
    exact absurd copies (not_copies_idle isWriteEnd)
  · intro who asked len bytes there
    cases there
  · intro who bytes len done there
    cases there
  · intro answer member
    cases member
  · intro answer member
    cases member

/-- The pipe is a bounded queue, and reads and writes fail only for want of the other end. -/
structure State.IsFifo (state : State) : Prop where
  inOrder : state.delivered <+: state.accepted
  counted : state.pipe.count + state.delivered.length = state.accepted.length
  bounded : state.accepted.length ≤ state.delivered.length + PIPE_BUFFER_SIZE
  /-- A read of some bytes returned none: the buffer is empty and nobody holds a write end. -/
  endOfFile
    : ∀ answer ∈ state.reads, answer.isWriteEnd = false → answer.asked ≠ 0
      → answer.result = some []
      → state.pipe.count = 0 ∧ (state.ends true).holders = []
  /-- A write failed: nobody holds a read end. -/
  broken
    : ∀ answer ∈ state.writes, answer.isWriteEnd = true → answer.result = none
      → (state.ends false).holders = []

theorem State.Sound.isFifo (sound : state.Sound out stored)
    : state.IsFifo where
  inOrder := (List.prefix_append _ _).trans sound.flows.order
  counted := sound.flows.counted
  bounded := by
    have counted := sound.flows.counted
    have bounded := sound.flows.bounded
    rw [sound.flows.capacity] at bounded
    omega
  endOfFile := sound.answered.endOfFile
  broken := sound.answered.broken

end Panuti.Pipe
