import Mathlib.Logic.Function.Basic
import Panuti.Kbd.Keys
import Panuti.Library.Runs

/-! The line lane of the keyboard: a read edits a line with the keys it takes and returns it at
Enter. One buffer has the line that is edited and the line that is delivered. What a short read
leaves of a line stays in the buffer, and the next read of its task edits it again.
-/

namespace Panuti.Kbd

-- The line

def KBD_LINE_MAX : Nat := 256

def KBD_LINE_CAP : Nat := KBD_LINE_MAX - 1

def PANUTIERRNO_BUSY : Int := 9 - 0x80000000

def KEYCODE_C : Keycode := .letter 2

def KEYCODE_D : Keycode := .letter 3

def KEYCODE_H : Keycode := .letter 7

def KEYCODE_U : Keycode := .letter 20

/-- `kbd_line_state_t`. -/
structure LineState where
  lineBuffer : Nat → UInt8
  lineLen : Nat
  linePos : Nat
  inUse : Bool
  owner : Option Nat

namespace LineState

def slice (s : LineState) (start count : Nat) : List UInt8 :=
  (List.range count).map fun i => s.lineBuffer (start + i)

def rest (s : LineState) : List UInt8 := s.slice s.linePos (s.lineLen - s.linePos)

def clearLine (s : LineState) : LineState := { s with lineLen := 0, linePos := 0 }

def backspace (s : LineState) : LineState :=
  if s.lineLen = 0 then s
  else
    let s := { s with lineLen := s.lineLen - 1 }
    if s.linePos > s.lineLen then { s with linePos := s.lineLen } else s

/-- `line_claim`, by the task that runs: its code and the state. -/
def lineClaim (s : LineState) (cur : Nat) : Int × LineState :=
  if s.inUse ∧ s.owner ≠ some cur then (PANUTIERRNO_BUSY, s)
  else
    let fresh := !s.inUse
    let s := { s with inUse := true, owner := some cur }
    if fresh then (0, { s with lineLen := 0, linePos := 0 }) else (0, s)

def lineRelease (s : LineState) : LineState :=
  { s with inUse := false, owner := none, lineLen := 0, linePos := 0 }

/-- `deliver_line`: the bytes that it copies before the terminator. -/
def deliverLine (s : LineState) (len : Nat) : List UInt8 × LineState :=
  let avail := s.lineLen - s.linePos
  let n := if avail < len - 1 then avail else len - 1
  let buf := s.slice s.linePos n
  let s := { s with linePos := s.linePos + n }
  (buf, if s.linePos = s.lineLen then s.lineRelease else s)

/-- A character goes into the line, if there is room. -/
def put (s : LineState) (c : UInt8) : LineState :=
  if s.lineLen < KBD_LINE_CAP then
    { s with
      lineBuffer := Function.update s.lineBuffer s.lineLen c
      lineLen := s.lineLen + 1 }
  else s

/-- What a turn of the loop in `kbd_line_read` comes to: the loop goes on, or the read returns a
code and bytes.
-/
inductive Turn where
  | goesOn (s : LineState)
  | returns (code : Int) (buf : List UInt8) (s : LineState)

/-- A turn of the loop in `kbd_line_read`, with the packet that the queue gives. -/
def turn (s : LineState) (pkt : Keypacket) (len : Nat) : Turn :=
  if !pkt.pressed then .goesOn s
  else if pkt.ctrl then
    if pkt.keycode = KEYCODE_C ∨ pkt.keycode = KEYCODE_U then .goesOn s.clearLine
    else if pkt.keycode = KEYCODE_D then
      if s.lineLen = 0 then .returns 0 [] s.lineRelease else .goesOn s.clearLine
    else if pkt.keycode = KEYCODE_H then .goesOn s.backspace
    else .goesOn s
  else if pkt.keycode = .backspace then .goesOn s.backspace
  else if pkt.keycode = .enter then
    .returns (s.deliverLine len).1.length (s.deliverLine len).1 (s.deliverLine len).2
  else if pkt.keycode = .tab then .goesOn (s.put 9)
  else
    let c := keypacketToAscii pkt
    if c = 0 then .goesOn s else .goesOn (s.put c)

end LineState

-- The lane

/-- The lane with the tasks that read from it: the lengths of their reads, what reads have returned,
and the packets that the queue has given to them.
-/
structure Lane where
  line : LineState
  reads : Nat → Option Nat
  returned : List (Nat × Int × List UInt8)
  taken : List Keypacket

/-- What happens to the lane: a task begins a read, or the queue gives a packet to its read. -/
inductive LaneEvent where
  | read (who len : Nat)
  | key (who : Nat) (pkt : Keypacket)

namespace Lane

def finish (s : Lane) (who : Nat) (code : Int) (buf : List UInt8) : Lane :=
  { s with
    reads := Function.update s.reads who none
    returned := s.returned ++ [(who, code, buf)] }

/-- `kbd_line_read`, up to its loop. -/
def kbdLineRead (s : Lane) (who len : Nat) : Lane :=
  if len = 0 then s.finish who 0 []
  else
    let (rc, line) := s.line.lineClaim who
    if rc ≠ 0 then { s with line := line }.finish who rc []
    else { s with line := line, reads := Function.update s.reads who (some len) }

def step (s : Lane) : LaneEvent → Lane
  | .read who len =>
      match s.reads who with
      | none => s.kbdLineRead who len
      | some _ => s
  | .key who pkt =>
      match s.reads who with
      | none => s
      | some len =>
          let s := { s with taken := s.taken ++ [pkt] }
          match s.line.turn pkt len with
          | .goesOn line => { s with line := line }
          | .returns code buf line => { s with line := line }.finish who code buf

/-- `kbd_line_init`. -/
def init : Lane := ⟨⟨fun _ => 0, 0, 0, false, none⟩, fun _ => none, [], []⟩

def run (s : Lane) (events : List LaneEvent) : Lane := Runs.run step s events

def bytes (s : Lane) : List UInt8 := s.returned.flatMap fun result => result.2.2

end Lane

-- What was typed

/-- What a packet asks for: nothing, to clear the line, to erase a character, to commit the line, or
a character.
-/
inductive Edit where
  | nothing
  | clear
  | erase
  | commit
  | put (c : UInt8)

/-- Releases ask for nothing. Ctrl-D clears the line as Ctrl-C and Ctrl-U do. -/
def Keypacket.edit (pkt : Keypacket) : Edit :=
  if !pkt.pressed then .nothing
  else if pkt.ctrl then
    if pkt.keycode ∈ [KEYCODE_C, KEYCODE_U, KEYCODE_D] then .clear
    else if pkt.keycode = KEYCODE_H then .erase
    else .nothing
  else if pkt.keycode = .backspace then .erase
  else if pkt.keycode = .enter then .commit
  else if pkt.keycode = .tab then .put 9
  else if keypacketToAscii pkt = 0 then .nothing
  else .put (keypacketToAscii pkt)

/-- The lines that were committed, one after the other, and the line that is typed. -/
structure Typed where
  committed : List UInt8
  line : List UInt8

def Typed.step (t : Typed) : Edit → Typed
  | .nothing => t
  | .clear => { t with line := [] }
  | .erase => { t with line := t.line.dropLast }
  | .commit => ⟨t.committed ++ t.line, []⟩
  | .put c => if t.line.length < KBD_LINE_CAP then { t with line := t.line ++ [c] } else t

def typed (packets : List Keypacket) : Typed :=
  packets.foldl (fun t pkt => t.step pkt.edit) ⟨[], []⟩

/-- All that was committed has been returned while a read waits for a key, and is returned or kept
for the next read otherwise.
-/
structure Lane.Delivers (s : Lane) : Prop where
  waits : ∀ who len, s.reads who = some len → s.bytes = (typed s.taken).committed
  keeps : (∀ who, s.reads who = none)
    → s.bytes ++ s.line.rest = (typed s.taken).committed

/-- A task does not begin a read while the lane keeps the rest of a line for it. -/
def Lane.Clear (s : Lane) : LaneEvent → Prop
  | .read who len => len = 0 ∨ s.reads who ≠ none ∨ ¬ (s.line.inUse ∧ s.line.owner = some who)
  | .key _ _ => True

-- The bounds of the line

/-- The position is in the line, and the line in its buffer. -/
def LineState.Bounded (s : LineState) : Prop :=
  s.linePos ≤ s.lineLen ∧ s.lineLen ≤ KBD_LINE_CAP

namespace LineState

variable {s : LineState}

theorem bounded_clearLine (s : LineState) : s.clearLine.Bounded := ⟨Nat.le_refl 0, Nat.zero_le _⟩

theorem bounded_lineRelease (s : LineState) : s.lineRelease.Bounded :=
  ⟨Nat.le_refl 0, Nat.zero_le _⟩

theorem Bounded.backspace (bounded : s.Bounded) : s.backspace.Bounded := by
  obtain ⟨inLine, inBuffer⟩ := bounded
  rw [LineState.backspace]
  split
  next => exact ⟨inLine, inBuffer⟩
  next =>
      dsimp only
      split
      next => exact ⟨Nat.le_refl _, Nat.le_trans (Nat.sub_le _ _) inBuffer⟩
      next within => exact ⟨Nat.not_lt.mp within, Nat.le_trans (Nat.sub_le _ _) inBuffer⟩

theorem Bounded.put (bounded : s.Bounded) (c : UInt8) : (s.put c).Bounded := by
  obtain ⟨inLine, inBuffer⟩ := bounded
  rw [LineState.put]
  split
  next room => exact ⟨Nat.le_succ_of_le inLine, room⟩
  next => exact ⟨inLine, inBuffer⟩

theorem Bounded.lineClaim (bounded : s.Bounded) (cur : Nat) : (s.lineClaim cur).2.Bounded := by
  rw [LineState.lineClaim]
  split
  next => exact bounded
  next =>
      dsimp only
      split
      next => exact ⟨Nat.le_refl 0, Nat.zero_le _⟩
      next => exact bounded

theorem deliverLine_eq (s : LineState) (len : Nat)
    : ∃ n, n ≤ s.lineLen - s.linePos
      ∧ s.deliverLine len
        = (s.slice s.linePos n,
            if s.linePos + n = s.lineLen then ({ s with linePos := s.linePos + n }).lineRelease
            else { s with linePos := s.linePos + n }) := by
  refine ⟨if s.lineLen - s.linePos < len - 1 then s.lineLen - s.linePos else len - 1, ?_, rfl⟩
  split <;> omega

theorem Bounded.deliverLine (bounded : s.Bounded) (len : Nat) : (s.deliverLine len).2.Bounded := by
  obtain ⟨inLine, inBuffer⟩ := bounded
  obtain ⟨n, within, same⟩ := s.deliverLine_eq len
  rw [same]
  dsimp only
  split
  next => exact bounded_lineRelease _
  next =>
      refine ⟨?_, inBuffer⟩
      dsimp only
      omega

/-- What a turn leaves of the line, whether it returns or not. -/
def Turn.line : Turn → LineState
  | .goesOn s => s
  | .returns _ _ s => s

theorem Bounded.turn (bounded : s.Bounded) (pkt : Keypacket) (len : Nat)
    : (s.turn pkt len).line.Bounded := by
  unfold LineState.turn
  dsimp only
  repeat' split
  all_goals first
    | exact bounded
    | exact bounded_clearLine s
    | exact bounded_lineRelease s
    | exact bounded.backspace
    | exact bounded.deliverLine len
    | exact bounded.put _

end LineState

theorem Lane.bounded_step {s : Lane} (bounded : s.line.Bounded) (event : LaneEvent)
    : (s.step event).line.Bounded := by
  cases event with
  | read who len =>
      rw [Lane.step]
      split
      next =>
          rw [Lane.kbdLineRead]
          split
          next => exact bounded
          next =>
              dsimp only
              split
              next => exact bounded.lineClaim who
              next => exact bounded.lineClaim who
      next => exact bounded
  | key who pkt =>
      rw [Lane.step]
      split
      next => exact bounded
      next len _ =>
          have later := bounded.turn pkt len
          dsimp only
          split
          next same =>
              rw [same] at later
              exact later
          next same =>
              rw [same] at later
              exact later

theorem Lane.bounded_run {s : Lane} (bounded : s.line.Bounded) (events : List LaneEvent)
    : (s.run events).line.Bounded := by
  induction events generalizing s with
  | nil => exact bounded
  | cons event rest ih => exact ih (bounded_step bounded event)

-- The line that is edited

/-- The buffer has this line from its start, and nothing of it is delivered yet. -/
structure LineState.Edits (s : LineState) (line : List UInt8) : Prop where
  start : s.linePos = 0
  length : line.length = s.lineLen
  same : s.slice 0 s.lineLen = line

namespace LineState

variable {s : LineState} {line : List UInt8}

theorem length_slice (s : LineState) (start count : Nat)
    : (s.slice start count).length = count := by
  rw [slice, List.length_map, List.length_range]

theorem slice_succ (s : LineState) (start count : Nat)
    : s.slice start (count + 1) = s.slice start count ++ [s.lineBuffer (start + count)] := by
  rw [slice, slice, List.range_succ, List.map_append]
  rfl

theorem slice_append (s : LineState) (start first second : Nat)
    : s.slice start first ++ s.slice (start + first) second = s.slice start (first + second) := by
  induction second with
  | zero => rw [Nat.add_zero, slice, slice, List.range_zero, List.map_nil, List.append_nil]
  | succ second ih =>
      rw [slice_succ, ← List.append_assoc, ih, ← Nat.add_assoc, slice_succ, Nat.add_assoc]

theorem Edits.clearLine (s : LineState) : s.clearLine.Edits [] := ⟨rfl, rfl, rfl⟩

theorem Edits.backspace (edits : s.Edits line) : s.backspace.Edits line.dropLast := by
  obtain ⟨start, length, same⟩ := edits
  rw [LineState.backspace]
  split
  next empty =>
      obtain rfl := List.length_eq_zero_iff.mp (length.trans empty)
      exact ⟨start, length, same⟩
  next some' =>
      dsimp only
      rw [if_neg (by omega)]
      refine ⟨start, ?_, ?_⟩
      · rw [List.length_dropLast, length]
      · obtain ⟨count, more⟩ := Nat.exists_eq_succ_of_ne_zero some'
        rw [← same]
        dsimp only
        rw [more, slice_succ, List.dropLast_concat]
        rfl

theorem Edits.put (edits : s.Edits line) (c : UInt8)
    : (s.put c).Edits (if line.length < KBD_LINE_CAP then line ++ [c] else line) := by
  obtain ⟨start, length, same⟩ := edits
  rw [LineState.put, length]
  split
  next =>
      refine ⟨start, ?_, ?_⟩
      · rw [List.length_append, length]
        rfl
      · rw [slice_succ, ← same]
        dsimp only
        rw [Nat.zero_add, Function.update_self]
        refine congrArg (· ++ [c]) (List.map_congr_left fun i within => ?_)
        dsimp only
        rw [Nat.zero_add, Function.update_of_ne (Nat.ne_of_lt (List.mem_range.mp within))]
  next => exact ⟨start, length, same⟩

theorem rest_eq_nil_iff (s : LineState) : s.rest = [] ↔ s.lineLen ≤ s.linePos := by
  rw [rest, ← List.length_eq_zero_iff, length_slice]
  omega

theorem Edits.deliverLine (edits : s.Edits line) (len : Nat)
    : (s.deliverLine len).1 ++ (s.deliverLine len).2.rest = line
      ∧ ((s.deliverLine len).2 = s.lineRelease
        ∨ (s.deliverLine len).2.inUse = s.inUse ∧ (s.deliverLine len).2.owner = s.owner
          ∧ (s.deliverLine len).2.rest ≠ []) := by
  obtain ⟨start, length, same⟩ := edits
  obtain ⟨n, within, delivered⟩ := s.deliverLine_eq len
  rw [start, Nat.zero_add] at delivered
  rw [delivered]
  dsimp only
  by_cases all : n = s.lineLen
  · rw [if_pos all, all, same]
    exact ⟨List.append_nil line, .inl rfl⟩
  · rw [if_neg all]
    constructor
    · have whole := s.slice_append 0 n (s.lineLen - n)
      rw [Nat.zero_add, Nat.add_sub_cancel' (by omega), same] at whole
      exact whole
    · refine .inr ⟨rfl, rfl, fun none' => ?_⟩
      rw [rest_eq_nil_iff] at none'
      dsimp only at none'
      omega

theorem backspace_holder (s : LineState)
    : s.backspace.inUse = s.inUse ∧ s.backspace.owner = s.owner := by
  rw [backspace]
  split
  next => exact ⟨rfl, rfl⟩
  next =>
      dsimp only
      split <;> exact ⟨rfl, rfl⟩

theorem put_holder (s : LineState) (c : UInt8)
    : (s.put c).inUse = s.inUse ∧ (s.put c).owner = s.owner := by
  rw [put]
  split <;> exact ⟨rfl, rfl⟩

/-- A turn of the loop for a line that is edited comes to what was typed next: the line is edited
on by its task, or it is committed, and what is not returned of it stays for its task.
-/
def Turn.Follows (s : LineState) (committed : List UInt8) (next : Typed) : Turn → Prop
  | .goesOn later =>
      next.committed = committed ∧ later.Edits next.line ∧ later.inUse = s.inUse
        ∧ later.owner = s.owner
  | .returns _ buf later =>
      next.committed = committed ++ (buf ++ later.rest) ∧ next.line = []
        ∧ (later = s.lineRelease
          ∨ later.inUse = s.inUse ∧ later.owner = s.owner ∧ later.rest ≠ [])

theorem Edits.turn (edits : s.Edits line) (pkt : Keypacket) (len : Nat) (committed : List UInt8)
    : (s.turn pkt len).Follows s committed (Typed.step ⟨committed, line⟩ pkt.edit) := by
  have onward : Turn.Follows s committed ⟨committed, line⟩ (.goesOn s) :=
    ⟨rfl, edits, rfl, rfl⟩
  have cleared : Turn.Follows s committed ⟨committed, []⟩ (.goesOn s.clearLine) :=
    ⟨rfl, Edits.clearLine s, rfl, rfl⟩
  have erased : Turn.Follows s committed ⟨committed, line.dropLast⟩ (.goesOn s.backspace) :=
    ⟨rfl, edits.backspace, s.backspace_holder⟩
  have stored (c : UInt8)
      : Turn.Follows s committed (Typed.step ⟨committed, line⟩ (.put c)) (.goesOn (s.put c)) := by
    have later := edits.put c
    rw [Typed.step]
    split
    next room =>
        rw [if_pos room] at later
        exact ⟨rfl, later, s.put_holder c⟩
    next full =>
        rw [if_neg full] at later
        exact ⟨rfl, later, s.put_holder c⟩
  unfold LineState.turn Keypacket.edit
  by_cases released : (!pkt.pressed) = true
  · rw [if_pos released, if_pos released]
    exact onward
  · rw [if_neg released, if_neg released]
    by_cases ctrl : pkt.ctrl = true
    · rw [if_pos ctrl, if_pos ctrl]
      by_cases clears : pkt.keycode = KEYCODE_C ∨ pkt.keycode = KEYCODE_U
      · rw [if_pos clears, if_pos]
        · exact cleared
        · rcases clears with same | same <;> simp [same]
      · rw [if_neg clears]
        by_cases ends : pkt.keycode = KEYCODE_D
        · rw [if_pos ends, if_pos (by simp [ends])]
          split
          next empty =>
              obtain rfl := List.length_eq_zero_iff.mp (edits.length.trans empty)
              refine ⟨?_, rfl, .inl rfl⟩
              exact (List.append_nil committed).symm
          next => exact cleared
        · rw [if_neg ends, if_neg (by simp at clears ⊢; tauto)]
          by_cases erases : pkt.keycode = KEYCODE_H
          · rw [if_pos erases, if_pos erases]
            exact erased
          · rw [if_neg erases, if_neg erases]
            exact onward
    · rw [if_neg ctrl, if_neg ctrl]
      by_cases erases : pkt.keycode = .backspace
      · rw [if_pos erases, if_pos erases]
        exact erased
      rw [if_neg erases, if_neg erases]
      by_cases commits : pkt.keycode = .enter
      · rw [if_pos commits, if_pos commits]
        obtain ⟨whole, kept⟩ := edits.deliverLine len
        refine ⟨?_, rfl, kept⟩
        rw [whole]
        rfl
      rw [if_neg commits, if_neg commits]
      by_cases tabs : pkt.keycode = .tab
      · rw [if_pos tabs, if_pos tabs]
        exact stored 9
      rw [if_neg tabs, if_neg tabs]
      dsimp only
      by_cases silent : keypacketToAscii pkt = 0
      · rw [if_pos silent, if_pos silent]
        exact onward
      · rw [if_neg silent, if_neg silent]
        exact stored _

end LineState

-- The lane and what was typed

theorem typed_concat (packets : List Keypacket) (pkt : Keypacket)
    : typed (packets ++ [pkt]) = (typed packets).step pkt.edit := by
  rw [typed, List.foldl_append]
  rfl

namespace Lane

/-- The lane delivers what was typed; a read edits the typed line and holds the lane for its task,
and without a read the lane is held just if it keeps the rest of a line.
-/
structure Keeps (s : Lane) : Prop where
  delivers : s.Delivers
  reading : ∀ who len, s.reads who = some len
    → s.line.inUse = true ∧ s.line.owner = some who ∧ s.line.Edits (typed s.taken).line
  idle : (∀ who, s.reads who = none)
    → (typed s.taken).line = [] ∧ (s.line.inUse = true ↔ s.line.rest ≠ [])

variable {s : Lane} {who : Nat}

theorem Keeps.no_reads (keeps : s.Keeps) (owner : s.line.owner = some who)
    (out : s.reads who = none) (other : Nat)
    : s.reads other = none := by
  cases there : s.reads other with
  | none => rfl
  | some len =>
      have same := (keeps.reading other len there).2.1.symm.trans owner
      obtain rfl := Option.some.inj same
      exact absurd (there.symm.trans out) nofun

theorem Keeps.no_reads_free (keeps : s.Keeps) (free : s.line.inUse = false) (other : Nat)
    : s.reads other = none := by
  cases there : s.reads other with
  | none => rfl
  | some len => exact absurd ((keeps.reading other len there).1.symm.trans free) nofun

theorem bytes_finish (s : Lane) (who : Nat) (code : Int) (buf : List UInt8)
    : (s.finish who code buf).bytes = s.bytes ++ buf := by
  rw [bytes, bytes, finish, List.flatMap_append]
  exact congrArg (_ ++ ·) (List.append_nil buf)

theorem Keeps.finish_nothing (keeps : s.Keeps) (out : s.reads who = none) (code : Int)
    : (s.finish who code []).Keeps := by
  have same : (s.finish who code []).reads = s.reads := by
    rw [finish, ← out]
    exact Function.update_eq_self who s.reads
  have given : (s.finish who code []).bytes = s.bytes := by
    rw [bytes_finish, List.append_nil]
  refine ⟨⟨?_, ?_⟩, ?_, ?_⟩
  · rw [same, given]
    exact keeps.delivers.waits
  · rw [same, given]
    exact keeps.delivers.keeps
  · rw [same]
    exact keeps.reading
  · rw [same]
    exact keeps.idle

theorem Keeps.claim (keeps : s.Keeps) (free : s.line.inUse = false) (who len : Nat)
    : ({ s with
        line := (s.line.lineClaim who).2
        reads := Function.update s.reads who (some len) } : Lane).Keeps := by
  have out := keeps.no_reads_free free
  obtain ⟨untyped, held⟩ := keeps.idle out
  have none' : s.line.rest = [] := by
    by_contra some'
    exact absurd ((held.mpr some').symm.trans free) nofun
  have all := keeps.delivers.keeps out
  rw [none', List.append_nil] at all
  have only (other : Nat) (others : other ≠ who)
      : Function.update s.reads who (some len) other = none := by
    rw [Function.update_of_ne others]
    exact out other
  have claimed : s.line.lineClaim who
      = (0, { s.line with inUse := true, owner := some who, lineLen := 0, linePos := 0 }) := by
    rw [LineState.lineClaim, free]
    rfl
  have some' (none' : ∀ task, Function.update s.reads who (some len) task = none) : False := by
    have there := none' who
    rw [Function.update_self] at there
    cases there
  rw [claimed]
  refine ⟨⟨fun _ _ _ => all, fun none' => (some' none').elim⟩, fun other length there => ?_,
    fun none' => (some' none').elim⟩
  by_cases self : other = who
  · subst self
    rw [untyped]
    exact ⟨rfl, rfl, ⟨rfl, rfl, rfl⟩⟩
  · exact absurd ((only other self).symm.trans there) nofun

theorem step_key {len : Nat} (there : s.reads who = some len) (pkt : Keypacket)
    : s.step (.key who pkt)
      = match s.line.turn pkt len with
        | .goesOn line => { s with taken := s.taken ++ [pkt], line := line }
        | .returns code buf line =>
            { s with taken := s.taken ++ [pkt], line := line }.finish who code buf := by
  rw [step, there]

/-- A packet that the queue gives to a read edits its line, or has it return. -/
theorem Keeps.key (keeps : s.Keeps) (who : Nat) (pkt : Keypacket)
    : (s.step (.key who pkt)).Keeps := by
  cases there : s.reads who with
  | none =>
      rw [step, there]
      exact keeps
  | some len =>
      obtain ⟨inUse, owner, edits⟩ := keeps.reading who len there
      have follows := edits.turn pkt len (typed s.taken).committed
      change (s.line.turn pkt len).Follows s.line (typed s.taken).committed
        ((typed s.taken).step pkt.edit) at follows
      have others (other length : Nat) (reads : s.reads other = some length) : other = who :=
        Option.some.inj ((keeps.reading other length reads).2.1.symm.trans owner)
      rw [step_key there pkt]
      cases turned : s.line.turn pkt len with
      | goesOn later =>
          rw [turned] at follows
          obtain ⟨committed, editing, inUse', owner'⟩ := follows
          dsimp only
          refine ⟨⟨fun other length reads => ?_, fun none' => ?_⟩, fun other length reads => ?_,
            fun none' => ?_⟩
          · rw [typed_concat, committed]
            exact keeps.delivers.waits other length reads
          · exact absurd (there.symm.trans (none' who)) nofun
          · obtain rfl := others other length reads
            rw [typed_concat]
            exact ⟨inUse'.trans inUse, owner'.trans owner, editing⟩
          · exact absurd (there.symm.trans (none' who)) nofun
      | returns code buf later =>
          rw [turned] at follows
          obtain ⟨committed, untyped, kept⟩ := follows
          dsimp only
          have out (other : Nat) : Function.update s.reads who none other = none := by
            by_cases self : other = who
            · rw [self, Function.update_self]
            · rw [Function.update_of_ne self]
              cases reads : s.reads other with
              | none => rfl
              | some length => exact absurd (others other length reads) self
          refine ⟨⟨fun other length reads => ?_, fun _ => ?_⟩, fun other length reads => ?_,
            fun _ => ?_⟩
          · exact absurd ((out other).symm.trans reads) nofun
          · rw [bytes_finish]
            change s.bytes ++ buf ++ later.rest = (typed (s.taken ++ [pkt])).committed
            rw [typed_concat, committed, List.append_assoc,
              keeps.delivers.waits who len there]
          · exact absurd ((out other).symm.trans reads) nofun
          · change (typed (s.taken ++ [pkt])).line = [] ∧ (later.inUse = true ↔ later.rest ≠ [])
            rw [typed_concat]
            refine ⟨untyped, ?_⟩
            rcases kept with rfl | ⟨inUse', -, rest⟩
            · exact iff_of_false nofun (not_not.mpr rfl)
            · exact iff_of_true (inUse'.trans inUse) rest

theorem Keeps.step (keeps : s.Keeps) {event : LaneEvent} (clear : s.Clear event)
    : (s.step event).Keeps := by
  cases event with
  | key who pkt => exact keeps.key who pkt
  | read who len =>
      rw [Lane.step]
      split
      next out =>
          rw [kbdLineRead]
          split
          next => exact keeps.finish_nothing out 0
          next some' =>
              have free := (clear.resolve_left some').resolve_left (not_not.mpr out)
              cases inUse : s.line.inUse with
              | false =>
                  have claimed : (s.line.lineClaim who).1 = 0 := by
                    rw [LineState.lineClaim, inUse]
                    rfl
                  dsimp only
                  rw [claimed, if_neg (not_not.mpr rfl)]
                  exact keeps.claim inUse who len
              | true =>
                  have busy : s.line.lineClaim who = (PANUTIERRNO_BUSY, s.line) := by
                    rw [LineState.lineClaim, if_pos ⟨inUse, fun owner => free ⟨inUse, owner⟩⟩]
                  rw [busy]
                  dsimp only
                  rw [if_pos (by decide)]
                  exact keeps.finish_nothing out _
      next => exact keeps

theorem Keeps.clear_of_delivers (keeps : s.Keeps) {event : LaneEvent}
    (later : (s.step event).Delivers)
    : s.Clear event := by
  cases event with
  | key who pkt => trivial
  | read who len =>
      by_contra unclear
      obtain ⟨some', out, inUse, owner⟩ : len ≠ 0 ∧ s.reads who = none ∧ s.line.inUse = true
          ∧ s.line.owner = some who := by
        rw [Clear] at unclear
        tauto
      have claimed : s.line.lineClaim who = (0, s.line) := by
        rw [LineState.lineClaim, if_neg (fun both => both.2 owner), inUse]
        dsimp only
        rw [if_neg (by decide), ← inUse, ← owner]
      have begun : s.step (.read who len)
          = { s with reads := Function.update s.reads who (some len) } := by
        rw [Lane.step, out]
        dsimp only
        rw [kbdLineRead, if_neg some', claimed]
        rfl
      rw [begun] at later
      have all := keeps.delivers.keeps (keeps.no_reads owner out)
      have waits : s.bytes = (typed s.taken).committed :=
        later.waits who len (Function.update_self who (some len) s.reads)
      rw [← waits] at all
      have rest := (keeps.idle (keeps.no_reads owner out)).2.mp inUse
      exact rest (List.append_right_eq_self.mp all)

theorem keeps_init : init.Keeps := by
  refine ⟨⟨nofun, fun _ => rfl⟩, nofun, fun _ => ⟨rfl, ?_⟩⟩
  exact iff_of_false nofun (not_not.mpr rfl)

end Lane

/-- Reads deliver what was typed, and what a short one leaves of a line before any further key is
waited for, just if no task begins a read while the lane keeps the rest of a line for it. The
position is in the line and the line in the buffer in any case.
-/
theorem lane_delivers_iff (events : List LaneEvent)
    : ((∀ before after, events = before ++ after → (Lane.init.run before).Delivers)
        ↔ Runs.Throughout Lane.step Lane.Clear Lane.init events)
      ∧ (Lane.init.run events).line.linePos ≤ (Lane.init.run events).line.lineLen
      ∧ (Lane.init.run events).line.lineLen ≤ KBD_LINE_CAP := by
  refine ⟨?_, Lane.bounded_run ⟨Nat.le_refl 0, Nat.zero_le _⟩ events⟩
  exact Runs.always_iff Lane.step Lane.Keeps Lane.Delivers (fun _ keeps => keeps.delivers)
    (fun _ _ keeps clear => keeps.step clear) (fun _ _ keeps later => keeps.clear_of_delivers later)
    Lane.keeps_init events

/-- A read of two bytes gets the first character of a line of two; the next read waits for a key and
clears the rest at Ctrl-U.
-/
theorem rest_cleared
    : ¬ ∀ events before after, events = before ++ after → (Lane.init.run before).Delivers := by
  intro always
  let typing (kc : Keycode) (ctrl : Bool) : LaneEvent :=
    .key 1 ⟨kc, true, false, ctrl, false, false, false, false⟩
  let events : List LaneEvent :=
    [.read 1 2, typing (.letter 0) false, typing (.letter 1) false, typing .enter false, .read 1 2,
      typing KEYCODE_U true]
  have returned := (always events events [] (List.append_nil events).symm).waits 1 2 rfl
  have got : (Lane.init.run events).bytes = [97] := by decide
  have meant : (typed (Lane.init.run events).taken).committed = [97, 98] := by decide
  rw [got, meant] at returned
  cases returned

end Panuti.Kbd
