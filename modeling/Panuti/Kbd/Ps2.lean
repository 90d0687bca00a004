import Mathlib.Logic.Function.Basic
import Panuti.Kbd.Keys
import Panuti.Library.Runs

/-! The interrupt handler of the PS/2 keyboard, and the keyboard that it listens to. The handler has
one flag for both keys of a modifier, and takes every make code of a lock key for a press.
-/

namespace Panuti.Kbd

-- The handler

/-- Marks the keys that scancode set 1 does not have. -/
def PS2_SCAN_EXTENDED : UInt8 := 0xE0

def PS2_SCAN_PAUSE : UInt8 := 0xE1

def scancodeTable : Nat → Keycode
  | 0x01 => .escape
  | 0x02 => .digit 1
  | 0x03 => .digit 2
  | 0x04 => .digit 3
  | 0x05 => .digit 4
  | 0x06 => .digit 5
  | 0x07 => .digit 6
  | 0x08 => .digit 7
  | 0x09 => .digit 8
  | 0x0A => .digit 9
  | 0x0B => .digit 0
  | 0x0C => .minus
  | 0x0D => .equals
  | 0x0E => .backspace
  | 0x0F => .tab
  | 0x10 => .letter 16
  | 0x11 => .letter 22
  | 0x12 => .letter 4
  | 0x13 => .letter 17
  | 0x14 => .letter 19
  | 0x15 => .letter 24
  | 0x16 => .letter 20
  | 0x17 => .letter 8
  | 0x18 => .letter 14
  | 0x19 => .letter 15
  | 0x1A => .lbracket
  | 0x1B => .rbracket
  | 0x1C => .enter
  | 0x1D => .lctrl
  | 0x1E => .letter 0
  | 0x1F => .letter 18
  | 0x20 => .letter 3
  | 0x21 => .letter 5
  | 0x22 => .letter 6
  | 0x23 => .letter 7
  | 0x24 => .letter 9
  | 0x25 => .letter 10
  | 0x26 => .letter 11
  | 0x27 => .semicolon
  | 0x28 => .apostrophe
  | 0x29 => .none
  | 0x2A => .lshift
  | 0x2B => .backslash
  | 0x2C => .letter 25
  | 0x2D => .letter 23
  | 0x2E => .letter 2
  | 0x2F => .letter 21
  | 0x30 => .letter 1
  | 0x31 => .letter 13
  | 0x32 => .letter 12
  | 0x33 => .comma
  | 0x34 => .period
  | 0x35 => .slash
  | 0x36 => .rshift
  | 0x37 => .none
  | 0x38 => .lalt
  | 0x39 => .space
  | 0x3A => .capsLock
  | 0x3B => .f 0
  | 0x3C => .f 1
  | 0x3D => .f 2
  | 0x3E => .f 3
  | 0x3F => .f 4
  | 0x40 => .f 5
  | 0x41 => .f 6
  | 0x42 => .f 7
  | 0x43 => .f 8
  | 0x44 => .f 9
  | 0x45 => .numLock
  | 0x46 => .scrollLock
  | 0x47 => .home
  | 0x48 => .up
  | 0x49 => .pageUp
  | 0x4A => .none
  | 0x4B => .left
  | 0x4C => .none
  | 0x4D => .right
  | 0x4E => .none
  | 0x4F => .«end»
  | 0x50 => .down
  | 0x51 => .pageDown
  | 0x52 => .insert
  | 0x53 => .delete
  | 0x57 => .f 10
  | 0x58 => .f 11
  | _ => .none

def extendedScancodeTable : Nat → Keycode
  | 0x1C => .enter
  | 0x1D => .rctrl
  | 0x35 => .slash
  | 0x38 => .ralt
  | 0x47 => .home
  | 0x48 => .up
  | 0x49 => .pageUp
  | 0x4B => .left
  | 0x4D => .right
  | 0x4F => .«end»
  | 0x50 => .down
  | 0x51 => .pageDown
  | 0x52 => .insert
  | 0x53 => .delete
  | _ => .none

structure Ps2 where
  extended : Bool
  pauseBytesLeft : Nat
  shiftHeld : Bool
  ctrlHeld : Bool
  altHeld : Bool
  capsLockOn : Bool
  scrollLockOn : Bool
  numLockOn : Bool
deriving Repr, DecidableEq

/-- `kbd_ps2_init`. -/
def Ps2.init : Ps2 := ⟨false, 0, false, false, false, false, false, false⟩

/-- What a code of a modifier or a lock does to the flags. -/
def Ps2.track (s : Ps2) (kc : Keycode) (pressed : Bool) : Ps2 :=
  if kc = .lshift ∨ kc = .rshift then { s with shiftHeld := pressed }
  else if kc = .lctrl ∨ kc = .rctrl then { s with ctrlHeld := pressed }
  else if kc = .lalt ∨ kc = .ralt then { s with altHeld := pressed }
  else if kc = .capsLock ∧ pressed then { s with capsLockOn := !s.capsLockOn }
  else if kc = .scrollLock ∧ pressed then { s with scrollLockOn := !s.scrollLockOn }
  else if kc = .numLock ∧ pressed then { s with numLockOn := !s.numLockOn }
  else s

def Ps2.packet (s : Ps2) (kc : Keycode) (pressed : Bool) : Keypacket :=
  { keycode := kc
    pressed := pressed
    shift := s.shiftHeld
    ctrl := s.ctrlHeld
    alt := s.altHeld
    capsLock := s.capsLockOn
    scrollLock := s.scrollLockOn
    numLock := s.numLockOn }

def Ps2.report (s : Ps2) (kc : Keycode) (pressed : Bool) : Ps2 × List Keypacket :=
  if kc = .none then (s, [])
  else
    let s := s.track kc pressed
    (s, [s.packet kc pressed])

/-- `ps2_irq1_handler`, for the byte that the port gives: the packets that it pushes. -/
def ps2Irq1Handler (s : Ps2) (scancode : UInt8) : Ps2 × List Keypacket :=
  if s.pauseBytesLeft > 0 then ({ s with pauseBytesLeft := s.pauseBytesLeft - 1 }, [])
  else if scancode = PS2_SCAN_PAUSE then
    ({ s with extended := false, pauseBytesLeft := 5 }, [])
  else if scancode = PS2_SCAN_EXTENDED then ({ s with extended := true }, [])
  else
    let pressed := scancode &&& 0x80 == 0
    let index := (scancode &&& 0x7F).toNat
    let isExtended := s.extended
    let s := { s with extended := false }
    let kc := if isExtended then extendedScancodeTable index else scancodeTable index
    s.report kc pressed

def Ps2.feed (s : Ps2) : List UInt8 → Ps2 × List Keypacket
  | [] => (s, [])
  | byte :: rest =>
      let (s, packets) := ps2Irq1Handler s byte
      let (s, more) := s.feed rest
      (s, packets ++ more)

-- The keyboard

/-- A key by its scancode. No key has a code whose release would be a mark. -/
structure Key where
  extended : Bool
  index : Fin 128
  plain : index ≠ 0x60 ∧ index ≠ 0x61
deriving DecidableEq

def Key.keycode (key : Key) : Keycode :=
  if key.extended then extendedScancodeTable key.index else scancodeTable key.index

/-- What happens at a keyboard: a key is pressed, repeats while it is held, or is released; between
them come the fake shifts around some keys, and the burst of the Pause key.
-/
inductive KeyEvent where
  | press (key : Key)
  | repeats (key : Key)
  | release (key : Key)
  | fakeShift (right pressed : Bool)
  | pause

def scancode (extended : Bool) (index : Fin 128) (pressed : Bool) : List UInt8 :=
  let code := UInt8.ofNat (if pressed then index else index + 0x80)
  if extended then [PS2_SCAN_EXTENDED, code] else [code]

def KeyEvent.bytes : KeyEvent → List UInt8
  | .press key => scancode key.extended key.index true
  | .repeats key => scancode key.extended key.index true
  | .release key => scancode key.extended key.index false
  | .fakeShift right pressed => scancode true (if right then 0x36 else 0x2A) pressed
  | .pause => [PS2_SCAN_PAUSE, 0x1D, 0x45, PS2_SCAN_PAUSE, 0x9D, 0xC5]

/-- The kinds of modifiers; there are two keys of each. -/
inductive Modifier where
  | shift
  | ctrl
  | alt
deriving DecidableEq

inductive Lock where
  | caps
  | scroll
  | num
deriving DecidableEq

def Keycode.modifier : Keycode → Option Modifier
  | .lshift | .rshift => some .shift
  | .lctrl | .rctrl => some .ctrl
  | .lalt | .ralt => some .alt
  | _ => Option.none

def Keycode.lock : Keycode → Option Lock
  | .capsLock => some .caps
  | .scrollLock => some .scroll
  | .numLock => some .num
  | _ => Option.none

/-- The keys that are held, and how often each lock has been pressed. -/
structure Keyboard where
  held : Key → Prop
  presses : Lock → Nat

def Keyboard.step (kb : Keyboard) : KeyEvent → Keyboard
  | .press key =>
      { held := Function.update kb.held key True
        presses := fun lock =>
          if key.keycode.lock = some lock then kb.presses lock + 1 else kb.presses lock }
  | .repeats key => { kb with held := Function.update kb.held key True }
  | .release key => { kb with held := Function.update kb.held key False }
  | .fakeShift _ _ => kb
  | .pause => kb

def Keyboard.init : Keyboard := ⟨fun _ => False, fun _ => 0⟩

def Keyboard.Holds (kb : Keyboard) (modifier : Modifier) : Prop :=
  ∃ key, kb.held key ∧ key.keycode.modifier = some modifier

def Keypacket.modifier (pkt : Keypacket) : Modifier → Bool
  | .shift => pkt.shift
  | .ctrl => pkt.ctrl
  | .alt => pkt.alt

def Keypacket.lock (pkt : Keypacket) : Lock → Bool
  | .caps => pkt.capsLock
  | .scroll => pkt.scrollLock
  | .num => pkt.numLock

/-- A packet names a key, and its flags are those of the keyboard. -/
structure Keyboard.Shows (kb : Keyboard) (key : Key) (pressed : Bool) (pkt : Keypacket)
    : Prop where
  keycode : pkt.keycode = key.keycode
  pressed : pkt.pressed = pressed
  modifier : ∀ modifier, pkt.modifier modifier = true ↔ kb.Holds modifier
  lock : ∀ lock, pkt.lock lock = true ↔ kb.presses lock % 2 = 1

/-- The packets for an event of a key are one that shows it, if the key has a name. -/
def Keyboard.Tells (kb : Keyboard) (key : Key) (pressed : Bool) (packets : List Keypacket)
    : Prop :=
  if key.keycode = .none then packets = [] else ∃ pkt, packets = [pkt] ∧ kb.Shows key pressed pkt

/-- The packets are right for an event that leaves the keyboard so. -/
def Keyboard.Reports (kb : Keyboard) (packets : List Keypacket) : KeyEvent → Prop
  | .press key => kb.Tells key true packets
  | .repeats key => kb.Tells key true packets
  | .release key => kb.Tells key false packets
  | .fakeShift _ _ => packets = []
  | .pause => packets = []

/-- No modifier is released while the other of its kind is held, and no lock repeats. -/
def Keyboard.Clear (kb : Keyboard) : KeyEvent → Prop
  | .release key =>
      ∀ other, kb.held other → other ≠ key → key.keycode.modifier ≠ Option.none
        → other.keycode.modifier ≠ key.keycode.modifier
  | .repeats key => key.keycode.lock = Option.none
  | _ => True

structure Desk where
  keyboard : Keyboard
  ps2 : Ps2

def Desk.step (d : Desk) (event : KeyEvent) : Desk :=
  ⟨d.keyboard.step event, (d.ps2.feed event.bytes).1⟩

def Desk.init : Desk := ⟨Keyboard.init, Ps2.init⟩

-- The flags of the handler

def Ps2.held (s : Ps2) : Modifier → Bool
  | .shift => s.shiftHeld
  | .ctrl => s.ctrlHeld
  | .alt => s.altHeld

def Ps2.lock (s : Ps2) : Lock → Bool
  | .caps => s.capsLockOn
  | .scroll => s.scrollLockOn
  | .num => s.numLockOn

theorem Ps2.track_held (s : Ps2) (kc : Keycode) (pressed : Bool) (modifier : Modifier)
    : (s.track kc pressed).held modifier
      = if kc.modifier = some modifier then pressed else s.held modifier := by
  cases pressed <;> cases kc <;> cases modifier <;> rfl

theorem Ps2.track_lock (s : Ps2) (kc : Keycode) (pressed : Bool) (lock : Lock)
    : (s.track kc pressed).lock lock
      = if kc.lock = some lock ∧ pressed = true then !s.lock lock else s.lock lock := by
  cases pressed <;> cases kc <;> cases lock <;> rfl

theorem Ps2.report_flags (s : Ps2) (kc : Keycode) (pressed : Bool)
    : (∀ modifier, (s.report kc pressed).1.held modifier
        = if kc.modifier = some modifier then pressed else s.held modifier)
      ∧ ∀ lock, (s.report kc pressed).1.lock lock
        = if kc.lock = some lock ∧ pressed = true then !s.lock lock else s.lock lock := by
  by_cases name : kc = .none
  · subst name
    exact ⟨fun _ => rfl, fun _ => rfl⟩
  · rw [Ps2.report, if_neg name]
    exact ⟨s.track_held kc pressed, s.track_lock kc pressed⟩

/-- The handler expects the first byte of an event. -/
def Ps2.Fresh (s : Ps2) : Prop := s.extended = false ∧ s.pauseBytesLeft = 0

variable {s : Ps2} {d : Desk}

theorem Ps2.Fresh.track (fresh : s.Fresh) (kc : Keycode) (pressed : Bool)
    : (s.track kc pressed).Fresh := by
  rw [Ps2.track]
  repeat' split
  all_goals exact fresh

theorem Ps2.Fresh.report (fresh : s.Fresh) (kc : Keycode) (pressed : Bool)
    : (s.report kc pressed).1.Fresh := by
  rw [Ps2.report]
  split
  next => exact fresh
  next => exact fresh.track kc pressed

-- The bytes of an event

theorem code_spec
    : ∀ (index : Fin 128) (pressed : Bool), index ≠ 0x60 ∧ index ≠ 0x61
      → let code := UInt8.ofNat (if pressed then index else index + 0x80)
        code ≠ PS2_SCAN_PAUSE ∧ code ≠ PS2_SCAN_EXTENDED
        ∧ (code &&& 0x80 == 0) = pressed ∧ (code &&& 0x7F).toNat = index := by
  decide

theorem Ps2.feed_scancode (fresh : s.Fresh) (extended : Bool) (index : Fin 128)
    (plain : index ≠ 0x60 ∧ index ≠ 0x61) (pressed : Bool)
    : s.feed (scancode extended index pressed)
      = s.report (if extended then extendedScancodeTable index else scancodeTable index)
          pressed := by
  obtain ⟨noPause, noMark, isPressed, isIndex⟩ := code_spec index pressed plain
  obtain ⟨plainMode, noBurst⟩ := fresh
  have same (s' : Ps2) (burst : ¬ s'.pauseBytesLeft > 0) (off : { s' with extended := false } = s)
      : s'.feed [UInt8.ofNat (if pressed then index else index + 0x80)]
        = s.report (if s'.extended then extendedScancodeTable index else scancodeTable index)
            pressed := by
    rw [Ps2.feed, ps2Irq1Handler, if_neg burst, if_neg noPause, if_neg noMark]
    dsimp only
    rw [off, isPressed, isIndex, Ps2.feed, List.append_nil]
  have off : { s with extended := false } = s := by rw [← plainMode]
  have burst : ¬ s.pauseBytesLeft > 0 := by omega
  cases extended with
  | false =>
      have sent := same s burst off
      rw [plainMode] at sent
      exact sent
  | true =>
      -- the mark is kept for the byte that follows it
      have marked : ps2Irq1Handler s PS2_SCAN_EXTENDED = ({ s with extended := true }, []) := by
        rw [ps2Irq1Handler, if_neg burst]
        rfl
      rw [scancode, if_pos rfl, Ps2.feed, marked]
      exact same { s with extended := true } burst off

theorem Ps2.feed_key (fresh : s.Fresh) (key : Key) (pressed : Bool)
    : s.feed (scancode key.extended key.index pressed) = s.report key.keycode pressed :=
  Ps2.feed_scancode fresh key.extended key.index key.plain pressed

theorem Ps2.feed_fakeShift (fresh : s.Fresh) (right pressed : Bool)
    : s.feed (KeyEvent.fakeShift right pressed).bytes = (s, []) := by
  cases right with
  | false => exact Ps2.feed_scancode fresh true 0x2A (by decide) pressed
  | true => exact Ps2.feed_scancode fresh true 0x36 (by decide) pressed

theorem Ps2.feed_pause (fresh : s.Fresh) : s.feed KeyEvent.pause.bytes = (s, []) := by
  obtain ⟨extended, pauseBytesLeft, shiftHeld, ctrlHeld, altHeld, caps, scroll, num⟩ := s
  obtain ⟨rfl, rfl⟩ : extended = false ∧ pauseBytesLeft = 0 := fresh
  rfl

-- The handler and the keyboard

/-- The flags of the handler are those of the keyboard, and it expects the first byte of an
event.
-/
structure Desk.Agrees (d : Desk) : Prop where
  fresh : d.ps2.Fresh
  modifier : ∀ modifier, d.ps2.held modifier = true ↔ d.keyboard.Holds modifier
  lock : ∀ lock, d.ps2.lock lock = true ↔ d.keyboard.presses lock % 2 = 1

theorem shows_packet (kb : Keyboard) (key : Key) (pressed : Bool) (fresh : s.Fresh)
    : kb.Shows key pressed (s.packet key.keycode pressed) ↔ (Desk.mk kb s).Agrees := by
  have modifiers (modifier : Modifier)
      : (s.packet key.keycode pressed).modifier modifier = s.held modifier := by
    cases modifier with
    | shift => rfl
    | ctrl => rfl
    | alt => rfl
  have locks (lock : Lock) : (s.packet key.keycode pressed).lock lock = s.lock lock := by
    cases lock with
    | caps => rfl
    | scroll => rfl
    | num => rfl
  constructor
  · intro shows'
    refine ⟨fresh, fun modifier => ?_, fun lock => ?_⟩
    · rw [← modifiers]
      exact shows'.modifier modifier
    · rw [← locks]
      exact shows'.lock lock
  · intro agrees
    refine ⟨rfl, rfl, fun modifier => ?_, fun lock => ?_⟩
    · rw [modifiers]
      exact agrees.modifier modifier
    · rw [locks]
      exact agrees.lock lock

theorem tells_report {kb : Keyboard} (fresh : s.Fresh) (key : Key) (pressed : Bool)
    (nameless : key.keycode = .none → (Desk.mk kb s).Agrees)
    : kb.Tells key pressed (s.report key.keycode pressed).2
      ↔ (Desk.mk kb (s.report key.keycode pressed).1).Agrees := by
  rw [Keyboard.Tells, Ps2.report]
  by_cases name : key.keycode = .none
  · rw [if_pos name, if_pos name]
    exact iff_of_true rfl (nameless name)
  · rw [if_neg name, if_neg name]
    dsimp only
    rw [← shows_packet kb key pressed (fresh.track _ _)]
    constructor
    · rintro ⟨pkt, same, shows'⟩
      rw [← List.singleton_inj.mp same] at shows'
      exact shows'
    · exact fun shows' => ⟨_, rfl, shows'⟩

theorem holds_update (kb : Keyboard) (key : Key) (down : Prop) (presses : Lock → Nat)
    (modifier : Modifier)
    : (Keyboard.mk (Function.update kb.held key down) presses).Holds modifier
      ↔ down ∧ key.keycode.modifier = some modifier
        ∨ ∃ other, other ≠ key ∧ kb.held other ∧ other.keycode.modifier = some modifier := by
  rw [Keyboard.Holds]
  constructor
  · rintro ⟨other, held, kind⟩
    by_cases self : other = key
    · subst self
      dsimp only at held
      rw [Function.update_self] at held
      exact .inl ⟨held, kind⟩
    · dsimp only at held
      rw [Function.update_of_ne self] at held
      exact .inr ⟨other, self, held, kind⟩
  · rintro (⟨held, kind⟩ | ⟨other, self, held, kind⟩)
    · refine ⟨key, ?_, kind⟩
      dsimp only
      rw [Function.update_self]
      exact held
    · refine ⟨other, ?_, kind⟩
      dsimp only
      rw [Function.update_of_ne self]
      exact held

theorem modifier_report (agrees : d.Agrees) (key : Key) (pressed : Bool) (presses : Lock → Nat)
    : (∀ modifier, (d.ps2.report key.keycode pressed).1.held modifier = true
        ↔ (Keyboard.mk (Function.update d.keyboard.held key (pressed = true)) presses).Holds
            modifier)
      ↔ pressed = true ∨ d.keyboard.Clear (.release key) := by
  have flags := (d.ps2.report_flags key.keycode pressed).1
  have before (modifier : Modifier) (kind : key.keycode.modifier ≠ some modifier)
      : d.ps2.held modifier = true
        ↔ ∃ other, other ≠ key ∧ d.keyboard.held other
            ∧ other.keycode.modifier = some modifier := by
    rw [agrees.modifier]
    constructor
    · rintro ⟨other, held, same⟩
      refine ⟨other, ?_, held, same⟩
      rintro rfl
      exact kind same
    · exact fun ⟨other, _, held, same⟩ => ⟨other, held, same⟩
  cases pressed with
  | true =>
      refine iff_of_true (fun modifier => ?_) (.inl rfl)
      rw [flags, holds_update]
      by_cases kind : key.keycode.modifier = some modifier
      · rw [if_pos kind]
        exact iff_of_true rfl (.inl ⟨rfl, kind⟩)
      · rw [if_neg kind, before modifier kind]
        exact ⟨.inr, fun either => either.resolve_left fun both => kind both.2⟩
  | false =>
      have off (modifier : Modifier)
          : (Keyboard.mk (Function.update d.keyboard.held key (false = true)) presses).Holds
              modifier
            ↔ ∃ other, other ≠ key ∧ d.keyboard.held other
                ∧ other.keycode.modifier = some modifier := by
        rw [holds_update]
        exact ⟨fun either => either.resolve_left fun both => (nomatch both.1), .inr⟩
      constructor
      · intro right
        refine .inr fun other held others named same => ?_
        obtain ⟨modifier, kind⟩ := Option.ne_none_iff_exists'.mp named
        have wrong := (right modifier).mpr ((off modifier).mpr ⟨other, others, held, same ▸ kind⟩)
        rw [flags, if_pos kind] at wrong
        cases wrong
      · rintro (impossible | clear) modifier
        · cases impossible
        · rw [flags, off]
          by_cases kind : key.keycode.modifier = some modifier
          · rw [if_pos kind]
            refine iff_of_false nofun fun ⟨other, others, held, same⟩ => ?_
            exact clear other held others (by rw [kind]; nofun) (same.trans kind.symm)
          · rw [if_neg kind]
            exact before modifier kind

theorem turn_parity (flag : Bool) (count : Nat) (before : flag = true ↔ count % 2 = 1)
    : (!flag) = true ↔ (count + 1) % 2 = 1 := by
  cases flag with
  | false =>
      have even : ¬ count % 2 = 1 := fun odd => nomatch before.mpr odd
      exact iff_of_true rfl (by omega)
  | true =>
      have odd := before.mp rfl
      exact iff_of_false nofun (by omega)

/-- After an event the handler agrees with the keyboard just if the event was clear. -/
theorem Desk.Agrees.step_iff (agrees : d.Agrees) (event : KeyEvent)
    : (d.step event).Agrees ↔ d.keyboard.Clear event := by
  have fresh := agrees.fresh
  cases event with
  | press key =>
      refine iff_of_true ?_ trivial
      rw [Desk.step, KeyEvent.bytes, Ps2.feed_key fresh]
      refine ⟨fresh.report _ _, ?_, fun lock => ?_⟩
      · have right := (modifier_report agrees key true (d.keyboard.step (.press key)).presses).mpr
          (.inl rfl)
        rw [eq_self] at right
        exact right
      · rw [(d.ps2.report_flags _ _).2]
        dsimp only [Keyboard.step]
        by_cases same : key.keycode.lock = some lock
        · rw [if_pos ⟨same, rfl⟩, if_pos same]
          exact turn_parity _ _ (agrees.lock lock)
        · rw [if_neg (fun both => same both.1), if_neg same]
          exact agrees.lock lock
  | repeats key =>
      rw [Desk.step, KeyEvent.bytes, Ps2.feed_key fresh]
      have right := (modifier_report agrees key true d.keyboard.presses).mpr (.inl rfl)
      rw [eq_self] at right
      constructor
      · intro later
        refine Option.eq_none_iff_forall_ne_some.mpr fun lock same => ?_
        have flag := later.lock lock
        rw [(d.ps2.report_flags _ _).2, if_pos ⟨same, rfl⟩, Keyboard.step] at flag
        dsimp only at flag
        rw [← agrees.lock lock] at flag
        cases on : d.ps2.lock lock with
        | false => simp [on] at flag
        | true => simp [on] at flag
      · intro noLock
        refine ⟨fresh.report _ _, right, fun lock => ?_⟩
        rw [(d.ps2.report_flags _ _).2, if_neg]
        · exact agrees.lock lock
        · rintro ⟨same, -⟩
          rw [noLock] at same
          cases same
  | release key =>
      rw [Desk.step, KeyEvent.bytes, Ps2.feed_key fresh]
      have right := modifier_report agrees key false d.keyboard.presses
      rw [show (false = true) = False from eq_false nofun] at right
      constructor
      · intro later
        exact (right.mp later.modifier).resolve_left nofun
      · intro clear
        refine ⟨fresh.report _ _, right.mpr (.inr clear), fun lock => ?_⟩
        rw [(d.ps2.report_flags _ _).2, if_neg (fun both => nomatch both.2)]
        exact agrees.lock lock
  | fakeShift right pressed =>
      rw [Desk.step, Ps2.feed_fakeShift fresh]
      exact iff_of_true agrees trivial
  | pause =>
      rw [Desk.step, Ps2.feed_pause fresh]
      exact iff_of_true agrees trivial

theorem clear_nameless (kb : Keyboard) {key : Key} (name : key.keycode = .none)
    : kb.Clear (.repeats key) ∧ kb.Clear (.release key) := by
  refine ⟨?_, fun other _ _ named => absurd ?_ named⟩
  · rw [Keyboard.Clear, name]
    rfl
  · rw [name]
    rfl

theorem Desk.Agrees.reports_iff (agrees : d.Agrees) (event : KeyEvent)
    : (d.step event).keyboard.Reports (d.ps2.feed event.bytes).2 event
      ↔ (d.step event).Agrees := by
  have fresh := agrees.fresh
  -- without a name the handler is left as it was
  have nameless (key : Key) (pressed : Bool) (name : key.keycode = .none)
      : (d.ps2.report key.keycode pressed).1 = d.ps2 := by
    rw [Ps2.report, if_pos name]
  have turn := agrees.step_iff event
  cases event with
  | press key =>
      rw [Desk.step, KeyEvent.bytes, Ps2.feed_key fresh] at turn ⊢
      refine tells_report fresh key true fun name => ?_
      rw [nameless key true name] at turn
      exact turn.mpr trivial
  | repeats key =>
      rw [Desk.step, KeyEvent.bytes, Ps2.feed_key fresh] at turn ⊢
      refine tells_report fresh key true fun name => ?_
      rw [nameless key true name] at turn
      exact turn.mpr (clear_nameless d.keyboard name).1
  | release key =>
      rw [Desk.step, KeyEvent.bytes, Ps2.feed_key fresh] at turn ⊢
      refine tells_report fresh key false fun name => ?_
      rw [nameless key false name] at turn
      exact turn.mpr (clear_nameless d.keyboard name).2
  | fakeShift right pressed =>
      rw [Ps2.feed_fakeShift fresh]
      exact iff_of_true rfl (turn.mpr trivial)
  | pause =>
      rw [Ps2.feed_pause fresh]
      exact iff_of_true rfl (turn.mpr trivial)

theorem Desk.agrees_init : Desk.init.Agrees := by
  refine ⟨⟨rfl, rfl⟩, fun modifier => ?_, fun lock => ?_⟩
  · refine iff_of_false ?_ fun ⟨_, held, _⟩ => held
    cases modifier <;> exact nofun
  · refine iff_of_false ?_ nofun
    cases lock <;> exact nofun

/-- Every packet of a keyboard names the key of its event and has the flags of the keys that are
held and of the locks, just if no modifier is released while the other of its kind is held, and no
lock repeats.
-/
theorem decoding_right_iff (events : List KeyEvent)
    : (∀ before event after, events = before ++ event :: after
        → let d := Runs.run Desk.step Desk.init before
          (d.step event).keyboard.Reports (d.ps2.feed event.bytes).2 event)
      ↔ Runs.Throughout Desk.step (fun d event => d.keyboard.Clear event) Desk.init events := by
  rw [← Runs.throughout_congr Desk.step Desk.Agrees
    (fun d event agrees => (agrees.reports_iff event).trans (agrees.step_iff event))
    (fun d event agrees clear => (agrees.step_iff event).mpr clear) Desk.agrees_init]
  exact Runs.forall_event_iff Desk.step
    (fun d event => (d.step event).keyboard.Reports (d.ps2.feed event.bytes).2 event) Desk.init
    events

/-- Left Shift and Right Shift are pressed and Left Shift is released: no packet is right that says
that none is held.
-/
theorem second_shift_lost
    : ¬ ∀ events before event after, events = before ++ event :: after
        → let d := Runs.run Desk.step Desk.init before
          (d.step event).keyboard.Reports (d.ps2.feed event.bytes).2 event := by
  intro always
  let left : Key := ⟨false, 0x2A, by decide⟩
  let right : Key := ⟨false, 0x36, by decide⟩
  have told := always [.press left, .press right, .release left] [.press left, .press right]
    (.release left) [] rfl
  dsimp only [Keyboard.Reports] at told
  rw [Keyboard.Tells, if_neg (by decide)] at told
  obtain ⟨pkt, same, right'⟩ := told
  have sent
      : ((Runs.run Desk.step Desk.init [.press left, .press right]).ps2.feed
          (KeyEvent.release left).bytes).2
        = [⟨.lshift, false, false, false, false, false, false, false⟩] := by
    decide
  have off : pkt.shift = false := by rw [← List.singleton_inj.mp (sent.symm.trans same)]
  have others : right ≠ left := by decide
  have held : (Runs.run Desk.step Desk.init
      [.press left, .press right, .release left]).keyboard.held right := by
    change Function.update (Function.update (Function.update (fun _ : Key => False) left True) right
      True) left False right
    rw [Function.update_of_ne others, Function.update_self]
    trivial
  exact nomatch off.symm.trans ((right'.modifier .shift).mpr ⟨right, held, rfl⟩)

end Panuti.Kbd
