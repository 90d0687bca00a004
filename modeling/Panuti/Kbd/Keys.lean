import Mathlib.Algebra.Ring.Nat

/-! The names of the keys, and the packets that tell of them. -/

namespace Panuti.Kbd

instance letters : NeZero 26 := ⟨by decide⟩

inductive Keycode where
  | none
  | letter (index : Fin 26)
  | digit (index : Fin 10)
  | period
  | comma
  | semicolon
  | apostrophe
  | minus
  | equals
  | slash
  | backslash
  | lbracket
  | rbracket
  | lshift
  | rshift
  | lalt
  | ralt
  | lctrl
  | rctrl
  | capsLock
  | scrollLock
  | numLock
  | space
  | tab
  | backspace
  | enter
  | backtick
  | escape
  | up
  | down
  | left
  | right
  | home
  | «end»
  | pageUp
  | pageDown
  | insert
  | delete
  | f (index : Fin 12)
deriving Repr, DecidableEq

/-- `keypacket_t`. -/
structure Keypacket where
  keycode : Keycode
  pressed : Bool
  shift : Bool
  ctrl : Bool
  alt : Bool
  capsLock : Bool
  scrollLock : Bool
  numLock : Bool
deriving Repr, DecidableEq

def letter (c : Char) : UInt8 := UInt8.ofNat c.toNat

def digitShifted : List UInt8 := ")!@#$%^&*(".toList.map letter

def keypacketToAscii (keypacket : Keypacket) : UInt8 :=
  let shift := keypacket.shift
  let pick (shifted plain : Char) : UInt8 := if shift then letter shifted else letter plain
  match keypacket.keycode with
  | .letter index =>
      if keypacket.capsLock != shift then letter 'A' + UInt8.ofNat index
      else letter 'a' + UInt8.ofNat index
  | .digit index => if shift then digitShifted.getD index 0 else letter '0' + UInt8.ofNat index
  | .space => letter ' '
  | .period => pick '>' '.'
  | .comma => pick '<' ','
  | .semicolon => pick ':' ';'
  | .apostrophe => if shift then 0x22 else 0x27
  | .minus => pick '_' '-'
  | .equals => pick '+' '='
  | .slash => pick '?' '/'
  | .backslash => if shift then letter '|' else 0x5C
  | .lbracket => if shift then 0x7B else letter '['
  | .rbracket => if shift then 0x7D else letter ']'
  | .backtick => if shift then letter '~' else 0x60
  | _ => 0

end Panuti.Kbd
