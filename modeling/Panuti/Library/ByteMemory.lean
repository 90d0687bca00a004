import Mathlib.Algebra.Ring.Int.Defs
import Mathlib.Algebra.Ring.Nat
import Mathlib.Data.List.Basic
import Mathlib.Tactic.Common

/-! Byte-addressed memory with little-endian words, block fill, block copy and strings of bytes.
Every write is described by what it stores and by the bytes it leaves alone.
-/

namespace ByteMemory

/-- A memory maps every address to the byte stored there. -/
abbrev Memory := Nat → UInt8

/-- The little-endian 32-bit word stored at `address`. -/
def Memory.word (memory : Memory) (address : Nat) : Nat :=
  (memory address).toNat
  + 256 * (memory (address + 1)).toNat
  + 65536 * (memory (address + 2)).toNat
  + 16777216 * (memory (address + 3)).toNat

/-- Store the low 32 bits of `value` at `address`. -/
def Memory.setWord (memory : Memory) (address value : Nat) : Memory := fun location =>
  if location = address then UInt8.ofNat value
  else if location = address + 1 then UInt8.ofNat (value / 256)
  else if location = address + 2 then UInt8.ofNat (value / 65536)
  else if location = address + 3 then UInt8.ofNat (value / 16777216)
  else memory location

/-- Set `length` bytes from `address` on to `byte`. -/
def Memory.fill (memory : Memory) (address length : Nat) (byte : UInt8) : Memory :=
  fun location =>
    if address ≤ location ∧ location < address + length then byte else memory location

/-- Copy `length` bytes from `source` to `target`; the ranges do not overlap. -/
def Memory.copy (memory : Memory) (target source length : Nat) : Memory := fun location =>
  if target ≤ location ∧ location < target + length then
    memory (source + (location - target))
  else memory location

/-- The little-endian 16-bit word stored at `address`. -/
def Memory.half (memory : Memory) (address : Nat) : Nat :=
  (memory address).toNat + 256 * (memory (address + 1)).toNat

/-- The `length` bytes from `address` on. -/
def Memory.bytes (memory : Memory) (address length : Nat) : List UInt8 :=
  (List.range length).map (fun index => memory (address + index))

/-- Store a string of bytes from `address` on. -/
def Memory.store (memory : Memory) (address : Nat) (string : List UInt8) : Memory :=
  fun location =>
    if address ≤ location ∧ location < address + string.length then
      string.getD (location - address) 0
    else memory location

-- Reading back what was stored

theorem Memory.word_lt (memory : Memory) (address : Nat) : memory.word address < 4294967296 := by
  have h0 := (memory address).toNat_lt
  have h1 := (memory (address + 1)).toNat_lt
  have h2 := (memory (address + 2)).toNat_lt
  have h3 := (memory (address + 3)).toNat_lt
  simp only [Memory.word]
  omega

variable {value address location length index : Nat} {memory changed : Memory} {string : List UInt8}

theorem Memory.word_setWord_self (memory : Memory) (address : Nat) (fits : value < 4294967296)
    : (memory.setWord address value).word address = value := by
  have first : memory.setWord address value address = UInt8.ofNat value := by
    simp [Memory.setWord]
  have second : memory.setWord address value (address + 1) = UInt8.ofNat (value / 256) := by
    simp [Memory.setWord]
  have third : memory.setWord address value (address + 2)
      = UInt8.ofNat (value / 65536) := by
    simp [Memory.setWord]
  have fourth : memory.setWord address value (address + 3)
      = UInt8.ofNat (value / 16777216) := by
    simp [Memory.setWord]
  simp only [Memory.word, first, second, third, fourth, UInt8.toNat_ofNat']
  omega

theorem Memory.setWord_other (memory : Memory) (apart : location < address ∨ address + 4 ≤ location)
    : memory.setWord address value location = memory location := by
  have h0 : location ≠ address := by omega
  have h1 : location ≠ address + 1 := by omega
  have h2 : location ≠ address + 2 := by omega
  have h3 : location ≠ address + 3 := by omega
  simp [Memory.setWord, h0, h1, h2, h3]

theorem Memory.word_congr (same : ∀ location, address ≤ location → location < address + 4
      → changed location = memory location)
    : changed.word address = memory.word address := by
  simp only [Memory.word]
  rw [same address (by omega) (by omega), same (address + 1) (by omega) (by omega),
    same (address + 2) (by omega) (by omega), same (address + 3) (by omega) (by omega)]

theorem Memory.word_setWord_other (memory : Memory)
    (apart : location + 4 ≤ address ∨ address + 4 ≤ location)
    : (memory.setWord address value).word location = memory.word location :=
  Memory.word_congr (fun _ _ _ => Memory.setWord_other memory (by omega))

theorem Memory.fill_other (memory : Memory) {byte : UInt8}
    (apart : location < address ∨ address + length ≤ location)
    : memory.fill address length byte location = memory location := by
  have outside : ¬(address ≤ location ∧ location < address + length) := by omega
  simp [Memory.fill, outside]

theorem Memory.copy_other (memory : Memory) {target source : Nat}
    (apart : location < target ∨ target + length ≤ location)
    : memory.copy target source length location = memory location := by
  have outside : ¬(target ≤ location ∧ location < target + length) := by omega
  simp [Memory.copy, outside]

theorem Memory.copy_inside (memory : Memory) {target source : Nat} (inside : index < length)
    : memory.copy target source length (target + index) = memory (source + index) := by
  have within : target ≤ target + index ∧ target + index < target + length := by omega
  simp [Memory.copy, within]

theorem Memory.fill_inside (memory : Memory) {byte : UInt8} (lower : address ≤ location)
    (upper : location < address + length)
    : memory.fill address length byte location = byte := by
  simp [Memory.fill, lower, upper]

-- Strings of bytes

theorem Memory.store_other (memory : Memory)
    (apart : location < address ∨ address + string.length ≤ location)
    : memory.store address string location = memory location := by
  have outside : ¬(address ≤ location ∧ location < address + string.length) := by omega
  simp [Memory.store, outside]

theorem Memory.store_inside (memory : Memory) (inside : index < string.length)
    : memory.store address string (address + index) = string.getD index 0 := by
  simp [Memory.store, inside]

theorem Memory.half_congr (same : ∀ location, address ≤ location → location < address + 2
      → changed location = memory location)
    : changed.half address = memory.half address := by
  simp only [Memory.half]
  rw [same address (by omega) (by omega), same (address + 1) (by omega) (by omega)]

@[simp]
theorem Memory.length_bytes (memory : Memory) (address length : Nat)
    : (memory.bytes address length).length = length := by
  simp [Memory.bytes]

theorem Memory.bytes_congr (same : ∀ location, address ≤ location → location < address + length
      → changed location = memory location)
    : changed.bytes address length = memory.bytes address length := by
  apply List.map_congr_left
  intro index member
  have inside := List.mem_range.mp member
  exact same (address + index) (by omega) (by omega)

theorem Memory.bytes_store_self (memory : Memory) (address : Nat) (string : List UInt8)
    : (memory.store address string).bytes address string.length = string := by
  apply List.ext_getElem
  · simp
  · intro index _ inside
    simp only [Memory.bytes, List.getElem_map, List.getElem_range]
    rw [Memory.store_inside memory inside]
    simp [inside]

theorem Memory.bytes_slice (memory : Memory) (address : Nat) {skip count : Nat}
    (inside : skip + count ≤ length)
    : ((memory.bytes address length).drop skip).take count
      = memory.bytes (address + skip) count := by
  apply List.ext_getElem
  · rw [List.length_take, List.length_drop, length_bytes, length_bytes]
    omega
  · intro index _ _
    simp only [Memory.bytes, List.getElem_take, List.getElem_drop, List.getElem_map,
      List.getElem_range, Nat.add_assoc]

theorem Memory.store_between (memory : Memory) (address : Nat) {skip : Nat} (string : List UInt8)
    (inside : skip + string.length ≤ length)
    : memory.store address
        ((memory.bytes address length).take skip
          ++ (string ++ (memory.bytes address length).drop (skip + string.length)))
      = memory.store (address + skip) string := by
  have before : ((memory.bytes address length).take skip).length = skip := by
    rw [List.length_take, length_bytes]
    omega
  have total : ((memory.bytes address length).take skip
      ++ (string ++ (memory.bytes address length).drop (skip + string.length))).length
      = length := by
    rw [List.length_append, List.length_append, before, List.length_drop, length_bytes]
    omega
  have own : ∀ index < length, (memory.bytes address length)[index]?
      = some (memory (address + index)) := by
    intro index small
    rw [Memory.bytes, List.getElem?_map, List.getElem?_range small, Option.map_some]
  funext location
  simp only [Memory.store, total, List.getD_eq_getElem?_getD]
  by_cases within : address ≤ location ∧ location < address + length
  · rw [if_pos within]
    have back : address + (location - address) = location := by omega
    by_cases low : location - address < skip
    · rw [List.getElem?_append_left (by omega), List.getElem?_take_of_lt low, own _ (by omega),
        if_neg (by omega), back, Option.getD_some]
    · rw [List.getElem?_append_right (by omega), before]
      by_cases high : location - address < skip + string.length
      · rw [List.getElem?_append_left (by omega), if_pos (by omega)]
        congr 2
        omega
      · rw [List.getElem?_append_right (by omega), List.getElem?_drop, own _ (by omega),
          if_neg (by omega), Option.getD_some]
        congr 1
        omega
  · rw [if_neg within, if_neg (by omega)]

def Memory.ofWords (words : Nat → Nat) : Memory :=
  fun location => UInt8.ofNat (words (location / 4) / 256 ^ (location % 4))

theorem Memory.word_ofWords {words : Nat → Nat} (small : words index < 4294967296)
    : (Memory.ofWords words).word (4 * index) = words index := by
  have first : 4 * index / 4 = index := by omega
  have second : (4 * index + 1) / 4 = index := by omega
  have third : (4 * index + 2) / 4 = index := by omega
  have fourth : (4 * index + 3) / 4 = index := by omega
  have none : 4 * index % 4 = 0 := by omega
  have one : (4 * index + 1) % 4 = 1 := by omega
  have two : (4 * index + 2) % 4 = 2 := by omega
  have three : (4 * index + 3) % 4 = 3 := by omega
  simp only [Memory.word, Memory.ofWords, first, second, third, fourth, none, one, two, three,
    UInt8.toNat_ofNat', Nat.reducePow]
  omega

end ByteMemory
