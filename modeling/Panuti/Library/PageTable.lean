import Mathlib.Data.Nat.Bitwise
import Panuti.Library.ByteMemory

/-! Two-level page tables in byte-addressed memory: a directory and its tables are frames of
1024 words, and an entry is the address of a frame with flags in its low twelve bits. The last
entry of a directory may refer to the directory itself, which makes all tables addressable.
-/

namespace PageTable

open ByteMemory

-- Entries

def present (entry : Nat) : Bool := entry % 2 == 1

def frame (entry : Nat) : Nat := entry / 4096 * 4096

/-- The entry of a directory for the `index`-th 4 MiB. -/
def dirEntry (memory : Memory) (dir index : Nat) : Nat := memory.word (dir + 4 * index)

/-- The entry for a page, or 0 where the directory has no table. -/
def pageEntry (memory : Memory) (dir page : Nat) : Nat :=
  let entry := dirEntry memory dir (page / 1024)
  if present entry then memory.word (frame entry + 4 * (page % 1024)) else 0

/-- What the processor makes of a virtual address. -/
def translate (memory : Memory) (dir address : Nat) : Option Nat :=
  let entry := pageEntry memory dir (address / 4096)
  if present entry then some (frame entry + address % 4096) else none

theorem frame_aligned (entry : Nat) : frame entry % 4096 = 0 := by
  simp [frame]

variable {address location : Nat}

theorem frame_or {flags : Nat} (aligned : address % 4096 = 0) (small : flags < 4096)
    : frame (address ||| flags) = address ∧ (address ||| flags) % 4096 = flags := by
  have whole : address = 2 ^ 12 * (address / 4096) := by omega
  have sum : address ||| flags = address + flags := by
    have joined := Nat.two_pow_add_eq_or_of_lt (i := 12) small (address / 4096)
    rw [← whole] at joined
    exact joined.symm
  rw [frame, sum]
  omega

theorem present_or {flags : Nat} (aligned : address % 4096 = 0) (small : flags < 4096)
    : present (address ||| flags) = present flags := by
  have low := (frame_or aligned small).2
  have parity : (address ||| flags) % 2 = flags % 2 := by omega
  rw [present, parity, present]

@[simp] theorem present_zero : present 0 = false := rfl

theorem translate_of_present {memory : Memory} {dir : Nat}
    (isPresent : present (pageEntry memory dir (address / 4096)) = true)
    : translate memory dir address
      = some (frame (pageEntry memory dir (address / 4096)) + address % 4096) := by
  simp [translate, isPresent]

-- The recursive entry

/-- The last entry of the directory is the directory. -/
def Recursive (memory : Memory) (dir : Nat) : Prop :=
  present (dirEntry memory dir 1023) = true ∧ frame (dirEntry memory dir 1023) = dir

/-- Where the tables of the current directory appear. -/
def window (index : Nat) : Nat := 1023 * 4194304 + index * 4096

variable {memory : Memory} {dir index offset : Nat}

theorem Recursive.table (recursive : Recursive memory dir) (inside : index < 1024)
    (within : offset < 4096) (isPresent : present (dirEntry memory dir index) = true)
    : translate memory dir (window index + offset)
      = some (frame (dirEntry memory dir index) + offset) := by
  have page : (window index + offset) / 4096 = 1023 * 1024 + index := by
    simp only [window]
    omega
  have entry : pageEntry memory dir (1023 * 1024 + index) = dirEntry memory dir index := by
    have high : (1023 * 1024 + index) / 1024 = 1023 := by omega
    have low : (1023 * 1024 + index) % 1024 = index := by omega
    rw [pageEntry, high, low]
    simp only [recursive.1, if_pos]
    rw [recursive.2, dirEntry]
  have offsetIn : (window index + offset) % 4096 = offset := by
    simp only [window]
    omega
  rw [translate_of_present (by rw [page, entry]; exact isPresent), page, entry, offsetIn]

theorem Recursive.directory (recursive : Recursive memory dir) (within : offset < 4096)
    : translate memory dir (window 1023 + offset) = some (dir + offset) := by
  rw [recursive.table (by omega) within recursive.1, recursive.2]

-- Changes to memory

theorem word_setWord_aligned {value : Nat} (aligned : address % 4 = 0)
    (alignedToo : location % 4 = 0) (apart : location ≠ address)
    : (memory.setWord address value).word location = memory.word location :=
  memory.word_setWord_other (by omega)

theorem word_fill_zero {length : Nat} (inside : address ≤ location)
    (within : location + 4 ≤ address + length)
    : (memory.fill address length 0).word location = 0 := by
  have zero (place : Nat) (after : address ≤ place) (before : place < address + length)
      : memory.fill address length 0 place = 0 := by
    simp [Memory.fill, after, before]
  simp only [Memory.word]
  rw [zero _ (by omega) (by omega), zero _ (by omega) (by omega), zero _ (by omega) (by omega),
    zero _ (by omega) (by omega)]
  rfl

theorem word_fill_other {length : Nat} {byte : UInt8}
    (apart : location + 4 ≤ address ∨ address + length ≤ location)
    : (memory.fill address length byte).word location = memory.word location :=
  Memory.word_congr (fun _ _ _ => memory.fill_other (by omega))

theorem word_update_other {byte : UInt8} (apart : location + 4 ≤ address ∨ address < location)
    : Memory.word (Function.update memory address byte) location = memory.word location :=
  Memory.word_congr (fun place _ _ => by rw [Function.update_of_ne (by omega)])

end PageTable
