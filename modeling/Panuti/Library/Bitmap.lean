import Mathlib.Algebra.Order.BigOperators.Group.Finset
import Panuti.Library.ByteMemory

/-! Bitmaps in byte-addressed memory, and the number of their clear bits. -/

namespace Bitmap

open ByteMemory

/-- The `index`-th bit of a bitmap. -/
def bit (map : Memory) (index : Nat) : Bool :=
  (map (index / 8)).toNat.testBit (index % 8)

/-- The byte with only the `place`-th bit set. -/
def mask (place : Nat) : UInt8 := 1 <<< UInt8.ofNat place

/-- Set the `index`-th bit. -/
def setBit (map : Memory) (index : Nat) : Memory :=
  Function.update map (index / 8) (map (index / 8) ||| mask (index % 8))

/-- Clear the `index`-th bit. -/
def clearBit (map : Memory) (index : Nat) : Memory :=
  Function.update map (index / 8) (map (index / 8) &&& ~~~mask (index % 8))

/-- How many of the first `length` bits are clear. -/
def clearBits (map : Memory) (length : Nat) : Nat :=
  ∑ index ∈ Finset.range length, if bit map index then 0 else 1

-- One bit changes

variable {place length index : Nat}

theorem testBit_mask {other : Nat} (small : place < 8) (otherSmall : other < 8)
    : (mask place).toNat.testBit other = decide (place = other)
      ∧ (~~~mask place).toNat.testBit other = decide (place ≠ other) := by
  have table : ∀ one two : Fin 8,
      (mask one).toNat.testBit two = decide (one.val = two.val)
      ∧ (~~~mask one).toNat.testBit two = decide (one.val ≠ two.val) := by
    decide
  exact table ⟨place, small⟩ ⟨other, otherSmall⟩

theorem index_eq {one two : Nat} (byte : one / 8 = two / 8) (place : one % 8 = two % 8)
    : one = two := by
  omega

theorem bit_setBit (map : Memory) (index other : Nat)
    : bit (setBit map index) other = (decide (index = other) || bit map other) := by
  have small := Nat.mod_lt index (by decide : 0 < 8)
  have otherSmall := Nat.mod_lt other (by decide : 0 < 8)
  by_cases byte : other / 8 = index / 8
  · rw [bit, setBit, byte, Function.update_self, UInt8.toNat_or, Nat.testBit_or,
      (testBit_mask small otherSmall).1, bit, byte, Bool.or_comm]
    congr 1
    rw [decide_eq_decide]
    exact ⟨index_eq byte.symm, fun same => by rw [same]⟩
  · have different : index ≠ other := fun same => byte (by rw [same])
    rw [bit, setBit, Function.update_of_ne byte, bit]
    simp [different]

theorem bit_clearBit (map : Memory) (index other : Nat)
    : bit (clearBit map index) other = (decide (index ≠ other) && bit map other) := by
  have small := Nat.mod_lt index (by decide : 0 < 8)
  have otherSmall := Nat.mod_lt other (by decide : 0 < 8)
  by_cases byte : other / 8 = index / 8
  · rw [bit, clearBit, byte, Function.update_self, UInt8.toNat_and, Nat.testBit_and,
      (testBit_mask small otherSmall).2, bit, byte, Bool.and_comm]
    congr 1
    rw [decide_eq_decide]
    exact not_congr ⟨index_eq byte.symm, fun same => by rw [same]⟩
  · have different : index ≠ other := fun same => byte (by rw [same])
    rw [bit, clearBit, Function.update_of_ne byte, bit]
    simp [different]

theorem update_setBit (map : Memory) (index : Nat)
    : Function.update (setBit map index) (index / 8) (map (index / 8)) = map := by
  rw [setBit, Function.update_idem, Function.update_eq_self]

-- Counting

theorem sum_grows {before after : Nat → Nat} (inside : place < length)
    (grows : after place = before place + 1)
    (same : ∀ other, other < length → other ≠ place → after other = before other)
    : ∑ index ∈ Finset.range length, after index
      = (∑ index ∈ Finset.range length, before index) + 1 := by
  have member : place ∈ Finset.range length := Finset.mem_range.mpr inside
  have rest : ∑ index ∈ (Finset.range length).erase place, after index
      = ∑ index ∈ (Finset.range length).erase place, before index := by
    refine Finset.sum_congr rfl ?_
    intro other there
    obtain ⟨different, within⟩ := Finset.mem_erase.mp there
    exact same other (Finset.mem_range.mp within) different
  rw [← Finset.add_sum_erase _ after member, ← Finset.add_sum_erase _ before member, rest, grows]
  omega

theorem clearBits_setBit {map : Memory} (inside : index < length) (clear : bit map index = false)
    : clearBits map length = clearBits (setBit map index) length + 1 := by
  refine sum_grows inside ?_ ?_
  · simp [bit_setBit, clear]
  · intro other _ different
    simp [bit_setBit, Ne.symm different]

theorem clearBits_clearBit {map : Memory} (inside : index < length) (set : bit map index = true)
    : clearBits (clearBit map index) length = clearBits map length + 1 := by
  refine sum_grows inside ?_ ?_
  · simp [bit_clearBit, set]
  · intro other _ different
    simp [bit_clearBit, Ne.symm different]

theorem clearBits_le (map : Memory) (length : Nat) : clearBits map length ≤ length := by
  induction length with
  | zero => simp [clearBits]
  | succ length ih =>
      simp only [clearBits] at ih ⊢
      rw [Finset.sum_range_succ]
      split <;> omega

theorem sum_clearBits_lt {count : Nat} {maps : Nat → Memory} {lengths : Nat → Nat}
    (inside : place < count) (short : index < lengths place) (set : bit (maps place) index = true)
    : (∑ group ∈ Finset.range count, clearBits (maps group) (lengths group)) + 1
      ≤ ∑ group ∈ Finset.range count, lengths group := by
  have more := clearBits_clearBit short set
  have most := clearBits_le (clearBit (maps place) index) (lengths place)
  have strictly := Finset.sum_lt_sum (fun group _ => clearBits_le (maps group) (lengths group))
    ⟨place, Finset.mem_range.mpr inside, by omega⟩
  exact strictly

end Bitmap
