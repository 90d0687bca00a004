import Mathlib.Algebra.Ring.Int.Defs
import Mathlib.Algebra.Ring.Nat
import Mathlib.Tactic.Common

/-! A block of values that is read and written by signed offsets, with nothing outside of it. -/

namespace Panuti.Library

section

variable {α : Type}

/-- The values of a block from an offset on, if so many are there. -/
def readAt (block : List α) (start count : Int) : Option (List α) :=
  if 0 ≤ start ∧ 0 ≤ count ∧ start + count ≤ block.length then
    some ((block.drop start.toNat).take count.toNat)
  else none

/-- A block with other values from an offset on, if it has room for them there. -/
def writeAt (block : List α) (start : Int) (values : List α) : Option (List α) :=
  if 0 ≤ start ∧ start + values.length ≤ block.length then
    some (block.take start.toNat ++ (values ++ block.drop (start.toNat + values.length)))
  else none

variable {start : Int}

theorem exists_writeAt (block values : List α) (positive : 0 ≤ start)
    (inside : start + values.length ≤ block.length)
    : ∃ written, writeAt block start values = some written
        ∧ written.length = block.length := by
  refine ⟨_, if_pos ⟨positive, inside⟩, ?_⟩
  rw [List.length_append, List.length_append, List.length_take, List.length_drop]
  omega

theorem getElem?_writeAt_single {block written : List α} {a : α}
    (ran : writeAt block start [a] = some written)
    : written[start.toNat]? = some a := by
  rw [writeAt] at ran
  split at ran
  next inside =>
    cases ran
    have short : (block.take start.toNat).length = start.toNat := by
      rw [List.length_take]
      have := inside.2
      simp only [List.length_singleton] at this
      omega
    rw [List.getElem?_append_right (by omega), short]
    simp
  next => cases ran

theorem writeAt_whole {block values : List α} (same : values.length = block.length)
    : writeAt block 0 values = some values := by
  rw [writeAt, if_pos ⟨Int.le_refl 0, by omega⟩]
  simp [same]

end

end Panuti.Library
