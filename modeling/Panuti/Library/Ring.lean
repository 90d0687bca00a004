import Mathlib.Data.List.Basic
import Mathlib.Logic.Function.Basic
import Mathlib.Tactic.Common

/-! Ring buffers as windows onto a stream: a cell of the ring holds the element of the stream
at the place that is the cell's index modulo the size.
-/

namespace Ring

variable {α : Type} {cells : Nat → α} {size first : Nat} {stream : List α}

/-- From the place `first` on, the cells of the ring hold the stream. -/
def Holds (cells : Nat → α) (size : Nat) (stream : List α) (first : Nat) : Prop :=
  ∀ place value, first ≤ place → stream[place]? = some value → cells (place % size) = value

theorem mod_ne_mod {place other : Nat} (before : place < other) (near : other < place + size)
    : place % size ≠ other % size := by
  intro same
  have whole : (other - place) % size = 0 := Nat.sub_mod_eq_zero_of_mod_eq same.symm
  rw [Nat.mod_eq_of_lt (by omega)] at whole
  omega

theorem Holds.later {later : Nat} (holds : Holds cells size stream first)
    (forward : first ≤ later)
    : Holds cells size stream later :=
  fun place value inside => holds place value (by omega)

theorem Holds.push (holds : Holds cells size stream first) (value : α)
    (space : stream.length < first + size)
    : Holds (Function.update cells (stream.length % size) value) size (stream ++ [value])
        first := by
  intro place found inside present
  by_cases isLast : place = stream.length
  · subst isLast
    rw [Function.update_self]
    simpa using present
  · have below : place < stream.length := by
      obtain ⟨bound, _⟩ := List.getElem?_eq_some_iff.mp present
      rw [List.length_append, List.length_singleton] at bound
      omega
    rw [Function.update_of_ne (mod_ne_mod below (by omega))]
    rw [List.getElem?_append_left below] at present
    exact holds place found inside present

theorem Holds.read {taken : List α} {more : List α} (holds : Holds cells size (stream ++ more) first)
    (isPrefix : taken <+: stream) (inside : first ≤ taken.length)
    (below : taken.length < stream.length)
    : taken ++ [cells (taken.length % size)] <+: stream := by
  obtain ⟨rest, rfl⟩ := isPrefix
  cases rest with
  | nil => simp at below
  | cons next rest =>
      have isNext : cells (taken.length % size) = next :=
        holds taken.length next inside (by simp)
      exact ⟨rest, by simp [isNext]⟩

end Ring
