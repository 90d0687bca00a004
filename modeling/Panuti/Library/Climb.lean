import Mathlib.Algebra.Order.Group.Nat
import Mathlib.Data.Finset.Card
import Mathlib.Data.Finset.Range
import Mathlib.Data.Nat.Find
import Mathlib.Logic.Function.Iterate
import Mathlib.Tactic.Common

/-! Climbing towards a root along a parent function. A place is grounded when finitely many
steps lead from it to the root; where all places are grounded there are no cycles, and the
number of places bounds every climb.
-/

namespace Climb

variable {up changed : Nat → Nat} {root place : Nat}

def Grounded (up : Nat → Nat) (root place : Nat) : Prop :=
  ∃ steps, up^[steps] place = root

theorem Grounded.of_up (grounded : Grounded up root (up place)) : Grounded up root place := by
  obtain ⟨steps, reached⟩ := grounded
  exact ⟨steps + 1, by rw [Function.iterate_succ_apply]; exact reached⟩

theorem Grounded.congr (inside : Nat → Prop)
    (same : ∀ place, inside place → place ≠ root
      → changed place = up place ∧ inside (up place))
    (member : inside place) (grounded : Grounded up root place)
    : Grounded changed root place := by
  obtain ⟨steps, reached⟩ := grounded
  induction steps generalizing place with
  | zero => exact ⟨0, reached⟩
  | succ steps ih =>
      by_cases here : place = root
      · exact ⟨0, here⟩
      · rw [Function.iterate_succ_apply] at reached
        obtain ⟨unchanged, stays⟩ := same place member here
        have later := ih stays reached
        rw [← unchanged] at later
        exact later.of_up

theorem Grounded.move {moved : Nat} (inside : Nat → Prop)
    (same
      : ∀ place, inside place → place ≠ root → place ≠ moved
        → changed place = up place ∧ inside (up place))
    (hung : Grounded changed root (changed moved))
    (member : inside place) (grounded : Grounded up root place)
    : Grounded changed root place := by
  obtain ⟨steps, reached⟩ := grounded
  induction steps generalizing place with
  | zero => exact ⟨0, reached⟩
  | succ steps ih =>
      by_cases here : place = moved
      · rw [here]
        exact hung.of_up
      · by_cases atRoot : place = root
        · exact ⟨0, atRoot⟩
        · rw [Function.iterate_succ_apply] at reached
          obtain ⟨unchanged, stays⟩ := same place member atRoot here
          have later := ih stays reached
          rw [← unchanged] at later
          exact later.of_up

theorem iterate_root (fixed : up root = root) (steps : Nat) : up^[steps] root = root :=
  Function.iterate_fixed fixed steps

theorem Grounded.acyclic (fixed : up root = root) (grounded : Grounded up root place)
    (notRoot : place ≠ root) (steps : Nat)
    : up^[steps + 1] place ≠ place := by
  intro cycle
  obtain ⟨height, reached⟩ := grounded
  have around (turns : Nat) : up^[turns * (steps + 1)] place = place := by
    induction turns with
    | zero => simp
    | succ turns ih => rw [Nat.succ_mul, Function.iterate_add_apply, cycle, ih]
  have beyond : up^[height * (steps + 1)] place = root := by
    obtain ⟨more, split⟩ : ∃ more, height * (steps + 1) = more + height := by
      refine ⟨height * steps, ?_⟩
      rw [Nat.mul_succ]
    rw [split, Function.iterate_add_apply, reached, iterate_root fixed]
  exact notRoot ((around height).symm.trans beyond)

theorem Grounded.bounded {bound : Nat} (grounded : Grounded up root place)
    (below : ∀ steps, up^[steps] place < bound)
    : ∃ steps < bound, up^[steps] place = root := by
  classical
  have shortest := Nat.find_spec grounded
  have minimal : ∀ steps < Nat.find grounded, up^[steps] place ≠ root :=
    fun steps less => Nat.find_min grounded less
  generalize Nat.find grounded = height at shortest minimal
  refine ⟨height, ?_, shortest⟩
  have ordered : ∀ first second, first < second → second ≤ height →
      up^[first] place ≠ up^[second] place := by
    intro first second less high same
    apply minimal (height - second + first) (by omega)
    rw [Function.iterate_add_apply, same, ← Function.iterate_add_apply,
      Nat.sub_add_cancel high]
    exact shortest
  have injective
      : Set.InjOn (fun taken => up^[taken] place) (Finset.range (height + 1)) := by
    intro first firstIn second secondIn same
    have firstHigh := Finset.mem_range.mp (Finset.mem_coe.mp firstIn)
    have secondHigh := Finset.mem_range.mp (Finset.mem_coe.mp secondIn)
    rcases Nat.lt_trichotomy first second with less | equal | greater
    · exact absurd same (ordered first second less (by omega))
    · exact equal
    · exact absurd same.symm (ordered second first greater (by omega))
  have maps : ∀ taken ∈ Finset.range (height + 1), up^[taken] place ∈ Finset.range bound :=
    fun taken _ => Finset.mem_range.mpr (below taken)
  have counted := Finset.card_le_card_of_injOn _ maps injective
  rw [Finset.card_range, Finset.card_range] at counted
  omega

end Climb
