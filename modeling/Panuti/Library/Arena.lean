import Mathlib.Algebra.BigOperators.Group.Finset.Basic
import Mathlib.Algebra.Ring.Int.Defs
import Mathlib.Algebra.Ring.Nat
import Mathlib.Data.Finset.Range
import Mathlib.Tactic.Common

/-! Arenas of numbered values. A place is handed out once and stays empty after its value was
freed, so a place that is filled always holds the value it was handed out for.
The tally of an arena sums a weight over its values.
-/

/-- Values at numbered places. Places from `next` on were not handed out yet. -/
structure Arena (α : Type) where
  cells : Nat → Option α
  next : Nat
  fresh : ∀ place, next ≤ place → cells place = none

namespace Arena

variable {α : Type}

def empty : Arena α := ⟨fun _ => none, 0, fun _ _ => rfl⟩

def get (arena : Arena α) (place : Nat) : Option α := arena.cells place

/-- Put a value at the place `next`. -/
def alloc (arena : Arena α) (value : α) : Arena α where
  cells place := if place = arena.next then some value else arena.cells place
  next := arena.next + 1
  fresh place beyond := by
    have apart : place ≠ arena.next := by omega
    rw [if_neg apart]
    exact arena.fresh place (by omega)

def modify (arena : Arena α) (place : Nat) (change : α → α) : Arena α where
  cells other := if other = place then (arena.cells other).map change else arena.cells other
  next := arena.next
  fresh other beyond := by
    rw [arena.fresh other beyond]
    split <;> rfl

def free (arena : Arena α) (place : Nat) : Arena α where
  cells other := if other = place then none else arena.cells other
  next := arena.next
  fresh other beyond := by
    rw [arena.fresh other beyond]
    split <;> rfl

-- Reading after a change

section Reading

variable (arena : Arena α) (place other : Nat) (value : α) (change : α → α)

@[simp] theorem alloc_next : (arena.alloc value).next = arena.next + 1 := rfl

@[simp] theorem modify_next : (arena.modify place change).next = arena.next := rfl

@[simp] theorem free_next : (arena.free place).next = arena.next := rfl

theorem get_alloc
    : (arena.alloc value).get place
      = if place = arena.next then some value else arena.get place := rfl

theorem get_modify
    : (arena.modify place change).get other
      = if other = place then (arena.get other).map change else arena.get other := rfl

theorem get_free
    : (arena.free place).get other = if other = place then none else arena.get other := rfl

@[simp] theorem get_alloc_self : (arena.alloc value).get arena.next = some value := by
  simp [get_alloc]

@[simp] theorem get_modify_self
    : (arena.modify place change).get place = (arena.get place).map change := by
  simp [get_modify]

@[simp] theorem get_free_self : (arena.free place).get place = none := by
  simp [get_free]

end Reading

variable {arena : Arena α} {other place : Nat} {value : α} {change : α → α}

theorem ext_get {other : Arena α} (same : ∀ place, arena.get place = other.get place)
    (next : arena.next = other.next)
    : arena = other := by
  obtain ⟨cells, bound, _⟩ := arena
  obtain ⟨otherCells, otherBound, _⟩ := other
  obtain rfl : cells = otherCells := funext same
  obtain rfl : bound = otherBound := next
  rfl

theorem get_beyond (beyond : arena.next ≤ place) : arena.get place = none :=
  arena.fresh place beyond

theorem lt_next (present : arena.get place = some value) : place < arena.next := by
  by_contra beyond
  rw [get_beyond (by omega)] at present
  cases present

theorem ne_next (present : arena.get place = some value) : place ≠ arena.next := by
  have := lt_next present
  omega

theorem get_alloc_of_some {added : α} (present : arena.get place = some value)
    : (arena.alloc added).get place = some value := by
  rw [get_alloc, if_neg (ne_next present), present]

theorem get_alloc_of_ne (apart : place ≠ arena.next) (added : α)
    : (arena.alloc added).get place = arena.get place := by
  rw [get_alloc, if_neg apart]

theorem get_modify_of_ne (apart : other ≠ place)
    : (arena.modify place change).get other = arena.get other := by
  rw [get_modify, if_neg apart]

theorem get_free_of_ne (apart : other ≠ place)
    : (arena.free place).get other = arena.get other := by
  rw [get_free, if_neg apart]

theorem get_free_eq_some
    : (arena.free place).get other = some value
      ↔ other ≠ place ∧ arena.get other = some value := by
  rw [get_free]
  split
  · simp_all
  · simp_all

theorem get_modify_eq_some (present : (arena.modify place change).get other = some value)
    : ∃ old, arena.get other = some old
        ∧ value = if other = place then change old else old := by
  rw [get_modify] at present
  split at present
  · rename_i same
    obtain ⟨old, was, rfl⟩ := Option.map_eq_some_iff.mp present
    exact ⟨old, was, by rw [if_pos same]⟩
  · rename_i apart
    exact ⟨value, present, by rw [if_neg apart]⟩

-- Tallies

/-- The weight of what is at a place, if anything. -/
def weigh (arena : Arena α) (weight : α → Nat) (place : Nat) : Nat :=
  (arena.get place).elim 0 weight

def tally (arena : Arena α) (weight : α → Nat) : Nat :=
  ∑ place ∈ Finset.range arena.next, arena.weigh weight place

section Tallies

variable {arena : Arena α} {weight : α → Nat} {place : Nat} {value : α}

theorem weigh_of_some (present : arena.get place = some value)
    : arena.weigh weight place = weight value := by
  simp [weigh, present]

theorem weigh_of_none (absent : arena.get place = none) : arena.weigh weight place = 0 := by
  simp [weigh, absent]

theorem tally_alloc : (arena.alloc value).tally weight = arena.tally weight + weight value := by
  simp only [tally, alloc_next, Finset.sum_range_succ]
  congr 1
  · apply Finset.sum_congr rfl
    intro place member
    have apart : place ≠ arena.next := by
      have := Finset.mem_range.mp member
      omega
    simp only [weigh, get_alloc_of_ne apart]
  · exact weigh_of_some (get_alloc_self arena value)

theorem tally_eq_zero
    (weightless : ∀ place value, arena.get place = some value → weight value = 0)
    : arena.tally weight = 0 := by
  apply Finset.sum_eq_zero
  intro place _
  cases present : arena.get place with
  | none => exact weigh_of_none present
  | some value => rw [weigh_of_some present, weightless place value present]

theorem tally_replace {changed : Arena α}
    (sameNext : changed.next = arena.next) (present : arena.get place = some value)
    (elsewhere : ∀ other, other ≠ place → changed.get other = arena.get other)
    : changed.tally weight + weight value = arena.tally weight + changed.weigh weight place := by
  have member : place ∈ Finset.range arena.next := Finset.mem_range.mpr (lt_next present)
  have rest : ∑ other ∈ (Finset.range arena.next).erase place, changed.weigh weight other
      = ∑ other ∈ (Finset.range arena.next).erase place, arena.weigh weight other := by
    apply Finset.sum_congr rfl
    intro other inRest
    simp only [weigh, elsewhere other (Finset.ne_of_mem_erase inRest)]
  simp only [tally, sameNext]
  rw [← Finset.add_sum_erase _ _ member, ← Finset.add_sum_erase _ (arena.weigh weight) member,
    rest, weigh_of_some present]
  omega

theorem tally_modify (present : arena.get place = some value) (change : α → α)
    : (arena.modify place change).tally weight + weight value
      = arena.tally weight + weight (change value) := by
  rw [tally_replace (modify_next arena place change) present
    (fun other apart => get_modify_of_ne apart)]
  rw [weigh_of_some (by rw [get_modify_self, present]; rfl)]

theorem tally_free (present : arena.get place = some value)
    : (arena.free place).tally weight + weight value = arena.tally weight := by
  rw [tally_replace (free_next arena place) present (fun other apart => get_free_of_ne apart)]
  rw [weigh_of_none (get_free_self arena place), Nat.add_zero]

theorem tally_modify_same (change : α → α)
    (same : ∀ value, arena.get place = some value → weight (change value) = weight value)
    : (arena.modify place change).tally weight = arena.tally weight := by
  cases present : arena.get place with
  | none =>
      simp only [tally, modify_next]
      apply Finset.sum_congr rfl
      intro other _
      by_cases here : other = place
      · subst here
        simp [weigh, present]
      · simp only [weigh, get_modify_of_ne here]
  | some value =>
      have exchanged : (arena.modify place change).tally weight + weight value
          = arena.tally weight + weight (change value) := tally_modify present change
      rw [same value present] at exchanged
      omega

/-- Different places weigh at most the whole tally. -/
theorem sum_weigh_le (places : List Nat) (nodup : places.Nodup)
    : (places.map (arena.weigh weight)).sum ≤ arena.tally weight := by
  induction places generalizing arena with
  | nil => exact Nat.zero_le _
  | cons place rest ih =>
      obtain ⟨apart, restNodup⟩ := List.nodup_cons.mp nodup
      rw [List.map_cons, List.sum_cons]
      have same : rest.map (arena.weigh weight) = rest.map ((arena.free place).weigh weight) := by
        apply List.map_congr_left
        intro other member
        have different : other ≠ place := by
          rintro rfl
          exact apart member
        simp only [weigh, get_free_of_ne different]
      have left : (rest.map ((arena.free place).weigh weight)).sum
          ≤ (arena.free place).tally weight := ih restNodup
      rw [← same] at left
      cases present : arena.get place with
      | none =>
          have unchanged : (arena.free place).tally weight = arena.tally weight := by
            simp only [tally, free_next]
            apply Finset.sum_congr rfl
            intro other _
            by_cases here : other = place
            · subst here
              simp [weigh, present]
            · simp only [weigh, get_free_of_ne here]
          rw [weigh_of_none present]
          omega
      | some value =>
          have freed : (arena.free place).tally weight + weight value = arena.tally weight :=
            tally_free present
          rw [weigh_of_some present]
          omega

end Tallies

end Arena
