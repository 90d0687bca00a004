import Mathlib.Data.List.Nodup
import Panuti.Library.IntrusiveList

/-! Singly linked rings: the link of the last node leads back to the first one, so any node of a
ring may stand for all of it.
-/

namespace IntrusiveList

/-- From `head` the links of `next` pass each of the nodes once, and come back. -/
structure Circle (next : Nat → Nat) (head : Nat) (rest : List Nat) : Prop where
  links : Segment next head (head :: rest) head
  once : (head :: rest).Nodup
  real : 0 ∉ head :: rest

namespace Circle

variable {next changed : Nat → Nat} {head node : Nat} {rest front back : List Nat}

theorem single (own : next head = head) (real : head ≠ 0) : Circle next head [] where
  links := ⟨rfl, own⟩
  once := List.nodup_singleton head
  real := fun member => real (List.mem_singleton.mp member).symm

theorem congr (circle : Circle next head rest)
    (same : ∀ node ∈ head :: rest, changed node = next node)
    : Circle changed head rest :=
  ⟨circle.links.congr same, circle.once, circle.real⟩

theorem insert (circle : Circle next head rest) (fresh : node ∉ head :: rest) (real : node ≠ 0)
    (first : changed head = node) (second : changed node = next head)
    (same : ∀ other ∈ rest, changed other = next other)
    : Circle changed head (node :: rest) where
  links := ⟨rfl, first, second ▸ circle.links.2.congr same⟩
  once := (List.Perm.swap node head rest).nodup_iff.mpr (List.nodup_cons.mpr ⟨fresh, circle.once⟩)
  real := fun member => by
    rcases List.mem_cons.mp member with zero | later
    · exact circle.real (zero ▸ List.mem_cons_self)
    · rcases List.mem_cons.mp later with zero | later
      · exact real zero.symm
      · exact circle.real (List.mem_cons_of_mem head later)

theorem unlink (circle : Circle next head (node :: rest)) (past : changed head = next node)
    (same : ∀ other ∈ rest, changed other = next other)
    : Circle changed head rest where
  links := ⟨rfl, past ▸ circle.links.2.2.congr same⟩
  once := (List.nodup_cons.mp ((List.Perm.swap node head rest).nodup_iff.mp circle.once)).2
  real := fun member => circle.real ((List.Perm.swap node head rest).mem_iff.mpr
    (List.mem_cons_of_mem node member))

theorem turned (head node : Nat) (front back : List Nat)
    : (node :: (back ++ head :: front)).Perm (head :: (front ++ node :: back)) := by
  have swapped : ((node :: back) ++ (head :: front)).Perm ((head :: front) ++ (node :: back)) :=
    List.perm_append_comm
  exact swapped

theorem turn (circle : Circle next head (front ++ node :: back))
    : Circle next node (back ++ head :: front) := by
  have perm := turned head node front back
  have halves : Segment next head ((head :: front) ++ (node :: back)) head := circle.links
  obtain ⟨middle, before, behind⟩ := segment_append.mp halves
  obtain rfl : middle = node := behind.1
  exact ⟨segment_append.mpr ⟨head, behind, before⟩, perm.nodup_iff.mpr circle.once,
    fun member => circle.real (perm.mem_iff.mp member)⟩

theorem turn_to (circle : Circle next head rest) (member : node ∈ head :: rest)
    : ∃ others, Circle next node others ∧ (node :: others).Perm (head :: rest) := by
  rcases List.mem_cons.mp member with rfl | later
  · exact ⟨rest, circle, .refl _⟩
  · obtain ⟨front, back, rfl⟩ := List.append_of_mem later
    exact ⟨back ++ head :: front, circle.turn, turned head node front back⟩

theorem alone (circle : Circle next head rest) (own : next head = head) : rest = [] := by
  cases rest with
  | nil => rfl
  | cons second rest =>
      have second' : next head = second := circle.links.2.1
      rw [own] at second'
      exact absurd (second' ▸ List.mem_cons_self) (List.nodup_cons.mp circle.once).1

end Circle

end IntrusiveList
