import Mathlib.Tactic.Common
import Mathlib.Data.List.Basic

/-! Singly linked lists threaded through their own nodes.
A link function gives the successor of every node and `0` stands for the null link, so
one list is described by its head, its nodes in order and the link its last node holds.
-/

namespace IntrusiveList

/-- From `head` the links of `next` visit exactly `nodes`, in order, and end at `tail`. -/
def Segment (next : Nat → Nat) : Nat → List Nat → Nat → Prop
  | head, [], tail => head = tail
  | head, node :: rest, tail => head = node ∧ Segment next (next node) rest tail

variable {next changed : Nat → Nat} {head tail : Nat} {nodes : List Nat}

@[simp] theorem segment_nil
    : Segment next head [] tail ↔ head = tail := Iff.rfl

@[simp] theorem segment_cons {node : Nat} {rest : List Nat}
    : Segment next head (node :: rest) tail
      ↔ head = node ∧ Segment next (next node) rest tail := Iff.rfl

theorem segment_append {front back : List Nat}
    : Segment next head (front ++ back) tail
      ↔ ∃ middle, Segment next head front middle ∧ Segment next middle back tail := by
  induction front generalizing head with
  | nil => simp
  | cons node rest ih => simp [ih, and_assoc]

theorem Segment.congr (segment : Segment next head nodes tail)
    (same : ∀ node ∈ nodes, changed node = next node)
    : Segment changed head nodes tail := by
  induction nodes generalizing head with
  | nil => exact segment
  | cons node rest ih =>
      refine ⟨segment.1, ?_⟩
      rw [same node (by simp)]
      exact ih segment.2 (fun later member => same later (by simp [member]))

theorem Segment.redirect {last target : Nat} (segment : Segment next head (nodes ++ [last]) tail)
    (same : ∀ node ∈ nodes, changed node = next node) (link : changed last = target)
    : Segment changed head (nodes ++ [last]) target := by
  rw [segment_append] at segment ⊢
  obtain ⟨middle, front, reached, _⟩ := segment
  exact ⟨middle, front.congr same, reached, link⟩

theorem Segment.head_eq (segment : Segment next head nodes 0) : head = nodes.headD 0 := by
  cases nodes with
  | nil => exact segment
  | cons node rest => exact segment.1

/-- Walk from `current` until the list ends or `stop` holds, and return the last node
passed (`previous` when there is none) with the node reached.
-/
def seek (next : Nat → Nat) (stop : Nat → Bool) : Nat → Nat → Nat → Nat × Nat
  | 0, previous, current => (previous, current)
  | fuel + 1, previous, current =>
      if current ≠ 0 ∧ stop current = false then
        seek next stop fuel current (next current)
      else (previous, current)

theorem seek_eq {stop : Nat → Bool} {fuel previous current : Nat} (passed rest : List Nat)
    (segment : Segment next current (passed ++ rest) 0)
    (passes : ∀ node ∈ passed, node ≠ 0 ∧ stop node = false)
    (stops : ∀ node, rest.head? = some node → stop node = true) (enough : passed.length ≤ fuel)
    : seek next stop fuel previous current
      = (passed.getLast?.getD previous, rest.headD 0) := by
  induction passed generalizing fuel previous current with
  | nil =>
      have reached := segment.head_eq
      simp only [List.nil_append] at reached
      cases fuel with
      | zero => simp [seek, reached]
      | succ fuel =>
          have halted : ¬(current ≠ 0 ∧ stop current = false) := by
            rintro ⟨present, continues⟩
            cases rest with
            | nil => exact present reached
            | cons node later =>
                have stopped := stops node rfl
                rw [reached, List.headD_cons, stopped] at continues
                exact absurd continues (by simp)
          rw [seek, if_neg halted, ← reached, List.getLast?_nil, Option.getD_none]
  | cons node later ih =>
      obtain ⟨rfl, tail⟩ := segment
      have continues := passes current (by simp)
      cases fuel with
      | zero => simp at enough
      | succ fuel =>
          rw [seek, if_pos continues,
            ih tail (fun other member => passes other (by simp [member]))
              (by simpa using enough)]
          cases later with
          | nil => simp
          | cons second others =>
              rw [List.getLast?_cons_cons, List.getLast?_cons, Option.getD_some,
                Option.getD_some]

end IntrusiveList
