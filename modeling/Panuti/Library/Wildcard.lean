import Mathlib.Data.List.Infix
import Mathlib.Tactic.Common

/-! Patterns of stars and of tokens for one symbol each, and why a search for a match need only go
back to the last star: what an earlier star could still reach, the last one reaches as well.
-/

namespace Panuti.Library.Wildcard

variable {α : Type}

/-- A part of a pattern: any word, or one symbol that it accepts. -/
inductive Token (α : Type) where
  | star
  | one (accepts : α → Bool)

def Matches : List (Token α) → List α → Prop
  | [], word => word = []
  | .star :: tokens, word => ∃ front back, word = front ++ back ∧ Matches tokens back
  | .one accepts :: tokens, word =>
      ∃ a rest, word = a :: rest ∧ accepts a = true ∧ Matches tokens rest

def Starless (tokens : List (Token α)) : Prop := ∀ token ∈ tokens, token ≠ .star

-- Words of a pattern

variable {word : List α} {tokens front : List (Token α)} {accepts : α → Bool}

theorem Starless.split (starless : Starless front) (inside : Matches (front ++ tokens) word)
    : ∃ taken rest, word = taken ++ rest ∧ taken.length = front.length ∧ Matches tokens rest := by
  induction front generalizing word with
  | nil => exact ⟨[], word, rfl, rfl, inside⟩
  | cons token front ih =>
      cases token with
      | star => exact absurd rfl (starless _ (List.mem_cons_self ..))
      | one accepts =>
          rw [List.cons_append, Matches] at inside
          obtain ⟨a, after, rfl, -, inside⟩ := inside
          obtain ⟨taken, rest, rfl, long, inside⟩ :=
            ih (fun other member => starless other (List.mem_cons_of_mem _ member)) inside
          exact ⟨a :: taken, rest, rfl, congrArg Nat.succ long, inside⟩

-- Going back to a star

/-- A pattern matches what is left of a word when more of its front is skipped. -/
def Later (tokens : List (Token α)) (word : List α) : Prop :=
  ∃ back, back <:+ word ∧ back.length < word.length ∧ Matches tokens back

end Panuti.Library.Wildcard
