import Mathlib.Tactic.Common

/-! What a computation that can fail gives, in parts: one condition on its value and one on its
error, so that an argument about values need not look at the errors in between.
-/

namespace Panuti.Library

/-- The value of a computation satisfies `holds`, or its error satisfies `fails`. -/
def Settles {ε α : Type} (fails : ε → Prop) (holds : α → Prop) : Except ε α → Prop
  | .ok a => holds a
  | .error e => fails e

section

variable {ε α β : Type} {fails : ε → Prop} {holds : α → Prop} {result : Except ε α}
    {next : α → Except ε β} {after : β → Prop}

theorem Settles.bind (first : Settles fails holds result)
    (later : ∀ a, holds a → Settles fails after (next a))
    : Settles fails after (result >>= next) := by
  cases result with
  | error e => exact first
  | ok a => exact later a first

theorem Settles.mono {failsToo : ε → Prop} {holdsToo : α → Prop}
    (settles : Settles fails holds result) (errors : ∀ e, fails e → failsToo e)
    (values : ∀ a, holds a → holdsToo a)
    : Settles failsToo holdsToo result := by
  cases result with
  | error e => exact errors e settles
  | ok a => exact values a settles

theorem settles_any (result : Except ε α) : Settles (fun _ => True) (fun _ => True) result := by
  cases result with
  | error e => trivial
  | ok a => trivial

theorem Settles.value (settles : Settles fails holds result) {a : α} (same : result = .ok a)
    : holds a := by
  subst same
  exact settles

theorem Settles.exists_value (settles : Settles fails holds result)
    (none : ∀ e, result = .error e → ¬ fails e)
    : ∃ a, result = .ok a ∧ holds a := by
  cases result with
  | error e => exact absurd settles (none e rfl)
  | ok a => exact ⟨a, rfl, settles⟩

theorem bind_eq_ok {b : β} (same : result >>= next = .ok b)
    : ∃ a, result = .ok a ∧ next a = .ok b := by
  cases result with
  | error e => cases same
  | ok a => exact ⟨a, rfl, same⟩

theorem Settles.bind_eq (first : Settles fails holds result)
    (later : ∀ a, result = .ok a → holds a → Settles fails after (next a))
    : Settles fails after (result >>= next) := by
  cases result with
  | error e => exact first
  | ok a => exact later a rfl first

theorem Settles.foldlM {σ : Type} {step : σ → α → Except ε σ} (done : List α → σ → Prop)
    {as : List α} {s : σ} (start : done [] s)
    (turn : ∀ before a s, a ∈ as → done before s
      → Settles fails (done (before ++ [a])) (step s a))
    : Settles fails (done as) (as.foldlM step s) := by
  suffices general : ∀ (rest before : List α) (s : σ), (∀ a ∈ rest, a ∈ as) → done before s
      → Settles fails (done (before ++ rest)) (rest.foldlM step s) from
    general as [] s (fun _ => id) start
  intro rest
  induction rest with
  | nil =>
      intro before s _ held
      rw [List.append_nil]
      exact held
  | cons a rest ih =>
      intro before s among held
      rw [List.foldlM_cons]
      apply (turn before a s (among a (List.mem_cons_self ..)) held).bind
      intro later held
      rw [List.append_cons]
      exact ih (before ++ [a]) later (fun b member => among b (List.mem_cons_of_mem _ member)) held

end

/-- A value of the first computation has one of the second to go with it. -/
def Repeats {ε α : Type} (related : α → α → Prop) (first again : Except ε α) : Prop :=
  ∀ a, first = .ok a → ∃ b, again = .ok b ∧ related a b

section

variable {ε α β : Type} {related : α → α → Prop} {first again : Except ε α}

theorem Repeats.ok {a b : α} (same : related a b)
    : Repeats related (.ok a : Except ε α) (.ok b) := by
  rintro _ ⟨⟩
  exact ⟨b, rfl, same⟩

theorem Repeats.error {e : ε} : Repeats related (.error e) again := nofun

theorem Repeats.bind {relatedToo : β → β → Prop} {next nextAgain : α → Except ε β}
    (repeats : Repeats related first again)
    (later : ∀ a b, related a b → Repeats relatedToo (next a) (nextAgain b))
    : Repeats relatedToo (first >>= next) (again >>= nextAgain) := by
  cases first with
  | error e => exact Repeats.error
  | ok a =>
      obtain ⟨b, rfl, same⟩ := repeats a rfl
      exact later a b same

end

end Panuti.Library
