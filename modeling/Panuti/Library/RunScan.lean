import Mathlib.Tactic.Common

/-! The search for a run of free places, in one pass that counts the free places it has passed
since the last taken one. It finds the lowest run there is.
-/

namespace RunScan

/-- `count` free places from `start` on, between two bounds. A run has a first place. -/
structure Run (taken : Nat → Bool) (count low high start : Nat) : Prop where
  some : 0 < count
  low : low ≤ start
  high : start + count ≤ high
  free : ∀ place, start ≤ place → place < start + count → taken place = false

/-- What a pass comes to: the start of a run, or the free places passed last. -/
inductive Outcome where
  | found (start : Nat)
  | ends (length : Nat)
deriving Repr, DecidableEq

/-- A pass over `steps` places from `place` on, with `length` free ones just before. -/
def scan (taken : Nat → Bool) (count : Nat) : (steps place length : Nat) → Outcome
  | 0, _, length => .ends length
  | steps + 1, place, length =>
      if taken place then scan taken count steps (place + 1) 0
      else if length + 1 = count then .found (place + 1 - count)
      else scan taken count steps (place + 1) (length + 1)

/-- `length` free places stand before `place`, and the one before them is taken or none of the
places searched.
-/
structure Trailing (taken : Nat → Bool) (count low place length : Nat) : Prop where
  short : length < count
  inside : low + length ≤ place
  free : ∀ other, place - length ≤ other → other < place → taken other = false
  bounded : low + length = place ∨ taken (place - length - 1) = true

variable {taken : Nat → Bool} {count low high place length : Nat}

theorem Trailing.start (taken : Nat → Bool) (some : 0 < count) (low : Nat)
    : Trailing taken count low low 0 :=
  ⟨some, Nat.le_refl _, fun _ _ _ => by omega, Or.inl rfl⟩

theorem Trailing.broken (isTaken : taken place = true) (some : 0 < count) (inside : low ≤ place)
    : Trailing taken count low (place + 1) 0 :=
  ⟨some, by omega, fun _ _ _ => by omega, Or.inr isTaken⟩

theorem Trailing.free_next (trailing : Trailing taken count low place length)
    (isFree : taken place = false) (short : length + 1 < count)
    : Trailing taken count low (place + 1) (length + 1) where
  short := short
  inside := by
    have := trailing.inside
    omega
  free other after before := by
    by_cases last : other = place
    · rw [last, isFree]
    · exact trailing.free other (by omega) (by omega)
  bounded := by
    have inside := trailing.inside
    have same : place + 1 - (length + 1) - 1 = place - length - 1 := by omega
    rw [same]
    exact trailing.bounded.imp_left (by omega)

theorem Trailing.run_full (trailing : Trailing taken count low place length)
    (none : ∀ start, ¬Run taken count low place start)
    : ∀ start, Run taken count low (place + 1) start → length + 1 = count := by
  intro start run
  by_contra short
  have least := trailing.short
  have inside := trailing.inside
  have high := run.high
  have low' := run.low
  by_cases before : start + count ≤ place
  · exact none start ⟨run.some, run.low, before, run.free⟩
  · rcases trailing.bounded with all | isTaken
    · omega
    · have isFree := run.free (place - length - 1) (by omega) (by omega)
      rw [isFree] at isTaken
      cases isTaken

/-- A pass finds the lowest run, or there is none. -/
theorem scan_spec (steps : Nat) (trailing : Trailing taken count low place length)
    (none : ∀ start, ¬Run taken count low place start)
    : match scan taken count steps place length with
      | .found start =>
          Run taken count low (place + steps) start
          ∧ ∀ other, Run taken count low (place + steps) other → start ≤ other
      | .ends length =>
          Trailing taken count low (place + steps) length
          ∧ ∀ start, ¬Run taken count low (place + steps) start := by
  induction steps generalizing place length with
  | zero => exact ⟨trailing, none⟩
  | succ steps ih =>
      have next : place + (steps + 1) = place + 1 + steps := by omega
      rw [scan, next]
      by_cases isTaken : taken place = true
      · rw [if_pos isTaken]
        refine ih (Trailing.broken isTaken (Nat.zero_lt_of_lt trailing.short) ?_) ?_
        · have := trailing.inside
          omega
        · intro start run
          have high := run.high
          by_cases before : start + count ≤ place
          · exact none start ⟨run.some, run.low, before, run.free⟩
          · have isFree := run.free place (by have := run.some; omega) (by omega)
            rw [isFree] at isTaken
            cases isTaken
      · have isFree : taken place = false := by simpa using isTaken
        rw [if_neg isTaken]
        by_cases full : length + 1 = count
        · rw [if_pos full]
          have inside := trailing.inside
          constructor
          · refine ⟨by omega, by omega, by omega, ?_⟩
            intro other after before
            by_cases last : other = place
            · rw [last, isFree]
            · exact trailing.free other (by omega) (by omega)
          · intro other run
            by_contra lower
            exact none other ⟨run.some, run.low, by omega, run.free⟩
        · rw [if_neg full]
          have short := trailing.short
          exact ih (trailing.free_next isFree (by omega))
            (fun start run => full (trailing.run_full none start run))

theorem scan_first (taken : Nat → Bool) (some : 0 < count) (order : low ≤ high)
    : (∃ start, scan taken count (high - low) low 0 = .found start
        ∧ Run taken count low high start ∧ ∀ other, Run taken count low high other → start ≤ other)
      ∨ ∃ length, scan taken count (high - low) low 0 = .ends length
        ∧ ∀ other, ¬Run taken count low high other := by
  have spec := scan_spec (high - low) (Trailing.start taken some low) (fun start run => by
    have := run.low
    have := run.high
    have := run.some
    omega)
  rw [Nat.add_sub_cancel' order] at spec
  cases result : scan taken count (high - low) low 0 with
  | found start =>
      rw [result] at spec
      exact Or.inl ⟨start, rfl, spec⟩
  | ends length =>
      rw [result] at spec
      exact Or.inr ⟨length, rfl, spec.2⟩

theorem scan_add (first second : Nat)
    : scan taken count (first + second) place length
      = match scan taken count first place length with
        | .found start => .found start
        | .ends length => scan taken count second (place + first) length := by
  induction first generalizing place length with
  | zero => simp only [Nat.zero_add, Nat.add_zero, scan]
  | succ first ih =>
      have next : first + 1 + second = (first + second) + 1 := by omega
      have move : place + (first + 1) = place + 1 + first := by omega
      rw [next, scan, scan, move]
      by_cases isTaken : taken place = true
      · rw [if_pos isTaken, if_pos isTaken]
        exact ih
      · rw [if_neg isTaken, if_neg isTaken]
        by_cases full : length + 1 = count
        · rw [if_pos full, if_pos full]
        · rw [if_neg full, if_neg full]
          exact ih

end RunScan
