import Mathlib.Data.List.Basic
import Mathlib.Tactic.Common

/-! Quicksort of an array in place: the last element is the pivot, and a pass over the others swaps
those less than the pivot to the front. The result is a permutation, and it is sorted where the
order is one on the elements of the array.
-/

namespace Quicksort

variable {α : Type}

def swap (v : List α) (i j : Nat) : List α :=
  match v[i]?, v[j]? with
  | some a, some b => (v.set i b).set j a
  | _, _ => v

/-- The pass over the elements before the pivot, from place `j` on, with `i` of them in front. -/
def partition (less : α → α → Bool) (pivot : Nat) (v : List α) (i j : Nat) : List α × Nat :=
  if j < pivot then
    match v[j]?, v[pivot]? with
    | some a, some p =>
        if less a p then partition less pivot (swap v i j) (i + 1) (j + 1)
        else partition less pivot v i (j + 1)
    | _, _ => (v, i)
  else (v, i)
termination_by pivot - j

/-- A row whose first element has gone to its end. -/
def rotated : List α → List α
  | [] => []
  | a :: row => row ++ [a]

theorem rotated_perm (row : List α) : (rotated row).Perm row := by
  cases row with
  | nil => exact .nil
  | cons a row => exact List.perm_append_comm

theorem swap_row (front row : List α) (a : α) (rest : List α)
    : swap (front ++ row ++ a :: rest) front.length (front.length + row.length)
      = front ++ a :: rotated row ++ rest := by
  cases row with
  | nil => simp [swap, rotated]
  | cons b row =>
      have first : (front ++ b :: row ++ a :: rest)[front.length]? = some b := by simp
      have second
          : (front ++ b :: row ++ a :: rest)[front.length + (b :: row).length]? = some a := by
        rw [List.getElem?_append_right (by simp)]
        simp
      rw [swap, first, second]
      simp [rotated]

/-- What the pass comes to: those less than the pivot, and behind them the others. -/
structure Parted (less : α → α → Bool) (p : α) (row low high : List α) : Prop where
  perm : (low ++ high).Perm row
  below : ∀ a ∈ low, less a p = true
  above : ∀ a ∈ high, less a p = false

/-- The pass over the rest of a row, by induction on what is left of it. -/
theorem partition_spec {less : α → α → Bool} {p : α} {low high : List α} (rest : List α)
    (isLess : ∀ a ∈ low, less a p = true) (notLess : ∀ a ∈ high, less a p = false)
    : ∃ low' high', Parted less p (low ++ high ++ rest) low' high'
      ∧ partition less (low.length + high.length + rest.length) (low ++ high ++ rest ++ [p])
          low.length (low.length + high.length)
        = (low' ++ high' ++ [p], low'.length) := by
  induction rest generalizing low high with
  | nil =>
      refine ⟨low, high, ⟨by rw [List.append_nil], isLess, notLess⟩, ?_⟩
      rw [partition, if_neg (by simp), List.append_nil]
  | cons a rest ih =>
      have here : (low ++ high ++ a :: rest ++ [p])[low.length + high.length]? = some a := by
        rw [List.append_assoc, List.getElem?_append_right (by simp)]
        simp
      have last : (low ++ high ++ a :: rest ++ [p])[low.length + high.length + (a :: rest).length]?
          = some p := by
        have size : (low ++ high ++ a :: rest).length
            = low.length + high.length + (a :: rest).length := by
          rw [List.length_append, List.length_append]
        rw [← size, List.getElem?_concat_length]
      rw [partition, if_pos (by simp), here, last]
      simp only
      cases compared : less a p with
      | true =>
          have isLess' : ∀ b ∈ low ++ [a], less b p = true := by
            intro b member
            obtain before | here := List.mem_append.mp member
            · exact isLess b before
            · rw [List.mem_singleton.mp here, compared]
          have notLess' : ∀ b ∈ rotated high, less b p = false :=
            fun b member => notLess b ((rotated_perm high).mem_iff.mp member)
          obtain ⟨low', high', parted, result⟩ := ih isLess' notLess'
          have moved : (low ++ [a] ++ rotated high ++ rest).Perm (low ++ high ++ a :: rest) := by
            have around : (a :: rotated high ++ rest).Perm (high ++ a :: rest) :=
              (((rotated_perm high).append_right rest).cons a).trans List.perm_middle.symm
            simpa using around.append_left low
          refine ⟨low', high', ⟨parted.perm.trans moved, parted.below, parted.above⟩, ?_⟩
          · have row := swap_row low high a (rest ++ [p])
            rw [if_pos rfl, List.append_assoc (low ++ high), List.cons_append, row]
            have sizes : (low ++ [a]).length = low.length + 1
                ∧ (rotated high).length = high.length :=
              ⟨List.length_append, (rotated_perm high).length_eq⟩
            rw [sizes.1, sizes.2] at result
            rw [← result, List.length_cons, Nat.add_right_comm low.length 1]
            congr 1
            · omega
            · simp
      | false =>
          have notLess' : ∀ b ∈ high ++ [a], less b p = false := by
            intro b member
            obtain before | here := List.mem_append.mp member
            · exact notLess b before
            · rw [List.mem_singleton.mp here, compared]
          obtain ⟨low', high', parted, result⟩ := ih isLess notLess'
          refine ⟨low', high', ⟨?_, parted.below, parted.above⟩, ?_⟩
          · have perm := parted.perm
            simpa using perm
          · rw [if_neg Bool.false_ne_true, ← result, List.length_append, List.length_cons]
            congr 1
            · simp; omega
            · simp

/-- The pass over all of an array, and the pivot then in its place. -/
def pass (less : α → α → Bool) (v : List α) : List α × Nat :=
  let parted := partition less (v.length - 1) v 0 0
  (swap parted.1 parted.2 (v.length - 1), parted.2)

theorem pass_spec (less : α → α → Bool) (init : List α) (p : α)
    : ∃ low high, Parted less p init low high
      ∧ pass less (init ++ [p]) = (low ++ p :: high, low.length) := by
  obtain ⟨low, high, parted, result⟩ := @partition_spec _ less _ [] [] init
    (fun _ member => absurd member List.not_mem_nil)
    fun _ (member : _ ∈ ([] : List α)) => absurd member List.not_mem_nil
  have start : partition less init.length (init ++ [p]) 0 0
      = (low ++ high ++ [p], low.length) := by
    simpa using result
  have size : init.length = low.length + high.length := by
    rw [← List.length_append, parted.perm.length_eq]
    rfl
  have last : (init ++ [p]).length - 1 = init.length := by simp
  refine ⟨low, rotated high, ⟨?_, parted.below, fun a member => ?_⟩, ?_⟩
  · exact ((rotated_perm high).append_left low).trans parted.perm
  · exact parted.above a ((rotated_perm high).mem_iff.mp member)
  · rw [pass, last, start]
    simp only
    rw [size, swap_row]
    simp

variable {v : List α}

theorem pass_bounds (less : α → α → Bool) (some' : v ≠ [])
    : (pass less v).1.length = v.length ∧ (pass less v).2 < v.length := by
  obtain ⟨init, p, rfl⟩ := (List.eq_nil_or_concat' v).resolve_left some'
  obtain ⟨low, high, parted, result⟩ := pass_spec less init p
  have size := parted.perm.length_eq
  rw [List.length_append] at size
  rw [result, List.length_append, List.length_cons, List.length_append, List.length_singleton]
  omega

/-- The sort: a pass, and then the parts on the two sides of the pivot. -/
def sort (less : α → α → Bool) (v : List α) : List α :=
  if v.length ≤ 1 then v
  else
    let passed := pass less v
    sort less (passed.1.take passed.2) ++ (passed.1.drop passed.2).take 1
      ++ sort less (passed.1.drop (passed.2 + 1))
termination_by v.length
decreasing_by
  all_goals
    rename_i many
    have some' : v ≠ [] := by
      rintro rfl
      exact many (Nat.zero_le 1)
    obtain ⟨size, inside⟩ := pass_bounds less some'
  · rw [List.length_take]
    omega
  · rw [List.length_drop]
    omega

theorem sort_step (less : α → α → Bool) (many : 1 < v.length)
    : ∃ p low high, (low ++ p :: high).Perm v
      ∧ (∀ a ∈ low, less a p = true) ∧ (∀ a ∈ high, less a p = false)
      ∧ sort less v = sort less low ++ p :: sort less high := by
  have some' : v ≠ [] := by
    rintro rfl
    cases many
  obtain ⟨init, p, rfl⟩ := (List.eq_nil_or_concat' v).resolve_left some'
  obtain ⟨low, high, parted, result⟩ := pass_spec less init p
  refine ⟨p, low, high, ?_, parted.below, parted.above, ?_⟩
  · have behind : (low ++ p :: high).Perm (low ++ high ++ [p]) := by
      rw [List.append_assoc]
      exact (List.perm_append_singleton p high).symm.append_left low
    exact behind.trans (parted.perm.append_right [p])
  · rw [sort, if_neg (Nat.not_le.mpr many)]
    simp only [result, List.take_left, List.drop_left]
    rw [← List.drop_drop, List.drop_left]
    simp

theorem sort_perm (less : α → α → Bool) (v : List α) : (sort less v).Perm v := by
  induction size : v.length using Nat.strongRecOn generalizing v with
  | ind n ih =>
      subst size
      by_cases many : 1 < v.length
      · obtain ⟨p, low, high, perm, _, _, result⟩ := sort_step less many
        have total := perm.length_eq
        rw [List.length_append, List.length_cons] at total
        rw [result]
        exact ((ih _ (by omega) low rfl).append ((ih _ (by omega) high rfl).cons p)).trans perm
      · rw [sort, if_pos (Nat.not_lt.mp many)]

theorem sort_pairwise {less : α → α → Bool} {le : α → α → Prop}
    (below : ∀ a ∈ v, ∀ b ∈ v, less a b = true → le a b)
    (above : ∀ a ∈ v, ∀ b ∈ v, less a b = false → le b a)
    (trans : ∀ a ∈ v, ∀ b ∈ v, ∀ c ∈ v, le a b → le b c → le a c)
    : (sort less v).Pairwise le := by
  induction size : v.length using Nat.strongRecOn generalizing v with
  | ind n ih =>
      subst size
      by_cases many : 1 < v.length
      · obtain ⟨p, low, high, perm, less', notLess, result⟩ := sort_step less many
        have total := perm.length_eq
        rw [List.length_append, List.length_cons] at total
        have inLow (a : α) (member : a ∈ low) : a ∈ v :=
          perm.mem_iff.mp (List.mem_append_left _ member)
        have inHigh (a : α) (member : a ∈ high) : a ∈ v :=
          perm.mem_iff.mp (List.mem_append_right _ (List.mem_cons_of_mem p member))
        have here : p ∈ v := perm.mem_iff.mp (List.mem_append_right _ List.mem_cons_self)
        have sortedLow : (sort less low).Pairwise le :=
          ih _ (by omega) (fun a ha b hb => below a (inLow a ha) b (inLow b hb))
            (fun a ha b hb => above a (inLow a ha) b (inLow b hb))
            (fun a ha b hb c hc => trans a (inLow a ha) b (inLow b hb) c (inLow c hc)) rfl
        have sortedHigh : (sort less high).Pairwise le :=
          ih _ (by omega) (fun a ha b hb => below a (inHigh a ha) b (inHigh b hb))
            (fun a ha b hb => above a (inHigh a ha) b (inHigh b hb))
            (fun a ha b hb c hc => trans a (inHigh a ha) b (inHigh b hb) c (inHigh c hc)) rfl
        have front (a : α) (member : a ∈ sort less low) : a ∈ v ∧ le a p := by
          have member := (sort_perm less low).mem_iff.mp member
          exact ⟨inLow a member, below a (inLow a member) p here (less' a member)⟩
        have back (a : α) (member : a ∈ sort less high) : a ∈ v ∧ le p a := by
          have member := (sort_perm less high).mem_iff.mp member
          exact ⟨inHigh a member, above a (inHigh a member) p here (notLess a member)⟩
        rw [result, List.pairwise_append, List.pairwise_cons]
        refine ⟨sortedLow, ⟨fun a member => (back a member).2, sortedHigh⟩, fun a ha b hb => ?_⟩
        obtain rfl | later := List.mem_cons.mp hb
        · exact (front a ha).2
        · exact trans a (front a ha).1 p here b (back b later).1 (front a ha).2 (back b later).2
      · rw [sort, if_pos (Nat.not_lt.mp many)]
        obtain _ | ⟨a, _ | ⟨b, more⟩⟩ := v
        · exact .nil
        · exact List.pairwise_singleton le a
        · exact absurd (by simp) many

end Quicksort
