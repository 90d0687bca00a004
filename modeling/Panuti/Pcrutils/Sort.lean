import Panuti.Library.Quicksort
import Panuti.Pcrutils.Text

/-! `sort`: the lines of the in stream in the order of `strcmp`, or of the numbers that they begin
with. Numbers are compared as numbers, but with other lines as text, so that three lines can be in a
circle.
-/

namespace Panuti.Pcrutils

/-- `pcr_sort_ctx_t`. -/
structure SortCtx where
  reverse : Bool
  numeric : Bool
deriving Repr, DecidableEq

/-- `(LONG_MAX - 9) / 10`. -/
def LONG_TENTH : Nat := (2147483647 - 9) / 10

def isDigit (c : UInt8) : Bool := 48 ≤ c && c ≤ 57

/-- The loop of `pcr_numeric_prefix` over the digits. A number that may be too large is none. -/
def numericDigits (v : Nat) : Bytes → Option Nat
  | [] => some v
  | c :: s =>
      if isDigit c then
        if LONG_TENTH < v then none else numericDigits (v * 10 + (c.toNat - 48)) s
      else some v

def pcrNumericPrefix (s : Bytes) : Option Int :=
  let s := (cstr s).dropWhile (· == 32)
  let neg := s.head? == some 45
  let s := if neg then s.tail else s
  match s with
  | [] => none
  | c :: rest =>
      if isDigit c then
        (numericDigits 0 (c :: rest)).map fun v => if neg then -(v : Int) else v
      else none

def pcrStrCmp (ctx : SortCtx) (a b : Bytes) : Int :=
  let c :=
    if ctx.numeric then
      match pcrNumericPrefix a, pcrNumericPrefix b with
      | some av, some bv => if av < bv then -1 else if bv < av then 1 else strcmp a b
      | _, _ => strcmp a b
    else strcmp a b
  if ctx.reverse then -c else c

def pcrStrsQsort (ctx : SortCtx) (v : List Bytes) : List Bytes :=
  Quicksort.sort (fun a b => pcrStrCmp ctx a b < 0) v

def pcrStrsSort (v : List Bytes) (reverse numeric : Bool) : List Bytes :=
  pcrStrsQsort ⟨reverse, numeric⟩ v

-- The order

/-- The number of a line, where lines are compared by their numbers. -/
def lineNumber (numeric : Bool) (a : Bytes) : Option Int :=
  if numeric then pcrNumericPrefix a else none

/-- A line may go before another one, without regard to `-r`: by their numbers where both have one,
and as text where one has none.
-/
def MayPrecede (numeric : Bool) (a b : Bytes) : Prop :=
  match lineNumber numeric a, lineNumber numeric b with
  | some m, some n => m < n ∨ m = n ∧ order a ≤ order b
  | _, _ => order a ≤ order b

variable {numeric : Bool} {a b x y z : Bytes} {v sorted : List Bytes}

theorem lineNumber_congr (same : order a = order b)
    : lineNumber numeric a = lineNumber numeric b := by
  rw [lineNumber, lineNumber, pcrNumericPrefix, pcrNumericPrefix, order_eq_iff.mp same]

theorem compare_forward (numeric : Bool) (a b : Bytes)
    : (pcrStrCmp ⟨false, numeric⟩ a b ≤ 0 ↔ MayPrecede numeric a b)
      ∧ (0 ≤ pcrStrCmp ⟨false, numeric⟩ a b ↔ MayPrecede numeric b a) := by
  have text : (strcmp a b ≤ 0 ↔ order a ≤ order b) ∧ (0 ≤ strcmp a b ↔ order b ≤ order a) := by
    refine ⟨strcmp_nonpos_iff, ?_⟩
    rw [← Int.not_lt, strcmp_neg_iff, not_lt]
  cases numeric with
  | false => exact text
  | true =>
      cases left : pcrNumericPrefix a with
      | none => simpa [pcrStrCmp, MayPrecede, lineNumber, left] using text
      | some m =>
          cases right : pcrNumericPrefix b with
          | none => simpa [pcrStrCmp, MayPrecede, lineNumber, left, right] using text
          | some n =>
              obtain ⟨le, ge⟩ := text
              simp only [pcrStrCmp, MayPrecede, lineNumber, left, right, if_true,
                Bool.false_eq_true, if_false]
              by_cases less : m < n
              · rw [if_pos less]
                exact ⟨by omega, by omega⟩
              · by_cases greater : n < m
                · rw [if_neg less, if_pos greater]
                  exact ⟨by omega, by omega⟩
                · rw [if_neg less, if_neg greater, le, ge]
                  obtain rfl : m = n := by omega
                  exact ⟨by simp, by simp⟩

theorem compare_backward (numeric : Bool) (a b : Bytes)
    : pcrStrCmp ⟨true, numeric⟩ a b ≤ 0 ↔ MayPrecede numeric b a := by
  have negated : pcrStrCmp ⟨true, numeric⟩ a b = -pcrStrCmp ⟨false, numeric⟩ a b := rfl
  rw [negated, ← (compare_forward numeric a b).2]
  omega

theorem MayPrecede.total (numeric : Bool) (a b : Bytes)
    : MayPrecede numeric a b ∨ MayPrecede numeric b a := by
  obtain ⟨le, ge⟩ := compare_forward numeric a b
  rw [← le, ← ge]
  exact Int.le_total _ _

/-- Three lines in a circle: one has a smaller number than another, and as text the other is before
a line without a number, which is before the one.
-/
def Circle (x y z : Bytes) : Prop :=
  (∃ m n, pcrNumericPrefix x = some m ∧ pcrNumericPrefix y = some n ∧ m < n)
  ∧ pcrNumericPrefix z = none ∧ strcmp y z < 0 ∧ strcmp z x < 0

theorem Circle.not_precede (circle : Circle x y z)
    : ¬MayPrecede true y x ∧ ¬MayPrecede true z y ∧ ¬MayPrecede true x z := by
  obtain ⟨⟨m, n, left, right, less⟩, none', before, behind⟩ := circle
  rw [strcmp_neg_iff] at before behind
  simp only [MayPrecede, lineNumber, if_true, left, right, none', not_le]
  exact ⟨by omega, before, behind⟩

/-- Where no lines are in a circle, the order is transitive. -/
theorem MayPrecede.trans {c : Bytes}
    (straight : numeric = true → ∀ x ∈ v, ∀ y ∈ v, ∀ z ∈ v, ¬Circle x y z) (inA : a ∈ v)
    (inB : b ∈ v) (inC : c ∈ v) (one : MayPrecede numeric a b) (two : MayPrecede numeric b c)
    : MayPrecede numeric a c := by
  have circle {x y z : Bytes} {m n : Int} (inX : x ∈ v) (inY : y ∈ v) (inZ : z ∈ v)
      (left : lineNumber numeric x = some m) (right : lineNumber numeric y = some n) (less : m < n)
      (none' : lineNumber numeric z = none) (before : order y ≤ order z)
      (behind : order z ≤ order x)
      : False := by
    cases numeric with
    | false => cases left
    | true =>
        have differ (number : Bytes) (k : Int) (is : lineNumber true number = some k)
            : order number ≠ order z := by
          intro same
          rw [lineNumber_congr same, none'] at is
          cases is
        refine straight rfl x inX y inY z inZ ⟨⟨m, n, left, right, less⟩, none', ?_, ?_⟩
        · exact strcmp_neg_iff.mpr (lt_of_le_of_ne before (differ y n right))
        · exact strcmp_neg_iff.mpr (lt_of_le_of_ne behind (differ x m left).symm)
  unfold MayPrecede at one two ⊢
  cases isA : lineNumber numeric a with
  | none =>
      cases isB : lineNumber numeric b with
      | none =>
          simp only [isA, isB] at one two ⊢
          exact le_trans one two
      | some n =>
          cases isC : lineNumber numeric c with
          | none =>
              simp only [isA, isB, isC] at one two ⊢
              exact le_trans one two
          | some k =>
              simp only [isA, isB, isC] at one two ⊢
              obtain less | ⟨_, le⟩ := two
              · by_contra back
                exact circle inB inC inA isB isC less isA (le_of_lt (not_le.mp back)) one
              · exact le_trans one le
  | some m =>
      cases isB : lineNumber numeric b with
      | none =>
          cases isC : lineNumber numeric c with
          | none =>
              simp only [isA, isB, isC] at one two ⊢
              exact le_trans one two
          | some k =>
              simp only [isA, isB, isC] at one two ⊢
              by_contra back
              have less : k < m := by
                by_contra notLess
                refine back ?_
                by_cases equal : m = k
                · exact .inr ⟨equal, le_trans one two⟩
                · exact .inl (by omega)
              exact circle inC inA inB isC isA less isB one two
      | some n =>
          cases isC : lineNumber numeric c with
          | none =>
              simp only [isA, isB, isC] at one two ⊢
              obtain less | ⟨_, le⟩ := one
              · by_contra back
                exact circle inA inB inC isA isB less isC two (le_of_lt (not_le.mp back))
              · exact le_trans le two
          | some k =>
              simp only [isA, isB, isC] at one two ⊢
              obtain less | ⟨rfl, le⟩ := one
              · obtain less' | ⟨rfl, _⟩ := two
                · exact .inl (lt_trans less less')
                · exact .inl less
              · obtain less' | ⟨rfl, le'⟩ := two
                · exact .inl less'
                · exact .inr ⟨rfl, le_trans le le'⟩

-- The sort

/-- A sorted permutation: every element is in order with every later one. -/
def Sorts (ctx : SortCtx) (v sorted : List Bytes) : Prop :=
  sorted.Perm v ∧ sorted.Pairwise fun a b => pcrStrCmp ctx a b ≤ 0

/-- A comparison that is a total preorder on all strings. -/
def TotalPreorder (ctx : SortCtx) : Prop :=
  (∀ a b, pcrStrCmp ctx a b ≤ 0 ∨ pcrStrCmp ctx b a ≤ 0)
  ∧ ∀ a b c, pcrStrCmp ctx a b ≤ 0 → pcrStrCmp ctx b c ≤ 0 → pcrStrCmp ctx a c ≤ 0

theorem compare_iff (ctx : SortCtx) (a b : Bytes)
    : pcrStrCmp ctx a b ≤ 0
      ↔ if ctx.reverse then MayPrecede ctx.numeric b a else MayPrecede ctx.numeric a b := by
  obtain ⟨reverse, numeric⟩ := ctx
  cases reverse with
  | false => exact (compare_forward numeric a b).1
  | true => exact compare_backward numeric a b

theorem compare_total (ctx : SortCtx) (a b : Bytes)
    : pcrStrCmp ctx a b ≤ 0 ∨ pcrStrCmp ctx b a ≤ 0 := by
  rw [compare_iff, compare_iff]
  cases ctx.reverse with
  | false => exact MayPrecede.total ctx.numeric a b
  | true => exact MayPrecede.total ctx.numeric b a

theorem compare_flip (ctx : SortCtx) (a b : Bytes)
    : 0 ≤ pcrStrCmp ctx a b ↔ pcrStrCmp ctx b a ≤ 0 := by
  obtain ⟨reverse, numeric⟩ := ctx
  cases reverse with
  | false => exact (compare_forward numeric a b).2.trans (compare_forward numeric b a).1.symm
  | true =>
      have negated : pcrStrCmp ⟨true, numeric⟩ a b = -pcrStrCmp ⟨false, numeric⟩ a b := rfl
      rw [compare_backward, ← (compare_forward numeric a b).1, negated]
      omega

theorem compare_trans {ctx : SortCtx} {c : Bytes}
    (straight : ctx.numeric = true → ∀ x ∈ v, ∀ y ∈ v, ∀ z ∈ v, ¬Circle x y z) (inA : a ∈ v)
    (inB : b ∈ v) (inC : c ∈ v) (one : pcrStrCmp ctx a b ≤ 0) (two : pcrStrCmp ctx b c ≤ 0)
    : pcrStrCmp ctx a c ≤ 0 := by
  rw [compare_iff] at one two ⊢
  cases backward : ctx.reverse with
  | false =>
      simp only [backward, Bool.false_eq_true, if_false] at one two ⊢
      exact MayPrecede.trans straight inA inB inC one two
  | true =>
      simp only [backward, if_true] at one two ⊢
      exact MayPrecede.trans straight inC inB inA two one

theorem circle_not_sorted {le : Bytes → Bytes → Prop} (refl : ∀ a, le a a) (inX : x ∈ sorted)
    (inY : y ∈ sorted) (inZ : z ∈ sorted) (notYX : ¬le y x) (notZY : ¬le z y) (notXZ : ¬le x z)
    : ¬sorted.Pairwise le := by
  intro pairwise
  induction sorted with
  | nil => cases inX
  | cons a sorted ih =>
      obtain ⟨first, rest⟩ := List.pairwise_cons.mp pairwise
      have behind {b : Bytes} (among : b ∈ a :: sorted) (not' : ¬le a b) : b ∈ sorted := by
        obtain rfl | later := List.mem_cons.mp among
        · exact absurd (refl b) not'
        · exact later
      by_cases isX : x = a
      · subst isX
        exact notXZ (first z (behind inZ notXZ))
      · by_cases isY : y = a
        · subst isY
          exact notYX (first x (behind inX notYX))
        · by_cases isZ : z = a
          · subst isZ
            exact notZY (first y (behind inY notZY))
          · have tail {b : Bytes} (among : b ∈ a :: sorted) (other : b ≠ a) : b ∈ sorted :=
              (List.mem_cons.mp among).resolve_left other
            exact ih (tail inX isX) (tail inY isY) (tail inZ isZ) rest

theorem Circle.not_sorted {ctx : SortCtx} (numeric : ctx.numeric = true) (circle : Circle x y z)
    (inX : x ∈ sorted) (inY : y ∈ sorted) (inZ : z ∈ sorted)
    : ¬sorted.Pairwise fun a b => pcrStrCmp ctx a b ≤ 0 := by
  have refl (a : Bytes) : pcrStrCmp ctx a a ≤ 0 := (compare_total ctx a a).elim id id
  obtain ⟨notYX, notZY, notXZ⟩ := circle.not_precede
  cases backward : ctx.reverse with
  | false =>
      refine circle_not_sorted refl inX inY inZ ?_ ?_ ?_ <;>
        rwa [compare_iff, backward, numeric]
  | true =>
      refine circle_not_sorted refl inX inZ inY ?_ ?_ ?_ <;>
        rwa [compare_iff, backward, numeric]

theorem sorts_of_trans {reverse : Bool}
    (trans : ∀ a ∈ v, ∀ b ∈ v, ∀ c ∈ v, pcrStrCmp ⟨reverse, numeric⟩ a b ≤ 0
      → pcrStrCmp ⟨reverse, numeric⟩ b c ≤ 0 → pcrStrCmp ⟨reverse, numeric⟩ a c ≤ 0)
    : Sorts ⟨reverse, numeric⟩ v (pcrStrsSort v reverse numeric) := by
  refine ⟨Quicksort.sort_perm _ v, Quicksort.sort_pairwise ?_ ?_ trans⟩
  · exact fun a _ b _ less => le_of_lt (of_decide_eq_true less)
  · exact fun a _ b _ notLess =>
      (compare_flip _ a b).mp (Int.not_lt.mp (of_decide_eq_false notLess))

theorem circle_nine_ten : Circle [57] [32, 49, 48] [43] := by
  refine ⟨⟨9, 10, ?_, ?_, ?_⟩, ?_, ?_, ?_⟩ <;> decide +kernel

/-- The sort gives a sorted permutation exactly for the arrays without lines in a circle, and its
comparison is a total preorder only without `-n`.
-/
theorem sort_sorts_iff (reverse numeric : Bool)
    : (∀ v, Sorts ⟨reverse, numeric⟩ v (pcrStrsSort v reverse numeric)
        ↔ ¬(numeric = true ∧ ∃ x ∈ v, ∃ y ∈ v, ∃ z ∈ v, Circle x y z))
      ∧ (TotalPreorder ⟨reverse, numeric⟩ ↔ numeric = false) := by
  constructor
  · intro v
    constructor
    · rintro ⟨perm, pairwise⟩ ⟨is, x, inX, y, inY, z, inZ, circle⟩
      have inside {a : Bytes} (among : a ∈ v) : a ∈ pcrStrsSort v reverse numeric :=
        perm.mem_iff.mpr among
      exact circle.not_sorted is (inside inX) (inside inY) (inside inZ) pairwise
    · intro straight
      refine sorts_of_trans fun a inA b inB c inC => ?_
      exact compare_trans (fun is x inX y inY z inZ circle =>
        straight ⟨is, x, inX, y, inY, z, inZ, circle⟩) inA inB inC
  · constructor
    · rintro ⟨_, trans⟩
      by_contra is
      have sorted := sorts_of_trans (v := [[57], [32, 49, 48], [43]])
        fun a _ b _ c _ => trans a b c
      have inside {a : Bytes} (among : a ∈ [[57], [32, 49, 48], [43]]) :=
        sorted.1.mem_iff.mpr among
      exact circle_nine_ten.not_sorted (Bool.eq_true_of_not_eq_false is) (inside (by simp))
        (inside (by simp)) (inside (by simp)) sorted.2
    · rintro rfl
      refine ⟨compare_total _, fun a b c => ?_⟩
      exact compare_trans (v := [a, b, c]) (fun is => nomatch is) (by simp) (by simp) (by simp)

/-- With `-n`, a nine, a ten with a blank before it and a plus sign are not sorted. -/
theorem sort_circle
    : ¬Sorts ⟨false, true⟩ [[57], [32, 49, 48], [43]]
        (pcrStrsSort [[57], [32, 49, 48], [43]] false true) := by
  rintro ⟨perm, pairwise⟩
  have inside {a : Bytes} (among : a ∈ [[57], [32, 49, 48], [43]])
      : a ∈ pcrStrsSort [[57], [32, 49, 48], [43]] false true :=
    perm.mem_iff.mpr among
  exact circle_nine_ten.not_sorted rfl (inside (by simp)) (inside (by simp)) (inside (by simp))
    pairwise

end Panuti.Pcrutils
