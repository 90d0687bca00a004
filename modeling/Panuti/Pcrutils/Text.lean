import Mathlib.Algebra.Order.BigOperators.Group.List
import Mathlib.Algebra.Order.Group.Nat
import Mathlib.Data.List.Lex
import Mathlib.Data.List.TakeWhile
import Mathlib.Tactic.Common

/-! What the utilities that work on lines share: strings that end at their first zero byte, how
they are compared, and the lines of an in stream.
-/

namespace Panuti.Pcrutils

abbrev Bytes := List UInt8

def NEWLINE : UInt8 := 10

/-- The string that begins a row of bytes: what `strlen` counts. -/
def cstr (bytes : Bytes) : Bytes := bytes.takeWhile (· != 0)

/-- `strcmp`. Behind a string there is a zero. -/
def strcmp : Bytes → Bytes → Int
  | [], [] => 0
  | [], b :: _ => 0 - b.toNat
  | a :: _, [] => a.toNat - 0
  | a :: one, b :: two => if a ≠ 0 ∧ a = b then strcmp one two else a.toNat - b.toNat

/-- The loop of `pcr_stream_lines` over the bytes that were read: a line goes up to its newline,
and what is left at the end is a line, too.
-/
def splitLines (line : Bytes) : Bytes → List Bytes
  | [] => if line = [] then [] else [line]
  | c :: rest =>
      if c = NEWLINE then (line ++ [c]) :: splitLines [] rest else splitLines (line ++ [c]) rest

/-- `pcr_stream_lines`, on what each read hands over. -/
def pcrStreamLines (reads : List Bytes) : List Bytes := splitLines [] reads.flatten

def body (line : Bytes) : Bytes :=
  if line.getLast? = some NEWLINE then line.dropLast else line

def ending (line : Bytes) : Bytes :=
  if line.getLast? = some NEWLINE then [NEWLINE] else []

-- Strings

variable {bytes one two line input : Bytes} {a : UInt8}

theorem cstr_eq_self (plain : 0 ∉ bytes) : cstr bytes = bytes := by
  refine List.takeWhile_eq_self_iff.mpr fun byte member => bne_iff_ne.mpr ?_
  rintro rfl
  exact plain member

theorem cstr_cons (plain : a ≠ 0) (bytes : Bytes) : cstr (a :: bytes) = a :: cstr bytes :=
  List.takeWhile_cons_of_pos (bne_iff_ne.mpr plain)

theorem cstr_append (zero : 0 ∈ bytes) : ∃ rest, bytes = cstr bytes ++ 0 :: rest := by
  induction bytes with
  | nil => cases zero
  | cons a bytes ih =>
      by_cases ends : a = 0
      · subst ends
        exact ⟨bytes, rfl⟩
      · obtain ⟨rest, goes⟩ := ih ((List.mem_cons.mp zero).resolve_left (Ne.symm ends))
        refine ⟨rest, ?_⟩
        rw [cstr_cons ends, List.cons_append, ← goes]

/-- What orders the strings: their bytes, as numbers. -/
def order (bytes : Bytes) : List Nat := (cstr bytes).map UInt8.toNat

theorem order_cons (plain : a ≠ 0) (bytes : Bytes)
    : order (a :: bytes) = a.toNat :: order bytes := by
  rw [order, cstr_cons plain, List.map_cons, order]

theorem order_zero (bytes : Bytes) : order (0 :: bytes) = [] := rfl

theorem order_eq_iff : order one = order two ↔ cstr one = cstr two :=
  (List.map_injective_iff.mpr fun _ _ same => UInt8.toNat_inj.mp same).eq_iff

theorem toNat_pos (plain : a ≠ 0) : 0 < a.toNat :=
  Nat.pos_of_ne_zero fun none' => plain (UInt8.toNat_inj.mp none')

/-- `strcmp` compares the strings as lists of numbers. -/
theorem strcmp_compare (one two : Bytes)
    : (strcmp one two < 0 ↔ order one < order two)
      ∧ (strcmp one two = 0 ↔ order one = order two) := by
  induction one generalizing two with
  | nil =>
      cases two with
      | nil => exact ⟨by simp [strcmp], by simp [strcmp]⟩
      | cons b two =>
          by_cases ends : b = 0
          · subst ends
            exact ⟨by simp [strcmp, order, cstr], by simp [strcmp, order, cstr]⟩
          · have plain := toNat_pos ends
            rw [order_cons ends, strcmp]
            exact ⟨by simp [order, cstr, plain], by simp [order, cstr]; omega⟩
  | cons a one ih =>
      cases two with
      | nil =>
          by_cases ends : a = 0
          · subst ends
            exact ⟨by simp [strcmp, order, cstr], by simp [strcmp, order, cstr]⟩
          · have plain := toNat_pos ends
            rw [order_cons ends, strcmp]
            exact ⟨by simp [order, cstr], by simp [order, cstr]; omega⟩
      | cons b two =>
          rw [strcmp]
          by_cases ends : a = 0
          · subst ends
            rw [if_neg fun both => both.1 rfl, order_zero]
            by_cases endsToo : b = 0
            · subst endsToo
              exact ⟨by simp [order_zero], by simp [order_zero]⟩
            · have plain := toNat_pos endsToo
              rw [order_cons endsToo]
              exact ⟨by simp [plain], by simp; omega⟩
          · have plain := toNat_pos ends
            rw [order_cons ends]
            by_cases same : a = b
            · subst same
              obtain ⟨less, equal⟩ := ih two
              rw [if_pos ⟨ends, rfl⟩, order_cons ends]
              exact ⟨by rw [less]; simp, by rw [equal]; simp⟩
            · have differ : a.toNat ≠ b.toNat := fun equal => same (UInt8.toNat_inj.mp equal)
              rw [if_neg fun both => same both.2]
              by_cases endsToo : b = 0
              · subst endsToo
                rw [order_zero]
                exact ⟨by simp, by simp; omega⟩
              · rw [order_cons endsToo, List.cons_lt_cons_iff]
                refine ⟨⟨fun less => .inl (by omega), ?_⟩, ?_⟩
                · rintro (less | ⟨equal, _⟩)
                  · omega
                  · exact absurd equal differ
                · refine ⟨fun equal => absurd (by omega) differ, fun equal => ?_⟩
                  exact absurd (List.cons.inj equal).1 differ

theorem cstr_plain (bytes : Bytes) : 0 ∉ cstr bytes := by
  intro among
  rw [cstr] at among
  have plain := List.mem_takeWhile_imp among
  exact bne_iff_ne.mp plain rfl

theorem cstr_cstr (bytes : Bytes) : cstr (cstr bytes) = cstr bytes :=
  cstr_eq_self (cstr_plain bytes)

theorem strcmp_neg_iff : strcmp one two < 0 ↔ order one < order two :=
  (strcmp_compare one two).1

theorem strcmp_eq_zero_iff : strcmp one two = 0 ↔ cstr one = cstr two :=
  (strcmp_compare one two).2.trans order_eq_iff

theorem strcmp_nonpos_iff : strcmp one two ≤ 0 ↔ order one ≤ order two := by
  obtain ⟨less, equal⟩ := strcmp_compare one two
  have orders : order one ≤ order two ↔ order one < order two ∨ order one = order two :=
    le_iff_lt_or_eq
  rw [orders, ← less, ← equal]
  omega

theorem strcmp_pos_iff : 0 < strcmp one two ↔ order two < order one :=
  Int.not_le.symm.trans ((not_congr strcmp_nonpos_iff).trans not_le)

theorem order_cstr (bytes : Bytes) : order (cstr bytes) = order bytes := by
  rw [order, cstr_cstr, order]

-- Lines

theorem splitLines_dropLast {entry : Bytes} (inside : NEWLINE ∉ line)
    (among : entry ∈ splitLines line bytes)
    : NEWLINE ∉ entry.dropLast := by
  induction bytes generalizing line with
  | nil =>
      rw [splitLines] at among
      split at among
      next => cases among
      next =>
        obtain rfl := List.mem_singleton.mp among
        exact fun member => inside (List.dropLast_subset _ member)
  | cons c rest ih =>
      rw [splitLines] at among
      split at among
      next =>
        obtain rfl | later := List.mem_cons.mp among
        · rwa [List.dropLast_concat]
        · exact ih (List.not_mem_nil) later
      next other =>
        refine ih (fun member => ?_) among
        obtain before | here := List.mem_append.mp member
        · exact inside before
        · exact other (List.mem_singleton.mp here).symm

theorem splitLines_ended {entry : Bytes} (among : entry ∈ (splitLines line bytes).dropLast)
    : entry.getLast? = some NEWLINE := by
  induction bytes generalizing line with
  | nil =>
      rw [splitLines] at among
      split at among <;> cases among
  | cons c rest ih =>
      rw [splitLines] at among
      split at among
      next newline =>
        cases later : splitLines [] rest with
        | nil =>
            rw [later] at among
            cases among
        | cons head tail =>
            rw [later, List.dropLast_cons_cons] at among
            obtain rfl | inner := List.mem_cons.mp among
            · rw [newline, List.getLast?_concat]
            · exact ih (later ▸ inner)
      next => exact ih among

theorem line_ended (ended : line.getLast? = some NEWLINE) (inside : NEWLINE ∉ line.dropLast)
    : ∃ text, line = text ++ [NEWLINE] ∧ NEWLINE ∉ text := by
  obtain ⟨text, goes⟩ := List.getLast?_eq_some_iff.mp ended
  refine ⟨text, goes, ?_⟩
  rwa [goes, List.dropLast_concat] at inside

theorem line_open (open' : line.getLast? ≠ some NEWLINE) (inside : NEWLINE ∉ line.dropLast)
    : NEWLINE ∉ line := by
  intro member
  obtain rfl | ⟨text, last, rfl⟩ := List.eq_nil_or_concat' line
  · cases member
  · rw [List.dropLast_concat] at inside
    obtain before | here := List.mem_append.mp member
    · exact inside before
    · rw [List.getLast?_concat, ← List.mem_singleton.mp here] at open'
      exact open' rfl

theorem newline_not_mem_body (inside : NEWLINE ∉ line.dropLast) : NEWLINE ∉ body line := by
  rw [body]
  split
  next => exact inside
  next open' => exact line_open open' inside

theorem body_concat (text : Bytes) : body (text ++ [NEWLINE]) = text := by
  rw [body, if_pos List.getLast?_concat, List.dropLast_concat]

theorem ending_concat (text : Bytes) : ending (text ++ [NEWLINE]) = [NEWLINE] := by
  rw [ending, if_pos List.getLast?_concat]

theorem body_open (inside : NEWLINE ∉ line) : body line = line :=
  if_neg fun last => inside (List.mem_of_getLast? last)

theorem ending_open (inside : NEWLINE ∉ line) : ending line = [] :=
  if_neg fun last => inside (List.mem_of_getLast? last)

theorem splitLines_flatten (line bytes : Bytes)
    : (splitLines line bytes).flatten = line ++ bytes := by
  induction bytes generalizing line with
  | nil =>
      rw [splitLines, List.append_nil]
      split
      next empty => exact empty.symm
      next => exact List.flatten_singleton
  | cons c rest ih =>
      rw [splitLines]
      split
      next => rw [List.flatten_cons, ih, List.nil_append, List.append_assoc, List.singleton_append]
      next => rw [ih, List.append_assoc, List.singleton_append]

theorem splitLines_eq_nil_iff : splitLines [] input = [] ↔ input = [] := by
  refine ⟨fun none' => ?_, fun none' => by rw [none', splitLines, if_pos rfl]⟩
  rw [← List.nil_append input, ← splitLines_flatten, none', List.flatten_nil]

theorem lines_plain (plain : 0 ∉ input) : ∀ line ∈ splitLines [] input, 0 ∉ line := by
  intro line among zero
  rw [← List.nil_append input, ← splitLines_flatten] at plain
  exact plain (List.mem_flatten_of_mem among zero)

theorem line_cases (among : line ∈ splitLines [] input)
    : (∃ text, line = text ++ [NEWLINE] ∧ NEWLINE ∉ text) ∨ NEWLINE ∉ line := by
  have inside := splitLines_dropLast List.not_mem_nil among
  by_cases ended : line.getLast? = some NEWLINE
  · exact .inl (line_ended ended inside)
  · exact .inr (line_open ended inside)

theorem flatMap_measure {α : Type} {lines : List α} {f g : α → Bytes} (measure : Bytes → Nat)
    (append : ∀ one two, measure (one ++ two) = measure one + measure two)
    (same : lines.flatMap f = lines.flatMap g)
    (le : ∀ line ∈ lines, measure (f line) ≤ measure (g line))
    : ∀ line ∈ lines, measure (f line) = measure (g line) := by
  have sums (h : α → Bytes) (rows : List α)
      : measure (rows.flatMap h) = (rows.map fun line => measure (h line)).sum := by
    have zero : measure [] = 0 := by
      have twice := append [] []
      rw [List.append_nil] at twice
      omega
    induction rows with
    | nil => exact zero
    | cons row rows ih => rw [List.flatMap_cons, append, ih, List.map_cons, List.sum_cons]
  by_contra some'
  push Not at some'
  obtain ⟨line, among, differ⟩ := some'
  have less := List.sum_lt_sum _ _ le ⟨line, among, lt_of_le_of_ne (le line among) differ⟩
  rw [← sums, ← sums, same] at less
  exact lt_irrefl _ less

end Panuti.Pcrutils
