import Mathlib.Data.List.Count
import Panuti.Pcrutils.Text

/-! `comm`: the lines of two in streams in three columns. The merge classifies every line, but a
flag that is to leave one column out leaves out all of them.
-/

namespace Panuti.Pcrutils

/-- The flags that were given, `-1`, `-2` and `-3`. -/
structure CommFlags where
  one : Bool
  two : Bool
  three : Bool
deriving Repr, DecidableEq

/-- `col1`, `col2` and `col3`. -/
structure Columns where
  col1 : Bool
  col2 : Bool
  col3 : Bool
deriving Repr, DecidableEq

/-- The columns that are on once the flags have been read. -/
def commColumns (flags : CommFlags) : Columns :=
  let col1 := if flags.one then false else true
  let col2 := if flags.two then false else true
  let col3 := if flags.three then false else true
  if flags.one || flags.two || flags.three then
    ⟨if !flags.one then false else col1, if !flags.two then false else col2,
      if !flags.three then false else col3⟩
  else ⟨col1, col2, col3⟩

/-- The column of a line: only in the first in stream, only in the second, or in both. -/
inductive Column where
  | first
  | second
  | both
deriving Repr, DecidableEq

def Column.lead : Column → Bytes
  | .first => []
  | .second => [9]
  | .both => [9, 9]

def emitCol (column : Column) (line : Bytes) : Bytes := cstr column.lead ++ cstr line

/-- The loop of `comm`: what it writes for the lines that are left. -/
def commLoop (columns : Columns) : (a b : List Bytes) → Bytes
  | [], [] => []
  | [], b :: bs => (if columns.col2 then emitCol .second b else []) ++ commLoop columns [] bs
  | a :: as, [] => (if columns.col1 then emitCol .first a else []) ++ commLoop columns as []
  | a :: as, b :: bs =>
      let c := strcmp a b
      if c < 0 then
        (if columns.col1 then emitCol .first a else []) ++ commLoop columns as (b :: bs)
      else if 0 < c then
        (if columns.col2 then emitCol .second b else []) ++ commLoop columns (a :: as) bs
      else (if columns.col3 then emitCol .both a else []) ++ commLoop columns as bs
termination_by a b => a.length + b.length

/-- What `comm` writes, from what its reads hand over. -/
def comm (flags : CommFlags) (in0 in1 : List Bytes) : Bytes :=
  commLoop (commColumns flags) (pcrStreamLines in0) (pcrStreamLines in1)

-- The merge

/-- Lines sorted as `strcmp` orders them. -/
def Sorted (lines : List Bytes) : Prop := lines.Pairwise (fun one two => strcmp one two ≤ 0)

def Plain (lines : List Bytes) : Prop := ∀ line ∈ lines, 0 ∉ line

/-- An ordered merge of two lists of lines, each line in its column as often as it is to be. -/
structure Merges (a b : List Bytes) (records : List (Column × Bytes)) : Prop where
  ordered : Sorted (records.map Prod.snd)
  both : ∀ line, records.count (.both, line) = min (a.count line) (b.count line)
  first : ∀ line, records.count (.first, line)
    = a.count line - min (a.count line) (b.count line)
  second : ∀ line, records.count (.second, line)
    = b.count line - min (a.count line) (b.count line)

/-- The merge of the loop, whatever is printed of it. -/
def commRecords : (a b : List Bytes) → List (Column × Bytes)
  | [], [] => []
  | [], b :: bs => (.second, b) :: commRecords [] bs
  | a :: as, [] => (.first, a) :: commRecords as []
  | a :: as, b :: bs =>
      if strcmp a b < 0 then (.first, a) :: commRecords as (b :: bs)
      else if 0 < strcmp a b then (.second, b) :: commRecords (a :: as) bs
      else (.both, a) :: commRecords as bs
termination_by a b => a.length + b.length

def Columns.prints (columns : Columns) : Column → Bool
  | .first => columns.col1
  | .second => columns.col2
  | .both => columns.col3

theorem commLoop_eq (columns : Columns) (a b : List Bytes)
    : commLoop columns a b
      = ((commRecords a b).filter (fun entry => columns.prints entry.1)).flatMap
          (fun entry => emitCol entry.1 entry.2) := by
  have step (column : Column) (line : Bytes) (records : List (Column × Bytes))
      : (((column, line) :: records).filter (fun entry => columns.prints entry.1)).flatMap
            (fun entry => emitCol entry.1 entry.2)
        = (if columns.prints column then emitCol column line else [])
          ++ (records.filter (fun entry => columns.prints entry.1)).flatMap
            (fun entry => emitCol entry.1 entry.2) := by
    by_cases on : columns.prints column = true <;> simp [on]
  fun_induction commRecords a b with
  | case1 => rw [commLoop]; rfl
  | case2 b bs ih => rw [commLoop, ih, step, Columns.prints]
  | case3 a as ih => rw [commLoop, ih, step, Columns.prints]
  | case4 a as b bs less ih =>
      rw [step, ← ih]
      simp only [commLoop, if_pos less]
      rfl
  | case5 a as b bs notLess greater ih =>
      rw [step, ← ih]
      simp only [commLoop, if_neg notLess, if_pos greater]
      rfl
  | case6 a as b bs notLess notGreater ih =>
      rw [step, ← ih]
      simp only [commLoop, if_neg notLess, if_neg notGreater]
      rfl

variable {a b : List Bytes} {line : Bytes} {records : List (Column × Bytes)}

theorem commRecords_mem (among : line ∈ (commRecords a b).map Prod.snd) : line ∈ a ∨ line ∈ b := by
  fun_induction commRecords a b <;> grind

theorem Plain.tail {lines : List Bytes} (plain : Plain (line :: lines)) : Plain lines :=
  fun other among => plain other (List.mem_cons_of_mem _ among)

theorem Sorted.head_le {other : Bytes} {lines : List Bytes} (sorted : Sorted (line :: lines))
    (among : other ∈ line :: lines)
    : order line ≤ order other := by
  obtain rfl | later := List.mem_cons.mp among
  · exact le_refl _
  · exact strcmp_nonpos_iff.mp (List.rel_of_pairwise_cons sorted later)

theorem Sorted.count_eq_zero {one : Bytes} {lines : List Bytes} (sorted : Sorted (line :: lines))
    (less : order one < order line)
    : (line :: lines).count one = 0 :=
  List.count_eq_zero.mpr fun among => absurd less (not_lt.mpr (sorted.head_le among))

theorem count_line (line other : Bytes) (lines : List Bytes)
    : (line :: lines).count other = lines.count other + if line = other then 1 else 0 := by
  rw [List.count_cons]
  simp

theorem count_record (column here : Column) (line other : Bytes)
    (records : List (Column × Bytes))
    : ((column, line) :: records).count (here, other)
      = records.count (here, other) + if column = here ∧ line = other then 1 else 0 := by
  rw [List.count_cons]
  simp

theorem Sorted.record {a b : List Bytes} {line : Bytes}
    (sorted : Sorted ((commRecords a b).map Prod.snd)) (inA : ∀ other ∈ a, order line ≤ order other)
    (inB : ∀ other ∈ b, order line ≤ order other)
    : Sorted (line :: (commRecords a b).map Prod.snd) := by
  refine List.pairwise_cons.mpr ⟨fun other among => strcmp_nonpos_iff.mpr ?_, sorted⟩
  exact (commRecords_mem among).elim (inA other) (inB other)

/-- A merge with one line more, in one of the lists or in both. -/
theorem Merges.step {a b more moreToo : List Bytes} {records : List (Column × Bytes)}
    {column : Column} {line : Bytes} (merges : Merges a b records)
    (ordered : Sorted (line :: records.map Prod.snd))
    (countA : ∀ other, more.count other
      = a.count other + if column ≠ .second ∧ line = other then 1 else 0)
    (countB : ∀ other, moreToo.count other
      = b.count other + if column ≠ .first ∧ line = other then 1 else 0)
    (alone : column = .first → b.count line = 0) (aloneToo : column = .second → a.count line = 0)
    : Merges more moreToo ((column, line) :: records) := by
  have counts (other : Bytes)
      : ((column, line) :: records).count (.both, other)
          = min (more.count other) (moreToo.count other)
        ∧ ((column, line) :: records).count (.first, other)
          = more.count other - min (more.count other) (moreToo.count other)
        ∧ ((column, line) :: records).count (.second, other)
          = moreToo.count other - min (more.count other) (moreToo.count other) := by
    have both := merges.both other
    have first := merges.first other
    have second := merges.second other
    rw [count_record, count_record, count_record, countA, countB]
    by_cases same : line = other
    · subst same
      cases column with
      | first =>
          have none' := alone rfl
          simp
          omega
      | second =>
          have none' := aloneToo rfl
          simp
          omega
      | both =>
          simp
          omega
    · simp only [same, and_false, if_false]
      omega
  exact ⟨ordered, fun other => (counts other).1, fun other => (counts other).2.1,
    fun other => (counts other).2.2⟩

/-- The merge of sorted lines classifies each of them. -/
theorem commRecords_merges (sortedA : Sorted a) (sortedB : Sorted b) (plainA : Plain a)
    (plainB : Plain b)
    : Merges a b (commRecords a b) := by
  fun_induction commRecords a b with
  | case1 => exact ⟨.nil, by simp, by simp, by simp⟩
  | case2 b bs ih =>
      have merges := ih .nil sortedB.tail nofun plainB.tail
      have ordered := merges.ordered.record nofun
        fun other among => sortedB.head_le (List.mem_cons_of_mem _ among)
      exact merges.step ordered (fun other => by simp) (fun other => by simp [count_line]) nofun
        fun _ => List.count_nil
  | case3 a as ih =>
      have merges := ih sortedA.tail .nil plainA.tail nofun
      have ordered := merges.ordered.record
        (fun other among => sortedA.head_le (List.mem_cons_of_mem _ among)) nofun
      exact merges.step ordered (fun other => by simp [count_line]) (fun other => by simp)
        (fun _ => List.count_nil) nofun
  | case4 a as b bs less ih =>
      have less := strcmp_neg_iff.mp less
      have merges := ih sortedA.tail sortedB plainA.tail plainB
      have ordered := merges.ordered.record
        (fun other among => sortedA.head_le (List.mem_cons_of_mem _ among))
        (fun other among => le_trans (le_of_lt less) (sortedB.head_le among))
      exact merges.step ordered (fun other => by simp [count_line]) (fun other => by simp)
        (fun _ => sortedB.count_eq_zero less) nofun
  | case5 a as b bs notLess greater ih =>
      have greater := strcmp_pos_iff.mp greater
      have merges := ih sortedA sortedB.tail plainA plainB.tail
      have ordered := merges.ordered.record
        (fun other among => le_trans (le_of_lt greater) (sortedA.head_le among))
        (fun other among => sortedB.head_le (List.mem_cons_of_mem _ among))
      exact merges.step ordered (fun other => by simp) (fun other => by simp [count_line]) nofun
        fun _ => sortedA.count_eq_zero greater
  | case6 a as b bs notLess notGreater ih =>
      obtain rfl : a = b := by
        have equal := strcmp_eq_zero_iff.mp (by omega : strcmp a b = 0)
        rw [cstr_eq_self (plainA a List.mem_cons_self),
          cstr_eq_self (plainB b List.mem_cons_self)] at equal
        exact equal
      have merges := ih sortedA.tail sortedB.tail plainA.tail plainB.tail
      have ordered := merges.ordered.record
        (fun other among => sortedA.head_le (List.mem_cons_of_mem _ among))
        (fun other among => sortedB.head_le (List.mem_cons_of_mem _ among))
      exact merges.step ordered (fun other => by simp [count_line])
        (fun other => by simp [count_line]) nofun nofun

-- The flags

/-- What is to be printed of a merge: all but the columns that the flags name. -/
def CommFlags.shows (flags : CommFlags) : Column → Bool
  | .first => !flags.one
  | .second => !flags.two
  | .both => !flags.three

def CommFlags.printed (flags : CommFlags) (records : List (Column × Bytes)) : Bytes :=
  (records.filter (fun entry => flags.shows entry.1)).flatMap
    (fun entry => entry.1.lead ++ entry.2)

/-- The output is an ordered merge of the lines without the columns that the flags name. -/
def Classifies (flags : CommFlags) (a b : List Bytes) (output : Bytes) : Prop :=
  ∃ records, Merges a b records ∧ output = flags.printed records

def Column.lines (a b : List Bytes) : Column → Bytes → Prop
  | .first, line => b.count line < a.count line
  | .second, line => a.count line < b.count line
  | .both, line => line ∈ a ∧ line ∈ b

theorem Merges.mem_iff (merges : Merges a b records) (column : Column) (line : Bytes)
    : (column, line) ∈ records ↔ column.lines a b line := by
  rw [← List.count_pos_iff]
  cases column with
  | first =>
      rw [merges.first, Column.lines]
      omega
  | second =>
      rw [merges.second, Column.lines]
      omega
  | both =>
      rw [merges.both, Column.lines, ← List.count_pos_iff, ← List.count_pos_iff]
      omega

theorem commColumns_given {flags : CommFlags} (given : flags ≠ ⟨false, false, false⟩)
    : commColumns flags = ⟨false, false, false⟩ := by
  obtain ⟨one, two, three⟩ := flags
  revert given
  cases one <;> cases two <;> cases three <;> decide

theorem emitCol_plain (column : Column) (plain : 0 ∉ line)
    : emitCol column line = column.lead ++ line := by
  have lead : cstr column.lead = column.lead := by
    cases column <;> decide
  rw [emitCol, lead, cstr_eq_self plain]

theorem commLoop_printed {columns : Columns} (plainA : Plain a) (plainB : Plain b)
    : commLoop columns a b
      = ((commRecords a b).filter (fun entry => columns.prints entry.1)).flatMap
          (fun entry => entry.1.lead ++ entry.2) := by
  rw [commLoop_eq]
  refine List.flatMap_congr fun entry among => emitCol_plain entry.1 ?_
  have inside := commRecords_mem (List.mem_map_of_mem (List.mem_filter.mp among).1)
  exact inside.elim (plainA entry.2) (plainB entry.2)

theorem printed_eq_nil_iff {flags : CommFlags} (merges : Merges a b records)
    : flags.printed records = []
      ↔ ∀ column line, flags.shows column = true → column.lines a b line
          → column.lead ++ line = [] := by
  rw [CommFlags.printed, List.flatMap_eq_nil_iff]
  constructor
  · intro nothing column line shows lines
    have among := (merges.mem_iff column line).mpr lines
    exact nothing (column, line) (List.mem_filter.mpr ⟨among, shows⟩)
  · intro none' entry among
    obtain ⟨member, shows⟩ := List.mem_filter.mp among
    exact none' entry.1 entry.2 shows ((merges.mem_iff entry.1 entry.2).mp member)

/-- The loop looks at its lines as strings only. -/
theorem commLoop_strings (columns : Columns) (a b : List Bytes)
    : commLoop columns (a.map cstr) (b.map cstr) = commLoop columns a b := by
  have less_iff (one two : Bytes) : strcmp (cstr one) (cstr two) < 0 ↔ strcmp one two < 0 := by
    rw [strcmp_neg_iff, order_cstr, order_cstr, strcmp_neg_iff]
  have greater_iff (one two : Bytes) : 0 < strcmp (cstr one) (cstr two) ↔ 0 < strcmp one two := by
    rw [strcmp_pos_iff, order_cstr, order_cstr, strcmp_pos_iff]
  have emit (column : Column) (line : Bytes)
      : emitCol column (cstr line) = emitCol column line := by
    rw [emitCol, cstr_cstr, emitCol]
  fun_induction commLoop columns a b with
  | case1 => rw [List.map_nil, commLoop]
  | case2 b bs ih => rw [List.map_nil, List.map_cons, commLoop, emit, ← ih, List.map_nil]
  | case3 a as ih => rw [List.map_nil, List.map_cons, commLoop, emit, ← ih, List.map_nil]
  | case4 a as b bs c less ih =>
      have less : strcmp a b < 0 := less
      simp only [List.map_cons] at ih ⊢
      simp only [commLoop, less_iff, greater_iff, emit, if_pos less]
      rw [ih]
  | case5 a as b bs c notLess greater ih =>
      have notLess : ¬strcmp a b < 0 := notLess
      have greater : 0 < strcmp a b := greater
      simp only [List.map_cons] at ih ⊢
      simp only [commLoop, less_iff, greater_iff, emit, if_neg notLess, if_pos greater]
      rw [ih]
  | case6 a as b bs c notLess notGreater ih =>
      have notLess : ¬strcmp a b < 0 := notLess
      have notGreater : ¬0 < strcmp a b := notGreater
      simp only [List.map_cons]
      simp only [commLoop, less_iff, greater_iff, emit, if_neg notLess, if_neg notGreater]
      rw [ih]

theorem Sorted.strings {lines : List Bytes} (sorted : Sorted lines) : Sorted (lines.map cstr) := by
  refine List.pairwise_map.mpr (sorted.imp fun less => ?_)
  rwa [strcmp_nonpos_iff, order_cstr, order_cstr, ← strcmp_nonpos_iff]

theorem plain_strings (lines : List Bytes) : Plain (lines.map cstr) := by
  intro line among
  obtain ⟨whole, _, rfl⟩ := List.mem_map.mp among
  exact cstr_plain whole

/-- The lines of an in stream as the strings that they are: a zero byte ends a line. -/
def lineStrings (reads : List Bytes) : List Bytes := (pcrStreamLines reads).map cstr

/-- On sorted lines `comm` prints the merge exactly where no flag is given, or where nothing is to
be printed: where a column that the flags leave on has no line but an empty one in the first.
-/
theorem comm_classifies_iff (flags : CommFlags) {in0 in1 : List Bytes}
    (sorted0 : Sorted (pcrStreamLines in0)) (sorted1 : Sorted (pcrStreamLines in1))
    : Classifies flags (lineStrings in0) (lineStrings in1) (comm flags in0 in1)
      ↔ flags = ⟨false, false, false⟩
        ∨ ∀ column line, flags.shows column = true
            → column.lines (lineStrings in0) (lineStrings in1) line
            → column.lead ++ line = [] := by
  have plain0 : Plain (lineStrings in0) := plain_strings _
  have plain1 : Plain (lineStrings in1) := plain_strings _
  have merges := commRecords_merges sorted0.strings sorted1.strings plain0 plain1
  have written : comm flags in0 in1
      = commLoop (commColumns flags) (lineStrings in0) (lineStrings in1) :=
    (commLoop_strings _ _ _).symm
  by_cases none' : flags = ⟨false, false, false⟩
  · refine iff_of_true ⟨_, merges, ?_⟩ (.inl none')
    subst none'
    rw [written, commLoop_printed plain0 plain1, CommFlags.printed]
    congr 2
  · have nothing : comm flags in0 in1 = [] := by
      rw [written, commLoop_printed plain0 plain1, commColumns_given none']
      refine List.flatMap_eq_nil_iff.mpr fun entry among => ?_
      have off := (List.mem_filter.mp among).2
      cases shown : entry.1 <;> rw [shown] at off <;> cases off
    rw [nothing, or_iff_right none']
    constructor
    · rintro ⟨records, merged, printed⟩
      exact (printed_eq_nil_iff merged).mp printed.symm
    · exact fun none' => ⟨_, merges, ((printed_eq_nil_iff merges).mpr none').symm⟩

/-- Without flags, a line that only the first in stream has. -/
theorem comm_classifies_one
    : Classifies ⟨false, false, false⟩ (lineStrings [[97, 10]]) (lineStrings [])
        (comm ⟨false, false, false⟩ [[97, 10]] []) := by
  have sorted0 : Sorted (pcrStreamLines [[97, 10]]) := List.pairwise_singleton _ [97, 10]
  have sorted1 : Sorted (pcrStreamLines []) := .nil
  exact (comm_classifies_iff _ sorted0 sorted1).mpr (.inl rfl)

/-- Asked to leave out the lines of both, `comm` prints nothing of a line that is in the first in
stream only.
-/
theorem comm_three_prints_nothing
    : ¬Classifies ⟨false, false, true⟩ (lineStrings [[97, 10]]) (lineStrings [])
        (comm ⟨false, false, true⟩ [[97, 10]] []) := by
  rintro ⟨records, merges, printed⟩
  have nothing : comm ⟨false, false, true⟩ [[97, 10]] [] = [] := by
    simp [comm, pcrStreamLines, splitLines, NEWLINE, commLoop, commColumns]
  rw [nothing] at printed
  have shown := (printed_eq_nil_iff merges).mp printed.symm
  have alone : (lineStrings []).count [97, 10] < (lineStrings [[97, 10]]).count [97, 10] := by
    decide
  have absurd' : Column.first.lead ++ [97, 10] = [] := shown .first [97, 10] rfl alone
  cases absurd'

end Panuti.Pcrutils
