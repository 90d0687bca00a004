import Mathlib.Data.List.Flatten
import Panuti.Pcrutils.Text

/-! `cut`: the chosen fields of every line. A line carries its newline in its last field, so the
newline goes where that field is not chosen.
-/

namespace Panuti.Pcrutils

/-- `cut_range_t`, a range of the field list. Fields are counted from 1. -/
structure CutRange where
  lo : Nat
  hi : Nat
deriving Repr, DecidableEq

def fieldSelected (ranges : List CutRange) (k : Nat) : Bool :=
  ranges.any fun range => range.lo ≤ k && k ≤ range.hi

/-- The loop of `cut_line`: what it puts together from a field on. -/
def cutLoop (delim : UInt8) (ranges : List CutRange) (field : Nat) (wantSep : Bool)
    (line : Bytes)
    : Bytes :=
  let sep (want : Bool) : Bytes := if want then [delim] else []
  let run := line.takeWhile (· != delim)
  let out := if fieldSelected ranges field then sep wantSep ++ run else []
  let wantSep := wantSep || fieldSelected ranges field
  match _rest : line.dropWhile (· != delim) with
  | [] => out
  | _ :: rest =>
      -- a delimiter right at the end leaves one empty field behind it
      let early := if rest = [] ∧ fieldSelected ranges (field + 1) then sep wantSep else []
      out ++ early ++ cutLoop delim ranges (field + 1) wantSep rest
termination_by line.length
decreasing_by
  have shorter := (List.dropWhile_suffix (l := line) (· != delim)).length_le
  rw [_rest, List.length_cons] at shorter
  omega

def cutLine (delim : UInt8) (ranges : List CutRange) (line : Bytes) : Bytes :=
  cutLoop delim ranges 1 false (cstr line)

/-- What `cut` writes, from what its reads hand over. -/
def cut (delim : UInt8) (ranges : List CutRange) (in0 : List Bytes) : Bytes :=
  (pcrStreamLines in0).flatMap (cutLine delim ranges)

-- Fields

/-- The chosen ones of some fields, the first of which has the number `k`. -/
def chosen (ranges : List CutRange) (k : Nat) : List Bytes → List Bytes
  | [] => []
  | field :: fields =>
      if fieldSelected ranges k then field :: chosen ranges (k + 1) fields
      else chosen ranges (k + 1) fields

theorem chosen_append (ranges : List CutRange) (k : Nat) (one two : List Bytes)
    : chosen ranges k (one ++ two) = chosen ranges k one ++ chosen ranges (k + one.length) two := by
  induction one generalizing k with
  | nil => rfl
  | cons field fields ih =>
      rw [List.cons_append, chosen, chosen, ih, List.length_cons,
        (by omega : k + 1 + fields.length = k + (fields.length + 1))]
      split <;> rfl

theorem chosen_concat (ranges : List CutRange) (k : Nat) (init : List Bytes) (last : Bytes)
    : chosen ranges k (init ++ [last])
      = chosen ranges k init ++ if fieldSelected ranges (k + init.length) then [last] else [] := by
  rw [chosen_append, chosen, chosen]

theorem chosen_sublist (ranges : List CutRange) (k : Nat) (fields : List Bytes)
    : (chosen ranges k fields).Sublist fields := by
  induction fields generalizing k with
  | nil => exact List.Sublist.slnil
  | cons field fields ih =>
      rw [chosen]
      split
      next => exact (ih (k + 1)).cons_cons field
      next => exact (ih (k + 1)).cons field

/-- Fields behind one another, the first of them set off as well if others came before it. -/
def joinFrom (delim : UInt8) : Bool → List Bytes → Bytes
  | _, [] => []
  | want, field :: fields => (if want then [delim] else []) ++ field ++ joinFrom delim true fields

theorem joinFrom_false (delim : UInt8) (fields : List Bytes)
    : joinFrom delim false fields = [delim].intercalate fields := by
  have behind (fields : List Bytes) (field : Bytes)
      : field ++ joinFrom delim true fields = [delim].intercalate (field :: fields) := by
    induction fields generalizing field with
    | nil => simp [joinFrom]
    | cons next fields ih =>
        rw [joinFrom, List.intercalate_cons_cons, ← ih]
        simp
  cases fields with
  | nil => rfl
  | cons field fields => exact behind fields field

theorem joinFrom_append (delim : UInt8) (want : Bool) (one two : List Bytes)
    : joinFrom delim want (one ++ two)
      = joinFrom delim want one ++ joinFrom delim (want || one != []) two := by
  induction one generalizing want with
  | nil => simp [joinFrom]
  | cons field fields ih =>
      have some' : (want || field :: fields != []) = true := by
        rw [bne_iff_ne.mpr (List.cons_ne_nil field fields), Bool.or_true]
      rw [List.cons_append, joinFrom, ih, joinFrom, some', Bool.true_or]
      simp

theorem joinFrom_append_eq_iff (delim : UInt8) (one two : List Bytes)
    : joinFrom delim false one = joinFrom delim false (one ++ two)
      ↔ two = [] ∨ one = [] ∧ two = [[]] := by
  rw [joinFrom_append, List.self_eq_append_right, Bool.false_or]
  cases two with
  | nil => simp [joinFrom]
  | cons field fields =>
      cases one with
      | nil =>
          cases fields with
          | nil => simp [joinFrom]
          | cons next fields => simp [joinFrom]
      | cons head tail => simp [joinFrom]

variable {delim byte : UInt8} {text last line : Bytes} {init lines : List Bytes}
    {ranges : List CutRange}

theorem not_mem_splitOn {field : Bytes} (among : field ∈ text.splitOn delim) : delim ∉ field := by
  induction text generalizing field with
  | nil =>
      obtain rfl := List.mem_singleton.mp (List.splitOn_nil delim ▸ among)
      exact List.not_mem_nil
  | cons c text ih =>
      rw [List.splitOn_cons_eq_if_modifyHead] at among
      split at among
      next =>
        obtain rfl | later := List.mem_cons.mp among
        · exact List.not_mem_nil
        · exact ih later
      next other =>
        obtain ⟨head, tail, fields⟩ := List.exists_cons_of_ne_nil (List.splitOn_ne_nil delim text)
        rw [fields, List.modifyHead_cons] at among
        obtain rfl | later := List.mem_cons.mp among
        · have plain := ih (fields ▸ List.mem_cons_self)
          have differ : delim ≠ c := fun same => other (beq_iff_eq.mpr same.symm)
          exact List.not_mem_cons_of_ne_of_not_mem differ plain
        · exact ih (fields ▸ List.mem_cons_of_mem _ later)

theorem splitOn_append {one two head : Bytes} {tail : List Bytes}
    (left : one.splitOn delim = init ++ [last]) (right : two.splitOn delim = head :: tail)
    : (one ++ two).splitOn delim = init ++ (last ++ head) :: tail := by
  induction one generalizing init last with
  | nil =>
      have single : [] ++ [[]] = init ++ [last] := left
      obtain ⟨none', empty⟩ := List.append_inj' single rfl
      obtain rfl := none'
      obtain rfl := (List.cons.inj empty).1
      exact right
  | cons c one ih =>
      rw [List.splitOn_cons_eq_if_modifyHead] at left
      rw [List.cons_append, List.splitOn_cons_eq_if_modifyHead]
      obtain ⟨start, final, fields⟩ :=
        (List.eq_nil_or_concat (one.splitOn delim)).resolve_left (List.splitOn_ne_nil delim one)
      rw [List.concat_eq_append] at fields
      rw [ih fields]
      rw [fields] at left
      split at left
      next delimiter =>
        rw [if_pos delimiter]
        obtain ⟨same, closes⟩ := @List.append_inj' _ ([] :: start) _ _ _ left rfl
        rw [← same, (List.cons.inj closes).1]
        rfl
      next other =>
        rw [if_neg other]
        cases start with
        | nil =>
            obtain ⟨same, closes⟩ := @List.append_inj' _ [] _ _ _ left rfl
            rw [← same, ← (List.cons.inj closes).1]
            rfl
        | cons field start =>
            obtain ⟨same, closes⟩ := @List.append_inj' _ ((c :: field) :: start) _ _ _ left rfl
            rw [← same, ← (List.cons.inj closes).1]
            rfl

-- The loop

theorem cutLoop_last (ranges : List CutRange) (field : Nat) (want : Bool) (plain : delim ∉ line)
    : cutLoop delim ranges field want line = joinFrom delim want (chosen ranges field [line]) := by
  have all (byte : UInt8) (member : byte ∈ line) : (byte != delim) = true :=
    bne_iff_ne.mpr fun same => plain (same ▸ member)
  have none' : line.dropWhile (· != delim) = [] := List.dropWhile_eq_nil_iff.mpr all
  rw [cutLoop.eq_def]
  simp only [List.takeWhile_eq_self_iff.mpr all, chosen]
  split
  next => split <;> simp [joinFrom]
  next found =>
    rw [none'] at found
    cases found

theorem cutLoop_field {run : Bytes} (ranges : List CutRange) (field : Nat) (want : Bool)
    (rest : Bytes) (plain : delim ∉ run)
    : cutLoop delim ranges field want (run ++ delim :: rest)
      = joinFrom delim want (chosen ranges field [run])
        ++ (if (rest = [] ∧ fieldSelected ranges (field + 1) = true)
              ∧ (want || fieldSelected ranges field) = true
            then [delim] else [])
        ++ cutLoop delim ranges (field + 1) (want || fieldSelected ranges field) rest := by
  have all (byte : UInt8) (member : byte ∈ run) : (byte != delim) = true :=
    bne_iff_ne.mpr fun same => plain (same ▸ member)
  have stops : (delim != delim) = false := bne_self_eq_false delim
  have taken : (run ++ delim :: rest).takeWhile (· != delim) = run := by
    rw [List.takeWhile_append_of_pos all, List.takeWhile_cons, stops]
    simp
  have left : (run ++ delim :: rest).dropWhile (· != delim) = delim :: rest := by
    rw [List.dropWhile_append_of_pos all, List.dropWhile_cons, stops]
    simp
  rw [cutLoop.eq_def]
  simp only [taken, chosen]
  split
  next found =>
    rw [left] at found
    cases found
  next found =>
    rw [left] at found
    obtain ⟨_, rfl⟩ := List.cons.inj found
    congr 2
    · split <;> simp [joinFrom]
    · by_cases early : rest = [] ∧ fieldSelected ranges (field + 1) = true
      · simp only [early, and_self, true_and, if_true]
      · rw [if_neg early, if_neg fun both => early both.1]

/-- The delimiter that is written twice: before an empty last field that the line ends with. -/
def doubled (delim : UInt8) (ranges : List CutRange) (k : Nat) (want : Bool) (init : List Bytes)
    (last : Bytes)
    : Bytes :=
  if init ≠ [] ∧ last = [] ∧ fieldSelected ranges (k + init.length)
      ∧ (want ∨ chosen ranges k init ≠ [])
  then [delim] else []

theorem joinFrom_chosen_cons (delim : UInt8) (ranges : List CutRange) (k : Nat) (want : Bool)
    (field : Bytes) (fields : List Bytes)
    : joinFrom delim want (chosen ranges k (field :: fields))
      = joinFrom delim want (chosen ranges k [field])
        ++ joinFrom delim (want || fieldSelected ranges k) (chosen ranges (k + 1) fields) := by
  have given : (chosen ranges k [field] != []) = fieldSelected ranges k := by
    rw [chosen]
    cases fieldSelected ranges k <;> rfl
  rw [← given, ← joinFrom_append, ← List.singleton_append, chosen_append]
  rfl

/-- What the loop writes for the fields of a line, by induction on them. -/
theorem cutLoop_fields (ranges : List CutRange) (k : Nat) (want : Bool)
    (plain : ∀ field ∈ init, delim ∉ field) (plainLast : delim ∉ last)
    : cutLoop delim ranges k want ([delim].intercalate (init ++ [last]))
      = joinFrom delim want (chosen ranges k (init ++ [last]))
        ++ doubled delim ranges k want init last := by
  induction init generalizing k want with
  | nil =>
      have once : doubled delim ranges k want [] last = [] := if_neg fun all => all.1 rfl
      rw [List.nil_append, List.intercalate_singleton, cutLoop_last ranges k want plainLast, once,
        List.append_nil]
  | cons field init ih =>
      have some' : init ++ [last] ≠ [] :=
        List.append_ne_nil_of_right_ne_nil _ (List.cons_ne_nil _ _)
      rw [List.cons_append, List.intercalate_cons_of_ne_nil some', List.append_assoc,
        List.singleton_append, cutLoop_field ranges k want _ (plain field List.mem_cons_self),
        ih (k + 1) _ fun other member => plain other (List.mem_cons_of_mem _ member)]
      rw [joinFrom_chosen_cons delim ranges k want field (init ++ [last])]
      generalize joined : joinFrom delim want (chosen ranges k [field]) = before
      have given : want = true ∨ chosen ranges k (field :: init) ≠ []
          ↔ (want || fieldSelected ranges k) = true ∨ chosen ranges (k + 1) init ≠ [] := by
        rw [chosen]
        cases fieldSelected ranges k <;> simp
      cases init with
      | nil =>
          -- here the delimiter of an empty last field goes before the one it gets in its turn
          have once : doubled delim ranges (k + 1) (want || fieldSelected ranges k) [] last = [] :=
            if_neg fun all => all.1 rfl
          rw [List.nil_append, List.intercalate_singleton, once, List.append_nil, doubled]
          simp only [given]
          by_cases early : (last = [] ∧ fieldSelected ranges (k + 1) = true)
              ∧ (want || fieldSelected ranges k) = true
          · obtain ⟨⟨empty, selected⟩, some''⟩ := early
            simp [empty, selected, some'', chosen, joinFrom]
          · rw [if_neg early, if_neg, List.append_nil, List.append_nil]
            rintro ⟨_, empty, selected, some'' | more⟩
            · exact early ⟨⟨empty, selected⟩, some''⟩
            · exact more rfl
      | cons next init =>
          have long : [delim].intercalate (next :: init ++ [last]) ≠ [] := by
            rw [List.cons_append, List.intercalate_cons_of_ne_nil
              (List.append_ne_nil_of_right_ne_nil _ (List.cons_ne_nil _ _))]
            simp
          have same
              : doubled delim ranges (k + 1) (want || fieldSelected ranges k) (next :: init) last
              = doubled delim ranges k want (field :: next :: init) last := by
            have count : k + 1 + (next :: init).length = k + (field :: next :: init).length := by
              rw [List.length_cons, List.length_cons, List.length_cons]
              omega
            unfold doubled
            simp only [given, count, ne_eq, reduceCtorEq, not_false_iff, true_and]
          rw [if_neg fun all => long all.1.1, same, List.append_nil, List.append_assoc]

theorem cutLine_eq {delim : UInt8} {line last : Bytes} {init : List Bytes}
    (ranges : List CutRange) (fields : (cstr line).splitOn delim = init ++ [last])
    : cutLine delim ranges line
      = joinFrom delim false (chosen ranges 1 (init ++ [last]))
        ++ doubled delim ranges 1 false init last := by
  have joined : [delim].intercalate (init ++ [last]) = cstr line := by
    rw [← fields, List.intercalate_splitOn]
  have plain (field : Bytes) (among : field ∈ init ++ [last]) : delim ∉ field :=
    not_mem_splitOn (fields ▸ among)
  rw [cutLine, ← joined]
  exact cutLoop_fields ranges 1 false
    (fun field among => plain field (List.mem_append_left _ among))
    (plain last (List.mem_append_right _ List.mem_cons_self))

theorem mem_joinFrom {want : Bool} {fields : List Bytes} (among : byte ∈ joinFrom delim want fields)
    : byte = delim ∨ ∃ field ∈ fields, byte ∈ field := by
  induction fields generalizing want with
  | nil => cases among
  | cons field fields ih =>
      rw [joinFrom] at among
      obtain front | later := List.mem_append.mp among
      · obtain sep | inside := List.mem_append.mp front
        · refine .inl ?_
          split at sep
          next => exact List.mem_singleton.mp sep
          next => cases sep
        · exact .inr ⟨field, List.mem_cons_self, inside⟩
      · refine (ih later).imp_right ?_
        rintro ⟨other, member, inside⟩
        exact ⟨other, List.mem_cons_of_mem _ member, inside⟩

theorem mem_joinFrom_of_mem {delim byte : UInt8} {want : Bool} {fields : List Bytes}
    {field : Bytes} (member : field ∈ fields) (inside : byte ∈ field)
    : byte ∈ joinFrom delim want fields := by
  induction fields generalizing want with
  | nil => cases member
  | cons other fields ih =>
      rw [joinFrom]
      obtain rfl | later := List.mem_cons.mp member
      · exact List.mem_append_left _ (List.mem_append_right _ inside)
      · exact List.mem_append_right _ (ih later)

theorem mem_of_mem_splitOn {field : Bytes} (among : field ∈ text.splitOn delim)
    (inside : byte ∈ field)
    : byte ∈ text := by
  rw [← @List.intercalate_splitOn _ text _ _ delim, ← joinFrom_false]
  exact mem_joinFrom_of_mem among inside

theorem mem_of_mem_cutLine (other : byte ≠ delim) (among : byte ∈ cutLine delim ranges line)
    : byte ∈ cstr line := by
  obtain ⟨init, last, fields⟩ :=
    (List.eq_nil_or_concat ((cstr line).splitOn delim)).resolve_left (List.splitOn_ne_nil delim _)
  rw [List.concat_eq_append] at fields
  rw [cutLine_eq ranges fields, ← fields] at among
  obtain joined | twice := List.mem_append.mp among
  · obtain ⟨field, member, inside⟩ := (mem_joinFrom joined).resolve_left other
    exact mem_of_mem_splitOn ((chosen_sublist ranges 1 _).subset member) inside
  · rw [doubled] at twice
    split at twice
    next => exact absurd (List.mem_singleton.mp twice) other
    next => cases twice

-- Lines

/-- The output line of a line: its chosen fields, joined, and the newline that it had. -/
def selectedLine (delim : UInt8) (ranges : List CutRange) (line : Bytes) : Bytes :=
  [delim].intercalate (chosen ranges 1 ((body line).splitOn delim)) ++ ending line

/-- An output with one output line for every line. -/
def Selects (delim : UInt8) (ranges : List CutRange) (lines : List Bytes) (output : Bytes)
    : Prop :=
  output = lines.flatMap (selectedLine delim ranges)

/-- How many fields of a line with a zero byte end before it. -/
def wholeFields (delim : UInt8) (line : Bytes) : Nat :=
  ((cstr line ++ [0]).splitOn delim).length - 1

/-- A line that `cut` writes as it should. With a newline, its last field is chosen, and the newline
ends up in that one; without, no empty last field is set off from another one. What is behind a
zero byte is not chosen, either, or there is nothing of it to be written.
-/
def CutKeeps (delim : UInt8) (ranges : List CutRange) (line : Bytes) : Prop :=
  if line.getLast? = some NEWLINE then
    delim ≠ NEWLINE ∧ 0 ∉ line ∧ fieldSelected ranges ((body line).splitOn delim).length
  else
    let fields := line.splitOn delim
    if 0 ∈ line then
      let whole := wholeFields delim line
      let later := chosen ranges (1 + whole) (fields.drop whole)
      later = [] ∨ chosen ranges 1 (fields.take whole) = [] ∧ later = [[]]
    else
      ¬(fields.getLast? = some [] ∧ fieldSelected ranges fields.length
        ∧ chosen ranges 1 fields.dropLast ≠ [])

theorem splitOn_concat (delim : UInt8) (text : Bytes)
    : ∃ init last, text.splitOn delim = init ++ [last] := by
  obtain ⟨init, last, fields⟩ :=
    (List.eq_nil_or_concat (text.splitOn delim)).resolve_left (List.splitOn_ne_nil delim _)
  exact ⟨init, last, fields.trans List.concat_eq_append⟩

theorem cutLine_plain (open' : line.getLast? ≠ some NEWLINE) (plain : 0 ∉ line)
    : cutLine delim ranges line = selectedLine delim ranges line
      ↔ CutKeeps delim ranges line := by
  obtain ⟨init, last, fields⟩ := splitOn_concat delim line
  have whole : (cstr line).splitOn delim = init ++ [last] := by
    rw [cstr_eq_self plain, fields]
  rw [cutLine_eq ranges whole, selectedLine, body, ending, CutKeeps, if_neg open', if_neg open',
    if_neg open', if_neg plain, fields, List.append_nil, ← joinFrom_false,
    List.append_right_eq_self,
    doubled, List.getLast?_concat, List.dropLast_concat, List.length_append]
  have order : 1 + init.length = init.length + [last].length := Nat.add_comm _ _
  have some' : init = [] → chosen ranges 1 init = [] := by
    rintro rfl
    rfl
  rw [order]
  simp only [ite_eq_right_iff, List.cons_ne_nil, imp_false, Option.some.injEq]
  refine not_congr ⟨?_, ?_⟩
  · rintro ⟨_, empty, selected, want | before⟩
    · cases want
    · exact ⟨empty, selected, before⟩
  · rintro ⟨empty, selected, before⟩
    exact ⟨fun none' => before (some' none'), empty, selected, .inr before⟩

theorem cutKeeps_zero {one two : List Bytes} (open' : line.getLast? ≠ some NEWLINE)
    (zero : 0 ∈ line) (fields : line.splitOn delim = one ++ two)
    (whole : wholeFields delim line = one.length)
    : CutKeeps delim ranges line
      ↔ chosen ranges (1 + one.length) two = []
        ∨ chosen ranges 1 one = [] ∧ chosen ranges (1 + one.length) two = [[]] := by
  rw [CutKeeps, if_neg open']
  simp only [if_pos zero, fields, whole, List.take_left, List.drop_left]

/-- A line without a newline, but with a zero byte: what is behind that byte is lost. -/
theorem cutLine_zero (open' : line.getLast? ≠ some NEWLINE) (zero : 0 ∈ line)
    : cutLine delim ranges line = selectedLine delim ranges line
      ↔ CutKeeps delim ranges line := by
  obtain ⟨rest, goes⟩ := cstr_append zero
  obtain ⟨init, last, fields⟩ := splitOn_concat delim (cstr line)
  have lost (one two : List Bytes) (fields : line.splitOn delim = one ++ two)
      (whole : wholeFields delim line = one.length)
      (written : cutLine delim ranges line = joinFrom delim false (chosen ranges 1 one)) :
      cutLine delim ranges line = selectedLine delim ranges line
        ↔ CutKeeps delim ranges line := by
    rw [cutKeeps_zero open' zero fields whole, written, selectedLine, body, ending, if_neg open',
      if_neg open', List.append_nil, ← joinFrom_false, fields, chosen_append,
      joinFrom_append_eq_iff]
  by_cases nul : delim = 0
  · -- the zero byte ends the first field
    subst nul
    have single : (cstr line).splitOn 0 = [cstr line] :=
      List.splitOn_eq_singleton (cstr_plain line)
    refine lost [cstr line] (rest.splitOn 0) ?_ ?_ ?_
    · conv_lhs => rw [goes]
      rw [List.splitOn_append_cons_self, single]
    · rw [wholeFields, List.splitOn_append_cons_self, single]
      rfl
    · rw [@cutLine_eq _ line _ [] ranges single, doubled, if_neg fun all => all.1 rfl,
        List.append_nil]
      rfl
  · -- the zero byte is inside of a field, which is lost if it is chosen
    have head : ∃ field tail, (0 :: rest).splitOn delim = (0 :: field) :: tail := by
      obtain ⟨field, tail, more⟩ := List.exists_cons_of_ne_nil (List.splitOn_ne_nil delim rest)
      refine ⟨field, tail, ?_⟩
      rw [List.splitOn_cons_eq_if_modifyHead, if_neg fun same => nul (beq_iff_eq.mp same).symm,
        more, List.modifyHead_cons]
    obtain ⟨field, tail, more⟩ := head
    have all : line.splitOn delim = init ++ (last ++ 0 :: field) :: tail := by
      conv_lhs => rw [goes]
      exact splitOn_append fields more
    have whole : wholeFields delim line = init.length := by
      have single : ([0] : Bytes).splitOn delim = [[0]] :=
        List.splitOn_eq_singleton fun member => nul (List.mem_singleton.mp member)
      rw [wholeFields, splitOn_append fields single, List.length_append]
      rfl
    by_cases selected : fieldSelected ranges (1 + init.length)
    · refine iff_of_false ?_ ?_
      · intro same
        have inside : 0 ∈ selectedLine delim ranges line := by
          rw [selectedLine, body, if_neg open', all, ← joinFrom_false, chosen_append, chosen,
            if_pos selected]
          refine List.mem_append_left _ (@mem_joinFrom_of_mem _ _ _ _ (last ++ 0 :: field) ?_ ?_)
          · exact List.mem_append_right _ List.mem_cons_self
          · exact List.mem_append_right _ List.mem_cons_self
        rw [← same] at inside
        exact cstr_plain line (mem_of_mem_cutLine (Ne.symm nul) inside)
      · rw [cutKeeps_zero open' zero all whole, chosen, if_pos selected]
        rintro (none' | ⟨_, single⟩)
        · cases none'
        · exact List.append_ne_nil_of_right_ne_nil last (List.cons_ne_nil 0 field)
            (List.cons.inj single).1
    · refine lost init _ all whole ?_
      rw [cutLine_eq ranges fields, doubled, if_neg fun all => selected all.2.2.1, List.append_nil,
        chosen_concat, if_neg selected, List.append_nil]

theorem splitOn_ended (other : delim ≠ NEWLINE) (plain : 0 ∉ text ++ [NEWLINE])
    (fields : text.splitOn delim = init ++ [last])
    : (cstr (text ++ [NEWLINE])).splitOn delim = init ++ [last ++ [NEWLINE]] := by
  have newline : [NEWLINE].splitOn delim = [[NEWLINE]] :=
    List.splitOn_eq_singleton fun member => other (List.mem_singleton.mp member)
  rw [cstr_eq_self plain]
  exact splitOn_append fields newline

theorem cstr_ended (zero : 0 ∈ text ++ [NEWLINE]) : cstr (text ++ [NEWLINE]) <+: text := by
  obtain ⟨rest, goes⟩ := cstr_append zero
  have shorter := congrArg List.dropLast goes
  rw [List.dropLast_concat, List.dropLast_append_of_ne_nil (List.cons_ne_nil 0 rest)] at shorter
  exact ⟨_, shorter.symm⟩

theorem cutLine_ended (keeps : CutKeeps delim ranges (text ++ [NEWLINE]))
    : cutLine delim ranges (text ++ [NEWLINE])
      = selectedLine delim ranges (text ++ [NEWLINE]) := by
  obtain ⟨init, last, fields⟩ := splitOn_concat delim text
  rw [CutKeeps, if_pos List.getLast?_concat, body_concat, fields, List.length_append,
    Nat.add_comm] at keeps
  obtain ⟨other, plain, selected⟩ := keeps
  have whole := splitOn_ended other plain fields
  have single : doubled delim ranges 1 false init (last ++ [NEWLINE]) = [] :=
    if_neg fun all => List.append_ne_nil_of_right_ne_nil last (List.cons_ne_nil _ _) all.2.1
  have selected : fieldSelected ranges (1 + init.length) := selected
  rw [cutLine_eq ranges whole, single, List.append_nil, selectedLine, body_concat, ending_concat,
    fields, ← joinFrom_false, chosen_concat, chosen_concat, if_pos selected, if_pos selected,
    joinFrom_append, joinFrom_append]
  simp [joinFrom]

theorem cutKeeps_of_newline (other : delim ≠ NEWLINE) (inside : NEWLINE ∉ text)
    (kept : NEWLINE ∈ cutLine delim ranges (text ++ [NEWLINE]))
    : CutKeeps delim ranges (text ++ [NEWLINE]) := by
  have plain : 0 ∉ text ++ [NEWLINE] :=
    fun zero => inside ((cstr_ended zero).subset (mem_of_mem_cutLine other.symm kept))
  obtain ⟨init, last, fields⟩ := splitOn_concat delim text
  have whole := splitOn_ended other plain fields
  rw [CutKeeps, if_pos List.getLast?_concat, body_concat, fields, List.length_append, Nat.add_comm]
  refine ⟨other, plain, ?_⟩
  by_contra unselected
  have unselected : ¬fieldSelected ranges (1 + init.length) = true := unselected
  rw [cutLine_eq ranges whole, doubled, if_neg fun all => unselected all.2.2.1, List.append_nil,
    chosen_concat, if_neg unselected, List.append_nil] at kept
  obtain ⟨field, member, newline⟩ := (mem_joinFrom kept).resolve_left other.symm
  refine inside (mem_of_mem_splitOn (fields ▸ List.mem_append_left _ ?_) newline)
  exact (chosen_sublist ranges 1 init).subset member

theorem count_joinFrom (want : Bool) (fields : List Bytes) (other : byte ≠ delim)
    : (joinFrom delim want fields).count byte = fields.flatten.count byte := by
  have none' : ([delim] : Bytes).count byte = 0 :=
    List.count_eq_zero.mpr fun member => other (List.mem_singleton.mp member)
  induction fields generalizing want with
  | nil => rfl
  | cons field fields ih =>
      rw [joinFrom, List.count_append, List.count_append, ih, List.flatten_cons, List.count_append]
      cases want
      · simp
      · simp [none']

theorem count_cutLine_le (ranges : List CutRange) (line : Bytes) (other : byte ≠ delim)
    : (cutLine delim ranges line).count byte ≤ line.count byte := by
  obtain ⟨init, last, fields⟩ := splitOn_concat delim (cstr line)
  have none' : (doubled delim ranges 1 false init last).count byte = 0 := by
    refine List.count_eq_zero.mpr fun member => ?_
    rw [doubled] at member
    split at member
    next => exact other (List.mem_singleton.mp member)
    next => cases member
  calc (cutLine delim ranges line).count byte
      = (chosen ranges 1 (init ++ [last])).flatten.count byte := by
        rw [cutLine_eq ranges fields, List.count_append, none', count_joinFrom _ _ other]
        rfl
    _ ≤ (init ++ [last]).flatten.count byte := (chosen_sublist ranges 1 _).flatten.count_le byte
    _ = (cstr line).count byte := by
        rw [← count_joinFrom false _ other, joinFrom_false, ← fields, List.intercalate_splitOn]
    _ ≤ line.count byte := (List.takeWhile_sublist _).count_le byte

-- A newline for a delimiter

theorem selectedLine_newline (ranges : List CutRange) (inside : NEWLINE ∉ body line)
    : selectedLine NEWLINE ranges line
      = (if fieldSelected ranges 1 then body line else []) ++ ending line := by
  rw [selectedLine, List.splitOn_eq_singleton inside, chosen, chosen]
  split <;> simp

theorem cutLine_newline (ranges : List CutRange) (inside : NEWLINE ∉ cstr line)
    : cutLine NEWLINE ranges line = if fieldSelected ranges 1 then cstr line else [] := by
  have single : (cstr line).splitOn NEWLINE = [] ++ [cstr line] :=
    List.splitOn_eq_singleton inside
  rw [cutLine_eq ranges single, doubled, if_neg fun all => all.1 rfl, List.nil_append, chosen,
    chosen]
  split <;> simp [joinFrom]

theorem cutLine_newline_ended (ranges : List CutRange) (plain : 0 ∉ text ++ [NEWLINE])
    (inside : NEWLINE ∉ text)
    : cutLine NEWLINE ranges (text ++ [NEWLINE])
      = (if fieldSelected ranges 1 then text else [])
        ++ if fieldSelected ranges 1 ∧ fieldSelected ranges 2 then [NEWLINE, NEWLINE] else [] := by
  have two : (cstr (text ++ [NEWLINE])).splitOn NEWLINE = [text] ++ [[]] := by
    rw [cstr_eq_self plain, List.splitOn_append_cons_self, List.splitOn_eq_singleton inside]
    rfl
  rw [cutLine_eq ranges two, doubled, List.singleton_append, chosen, chosen, chosen, chosen]
  cases fieldSelected ranges 1 <;> cases fieldSelected ranges 2 <;>
    simp [joinFrom, chosen]

theorem cutLine_newline_longer (both : fieldSelected ranges 1 ∧ fieldSelected ranges 2)
    (plain : 0 ∉ line) (inside : NEWLINE ∉ line.dropLast)
    : (cutLine NEWLINE ranges line).length
      = (selectedLine NEWLINE ranges line).length
        + if line.getLast? = some NEWLINE then 1 else 0 := by
  rw [selectedLine_newline ranges (newline_not_mem_body inside), if_pos both.1]
  by_cases ended : line.getLast? = some NEWLINE
  · obtain ⟨text, rfl, before⟩ := line_ended ended inside
    rw [cutLine_newline_ended ranges plain before, if_pos both.1, if_pos both, if_pos ended,
      body_concat, ending_concat, List.length_append, List.length_append]
    rfl
  · have whole : cstr line = line := cstr_eq_self plain
    rw [cutLine_newline ranges (whole.symm ▸ line_open ended inside), if_pos both.1, if_neg ended,
      body, ending, if_neg ended, if_neg ended, whole, List.append_nil, Nat.add_zero]

theorem cutLine_newline_shorter (both : ¬ (fieldSelected ranges 1 ∧ fieldSelected ranges 2))
    (inside : NEWLINE ∉ line.dropLast)
    : (cutLine NEWLINE ranges line).length
        + (if line.getLast? = some NEWLINE then 1 else 0)
      ≤ (selectedLine NEWLINE ranges line).length := by
  rw [selectedLine_newline ranges (newline_not_mem_body inside)]
  by_cases ended : line.getLast? = some NEWLINE
  · obtain ⟨text, rfl, before⟩ := line_ended ended inside
    rw [if_pos ended, body_concat, ending_concat]
    by_cases plain : 0 ∉ text ++ [NEWLINE]
    · rw [cutLine_newline_ended ranges plain before, if_neg both, List.append_nil,
        List.length_append]
      exact le_refl _
    · have cut := cstr_ended (not_not.mp plain)
      rw [cutLine_newline ranges (fun member => before (cut.subset member)), List.length_append]
      split
      next => exact Nat.add_le_add_right cut.length_le 1
      next => exact le_refl _
  · have string : NEWLINE ∉ cstr line :=
      fun member => line_open ended inside ((List.takeWhile_sublist _).subset member)
    rw [cutLine_newline ranges string, if_neg ended, body, ending, if_neg ended, if_neg ended,
      List.append_nil]
    split
    next => exact (List.takeWhile_sublist _).length_le
    next => exact le_refl _

theorem newline_plain (first : fieldSelected ranges 1)
    (inside : ∀ line ∈ lines, NEWLINE ∉ line.dropLast)
    (selects : Selects NEWLINE ranges lines (lines.flatMap (cutLine NEWLINE ranges)))
    : ∀ line ∈ lines, 0 ∉ line := by
  intro line among zero
  have zeroBody : 0 ∈ body line := by
    rw [body]
    split
    next ended =>
      obtain ⟨text, rfl, _⟩ := line_ended ended (inside line among)
      rw [List.dropLast_concat]
      exact (List.mem_append.mp zero).resolve_right (by decide)
    next => exact zero
  have wanted : 0 ∈ lines.flatMap (selectedLine NEWLINE ranges) := by
    refine List.mem_flatMap.mpr ⟨line, among, ?_⟩
    rw [selectedLine_newline ranges (newline_not_mem_body (inside line among)), if_pos first]
    exact List.mem_append_left _ zeroBody
  rw [← selects] at wanted
  obtain ⟨other, _, written⟩ := List.mem_flatMap.mp wanted
  exact cstr_plain other (mem_of_mem_cutLine (by decide) written)

theorem newline_open (inside : ∀ line ∈ lines, NEWLINE ∉ line.dropLast)
    (selects : Selects NEWLINE ranges lines (lines.flatMap (cutLine NEWLINE ranges)))
    : ∀ line ∈ lines, line.getLast? ≠ some NEWLINE := by
  intro line among ended
  by_cases both : fieldSelected ranges 1 ∧ fieldSelected ranges 2
  · have longer (line : Bytes) (among : line ∈ lines) :=
      cutLine_newline_longer both (newline_plain both.1 inside selects line among)
        (inside line among)
    have same := flatMap_measure List.length (fun _ _ => List.length_append) selects.symm
      fun line among => by
        rw [longer line among]
        exact Nat.le_add_right _ _
    have differ := longer line among
    rw [same line among, if_pos ended] at differ
    omega
  · have shorter (line : Bytes) (among : line ∈ lines) :=
      cutLine_newline_shorter both (inside line among)
    have same := flatMap_measure List.length (fun _ _ => List.length_append) selects
      fun line among => le_trans (Nat.le_add_right _ _) (shorter line among)
    have differ := shorter line among
    rw [same line among, if_pos ended] at differ
    omega

-- The output

theorem cutLine_open (open' : line.getLast? ≠ some NEWLINE)
    : cutLine delim ranges line = selectedLine delim ranges line
      ↔ CutKeeps delim ranges line := by
  by_cases zero : 0 ∈ line
  · exact cutLine_zero open' zero
  · exact cutLine_plain open' zero

theorem cutKeeps_of_selects (inside : ∀ line ∈ lines, NEWLINE ∉ line.dropLast)
    (ended : ∀ line ∈ lines.dropLast, line.getLast? = some NEWLINE)
    (selects : Selects delim ranges lines (lines.flatMap (cutLine delim ranges)))
    : ∀ line ∈ lines, CutKeeps delim ranges line := by
  have keeps (line : Bytes) (among : line ∈ lines) (newline : line.getLast? = some NEWLINE)
      : CutKeeps delim ranges line := by
    by_cases other : delim = NEWLINE
    · subst other
      exact absurd newline (newline_open inside selects line among)
    · have less (entry : Bytes) (member : entry ∈ lines)
          : (cutLine delim ranges entry).count NEWLINE
            ≤ (selectedLine delim ranges entry).count NEWLINE := by
        refine le_trans (count_cutLine_le ranges entry (Ne.symm other)) ?_
        by_cases newline : entry.getLast? = some NEWLINE
        · obtain ⟨text, rfl, before⟩ := line_ended newline (inside entry member)
          rw [selectedLine, ending_concat, List.count_append, List.count_append,
            List.count_eq_zero.mpr before]
          exact Nat.add_le_add_right (Nat.zero_le _) _
        · rw [List.count_eq_zero.mpr (line_open newline (inside entry member))]
          exact Nat.zero_le _
      have same := flatMap_measure (List.count NEWLINE) (fun _ _ => List.count_append) selects
        less line among
      obtain ⟨text, rfl, before⟩ := line_ended newline (inside line among)
      refine cutKeeps_of_newline other before (List.count_pos_iff.mp ?_)
      rw [same, selectedLine, ending_concat, List.count_append, List.count_singleton_self]
      exact Nat.succ_pos _
  obtain rfl | ⟨front, last, rfl⟩ := List.eq_nil_or_concat' lines
  · exact nofun
  · rw [List.dropLast_concat] at ended
    have kept (line : Bytes) (among : line ∈ front) : CutKeeps delim ranges line :=
      keeps line (List.mem_append_left _ among) (ended line among)
    have same : front.flatMap (cutLine delim ranges)
        = front.flatMap (selectedLine delim ranges) := by
      refine List.flatMap_congr fun line among => ?_
      obtain ⟨text, rfl⟩ := List.getLast?_eq_some_iff.mp (ended line among)
      exact cutLine_ended (kept _ among)
    rw [Selects, List.flatMap_append, List.flatMap_append, same, List.append_cancel_left_eq,
      List.flatMap_singleton, List.flatMap_singleton] at selects
    intro line among
    obtain before | here := List.mem_append.mp among
    · exact kept line before
    · obtain rfl := List.mem_singleton.mp here
      by_cases newline : line.getLast? = some NEWLINE
      · exact keeps line among newline
      · exact (cutLine_open newline).mp selects

/-- `cut` writes the chosen fields of every line exactly where it can keep each of the lines: where
the last field of a line with a newline is chosen, and an empty last field at the end of a text is
not chosen along with another one.
-/
theorem cut_selects_iff (delim : UInt8) (ranges : List CutRange) (in0 : List Bytes)
    : Selects delim ranges (pcrStreamLines in0) (cut delim ranges in0)
      ↔ ∀ line ∈ pcrStreamLines in0, CutKeeps delim ranges line := by
  constructor
  · exact cutKeeps_of_selects (fun _ => splitLines_dropLast List.not_mem_nil)
      fun _ => splitLines_ended
  · intro keeps
    refine List.flatMap_congr fun line among => ?_
    by_cases newline : line.getLast? = some NEWLINE
    · obtain ⟨text, rfl⟩ := List.getLast?_eq_some_iff.mp newline
      exact cutLine_ended (keeps _ among)
    · exact (cutLine_open newline).mpr (keeps line among)

/-- The first field of `a:b` is written without the newline of its line. -/
theorem cut_loses_newline
    : ¬Selects 58 [⟨1, 1⟩] (pcrStreamLines [[97, 58, 98, 10]])
        (cut 58 [⟨1, 1⟩] [[97, 58, 98, 10]]) := by
  unfold Selects
  decide +kernel

end Panuti.Pcrutils
