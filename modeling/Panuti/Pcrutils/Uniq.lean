import Mathlib.Data.List.SplitBy
import Panuti.Pcrutils.Seq

/-! `uniq`: one line for each run of equal lines. Lines are compared with their newlines, so a last
line without one is never equal to the line in front of it.
-/

namespace Panuti.Pcrutils

open Decimal Panuti.Pcrutils.Seq

-- The utility

/-- `-c`, `-d` and `-u`. -/
structure UniqFlags where
  showCounts : Bool
  onlyDups : Bool
  onlyUnique : Bool
deriving Repr, DecidableEq

/-- What `main` writes for a run, by its first line and its length: `emit_counted` or the line. -/
def emitRun (flags : UniqFlags) (run : Bytes × Nat) : Bytes :=
  if flags.showCounts then pcrUformat run.2 10 ++ [32] ++ cstr run.1
  else if flags.onlyDups ∧ 1 < run.2 ∨ flags.onlyUnique ∧ run.2 = 1
    ∨ ¬flags.onlyDups ∧ ¬flags.onlyUnique then cstr run.1
  else []

/-- The loop of `main`: the run that has begun, by its first line and its length so far, and the
lines that are left.
-/
def uniqLoop (flags : UniqFlags) (line : Bytes) (length : Nat) : (lines : List Bytes) → Bytes
  | [] => emitRun flags (line, length)
  | next :: lines =>
      if strcmp next line = 0 then uniqLoop flags line (length + 1) lines
      else emitRun flags (line, length) ++ uniqLoop flags next 1 lines

/-- What `uniq` writes to every out stream, from what its reads hand over. -/
def uniq (flags : UniqFlags) (reads : List Bytes) : Bytes :=
  match pcrStreamLines reads with
  | [] => []
  | line :: lines => uniqLoop flags line 1 lines

-- Runs of equal lines

/-- A run by its first line and its length. -/
def counted (run : List Bytes) : Bytes × Nat := (run.headD [], run.length)

/-- The runs of lines that have the same key. -/
def runsBy (key : Bytes → Bytes) (lines : List Bytes) : List (Bytes × Nat) :=
  (lines.splitBy fun one two => key one == key two).map counted

/-- The runs that are kept: the longer ones with `-d`, those of a single line with `-u`. -/
def Keeps (flags : UniqFlags) (run : Bytes × Nat) : Prop :=
  (flags.onlyDups → 1 < run.2) ∧ (flags.onlyUnique → run.2 = 1)

instance (flags : UniqFlags) (run : Bytes × Nat) : Decidable (Keeps flags run) :=
  inferInstanceAs (Decidable (_ ∧ _))

def wantedRun (flags : UniqFlags) (run : Bytes × Nat) : Bytes :=
  if Keeps flags run then (if flags.showCounts then numeral run.2 ++ [32] else []) ++ run.1 else []

/-- One copy of the line for each run that is kept, with its length in front for `-c`. A line is
equal to the same one without its newline.
-/
def wantedUniq (flags : UniqFlags) (input : Bytes) : Bytes :=
  (runsBy body (splitLines [] input)).flatMap (wantedRun flags)

/-- The last line is the one before it without its newline. -/
def Torn (lines : List Bytes) : Prop :=
  ∃ front text, lines = front ++ [text ++ [NEWLINE], text]

/-- There the one before it is in a run of its own kind already. -/
def TornTwice (lines : List Bytes) : Prop :=
  ∃ front text, lines = front ++ [text ++ [NEWLINE], text ++ [NEWLINE], text]

/-- Where `uniq` writes what it should. -/
def UniqKeeps (flags : UniqFlags) (input : Bytes) : Prop :=
  let lines := splitLines [] input
  if flags.onlyDups ∧ flags.onlyUnique then lines = []
  else
    Torn lines ∧ flags.onlyDups ∧ ¬flags.showCounts ∧ TornTwice lines
      ∨ ¬Torn lines ∧ (flags.showCounts → ∀ run ∈ runsBy body lines, Keeps flags run)

/-- A line goes to the last run or begins a new one. -/
def addLine (key : Bytes → Bytes) (runs : List (Bytes × Nat)) (line : Bytes) : List (Bytes × Nat) :=
  match runs.getLast? with
  | none => [(line, 1)]
  | some (first, length) =>
      if key line = key first then runs.dropLast ++ [(first, length + 1)] else runs ++ [(line, 1)]

theorem addLine_concat (key : Bytes → Bytes) (runs : List (Bytes × Nat)) (first line : Bytes)
    (length : Nat)
    : addLine key (runs ++ [(first, length)]) line
      = runs ++ if key line = key first then [(first, length + 1)]
        else [(first, length), (line, 1)] := by
  rw [addLine, List.getLast?_concat]
  dsimp only
  split
  next => rw [List.dropLast_concat]
  next => rw [List.append_assoc, List.singleton_append]

theorem counted_concat {run : List Bytes} (some' : run ≠ []) (line : Bytes)
    : counted (run ++ [line]) = ((counted run).1, (counted run).2 + 1) := by
  obtain ⟨first, rest, rfl⟩ := List.exists_cons_of_ne_nil some'
  rw [counted, List.length_append]
  rfl

variable {run : Bytes × Nat} {key : Bytes → Bytes} {length : Nat} {lines front : List Bytes}
    {flags : UniqFlags} {runs : List (Bytes × Nat)} {input : Bytes}

theorem splitByLoop_counted {last first : Bytes} {group : List Bytes} (lines : List Bytes)
    (groups : List (List Bytes)) (begun : counted (last :: group).reverse = (first, length))
    (same : key last = key first)
    : (List.splitBy.loop (fun one two => key one == key two) lines last group groups).map counted
      = lines.foldl (addLine key) (groups.reverse.map counted ++ [(first, length)]) := by
  induction lines generalizing last first group length groups with
  | nil =>
      rw [List.splitBy.loop, List.reverse_cons, List.map_append, List.map_singleton, begun]
      rfl
  | cons line lines ih =>
      rw [List.splitBy.loop, List.foldl_cons, addLine_concat]
      by_cases keys : key line = key first
      · have equal : (key last == key line) = true := beq_iff_eq.mpr (same.trans keys.symm)
        have grows : counted (line :: last :: group).reverse = (first, length + 1) := by
          rw [List.reverse_cons, counted_concat (by simp), begun]
        rw [if_pos keys, equal]
        exact ih groups grows keys
      · have apart : (key last == key line) = false :=
          beq_eq_false_iff_ne.mpr fun equal => keys (equal.symm.trans same)
        rw [if_neg keys, apart]
        dsimp only
        have begins : counted [line].reverse = (line, 1) := rfl
        rw [ih ((last :: group).reverse :: groups) begins rfl, List.reverse_cons,
          List.map_append, List.map_singleton, begun, List.append_assoc]
        rfl

theorem runsBy_eq (key : Bytes → Bytes) (lines : List Bytes)
    : runsBy key lines = lines.foldl (addLine key) [] := by
  rw [runsBy]
  cases lines with
  | nil => rfl
  | cons line lines => exact splitByLoop_counted lines [] rfl rfl

theorem runsBy_concat (key : Bytes → Bytes) (lines : List Bytes) (line : Bytes)
    : runsBy key (lines ++ [line]) = addLine key (runsBy key lines) line := by
  rw [runsBy_eq, runsBy_eq, List.foldl_append, List.foldl_cons, List.foldl_nil]

theorem runsBy_mem (among : run ∈ runsBy key lines) : 0 < run.2 ∧ run.1 ∈ lines := by
  obtain ⟨group, member, rfl⟩ := List.mem_map.mp among
  obtain ⟨first, rest, rfl⟩ :=
    List.exists_cons_of_ne_nil (List.ne_nil_of_mem_splitBy member)
  refine ⟨Nat.succ_pos _, ?_⟩
  rw [← List.flatten_splitBy (fun one two => key one == key two) lines]
  exact List.mem_flatten_of_mem member List.mem_cons_self

theorem runsBy_last (front : List Bytes) (last : Bytes)
    : ∃ runs length, runsBy id (front ++ [last]) = runs ++ [(last, length)] ∧ 0 < length
      ∧ (1 < length ↔ front.getLast? = some last) := by
  induction front using List.reverseRecOn generalizing last with
  | nil => exact ⟨[], 1, rfl, Nat.one_pos, iff_of_false (Nat.lt_irrefl 1) nofun⟩
  | append_singleton front before ih =>
      obtain ⟨runs, length, whole, some', _⟩ := ih before
      rw [runsBy_concat, whole, addLine_concat, List.getLast?_concat]
      by_cases same : last = before
      · subst same
        rw [if_pos rfl]
        exact ⟨runs, length + 1, rfl, Nat.succ_pos _, iff_of_true (by omega) rfl⟩
      · rw [if_neg (show id last ≠ id before from same)]
        refine ⟨runs ++ [(before, length)], 1, by simp, Nat.one_pos, iff_of_false (by decide) ?_⟩
        exact fun equal => same (Option.some.inj equal).symm

theorem runsBy_ended {rows : List Bytes} (ended : ∀ row ∈ rows, Ended row)
    : runsBy body rows = runsBy id rows := by
  induction rows using List.reverseRecOn with
  | nil => rfl
  | append_singleton rows last ih =>
      have before := ih fun row among => ended row (List.mem_append_left _ among)
      rw [runsBy_concat, runsBy_concat, before]
      rcases List.eq_nil_or_concat' (runsBy id rows) with none' | ⟨runs, ⟨first, length⟩, whole⟩
      · rw [none']
        rfl
      · rw [whole, addLine_concat, addLine_concat]
        have among : first ∈ rows := (runsBy_mem (whole ▸ List.mem_concat_self)).2
        obtain ⟨text, rfl, _⟩ := ended first (List.mem_append_left _ among)
        obtain ⟨other, rfl, _⟩ := ended last List.mem_concat_self
        rw [body_concat, body_concat, id, id]
        simp only [List.append_cancel_right_eq]

-- What is written

theorem uniqLoop_eq {line : Bytes} (plain : ∀ other ∈ line :: lines, 0 ∉ other)
    (runs : List (Bytes × Nat))
    : (lines.foldl (addLine id) (runs ++ [(line, length)])).flatMap (emitRun flags)
      = runs.flatMap (emitRun flags) ++ uniqLoop flags line length lines := by
  induction lines generalizing line length runs with
  | nil => rw [List.foldl_nil, List.flatMap_append, List.flatMap_singleton, uniqLoop]
  | cons next lines ih =>
      obtain ⟨here, nextPlain, later⟩ :=
        List.forall_mem_cons.mp plain |>.imp_right List.forall_mem_cons.mp
      have equal : strcmp next line = 0 ↔ id next = id line := by
        rw [strcmp_eq_zero_iff, cstr_eq_self nextPlain, cstr_eq_self here, id, id]
      rw [List.foldl_cons, addLine_concat, uniqLoop]
      by_cases same : id next = id line
      · rw [if_pos same, if_pos (equal.mpr same)]
        exact ih (List.forall_mem_cons.mpr ⟨here, later⟩) runs
      · rw [if_neg same, if_neg (equal.not.mpr same)]
        have others : ∀ other ∈ next :: lines, 0 ∉ other :=
          List.forall_mem_cons.mpr ⟨nextPlain, later⟩
        have ends : runs ++ [(line, length), (next, 1)]
            = (runs ++ [(line, length)]) ++ [(next, 1)] := by
          rw [List.append_assoc, List.singleton_append]
        rw [ends, ih others, List.flatMap_append, List.flatMap_singleton, List.append_assoc]

theorem uniq_eq {reads : List Bytes} (plain : 0 ∉ reads.flatten)
    : uniq flags reads
      = (runsBy id (splitLines [] reads.flatten)).flatMap (emitRun flags) := by
  have lines := lines_plain plain
  rw [uniq, pcrStreamLines, runsBy_eq]
  cases whole : splitLines [] reads.flatten with
  | nil => rfl
  | cons line rest =>
      rw [whole] at lines
      exact (uniqLoop_eq lines []).symm

-- A run

/-- A run as there are: of lines with bytes, and none of them zero. -/
structure Proper (run : Bytes × Nat) : Prop where
  plain : 0 ∉ run.1
  some' : run.1 ≠ []
  positive : 0 < run.2

theorem emitRun_counts (proper : Proper run) (counts : flags.showCounts = true)
    : emitRun flags run = numeral run.2 ++ [32] ++ run.1 := by
  rw [emitRun, if_pos counts, pcrUformat_eq, cstr_eq_self proper.plain]

theorem emitRun_line (proper : Proper run) (counts : ¬flags.showCounts = true)
    : emitRun flags run
      = if flags.onlyDups ∧ 1 < run.2 ∨ flags.onlyUnique ∧ run.2 = 1
        ∨ ¬flags.onlyDups ∧ ¬flags.onlyUnique then run.1 else [] := by
  rw [emitRun, if_neg counts, cstr_eq_self proper.plain]

theorem Keeps.emitRun_eq (keeps : Keeps flags run) (proper : Proper run)
    : emitRun flags run = wantedRun flags run := by
  rw [wantedRun, if_pos keeps]
  by_cases counts : flags.showCounts = true
  · rw [emitRun_counts proper counts, if_pos counts]
  · have positive := proper.positive
    obtain ⟨dups, unique⟩ := keeps
    rw [emitRun_line proper counts, if_neg counts, List.nil_append]
    refine if_pos ?_
    by_cases d : flags.onlyDups = true
    · exact .inl ⟨d, dups d⟩
    · by_cases u : flags.onlyUnique = true
      · exact .inr (.inl ⟨u, unique u⟩)
      · exact .inr (.inr ⟨d, u⟩)

theorem emitRun_eq_iff (proper : Proper run)
    : emitRun flags run = wantedRun flags run
      ↔ ¬(flags.onlyDups ∧ flags.onlyUnique) ∧ (flags.showCounts → Keeps flags run) := by
  have positive := proper.positive
  by_cases keeps : Keeps flags run
  · refine iff_of_true (keeps.emitRun_eq proper) ⟨fun both => ?_, fun _ => keeps⟩
    have longer := keeps.1 both.1
    have single := keeps.2 both.2
    omega
  · rw [wantedRun, if_neg keeps]
    by_cases counts : flags.showCounts = true
    · rw [emitRun_counts proper counts]
      exact iff_of_false (by simp) fun both => keeps (both.2 counts)
    · have written : flags.onlyDups ∧ 1 < run.2 ∨ flags.onlyUnique ∧ run.2 = 1
          ∨ ¬flags.onlyDups ∧ ¬flags.onlyUnique ↔ flags.onlyDups ∧ flags.onlyUnique := by
        rw [Keeps] at keeps
        by_cases d : flags.onlyDups = true <;> by_cases u : flags.onlyUnique = true <;>
          simp only [d, u, true_implies, false_implies, true_and, and_true, false_and, false_or,
            or_false, not_true_eq_false, not_false_eq_true, and_self, or_self, iff_true,
            iff_false, Bool.false_eq_true] at keeps ⊢ <;> omega
      rw [emitRun_line proper counts, ite_eq_right_iff, written]
      refine ⟨fun none' => ⟨fun both => proper.some' (none' both), fun on => absurd on counts⟩, ?_⟩
      exact fun neither both => absurd both neither.1

theorem wantedRun_le (proper : Proper run)
    : (wantedRun flags run).length ≤ (emitRun flags run).length := by
  by_cases keeps : Keeps flags run
  · rw [keeps.emitRun_eq proper]
  · rw [wantedRun, if_neg keeps]
    exact Nat.zero_le _

theorem flatMap_emitRun_iff (proper : ∀ run ∈ runs, Proper run)
    : runs.flatMap (emitRun flags) = runs.flatMap (wantedRun flags)
      ↔ ∀ run ∈ runs, ¬(flags.onlyDups ∧ flags.onlyUnique)
        ∧ (flags.showCounts → Keeps flags run) := by
  constructor
  · intro same run among
    have long := flatMap_measure List.length (fun _ _ => List.length_append) same.symm
      (fun run among => wantedRun_le (proper run among)) run among
    refine (emitRun_eq_iff (proper run among)).mp ?_
    by_cases keeps : Keeps flags run
    · exact keeps.emitRun_eq (proper run among)
    · rw [wantedRun, if_neg keeps] at long ⊢
      exact List.length_eq_zero_iff.mp long.symm
  · intro each
    exact List.flatMap_congr fun run among =>
      (emitRun_eq_iff (proper run among)).mpr (each run among)

-- A torn line

theorem numeral_length_succ (n : Nat) : (numeral (n + 1)).length ≤ (numeral n).length + 1 := by
  obtain ⟨k, long⟩ := Nat.exists_eq_succ_of_ne_zero
    (List.length_pos_of_ne_nil (numeral_ne_nil n)).ne'
  have small := (numeral_length_le_iff n k).mp long.le
  rw [long]
  refine (numeral_length_le_iff (n + 1) (k + 1)).mpr ?_
  rw [Nat.pow_succ]
  omega

theorem torn_iff {text : Bytes} (one : ¬(flags.onlyDups ∧ flags.onlyUnique))
    (proper : ∀ run ∈ runs, Proper run) (here : Proper (text ++ [NEWLINE], length))
    (last : Proper (text, 1))
    : (runs ++ [(text ++ [NEWLINE], length), (text, 1)]).flatMap (emitRun flags)
        = (runs ++ [(text ++ [NEWLINE], length + 1)]).flatMap (wantedRun flags)
      ↔ flags.onlyDups ∧ ¬flags.showCounts ∧ 1 < length := by
  have positive : 0 < length := here.positive
  have some' : 0 < text.length := List.length_pos_of_ne_nil last.some'
  rw [List.flatMap_append, List.flatMap_append, List.flatMap_cons, List.flatMap_singleton,
    List.flatMap_singleton]
  by_cases counts : flags.showCounts = true
  · refine iff_of_false (fun same => ?_) fun both => both.2.1 counts
    have lengths := congrArg List.length same
    have before : (runs.flatMap (wantedRun flags)).length
        ≤ (runs.flatMap (emitRun flags)).length := by
      rw [List.length_flatMap, List.length_flatMap]
      exact List.sum_le_sum fun run among => wantedRun_le (proper run among)
    have most : (wantedRun flags (text ++ [NEWLINE], length + 1)).length
        ≤ (numeral length).length + 1 + 1 + (text.length + 1) := by
      have grows := numeral_length_succ length
      rw [wantedRun, if_pos counts]
      split
      next =>
          simp only [List.length_append, List.length_singleton]
          omega
      next => exact Nat.zero_le _
    rw [emitRun_counts here counts, emitRun_counts last counts] at lengths
    simp only [List.length_append, List.length_singleton] at lengths
    omega
  · have before : runs.flatMap (emitRun flags) = runs.flatMap (wantedRun flags) :=
      (flatMap_emitRun_iff proper).mpr fun _ _ => ⟨one, fun on => absurd on counts⟩
    have kept (many : ¬flags.onlyUnique = true) : Keeps flags (text ++ [NEWLINE], length + 1) :=
      ⟨fun _ => Nat.succ_lt_succ positive, fun unique => absurd unique many⟩
    rw [before, List.append_cancel_left_eq, emitRun_line here counts, emitRun_line last counts,
      wantedRun, if_neg counts, List.nil_append]
    by_cases u : flags.onlyUnique = true
    · have d : ¬flags.onlyDups = true := fun dups => one ⟨dups, u⟩
      have left : ¬Keeps flags (text ++ [NEWLINE], length + 1) := fun keeps =>
        positive.ne' (Nat.succ.inj (keeps.2 u))
      rw [if_neg left]
      simp [d, u, last.some']
    · rw [if_pos (kept u)]
      by_cases d : flags.onlyDups = true
      · by_cases twice : 1 < length <;> simp [d, u, counts, twice]
      · simp [d, u, last.some']

theorem lines_ended {last : Bytes} (lines : splitLines [] input = front ++ [last])
    : ∀ line ∈ front, Ended line := by
  intro line among
  have before : line ∈ (splitLines [] input).dropLast := by rwa [lines, List.dropLast_concat]
  have member : line ∈ splitLines [] input := List.dropLast_subset _ before
  exact line_ended (splitLines_ended before) (splitLines_dropLast List.not_mem_nil member)

theorem runsBy_whole (whole : ¬Torn (splitLines [] input))
    : runsBy id (splitLines [] input) = runsBy body (splitLines [] input) := by
  rcases List.eq_nil_or_concat' (splitLines [] input) with none' | ⟨front, last, lines⟩
  · rw [none']
    rfl
  · have ended := lines_ended lines
    have among : last ∈ splitLines [] input := lines ▸ List.mem_concat_self
    rw [lines, runsBy_concat, runsBy_concat, runsBy_ended ended]
    rcases List.eq_nil_or_concat' front with rfl | ⟨more, before, rfl⟩
    · rfl
    · obtain ⟨runs, length, runsBefore, _⟩ := runsBy_last more before
      obtain ⟨text, rfl, inside⟩ := ended before List.mem_concat_self
      rw [runsBefore, addLine_concat, addLine_concat, body_concat, id, id]
      rcases line_cases among with ⟨other, rfl, _⟩ | open'
      · rw [body_concat]
        simp only [List.append_cancel_right_eq]
      · have apart : last ≠ text ++ [NEWLINE] := fun same => open' (same ▸ List.mem_concat_self)
        have apartToo : body last ≠ text := by
          rw [body_open open']
          rintro rfl
          exact whole ⟨more, last, by rw [lines, List.append_assoc, List.singleton_append]⟩
        rw [if_neg apart, if_neg apartToo]

theorem splitLines_proper (key : Bytes → Bytes) (plain : 0 ∉ input)
    : ∀ run ∈ runsBy key (splitLines [] input), Proper run := by
  intro run among
  obtain ⟨positive, member⟩ := runsBy_mem among
  exact ⟨lines_plain plain _ member, line_ne_nil member, positive⟩

/-- The runs of lines with a torn one. -/
theorem runsBy_torn {text : Bytes}
    (lines : splitLines [] input = front ++ [text ++ [NEWLINE], text])
    : ∃ runs length,
        runsBy id (splitLines [] input) = runs ++ [(text ++ [NEWLINE], length), (text, 1)]
        ∧ runsBy body (splitLines [] input) = runs ++ [(text ++ [NEWLINE], length + 1)]
        ∧ (1 < length ↔ TornTwice (splitLines [] input)) := by
  have split : splitLines [] input = (front ++ [text ++ [NEWLINE]]) ++ [text] := by
    rw [lines, List.append_assoc, List.singleton_append]
  have ended := lines_ended split
  obtain ⟨other, same, inside⟩ := ended _ List.mem_concat_self
  obtain rfl := List.append_cancel_right same
  obtain ⟨runs, length, whole, _, twice⟩ := runsBy_last front (text ++ [NEWLINE])
  refine ⟨runs, length, ?_, ?_, twice.trans ?_⟩
  · have apart : id text ≠ id (text ++ [NEWLINE]) := fun same =>
      List.cons_ne_nil NEWLINE [] (List.self_eq_append_right.mp same)
    rw [split, runsBy_concat, whole, addLine_concat, if_neg apart]
  · have equal : body text = body (text ++ [NEWLINE]) := by
      rw [body_open inside, body_concat]
    rw [split, runsBy_concat, runsBy_ended ended, whole, addLine_concat, if_pos equal]
  · constructor
    · intro last
      obtain ⟨more, rfl⟩ := List.getLast?_eq_some_iff.mp last
      exact ⟨more, text, by rw [lines, List.append_assoc]; rfl⟩
    · rintro ⟨more, text', again⟩
      have parts : front ++ [text ++ [NEWLINE], text]
          = (more ++ [text' ++ [NEWLINE]]) ++ [text' ++ [NEWLINE], text'] := by
        rw [← lines, again, List.append_assoc]
        rfl
      obtain ⟨rfl, rest⟩ := List.append_inj' parts rfl
      rw [List.getLast?_concat, (List.cons.inj rest).1]

/-- `uniq` writes what it should just where no line is torn, or the torn one is in a run of its own
for `-d` alone, and where no run is left out with counts, and, with both flags, there are no lines.
-/
theorem uniq_keeps_iff (flags : UniqFlags) {reads : List Bytes} (plain : 0 ∉ reads.flatten)
    : uniq flags reads = wantedUniq flags reads.flatten ↔ UniqKeeps flags reads.flatten := by
  have proper (key : Bytes → Bytes) := splitLines_proper key plain
  rw [uniq_eq plain, wantedUniq, UniqKeeps]
  by_cases both : flags.onlyDups ∧ flags.onlyUnique
  · have nothing (runs : List (Bytes × Nat)) : runs.flatMap (wantedRun flags) = [] := by
      refine List.flatMap_eq_nil_iff.mpr fun run _ => if_neg fun keeps => ?_
      exact absurd (keeps.1 both.1) (keeps.2 both.2 ▸ Nat.lt_irrefl 1)
    have each : (runsBy id (splitLines [] reads.flatten)).flatMap (emitRun flags)
        = (runsBy id (splitLines [] reads.flatten)).flatMap (wantedRun flags) ↔ _ :=
      flatMap_emitRun_iff (proper id)
    rw [nothing] at each
    rw [if_pos both, nothing, each]
    constructor
    · intro each
      by_contra some'
      have runs : runsBy id (splitLines [] reads.flatten) ≠ [] := fun none' =>
        some' (List.splitBy_eq_nil.mp (List.map_eq_nil_iff.mp none'))
      obtain ⟨run, among⟩ := List.exists_mem_of_ne_nil _ runs
      exact (each run among).1 both
    · intro none' run among
      rw [none'] at among
      cases among
  rw [if_neg both]
  by_cases torn : Torn (splitLines [] reads.flatten)
  · obtain ⟨front, text, lines⟩ := id torn
    obtain ⟨runs, length, first, second, twice⟩ := runsBy_torn lines
    have among (run : Bytes × Nat)
        (member : run ∈ runs ++ [(text ++ [NEWLINE], length), (text, 1)]) : Proper run :=
      proper id run (first ▸ member)
    rw [first, second, torn_iff both (fun run member => among run (List.mem_append_left _ member))
      (among _ (by simp)) (among _ (by simp)), ← twice]
    simp [torn]
  · rw [runsBy_whole torn, flatMap_emitRun_iff (proper body), or_iff_right fun both => torn both.1,
      and_iff_right torn]
    exact ⟨fun each counts run among => (each run among).2 counts,
      fun each run among => ⟨both, fun counts => each counts run among⟩⟩

/-- With `-d`, the last of three lines is torn off behind a run of two. -/
theorem uniq_three_lines
    : uniq ⟨false, true, false⟩ [[97, NEWLINE, 97, NEWLINE, 97]]
      = wantedUniq ⟨false, true, false⟩ [97, NEWLINE, 97, NEWLINE, 97] := by
  have plain : (0 : UInt8) ∉ [[97, NEWLINE, 97, NEWLINE, 97]].flatten := by decide
  exact (uniq_keeps_iff ⟨false, true, false⟩ plain).mpr
    (.inl ⟨⟨[[97, NEWLINE]], [97], rfl⟩, rfl, nofun, [], [97], rfl⟩)

/-- Two lines, the second without its newline, are written as two. -/
theorem uniq_torn
    : ¬ ∀ (flags : UniqFlags) (reads : List Bytes), 0 ∉ reads.flatten
        → uniq flags reads = wantedUniq flags reads.flatten := by
  intro always
  have same := always ⟨false, false, false⟩ [[97, NEWLINE, 97]] (by decide)
  exact absurd same (by decide)

end Panuti.Pcrutils
