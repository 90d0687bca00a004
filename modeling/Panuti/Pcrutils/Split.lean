import Mathlib.Data.List.TakeDrop
import Mathlib.Data.Nat.ModEq
import Panuti.Pcrutils.Streams

/-! `split`: the in stream in as many parts as there are out streams. The parts are cut between
units, but a part that a stream does not take as a whole is not written to its end.
-/

namespace Panuti.Pcrutils

/-- `SPLIT_LINES`, `SPLIT_WORDS` and `SPLIT_CHARS`. -/
inductive SplitMode where
  | lines
  | words
  | chars
deriving Repr, DecidableEq

def isSpace (c : UInt8) : Bool :=
  c == 32 || c == 9 || c == 10 || c == 13 || c == 11 || c == 12

def nextBoundary (mode : SplitMode) (buf : Bytes) (p : Nat) : Nat :=
  if buf.length ≤ p then buf.length
  else
    match mode with
    | .chars => p + 1
    | .words =>
        let p := p + ((buf.drop p).takeWhile fun c => !isSpace c).length
        p + ((buf.drop p).takeWhile isSpace).length
    | .lines =>
        let p := p + ((buf.drop p).takeWhile (· != NEWLINE)).length
        if p < buf.length then p + 1 else p

/-- The first unit of some bytes, and what is behind it: a line with its newline, a word with the
space behind it, or a character.
-/
def firstUnit : SplitMode → Bytes → Bytes × Bytes
  | .chars, bytes => (bytes.take 1, bytes.drop 1)
  | .words, bytes =>
      let more := bytes.dropWhile fun c => !isSpace c
      ((bytes.takeWhile fun c => !isSpace c) ++ more.takeWhile isSpace, more.dropWhile isSpace)
  | .lines, bytes =>
      let more := bytes.dropWhile (· != NEWLINE)
      (bytes.takeWhile (· != NEWLINE) ++ more.take 1, more.drop 1)

theorem firstUnit_append (mode : SplitMode) (bytes : Bytes)
    : (firstUnit mode bytes).1 ++ (firstUnit mode bytes).2 = bytes := by
  cases mode with
  | chars => exact List.take_append_drop 1 bytes
  | words =>
      simp only [firstUnit]
      rw [List.append_assoc, List.takeWhile_append_dropWhile, List.takeWhile_append_dropWhile]
  | lines =>
      simp only [firstUnit]
      rw [List.append_assoc, List.take_append_drop, List.takeWhile_append_dropWhile]

variable {bytes unit input : Bytes} {mode : SplitMode} {c : UInt8} {parts : Nat}
    {outs : List OutStream}

theorem firstUnit_ne_nil (mode : SplitMode) (some' : bytes ≠ [])
    : (firstUnit mode bytes).1 ≠ [] := by
  obtain ⟨c, rest, rfl⟩ := List.exists_cons_of_ne_nil some'
  cases mode with
  | chars => exact List.cons_ne_nil _ _
  | words =>
      simp only [firstUnit]
      cases space : isSpace c <;> simp [space]
  | lines =>
      simp only [firstUnit]
      cases same : c != NEWLINE <;> simp [same]

theorem drop_takeWhile_length (p : UInt8 → Bool) (bytes : Bytes)
    : bytes.drop (bytes.takeWhile p).length = bytes.dropWhile p := by
  conv_lhs =>
    enter [2]
    rw [← List.takeWhile_append_dropWhile (p := p) (l := bytes)]
  exact List.drop_left

theorem nextBoundary_eq (mode : SplitMode) {buf : Bytes} {p : Nat} (inside : p < buf.length)
    : nextBoundary mode buf p = p + (firstUnit mode (buf.drop p)).1.length := by
  have some' : buf.drop p ≠ [] := fun none' => absurd (List.drop_eq_nil_iff.mp none') (by omega)
  rw [nextBoundary.eq_def, if_neg (Nat.not_le.mpr inside)]
  cases mode with
  | chars =>
      obtain ⟨c, rest, goes⟩ := List.exists_cons_of_ne_nil some'
      rw [firstUnit, goes]
      rfl
  | words =>
      simp only [firstUnit]
      rw [List.length_append, ← List.drop_drop, drop_takeWhile_length, Nat.add_assoc]
  | lines =>
      simp only [firstUnit]
      have whole := congrArg List.length
        (List.takeWhile_append_dropWhile (p := (· != NEWLINE)) (l := buf.drop p))
      rw [List.length_append, List.length_drop] at whole
      rw [List.length_append, List.length_take]
      split <;> omega

theorem nextBoundary_bounds {mode : SplitMode} {buf : Bytes} {p : Nat} (inside : p < buf.length)
    : p < nextBoundary mode buf p ∧ nextBoundary mode buf p ≤ buf.length := by
  have some' : buf.drop p ≠ [] := fun none' => absurd (List.drop_eq_nil_iff.mp none') (by omega)
  have long := List.length_pos_of_ne_nil (firstUnit_ne_nil mode some')
  have whole := congrArg List.length (firstUnit_append mode (buf.drop p))
  rw [List.length_append, List.length_drop] at whole
  rw [nextBoundary_eq mode inside]
  omega

/-- `count_parts`, from a place on. -/
def countParts (mode : SplitMode) (buf : Bytes) (p : Nat) : Nat :=
  if _inside : p < buf.length then countParts mode buf (nextBoundary mode buf p) + 1 else 0
termination_by buf.length - p
decreasing_by
  have bounds := @nextBoundary_bounds mode _ _ _inside
  omega

/-- `boundary`, from a place on. -/
def boundary (mode : SplitMode) (buf : Bytes) : (k p : Nat) → Nat
  | 0, p => p
  | k + 1, p => boundary mode buf k (nextBoundary mode buf p)

def LONG_MAX : Nat := 2147483647

/-- A product of longs. What one that does not fit is worth is not defined. -/
def mulLong (a b : Nat) : Option Nat := if a * b ≤ LONG_MAX then some (a * b) else none

/-- The loop of `split` over its out streams: what they end up with, if all of it is defined. -/
def splitLoop (mode : SplitMode) (buf : Bytes) (noStreams nparts : Nat)
    : (s : Nat) → List OutStream → Option (List Bytes)
  | _, [] => some []
  | s, out :: outs =>
      match mulLong s nparts, mulLong (s + 1) nparts with
      | some fromParts, some toParts =>
          let start := boundary mode buf (fromParts / noStreams) 0
          let stop := boundary mode buf (toParts / noStreams) 0
          (splitLoop mode buf noStreams nparts (s + 1) outs).map
            (out.delivered 0 (pieces ((buf.take stop).drop start)) :: ·)
      | _, _ => none

/-- `split`: what its out streams end up with. -/
def split (mode : SplitMode) (outs : List OutStream) (input : Bytes) : Option (List Bytes) :=
  let nparts := countParts mode input 0
  if 0 < nparts then splitLoop mode input outs.length nparts 0 outs
  else some (outs.map fun _ => [])

-- Units

def units (mode : SplitMode) (bytes : Bytes) : List Bytes :=
  if bytes = [] then [] else (firstUnit mode bytes).1 :: units mode (firstUnit mode bytes).2
termination_by bytes.length
decreasing_by
  rename_i some'
  have long := List.length_pos_of_ne_nil (firstUnit_ne_nil mode some')
  have whole := congrArg List.length (firstUnit_append mode bytes)
  rw [List.length_append] at whole
  omega

theorem units_flatten (mode : SplitMode) (bytes : Bytes) : (units mode bytes).flatten = bytes := by
  fun_induction units mode bytes with
  | case1 => rfl
  | case2 bytes some' ih => rw [List.flatten_cons, ih, firstUnit_append]

theorem drop_firstUnit (mode : SplitMode) (bytes : Bytes)
    : bytes.drop (firstUnit mode bytes).1.length = (firstUnit mode bytes).2 := by
  conv_lhs =>
    enter [2]
    rw [← firstUnit_append mode bytes]
  exact List.drop_left

theorem countParts_eq (mode : SplitMode) (buf : Bytes) (p : Nat)
    : countParts mode buf p = (units mode (buf.drop p)).length := by
  fun_induction countParts mode buf p with
  | case1 p inside ih =>
      have some' : buf.drop p ≠ [] := fun none' => absurd (List.drop_eq_nil_iff.mp none') (by omega)
      rw [units, if_neg some', ih, nextBoundary_eq mode inside, ← List.drop_drop, drop_firstUnit,
        List.length_cons]
  | case2 p outside =>
      rw [List.drop_eq_nil_of_le (Nat.not_lt.mp outside), units, if_pos rfl]
      rfl

theorem boundary_eq (mode : SplitMode) {buf : Bytes} (k : Nat) {p : Nat} (inside : p ≤ buf.length)
    : boundary mode buf k p = p + ((units mode (buf.drop p)).take k).flatten.length := by
  induction k generalizing p with
  | zero => rfl
  | succ k ih =>
      rw [boundary]
      by_cases more : p < buf.length
      · have some' : buf.drop p ≠ [] :=
          fun none' => absurd (List.drop_eq_nil_iff.mp none') (by omega)
        obtain ⟨_, bound⟩ := @nextBoundary_bounds mode _ _ more
        rw [ih bound, nextBoundary_eq mode more, ← List.drop_drop, drop_firstUnit]
        conv_rhs => rw [units, if_neg some']
        rw [List.take_succ_cons, List.flatten_cons, List.length_append, Nat.add_assoc]
      · obtain rfl : p = buf.length := by omega
        have stays : nextBoundary mode buf buf.length = buf.length := by
          rw [nextBoundary.eq_def, if_pos (le_refl _)]
        rw [stays, ih (le_refl _), List.drop_length, units, if_pos rfl]
        simp

-- What the parts are to be

/-- How many lines, words or characters there are. -/
def unitCount : SplitMode → Bytes → Nat
  | .lines, bytes => (splitLines [] bytes).length
  | .words, bytes => ((bytes.splitOnP isSpace).filter (· != [])).length
  | .chars, bytes => bytes.length

def Boundary : SplitMode → (one two : Bytes) → Prop
  | .lines, one, two => one = [] ∨ two = [] ∨ one.getLast? = some NEWLINE
  | .words, one, two => one = [] ∨ two = [] ∨ (∃ c, one.getLast? = some c ∧ isSpace c)
      ∨ ∃ c, two.head? = some c ∧ isSpace c
  | .chars, _, _ => True

/-- Parts that make up the input, each of which ends at the end of a unit, and the units of which
differ by no more than one.
-/
structure Partitions (mode : SplitMode) (input : Bytes) (parts : List Bytes) : Prop where
  whole : parts.flatten = input
  cuts : ∀ k, Boundary mode (parts.take k).flatten (parts.drop k).flatten
  even : ∀ one ∈ parts, ∀ two ∈ parts, unitCount mode one ≤ unitCount mode two + 1

/-- Parts are handed out, and they are what they are to be. -/
def Splits (mode : SplitMode) (input : Bytes) (outcome : Option (List Bytes)) : Prop :=
  ∃ parts, outcome = some parts ∧ Partitions mode input parts

def Closed : SplitMode → Bytes → Prop
  | .lines, unit => unit.getLast? = some NEWLINE
  | .words, unit => ∃ c, unit.getLast? = some c ∧ isSpace c
  | .chars, _ => True

theorem Closed.boundary (closed : Closed mode unit) (front rest : Bytes)
    : Boundary mode (front ++ unit) rest := by
  have some' {c : UInt8} (last : unit.getLast? = some c) : (front ++ unit).getLast? = some c := by
    rw [List.getLast?_append, last]
    rfl
  cases mode with
  | lines => exact .inr (.inr (some' closed))
  | words =>
      obtain ⟨c, last, space⟩ := closed
      exact .inr (.inr (.inl ⟨c, some' last, space⟩))
  | chars => trivial

theorem splitLines_append {one : Bytes} (ended : one.getLast? = some NEWLINE) (line two : Bytes)
    : splitLines line (one ++ two) = splitLines line one ++ splitLines [] two := by
  induction one generalizing line with
  | nil => cases ended
  | cons c one ih =>
      rw [List.cons_append, splitLines, splitLines]
      cases one with
      | nil =>
          obtain rfl : c = NEWLINE := Option.some.inj ended
          rw [if_pos rfl, if_pos rfl, splitLines, if_pos rfl]
          rfl
      | cons d one =>
          have last : (d :: one).getLast? = some NEWLINE := by
            rwa [List.getLast?_cons_cons] at ended
          split
          next => rw [ih last, List.cons_append]
          next => exact ih last _

theorem unitCount_nil (mode : SplitMode) : unitCount mode [] = 0 := by
  cases mode <;> rfl

theorem words_space (space : isSpace c) (one two : Bytes)
    : unitCount .words (one ++ c :: two) = unitCount .words one + unitCount .words two := by
  rw [unitCount, List.splitOnP_append_cons one two space, List.filter_append, List.length_append]
  rfl

theorem words_cons (space : isSpace c) (two : Bytes)
    : unitCount .words (c :: two) = unitCount .words two := by
  have front := words_space space [] two
  rwa [List.nil_append, unitCount_nil, Nat.zero_add] at front

theorem words_concat (space : isSpace c) (one : Bytes)
    : unitCount .words (one ++ [c]) = unitCount .words one := by
  rw [words_space space]
  rfl

theorem unitCount_append {one two : Bytes} (cut : Boundary mode one two)
    : unitCount mode (one ++ two) = unitCount mode one + unitCount mode two := by
  by_cases empty : one = []
  · rw [empty, List.nil_append, unitCount_nil, Nat.zero_add]
  by_cases emptyToo : two = []
  · rw [emptyToo, List.append_nil, unitCount_nil, Nat.add_zero]
  cases mode with
  | lines =>
      have ended := (cut.resolve_left empty).resolve_left emptyToo
      rw [unitCount, splitLines_append ended, List.length_append]
      rfl
  | words =>
      obtain ⟨c, last, space⟩ | ⟨c, first, space⟩ := (cut.resolve_left empty).resolve_left emptyToo
      · obtain ⟨front, rfl⟩ := List.getLast?_eq_some_iff.mp last
        rw [List.append_assoc, List.singleton_append, words_space space, words_concat space]
      · obtain ⟨rest, rfl⟩ := List.head?_eq_some_iff.mp first
        rw [words_space space, words_cons space]
  | chars => exact List.length_append

theorem boundary_nil_left (mode : SplitMode) (two : Bytes) : Boundary mode [] two := by
  cases mode
  · exact .inl rfl
  · exact .inl rfl
  · trivial

theorem boundary_nil_right (mode : SplitMode) (one : Bytes) : Boundary mode one [] := by
  cases mode
  · exact .inr (.inl rfl)
  · exact .inr (.inl rfl)
  · trivial

-- What a unit is

/-- Whether the first unit is no word: the space that the input begins with. -/
def opens : SplitMode → Bytes → Nat
  | .words, c :: _ => if isSpace c then 1 else 0
  | _, _ => 0

theorem opens_le_one (mode : SplitMode) (input : Bytes) : opens mode input ≤ 1 := by
  rw [opens.eq_def]
  split
  · split <;> decide
  · decide

theorem words_spaces {space : Bytes} (all : ∀ c ∈ space, isSpace c)
    : unitCount .words space = 0 := by
  induction space with
  | nil => rfl
  | cons c space ih =>
      rw [words_cons (all c List.mem_cons_self)]
      exact ih fun d member => all d (List.mem_cons_of_mem c member)

theorem words_append_spaces (bytes : Bytes) {space : Bytes} (all : ∀ c ∈ space, isSpace c)
    : unitCount .words (bytes ++ space) = unitCount .words bytes := by
  cases space with
  | nil => rw [List.append_nil]
  | cons c space =>
      rw [words_space (all c List.mem_cons_self),
        words_spaces fun d member => all d (List.mem_cons_of_mem c member), Nat.add_zero]

theorem words_single {word : Bytes} (some' : word ≠ []) (none' : ∀ c ∈ word, isSpace c = false)
    : unitCount .words word = 1 := by
  rw [unitCount, List.splitOnP_eq_singleton none', List.filter_singleton, bne_iff_ne.mpr some']
  rfl

theorem head_dropWhile {p : UInt8 → Bool} {rest : Bytes} (goes : bytes.dropWhile p = c :: rest)
    : p c = false := by
  induction bytes with
  | nil => cases goes
  | cons d bytes ih =>
      rw [List.dropWhile_cons] at goes
      split at goes
      next => exact ih goes
      next other =>
        obtain rfl := (List.cons.inj goes).1
        exact Bool.not_eq_true _ ▸ other

/-- A unit with something behind it is closed. -/
theorem firstUnit_closed (more : (firstUnit mode bytes).2 ≠ [])
    : Closed mode (firstUnit mode bytes).1 := by
  cases mode with
  | chars => trivial
  | lines =>
      simp only [firstUnit] at more ⊢
      cases left : bytes.dropWhile (· != NEWLINE) with
      | nil => exact absurd (by rw [left]; rfl) more
      | cons c rest =>
          have newline : c = NEWLINE := by
            have stops := head_dropWhile left
            rwa [bne_eq_false_iff_eq] at stops
          rw [Closed, List.take_succ_cons, List.take_zero, List.getLast?_concat, newline]
  | words =>
      simp only [firstUnit] at more ⊢
      cases left : bytes.dropWhile fun c => !isSpace c with
      | nil => exact absurd (by rw [left]; rfl) more
      | cons c rest =>
          have space : isSpace c = true := by
            have stops := head_dropWhile left
            rwa [Bool.not_eq_false'] at stops
          have some' : (c :: rest).takeWhile isSpace ≠ [] := by
            rw [List.takeWhile_cons_of_pos space]
            exact List.cons_ne_nil _ _
          refine ⟨((c :: rest).takeWhile isSpace).getLast some', ?_, ?_⟩
          · rw [List.getLast?_append, List.getLast?_eq_some_getLast some']
            rfl
          · exact List.mem_takeWhile_imp (List.getLast_mem some')

theorem opens_rest (mode : SplitMode) (bytes : Bytes)
    : opens mode (firstUnit mode bytes).2 = 0 := by
  cases mode with
  | chars => rfl
  | lines => rfl
  | words =>
      simp only [firstUnit]
      cases left : (bytes.dropWhile fun c => !isSpace c).dropWhile isSpace with
      | nil => rfl
      | cons c rest => rw [opens, head_dropWhile left]; rfl

theorem firstUnit_count (some' : bytes ≠ [])
    : unitCount mode (firstUnit mode bytes).1 = 1 - opens mode bytes := by
  obtain ⟨c, rest, rfl⟩ := List.exists_cons_of_ne_nil some'
  cases mode with
  | chars => rfl
  | lines =>
      have inside : NEWLINE ∉ (c :: rest).takeWhile (· != NEWLINE) := by
        intro member
        have differ := List.mem_takeWhile_imp member
        exact bne_iff_ne.mp differ rfl
      simp only [firstUnit]
      cases left : (c :: rest).dropWhile (· != NEWLINE) with
      | nil =>
          have whole := List.takeWhile_append_dropWhile (p := (· != NEWLINE)) (l := c :: rest)
          rw [left, List.append_nil] at whole
          rw [List.take_nil, List.append_nil, unitCount, splitLines_open inside, List.nil_append,
            whole, if_neg (List.cons_ne_nil c rest)]
          rfl
      | cons d more =>
          have newline : d = NEWLINE := by
            have stops := head_dropWhile left
            rwa [bne_eq_false_iff_eq] at stops
          rw [List.take_succ_cons, List.take_zero, newline, unitCount, splitLines_line inside,
            splitLines, if_pos rfl]
          rfl
  | words =>
      simp only [firstUnit]
      rw [words_append_spaces _ fun d member => List.mem_takeWhile_imp member, opens]
      cases space : isSpace c with
      | true =>
          rw [List.takeWhile_cons_of_neg (by rw [space]; decide)]
          rfl
      | false =>
          refine words_single ?_ fun d member => ?_
          · rw [List.takeWhile_cons_of_pos (by rw [space]; decide)]
            exact List.cons_ne_nil _ _
          · have word := List.mem_takeWhile_imp member
            rwa [Bool.not_eq_true'] at word

theorem units_closed (among : unit ∈ (units mode bytes).dropLast) : Closed mode unit := by
  fun_induction units mode bytes with
  | case1 => cases among
  | case2 bytes some' ih =>
      cases later : units mode (firstUnit mode bytes).2 with
      | nil =>
          rw [later] at among
          cases among
      | cons next rest =>
          have more : (firstUnit mode bytes).2 ≠ [] := by
            intro none'
            rw [none', units, if_pos rfl] at later
            cases later
          rw [later, List.dropLast_cons_cons] at among
          obtain rfl | inner := List.mem_cons.mp among
          · exact firstUnit_closed more
          · exact ih (later ▸ inner)

theorem units_count (word : opens mode bytes = 0) (among : unit ∈ units mode bytes)
    : unitCount mode unit = 1 := by
  fun_induction units mode bytes with
  | case1 => cases among
  | case2 bytes some' ih =>
      obtain rfl | later := List.mem_cons.mp among
      · rw [firstUnit_count some', word]
      · exact ih (opens_rest mode bytes) later

theorem units_counts {mode : SplitMode} {bytes : Bytes} (some' : bytes ≠ [])
    : ∃ first rest, units mode bytes = first :: rest
      ∧ unitCount mode first = 1 - opens mode bytes
      ∧ ∀ unit ∈ rest, unitCount mode unit = 1 := by
  rw [units, if_neg some']
  exact ⟨_, _, rfl, firstUnit_count some', fun unit => units_count (opens_rest mode bytes)⟩

theorem unitCount_flatten {mode : SplitMode} {row : List Bytes}
    (closed : ∀ unit ∈ row.dropLast, Closed mode unit)
    : unitCount mode row.flatten = (row.map (unitCount mode)).sum := by
  induction row with
  | nil => exact unitCount_nil mode
  | cons unit row ih =>
      cases row with
      | nil => simp
      | cons next row =>
          rw [List.dropLast_cons_cons] at closed
          have rest := ih fun other member => closed other (List.mem_cons_of_mem _ member)
          have cut : Boundary mode unit (next :: row).flatten :=
            (closed unit List.mem_cons_self).boundary [] (next :: row).flatten
          rw [List.flatten_cons, unitCount_append cut, rest]
          rfl

theorem sum_ones {α : Type} {row : List α} {count : α → Nat} (ones : ∀ unit ∈ row, count unit = 1)
    : (row.map count).sum = row.length := by
  induction row with
  | nil => rfl
  | cons unit row ih =>
      rw [List.map_cons, List.sum_cons, ones unit List.mem_cons_self,
        ih fun other member => ones other (List.mem_cons_of_mem _ member), List.length_cons,
        Nat.add_comm]

def unitRow (mode : SplitMode) (input : Bytes) (start stop : Nat) : List Bytes :=
  ((units mode input).take stop).drop start

theorem unitRow_closed {start stop : Nat} (among : unit ∈ (unitRow mode input start stop).dropLast)
    : Closed mode unit := by
  rw [unitRow, List.dropLast_drop_eq_drop_dropLast, List.dropLast_take_eq_take_dropLast] at among
  exact units_closed (List.mem_of_mem_take (List.mem_of_mem_drop among))

theorem unitRow_length (mode : SplitMode) (input : Bytes) (start stop : Nat)
    : (unitRow mode input start stop).length = min stop (units mode input).length - start := by
  rw [unitRow, List.length_drop, List.length_take]

theorem unitRow_count (mode : SplitMode) (input : Bytes) (start stop : Nat)
    : unitCount mode (unitRow mode input start stop).flatten
      = (unitRow mode input start stop).length
        - if start = 0 ∧ 0 < stop then opens mode input else 0 := by
  rw [unitCount_flatten fun unit => unitRow_closed]
  by_cases empty : input = []
  · have none' : unitRow mode input start stop = [] := by
      rw [unitRow, empty, units, if_pos rfl, List.take_nil, List.drop_nil]
    rw [none', List.length_nil, Nat.zero_sub]
    rfl
  · obtain ⟨first, rest, all, count, ones⟩ := @units_counts mode _ empty
    rw [unitRow, all]
    cases start with
    | zero =>
        cases stop with
        | zero => rfl
        | succ stop =>
            have more := sum_ones fun unit (member : unit ∈ rest.take stop) =>
              ones unit (List.mem_of_mem_take member)
            have one := opens_le_one mode input
            rw [List.drop_zero, List.take_succ_cons, List.map_cons, List.sum_cons, count, more,
              List.length_cons, if_pos ⟨rfl, Nat.succ_pos stop⟩]
            omega
    | succ start =>
        have inside (unit : Bytes) (member : unit ∈ ((first :: rest).take stop).drop (start + 1))
            : unit ∈ rest := by
          cases stop with
          | zero => cases member
          | succ stop =>
              rw [List.take_succ_cons, List.drop_succ_cons] at member
              exact List.mem_of_mem_take (List.mem_of_mem_drop member)
        rw [if_neg fun both => nomatch both.1, Nat.sub_zero]
        exact sum_ones fun unit member => ones unit (inside unit member)

theorem units_length (mode : SplitMode) (input : Bytes)
    : (units mode input).length = unitCount mode input + opens mode input := by
  by_cases empty : input = []
  · rw [empty, units, if_pos rfl, unitCount_nil]
    cases mode <;> rfl
  · obtain ⟨first, rest, all, count, ones⟩ := @units_counts mode _ empty
    have one := opens_le_one mode input
    have total := @unitCount_flatten mode (units mode input)
      fun unit => units_closed
    rw [units_flatten, all, List.map_cons, List.sum_cons, count, sum_ones ones] at total
    rw [all, List.length_cons]
    omega

theorem units_cut (mode : SplitMode) (input : Bytes) (k : Nat)
    : Boundary mode ((units mode input).take k).flatten ((units mode input).drop k).flatten := by
  obtain none' | ⟨front, last, taken⟩ := List.eq_nil_or_concat' ((units mode input).take k)
  · rw [none', List.flatten_nil]
    exact boundary_nil_left mode _
  · by_cases left : (units mode input).drop k = []
    · rw [left, List.flatten_nil]
      exact boundary_nil_right mode _
    · have among : last ∈ (units mode input).dropLast := by
        rw [← List.take_append_drop k (units mode input), List.dropLast_append_of_ne_nil left,
          taken]
        exact List.mem_append_left _ (List.mem_append_right _ List.mem_cons_self)
      rw [taken, List.flatten_append, List.flatten_singleton]
      exact (units_closed among).boundary _ _

-- Shares

def share (count parts s : Nat) : Nat := s * count / parts

theorem share_succ (some' : 0 < parts) (count s : Nat)
    : share count parts (s + 1)
      = share count parts s + count / parts
        + if parts ≤ s * count % parts + count % parts then 1 else 0 := by
  rw [share, Nat.succ_mul, Nat.add_div some', share]

theorem share_mono {count parts one two : Nat} (le : one ≤ two)
    : share count parts one ≤ share count parts two :=
  Nat.div_le_div_right (Nat.mul_le_mul_right count le)

theorem share_all (some' : 0 < parts) (count : Nat) : share count parts parts = count := by
  rw [share, Nat.mul_div_cancel_left count some']

def partUnits (mode : SplitMode) (parts : Nat) (input : Bytes) (s : Nat) : List Bytes :=
  let count := (units mode input).length
  unitRow mode input (share count parts s) (share count parts (s + 1))

/-- A part of an input that is cut into a number of parts. -/
def partOf (mode : SplitMode) (parts : Nat) (input : Bytes) (s : Nat) : Bytes :=
  (partUnits mode parts input s).flatten

theorem partOf_flatMap (mode : SplitMode) (parts : Nat) (input : Bytes) (k : Nat)
    : (List.range k).flatMap (partOf mode parts input)
      = ((units mode input).take (share (units mode input).length parts k)).flatten := by
  induction k with
  | zero =>
      rw [share, Nat.zero_mul, Nat.zero_div]
      rfl
  | succ k ih =>
      have front : ((units mode input).take (share (units mode input).length parts (k + 1))).take
            (share (units mode input).length parts k)
          = (units mode input).take (share (units mode input).length parts k) := by
        rw [List.take_take, Nat.min_eq_left (share_mono (Nat.le_succ k))]
      rw [List.range_succ, List.flatMap_append, List.flatMap_singleton, ih, partOf, partUnits,
        unitRow, ← List.flatten_append]
      conv_rhs =>
        rw [← List.take_append_drop (share (units mode input).length parts k)
          ((units mode input).take (share (units mode input).length parts (k + 1))), front]

theorem partOf_whole (mode : SplitMode) (some' : 0 < parts) (input : Bytes)
    : (List.range parts).flatMap (partOf mode parts input) = input := by
  rw [partOf_flatMap, share_all some', List.take_length, units_flatten]

/-- How much a part counts. -/
theorem partOf_count (mode : SplitMode) {s : Nat} (input : Bytes) (inside : s < parts)
    : unitCount mode (partOf mode parts input s)
      = (units mode input).length / parts
        + (if parts ≤ s * (units mode input).length % parts + (units mode input).length % parts
          then 1 else 0)
        - if share (units mode input).length parts s = 0
            ∧ 0 < share (units mode input).length parts (s + 1)
          then opens mode input else 0 := by
  have some' : 0 < parts := Nat.zero_lt_of_lt inside
  have bound := @share_mono (units mode input).length parts _ _
    (Nat.succ_le_of_lt inside)
  rw [share_all some'] at bound
  have size : (partUnits mode parts input s).length
      = share (units mode input).length parts (s + 1)
        - share (units mode input).length parts s := by
    rw [partUnits, unitRow_length, Nat.min_eq_left bound]
  rw [partOf, partUnits, unitRow_count, ← partUnits, size]
  congr 1
  rw [share_succ some', Nat.add_assoc, Nat.add_sub_cancel_left]

theorem partOf_even_iff (mode : SplitMode) (some' : 0 < parts) (input : Bytes)
    : (∀ s < parts, ∀ t < parts,
        unitCount mode (partOf mode parts input s) ≤ unitCount mode (partOf mode parts input t) + 1)
      ↔ ¬(opens mode input = 1 ∧ parts ≤ (units mode input).length
        ∧ ¬parts ∣ (units mode input).length) := by
  generalize total : (units mode input).length = count
  have counts {s : Nat} (inside : s < parts) := total ▸ partOf_count mode input inside
  have one := opens_le_one mode input
  constructor
  · rintro even ⟨space, enough, uneven⟩
    -- the first part has its share, one of which is no word, and the last one has one more
    have share1 : 0 < share count parts (0 + 1) := by
      rw [share, Nat.zero_add, Nat.one_mul]
      exact Nat.div_pos enough some'
    have many : 1 < parts := by
      by_contra few
      obtain rfl : parts = 1 := by omega
      exact uneven (Nat.one_dvd _)
    have rest : 0 < count % parts :=
      Nat.pos_of_ne_zero fun none' => uneven (Nat.dvd_of_mod_eq_zero none')
    have small := Nat.mod_lt count some'
    have first := counts some'
    have last := counts (Nat.sub_lt some' Nat.one_pos)
    have carry : parts ≤ (parts - 1) * count % parts + count % parts := by
      by_contra less
      have zero : ((parts - 1) * count + count) % parts = 0 := by
        rw [← Nat.succ_mul, Nat.succ_eq_add_one, Nat.sub_add_cancel some', Nat.mul_mod_right]
      rw [Nat.add_mod, Nat.mod_eq_of_lt (Nat.not_le.mp less)] at zero
      omega
    have later : share count parts (parts - 1) ≠ 0 := by
      have mono := @share_mono count parts _ _ (Nat.le_sub_one_of_lt many)
      rw [Nat.zero_add] at share1
      omega
    rw [Nat.zero_mul, Nat.zero_mod, Nat.zero_add, if_neg (Nat.not_le.mpr small),
      if_pos ⟨by rw [share, Nat.zero_mul, Nat.zero_div], share1⟩, space] at first
    rw [if_pos carry, if_neg fun both => later both.1] at last
    have differ := even (parts - 1) (Nat.sub_lt some' Nat.one_pos) 0 some'
    have some'' := Nat.div_pos enough some'
    omega
  · intro fair s insideS t insideT
    rw [counts insideS, counts insideT]
    have bit (p : Prop) [Decidable p] (value : Nat) : (if p then value else 0) ≤ value := by
      split <;> omega
    by_cases space : opens mode input = 1
    · by_cases enough : parts ≤ count
      · have even : count % parts = 0 :=
          Nat.mod_eq_zero_of_dvd (not_not.mp fun uneven => fair ⟨space, enough, uneven⟩)
        have smallS := Nat.mod_lt (s * count) some'
        have smallT := Nat.mod_lt (t * count) some'
        have atMost := bit (share count parts t = 0 ∧ 0 < share count parts (t + 1))
          (opens mode input)
        have noneS : ¬parts ≤ s * count % parts + 0 := Nat.not_le.mpr smallS
        have noneT : ¬parts ≤ t * count % parts + 0 := Nat.not_le.mpr smallT
        rw [even, if_neg noneS, if_neg noneT]
        omega
      · have atMost := bit (parts ≤ s * count % parts + count % parts) 1
        rw [Nat.div_eq_of_lt (Nat.not_le.mp enough)]
        omega
    · have none' : opens mode input = 0 := by omega
      have atMost := bit (parts ≤ s * count % parts + count % parts) 1
      rw [none', ite_self, ite_self]
      omega

-- The loop

theorem boundary_units (mode : SplitMode) (input : Bytes) (k : Nat)
    : boundary mode input k 0 = ((units mode input).take k).flatten.length := by
  rw [boundary_eq mode k (Nat.zero_le _), Nat.zero_add, List.drop_zero]

theorem between_boundaries (mode : SplitMode) (input : Bytes) {start stop : Nat}
    (le : start ≤ stop)
    : (input.take (boundary mode input stop 0)).drop (boundary mode input start 0)
      = (unitRow mode input start stop).flatten := by
  have taken (k : Nat) : input.take ((units mode input).take k).flatten.length
      = ((units mode input).take k).flatten := by
    conv_lhs =>
      enter [2]
      rw [← units_flatten mode input, ← List.take_append_drop k (units mode input),
        List.flatten_append]
    exact List.take_left
  have front : (units mode input).take stop
      = (units mode input).take start ++ unitRow mode input start stop := by
    rw [unitRow]
    conv_lhs => rw [← List.take_append_drop start ((units mode input).take stop)]
    rw [List.take_take, Nat.min_eq_left le]
  rw [boundary_units, boundary_units, taken, front, List.flatten_append, List.drop_left]

theorem splitLoop_eq {noStreams s : Nat} (outs : List OutStream)
    (fits : noStreams * (units mode input).length ≤ LONG_MAX) (inside : s + outs.length ≤ noStreams)
    : splitLoop mode input noStreams (units mode input).length s outs
      = some ((outs.zipIdx s).map fun entry =>
          entry.1.delivered 0 (pieces (partOf mode noStreams input entry.2))) := by
  induction outs generalizing s with
  | nil => rfl
  | cons out outs ih =>
      rw [List.length_cons] at inside
      have product (k : Nat) (le : k ≤ noStreams)
          : mulLong k (units mode input).length = some (k * (units mode input).length) :=
        if_pos (le_trans (Nat.mul_le_mul_right _ le) fits)
      rw [splitLoop, product s (by omega), product (s + 1) (by omega)]
      simp only
      rw [ih (by omega)]
      have between : (input.take (boundary mode input
            ((s + 1) * (units mode input).length / noStreams) 0)).drop
              (boundary mode input (s * (units mode input).length / noStreams) 0)
          = partOf mode noStreams input s :=
        between_boundaries mode input (share_mono (Nat.le_succ s))
      rw [between]
      rfl

theorem splitLoop_none {noStreams nparts s : Nat} (some' : outs ≠ [])
    (overflow : LONG_MAX < (s + outs.length) * nparts)
    : splitLoop mode input noStreams nparts s outs = none := by
  induction outs generalizing s with
  | nil => exact absurd rfl some'
  | cons out outs ih =>
      rw [splitLoop]
      split
      next defined definedToo =>
        cases outs with
        | nil =>
            have undefined' : mulLong (s + 1) nparts = none := if_neg (Nat.not_le.mpr overflow)
            cases undefined'.symm.trans definedToo
        | cons next outs =>
            rw [List.length_cons, ← Nat.add_assoc, Nat.add_right_comm] at overflow
            rw [ih (List.cons_ne_nil _ _) overflow]
            rfl
      next => rfl

-- The parts

theorem zipIdx_parts (mode : SplitMode) (outs : List OutStream) (input : Bytes)
    : outs.zipIdx.map (fun entry => partOf mode outs.length input entry.2)
      = (List.range outs.length).map (partOf mode outs.length input) := by
  have places : outs.zipIdx.map Prod.snd = List.range outs.length := by
    rw [List.zipIdx_map_snd, List.range_eq_range']
  rw [← places, List.map_map]
  rfl

theorem partOf_cuts (mode : SplitMode) (some' : 0 < parts) (input : Bytes) (k : Nat)
    : Boundary mode (((List.range parts).map (partOf mode parts input)).take k).flatten
        (((List.range parts).map (partOf mode parts input)).drop k).flatten := by
  have front : (((List.range parts).map (partOf mode parts input)).take k).flatten
      = ((units mode input).take
          (share (units mode input).length parts (min k parts))).flatten := by
    rw [← List.map_take, List.take_range, ← List.flatMap_def, partOf_flatMap]
  have whole := partOf_whole mode some' input
  rw [List.flatMap_def,
    ← List.take_append_drop k ((List.range parts).map (partOf mode parts input)),
    List.flatten_append, front] at whole
  conv_rhs at whole =>
    rw [← units_flatten mode input,
      ← List.take_append_drop (share (units mode input).length parts (min k parts))
        (units mode input), List.flatten_append]
  rw [front, List.append_cancel_left whole]
  exact units_cut mode input _

/-- What the streams end up with, where the products fit. -/
def handedOut (mode : SplitMode) (outs : List OutStream) (input : Bytes) : List Bytes :=
  outs.zipIdx.map fun entry =>
    entry.1.delivered 0 (pieces (partOf mode outs.length input entry.2))

theorem split_eq (fits : outs.length * (units mode input).length ≤ LONG_MAX)
    : split mode outs input = some (handedOut mode outs input) := by
  rw [split, countParts_eq, List.drop_zero]
  split
  next => exact splitLoop_eq outs fits (Nat.zero_add _).le
  next none' =>
    have empty : units mode input = [] :=
      List.eq_nil_of_length_eq_zero (Nat.eq_zero_of_not_pos none')
    have nothing (s : Nat) : partOf mode outs.length input s = [] := by
      rw [partOf, partUnits, unitRow, empty, List.take_nil, List.drop_nil, List.flatten_nil]
    have written (entry : OutStream × Nat)
        : entry.1.delivered 0 (pieces (partOf mode outs.length input entry.2)) = [] := by
      rw [nothing, pieces, if_pos rfl, OutStream.delivered]
    have each : handedOut mode outs input = outs.zipIdx.map fun _ => [] :=
      List.map_congr_left fun entry _ => written entry
    rw [each, List.map_const', List.map_const', List.length_zipIdx]

theorem split_none (some' : outs ≠ [])
    (overflow : LONG_MAX < outs.length * (units mode input).length)
    : split mode outs input = none := by
  have more : 0 < (units mode input).length := by
    by_contra none'
    rw [Nat.eq_zero_of_not_pos none', Nat.mul_zero] at overflow
    cases overflow
  rw [split, countParts_eq, List.drop_zero, if_pos more]
  refine splitLoop_none some' ?_
  rwa [Nat.zero_add]

theorem handedOut_eq (all : ∀ entry ∈ outs.zipIdx,
      entry.1.TakesAll 0 (pieces (partOf mode outs.length input entry.2)))
    : handedOut mode outs input
      = (List.range outs.length).map (partOf mode outs.length input) := by
  rw [← zipIdx_parts]
  refine List.map_congr_left fun entry among => ?_
  rw [(all entry among).delivered, pieces_flatten]

theorem takesAll_of_handedOut (some' : 0 < outs.length)
    (whole : (handedOut mode outs input).flatten = input)
    : ∀ entry ∈ outs.zipIdx,
        entry.1.TakesAll 0 (pieces (partOf mode outs.length input entry.2)) := by
  have parts
      : outs.zipIdx.flatMap (fun entry => partOf mode outs.length input entry.2) = input := by
    rw [List.flatMap_def, zipIdx_parts, ← List.flatMap_def, partOf_whole mode some']
  have same := @flatMap_measure _ outs.zipIdx
    (fun entry => entry.1.delivered 0 (pieces (partOf mode outs.length input entry.2)))
    (fun entry => partOf mode outs.length input entry.2) List.length
    (fun _ _ => List.length_append) (by rw [parts, List.flatMap_def]; exact whole)
    fun entry _ => by
      have bound := entry.1.delivered_length 0 (pieces (partOf mode outs.length input entry.2))
      rwa [pieces_flatten] at bound
  intro entry among
  refine (entry.1.delivered_length_eq_iff 0 _).mp ?_
  rw [pieces_flatten]
  exact same entry among

/-- `split` partitions its input exactly where the products that place its cuts fit, every stream
takes all of each write of its part, and space that the input begins with does not make the first
part one word short.
-/
theorem split_partitions_iff (mode : SplitMode) {outs : List OutStream} (some' : outs ≠ [])
    (input : Bytes)
    : Splits mode input (split mode outs input)
      ↔ outs.length * (unitCount mode input + opens mode input) ≤ LONG_MAX
        ∧ (∀ entry ∈ outs.zipIdx,
          entry.1.TakesAll 0 (pieces (partOf mode outs.length input entry.2)))
        ∧ ¬(opens mode input = 1 ∧ outs.length ≤ unitCount mode input + 1
          ∧ ¬outs.length ∣ unitCount mode input + 1) := by
  have streams : 0 < outs.length := List.length_pos_of_ne_nil some'
  have unevenly : (opens mode input = 1 ∧ outs.length ≤ unitCount mode input + 1
        ∧ ¬outs.length ∣ unitCount mode input + 1)
      ↔ opens mode input = 1 ∧ outs.length ≤ (units mode input).length
        ∧ ¬outs.length ∣ (units mode input).length := by
    refine and_congr_right fun space => ?_
    rw [units_length, space]
  rw [unevenly, ← partOf_even_iff mode streams input, ← units_length]
  have member {s : Nat} (inside : s < outs.length)
      : partOf mode outs.length input s
        ∈ (List.range outs.length).map (partOf mode outs.length input) :=
    List.mem_map_of_mem (List.mem_range.mpr inside)
  constructor
  · rintro ⟨parts, outcome, whole, cuts, even⟩
    have fits : outs.length * (units mode input).length ≤ LONG_MAX := by
      by_contra overflow
      cases (split_none some' (Nat.not_le.mp overflow)).symm.trans outcome
    obtain rfl := Option.some.inj ((split_eq fits).symm.trans outcome)
    have all := takesAll_of_handedOut streams whole
    rw [handedOut_eq all] at even
    exact ⟨fits, all, fun s insideS t insideT => even _ (member insideS) _ (member insideT)⟩
  · rintro ⟨fits, all, even⟩
    refine ⟨_, split_eq fits, ?_⟩
    rw [handedOut_eq all]
    refine ⟨?_, partOf_cuts mode streams input, ?_⟩
    · rw [← List.flatMap_def, partOf_whole mode streams]
    · intro one amongOne two amongTwo
      obtain ⟨s, insideS, rfl⟩ := List.mem_map.mp amongOne
      obtain ⟨t, insideT, rfl⟩ := List.mem_map.mp amongTwo
      exact even s (List.mem_range.mp insideS) t (List.mem_range.mp insideT)

/-- Two lines for two streams that take all. -/
theorem split_two_lines
    : Splits .lines [97, 10, 98, 10]
        (split .lines [wholeWrites, wholeWrites] [97, 10, 98, 10]) := by
  refine (split_partitions_iff .lines (List.cons_ne_nil _ _) _).mpr ⟨?_, ?_, ?_⟩
  · decide +kernel
  · intro entry among
    have stream : entry.1 = wholeWrites := by
      have inside := List.mem_map_of_mem (f := Prod.fst) among
      rw [List.zipIdx_map_fst] at inside
      simpa using inside
    rw [stream]
    exact wholeWrites_takesAll 0 _
  · exact fun space => nomatch space.1

/-- A line for a stream that takes one byte with each write: the rest of the line is not written. -/
theorem split_loses_rest : ¬Splits .lines [97, 10] (split .lines [oneByte] [97, 10]) := by
  rintro ⟨parts, outcome, partitions⟩
  have written : split .lines [oneByte] [97, 10] = some [[97]] := by
    decide +kernel
  obtain rfl := Option.some.inj (written.symm.trans outcome)
  cases partitions.whole

end Panuti.Pcrutils
