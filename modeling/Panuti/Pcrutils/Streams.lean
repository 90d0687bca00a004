import Mathlib.Data.List.Induction
import Panuti.Pcrutils.Text

/-! Streams as the utilities see them: an in stream hands over a chunk with every read, and an out
stream takes something of every write, but not always all of it.
-/

namespace Panuti.Pcrutils

/-- `HEAD_BUFSZ` and `TAIL_BUFSZ`: what a read asks for. -/
def BUFSZ : Nat := 128

/-- `TAIL_OUTSZ` and `SPLIT_OUTSZ`: what a write offers at most. -/
def OUTSZ : Nat := 128

/-- What the reads of an in stream hand over. A read that hands over nothing is its end. -/
structure Reads where
  chunks : List Bytes
  some' : ∀ chunk ∈ chunks, chunk ≠ []
  small : ∀ chunk ∈ chunks, chunk.length ≤ BUFSZ

def Reads.input (reads : Reads) : Bytes := reads.chunks.flatten

/-- An out stream: how many bytes it takes of those that each of its writes offers. -/
structure OutStream where
  takes : (write offered : Nat) → Nat
  positive : ∀ write offered, 0 < offered → 0 < takes write offered
  bounded : ∀ write offered, takes write offered ≤ offered

def wholeWrites : OutStream where
  takes := fun _ offered => offered
  positive := fun _ _ some' => some'
  bounded := fun _ _ => le_refl _

def oneByte : OutStream where
  takes := fun _ offered => min 1 offered
  positive := fun _ _ some' => Nat.lt_min.mpr ⟨Nat.one_pos, some'⟩
  bounded := fun _ _ => Nat.min_le_right _ _

/-- What an out stream ends up with, from the offers of the writes to it. -/
def OutStream.delivered (out : OutStream) (write : Nat) : List Bytes → Bytes
  | [] => []
  | offer :: offers =>
      offer.take (out.takes write offer.length) ++ out.delivered (write + 1) offers

/-- An out stream takes all of what it is offered. -/
def OutStream.TakesAll (out : OutStream) (write : Nat) : List Bytes → Prop
  | [] => True
  | offer :: offers =>
      out.takes write offer.length = offer.length ∧ out.TakesAll (write + 1) offers

/-- The out streams that are written to: the first one, or all of them. -/
def written (onlyOut0 : Bool) (outs : List OutStream) : List OutStream :=
  if onlyOut0 then outs.take 1 else outs

/-- The offers of a loop that writes data piece by piece, whatever is taken of them. -/
def pieces (data : Bytes) : List Bytes :=
  if data = [] then [] else data.take OUTSZ :: pieces (data.drop OUTSZ)
termination_by data.length
decreasing_by
  rename_i some'
  have long := List.length_pos_of_ne_nil some'
  rw [List.length_drop, OUTSZ]
  omega

theorem pieces_flatten (data : Bytes) : (pieces data).flatten = data := by
  fun_induction pieces data with
  | case1 => rfl
  | case2 data some' ih => rw [List.flatten_cons, ih, List.take_append_drop]

theorem wholeWrites_takesAll (write : Nat) (offers : List Bytes)
    : wholeWrites.TakesAll write offers := by
  induction offers generalizing write with
  | nil => trivial
  | cons offer offers ih => exact ⟨rfl, ih (write + 1)⟩

theorem OutStream.delivered_length (out : OutStream) (write : Nat) (offers : List Bytes)
    : (out.delivered write offers).length ≤ offers.flatten.length := by
  induction offers generalizing write with
  | nil => exact le_refl _
  | cons offer offers ih =>
      rw [delivered, List.flatten_cons, List.length_append, List.length_append, List.length_take]
      exact Nat.add_le_add (Nat.min_le_right _ _) (ih (write + 1))

theorem OutStream.delivered_length_eq_iff (out : OutStream) (write : Nat) (offers : List Bytes)
    : (out.delivered write offers).length = offers.flatten.length
      ↔ out.TakesAll write offers := by
  induction offers generalizing write with
  | nil => exact iff_of_true rfl trivial
  | cons offer offers ih =>
      have rest := out.delivered_length (write + 1) offers
      have first := out.bounded write offer.length
      rw [delivered, List.flatten_cons, List.length_append, List.length_append, List.length_take,
        TakesAll, ← ih, Nat.min_eq_left first]
      omega

theorem OutStream.TakesAll.delivered {out : OutStream} {write : Nat} {offers : List Bytes}
    (all : out.TakesAll write offers)
    : out.delivered write offers = offers.flatten := by
  induction offers generalizing write with
  | nil => rfl
  | cons offer offers ih =>
      rw [OutStream.delivered, all.1, List.take_length, ih all.2, List.flatten_cons]

theorem OutStream.delivered_eq_iff (out : OutStream) (write : Nat) (offers : List Bytes)
    : out.delivered write offers = offers.flatten ↔ out.TakesAll write offers :=
  ⟨fun same => (out.delivered_length_eq_iff write offers).mp (congrArg List.length same),
    TakesAll.delivered⟩

-- The first and the last lines

def firstLines (count : Nat) (input : Bytes) : Bytes := ((splitLines [] input).take count).flatten

def lastOf {α : Type} (count : Nat) (rows : List α) : List α := rows.drop (rows.length - count)

def lastLines (count : Nat) (input : Bytes) : Bytes := (lastOf count (splitLines [] input)).flatten

/-- Bytes up to a newline that ends a number of lines. -/
def upTo : (lines : Nat) → Bytes → Bytes
  | 0, _ => []
  | _ + 1, [] => []
  | lines + 1, c :: rest => c :: if c = NEWLINE then upTo lines rest else upTo (lines + 1) rest

variable {α : Type} {lines count : Nat} {text : Bytes} {rows : List Bytes}

theorem upTo_append_of_le {one : Bytes} (enough : lines ≤ one.count NEWLINE) (two : Bytes)
    : upTo lines (one ++ two) = upTo lines one := by
  induction one generalizing lines with
  | nil =>
      obtain rfl := Nat.le_zero.mp enough
      rw [upTo, upTo]
  | cons c one ih =>
      cases lines with
      | zero => rfl
      | succ lines =>
          rw [List.cons_append, upTo, upTo]
          by_cases newline : c = NEWLINE
          · rw [newline, List.count_cons_self] at enough
            rw [if_pos newline, if_pos newline, ih (Nat.le_of_succ_le_succ enough)]
          · rw [List.count_cons_of_ne newline] at enough
            rw [if_neg newline, if_neg newline, ih enough]

theorem upTo_append_of_lt {one : Bytes} (few : one.count NEWLINE < lines) (two : Bytes)
    : upTo lines (one ++ two) = one ++ upTo (lines - one.count NEWLINE) two := by
  induction one generalizing lines with
  | nil => rfl
  | cons c one ih =>
      cases lines with
      | zero => cases few
      | succ lines =>
          rw [List.cons_append, upTo]
          by_cases newline : c = NEWLINE
          · rw [newline, List.count_cons_self] at few ⊢
            rw [if_pos rfl, ih (Nat.lt_of_succ_lt_succ few), Nat.add_sub_add_right,
              List.cons_append]
          · rw [List.count_cons_of_ne newline] at few ⊢
            rw [if_neg newline, ih few, List.cons_append]

theorem upTo_of_lt {bytes : Bytes} (few : bytes.count NEWLINE < lines)
    : upTo lines bytes = bytes := by
  have all := upTo_append_of_lt few []
  cases left : lines - bytes.count NEWLINE with
  | zero => omega
  | succ more => rwa [left, List.append_nil, upTo, List.append_nil] at all

theorem upTo_take (lines : Nat) (bytes : Bytes) : (upTo lines bytes).IsPrefix bytes := by
  fun_induction upTo lines bytes with
  | case1 => exact List.nil_prefix
  | case2 => exact List.nil_prefix
  | case3 lines c rest one two =>
      refine (List.prefix_cons_inj c).mpr ?_
      split
      next => exact one
      next => exact two

theorem splitLines_take (line bytes : Bytes) (lines : Nat)
    : ((splitLines line bytes).take (lines + 1)).flatten = line ++ upTo (lines + 1) bytes := by
  induction bytes generalizing line lines with
  | nil =>
      rw [splitLines, upTo, List.append_nil]
      by_cases empty : line = []
      · rw [if_pos empty, empty]
        rfl
      · rw [if_neg empty]
        simp
  | cons c rest ih =>
      rw [splitLines, upTo]
      by_cases newline : c = NEWLINE
      · rw [if_pos newline, if_pos newline, List.take_succ_cons, List.flatten_cons]
        cases lines with
        | zero => rw [List.take_zero, List.flatten_nil, upTo, List.append_nil]
        | succ lines => rw [ih, List.nil_append, List.append_assoc, List.singleton_append]
      · rw [if_neg newline, if_neg newline, ih, List.append_assoc, List.singleton_append]

theorem firstLines_succ (lines : Nat) (input : Bytes)
    : firstLines (lines + 1) input = upTo (lines + 1) input :=
  splitLines_take [] input lines

def Ended (row : Bytes) : Prop := ∃ text, row = text ++ [NEWLINE] ∧ NEWLINE ∉ text

theorem firstLines_take (count : Nat) (input : Bytes)
    : (firstLines count input).IsPrefix input := by
  cases count with
  | zero => exact List.nil_prefix
  | succ count =>
      rw [firstLines_succ]
      exact upTo_take (count + 1) input

theorem splitLines_through (inside : NEWLINE ∉ text) (line rest : Bytes)
    : splitLines line (text ++ rest) = splitLines (line ++ text) rest := by
  induction text generalizing line with
  | nil => rw [List.nil_append, List.append_nil]
  | cons c text ih =>
      have other : c ≠ NEWLINE := fun same => inside (same ▸ List.mem_cons_self)
      rw [List.cons_append, splitLines, if_neg other,
        ih (fun member => inside (List.mem_cons_of_mem c member)), List.append_assoc,
        List.singleton_append]

theorem splitLines_line (inside : NEWLINE ∉ text) (line rest : Bytes)
    : splitLines line (text ++ NEWLINE :: rest)
      = (line ++ text ++ [NEWLINE]) :: splitLines [] rest := by
  rw [splitLines_through inside, splitLines, if_pos rfl]

theorem splitLines_rows (ended : ∀ row ∈ rows, Ended row) (rest : Bytes)
    : splitLines [] (rows.flatten ++ rest) = rows ++ splitLines [] rest := by
  induction rows with
  | nil => rfl
  | cons row rows ih =>
      obtain ⟨text, rfl, inside⟩ := ended row List.mem_cons_self
      rw [List.flatten_cons, List.append_assoc, List.append_assoc, List.singleton_append,
        splitLines_line inside, ih fun other member => ended other (List.mem_cons_of_mem _ member)]
      rfl

theorem splitLines_open (inside : NEWLINE ∉ text) (line : Bytes)
    : splitLines line text = if line ++ text = [] then [] else [line ++ text] := by
  rw [← List.append_nil text, splitLines_through inside, splitLines, List.append_nil]

theorem splitLines_parts {part : Bytes} (ended : ∀ row ∈ rows, Ended row) (inside : NEWLINE ∉ part)
    : splitLines [] (rows.flatten ++ part) = rows ++ if part = [] then [] else [part] := by
  rw [splitLines_rows ended, splitLines_open inside, List.nil_append]

theorem exists_rows (input : Bytes)
    : ∃ (rows : List Bytes) (part : Bytes), input = rows.flatten ++ part
      ∧ (∀ row ∈ rows, Ended row) ∧ NEWLINE ∉ part := by
  induction input using List.reverseRecOn with
  | nil => exact ⟨[], [], rfl, nofun, List.not_mem_nil⟩
  | append_singleton input c ih =>
      obtain ⟨rows, part, rfl, ended, inside⟩ := ih
      by_cases newline : c = NEWLINE
      · refine ⟨rows ++ [part ++ [c]], [], ?_, fun row member => ?_, List.not_mem_nil⟩
        · rw [List.flatten_append, List.flatten_singleton, List.append_nil, List.append_assoc]
        · obtain before | here := List.mem_append.mp member
          · exact ended row before
          · exact ⟨part, by rw [List.mem_singleton.mp here, newline], inside⟩
      · refine ⟨rows, part ++ [c], List.append_assoc _ _ _, ended, fun member => ?_⟩
        obtain before | here := List.mem_append.mp member
        · exact inside before
        · exact newline (List.mem_singleton.mp here).symm

theorem line_ne_nil {input line : Bytes} (among : line ∈ splitLines [] input) : line ≠ [] := by
  obtain ⟨rows, part, rfl, ended, inside⟩ := exists_rows input
  rw [splitLines_parts ended inside] at among
  rcases List.mem_append.mp among with before | last
  · obtain ⟨text, rfl, _⟩ := ended line before
    exact List.append_ne_nil_of_right_ne_nil _ (List.cons_ne_nil _ _)
  · split at last
    next => cases last
    next some' => rwa [List.mem_singleton.mp last]

theorem upTo_rows (ended : ∀ row ∈ rows, Ended row) (count : Nat)
    : upTo count rows.flatten = (rows.take count).flatten := by
  have lines := splitLines_rows ended []
  rw [splitLines, if_pos rfl, List.append_nil, List.append_nil] at lines
  cases count with
  | zero => rw [upTo, List.take_zero, List.flatten_nil]
  | succ count => rw [← firstLines_succ, firstLines, lines]

-- The last ones of some lines

theorem lastOf_of_le {rows : List α} (few : rows.length ≤ count) : lastOf count rows = rows := by
  rw [lastOf, Nat.sub_eq_zero_of_le few, List.drop_zero]

theorem lastOf_zero (rows : List α) : lastOf 0 rows = [] := by
  rw [lastOf, Nat.sub_zero, List.drop_length]

theorem lastOf_length (count : Nat) (rows : List α)
    : (lastOf count rows).length = min count rows.length := by
  rw [lastOf, List.length_drop]
  omega

theorem mem_of_mem_lastOf {rows : List α} {row : α} (among : row ∈ lastOf count rows)
    : row ∈ rows :=
  List.mem_of_mem_drop among

theorem lastOf_lastOf {more : Nat} (le : count ≤ more) (rows : List α)
    : lastOf count (lastOf more rows) = lastOf count rows := by
  rw [lastOf, lastOf_length, lastOf, List.drop_drop, lastOf]
  congr 1
  omega

theorem lastOf_concat (count : Nat) (rows : List α) (row : α)
    : lastOf (count + 1) (rows ++ [row]) = lastOf count rows ++ [row] := by
  rw [lastOf, List.length_append, List.length_singleton, Nat.add_sub_add_right,
    List.drop_append_of_le_length (Nat.sub_le _ _), lastOf]

theorem lastOf_lastOf_concat (count : Nat) (rows : List α) (row : α)
    : lastOf count (lastOf count rows ++ [row]) = lastOf count (rows ++ [row]) := by
  cases count with
  | zero => rw [lastOf_zero, lastOf_zero]
  | succ count => rw [lastOf_concat, lastOf_concat, lastOf_lastOf (Nat.le_succ count)]

end Panuti.Pcrutils
