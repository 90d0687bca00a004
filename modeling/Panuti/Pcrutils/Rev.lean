import Mathlib.Data.List.GetD
import Panuti.Pcrutils.Outputs

/-! `rev`: the characters of each line in reverse. The newline of a line is kept, but it goes out in
front of the others.
-/

namespace Panuti.Pcrutils

open Panuti.Pcrutils.Seq

-- The utility

/-- The loop of `rev_line` from a place down to the first one. -/
def revLoop (line : Bytes) : (i : Nat) → Bytes
  | 0 => []
  | i + 1 => line.getD i 0 :: revLoop line i

/-- `rev_line`: what it appends to its buffer. -/
def revLine (line : Bytes) : Bytes :=
  let len := (cstr line).length
  let body := if 0 < len ∧ line.getD (len - 1) 0 = NEWLINE then len - 1 else len
  (line.drop body).take (len - body) ++ revLoop line body

/-- The loop of `rev`, from what the reads hand over: the streams afterwards, and whether they took
everything.
-/
def rev (onlyOut0 : Bool) (reads : List Bytes) (sinks : List Sink) : List Sink × Bool :=
  outputEach sinks onlyOut0 ((pcrStreamLines reads).map revLine)

-- Its lines

/-- A line in reverse, its newline still at its end. -/
def reversed (line : Bytes) : Bytes := (body line).reverse ++ ending line

/-- A run of `rev` gives each stream this text. -/
def RevGives (onlyOut0 : Bool) (outs : List OutStream) (reads : List Bytes) (text : Bytes) : Prop :=
  ∃ later, rev onlyOut0 reads (outs.map Sink.fresh) = (later, true)
    ∧ Wrote onlyOut0 text outs later

/-- `rev` reverses the lines, and a second run, however its input comes in, gives the input back. -/
def Involutive (onlyOut0 : Bool) (outs : List OutStream) (reads : List Bytes) : Prop :=
  ∃ text, RevGives onlyOut0 outs reads text
    ∧ splitLines [] text = (splitLines [] reads.flatten).map reversed
    ∧ ∀ again : List Bytes, again.flatten = text → RevGives onlyOut0 outs again reads.flatten

variable {line : Bytes} {outs : List OutStream} {reads : List Bytes}

theorem revLoop_eq {i : Nat} (inside : i ≤ line.length)
    : revLoop line i = (line.take i).reverse := by
  induction i with
  | zero => rw [revLoop, List.take_zero, List.reverse_nil]
  | succ i ih =>
      have there : i < line.length := inside
      rw [revLoop, ih (Nat.le_of_lt there), List.take_succ_eq_append_getElem there,
        List.reverse_append, List.reverse_singleton, List.singleton_append,
        List.getD_eq_getElem _ _ there]

theorem revLine_ended {text : Bytes} (plain : 0 ∉ text ++ [NEWLINE])
    : revLine (text ++ [NEWLINE]) = NEWLINE :: text.reverse := by
  have long : (text ++ [NEWLINE]).length = text.length + 1 := List.length_append
  have last : (text ++ [NEWLINE]).getD text.length 0 = NEWLINE := by simp
  rw [revLine, cstr_eq_self plain, long, Nat.add_sub_cancel, last]
  rw [if_pos ⟨Nat.succ_pos _, rfl⟩, revLoop_eq (by omega), List.drop_left, List.take_left,
    Nat.add_sub_cancel_left]
  rfl

theorem revLine_open (plain : 0 ∉ line) (inside : NEWLINE ∉ line)
    : revLine line = line.reverse := by
  have other : ¬ (0 < line.length ∧ line.getD (line.length - 1) 0 = NEWLINE) := by
    rintro ⟨some', last⟩
    rw [List.getD_eq_getElem _ _ (by omega)] at last
    exact inside (last ▸ List.getElem_mem ..)
  rw [revLine, cstr_eq_self plain, if_neg other, Nat.sub_self, List.take_zero, List.nil_append,
    revLoop_eq (Nat.le_refl _), List.take_length]

theorem reversed_ended (text : Bytes)
    : reversed (text ++ [NEWLINE]) = text.reverse ++ [NEWLINE] := by
  rw [reversed, body_concat, ending_concat]

theorem reversed_open (inside : NEWLINE ∉ line) : reversed line = line.reverse := by
  rw [reversed, body_open inside, ending_open inside, List.append_nil]

theorem revGives_iff {onlyOut0 : Bool} {out : OutStream} {text : Bytes}
    : RevGives onlyOut0 (out :: outs) reads text
      ↔ text = (splitLines [] reads.flatten).flatMap revLine := by
  obtain ⟨later, done, wrote⟩ := (wrote_fresh onlyOut0 (out :: outs)).outputEach
    ((pcrStreamLines reads).map revLine)
  rw [List.nil_append] at wrote
  constructor
  · rintro ⟨other, doneToo, wroteToo⟩
    obtain rfl : later = other := congrArg Prod.fst (done.symm.trans doneToo)
    exact wroteToo.bytes_eq wrote
  · rintro rfl
    exact ⟨later, done, wrote⟩

-- What comes of it

/-- Lines that are no more than a newline, but for a last one without. -/
def Bodiless (lines : List Bytes) : Prop :=
  ∀ line ∈ lines, line.getLast? = some NEWLINE → line = [NEWLINE]

theorem Bodiless.reverse {input : Bytes} (bodiless : Bodiless (splitLines [] input))
    (plain : 0 ∉ input) (among : line ∈ splitLines [] input)
    : revLine line = line.reverse ∧ reversed line = line.reverse := by
  have linePlain := lines_plain plain line among
  rcases line_cases among with ⟨text, rfl, _⟩ | inside
  · obtain rfl : text = [] :=
      List.append_left_eq_self.mp (bodiless _ among List.getLast?_concat)
    exact ⟨revLine_ended linePlain, reversed_ended []⟩
  · exact ⟨revLine_open linePlain inside, reversed_open inside⟩

theorem Bodiless.lines {input : Bytes} (bodiless : Bodiless (splitLines [] input))
    : splitLines [] ((splitLines [] input).map List.reverse).flatten
      = (splitLines [] input).map List.reverse := by
  obtain ⟨rows, part, rfl, ended, inside⟩ := exists_rows input
  rw [splitLines_parts ended inside] at bodiless ⊢
  have same : rows.map List.reverse = rows := by
    refine (List.map_congr_left fun row among => ?_).trans (List.map_id rows)
    obtain ⟨text, rfl, _⟩ := ended row among
    rw [bodiless _ (List.mem_append_left _ among) List.getLast?_concat]
    rfl
  rw [List.map_append, same]
  have insideToo : NEWLINE ∉ part.reverse := fun member => inside (List.mem_reverse.mp member)
  have parts := splitLines_parts ended insideToo
  by_cases none' : part = []
  · rw [if_pos none', List.map_nil, List.append_nil]
    rwa [none', List.reverse_nil, if_pos rfl, List.append_nil, List.append_nil] at parts
  · rw [if_neg none', List.map_singleton, List.flatten_append, List.flatten_singleton]
    rwa [if_neg (mt List.reverse_eq_nil_iff.mp none')] at parts

theorem Involutive.bodiless {onlyOut0 : Bool} {out : OutStream} (plain : 0 ∉ reads.flatten)
    (involutive : Involutive onlyOut0 (out :: outs) reads)
    : Bodiless (splitLines [] reads.flatten) := by
  obtain ⟨text, gives, lines, _⟩ := involutive
  have texts := congrArg List.flatten lines
  rw [splitLines_flatten, List.nil_append, revGives_iff.mp gives] at texts
  have each := flatMap_inj (fun line among => ?_) texts
  · intro line among last
    rcases line_cases among with ⟨text, rfl, inside⟩ | inside
    · have same := each _ among
      rw [revLine_ended (lines_plain plain _ among), reversed_ended] at same
      cases backward : text.reverse with
      | nil => rw [List.reverse_eq_nil_iff.mp backward, List.nil_append]
      | cons c rest =>
          rw [backward] at same
          obtain ⟨rfl, _⟩ := List.cons.inj same
          exact absurd (List.mem_reverse.mp (backward ▸ List.mem_cons_self)) inside
    · exact absurd (List.mem_of_getLast? last) inside
  · rcases line_cases among with ⟨text, rfl, _⟩ | inside
    · rw [revLine_ended (lines_plain plain _ among), reversed_ended]
      simp
    · rw [revLine_open (lines_plain plain _ among) inside, reversed_open inside]

/-- `rev` is a line-wise involution just where every newline is all of its line. -/
theorem rev_involutive_iff (onlyOut0 : Bool) (out : OutStream) (outs : List OutStream)
    {reads : List Bytes} (plain : 0 ∉ reads.flatten)
    : Involutive onlyOut0 (out :: outs) reads
      ↔ ∀ line ∈ splitLines [] reads.flatten, line.getLast? = some NEWLINE → line = [NEWLINE] := by
  refine ⟨Involutive.bodiless plain, fun bodiless => ?_⟩
  have once : (splitLines [] reads.flatten).flatMap revLine
      = ((splitLines [] reads.flatten).map List.reverse).flatten :=
    List.flatMap_congr fun line among => (Bodiless.reverse bodiless plain among).1
  refine ⟨_, revGives_iff.mpr rfl, ?_, fun again same => revGives_iff.mpr ?_⟩
  · rw [once, Bodiless.lines bodiless]
    exact List.map_congr_left fun line among => (Bodiless.reverse bodiless plain among).2.symm
  · rw [same, once, Bodiless.lines bodiless, List.flatMap_map]
    have twice : (splitLines [] reads.flatten).flatMap (fun line => revLine line.reverse)
        = (splitLines [] reads.flatten).flatMap id := by
      refine List.flatMap_congr fun line among => ?_
      have linePlain := lines_plain plain line among
      rcases line_cases among with ⟨text, rfl, _⟩ | inside
      · rw [bodiless _ among List.getLast?_concat]
        rfl
      · rw [revLine_open (fun zero => linePlain (List.mem_reverse.mp zero))
          (fun newline => inside (List.mem_reverse.mp newline)), List.reverse_reverse, id]
    rw [twice, List.flatMap_id, splitLines_flatten, List.nil_append]

theorem rev_involutive_empty : Involutive false [wholeWrites] [[NEWLINE, 97]] :=
  (rev_involutive_iff false wholeWrites [] (by decide)).mpr (by decide)

/-- `ab` on a line of its own comes out behind its newline. -/
theorem rev_ab
    : ¬ ∀ (onlyOut0 : Bool) (outs : List OutStream) (reads : List Bytes),
        0 ∉ reads.flatten → Involutive onlyOut0 outs reads := by
  intro always
  have bodiless := (always false [wholeWrites] [[97, 98, NEWLINE]] (by decide)).bodiless (by decide)
  exact absurd (bodiless [97, 98, NEWLINE] (by decide) rfl) (by decide)

end Panuti.Pcrutils
