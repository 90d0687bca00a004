import Panuti.Pcrutils.Outputs

/-! `nl`: a number in front of each line. The utility pads its numbers at their right end, and
writes six bytes of them, whatever their length.
-/

namespace Panuti.Pcrutils

open Decimal Panuti.Pcrutils.Seq

def NL_WIDTH : Nat := 6

def BLANK : UInt8 := 32

-- The utility

/-- `start`: the value of `-v`, if there is one. It is refused when it is not a number, and a number
has no sign.
-/
def nlStart : (value : Option Bytes) → Option Nat
  | none => some 1
  | some value => pcrParseLong value

/-- What `main` takes from its buffer: the digits, padded behind them. -/
def nlNum (num : Bytes) : Bytes :=
  (num ++ List.replicate (NL_WIDTH - num.length) BLANK).take NL_WIDTH

/-- What `main` writes for a line. -/
def nlLine (onlyOut0 : Bool) (sep : UInt8) (num line : Bytes) (sinks : List Sink)
    : List Sink × Bool :=
  if onlyOut0 then outputEach sinks true [nlNum num, [sep], cstr line]
  else outputEach sinks false [nlNum num ++ [sep] ++ cstr line]

/-- The loop of `main`: the streams afterwards, and whether they took everything. There is no result
where `n++` overflows.
-/
def nlLoop (onlyOut0 : Bool) (sep : UInt8) (n : Nat)
    : (lines : List Bytes) → (sinks : List Sink) → Option (List Sink × Bool)
  | [], sinks => some (sinks, true)
  | line :: lines, sinks =>
      let num := pcrUformat n 10
      if num = [] then some (sinks, false)
      else
        let done := nlLine onlyOut0 sep num line sinks
        if done.2 = false then some done
        else if n + 1 ≤ 2147483647 then nlLoop onlyOut0 sep (n + 1) lines done.1
        else none

/-- `nl`, from what its reads hand over. -/
def nl (onlyOut0 : Bool) (start : Nat) (sep : UInt8) (reads : List Bytes) (sinks : List Sink)
    : Option (List Sink × Bool) :=
  nlLoop onlyOut0 sep start (pcrStreamLines reads) sinks

-- Numbered lines

/-- A number right-aligned to six columns. -/
def aligned (n : Nat) : Bytes :=
  List.replicate (NL_WIDTH - (numeral n).length) BLANK ++ numeral n

def numberedLine (number : Nat → Bytes) (sep : UInt8) (line : Bytes × Nat) : Bytes :=
  number line.2 ++ [sep] ++ line.1

/-- The lines of an input with their numbers in front. -/
def numbered (number : Nat → Bytes) (start : Nat) (sep : UInt8) (input : Bytes) : Bytes :=
  ((splitLines [] input).zipIdx start).flatMap (numberedLine number sep)

/-- Every stream that is written to gets each line with its number right-aligned. -/
def Numbers (onlyOut0 : Bool) (outs : List OutStream) (start : Nat) (sep : UInt8)
    (reads : List Bytes)
    : Prop :=
  ∃ later, nl onlyOut0 start sep reads (outs.map Sink.fresh) = some (later, true)
    ∧ Wrote onlyOut0 (numbered aligned start sep reads.flatten) outs later

/-- `main` writes the first digits of a number. -/
def shown (n : Nat) : Bytes := nlNum (numeral n)

theorem shown_length (n : Nat) : (shown n).length = 6 := by
  rw [shown, nlNum, List.length_take, List.length_append, List.length_replicate, NL_WIDTH]
  omega

theorem aligned_length (n : Nat) : (aligned n).length = max 6 (numeral n).length := by
  rw [aligned, List.length_append, List.length_replicate, NL_WIDTH]
  omega

variable {n start : Nat} {onlyOut0 : Bool} {outs : List OutStream} {sinks : List Sink}
    {lines reads : List Bytes}

theorem shown_eq (low : 100000 ≤ n) (high : n < 1000000) : shown n = aligned n := by
  have most := (numeral_length_le_iff n 5).mpr high
  have least := (numeral_length_le_iff n 4).not.mpr (Nat.not_lt.mpr low)
  have long : (numeral n).length = 6 := by omega
  rw [shown, nlNum, aligned, NL_WIDTH, long, Nat.sub_self, List.replicate_zero, List.append_nil,
    List.nil_append, ← long, List.take_length]

theorem shown_head (low : n < 100000) : (shown n).head? ≠ (aligned n).head? := by
  have most := (numeral_length_le_iff n 4).mpr low
  have pads : NL_WIDTH - (numeral n).length = 5 - (numeral n).length + 1 := by
    rw [NL_WIDTH]
    omega
  rw [aligned, pads, List.replicate_succ]
  cases digits : numeral n with
  | nil => exact absurd digits (numeral_ne_nil n)
  | cons c rest =>
      rw [shown, nlNum, digits]
      intro same
      obtain rfl : c = BLANK := Option.some.inj same
      have digit := isDigit_of_mem_numeral (digits ▸ List.mem_cons_self)
      exact absurd digit (by decide)

theorem nlLine_spec {bytes line : Bytes} (wrote : Wrote onlyOut0 bytes outs sinks) (sep : UInt8)
    (n : Nat) (plain : 0 ∉ line)
    : ∃ later, nlLine onlyOut0 sep (numeral n) line sinks = (later, true)
        ∧ Wrote onlyOut0 (bytes ++ numberedLine shown sep (line, n)) outs later := by
  rw [nlLine, numberedLine, cstr_eq_self plain]
  cases onlyOut0 with
  | false =>
      have row := wrote.outputEach [shown n ++ [sep] ++ line]
      rwa [List.flatten_singleton] at row
  | true =>
      have row := wrote.outputEach [shown n, [sep], line]
      rwa [List.flatten_cons, List.flatten_cons, List.flatten_singleton,
        ← List.append_assoc (shown n)] at row

theorem nlLoop_spec {bytes : Bytes} (wrote : Wrote onlyOut0 bytes outs sinks) (sep : UInt8)
    (plain : ∀ line ∈ lines, 0 ∉ line) (small : n + lines.length ≤ 2147483647)
    : ∃ later, nlLoop onlyOut0 sep n lines sinks = some (later, true)
        ∧ Wrote onlyOut0 (bytes ++ (lines.zipIdx n).flatMap (numberedLine shown sep)) outs
          later := by
  induction lines generalizing n bytes sinks with
  | nil => exact ⟨sinks, rfl, by rwa [List.zipIdx_nil, List.flatMap_nil, List.append_nil]⟩
  | cons line lines ih =>
      rw [List.length_cons] at small
      have counts : n + 1 + lines.length ≤ 2147483647 := by omega
      have next : n + 1 ≤ 2147483647 := by omega
      obtain ⟨later, done, after⟩ := nlLine_spec wrote sep n (plain line List.mem_cons_self)
      obtain ⟨last, others, ends⟩ :=
        ih after (fun other among => plain other (List.mem_cons_of_mem line among)) counts
      refine ⟨last, ?_, by rwa [List.zipIdx_cons, List.flatMap_cons, ← List.append_assoc]⟩
      rw [nlLoop, pcrUformat_eq]
      dsimp only
      rw [if_neg (numeral_ne_nil n), done, if_neg Bool.true_eq_false.mp, if_pos next]
      exact others

theorem nlLoop_inside {sep : UInt8} {later : List Sink}
    (ends : nlLoop onlyOut0 sep n lines sinks = some (later, true)) (inside : n ≤ 2147483647)
    : n + lines.length ≤ 2147483647 := by
  induction lines generalizing n sinks with
  | nil => exact inside
  | cons line lines ih =>
      rw [nlLoop] at ends
      dsimp only at ends
      split at ends
      next => cases ends
      next =>
          split at ends
          next failed =>
              rw [Option.some.inj ends] at failed
              cases failed
          next =>
              split at ends
              next next' =>
                  have counts := ih ends next'
                  rw [List.length_cons]
                  omega
              next => cases ends

-- What comes of it

theorem numbered_iff (start : Nat) (sep : UInt8) (input : Bytes)
    : numbered shown start sep input = numbered aligned start sep input
      ↔ input = [] ∨ 100000 ≤ start ∧ start + (splitLines [] input).length ≤ 1000000 := by
  rw [← splitLines_eq_nil_iff, numbered, numbered]
  generalize splitLines [] input = lines
  constructor
  · intro same
    cases lines with
    | nil => exact .inl rfl
    | cons line lines =>
        have low : 100000 ≤ start := by
          by_contra less
          have head (number : Nat → Bytes) (some' : number start ≠ [])
              : (((line :: lines).zipIdx start).flatMap (numberedLine number sep)).head?
                = (number start).head? := by
            rw [List.zipIdx_cons, List.flatMap_cons, numberedLine]
            obtain ⟨c, rest, digits⟩ := List.exists_cons_of_ne_nil some'
            rw [digits]
            rfl
          have heads := congrArg List.head? same
          rw [head, head] at heads
          · exact shown_head (Nat.lt_of_not_le less) heads
          · exact List.append_ne_nil_of_right_ne_nil _ (numeral_ne_nil start)
          · exact List.ne_nil_of_length_pos (by rw [shown_length]; decide)
        refine .inr ⟨low, ?_⟩
        have measured := flatMap_measure List.length (fun _ _ => List.length_append) same
          fun entry _ => by
            simp only [numberedLine, List.length_append, shown_length, aligned_length]
            omega
        have last : ((line :: lines)[lines.length], start + lines.length)
            ∈ (line :: lines).zipIdx start := by
          refine List.mk_add_mem_zipIdx_iff_getElem?.mpr ?_
          exact List.getElem?_eq_getElem ..
        have long := measured _ last
        simp only [numberedLine, List.length_append, shown_length, aligned_length] at long
        have most := (numeral_length_le_iff (start + lines.length) 5).mp (by omega)
        rw [List.length_cons]
        omega
  · rintro (rfl | ⟨low, high⟩)
    · rfl
    · refine List.flatMap_congr fun entry among => ?_
      have bounds := List.mem_zipIdx among
      rw [numberedLine, numberedLine, shown_eq (by omega) (by omega)]

theorem parseLoop_le {v w : Nat} {p : Bytes} (parsed : parseLoop v p = some w)
    (small : v ≤ 2147483647)
    : w ≤ 2147483647 := by
  induction p generalizing v with
  | nil =>
      obtain rfl := Option.some.inj parsed
      exact small
  | cons c p ih =>
      rw [parseLoop] at parsed
      split at parsed
      next => cases parsed
      next shown =>
          have least := digit_lt (Bool.eq_true_of_not_eq_false shown)
          split at parsed
          next => cases parsed
          next fits => exact ih parsed (by omega)

theorem nlStart_le {value : Option Bytes} (accepted : nlStart value = some start)
    : start ≤ 2147483647 := by
  cases value with
  | none =>
      obtain rfl := Option.some.inj accepted
      decide
  | some value =>
      rw [nlStart, pcrParseLong] at accepted
      split at accepted
      next => cases accepted
      next => exact parseLoop_le accepted (Nat.zero_le _)

theorem nl_spec (onlyOut0 : Bool) (outs : List OutStream) (sep : UInt8) (plain : 0 ∉ reads.flatten)
    (small : start + (splitLines [] reads.flatten).length ≤ 2147483647)
    : ∃ later, nl onlyOut0 start sep reads (outs.map Sink.fresh) = some (later, true)
        ∧ Wrote onlyOut0 (numbered shown start sep reads.flatten) outs later :=
  nlLoop_spec (wrote_fresh onlyOut0 outs) sep (lines_plain plain) small

theorem Numbers.six {out : OutStream} {sep : UInt8}
    (numbers : Numbers onlyOut0 (out :: outs) start sep reads) (inside : start ≤ 2147483647)
    (plain : 0 ∉ reads.flatten)
    : reads.flatten = []
      ∨ 100000 ≤ start ∧ start + (splitLines [] reads.flatten).length ≤ 1000000 := by
  obtain ⟨later, ends, wrote⟩ := numbers
  obtain ⟨other, endsToo, wroteToo⟩ :=
    nl_spec onlyOut0 (out :: outs) sep plain (nlLoop_inside ends inside)
  obtain rfl : later = other := congrArg Prod.fst (Option.some.inj (ends.symm.trans endsToo))
  exact (numbered_iff start sep _).mp (wroteToo.bytes_eq wrote)

/-- `nl` numbers the lines as it should just where each of their numbers has six digits. -/
theorem nl_numbers_iff (onlyOut0 : Bool) (out : OutStream) (outs : List OutStream)
    {value : Option Bytes} {start : Nat} (accepted : nlStart value = some start) (sep : UInt8)
    {reads : List Bytes} (plain : 0 ∉ reads.flatten)
    : Numbers onlyOut0 (out :: outs) start sep reads
      ↔ reads.flatten = []
        ∨ 100000 ≤ start ∧ start + (splitLines [] reads.flatten).length ≤ 1000000 := by
  have inside := nlStart_le accepted
  refine ⟨fun numbers => numbers.six inside plain, fun six => ?_⟩
  have small : start + (splitLines [] reads.flatten).length ≤ 2147483647 := by
    rcases six with none' | ⟨_, high⟩
    · rwa [splitLines_eq_nil_iff.mpr none']
    · omega
  obtain ⟨later, ends, wrote⟩ := nl_spec onlyOut0 (out :: outs) sep plain small
  exact ⟨later, ends, (numbered_iff start sep _).mpr six ▸ wrote⟩

/-- `nl -v 100000` on a single line. -/
theorem nl_six_digits : Numbers false [wholeWrites] 100000 9 [[97, NEWLINE]] := by
  have accepted : nlStart (some [49, 48, 48, 48, 48, 48]) = some 100000 := by decide
  exact (nl_numbers_iff false wholeWrites [] accepted 9 (by decide)).mpr
    (.inr ⟨by decide, by decide⟩)

/-- The first number, when none is given, is padded behind its only digit. -/
theorem nl_one
    : ¬ ∀ (onlyOut0 : Bool) (outs : List OutStream) (value : Option Bytes) (start : Nat)
        (sep : UInt8) (reads : List Bytes), nlStart value = some start → 0 ∉ reads.flatten
        → Numbers onlyOut0 outs start sep reads := by
  intro always
  have six := (always false [wholeWrites] none 1 9 [[97, NEWLINE]] rfl (by decide)).six
    (by decide) (by decide)
  rcases six with none' | ⟨low, _⟩
  · cases none'
  · exact absurd low (by decide)

end Panuti.Pcrutils
