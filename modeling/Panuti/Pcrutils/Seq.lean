import Panuti.Library.Decimal
import Panuti.Library.Outcome
import Panuti.Pcrutils.Streams

/-! `seq`: a run of numbers, one to a line. The utility takes its first argument for the end of the
run, its second one for the start and its third one for the step, whatever their number; its usage
puts the end last.
-/

namespace Panuti.Pcrutils.Seq

open Decimal

def LONG_MAX : Int := 2147483647

def LONG_MIN : Int := -2147483648

/-- What a `long` can hold. -/
def InLong (v : Int) : Prop := LONG_MIN ≤ v ∧ v ≤ LONG_MAX

instance (v : Int) : Decidable (InLong v) := inferInstanceAs (Decidable (_ ∧ _))

def HYPHEN : UInt8 := 45

-- What the utilities share

/-- The loop of `pcr_parse_long`. -/
def parseLoop (v : Nat) : Bytes → Option Nat
  | [] => some v
  | c :: p =>
      if Decimal.isDigit c = false then none
      else if (2147483647 - digit c) / 10 < v then none
      else parseLoop (v * 10 + digit c) p

def pcrParseLong (s : Bytes) : Option Nat := if s = [] then none else parseLoop 0 s

/-- The characters that `pcr_uformat` writes digits with. -/
def DIGITS : Bytes := "0123456789abcdefghijklmnopqrstuvwxyz".toUTF8.data.toList

/-- The loop of `pcr_uformat` that takes a number apart, its last digit first. -/
def uformatLoop (base v : Nat) : Bytes :=
  if v = 0 ∨ base < 2 then [] else DIGITS.getD (v % base) 0 :: uformatLoop base (v / base)
termination_by v
decreasing_by exact Nat.div_lt_self (by omega) (by omega)

/-- `pcr_uformat`: the text of a number, none for a base that it does not know. -/
def pcrUformat (v base : Nat) : Bytes :=
  if base < 2 ∨ 36 < base then []
  else if v = 0 then [48]
  else (uformatLoop base v).reverse

def pcrOptionProvided (args : List Bytes) (option : Bytes) : Bool :=
  let opt := if option.head? = some HYPHEN then option.tail else option
  args.any fun a => a.head? = some HYPHEN && a.tail ≠ [] && a.tail = opt

/-- An out stream in use: what `stream_write` answers to each write, how many writes there were,
and the bytes that it took.
-/
structure Sink where
  answer : (write offered : Nat) → Int
  writes : Nat
  bytes : Bytes

/-- `pcr_write_all`: the stream afterwards, and whether it took everything. -/
def pcrWriteAll (sink : Sink) (buf : Bytes) : Sink × Bool :=
  if buf = [] then (sink, true)
  else
    let w := sink.answer sink.writes buf.length
    if w ≤ 0 then ({ sink with writes := sink.writes + 1 }, false)
    else
      pcrWriteAll
        { sink with writes := sink.writes + 1, bytes := sink.bytes ++ buf.take w.toNat }
        (buf.drop w.toNat)
termination_by buf.length
decreasing_by
  rename_i some' positive
  have long := List.length_pos_of_ne_nil some'
  rw [List.length_drop]
  omega

/-- `pcr_output`: the streams afterwards, and whether all that were written to took everything. -/
def pcrOutput (sinks : List Sink) (buf : Bytes) (onlyOut0 : Bool) : List Sink × Bool :=
  let streams := if onlyOut0 then 1 else sinks.length
  let done := (sinks.take streams).map fun sink => pcrWriteAll sink buf
  (done.map Prod.fst ++ sinks.drop streams, done.all Prod.snd)

-- The utility

/-- What `seq` says on the console. -/
inductive Message where
  | help
  | invalidOption (option : Bytes)
  | noEnd
  | tooMany
  | notANumber (text : Bytes)
  | zeroStep
  | noOutStreams
  | notWritten
deriving Repr, DecidableEq

def number (text : Bytes) : Except Message Int :=
  match pcrParseLong text with
  | none => .error (.notANumber text)
  | some v => .ok v

/-- An argument that need not be there, as a number. -/
def numberOr (default : Int) : Option Bytes → Except Message Int
  | none => .ok default
  | some text => number text

/-- What `main` takes its arguments for: the start of the run, its step and its end. The loop over
the options gets no further than the first argument: it refuses a single hyphen, and ends at
anything else.
-/
def seqArguments : List Bytes → Except Message (Int × Int × Int)
  | [] => .error .noEnd
  | one :: rest => do
      if one = [HYPHEN] then .error (.invalidOption one.tail)
      if 2 < rest.length then .error .tooMany
      let last ← number one
      let a ← numberOr 1 rest[0]?
      let step ← numberOr 1 rest[1]?
      if step = 0 then .error .zeroStep else return (a, step, last)

/-- The condition of the loop of `main`. -/
def goesOn (step last v : Int) : Bool := if 0 < step then v ≤ last else last ≤ v

def wraps (step v next : Int) : Bool := if 0 < step then next ≤ v else v ≤ next

/-- The loop of `main`: the streams afterwards, and whether they took everything. There is no result
where the addition of the step overflows.
-/
def seqLoop (step last v : Int) (sinks : List Sink) : Option (List Sink × Bool) :=
  if goesOn step last v then
    let num := pcrUformat (v % 2 ^ 32).toNat 10
    let one := pcrOutput sinks num false
    if num = [] ∨ one.2 = false then some (one.1, false)
    else
      let two := pcrOutput one.1 [NEWLINE] false
      if two.2 = false then some (two.1, false)
      else if InLong (v + step) then
        if wraps step v (v + step) then some (two.1, true)
        else seqLoop step last (v + step) two.1
      else none
  else some (sinks, true)
termination_by if 0 < step then (LONG_MAX - v).toNat else (v - LONG_MIN).toNat
decreasing_by
  rename_i inside on
  obtain ⟨low, high⟩ := inside
  rw [wraps] at on
  split at on
  next up =>
      rw [decide_eq_true_eq] at on
      rw [if_pos up, if_pos up]
      omega
  next down =>
      rw [decide_eq_true_eq] at on
      rw [if_neg down, if_neg down]
      omega

/-- How a run of `seq` ends: what it said, its status and its streams. -/
structure Outcome where
  said : List Message
  status : Int
  sinks : List Sink

/-- `main`. There is no outcome where an addition overflows. -/
def seq (args : List Bytes) (sinks : List Sink) : Option Outcome :=
  if pcrOptionProvided args [104] then some ⟨[.help], 0, sinks⟩
  else
    match seqArguments args with
    | .error message => some ⟨[message], -1, sinks⟩
    | .ok (a, step, last) =>
        if sinks.length < 1 then some ⟨[.noOutStreams], -1, sinks⟩
        else
          match seqLoop step last a sinks with
          | none => none
          | some (sinks, false) => some ⟨[.notWritten], -1, sinks⟩
          | some (sinks, true) => some ⟨[], 0, sinks⟩

-- What the usage describes

def Digits (text : Bytes) : Prop := text ≠ [] ∧ ∀ c ∈ text, Decimal.isDigit c = true

instance (text : Bytes) : Decidable (Digits text) := inferInstanceAs (Decidable (_ ∧ _))

theorem digits_one {c : UInt8} (digit : Decimal.isDigit c = true) : Digits [c] :=
  ⟨List.cons_ne_nil c [], List.forall_mem_singleton.mpr digit⟩

def Signed (text : Bytes) : Prop := text.head? = some HYPHEN

instance (text : Bytes) : Decidable (Signed text) := inferInstanceAs (Decidable (_ = _))

/-- A text stands for an integer that a `long` can hold. -/
def Denotes (text : Bytes) (x : Int) : Prop :=
  InLong x ∧ (Digits text ∧ x = value text ∨ Signed text ∧ Digits text.tail ∧ x = -value text.tail)

/-- What a run is asked for by `seq last`, `seq first last` and `seq first step last`. -/
inductive Asks : (args : List Bytes) → (first step last : Int) → Prop where
  | last {one : Bytes} {last : Int} (l : Denotes one last) : Asks [one] 1 1 last
  | firstLast {one two : Bytes} {first last : Int} (f : Denotes one first) (l : Denotes two last)
      : Asks [one, two] first 1 last
  | firstStepLast {one two three : Bytes} {first step last : Int} (f : Denotes one first)
      (s : Denotes two step) (l : Denotes three last) (nonzero : step ≠ 0)
      : Asks [one, two, three] first step last

def Past (step last v : Int) : Prop := if 0 < step then last < v else v < last

/-- The values of a run: one step apart, none of them past the end, and none left out. -/
structure Runs (first step last : Int) (values : List Int) : Prop where
  steps : values = (List.range values.length).map fun i : Nat => first + (i : Int) * step
  inside : ∀ v ∈ values, ¬ Past step last v
  whole : Past step last (first + values.length * step)

def decimal (x : Int) : Bytes :=
  if x < 0 then HYPHEN :: numeral (-x).toNat else numeral x.toNat

def rows (values : List Int) : Bytes := (values.map fun v => decimal v ++ [NEWLINE]).flatten

def Sink.fresh (out : OutStream) : Sink where
  answer := fun write offered => out.takes write offered
  writes := 0
  bytes := []

/-- `seq` stops without an overflow, and each out stream has the run that was asked for. -/
def PrintsRun (args : List Bytes) (first step last : Int) (outs : List OutStream) : Prop :=
  ∃ values outcome, Runs first step last values
    ∧ seq args (outs.map Sink.fresh) = some outcome
    ∧ ∀ sink ∈ outcome.sinks, sink.bytes = rows values

/-- What the arguments have to be for `seq` to print the run. With a hyphen in front of one of
them it prints nothing. Otherwise it ends at the first number: what it counts there has to be what
the usage describes, and the number behind it still a `long`.
-/
def SeqKeeps (args : List Bytes) (first step last : Int) : Prop :=
  if ∃ text ∈ args, Signed text then Past step last first
  else
    match args.length with
    | 1 => last < LONG_MAX
    | 2 => first = last ∧ last < LONG_MAX
    | _ =>
        last < first ∧ (last = 0 ∨ first < step)
        ∨ first = step ∧ first ≤ last ∧ last < first + step ∧ step + last ≤ LONG_MAX

-- Numbers in and out

theorem parseLoop_digits {v : Nat} {p : Bytes} (digits : ∀ c ∈ p, Decimal.isDigit c = true)
    (fits : (valueFrom v p : Int) ≤ LONG_MAX)
    : parseLoop v p = some (valueFrom v p) := by
  induction p generalizing v with
  | nil => rfl
  | cons c p ih =>
      have shown := digits c List.mem_cons_self
      have small := digit_lt shown
      have least := le_valueFrom (10 * v + digit c) p
      rw [valueFrom_cons] at fits ⊢
      rw [LONG_MAX] at fits
      rw [parseLoop, if_neg (by rw [shown]; exact Bool.noConfusion), if_neg (by omega),
        Nat.mul_comm v 10]
      exact ih (fun c member => digits c (List.mem_cons_of_mem _ member)) fits

variable {text bytes one : Bytes} {outs : List OutStream} {sinks : List Sink}
    {first step last : Int} {values : List Int} {args : List Bytes}

theorem Denotes.number_unsigned {x : Int} (denotes : Denotes text x) (unsigned : ¬ Signed text)
    : number text = .ok x ∧ 0 ≤ x := by
  obtain ⟨⟨_, high⟩, ⟨⟨some', digits⟩, rfl⟩ | ⟨signed, _⟩⟩ := denotes
  · refine ⟨?_, Int.natCast_nonneg _⟩
    rw [number, pcrParseLong, if_neg some', parseLoop_digits digits high]
    rfl
  · exact absurd signed unsigned

theorem number_signed (signed : Signed text) : number text = .error (.notANumber text) := by
  cases text with
  | nil => cases signed
  | cons c text =>
      obtain rfl : c = HYPHEN := Option.some.inj signed
      rfl

theorem uformatLoop_eq (v : Nat) : uformatLoop 10 v = (Nat.digits 10 v).map glyph := by
  have char : ∀ d < 10, DIGITS.getD d 0 = glyph d := by decide
  induction v using Nat.strong_induction_on with
  | _ v ih =>
      rw [uformatLoop]
      by_cases none' : v = 0
      · rw [if_pos (.inl none'), none', Nat.digits_zero]
        rfl
      · rw [if_neg (by omega), ih (v / 10) (by omega), char _ (Nat.mod_lt v (by omega)),
          Nat.digits_def' (by omega) (Nat.pos_of_ne_zero none'), List.map_cons]

theorem pcrUformat_eq (v : Nat) : pcrUformat v 10 = numeral v := by
  rw [pcrUformat, if_neg (by omega)]
  by_cases none' : v = 0
  · rw [if_pos none', none', numeral, if_pos (by omega)]
    rfl
  · rw [if_neg none', uformatLoop_eq, numeral_eq_digits none']

theorem pcrWriteAll_spec (out : OutStream) (writes : Nat) (bytes buf : Bytes)
    : ∃ later, pcrWriteAll ⟨fun write offered => out.takes write offered, writes, bytes⟩ buf
      = (⟨fun write offered => out.takes write offered, later, bytes ++ buf⟩, true) := by
  induction long : buf.length using Nat.strong_induction_on generalizing writes bytes buf with
  | _ size ih =>
      rw [pcrWriteAll]
      by_cases none' : buf = []
      · rw [if_pos none', none', List.append_nil]
        exact ⟨writes, rfl⟩
      · have offered := List.length_pos_of_ne_nil none'
        have takes := out.positive writes buf.length offered
        rw [if_neg none']
        dsimp only
        rw [if_neg (by omega), Int.toNat_natCast]
        have rest : (buf.drop (out.takes writes buf.length)).length < size := by
          rw [List.length_drop]
          omega
        obtain ⟨later, same⟩ := ih _ rest (writes + 1)
          (bytes ++ buf.take (out.takes writes buf.length)) _ rfl
        rw [same, List.append_assoc, List.take_append_drop]
        exact ⟨later, rfl⟩

/-- A stream in use that has been given some bytes. -/
def Given (bytes : Bytes) (out : OutStream) (sink : Sink) : Prop :=
  sink.answer = (fun write offered => (out.takes write offered : Int)) ∧ sink.bytes = bytes

theorem given_fresh (outs : List OutStream) : List.Forall₂ (Given []) outs (outs.map Sink.fresh) :=
  List.forall₂_map_right_iff.mpr (List.forall₂_same.mpr fun _ _ => ⟨rfl, rfl⟩)

theorem given_bytes (given : List.Forall₂ (Given bytes) outs sinks)
    : ∀ sink ∈ sinks, sink.bytes = bytes := by
  induction given with
  | nil => exact nofun
  | cons one rest ih =>
      intro sink among
      rcases List.mem_cons.mp among with rfl | later
      · exact one.2
      · exact ih sink later

theorem given_output (given : List.Forall₂ (Given bytes) outs sinks) (buf : Bytes)
    : ∃ later, pcrOutput sinks buf false = (later, true)
        ∧ List.Forall₂ (Given (bytes ++ buf)) outs later := by
  rw [pcrOutput]
  simp only [Bool.false_eq_true, if_false, List.take_length, List.drop_length, List.append_nil,
    List.map_map]
  induction given with
  | nil => exact ⟨[], rfl, .nil⟩
  | @cons out sink outs sinks one rest ih =>
      obtain ⟨later, same, given⟩ := ih
      obtain ⟨answer, writes, taken⟩ := sink
      obtain ⟨rfl, rfl⟩ := one
      obtain ⟨more, written⟩ := pcrWriteAll_spec out writes taken buf
      obtain ⟨all, done⟩ := Prod.mk.inj same
      refine ⟨_, Prod.ext rfl ?_, .cons ⟨?_, ?_⟩ (all ▸ given)⟩
      · simp only [List.map_cons, List.all_cons, written, done, Bool.and_self]
      · exact congrArg (fun done => done.1.answer) written
      · exact congrArg (fun done => done.1.bytes) written

-- Runs

theorem runs_nil_iff : Runs first step last [] ↔ Past step last first := by
  constructor
  · intro runs
    have whole := runs.whole
    rwa [List.length_nil, Nat.cast_zero, Int.zero_mul, Int.add_zero] at whole
  · intro past
    refine ⟨rfl, nofun, ?_⟩
    rwa [List.length_nil, Nat.cast_zero, Int.zero_mul, Int.add_zero]

theorem runs_cons_iff {v : Int}
    : Runs first step last (v :: values)
      ↔ v = first ∧ ¬ Past step last first ∧ Runs (first + step) step last values := by
  have moved (i : Nat) : first + ((i + 1 : Nat) : Int) * step = first + step + i * step := by
    push_cast
    ring
  have row : (List.range (v :: values).length).map (fun i : Nat => first + (i : Int) * step)
      = first :: (List.range values.length).map fun i : Nat => first + step + (i : Int) * step := by
    rw [List.length_cons, List.range_succ_eq_map, List.map_cons, List.map_map, Nat.cast_zero,
      Int.zero_mul, Int.add_zero]
    exact congrArg _ (List.map_congr_left fun i _ => moved i)
  constructor
  · rintro ⟨steps, inside, whole⟩
    rw [row] at steps
    obtain ⟨rfl, steps⟩ := List.cons.inj steps
    refine ⟨rfl, inside v List.mem_cons_self, steps, ?_, ?_⟩
    · exact fun w member => inside w (List.mem_cons_of_mem _ member)
    · rwa [List.length_cons, moved] at whole
  · rintro ⟨rfl, first', steps, inside, whole⟩
    refine ⟨?_, ?_, ?_⟩
    · rw [row, ← steps]
    · intro w member
      rcases List.mem_cons.mp member with rfl | later
      · exact first'
      · exact inside w later
    · rwa [List.length_cons, moved]

theorem past_up {v : Int} (up : 0 < step) : Past step last v ↔ last < v := by
  rw [Past, if_pos up]

theorem rows_cons (v : Int) (values : List Int)
    : rows (v :: values) = decimal v ++ NEWLINE :: rows values := by
  rw [rows, List.map_cons, List.flatten_cons, List.append_assoc]
  rfl

/-- The loop of `main`, counting up: it prints the run, and stops if it can take the step behind
the last value.
-/
theorem seqLoop_spec {v : Int} (up : 0 < step) (ends : last ≤ LONG_MAX) (long : v ≤ LONG_MAX)
    (least : 0 ≤ v) (given : List.Forall₂ (Given bytes) outs sinks)
    : ∃ values, Runs v step last values
      ∧ if values = [] ∨ v + values.length * step ≤ LONG_MAX then
          ∃ later, seqLoop step last v sinks = some (later, true)
            ∧ List.Forall₂ (Given (bytes ++ rows values)) outs later
        else seqLoop step last v sinks = none := by
  have on (v : Int) : goesOn step last v = decide (v ≤ last) := by rw [goesOn, if_pos up]
  have onward (v : Int) : wraps step v (v + step) = false := by
    rw [wraps, if_pos up, decide_eq_false_iff_not]
    omega
  induction size : (LONG_MAX - v).toNat using Nat.strong_induction_on
    generalizing v bytes sinks with
  | _ size ih =>
      rw [seqLoop, on, onward]
      by_cases inside : v ≤ last
      · obtain ⟨one, outOne, givenOne⟩ := given_output given (decimal v)
        obtain ⟨two, outTwo, givenTwo⟩ := given_output givenOne [NEWLINE]
        have same : pcrUformat (v % 2 ^ 32).toNat 10 = decimal v := by
          rw [pcrUformat_eq, decimal, if_neg (by omega), Int.emod_eq_of_lt least (by
            rw [LONG_MAX] at long
            omega)]
        have some' : decimal v ≠ [] := by
          rw [← same, pcrUformat_eq, numeral]
          split <;> simp
        have notPast : ¬ Past step last v := by
          rw [past_up up]
          omega
        have out : bytes ++ decimal v ++ [NEWLINE] = bytes ++ (decimal v ++ [NEWLINE]) :=
          List.append_assoc ..
        rw [if_pos (decide_eq_true inside)]
        dsimp only
        rw [same, outOne]
        dsimp only
        rw [outTwo, if_neg (by simp [some']), if_neg (by simp), if_neg Bool.false_ne_true]
        by_cases room : InLong (v + step)
        · have high := room.2
          obtain ⟨values, runs, result⟩ :=
            ih (LONG_MAX - (v + step)).toNat (by omega) high (by omega) givenTwo rfl
          have moved : v + ((values.length + 1 : Nat) : Int) * step
              = v + step + values.length * step := by
            push_cast
            ring
          have fits : (v :: values = [] ∨ v + (v :: values).length * step ≤ LONG_MAX)
              ↔ values = [] ∨ v + step + values.length * step ≤ LONG_MAX := by
            rw [List.length_cons, moved]
            constructor
            · rintro (none' | fits)
              · cases none'
              · exact .inr fits
            · rintro (rfl | fits)
              · exact .inr (by simpa using high)
              · exact .inr fits
          refine ⟨v :: values, runs_cons_iff.mpr ⟨rfl, notPast, runs⟩, ?_⟩
          rw [if_pos room, rows_cons]
          simp only [fits]
          rw [out, List.append_assoc bytes, List.append_assoc (decimal v)] at result
          exact result
        · have over' : LONG_MAX < v + step := by
            have low : LONG_MIN ≤ v + step := by
              rw [LONG_MIN]
              omega
            exact Int.not_le.mp fun high => room ⟨low, high⟩
          have single : ¬ ([v] = [] ∨ v + ([v] : List Int).length * step ≤ LONG_MAX) := by
            rintro (none' | fits)
            · cases none'
            · rw [List.length_singleton, Nat.cast_one, Int.one_mul] at fits
              omega
          refine ⟨[v], runs_cons_iff.mpr ⟨rfl, notPast, runs_nil_iff.mpr ?_⟩, ?_⟩
          · rw [past_up up]
            omega
          · rw [if_neg single, if_neg room]
      · refine ⟨[], runs_nil_iff.mpr ((past_up up).mpr (by omega)), ?_⟩
        rw [if_pos (Or.inl rfl : ([] : List Int) = [] ∨ _), if_neg (by simpa using inside)]
        refine ⟨sinks, rfl, ?_⟩
        rwa [rows, List.map_nil, List.flatten_nil, List.append_nil]

theorem Runs.eq_nil (runs : Runs first step last values) (past : Past step last first)
    : values = [] := by
  cases values with
  | nil => rfl
  | cons v values => exact absurd past (runs_cons_iff.mp runs).2.1

theorem Runs.behind {first last : Int} {values : List Int} (runs : Runs first 1 last values)
    (some' : values ≠ [])
    : first + values.length = last + 1 := by
  induction values generalizing first with
  | nil => exact absurd rfl some'
  | cons v values ih =>
      obtain ⟨rfl, inside, rest⟩ := runs_cons_iff.mp runs
      rw [past_up Int.one_pos] at inside
      rw [List.length_cons, Nat.cast_add, Nat.cast_one]
      by_cases more : values = []
      · subst more
        have past := (past_up Int.one_pos).mp (runs_nil_iff.mp rest)
        rw [List.length_nil, Nat.cast_zero]
        omega
      · have later := ih rest more
        omega

-- Rows

theorem decimal_injective : Function.Injective decimal := by
  have plain {n : Nat} : HYPHEN ∉ numeral n := fun among =>
    absurd (isDigit_of_mem_numeral among) (by decide)
  intro x y same
  rw [decimal, decimal] at same
  split at same
  next negative =>
      split at same
      next negativeToo =>
          have equal := numeral_injective (List.cons.inj same).2
          omega
      next => exact absurd (same ▸ List.mem_cons_self) plain
  next =>
      split at same
      next => exact absurd (same ▸ List.mem_cons_self) plain
      next =>
          have equal := numeral_injective same
          omega

theorem newline_not_mem_decimal (x : Int) : NEWLINE ∉ decimal x := by
  have plain {n : Nat} : NEWLINE ∉ numeral n := fun among =>
    absurd (isDigit_of_mem_numeral among) (by decide)
  rw [decimal]
  split
  next =>
      rw [List.mem_cons, not_or]
      exact ⟨by decide, plain⟩
  next => exact plain

theorem rows_eq_nil_iff : rows values = [] ↔ values = [] := by
  constructor
  · intro empty
    cases values with
    | nil => rfl
    | cons v values =>
        rw [rows_cons] at empty
        exact absurd empty (by simp)
  · rintro rfl
    rfl

theorem rows_injective : Function.Injective rows := by
  have first (x : Int) (rest : Bytes)
      : (decimal x ++ NEWLINE :: rest).takeWhile (· != NEWLINE) = decimal x := by
    have plain : ∀ c ∈ decimal x, (c != NEWLINE) = true := by
      intro c member
      rw [bne_iff_ne]
      rintro rfl
      exact newline_not_mem_decimal x member
    rw [List.takeWhile_append_of_pos plain]
    simp
  intro one two same
  induction one generalizing two with
  | nil => exact (rows_eq_nil_iff.mp same.symm).symm
  | cons v one ih =>
      cases two with
      | nil => exact rows_eq_nil_iff.mp same
      | cons w two =>
          rw [rows_cons, rows_cons] at same
          have heads : decimal v = decimal w := by
            rw [← first v (rows one), same, first]
          rw [heads, List.append_cancel_left_eq, List.cons.injEq] at same
          rw [decimal_injective heads, ih same.2]

-- The utility

theorem Denotes.ne_hyphen {x : Int} (denotes : Denotes text x) : text ≠ [HYPHEN] := by
  rintro rfl
  obtain ⟨-, ⟨⟨-, digits⟩, -⟩ | ⟨-, ⟨some', -⟩, -⟩⟩ := denotes
  · exact absurd (digits HYPHEN List.mem_cons_self) (by decide)
  · exact some' rfl

theorem Denotes.tail_ne {x : Int} (denotes : Denotes text x) : text.tail ≠ [104] := by
  have plain {digits : Bytes} (all : ∀ c ∈ digits, Decimal.isDigit c = true) : digits ≠ [104] := by
    rintro rfl
    exact absurd (all 104 List.mem_cons_self) (by decide)
  obtain ⟨-, ⟨⟨-, digits⟩, -⟩ | ⟨-, ⟨-, digits⟩, -⟩⟩ := denotes
  · exact plain fun c member => digits c (List.mem_of_mem_tail member)
  · exact plain digits

theorem Asks.denotes (asks : Asks args first step last) (among : text ∈ args)
    : ∃ x, Denotes text x := by
  cases asks with
  | last l =>
      rcases List.mem_singleton.mp among with rfl
      exact ⟨_, l⟩
  | firstLast f l =>
      simp only [List.mem_cons, List.not_mem_nil, or_false] at among
      rcases among with rfl | rfl
      · exact ⟨_, f⟩
      · exact ⟨_, l⟩
  | firstStepLast f s l =>
      simp only [List.mem_cons, List.not_mem_nil, or_false] at among
      rcases among with rfl | rfl | rfl
      · exact ⟨_, f⟩
      · exact ⟨_, s⟩
      · exact ⟨_, l⟩

theorem Asks.no_option (asks : Asks args first step last)
    : pcrOptionProvided args [104] = false := by
  rw [pcrOptionProvided, List.any_eq_false]
  intro text among
  obtain ⟨x, denotes⟩ := asks.denotes among
  have other := denotes.tail_ne
  simp [HYPHEN, other]

theorem seqArguments_cons {rest : List Bytes} (some' : one ≠ [HYPHEN]) (few : rest.length ≤ 2)
    : seqArguments (one :: rest) = do
        let last ← number one
        let a ← numberOr 1 rest[0]?
        let step ← numberOr 1 rest[1]?
        if step = 0 then .error .zeroStep else return (a, step, last) := by
  rw [seqArguments, if_neg some', if_neg (by omega)]

theorem Asks.refused {args : List Bytes} {first step last : Int}
    (asks : Asks args first step last) {text : Bytes} (among : text ∈ args)
    (signed : Signed text)
    : ∃ message, seqArguments args = .error message := by
  cases given : seqArguments args with
  | error message => exact ⟨message, rfl⟩
  | ok numbers =>
      exfalso
      have none' {text : Bytes} {v : Int} (signed : Signed text) : number text ≠ .ok v := by
        rw [number_signed signed]
        exact nofun
      cases asks with
      | last l =>
          rw [seqArguments_cons l.ne_hyphen (by simp)] at given
          obtain ⟨v, read, -⟩ := Library.bind_eq_ok given
          rcases List.mem_singleton.mp among with rfl
          exact none' signed read
      | firstLast f l =>
          rw [seqArguments_cons f.ne_hyphen (by simp)] at given
          obtain ⟨v, readOne, given⟩ := Library.bind_eq_ok given
          obtain ⟨w, readTwo, -⟩ := Library.bind_eq_ok given
          simp only [List.mem_cons, List.not_mem_nil, or_false] at among
          rcases among with rfl | rfl
          · exact none' signed readOne
          · exact none' signed readTwo
      | firstStepLast f s l =>
          rw [seqArguments_cons f.ne_hyphen (by simp)] at given
          obtain ⟨v, readOne, given⟩ := Library.bind_eq_ok given
          obtain ⟨w, readTwo, given⟩ := Library.bind_eq_ok given
          obtain ⟨u, readThree, -⟩ := Library.bind_eq_ok given
          simp only [List.mem_cons, List.not_mem_nil, or_false] at among
          rcases among with rfl | rfl | rfl
          · exact none' signed readOne
          · exact none' signed readTwo
          · exact none' signed readThree

theorem printsRun_refused (asks : Asks args first step last) {message : Message}
    (refused : seqArguments args = .error message) (out : OutStream) (outs : List OutStream)
    : PrintsRun args first step last (out :: outs) ↔ Past step last first := by
  have ends : seq args ((out :: outs).map Sink.fresh)
      = some ⟨[message], -1, (out :: outs).map Sink.fresh⟩ := by
    rw [seq, asks.no_option, refused]
    rfl
  constructor
  · rintro ⟨values, outcome, runs, same, given⟩
    obtain rfl := Option.some.inj (ends.symm.trans same)
    have empty := given (Sink.fresh out) List.mem_cons_self
    obtain rfl := rows_eq_nil_iff.mp empty.symm
    exact runs_nil_iff.mp runs
  · intro past
    refine ⟨[], _, runs_nil_iff.mpr past, ends, fun sink among => ?_⟩
    obtain ⟨other, -, rfl⟩ := List.mem_map.mp among
    rfl

theorem printsRun_accepted (asks : Asks args first step last) {a by' upto : Int}
    (accepted : seqArguments args = .ok (a, by', upto)) (up : 0 < by') (ends : upto ≤ LONG_MAX)
    (long : a ≤ LONG_MAX) (least : 0 ≤ a) (out : OutStream) (outs : List OutStream)
    : ∃ values, Runs a by' upto values
      ∧ (PrintsRun args first step last (out :: outs)
        ↔ Runs first step last values ∧ (values = [] ∨ a + values.length * by' ≤ LONG_MAX)) := by
  obtain ⟨values, counted, result⟩ :=
    seqLoop_spec up ends long least (given_fresh (out :: outs))
  have loops : seq args ((out :: outs).map Sink.fresh)
      = match seqLoop by' upto a ((out :: outs).map Sink.fresh) with
        | none => none
        | some (sinks, false) => some ⟨[.notWritten], -1, sinks⟩
        | some (sinks, true) => some ⟨[], 0, sinks⟩ := by
    rw [seq, asks.no_option, accepted]
    rfl
  refine ⟨values, counted, ?_⟩
  by_cases fits : values = [] ∨ a + values.length * by' ≤ LONG_MAX
  · rw [if_pos fits] at result
    obtain ⟨later, looped, given⟩ := result
    rw [looped] at loops
    have each := given_bytes given
    constructor
    · rintro ⟨asked, outcome, runs, same, equal⟩
      obtain rfl := Option.some.inj (loops.symm.trans same)
      cases given with
      | @cons _ sink _ sinks one rest =>
          have written := each sink List.mem_cons_self
          rw [equal sink List.mem_cons_self, List.nil_append] at written
          obtain rfl := rows_injective written
          exact ⟨runs, fits⟩
    · rintro ⟨runs, -⟩
      exact ⟨values, _, runs, loops, each⟩
  · rw [if_neg fits] at result
    rw [result] at loops
    constructor
    · rintro ⟨asked, outcome, runs, same, each⟩
      cases loops.symm.trans same
    · exact fun both => absurd both.2 fits

theorem printsRun_last (l : Denotes one last) (plain : ¬ Signed one) (out : OutStream)
    (outs : List OutStream)
    : PrintsRun [one] 1 1 last (out :: outs) ↔ last < LONG_MAX := by
  obtain ⟨read, least⟩ := l.number_unsigned plain
  have accepted : seqArguments [one] = .ok (1, 1, last) := by
    rw [seqArguments_cons l.ne_hyphen (by simp), read]
    rfl
  obtain ⟨values, counted, result⟩ :=
    printsRun_accepted (.last l) accepted Int.one_pos l.1.2 (by decide) (by decide) out outs
  rw [result, and_iff_right counted]
  by_cases none' : values = []
  · subst none'
    have past := (past_up Int.one_pos).mp (runs_nil_iff.mp counted)
    refine iff_of_true (.inl rfl) ?_
    rw [LONG_MAX]
    omega
  · have behind := counted.behind none'
    rw [or_iff_right none', Int.mul_one]
    omega

theorem printsRun_firstLast {two : Bytes} (f : Denotes one first) (l : Denotes two last)
    (plainOne : ¬ Signed one) (plainTwo : ¬ Signed two) (out : OutStream) (outs : List OutStream)
    : PrintsRun [one, two] first 1 last (out :: outs) ↔ first = last ∧ last < LONG_MAX := by
  obtain ⟨readOne, -⟩ := f.number_unsigned plainOne
  obtain ⟨readTwo, least⟩ := l.number_unsigned plainTwo
  have accepted : seqArguments [one, two] = .ok (last, 1, first) := by
    rw [seqArguments_cons f.ne_hyphen (by simp), readOne]
    dsimp only [List.getElem?_cons_zero, numberOr]
    rw [readTwo]
    rfl
  obtain ⟨values, counted, result⟩ :=
    printsRun_accepted (.firstLast f l) accepted Int.one_pos f.1.2 l.1.2 least out outs
  rw [result]
  cases values with
  | nil =>
      have short := (past_up Int.one_pos).mp (runs_nil_iff.mp counted)
      refine iff_of_false ?_ (by omega)
      rintro ⟨asked, -⟩
      have past := (past_up Int.one_pos).mp (runs_nil_iff.mp asked)
      omega
  | cons v values =>
      have behind := counted.behind (List.cons_ne_nil v values)
      have inside := (runs_cons_iff.mp counted).2.1
      rw [past_up Int.one_pos] at inside
      rw [or_iff_right (List.cons_ne_nil v values), Int.mul_one]
      constructor
      · rintro ⟨asked, fits⟩
        have same := (runs_cons_iff.mp asked).1.symm.trans (runs_cons_iff.mp counted).1
        omega
      · rintro ⟨rfl, fits⟩
        exact ⟨counted, by omega⟩

theorem printsRun_firstStepLast {two three : Bytes} (f : Denotes one first) (s : Denotes two step)
    (l : Denotes three last) (nonzero : step ≠ 0) (plainOne : ¬ Signed one)
    (plainTwo : ¬ Signed two) (plainThree : ¬ Signed three) (out : OutStream)
    (outs : List OutStream)
    : PrintsRun [one, two, three] first step last (out :: outs)
      ↔ last < first ∧ (last = 0 ∨ first < step)
        ∨ first = step ∧ first ≤ last ∧ last < first + step ∧ step + last ≤ LONG_MAX := by
  obtain ⟨readOne, -⟩ := f.number_unsigned plainOne
  obtain ⟨readTwo, least⟩ := s.number_unsigned plainTwo
  obtain ⟨readThree, leastToo⟩ := l.number_unsigned plainThree
  have up : 0 < step := by omega
  have arguments : seqArguments [one, two, three]
      = if last = 0 then .error .zeroStep else .ok (step, last, first) := by
    rw [seqArguments_cons f.ne_hyphen (by simp), readOne]
    dsimp only [List.getElem?_cons_zero, List.getElem?_cons_succ, numberOr]
    rw [readTwo, readThree]
    rfl
  by_cases zero : last = 0
  · rw [if_pos zero] at arguments
    rw [printsRun_refused (.firstStepLast f s l nonzero) arguments, past_up up]
    omega
  · rw [if_neg zero] at arguments
    have upToo : 0 < last := by omega
    obtain ⟨values, counted, result⟩ := printsRun_accepted (.firstStepLast f s l nonzero)
      arguments upToo f.1.2 s.1.2 least out outs
    rw [result]
    cases values with
    | nil =>
        have short := (past_up upToo).mp (runs_nil_iff.mp counted)
        rw [runs_nil_iff, past_up up]
        have none' : ([] : List Int) = []
            ∨ step + (([] : List Int).length : Int) * last ≤ LONG_MAX := .inl rfl
        rw [and_iff_left none']
        omega
    | cons v values =>
        obtain ⟨rfl, inside, rest⟩ := runs_cons_iff.mp counted
        rw [past_up upToo] at inside
        rw [or_iff_right (List.cons_ne_nil v values), runs_cons_iff, past_up up]
        by_cases same : first = v
        · subst same
          obtain rfl := rest.eq_nil ((past_up upToo).mpr (by omega))
          rw [runs_nil_iff, past_up up, List.length_singleton, Nat.cast_one, Int.one_mul]
          omega
        · refine iff_of_false (fun both => same both.1.1.symm) ?_
          omega

/-- What the arguments have to be for `seq` to print the run that its usage describes. -/
theorem seq_prints_iff {args : List Bytes} {first step last : Int}
    (asks : Asks args first step last) (out : OutStream) (outs : List OutStream)
    : PrintsRun args first step last (out :: outs) ↔ SeqKeeps args first step last := by
  rw [SeqKeeps]
  by_cases signed : ∃ text ∈ args, Signed text
  · obtain ⟨text, among, hyphen⟩ := signed
    obtain ⟨message, refused⟩ := asks.refused among hyphen
    rw [if_pos ⟨text, among, hyphen⟩]
    exact printsRun_refused asks refused out outs
  · have plain {text : Bytes} (among : text ∈ args) : ¬ Signed text :=
      fun hyphen => signed ⟨text, among, hyphen⟩
    rw [if_neg signed]
    cases asks with
    | last l => exact printsRun_last l (plain (by simp)) out outs
    | firstLast f l =>
        exact printsRun_firstLast f l (plain (by simp)) (plain (by simp)) out outs
    | firstStepLast f s l nonzero =>
        exact printsRun_firstStepLast f s l nonzero (plain (by simp)) (plain (by simp))
          (plain (by simp)) out outs

/-- For `seq 3` there are three lines, on a stream that takes one byte at a time. -/
theorem seq_prints_three : PrintsRun [[51]] 1 1 3 [oneByte] := by
  have asks : Asks [[51]] 1 1 3 := .last ⟨by decide, .inl ⟨digits_one rfl, by decide⟩⟩
  refine (seq_prints_iff asks oneByte []).mpr ?_
  rw [SeqKeeps, if_neg (by decide)]
  exact (by decide : (3 : Int) < LONG_MAX)

/-- `seq 1 3` prints nothing: it counts from three to one. -/
theorem seq_one_three
    : ¬ ∀ (args : List Bytes) (first step last : Int) (out : OutStream) (outs : List OutStream),
        Asks args first step last → PrintsRun args first step last (out :: outs) := by
  intro always
  have one : Denotes [49] 1 := ⟨by decide, .inl ⟨digits_one rfl, by decide⟩⟩
  have three : Denotes [51] 3 := ⟨by decide, .inl ⟨digits_one rfl, by decide⟩⟩
  have prints := always [[49], [51]] 1 1 3 wholeWrites [] (.firstLast one three)
  have same := (printsRun_firstLast one three (by decide) (by decide) wholeWrites []).mp prints
  omega

end Panuti.Pcrutils.Seq
