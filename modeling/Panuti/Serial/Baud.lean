import Mathlib.Data.List.TakeWhile
import Panuti.Library.Decimal
import Panuti.Serial.Uart

/-! The baud file of a serial port. A write sets the rate to the number that the text opens with,
if the clock can be divided to it. The number is read in 32 bits, and its divisor is looked at in
16 bits, so that some numbers that no divisor stands for are taken, too.
-/

namespace Panuti.Serial

open Decimal

/-- What a write of the baud file returns: the length it was given as an `int`, or
`PANUTIERRNO_INVALIDARG`.
-/
inductive Written where
  | taken (len : Int)
  | invalidArg
deriving Repr, DecidableEq

/-- A port as far as its rate goes: the chip, and the rate that is reported. -/
structure RatePort where
  chip : Chip
  baud : Nat
deriving Repr, DecidableEq

def isBlank (c : UInt8) : Bool := c = 32 || c = 9

/-- The loop of `serial_baud_write` over the digits, in 32 bits. -/
def rateLoop (rate : Nat) : Bytes → Nat
  | [] => rate
  | c :: rest => if isDigit c then rateLoop ((rate * 10 + digit c) % 2 ^ 32) rest else rate

/-- `serial_baud_write`. It waits until the chip can send before it sets the rate. -/
def serialBaudWrite (u : RatePort) (input : Bytes) : Written × RatePort :=
  match input.dropWhile isBlank with
  | [] => (.invalidArg, u)
  | c :: rest =>
      if isDigit c = false then (.invalidArg, u)
      else
        let rate := rateLoop 0 (c :: rest)
        if rate = 0 ∨ UART_BASE_CLOCK % rate ≠ 0 then (.invalidArg, u)
        else
          let divisor := UART_BASE_CLOCK / rate % 2 ^ 16
          if divisor = 0 then (.invalidArg, u)
          else (.taken (Int.bmod input.length (2 ^ 32)), ⟨uartSetBaud u.chip rate, rate⟩)

/-- What `serial_baud_open` renders for reads. -/
def serialBaudOpen (u : RatePort) : Bytes := numeral u.baud ++ [10]

-- Exact rates

/-- A text opens with a number behind its blanks: there are digits, and no more of them follow. -/
def Opens (input : Bytes) (r : Nat) : Prop :=
  ∃ blanks digits rest, input = blanks ++ digits ++ rest ∧ (∀ c ∈ blanks, isBlank c = true)
    ∧ digits ≠ [] ∧ (∀ c ∈ digits, isDigit c = true) ∧ (∀ c ∈ rest.head?, isDigit c = false)
    ∧ r = value digits

/-- A rate that the clock can be divided to by a divisor of 16 bits. -/
def Attainable (r : Nat) : Prop :=
  r ≠ 0 ∧ r ∣ UART_BASE_CLOCK ∧ UART_BASE_CLOCK / r < 2 ^ 16

/-- A write of the baud file is exact: it is accepted just if it opens with an attainable rate,
the divisor and the report are those of that rate then, and a refusal changes neither of them.
-/
structure Exact (u : RatePort) (input : Bytes) : Prop where
  accepted : (serialBaudWrite u input).1 ≠ .invalidArg ↔ ∃ r, Opens input r ∧ Attainable r
  programmed : ∀ r, Opens input r → (serialBaudWrite u input).1 ≠ .invalidArg
    → (serialBaudWrite u input).2.chip.divisor = UART_BASE_CLOCK / r
      ∧ serialBaudOpen (serialBaudWrite u input).2 = numeral r ++ [10]
  kept : (serialBaudWrite u input).1 = .invalidArg
    → (serialBaudWrite u input).2.chip.divisor = u.chip.divisor
      ∧ serialBaudOpen (serialBaudWrite u input).2 = serialBaudOpen u

/-- A number that fits 32 bits does not divide the clock to more than 16 bits, and one that does not
fit them is nothing that divides the clock in its lower 32 bits.
-/
def RateKeeps (r : Nat) : Prop :=
  if r < 2 ^ 32 then r ∣ UART_BASE_CLOCK → UART_BASE_CLOCK / r < 2 ^ 16
  else ¬ r % 2 ^ 32 ∣ UART_BASE_CLOCK

-- Reading the number

theorem rateLoop_append {digits rest : Bytes} (all : ∀ c ∈ digits, isDigit c = true)
    (ends : ∀ c ∈ rest.head?, isDigit c = false) (v : Nat)
    : rateLoop (v % 2 ^ 32) (digits ++ rest) = valueFrom v digits % 2 ^ 32 := by
  induction digits generalizing v with
  | nil =>
      rw [List.nil_append, valueFrom_nil]
      cases rest with
      | nil => rfl
      | cons c rest =>
          rw [rateLoop, if_neg (by rw [ends c rfl]; exact Bool.false_ne_true)]
  | cons c digits ih =>
      have step : (v % 2 ^ 32 * 10 + digit c) % 2 ^ 32 = (10 * v + digit c) % 2 ^ 32 := by omega
      rw [List.cons_append, rateLoop, if_pos (all c List.mem_cons_self), step, valueFrom_cons]
      exact ih (fun c member => all c (List.mem_cons_of_mem _ member)) _

theorem dropWhile_blanks {blanks : Bytes} (all : ∀ c ∈ blanks, isBlank c = true) {c : UInt8}
    (ends : isBlank c = false) (rest : Bytes)
    : (blanks ++ c :: rest).dropWhile isBlank = c :: rest := by
  rw [List.dropWhile_append_of_pos all, List.dropWhile_cons_of_neg (by simp [ends])]

theorem isBlank_of_isDigit {c : UInt8} (shown : isDigit c = true) : isBlank c = false := by
  rw [isBlank, Bool.or_eq_false_iff, decide_eq_false_iff_not, decide_eq_false_iff_not]
  constructor
  · rintro rfl
    exact absurd shown (by decide)
  · rintro rfl
    exact absurd shown (by decide)

variable {input : Bytes} {r : Nat}

theorem serialBaudWrite_of_not_opens (u : RatePort) (none' : ∀ r, ¬ Opens input r)
    : serialBaudWrite u input = (.invalidArg, u) := by
  rw [serialBaudWrite]
  cases behind : input.dropWhile isBlank with
  | nil => rfl
  | cons c rest =>
      dsimp only
      by_cases shown : isDigit c = true
      · refine absurd ⟨input.takeWhile isBlank, (c :: rest).takeWhile isDigit,
          (c :: rest).dropWhile isDigit, ?_, ?_, ?_, ?_, ?_, rfl⟩ (none' _)
        · rw [List.append_assoc, List.takeWhile_append_dropWhile, ← behind,
            List.takeWhile_append_dropWhile]
        · exact fun c member => List.mem_takeWhile_imp member
        · rw [List.takeWhile_cons_of_pos shown]
          exact List.cons_ne_nil _ _
        · exact fun c member => List.mem_takeWhile_imp member
        · intro d first
          have ends := List.head?_dropWhile_not isDigit (c :: rest)
          rw [Option.mem_def.mp first] at ends
          simpa using ends
      · rw [if_pos (by simpa using shown)]

theorem divisor_ne_zero {rate : Nat} (divides : rate ∣ UART_BASE_CLOCK)
    : UART_BASE_CLOCK / rate % 2 ^ 16 ≠ 0 := by
  intro lost
  have factor := Nat.dvd_trans (Nat.dvd_of_mod_eq_zero lost) (Nat.div_dvd_of_dvd divides)
  exact absurd factor (by decide)

theorem serialBaudWrite_of_opens (u : RatePort) (opens : Opens input r)
    : serialBaudWrite u input
      = if r % 2 ^ 32 ∣ UART_BASE_CLOCK then
          (.taken (Int.bmod input.length (2 ^ 32)),
            ⟨uartSetBaud u.chip (r % 2 ^ 32), r % 2 ^ 32⟩)
        else (.invalidArg, u) := by
  obtain ⟨blanks, digits, rest, rfl, all, some', shown, ends, rfl⟩ := opens
  obtain ⟨c, digits, rfl⟩ := List.exists_cons_of_ne_nil some'
  have digit := shown c List.mem_cons_self
  have read := rateLoop_append shown ends 0
  rw [Nat.zero_mod, List.cons_append] at read
  rw [serialBaudWrite, List.append_assoc, List.cons_append,
    dropWhile_blanks all (isBlank_of_isDigit digit)]
  dsimp only
  rw [read, ← value, digit, if_neg Bool.noConfusion]
  by_cases divides : value (c :: digits) % 2 ^ 32 ∣ UART_BASE_CLOCK
  · have some' : value (c :: digits) % 2 ^ 32 ≠ 0 := by
      intro zero
      rw [zero, Nat.zero_dvd] at divides
      exact absurd divides (by decide)
    rw [if_pos divides, if_neg (not_or.mpr ⟨some', not_not.mpr (Nat.mod_eq_zero_of_dvd divides)⟩),
      if_neg (divisor_ne_zero divides)]
  · rw [if_neg divides,
      if_pos (.inr fun whole => divides (Nat.dvd_of_mod_eq_zero whole))]

-- The rate

theorem Opens.eq_value (opens : Opens input r)
    : r = value ((input.dropWhile isBlank).takeWhile isDigit) := by
  obtain ⟨blanks, digits, rest, rfl, all, some', shown, ends, rfl⟩ := opens
  obtain ⟨c, digits, rfl⟩ := List.exists_cons_of_ne_nil some'
  have first := isBlank_of_isDigit (shown c List.mem_cons_self)
  rw [List.append_assoc, List.cons_append, dropWhile_blanks all first, ← List.cons_append,
    List.takeWhile_append_of_pos shown]
  cases rest with
  | nil => rw [List.takeWhile_nil, List.append_nil]
  | cons d rest =>
      rw [List.takeWhile_cons_of_neg (by rw [ends d rfl]; exact Bool.false_ne_true),
        List.append_nil]

theorem Attainable.lt (attainable : Attainable r) : r < 2 ^ 32 :=
  Nat.lt_of_le_of_lt (Nat.le_of_dvd (by decide) attainable.2.1) (by decide)

theorem attainable_iff (divides : r ∣ UART_BASE_CLOCK)
    : Attainable r ↔ UART_BASE_CLOCK / r < 2 ^ 16 := by
  have some' : r ≠ 0 := by
    rintro rfl
    exact absurd (Nat.zero_dvd.mp divides) (by decide)
  exact ⟨fun attainable => attainable.2.2, fun small => ⟨some', divides, small⟩⟩

theorem exact_iff_of_dvd (u : RatePort) (opens : Opens input r)
    (divides : r % 2 ^ 32 ∣ UART_BASE_CLOCK)
    : Exact u input ↔ Attainable r := by
  have ends := serialBaudWrite_of_opens u opens
  rw [if_pos divides] at ends
  have taken : (serialBaudWrite u input).1 ≠ .invalidArg := by
    rw [ends]
    exact nofun
  constructor
  · intro exact'
    obtain ⟨q, other, attainable⟩ := exact'.accepted.mp taken
    rwa [other.eq_value.trans opens.eq_value.symm] at attainable
  · intro attainable
    have whole : r % 2 ^ 32 = r := Nat.mod_eq_of_lt attainable.lt
    refine ⟨iff_of_true taken ⟨r, opens, attainable⟩, ?_, fun refused => absurd refused taken⟩
    intro q other _
    obtain rfl : q = r := other.eq_value.trans opens.eq_value.symm
    rw [ends, whole]
    refine ⟨?_, rfl⟩
    rw [uartSetBaud_divisor, Nat.mod_eq_of_lt attainable.2.2]

theorem exact_of_refused (u : RatePort) (refused : serialBaudWrite u input = (.invalidArg, u))
    (none' : ¬ ∃ r, Opens input r ∧ Attainable r)
    : Exact u input where
  accepted := by
    rw [refused]
    exact iff_of_false (not_not.mpr rfl) none'
  programmed := by
    intro r _ taken
    rw [refused] at taken
    exact absurd rfl taken
  kept := by
    intro _
    rw [refused]
    exact ⟨rfl, rfl⟩

/-- A write of the baud file is exact just if the number that it opens with is none of those that
are mistaken for an attainable rate.
-/
theorem baud_exact_iff (u : RatePort) (input : Bytes)
    : Exact u input ↔ ∀ r, Opens input r → RateKeeps r := by
  by_cases opens : ∃ r, Opens input r
  · obtain ⟨r, opens⟩ := opens
    have only {q : Nat} (other : Opens input q) : q = r :=
      other.eq_value.trans opens.eq_value.symm
    have single : (∀ q, Opens input q → RateKeeps q) ↔ RateKeeps r := by
      refine ⟨fun all => all r opens, fun keeps q other => ?_⟩
      rwa [only other]
    rw [single, RateKeeps]
    by_cases divides : r % 2 ^ 32 ∣ UART_BASE_CLOCK
    · rw [exact_iff_of_dvd u opens divides]
      by_cases small : r < 2 ^ 32
      · rw [Nat.mod_eq_of_lt small] at divides
        rw [if_pos small, attainable_iff divides]
        exact ⟨fun fits _ => fits, fun fits => fits divides⟩
      · rw [if_neg small]
        exact iff_of_false (fun attainable => small attainable.lt) (not_not.mpr divides)
    · have refused := serialBaudWrite_of_opens u opens
      rw [if_neg divides] at refused
      have none' : ¬ Attainable r := by
        intro attainable
        rw [Nat.mod_eq_of_lt attainable.lt] at divides
        exact divides attainable.2.1
      refine iff_of_true (exact_of_refused u refused ?_) ?_
      · rintro ⟨q, other, attainable⟩
        exact none' (only other ▸ attainable)
      · split
        next small =>
            rw [Nat.mod_eq_of_lt small] at divides
            exact fun whole => absurd whole divides
        next => exact divides
  · have none' : ∀ r, ¬ Opens input r := fun r other => opens ⟨r, other⟩
    refine iff_of_true (exact_of_refused u (serialBaudWrite_of_not_opens u none') ?_) ?_
    · rintro ⟨r, other, -⟩
      exact none' r other
    · exact fun r other => absurd other (none' r)

/-- A rate of one is taken: its divisor is cut to 16 bits. -/
theorem baud_one_mistaken : ¬ ∀ (u : RatePort) (input : Bytes), Exact u input := by
  intro always
  have opens : Opens [49] 1 :=
    ⟨[], [49], [], rfl, nofun, by decide, List.forall_mem_singleton.mpr rfl, nofun, by decide⟩
  have keeps := (baud_exact_iff ⟨⟨UART_LCR_8N1, 1, 16, 0, []⟩, 115200⟩ [49]).mp (always _ _) 1 opens
  rw [RateKeeps, if_pos (by decide)] at keeps
  exact absurd (keeps (Nat.one_dvd _)) (by decide)

end Panuti.Serial
