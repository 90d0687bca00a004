import Mathlib.Data.UInt
import Mathlib.Tactic.Common

/-! The registers of a serial chip. Two of its ports reach the divisor latch while the top bit of
the line control register is set, and the data and interrupt registers otherwise.
-/

namespace Panuti.Serial

abbrev Bytes := List UInt8

def UART_BASE_CLOCK : Nat := 1843200

def UART_LCR_DLAB : UInt8 := 0x80

def UART_LCR_8N1 : UInt8 := 0x03

inductive Reg where
  | data
  | ier
  | lcr
deriving Repr, DecidableEq

/-- A chip: its line control and interrupt registers, the two bytes of its divisor latch, and the
bytes that it was given to send.
-/
structure Chip where
  lcr : UInt8
  ier : UInt8
  dll : UInt8
  dlm : UInt8
  line : Bytes
deriving Repr, DecidableEq

def Chip.divisor (chip : Chip) : Nat := chip.dll.toNat + 2 ^ 8 * chip.dlm.toNat

/-- `outb` to a port of the chip. -/
def Chip.outb (chip : Chip) (reg : Reg) (byte : UInt8) : Chip :=
  match reg with
  | .lcr => { chip with lcr := byte }
  | .data =>
      if chip.lcr &&& UART_LCR_DLAB ≠ 0 then { chip with dll := byte }
      else { chip with line := chip.line ++ [byte] }
  | .ier =>
      if chip.lcr &&& UART_LCR_DLAB ≠ 0 then { chip with dlm := byte }
      else { chip with ier := byte }

def uartPutcharRaw (chip : Chip) (c : UInt8) : Chip := chip.outb .data c

def uartSetBaud (chip : Chip) (baud : Nat) : Chip :=
  let divisor := UART_BASE_CLOCK / baud % 2 ^ 16
  let chip := chip.outb .lcr (UART_LCR_DLAB ||| UART_LCR_8N1)
  let chip := chip.outb .data (UInt8.ofNat (divisor &&& 0xFF))
  let chip := chip.outb .ier (UInt8.ofNat ((divisor >>> 8) &&& 0xFF))
  chip.outb .lcr UART_LCR_8N1

theorem uartPutcharRaw_line {chip : Chip} (closed : chip.lcr &&& UART_LCR_DLAB = 0) (c : UInt8)
    : uartPutcharRaw chip c = { chip with line := chip.line ++ [c] } := by
  rw [uartPutcharRaw, Chip.outb, if_neg (not_not.mpr closed)]

theorem latch_written (chip : Chip) (low high : UInt8)
    : (((chip.outb .lcr (UART_LCR_DLAB ||| UART_LCR_8N1)).outb .data low).outb .ier high).outb .lcr
        UART_LCR_8N1
      = { chip with lcr := UART_LCR_8N1, dll := low, dlm := high } := by
  have data {chip : Chip} (latched : chip.lcr &&& UART_LCR_DLAB ≠ 0)
      : chip.outb .data low = { chip with dll := low } := if_pos latched
  have ier {chip : Chip} (latched : chip.lcr &&& UART_LCR_DLAB ≠ 0)
      : chip.outb .ier high = { chip with dlm := high } := if_pos latched
  have opened : (UART_LCR_DLAB ||| UART_LCR_8N1) &&& UART_LCR_DLAB ≠ 0 := by decide
  rw [data opened, ier opened, Chip.outb, Chip.outb]

theorem uartSetBaud_eq (chip : Chip) (baud : Nat)
    : uartSetBaud chip baud
      = { chip with
          lcr := UART_LCR_8N1
          dll := UInt8.ofNat (UART_BASE_CLOCK / baud % 2 ^ 16 &&& 0xFF)
          dlm := UInt8.ofNat ((UART_BASE_CLOCK / baud % 2 ^ 16) >>> 8 &&& 0xFF) } :=
  latch_written ..

theorem uartSetBaud_divisor (chip : Chip) (baud : Nat)
    : (uartSetBaud chip baud).divisor = UART_BASE_CLOCK / baud % 2 ^ 16 := by
  have small : UART_BASE_CLOCK / baud % 2 ^ 16 < 2 ^ 16 := Nat.mod_lt _ (by decide)
  rw [uartSetBaud_eq, Chip.divisor]
  generalize UART_BASE_CLOCK / baud % 2 ^ 16 = divisor at small ⊢
  rw [UInt8.toNat_ofNat', UInt8.toNat_ofNat', (by decide : (0xFF : Nat) = 2 ^ 8 - 1),
    Nat.and_two_pow_sub_one_eq_mod, Nat.and_two_pow_sub_one_eq_mod, Nat.shiftRight_eq_div_pow]
  omega

end Panuti.Serial
