import Mathlib.Algebra.Ring.Int.Defs
import Mathlib.Algebra.Ring.Nat
import Mathlib.Tactic.Common

/-! Unsigned 32-bit arithmetic in which every operation is checked: there is no result where the
mathematical one does not fit or a divisor is zero. A computation that has a result is therefore
one in which nothing wrapped.
-/

namespace Word32

def fit (value : Nat) : Option Nat := if value < 2 ^ 32 then some value else none

def add (left right : Nat) : Option Nat := fit (left + right)

def mul (left right : Nat) : Option Nat := fit (left * right)

def sub (left right : Nat) : Option Nat := if right ≤ left then some (left - right) else none

/-- A shift by less than the width that loses no bit. -/
def shl (value places : Nat) : Option Nat :=
  if places < 32 then fit (value * 2 ^ places) else none

def div (left right : Nat) : Option Nat := if right = 0 then none else some (left / right)

def mod (left right : Nat) : Option Nat := if right = 0 then none else some (left % right)

def signed (value : Nat) : Int := if value < 2 ^ 31 then value else (value : Int) - 2 ^ 32

theorem signed_nonneg_iff {value : Nat} (small : value < 2 ^ 32)
    : 0 ≤ signed value ↔ value < 2 ^ 31 := by
  rw [signed]
  split <;> omega

theorem fit_of_lt {value : Nat} (small : value < 2 ^ 32) : fit value = some value := if_pos small

variable {left right : Nat}

theorem add_of_lt (small : left + right < 2 ^ 32)
    : add left right = some (left + right) := if_pos small

theorem mul_of_lt (small : left * right < 2 ^ 32)
    : mul left right = some (left * right) := if_pos small

theorem sub_of_le (le : right ≤ left)
    : sub left right = some (left - right) := if_pos le

theorem div_of_pos (positive : 0 < right)
    : div left right = some (left / right) := if_neg (Nat.ne_of_gt positive)

theorem mod_of_pos (positive : 0 < right)
    : mod left right = some (left % right) := if_neg (Nat.ne_of_gt positive)

end Word32
