import Mathlib.Algebra.Order.Group.Nat
import Mathlib.Data.Nat.Digits.Defs
import Mathlib.Tactic.Common

/-! Decimal numbers as text: what a row of digits stands for, and the digits that a number is
written with.
-/

namespace Decimal

/-- The characters from `0` to `9`. -/
def isDigit (c : UInt8) : Bool := 48 ≤ c && c ≤ 57

def digit (c : UInt8) : Nat := c.toNat - 48

/-- What some digits stand for when they go on behind others. -/
def valueFrom (v : Nat) (text : List UInt8) : Nat :=
  text.foldl (fun v c => 10 * v + digit c) v

/-- What a row of digits stands for, the most significant one first. -/
def value (text : List UInt8) : Nat := valueFrom 0 text

def glyph (d : Nat) : UInt8 := UInt8.ofNat (48 + d)

/-- The digits that a number is written with: none in front that stands for nothing, unless the
number is zero.
-/
def numeral (n : Nat) : List UInt8 :=
  if n < 10 then [glyph n] else numeral (n / 10) ++ [glyph (n % 10)]

-- Single digits

variable {c : UInt8}

theorem isDigit_iff : isDigit c = true ↔ 48 ≤ c.toNat ∧ c.toNat ≤ 57 := by
  rw [isDigit, Bool.and_eq_true, decide_eq_true_eq, decide_eq_true_eq, UInt8.le_iff_toNat_le,
    UInt8.le_iff_toNat_le]
  rfl

theorem digit_lt (shown : isDigit c = true) : digit c < 10 := by
  have bounds := isDigit_iff.mp shown
  rw [digit]
  omega

theorem glyph_toNat {d : Nat} (small : d < 10) : (glyph d).toNat = 48 + d := by
  rw [glyph, UInt8.toNat_ofNat']
  exact Nat.mod_eq_of_lt (by omega)

theorem isDigit_glyph {d : Nat} (small : d < 10) : isDigit (glyph d) = true := by
  rw [isDigit_iff, glyph_toNat small]
  omega

theorem digit_glyph {d : Nat} (small : d < 10) : digit (glyph d) = d := by
  rw [digit, glyph_toNat small]
  omega

-- Values

theorem valueFrom_nil (v : Nat) : valueFrom v [] = v := List.foldl_nil

theorem valueFrom_cons (v : Nat) (c : UInt8) (text : List UInt8)
    : valueFrom v (c :: text) = valueFrom (10 * v + digit c) text :=
  List.foldl_cons ..

theorem valueFrom_append (v : Nat) (one two : List UInt8)
    : valueFrom v (one ++ two) = valueFrom (valueFrom v one) two := by
  induction one generalizing v with
  | nil => rw [List.nil_append, valueFrom_nil]
  | cons c one ih => rw [List.cons_append, valueFrom_cons, valueFrom_cons, ih]

theorem le_valueFrom (v : Nat) (text : List UInt8) : v ≤ valueFrom v text := by
  induction text generalizing v with
  | nil => rw [valueFrom_nil]
  | cons c text ih =>
      have later := ih (10 * v + digit c)
      rw [valueFrom_cons]
      omega

theorem value_numeral (n : Nat) : value (numeral n) = n := by
  induction n using numeral.induct with
  | case1 n small =>
      rw [numeral, if_pos small, value, valueFrom_cons, valueFrom_nil, digit_glyph small]
      omega
  | case2 n large ih =>
      rw [value] at ih
      rw [numeral, if_neg large, value, valueFrom_append, ih, valueFrom_cons, valueFrom_nil,
        digit_glyph (Nat.mod_lt n (by omega))]
      omega

theorem numeral_injective : Function.Injective numeral :=
  Function.LeftInverse.injective value_numeral

theorem isDigit_of_mem_numeral {n : Nat} (among : c ∈ numeral n) : isDigit c = true := by
  induction n using numeral.induct with
  | case1 n small =>
      rw [numeral, if_pos small, List.mem_singleton] at among
      rw [among]
      exact isDigit_glyph small
  | case2 n large ih =>
      rw [numeral, if_neg large, List.mem_append, List.mem_singleton] at among
      rcases among with before | rfl
      · exact ih before
      · exact isDigit_glyph (Nat.mod_lt n (by omega))

theorem numeral_ne_nil (n : Nat) : numeral n ≠ [] := by
  rw [numeral]
  split <;> simp

theorem numeral_length_le_iff (n k : Nat) : (numeral n).length ≤ k + 1 ↔ n < 10 ^ (k + 1) := by
  induction n using numeral.induct generalizing k with
  | case1 n small =>
      rw [numeral, if_pos small]
      refine iff_of_true (Nat.succ_le_succ (Nat.zero_le k)) ?_
      exact Nat.lt_of_lt_of_le small (Nat.le_self_pow (Nat.succ_ne_zero k) 10)
  | case2 n large ih =>
      rw [numeral, if_neg large, List.length_append, List.length_singleton]
      cases k with
      | zero =>
          have first := (ih 0).not
          have some' : 0 < (numeral (n / 10)).length := by
            rw [numeral]
            split <;> simp
          omega
      | succ k =>
          rw [Nat.add_le_add_iff_right, ih, Nat.div_lt_iff_lt_mul (by decide), ← Nat.pow_succ]

theorem numeral_eq_digits {n : Nat} (some' : n ≠ 0)
    : numeral n = ((Nat.digits 10 n).map glyph).reverse := by
  induction n using numeral.induct with
  | case1 n small =>
      rw [numeral, if_pos small, Nat.digits_of_lt 10 n some' small]
      rfl
  | case2 n large ih =>
      have first := Nat.digits_def' (by omega : 1 < 10) (Nat.pos_of_ne_zero some')
      rw [numeral, if_neg large, ih (by omega), first, List.map_cons, List.reverse_cons]

end Decimal
