import Mathlib.Algebra.Field.ZMod
import Mathlib.RingTheory.AdjoinRoot

/-! Shift registers with feedback, as remainders of polynomials over the field of two elements: a
machine word is the polynomial whose coefficients are its bits.
-/

namespace Panuti.Library.Crc

open Polynomial

variable {w : Nat}

-- Words as polynomials

/-- The polynomial with the bits of a word for its coefficients. -/
noncomputable def toPoly (x : BitVec w) : (ZMod 2)[X] :=
  ∑ i ∈ Finset.range w, if x.getLsbD i then X ^ i else 0

theorem coeff_bit (bit : Bool) (n i : Nat)
    : (if bit then X ^ n else 0 : (ZMod 2)[X]).coeff i
      = if i = n then (if bit then 1 else 0) else 0 := by
  cases bit with
  | true => exact coeff_X_pow n i
  | false => exact (coeff_zero i).trans (ite_self 0).symm

theorem coeff_toPoly (x : BitVec w) (i : Nat)
    : (toPoly x).coeff i = if x.getLsbD i then 1 else 0 := by
  rw [toPoly, finsetSum_coeff, Finset.sum_congr rfl (fun j _ => coeff_bit (x.getLsbD j) j i),
    Finset.sum_ite_eq]
  split
  · rfl
  next outside =>
    rw [BitVec.getLsbD_of_ge x i (by simpa using outside)]
    rfl

theorem degree_toPoly_lt (x : BitVec w) : (toPoly x).degree < w := by
  rw [degree_lt_iff_coeff_zero]
  intro i above
  rw [coeff_toPoly, BitVec.getLsbD_of_ge x i above]
  rfl

theorem toPoly_inj {x y : BitVec w} : toPoly x = toPoly y ↔ x = y := by
  refine ⟨fun same => ?_, congrArg toPoly⟩
  apply BitVec.eq_of_getLsbD_eq
  intro i _
  have bits := congrArg (fun p => p.coeff i) same
  simp only [coeff_toPoly] at bits
  revert bits
  cases x.getLsbD i <;> cases y.getLsbD i <;> decide

theorem toPoly_zero : toPoly (0 : BitVec w) = 0 := by
  ext i
  rw [coeff_toPoly, coeff_zero]
  simp

theorem toPoly_xor (x y : BitVec w) : toPoly (x ^^^ y) = toPoly x + toPoly y := by
  ext i
  rw [coeff_add, coeff_toPoly, coeff_toPoly, coeff_toPoly, BitVec.getLsbD_xor]
  cases x.getLsbD i <;> cases y.getLsbD i <;> decide

theorem toPoly_raise {v : Nat} (x : BitVec v) (narrow : v ≤ w)
    : toPoly (x.setWidth w <<< (w - v)) = toPoly x * X ^ (w - v) := by
  ext i
  rw [coeff_toPoly, coeff_mul_X_pow', BitVec.getLsbD_shiftLeft, BitVec.getLsbD_setWidth]
  by_cases low : i < w - v
  · rw [if_neg (Nat.not_le.mpr low)]
    simp [low]
  · rw [if_pos (Nat.not_lt.mp low), coeff_toPoly]
    by_cases above : i < w
    · simp [low, above, Nat.lt_of_le_of_lt (Nat.sub_le i (w - v)) above]
    · rw [BitVec.getLsbD_of_ge x (i - (w - v)) (by omega)]
      simp

theorem toPoly_not (x : BitVec w) : toPoly (~~~x) = toPoly x + ∑ i ∈ Finset.range w, X ^ i := by
  have ones : toPoly (BitVec.allOnes w) = ∑ i ∈ Finset.range w, X ^ i := by
    apply Finset.sum_congr rfl
    intro i inside
    rw [BitVec.getLsbD_allOnes, if_pos (by simpa using inside)]
  rw [← ones, ← toPoly_xor, BitVec.xor_allOnes]

/-- The word with the lower coefficients of a polynomial for its bits. -/
noncomputable def ofPoly (w : Nat) (p : (ZMod 2)[X]) : BitVec w :=
  (BitVec.ofBoolListLE ((List.range w).map fun i => decide (p.coeff i = 1))).setWidth w

theorem toPoly_ofPoly {p : (ZMod 2)[X]} (small : p.degree < w) : toPoly (ofPoly w p) = p := by
  ext i
  rw [coeff_toPoly, ofPoly, BitVec.getLsbD_setWidth, BitVec.getLsbD_ofBoolListLE]
  by_cases inside : i < w
  · have bit (c : ZMod 2) : (if c = 1 then 1 else 0) = c := by
      revert c
      decide
    simp [inside, bit]
  · have zero : p.coeff i = 0 := coeff_eq_zero_of_degree_lt
      (lt_of_lt_of_le small (Nat.cast_le.mpr (Nat.not_lt.mp inside)))
    simp [inside, zero]

-- The shift register

/-- The register moves up by one place, and takes the feedback in if a bit is moved out. -/
def shift (feedback x : BitVec w) : BitVec w :=
  (x <<< 1) ^^^ (if x.msb then feedback else 0)

noncomputable def divisor (feedback : BitVec w) : (ZMod 2)[X] := X ^ w + toPoly feedback

theorem divisor_monic (feedback : BitVec w) : (divisor feedback).Monic :=
  monic_X_pow_add (degree_toPoly_lt feedback)

theorem degree_divisor (feedback : BitVec w) : (divisor feedback).degree = w := by
  have top : (X ^ w : (ZMod 2)[X]).degree = w := degree_X_pow w
  have small : (toPoly feedback).degree < (X ^ w : (ZMod 2)[X]).degree :=
    top.symm ▸ degree_toPoly_lt feedback
  exact (degree_add_eq_left_of_degree_lt small).trans top

theorem X_mul_toPoly (some' : 0 < w) (x : BitVec w)
    : X * toPoly x = toPoly (x <<< 1) + if x.msb then X ^ w else 0 := by
  ext i
  rw [coeff_add, coeff_toPoly, coeff_bit, BitVec.getLsbD_shiftLeft, BitVec.msb_eq_getLsbD_last]
  cases i with
  | zero => simp [some'.ne]
  | succ i =>
      rw [coeff_X_mul, coeff_toPoly]
      rcases Nat.lt_trichotomy (i + 1) w with below | same | above
      · simp [below, below.ne]
      · subst same
        simp
      · have out : x.getLsbD i = false := BitVec.getLsbD_of_ge x i (by omega)
        simp [above.not_gt, above.ne', out]

/-- The class of a polynomial, where the divisor is zero. -/
noncomputable abbrev residue (feedback : BitVec w)
    : (ZMod 2)[X] →+* AdjoinRoot (divisor feedback) :=
  AdjoinRoot.mk (divisor feedback)

theorem residue_shift (some' : 0 < w) (feedback x : BitVec w)
    : residue feedback (toPoly (shift feedback x)) = residue feedback (X * toPoly x) := by
  rw [X_mul_toPoly some', shift, toPoly_xor, map_add, map_add]
  congr 1
  by_cases out : x.msb
  · rw [if_pos out, if_pos out, AdjoinRoot.mk_eq_mk, CharTwo.sub_eq_add, add_comm]
    exact dvd_refl (divisor feedback)
  · rw [if_neg out, if_neg out, toPoly_zero]

theorem residue_shifts (some' : 0 < w) (feedback x : BitVec w) (turns : Nat)
    : residue feedback (toPoly ((shift feedback)^[turns] x))
      = residue feedback (X ^ turns * toPoly x) := by
  induction turns with
  | zero => rw [Function.iterate_zero, id, pow_zero, one_mul]
  | succ turns ih =>
      rw [Function.iterate_succ_apply', residue_shift some', map_mul, ih, ← map_mul, pow_succ',
        mul_assoc]

theorem toPoly_eq_mod_iff {feedback x : BitVec w} {p : (ZMod 2)[X]}
    : toPoly x = p %ₘ divisor feedback ↔ residue feedback (toPoly x) = residue feedback p := by
  have monic := divisor_monic feedback
  have small : (toPoly x).degree < (divisor feedback).degree := by
    rw [degree_divisor]
    exact degree_toPoly_lt x
  have self : toPoly x %ₘ divisor feedback = toPoly x := (modByMonic_eq_self_iff monic).mpr small
  rw [residue, AdjoinRoot.mk_eq_mk]
  constructor
  · intro same
    rw [← self] at same
    exact (modByMonic_eq_zero_iff_dvd monic).mp (by rw [sub_modByMonic, same, sub_self])
  · intro divides
    have zero := (modByMonic_eq_zero_iff_dvd monic).mpr divides
    rw [sub_modByMonic, self] at zero
    exact sub_eq_zero.mp zero

-- Messages

/-- The polynomial of a message: the first bit of its first byte has the highest power. -/
noncomputable def messagePoly (message : List UInt8) : (ZMod 2)[X] :=
  message.foldl (fun p byte => p * X ^ 8 + toPoly byte.toBitVec) 0

theorem messagePoly_concat (message : List UInt8) (byte : UInt8)
    : messagePoly (message ++ [byte]) = messagePoly message * X ^ 8 + toPoly byte.toBitVec := by
  rw [messagePoly, List.foldl_append, List.foldl_cons, List.foldl_nil, messagePoly]

theorem messagePoly_append (one two : List UInt8)
    : messagePoly (one ++ two) = messagePoly one * X ^ (8 * two.length) + messagePoly two := by
  induction two using List.reverseRecOn with
  | nil =>
      rw [List.append_nil, List.length_nil, mul_zero, pow_zero, mul_one]
      exact (add_zero _).symm
  | append_singleton two byte ih =>
      rw [← List.append_assoc, messagePoly_concat, ih, messagePoly_concat, List.length_append,
        List.length_singleton, mul_add, pow_add]
      ring

/-- The register takes a byte in at its upper end. -/
def feed (feedback x : BitVec w) (byte : UInt8) : BitVec w :=
  (shift feedback)^[8] (x ^^^ (byte.toBitVec.setWidth w <<< (w - 8)))

def crc (feedback : BitVec w) (message : List UInt8) : BitVec w := message.foldl (feed feedback) 0

theorem residue_feed (wide : 8 ≤ w) (feedback x : BitVec w) (byte : UInt8)
    : residue feedback (toPoly (feed feedback x byte))
      = residue feedback (toPoly x * X ^ 8 + toPoly byte.toBitVec * X ^ w) := by
  have top : (X ^ w : (ZMod 2)[X]) = X ^ (w - 8) * X ^ 8 := by
    rw [← pow_add, Nat.sub_add_cancel wide]
  have whole : X ^ 8 * (toPoly x + toPoly byte.toBitVec * X ^ (w - 8))
      = toPoly x * X ^ 8 + toPoly byte.toBitVec * X ^ w := by
    rw [top]
    ring
  rw [feed, residue_shifts (by omega), toPoly_xor, toPoly_raise _ wide, whole]

theorem toPoly_crc (wide : 8 ≤ w) (feedback : BitVec w) (message : List UInt8)
    : toPoly (crc feedback message) = (messagePoly message * X ^ w) %ₘ divisor feedback := by
  rw [toPoly_eq_mod_iff]
  induction message using List.reverseRecOn with
  | nil =>
      rw [crc, List.foldl_nil, toPoly_zero, messagePoly, List.foldl_nil, zero_mul]
  | append_singleton message byte ih =>
      have step : crc feedback (message ++ [byte]) = feed feedback (crc feedback message) byte := by
        rw [crc, List.foldl_append, List.foldl_cons, List.foldl_nil, crc]
      calc residue feedback (toPoly (crc feedback (message ++ [byte])))
          = residue feedback (toPoly (crc feedback message)) * residue feedback (X ^ 8)
              + residue feedback (toPoly byte.toBitVec * X ^ w) := by
            rw [step, residue_feed wide, map_add, map_mul]
        _ = residue feedback (messagePoly message * X ^ w) * residue feedback (X ^ 8)
              + residue feedback (toPoly byte.toBitVec * X ^ w) := by rw [ih]
        _ = residue feedback (messagePoly (message ++ [byte]) * X ^ w) := by
            rw [← map_mul, ← map_add, messagePoly_concat]
            congr 1
            ring

end Panuti.Library.Crc
