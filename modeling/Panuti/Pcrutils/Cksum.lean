import Panuti.Library.Crc
import Panuti.Pcrutils.Streams

/-! `cksum`: the register over the bytes of its in stream, against the checksum of the standard that
its help names.
-/

namespace Panuti.Pcrutils

open Polynomial Library.Crc

-- The utility

def crcBit (crc : BitVec 32) : BitVec 32 :=
  (crc <<< 1) ^^^ (if crc &&& 0x80000000#32 ≠ 0 then 0x04C11DB7#32 else 0)

def crcByte (crc : BitVec 32) (c : UInt8) : BitVec 32 :=
  crcBit^[8] (crc ^^^ (c.toBitVec.setWidth 32 <<< 24))

/-- `crc` and `len`. -/
structure Totals where
  crc : BitVec 32
  len : BitVec 32
deriving Repr, DecidableEq

def cksumRead (totals : Totals) (chunk : Bytes) : Totals :=
  { crc := chunk.foldl crcByte totals.crc
    len := totals.len + BitVec.ofNat 32 chunk.length }

/-- `main` of `cksum.c`: the two numbers that it prints. -/
def cksum (reads : Reads) : Nat × Nat :=
  let totals := reads.chunks.foldl cksumRead ⟨0, 0⟩
  (totals.crc.toNat, totals.len.toNat)

-- The standard

noncomputable def generator : (ZMod 2)[X] :=
  X ^ 32 + X ^ 26 + X ^ 23 + X ^ 22 + X ^ 16 + X ^ 12 + X ^ 11 + X ^ 10 + X ^ 8 + X ^ 7 + X ^ 5
    + X ^ 4 + X ^ 2 + X + 1

/-- The octets that are needed for a length, the least significant one first. -/
def lengthOctets (length : Nat) : Bytes :=
  if length = 0 then [0] else (Nat.digits 256 length).map UInt8.ofNat

/-- The checksum of the standard: the complement of what is left of the message and its length,
moved up by 32 places.
-/
noncomputable def posixCrc (input : Bytes) : BitVec 32 :=
  ~~~ofPoly 32 ((messagePoly (input ++ lengthOctets input.length) * X ^ 32) %ₘ generator)

-- What is printed

theorem generator_eq : divisor 0x04C11DB7#32 = generator := by
  rw [divisor, toPoly, generator]
  simp [Finset.sum_range_succ]
  ring

theorem crcBit_eq (crc : BitVec 32) : crcBit crc = shift 0x04C11DB7#32 crc := by
  have top : crc &&& 0x80000000#32 = if crc.msb then BitVec.twoPow 32 31 else 0 := by
    rw [BitVec.msb_eq_getLsbD_last]
    exact BitVec.and_twoPow crc 31
  rw [crcBit, shift, top]
  cases crc.msb with
  | true => rfl
  | false => rfl

theorem crcByte_eq (crc : BitVec 32) (c : UInt8) : crcByte crc c = feed 0x04C11DB7#32 crc c := by
  rw [crcByte, funext crcBit_eq, feed]

theorem cksumRead_flatten (chunks : List Bytes) (totals : Totals)
    : chunks.foldl cksumRead totals = cksumRead totals chunks.flatten := by
  induction chunks generalizing totals with
  | nil => rw [List.foldl_nil, List.flatten_nil, cksumRead, List.foldl_nil, List.length_nil]; simp
  | cons chunk chunks ih =>
      rw [List.foldl_cons, ih, List.flatten_cons]
      simp only [cksumRead, List.foldl_append, List.length_append, BitVec.ofNat_add,
        BitVec.add_assoc]

theorem cksum_eq (reads : Reads)
    : cksum reads = ((crc 0x04C11DB7#32 reads.input).toNat, reads.input.length % 2 ^ 32) := by
  rw [cksum, cksumRead_flatten, cksumRead, crc, Reads.input, funext fun x => funext (crcByte_eq x)]
  simp

/-- The powers that are all left of the complement. -/
noncomputable def ones : (ZMod 2)[X] := ∑ i ∈ Finset.range 32, X ^ i

theorem toPoly_allOnes : toPoly (BitVec.allOnes 32) = ones := by
  have zero : toPoly 0#32 = 0 := toPoly_zero
  rw [← BitVec.not_zero, toPoly_not, zero, zero_add, ones]

theorem toPoly_posixCrc (input : Bytes)
    : toPoly (posixCrc input)
      = (messagePoly (input ++ lengthOctets input.length) * X ^ 32 + ones)
          %ₘ divisor 0x04C11DB7#32 := by
  have monic := divisor_monic 0x04C11DB7#32
  have degree := degree_divisor 0x04C11DB7#32
  have small : ((messagePoly (input ++ lengthOctets input.length) * X ^ 32)
      %ₘ divisor 0x04C11DB7#32).degree < (32 : Nat) := by
    rw [← degree]
    exact degree_modByMonic_lt _ monic
  have stays : ones %ₘ divisor 0x04C11DB7#32 = ones := by
    rw [modByMonic_eq_self_iff monic, degree, ← toPoly_allOnes]
    exact degree_toPoly_lt _
  rw [posixCrc, ← generator_eq, toPoly_not, toPoly_ofPoly small, add_modByMonic, stays, ones]

theorem crc_eq_posixCrc_iff (input : Bytes)
    : crc 0x04C11DB7#32 input = posixCrc input
      ↔ generator ∣ messagePoly input * X ^ 32
            * (X ^ (8 * (lengthOctets input.length).length) + 1)
          + messagePoly (lengthOctets input.length) * X ^ 32 + ones := by
  have register : residue 0x04C11DB7#32 (toPoly (crc 0x04C11DB7#32 input))
      = residue 0x04C11DB7#32 (messagePoly input * X ^ 32) :=
    toPoly_eq_mod_iff.mp (toPoly_crc (by decide) _ input)
  rw [← toPoly_inj, toPoly_posixCrc, toPoly_eq_mod_iff, register, AdjoinRoot.mk_eq_mk,
    generator_eq, CharTwo.sub_eq_add, messagePoly_append]
  have same : messagePoly input * X ^ 32
        + ((messagePoly input * X ^ (8 * (lengthOctets input.length).length)
            + messagePoly (lengthOctets input.length)) * X ^ 32 + ones)
      = messagePoly input * X ^ 32 * (X ^ (8 * (lengthOctets input.length).length) + 1)
        + messagePoly (lengthOctets input.length) * X ^ 32 + ones := by ring
  rw [same]

/-- What is printed is the checksum of the standard and the length just when the length fits into 32
bits and the message is of the one class that its length asks for.
-/
theorem cksum_posix_iff (reads : Reads)
    : cksum reads = ((posixCrc reads.input).toNat, reads.input.length)
      ↔ reads.input.length < 2 ^ 32
        ∧ generator ∣ messagePoly reads.input * X ^ 32
              * (X ^ (8 * (lengthOctets reads.input.length).length) + 1)
            + messagePoly (lengthOctets reads.input.length) * X ^ 32 + ones := by
  rw [cksum_eq, Prod.mk.injEq, BitVec.toNat_inj, crc_eq_posixCrc_iff, and_comm]
  refine and_congr ⟨fun fits => ?_, Nat.mod_eq_of_lt⟩ Iff.rfl
  rw [← fits]
  exact Nat.mod_lt _ (by decide)

def noReads : Reads := ⟨[], nofun, nofun⟩

/-- Of an empty input the checksum is the complement of 0, but 0 is printed. -/
theorem cksum_empty
    : cksum noReads = (0, 0) ∧ (posixCrc noReads.input).toNat = 4294967295
      ∧ ¬ ∀ reads : Reads,
          cksum reads = ((posixCrc reads.input).toNat, reads.input.length) := by
  have printed : cksum noReads = (0, 0) := by decide
  have message : messagePoly ([] ++ lengthOctets 0) = 0 := by
    have zero : lengthOctets 0 = [0] := rfl
    rw [zero, List.nil_append, messagePoly]
    simp [toPoly]
  have rest : ofPoly 32 0 = 0 := by
    rw [← toPoly_inj, toPoly_zero]
    exact toPoly_ofPoly (by rw [degree_zero]; exact WithBot.bot_lt_coe 32)
  have standard : (posixCrc noReads.input).toNat = 4294967295 := by
    have input : noReads.input = [] := rfl
    rw [posixCrc, input, List.length_nil, message, zero_mul, zero_modByMonic, rest]
    decide
  refine ⟨printed, standard, fun all => ?_⟩
  have same := all noReads
  rw [printed, standard] at same
  exact absurd (Prod.mk.inj same).1 (by decide)

end Panuti.Pcrutils
