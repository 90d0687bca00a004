import Panuti.Iso9660.Records

/-! The walk over the records of a directory extent: it ends, it stays inside, and what it meets
behind an offset does not depend on what is done with it. The search and the listing are thus two
readings of one list of records.
-/

namespace Panuti.Iso9660

open Panuti.Library

/-- A buffer with an extent whose length the heap serves, on a volume with blocks as a mount
accepts them.
-/
structure Readable (fs : Isofs) (buf : Bytes) (sdLen : Nat) : Prop where
  sized : buf.length = sdLen
  served : sdLen + (PAGE_SIZE - 1) ≤ 65535 * PAGE_SIZE
  blocks : 0 < fs.blockSize
  small : fs.blockSize ≤ ISOFS_BLOCKSIZE

/-- The place a turn goes on from lies ahead, and a record has its name. -/
def Turn.Ahead (sdLen offset : Nat) : Turn → Prop
  | .ends => True
  | .goesOn next => offset < next ∧ next ≤ sdLen
  | .record next dirent => (offset < next ∧ next ≤ sdLen) ∧ NameBuffer dirent.name

-- Turns

section Turns

variable {fs : Isofs} {buf : Bytes} {sdLen offset : Nat}

theorem Readable.sector (readable : Readable fs buf sdLen) (inside : offset < sdLen)
    : (offset / fs.blockSize + 1) * fs.blockSize % 2 ^ 32
        = (offset / fs.blockSize + 1) * fs.blockSize
      ∧ offset < (offset / fs.blockSize + 1) * fs.blockSize := by
  have served := readable.served
  have small := readable.small
  have split : (offset / fs.blockSize + 1) * fs.blockSize
      = offset / fs.blockSize * fs.blockSize + fs.blockSize := Nat.succ_mul ..
  have below : offset / fs.blockSize * fs.blockSize ≤ offset := Nat.div_mul_le_self ..
  have behind : offset < (offset / fs.blockSize + 1) * fs.blockSize := by
    rw [Nat.mul_comm]
    exact Nat.lt_mul_div_succ offset readable.blocks
  simp only [PAGE_SIZE] at served
  simp only [ISOFS_BLOCKSIZE] at small
  exact ⟨Nat.mod_eq_of_lt (by omega), behind⟩

theorem turnAt_safe (readable : Readable fs buf sdLen) (inside : offset < sdLen)
    : Safe (Turn.Ahead sdLen offset) (turnAt fs buf sdLen offset) := by
  have served := readable.served
  simp only [PAGE_SIZE] at served
  have one : (offset + 1) % 2 ^ 32 = offset + 1 := Nat.mod_eq_of_lt (by omega)
  obtain ⟨drLen, long, byte⟩ := (byteAt_safe (by rw [readable.sized]; exact inside)).exists_value
  have whole : (offset + drLen) % 2 ^ 32 = offset + drLen := Nat.mod_eq_of_lt (by omega)
  rw [turnAt]
  refine (Safe.same long).bind fun here same => ?_
  obtain rfl : drLen = here := same.symm
  split
  next =>
    obtain ⟨exactly, behind⟩ := readable.sector inside
    simp only [exactly]
    split
    next => exact Safe.pure trivial
    next more => exact Safe.pure ⟨behind, Nat.le_of_not_le more⟩
  next =>
    split
    next =>
      rw [one]
      exact Safe.pure ⟨Nat.lt_succ_self offset, inside⟩
    next fits =>
      have least : 34 ≤ drLen := by omega
      have ends : offset + drLen ≤ sdLen := by omega
      have mark : (offset + 32) % 2 ^ 32 = offset + 32 := Nat.mod_eq_of_lt (by omega)
      obtain ⟨lenFi, identifier, short⟩ :=
        (byteAt_safe (by rw [readable.sized]; omega : offset + 32 < buf.length)).exists_value
      rw [mark]
      refine (Safe.same identifier).bind fun here same => ?_
      obtain rfl : lenFi = here := same.symm
      split
      next =>
        rw [one]
        exact Safe.pure ⟨Nat.lt_succ_self offset, inside⟩
      next room =>
        have at' : RecordAt buf offset drLen lenFi :=
          ⟨long, identifier, least, by rw [readable.sized]; exact ends, by omega, short⟩
        refine (parseDirRecord_safe at').bind fun _ read => ?_
        obtain ⟨dirent, rfl, name⟩ := read
        rw [whole]
        exact Safe.pure ⟨⟨by omega, ends⟩, name⟩

end Turns

-- Records

/-- The records of an extent that a walk meets from an offset on, each with the place behind it. -/
inductive Meets (fs : Isofs) (buf : Bytes) (sdLen : Nat) : Nat → List (Nat × IsofsDirent) → Prop
  | behind {offset : Nat} (past : sdLen ≤ offset) : Meets fs buf sdLen offset []
  | ends {offset : Nat} (inside : offset < sdLen) (turn : turnAt fs buf sdLen offset = .ok .ends)
      : Meets fs buf sdLen offset []
  | goesOn {offset next : Nat} {records : List (Nat × IsofsDirent)} (inside : offset < sdLen)
      (turn : turnAt fs buf sdLen offset = .ok (.goesOn next)) (ahead : offset < next)
      (rest : Meets fs buf sdLen next records)
      : Meets fs buf sdLen offset records
  | record {offset next : Nat} {dirent : IsofsDirent} {records : List (Nat × IsofsDirent)}
      (inside : offset < sdLen) (turn : turnAt fs buf sdLen offset = .ok (.record next dirent))
      (ahead : offset < next) (name : NameBuffer dirent.name)
      (rest : Meets fs buf sdLen next records)
      : Meets fs buf sdLen offset ((next, dirent) :: records)

section Records

variable {fs : Isofs} {buf : Bytes} {sdLen offset : Nat} {records : List (Nat × IsofsDirent)}

theorem Readable.meets (readable : Readable fs buf sdLen) (offset : Nat)
    : ∃ records, Meets fs buf sdLen offset records := by
  induction left : sdLen - offset using Nat.strong_induction_on generalizing offset with
  | _ left ih =>
      by_cases inside : offset < sdLen
      case neg => exact ⟨[], .behind (Nat.le_of_not_lt inside)⟩
      obtain ⟨turn, found, ahead⟩ := (turnAt_safe readable inside).exists_value
      cases turn with
      | ends => exact ⟨[], .ends inside found⟩
      | goesOn next =>
          obtain ⟨further, _⟩ := ahead
          obtain ⟨records, rest⟩ := ih (sdLen - next) (by omega) next rfl
          exact ⟨records, .goesOn inside found further rest⟩
      | record next dirent =>
          obtain ⟨⟨further, _⟩, name⟩ := ahead
          obtain ⟨records, rest⟩ := ih (sdLen - next) (by omega) next rfl
          exact ⟨(next, dirent) :: records, .record inside found further name rest⟩

theorem Meets.past (meets : Meets fs buf sdLen offset records) (past : sdLen ≤ offset)
    : records = [] := by
  cases meets with
  | behind | ends => rfl
  | goesOn inside | record inside => exact absurd inside (Nat.not_lt.mpr past)

theorem Meets.unique (meets : Meets fs buf sdLen offset records)
    {others : List (Nat × IsofsDirent)} (again : Meets fs buf sdLen offset others)
    : records = others := by
  induction meets generalizing others with
  | behind past => exact (again.past past).symm
  | ends _ turn =>
      cases again with
      | behind | ends => rfl
      | goesOn _ turnToo | record _ turnToo => cases turn.symm.trans turnToo
  | goesOn inside turn _ _ ih =>
      cases again with
      | behind past => exact absurd inside (Nat.not_lt.mpr past)
      | ends _ turnToo | record _ turnToo => cases turn.symm.trans turnToo
      | goesOn _ turnToo _ rest =>
          cases turn.symm.trans turnToo
          exact ih rest
  | record inside turn _ _ _ ih =>
      cases again with
      | behind past => exact absurd inside (Nat.not_lt.mpr past)
      | ends _ turnToo | goesOn _ turnToo => cases turn.symm.trans turnToo
      | record _ turnToo _ _ rest =>
          cases turn.symm.trans turnToo
          rw [ih rest]

theorem Meets.name (meets : Meets fs buf sdLen offset records) {entry : Nat × IsofsDirent}
    (among : entry ∈ records)
    : NameBuffer entry.2.name := by
  induction meets with
  | behind | ends => cases among
  | goesOn _ _ _ _ ih => exact ih among
  | record _ _ _ name _ ih =>
      obtain rfl | later := List.mem_cons.mp among
      · exact name
      · exact ih later

theorem Meets.tail {next : Nat} {dirent : IsofsDirent}
    (meets : Meets fs buf sdLen offset ((next, dirent) :: records))
    : Meets fs buf sdLen next records := by
  generalize all : (next, dirent) :: records = whole at meets
  induction meets with
  | behind | ends => cases all
  | goesOn _ _ _ _ ih => exact ih all
  | record _ _ _ _ rest _ =>
      obtain ⟨⟨⟩, rfl⟩ := List.cons.inj all
      exact rest

theorem Meets.scan_turns {α : Type} {visit : Nat → IsofsDirent → Except Fault (Option α)}
    {made : Nat × IsofsDirent → Option α} (meets : Meets fs buf sdLen offset records)
    (visits : ∀ next dirent, NameBuffer dirent.name
      → visit next dirent = .ok (made (next, dirent)))
    {turns : Nat} (enough : sdLen < turns + offset) (some' : 0 < turns)
    : scanRecords fs buf sdLen visit turns offset = .ok (records.findSome? made) := by
  induction meets generalizing turns with
  | behind past =>
      obtain ⟨turns, rfl⟩ := Nat.exists_eq_succ_of_ne_zero some'.ne'
      rw [scanRecords, if_pos past]
      rfl
  | ends inside turn =>
      obtain ⟨turns, rfl⟩ := Nat.exists_eq_succ_of_ne_zero some'.ne'
      rw [scanRecords, if_neg (Nat.not_le.mpr inside), turn]
      rfl
  | goesOn inside turn ahead rest ih =>
      obtain ⟨turns, rfl⟩ := Nat.exists_eq_succ_of_ne_zero some'.ne'
      rw [scanRecords, if_neg (Nat.not_le.mpr inside), turn]
      exact ih (by omega) (by omega)
  | @record offset next dirent records inside turn ahead name rest ih =>
      obtain ⟨turns, rfl⟩ := Nat.exists_eq_succ_of_ne_zero some'.ne'
      rw [scanRecords, if_neg (Nat.not_le.mpr inside), turn, List.findSome?_cons]
      have here := visits next dirent name
      cases given : made (next, dirent) with
      | some found =>
          rw [given] at here
          simp only [bind, Except.bind, here]
          rfl
      | none =>
          rw [given] at here
          simp only [bind, Except.bind, here]
          exact ih (by omega) (by omega)

theorem Meets.scan {α : Type} (meets : Meets fs buf sdLen offset records)
    (visit : Nat → IsofsDirent → Except Fault (Option α)) (made : Nat × IsofsDirent → Option α)
    (visits : ∀ next dirent, NameBuffer dirent.name
      → visit next dirent = .ok (made (next, dirent)))
    : scanRecords fs buf sdLen visit (sdLen + 1) offset = .ok (records.findSome? made) :=
  meets.scan_turns visits (by omega) (Nat.succ_pos sdLen)

end Records

end Panuti.Iso9660
