import Mathlib.Data.List.TakeWhile
import Panuti.Iso9660.Directory
import Panuti.Library.Outcome

/-! Reading a record of a directory extent stays inside the extent and inside the buffer of the
name, and leaves a string in that buffer.
-/

namespace Panuti.Iso9660

open Panuti.Library

/-- The computation meets no fault, and its value satisfies `holds`. -/
def Safe {α : Type} (holds : α → Prop) (result : Except Fault α) : Prop :=
  Settles (fun _ => False) holds result

section

variable {α β : Type} {holds : α → Prop} {after : β → Prop} {result : Except Fault α}

theorem Safe.bind {next : α → Except Fault β} (first : Safe holds result)
    (later : ∀ a, holds a → Safe after (next a))
    : Safe after (result >>= next) :=
  Settles.bind first later

theorem Safe.mono {holdsToo : α → Prop} (safe : Safe holds result)
    (values : ∀ a, holds a → holdsToo a)
    : Safe holdsToo result :=
  Settles.mono safe (fun _ => id) values

theorem Safe.exists_value (safe : Safe holds result) : ∃ a, result = .ok a ∧ holds a :=
  Settles.exists_value safe (fun _ _ => id)

theorem Safe.pure {a : α} (held : holds a) : Safe holds (Pure.pure a : Except Fault α) := held

theorem Safe.same {a : α} (same : result = .ok a) : Safe (· = a) result := by
  rw [same]
  exact Safe.pure rfl

end

-- Buffers

section Buffers

variable {buf : Bytes} {place count : Nat}

theorem byteAt_safe (inside : place < buf.length) : Safe (· < 256) (byteAt buf place) := by
  rw [byteAt, List.getElem?_eq_getElem inside]
  exact UInt8.toNat_lt _

theorem bytesAt_safe (inside : place + count ≤ buf.length)
    : Safe (fun bytes => bytes.length = count) (bytesAt buf place count) := by
  rw [bytesAt, if_pos inside]
  refine Safe.pure ?_
  rw [List.length_take, List.length_drop]
  omega

theorem copyAt_safe {bytes : Bytes} (inside : place + bytes.length ≤ buf.length)
    : Safe (fun out => out.length = buf.length ∧ ∀ byte ∈ bytes, byte ∈ out)
        (copyAt buf place bytes) := by
  rw [copyAt, if_pos inside]
  refine Safe.pure ⟨?_, fun byte member => ?_⟩
  · simp only [List.length_append, List.length_take, List.length_drop]
    omega
  · exact List.mem_append_left _ (List.mem_append_right _ member)

theorem readLe32_safe (inside : place + 4 ≤ buf.length)
    : Safe (fun _ => True) (readLe32 buf place) := by
  refine (byteAt_safe (by omega)).bind fun _ _ => ?_
  refine (byteAt_safe (by omega)).bind fun _ _ => ?_
  refine (byteAt_safe (by omega)).bind fun _ _ => ?_
  exact (byteAt_safe (by omega)).bind fun _ _ => Safe.pure trivial

theorem cstring_length (ends : 0 ∈ buf) : (cstring buf).length < buf.length := by
  refine Nat.lt_of_le_of_ne (List.takeWhile_prefix _).length_le fun same => ?_
  have whole : cstring buf = buf := (List.takeWhile_prefix _).eq_of_length same
  rw [← whole] at ends
  simpa using List.mem_takeWhile_imp ends

theorem strlen_safe (ends : 0 ∈ buf) : Safe (fun l => l = (cstring buf).length) (strlen buf) := by
  rw [strlen, if_pos ends]
  exact Safe.pure rfl

theorem memchr_safe {byte : UInt8} (inside : count ≤ buf.length)
    : Safe (fun found => ∀ place, found = some place → place < count)
        (memchr buf byte count) := by
  refine (bytesAt_safe (by omega : 0 + count ≤ buf.length)).bind fun bytes length => ?_
  refine Safe.pure fun place found => ?_
  obtain ⟨inside, -⟩ := List.findIdx?_eq_some_iff_getElem.mp found
  rw [← length]
  exact inside

end Buffers

-- Names

structure NameBuffer (buf : Bytes) : Prop where
  size : buf.length = REG_MAX_NAME_LEN
  ends : 0 ∈ buf

/-- A record of the extent: its length and that of its identifier are inside. -/
structure RecordAt (buf : Bytes) (record drLen lenFi : Nat) : Prop where
  long : byteAt buf record = .ok drLen
  identifier : byteAt buf (record + 32) = .ok lenFi
  least : 34 ≤ drLen
  inside : record + drLen ≤ buf.length
  fits : 33 + lenFi ≤ drLen
  byte : lenFi < 256

section Names

variable {fs : Isofs} {buf outName : Bytes} {record drLen lenFi : Nat}

theorem rrEntries_safe (inside : record + drLen ≤ buf.length) (suOffset nameLen : Nat)
    (found : Bool) (sized : outName.length = REG_MAX_NAME_LEN)
    (short : nameLen < REG_MAX_NAME_LEN)
    : Safe
        (fun (named, out) =>
          out.length = REG_MAX_NAME_LEN ∧ ∀ n, named = some n → n < REG_MAX_NAME_LEN)
        (rrEntries buf record drLen suOffset nameLen found outName) := by
  induction left : drLen - suOffset using Nat.strong_induction_on
    generalizing suOffset nameLen found outName with
  | _ left ih =>
      have stays : ∀ n, (if found then some nameLen else none) = some n
          → n < REG_MAX_NAME_LEN := by
        intro n same
        split at same
        · obtain rfl := Option.some.inj same
          exact short
        · cases same
      rw [rrEntries]
      split
      next more =>
        refine (byteAt_safe (by omega)).bind fun sig1 _ => ?_
        refine (byteAt_safe (by omega)).bind fun sig2 _ => ?_
        refine (byteAt_safe (by omega)).bind fun entryLen _ => ?_
        split
        next => exact Safe.pure ⟨sized, stays⟩
        next wellFormed =>
          have turn {nameLen : Nat} {found : Bool} {outName : Bytes}
              (sized : outName.length = REG_MAX_NAME_LEN) (short : nameLen < REG_MAX_NAME_LEN) :=
            ih (drLen - (suOffset + entryLen)) (by omega) (suOffset + entryLen) nameLen found
              sized short rfl
          split
          next name =>
            refine (byteAt_safe (by omega)).bind fun flags _ => ?_
            by_cases room : nameLen + (entryLen - 5) < REG_MAX_NAME_LEN
            · simp only [if_pos room]
              refine (bytesAt_safe (by omega)).bind fun data length => ?_
              refine (copyAt_safe (by omega)).bind fun out copied => ?_
              have sized : out.length = REG_MAX_NAME_LEN := by omega
              split
              next =>
                refine Safe.pure ⟨sized, fun n same => ?_⟩
                obtain rfl := Option.some.inj same
                exact room
              next => exact turn sized room
            · simp only [if_neg room]
              split
              next => exact Safe.pure ⟨sized, stays⟩
              next => exact turn sized short
          next => exact turn sized short
      next => exact Safe.pure ⟨sized, stays⟩

theorem rrApplyName_safe (at' : RecordAt buf record drLen lenFi)
    (sized : outName.length = REG_MAX_NAME_LEN)
    : Safe (fun (found, out) => out.length = REG_MAX_NAME_LEN ∧ (found = true → 0 ∈ out))
        (rrApplyName fs buf record outName) := by
  rw [rrApplyName]
  split
  next => exact Safe.pure ⟨sized, nofun⟩
  next =>
    refine (Safe.same at'.long).bind fun _ same => ?_
    refine (Safe.same at'.identifier).bind fun _ sameToo => ?_
    subst same sameToo
    refine (rrEntries_safe at'.inside _ 0 false sized (by decide)).bind
      fun (named, out) ⟨size, below⟩ => ?_
    cases named with
    | none => exact Safe.pure ⟨size, nofun⟩
    | some nameLen =>
        have short := below nameLen rfl
        have inside : nameLen + [(0 : UInt8)].length ≤ out.length := by
          rw [size]
          exact short
        refine (copyAt_safe inside).bind fun final ⟨sameSize, kept⟩ => ?_
        exact Safe.pure ⟨sameSize.trans size, fun _ => kept 0 List.mem_cons_self⟩

/-- The file identifier stands in the buffer. -/
theorem plainName_safe (at' : RecordAt buf record drLen lenFi)
    (sized : outName.length = REG_MAX_NAME_LEN)
    : Safe NameBuffer (plainName buf record lenFi outName) := by
  have inside := at'.inside
  have fits := at'.fits
  have byte := at'.byte
  refine (bytesAt_safe (by omega)).bind fun rawName length => ?_
  refine (copyAt_safe (by simp only [REG_MAX_NAME_LEN] at sized; omega)).bind
    fun raw ⟨rawSize, _⟩ => ?_
  refine (copyAt_safe (by simp [rawSize, sized, REG_MAX_NAME_LEN]; omega)).bind
    fun ended ⟨size, kept⟩ => ?_
  have ends : 0 ∈ ended := kept 0 List.mem_cons_self
  have size : ended.length = REG_MAX_NAME_LEN := by omega
  refine (memchr_safe (by simp only [REG_MAX_NAME_LEN] at size; omega)).bind fun semi before => ?_
  have cut : Safe NameBuffer (cutAt ended semi) := by
    cases semi with
    | none => exact Safe.pure ⟨size, ends⟩
    | some place =>
        have below := before place rfl
        exact (copyAt_safe (by simp [size, REG_MAX_NAME_LEN]; omega)).mono
          fun out ⟨sameSize, keptToo⟩ => ⟨sameSize.trans size, keptToo 0 List.mem_cons_self⟩
  refine cut.bind fun out name => ?_
  refine (strlen_safe name.ends).bind fun l isLength => ?_
  have short := cstring_length name.ends
  split
  next =>
    refine (byteAt_safe (by omega)).bind fun last _ => ?_
    split
    next =>
      refine (copyAt_safe (by simp; omega)).mono fun final ⟨sameSize, keptToo⟩ => ?_
      exact ⟨sameSize.trans name.size, keptToo 0 List.mem_cons_self⟩
    next => exact Safe.pure name
  next => exact Safe.pure name

/-- Every record has a name. -/
theorem parseDirentBasename_safe (at' : RecordAt buf record drLen lenFi)
    (sized : outName.length = REG_MAX_NAME_LEN)
    : Safe (fun name => ∃ out, name = some out ∧ NameBuffer out)
        (parseDirentBasename fs buf record outName) := by
  have inside := at'.inside
  have least := at'.least
  have dots (text : Bytes) (short : text.length ≤ 3) (ends : 0 ∈ text)
      : Safe (fun name => ∃ out, name = some out ∧ NameBuffer out)
          (do return some (← copyAt outName 0 text)) := by
    refine (copyAt_safe (by simp only [REG_MAX_NAME_LEN] at sized; omega)).bind
      fun out ⟨size, kept⟩ => ?_
    exact Safe.pure ⟨out, rfl, size.trans sized, kept 0 ends⟩
  rw [parseDirentBasename]
  refine (Safe.same at'.identifier).bind fun here same => ?_
  obtain rfl : lenFi = here := same.symm
  have reads : Safe (fun _ => True) (soleByte buf record lenFi) := by
    rw [soleByte]
    split
    next => exact (byteAt_safe (by omega)).bind fun _ _ => Safe.pure trivial
    next => exact Safe.pure trivial
  refine reads.bind fun special _ => ?_
  split
  next => exact dots _ (by decide) (by decide)
  next =>
    split
    next => exact dots _ (by decide) (by decide)
    next =>
      refine (rrApplyName_safe at' sized).bind fun (found, out) ⟨size, ends⟩ => ?_
      cases found with
      | true => exact Safe.pure ⟨out, rfl, size, ends rfl⟩
      | false =>
          have short : ¬REG_MAX_NAME_LEN ≤ lenFi := Nat.not_le.mpr at'.byte
          simp only [Bool.false_eq_true, if_false, if_neg short]
          exact (plainName_safe at' size).bind fun final name => Safe.pure ⟨final, rfl, name⟩

theorem parseDirRecord_safe (at' : RecordAt buf record drLen lenFi)
    : Safe (fun read => ∃ dirent, read = some dirent ∧ NameBuffer dirent.name)
        (parseDirRecord fs buf record) := by
  have inside := at'.inside
  have least := at'.least
  refine (readLe32_safe (by omega)).bind fun startLba _ => ?_
  refine (readLe32_safe (by omega)).bind fun length _ => ?_
  refine (bytesAt_safe (by omega)).bind fun time _ => ?_
  refine (byteAt_safe (by omega)).bind fun flags _ => ?_
  refine (parseDirentBasename_safe at' (List.length_replicate ..)).bind fun _ named => ?_
  obtain ⟨name, rfl, buffer⟩ := named
  exact Safe.pure ⟨_, rfl, buffer⟩

end Names

end Panuti.Iso9660
