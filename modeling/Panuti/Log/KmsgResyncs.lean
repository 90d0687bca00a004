import Panuti.Log.KmsgRuns

/-! Where the search for a record lands. It lands on one exactly where nothing that is left of the
record the tail cuts looks like the start of one.
-/

namespace Panuti.Log

/-- A cursor is at the head, or where a pushed record begins that the ring still has whole. -/
def AtRecord (pushes : List (Int × List UInt8)) (cursor : Nat) : Prop :=
  cursor = (pushAll pushes).head
  ∨ ∃ front record later, recordsOf pushes = front ++ record :: later
      ∧ oldest (logOf (recordsOf pushes)) ≤ (logOf front).length
      ∧ cursor = (logOf front).length % KMSG_BUFFER_SIZE

/-- The search from the tail comes to a record or to the head. A handle is opened there, and its
first read shows nothing but the records from there on.
-/
def Lands (pushes : List (Int × List UInt8)) : Prop :=
  ∃ cursor records, kmsgResync (pushAll pushes) (pushAll pushes).tail = some cursor
    ∧ AtRecord pushes cursor
    ∧ records <:+ recordsOf pushes
    ∧ ∀ stream, kmsgOpen (pushAll pushes) stream = some ⟨stream, cursor, 0⟩
        ∧ ∀ len, ∃ bytes after,
            kmsgRead (pushAll pushes) ⟨stream, cursor, 0⟩ len = some (bytes, after)
            ∧ bytes <+: stream.text records

theorem suffix_wholeRecords {records last : List Record} (suffix : last <:+ records)
    (fits : (logOf last).length < KMSG_BUFFER_SIZE)
    : last <:+ wholeRecords records := by
  induction records with
  | nil => exact suffix
  | cons record rest ih =>
      rw [wholeRecords]
      split
      · exact suffix
      · rename_i large
        rcases List.suffix_cons_iff.mp suffix with rfl | within
        · exact absurd fits large
        · exact ih within

theorem exists_first {torn after : List UInt8} (unclean : ¬ Clean torn after)
    : ∃ before c back, torn = before ++ c :: back
        ∧ Clean before (c :: back ++ after)
        ∧ mayStart (c :: back ++ after) = true := by
  induction torn with
  | nil =>
      refine absurd ?_ unclean
      intro front c back same
      cases front <;> cases same
  | cons c torn ih =>
      by_cases starts : mayStart (c :: torn ++ after) = true
      · refine ⟨[], c, torn, rfl, ?_, starts⟩
        intro front d back same
        cases front <;> cases same
      · have rest : ¬ Clean torn after := by
          intro clean
          apply unclean
          intro front d back same
          cases front with
          | nil =>
              obtain ⟨rfl, rfl⟩ := List.cons.inj same
              simpa using starts
          | cons e front => exact clean front d back (List.cons.inj same).2
        obtain ⟨before, d, back, rfl, clean, stops⟩ := ih rest
        refine ⟨c :: before, d, back, rfl, ?_, stops⟩
        intro front e between same
        cases front with
        | nil =>
            obtain ⟨rfl, rfl⟩ := List.cons.inj same
            simpa using starts
        | cons f front => exact clean front e between (List.cons.inj same).2

section

variable {pushes : List (Int × List UInt8)}

theorem lands_of_clean (clean : CleanOpen (recordsOf pushes)) : Lands pushes := by
  have backs := pushAll_backs pushes
  obtain ⟨cursor, opened, stands⟩ := kmsgOpen_spec clean kmsgAllStream
  have found : kmsgResync (pushAll pushes) (pushAll pushes).tail = some cursor := by
    rw [kmsgOpen] at opened
    obtain ⟨other, same, handle⟩ := Option.map_eq_some_iff.mp opened
    rw [same, (Handle.mk.inj handle).2.1]
  obtain ⟨lost, records⟩ := wholeRecords_suffix (recordsOf pushes)
  obtain ⟨⟨front, split, old, place⟩, _, _⟩ := id stands
  have isFront : front = logOf lost := by
    have parts := congrArg logOf records
    rw [logOf_append, split] at parts
    exact (List.append_cancel_right parts).symm
  refine ⟨cursor, _, found, ?_, wholeRecords_suffix _, fun stream => ⟨?_, fun len => ?_⟩⟩
  · cases whole : wholeRecords (recordsOf pushes) with
    | nil =>
        left
        rw [whole] at split
        have isLog : logOf (recordsOf pushes) = front := by
          simpa [Unread.bytes, logOf] using split
        rw [place, backs.head, isLog]
    | cons record later =>
        right
        refine ⟨lost, record, later, ?_, ?_, ?_⟩
        · rw [← whole, records]
        · rwa [← isFront]
        · rw [place, isFront]
  · rw [kmsgOpen, found]
    rfl
  · have begins : Begins (pushAll pushes) ⟨stream, cursor, 0⟩ cursor 0 := by
      rw [Begins]
      split
      · exact ⟨found, rfl⟩
      · exact ⟨rfl, rfl⟩
    obtain ⟨bytes, after, left, ran, _, _, same, _⟩ := backs.kmsgRead begins stands len
    exact ⟨bytes, after, ran, left.text stream, same⟩

theorem not_atRecord {before back : List UInt8} {c : UInt8}
    (torn : tornBytes (recordsOf pushes) = before ++ c :: back)
    : ¬ AtRecord pushes
        ((oldest (logOf (recordsOf pushes)) + before.length) % KMSG_BUFFER_SIZE) := by
  have backs := pushAll_backs pushes
  obtain ⟨front, split, isOldest⟩ := logOf_torn (recordsOf pushes)
  have total := congrArg List.length split
  rw [torn] at total
  simp only [List.length_append, List.length_cons] at total
  rintro (atHead | ⟨lost, record, later, records, old, place⟩)
  · have ends := (backs.atHead_iff (Nat.le_add_right ..) (by omega)).mp atHead
    omega
  · have parts := congrArg List.length (congrArg logOf records)
    rw [logOf_append, List.length_append] at parts
    have fits : (logOf (record :: later)).length < KMSG_BUFFER_SIZE := by
      simp only [oldest, KMSG_BUFFER_SIZE] at old ⊢
      omega
    obtain ⟨between, whole⟩ := suffix_wholeRecords ⟨lost, records.symm⟩ fits
    have short := congrArg List.length (congrArg logOf whole)
    rw [logOf_append, List.length_append] at short
    simp only [oldest, KMSG_BUFFER_SIZE] at old place total isOldest
    omega

theorem not_lands_of_unclean (unclean : ¬ CleanOpen (recordsOf pushes)) : ¬ Lands pushes := by
  have backs := pushAll_backs pushes
  obtain ⟨front, split, isOldest⟩ := logOf_torn (recordsOf pushes)
  obtain ⟨before, c, back, torn, clean, stops⟩ := exists_first unclean
  rintro ⟨cursor, _, found, at', _⟩
  have parts : logOf (recordsOf pushes) = front ++ (before
      ++ (c :: (back ++ logOf (wholeRecords (recordsOf pushes))))) := by
    rw [split, torn]
    simp
  have total := congrArg List.length parts
  simp only [List.length_append, List.length_cons] at total
  obtain ⟨more, turns⟩ : ∃ more, KMSG_BUFFER_SIZE + 1 = before.length + (more + 1) := by
    refine ⟨KMSG_BUFFER_SIZE - before.length, ?_⟩
    simp only [oldest, KMSG_BUFFER_SIZE] at isOldest ⊢
    omega
  have next : logOf (recordsOf pushes) = (front ++ before)
      ++ c :: (back ++ logOf (wholeRecords (recordsOf pushes))) := by
    rw [parts, List.append_assoc]
  have search : kmsgResync (pushAll pushes) (pushAll pushes).tail
      = some ((front.length + before.length) % KMSG_BUFFER_SIZE) := by
    rw [kmsgResync, backs.tail, ← isOldest, turns,
      backs.resync_skips parts (Nat.le_of_eq isOldest.symm) clean, ← List.length_append,
      backs.resync_turn next (by rw [List.length_append]; omega)]
    exact if_pos stops
  rw [search] at found
  rw [← Option.some.inj found, isOldest] at at'
  exact not_atRecord torn at'

end

/-- The search lands on a record or on the head exactly where the bytes that are left of the record
the tail cuts are clean.
-/
theorem lands_iff (pushes : List (Int × List UInt8))
    : Lands pushes ↔ CleanOpen (recordsOf pushes) :=
  ⟨fun lands => by_contra fun unclean => not_lands_of_unclean unclean lands, lands_of_clean⟩

/-- A header is enough to mislead the search: the length of a record of one letter, once its tag
and its level are overwritten, is taken for another header.
-/
theorem lands_nowhere : ¬ ∀ pushes, Lands pushes := by
  intro lands
  have small : recordOf 0 [0x78] = ⟨0, [0x78]⟩ := rfl
  have large : recordOf 0 (zeros 8184) = ⟨0, zeros 8184⟩ := recordOf_zeros (by decide)
  have records : recordsOf [(0, [0x78]), (0, zeros 8184)] = [⟨0, [0x78]⟩, ⟨0, zeros 8184⟩] := by
    rw [recordsOf, List.map_cons, List.map_cons, small, large]
    rfl
  refine not_lands_of_unclean ?_ (lands [(0, [0x78]), (0, zeros 8184)])
  rw [records]
  have last : (logOf [⟨0, zeros 8184⟩]).length = 8188 := by
    rw [logOf_cons, List.length_append, zeros_bytes_length]
    rfl
  have both : (logOf [⟨0, [0x78]⟩, ⟨0, zeros 8184⟩]).length = 8193 := by
    rw [logOf_cons, List.length_append, last]
    rfl
  have whole : wholeRecords [⟨0, [0x78]⟩, ⟨0, zeros 8184⟩] = [⟨0, zeros 8184⟩] := by
    rw [wholeRecords, both, if_neg (by decide), wholeRecords, last, if_pos (by decide)]
  have torn : tornBytes [⟨0, [0x78]⟩, ⟨0, zeros 8184⟩] = [0x01, 0x00, 0x78] := by
    rw [tornBytes, whole, oldest, both]
    rfl
  intro clean
  rw [CleanOpen, torn, whole, logOf_cons] at clean
  have first := clean [] 0x01 [0x00, 0x78] rfl
  obtain ⟨low, high, bytes, _⟩ := (large ▸ recordOf_ok 0 (zeros 8184)).bytes
  rw [bytes] at first
  simp [mayStart, KMSG_TAG, KLOG_INFO] at first

end Panuti.Log
