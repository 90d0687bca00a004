import Mathlib.Tactic.Common
import Panuti.Log.Kmsg

/-! What the cells of the log hold is the end of everything that was ever pushed. A handle that
stands on a record reads the records from there on, as its stream shows them.
-/

namespace Panuti.Log

-- Positions

/-- The first byte the ring still has of all that was pushed. -/
def oldest (log : List UInt8) : Nat := log.length - (KMSG_BUFFER_SIZE - 1)

structure Backs (kmsg : Kmsg) (log : List UInt8) : Prop where
  head : kmsg.head = log.length % KMSG_BUFFER_SIZE
  tail : kmsg.tail = oldest log % KMSG_BUFFER_SIZE
  holds : Ring.Holds kmsg.buffer KMSG_BUFFER_SIZE log (oldest log)

theorem Backs.empty : Backs .empty [] where
  head := rfl
  tail := rfl
  holds := nofun

theorem ringAdd_mod (place count : Nat)
    : ringAdd (place % KMSG_BUFFER_SIZE) count = (place + count) % KMSG_BUFFER_SIZE :=
  Nat.mod_add_mod place KMSG_BUFFER_SIZE count

variable {kmsg : Kmsg} {log : List UInt8}

theorem Backs.pushByte (backs : Backs kmsg log) (c : UInt8)
    : Backs (kmsgPushByte kmsg c) (log ++ [c]) := by
  have next : ringAdd kmsg.head 1 = (log.length + 1) % KMSG_BUFFER_SIZE := by
    rw [backs.head, ringAdd_mod]
  have later : oldest log ≤ oldest (log ++ [c]) := by
    simp only [oldest, List.length_append, List.length_singleton]
    omega
  constructor
  · simp only [kmsgPushByte, next, List.length_append, List.length_singleton]
  · simp only [kmsgPushByte, backs.head, backs.tail, oldest, ringAdd, List.length_append,
      List.length_singleton, KMSG_BUFFER_SIZE]
    split
    · omega
    · omega
  · have room : log.length < oldest (log ++ [c]) + KMSG_BUFFER_SIZE := by
      simp only [oldest, List.length_append, List.length_singleton, KMSG_BUFFER_SIZE]
      omega
    have pushed := (backs.holds.later later).push c room
    rw [← backs.head] at pushed
    exact pushed

theorem Backs.pushBytes (backs : Backs kmsg log) (bytes : List UInt8)
    : Backs (bytes.foldl kmsgPushByte kmsg) (log ++ bytes) := by
  induction bytes generalizing kmsg log with
  | nil => simpa using backs
  | cons c rest ih => simpa using ih (backs.pushByte c)

theorem Backs.push (backs : Backs kmsg log) (level : Int) (data : List UInt8)
    : Backs (kmsgPush kmsg level data) (log ++ (recordOf level data).bytes) :=
  backs.pushBytes (recordOf level data).bytes

section Positions

variable {kmsg : Kmsg} {log : List UInt8}

theorem Backs.ahead (backs : Backs kmsg log) {place : Nat} (old : oldest log ≤ place)
    (inside : place ≤ log.length)
    : kmsg.ahead (place % KMSG_BUFFER_SIZE) = log.length - place := by
  simp only [oldest, Kmsg.ahead, backs.head, KMSG_BUFFER_SIZE] at old ⊢
  omega

theorem Backs.atHead_iff (backs : Backs kmsg log) {place : Nat} (old : oldest log ≤ place)
    (inside : place ≤ log.length)
    : place % KMSG_BUFFER_SIZE = kmsg.head ↔ place = log.length := by
  simp only [oldest, backs.head, KMSG_BUFFER_SIZE] at old ⊢
  omega

variable {front : List UInt8}

theorem Backs.byte (backs : Backs kmsg log) {back : List UInt8} {c : UInt8}
    (split : log = front ++ c :: back) (old : oldest log ≤ front.length)
    : kmsg.buffer (front.length % KMSG_BUFFER_SIZE) = c :=
  backs.holds front.length c old (by simp [split])

theorem Backs.copyOut (backs : Backs kmsg log) {bytes back : List UInt8}
    (split : log = front ++ (bytes ++ back)) (old : oldest log ≤ front.length)
    : Log.copyOut kmsg bytes.length (front.length % KMSG_BUFFER_SIZE)
      = (bytes, (front.length + bytes.length) % KMSG_BUFFER_SIZE) := by
  induction bytes generalizing front with
  | nil => simp [Log.copyOut]
  | cons c rest ih =>
      have first : log = front ++ c :: (rest ++ back) := by simpa using split
      have here := backs.byte first old
      have others : log = (front ++ [c]) ++ (rest ++ back) := by simpa using split
      have later := ih others (by rw [List.length_append]; omega)
      rw [List.length_append, List.length_singleton] at later
      simp only [List.length_cons, Log.copyOut, ringAdd_mod, later, here]
      rw [Nat.add_assoc, Nat.add_comm 1]

end Positions

-- Records

/-- What `kmsg_push` makes of any call. -/
structure Record.Ok (record : Record) : Prop where
  level : record.level = KLOG_INFO ∨ record.level = KLOG_WARN
  length : record.body.length ≤ KMSG_MAX_RECORD

theorem recordOf_ok (level : Int) (data : List UInt8) : (recordOf level data).Ok := by
  constructor
  · simp only [recordOf, pushedLevel]
    split
    · exact Or.inr rfl
    · exact Or.inl rfl
  · exact List.length_take_le _ _

def logOf (records : List Record) : List UInt8 := records.flatMap Record.bytes

def Stream.shows (stream : Stream) (record : Record) : List UInt8 :=
  if stream.keeps record.level then
    (if stream.labeled then labelOf record.level else []) ++ record.body
  else []

def Stream.text (stream : Stream) (records : List Record) : List UInt8 :=
  records.flatMap stream.shows

theorem logOf_cons (record : Record) (records : List Record)
    : logOf (record :: records) = record.bytes ++ logOf records := rfl

theorem Record.length_bytes (record : Record)
    : record.bytes.length = record.body.length + KMSG_HEADER_LEN := by
  simp [Record.bytes, KMSG_HEADER_LEN]

theorem labelOf_length (level : Nat) : (labelOf level).length = KMSG_LABEL_LEN := by
  unfold labelOf
  split
  · rfl
  · rfl

theorem length_of_bytes {length : Nat} (bound : length ≤ KMSG_MAX_RECORD)
    : (UInt8.ofNat (length &&& 0xff)).toNat
        ||| ((UInt8.ofNat ((length >>> 8) &&& 0xff)).toNat <<< 8)
      = length := by
  have low : (UInt8.ofNat (length &&& 0xff)).toNat = length % 2 ^ 8 := by
    rw [show (0xff : Nat) = 2 ^ 8 - 1 from rfl, Nat.and_two_pow_sub_one_eq_mod]
    simp
  have high : (UInt8.ofNat ((length >>> 8) &&& 0xff)).toNat = length / 2 ^ 8 := by
    rw [show (0xff : Nat) = 2 ^ 8 - 1 from rfl, Nat.and_two_pow_sub_one_eq_mod,
      Nat.shiftRight_eq_div_pow]
    simp only [KMSG_MAX_RECORD] at bound
    have small : length / 2 ^ 8 < 2 ^ 8 := by omega
    rw [Nat.mod_eq_of_lt small]
    simpa using Nat.mod_eq_of_lt small
  rw [low, high, Nat.or_comm, ← Nat.shiftLeft_add_eq_or_of_lt (Nat.mod_lt _ (by decide)),
    Nat.shiftLeft_eq]
  omega

theorem level_of_byte {record : Record} (ok : record.Ok)
    : (UInt8.ofNat record.level).toNat = record.level := by
  rcases ok.level with isLevel | isLevel
  · rw [isLevel]
    rfl
  · rw [isLevel]
    rfl

theorem Record.Ok.bytes {record : Record} (ok : record.Ok)
    : ∃ low high, record.bytes
        = KMSG_TAG :: UInt8.ofNat record.level :: low :: high :: record.body
      ∧ low.toNat ||| (high.toNat <<< 8) = record.body.length :=
  ⟨_, _, rfl, length_of_bytes ok.length⟩

section Turns

variable {kmsg : Kmsg} {log front later : List UInt8} {record : Record}

theorem Backs.recordByte (backs : Backs kmsg log) (split : log = front ++ (record.bytes ++ later))
    (old : oldest log ≤ front.length) (before : List UInt8) {back : List UInt8} {c : UInt8}
    (here : record.bytes = before ++ c :: back)
    : kmsg.buffer (ringAdd (front.length % KMSG_BUFFER_SIZE) before.length) = c := by
  have place : log = (front ++ before) ++ c :: (back ++ later) := by
    rw [split, here]
    simp
  rw [ringAdd_mod, ← List.length_append]
  exact backs.byte place (by rw [List.length_append]; omega)

theorem Backs.copyBody (backs : Backs kmsg log) (ok : record.Ok)
    (split : log = front ++ (record.bytes ++ later)) (old : oldest log ≤ front.length) {take : Nat}
    (part : take ≤ record.body.length)
    : Log.copyOut kmsg take (ringAdd (front.length % KMSG_BUFFER_SIZE) 4)
      = (record.body.take take, (front.length + KMSG_HEADER_LEN + take) % KMSG_BUFFER_SIZE) := by
  obtain ⟨low, high, bytes, _⟩ := ok.bytes
  have place : (front ++ [KMSG_TAG, UInt8.ofNat record.level, low, high]).length
      = front.length + KMSG_HEADER_LEN := by
    simp [KMSG_HEADER_LEN]
  have parts : log = (front ++ [KMSG_TAG, UInt8.ofNat record.level, low, high])
      ++ (record.body.take take ++ (record.body.drop take ++ later)) := by
    rw [split, bytes, ← List.append_assoc (record.body.take take), List.take_append_drop]
    simp
  have copy := backs.copyOut parts (by rw [place]; omega)
  rw [List.length_take_of_le part, place] at copy
  rw [ringAdd_mod]
  exact copy

/-- What `kmsg_read` does with one record. -/
theorem Backs.readRecord (backs : Backs kmsg log) (ok : record.Ok)
    (split : log = front ++ (record.bytes ++ later)) (old : oldest log ≤ front.length)
    (stream : Stream) {len turns : Nat} {out : List UInt8} (room : out.length < len)
    : readRecords kmsg stream len (turns + 1) out (front.length % KMSG_BUFFER_SIZE)
      = if stream.keeps record.level = false then
          readRecords kmsg stream len turns out
            ((front.length + record.bytes.length) % KMSG_BUFFER_SIZE)
        else if stream.labeled = true ∧ len < out.length + KMSG_LABEL_LEN then
          some ⟨out, front.length % KMSG_BUFFER_SIZE, 0⟩
        else
          let labeled := if stream.labeled = true then out ++ labelOf record.level else out
          let take := min record.body.length (len - labeled.length)
          if take < record.body.length then
            some ⟨labeled ++ record.body.take take,
              (front.length + KMSG_HEADER_LEN + take) % KMSG_BUFFER_SIZE,
              record.body.length - take⟩
          else
            readRecords kmsg stream len turns (labeled ++ record.body)
              ((front.length + record.bytes.length) % KMSG_BUFFER_SIZE) := by
  obtain ⟨low, high, bytes, bodyLen⟩ := ok.bytes
  have header : KMSG_HEADER_LEN = 4 := rfl
  have total : log.length = front.length + (record.body.length + 4 + later.length) := by
    rw [split, List.length_append, List.length_append, record.length_bytes, header]
  have tag : kmsg.buffer (front.length % KMSG_BUFFER_SIZE) = KMSG_TAG := by
    have first := backs.recordByte split old [] bytes
    rwa [List.length_nil, ringAdd_mod] at first
  have levelByte : kmsg.buffer (ringAdd (front.length % KMSG_BUFFER_SIZE) 1)
      = UInt8.ofNat record.level := backs.recordByte split old [_] bytes
  have lowByte : kmsg.buffer (ringAdd (front.length % KMSG_BUFFER_SIZE) 2) = low :=
    backs.recordByte split old [_, _] bytes
  have highByte : kmsg.buffer (ringAdd (front.length % KMSG_BUFFER_SIZE) 3) = high :=
    backs.recordByte split old [_, _, _] bytes
  have notHead : front.length % KMSG_BUFFER_SIZE ≠ kmsg.head := by
    rw [ne_eq, backs.atHead_iff old (by omega)]
    omega
  have whole : ¬kmsg.ahead (front.length % KMSG_BUFFER_SIZE) < KMSG_HEADER_LEN := by
    rw [backs.ahead old (by omega)]
    omega
  have bodyThere
      : ¬kmsg.ahead (ringAdd (front.length % KMSG_BUFFER_SIZE) 4) < record.body.length := by
    rw [ringAdd_mod, backs.ahead (by omega) (by omega)]
    omega
  have level : (if record.level ≠ KLOG_INFO ∧ record.level ≠ KLOG_WARN then KLOG_INFO
      else record.level) = record.level := by
    rw [if_neg]
    rcases ok.level with isLevel | isLevel
    · exact fun both => both.1 isLevel
    · exact fun both => both.2 isLevel
  have behind : ringAdd (ringAdd (front.length % KMSG_BUFFER_SIZE) 4) record.body.length
      = (front.length + record.bytes.length) % KMSG_BUFFER_SIZE := by
    rw [ringAdd_mod, ringAdd_mod, record.length_bytes, header]
    congr 1
    omega
  rw [readRecords, if_neg (not_or.mpr ⟨notHead, by omega⟩), if_neg (not_not.mpr tag),
    if_neg whole]
  simp only [levelByte, lowByte, highByte, bodyLen, level_of_byte ok, level, if_neg bodyThere,
    behind]
  have copied (room : Nat) := backs.copyBody ok split old (Nat.min_le_left record.body.length room)
  simp only [copied]
  generalize (if stream.labeled = true then out ++ labelOf record.level else out) = labeled
  by_cases cut : min record.body.length (len - labeled.length) < record.body.length
  · simp only [if_pos cut]
  · have take : min record.body.length (len - labeled.length) = record.body.length := by omega
    have place : front.length + KMSG_HEADER_LEN + record.body.length
        = front.length + record.bytes.length := by
      rw [record.length_bytes]
      omega
    simp only [take, Nat.lt_irrefl, if_false, List.take_length, place]

end Turns

-- Reads

/-- What a handle has not read yet: the rest of a body, and the records behind it. -/
structure Unread where
  rest : List UInt8
  records : List Record

def Unread.bytes (unread : Unread) : List UInt8 := unread.rest ++ logOf unread.records

def Unread.text (stream : Stream) (unread : Unread) : List UInt8 :=
  unread.rest ++ stream.text unread.records

/-- A cursor stands where the unread bytes begin, and the ring still has all of them. -/
structure Stands (log : List UInt8) (cursor pending : Nat) (unread : Unread) : Prop where
  place
    : ∃ front, log = front ++ unread.bytes
      ∧ oldest log ≤ front.length
      ∧ cursor = front.length % KMSG_BUFFER_SIZE
  pending : pending = unread.rest.length
  ok : ∀ record ∈ unread.records, record.Ok

/-- A read takes what the buffer has room for; it leaves no room but that of a label behind. -/
structure Fills (stream : Stream) (len : Nat) (out : List UInt8) (unread : Unread) : Prop where
  bound : out.length ≤ len
  stops
    : out.length = len
      ∨ unread = ⟨[], []⟩
      ∨ stream.labeled = true ∧ unread.rest = [] ∧ len < out.length + KMSG_LABEL_LEN

section Reads

variable {kmsg : Kmsg} {log : List UInt8}

/-- The second loop of `kmsg_read` shows record after record. -/
theorem Backs.readRecords (backs : Backs kmsg log) (stream : Stream) {len : Nat}
    {records : List Record} (ok : ∀ record ∈ records, record.Ok) {front : List UInt8}
    (split : log = front ++ logOf records) (old : oldest log ≤ front.length) {turns : Nat}
    (enough : records.length < turns) {out : List UInt8} (room : out.length ≤ len)
    : ∃ read unread,
        Log.readRecords kmsg stream len turns out (front.length % KMSG_BUFFER_SIZE) = some read
        ∧ Stands log read.cursor read.pending unread
        ∧ read.out ++ unread.text stream = out ++ stream.text records
        ∧ Fills stream len read.out unread := by
  induction records generalizing front turns out with
  | nil =>
      obtain ⟨more, rfl⟩ := Nat.exists_eq_succ_of_ne_zero (Nat.ne_zero_of_lt enough)
      have atHead : front.length % KMSG_BUFFER_SIZE = kmsg.head := by
        rw [backs.atHead_iff old (by simp [split]), split]
        simp [logOf]
      refine ⟨⟨out, front.length % KMSG_BUFFER_SIZE, 0⟩, ⟨[], []⟩, ?_, ?_, rfl, room, ?_⟩
      · rw [Log.readRecords, if_pos (Or.inl atHead)]
      · exact ⟨⟨front, split, old, rfl⟩, rfl, nofun⟩
      · exact Or.inr (Or.inl rfl)
  | cons record records ih =>
      obtain ⟨more, rfl⟩ := Nat.exists_eq_succ_of_ne_zero (Nat.ne_zero_of_lt enough)
      by_cases full : out.length = len
      · refine ⟨⟨out, front.length % KMSG_BUFFER_SIZE, 0⟩, ⟨[], record :: records⟩, ?_, ?_, rfl,
          room, Or.inl full⟩
        · rw [Log.readRecords, if_pos (Or.inr (Nat.le_of_eq full.symm))]
        · exact ⟨⟨front, split, old, rfl⟩, rfl, ok⟩
      have isOk := ok record (by simp)
      have okRest := fun other inside => ok other (List.mem_cons_of_mem record inside)
      have next : log = (front ++ record.bytes) ++ logOf records := by
        rw [split, logOf_cons, List.append_assoc]
      have nextOld : oldest log ≤ (front ++ record.bytes).length := by
        rw [List.length_append]
        omega
      have fewer : records.length < more := by
        rw [List.length_cons] at enough
        omega
      rw [backs.readRecord isOk split old stream (Nat.lt_of_le_of_ne room full),
        ← List.length_append]
      by_cases skipped : stream.keeps record.level = false
      · obtain ⟨read, unread, ran, stands, same, fills⟩ := ih okRest next nextOld fewer room
        rw [if_pos skipped]
        refine ⟨read, unread, ran, stands, ?_, fills⟩
        rw [same]
        simp [Stream.text, Stream.shows, skipped]
      rw [if_neg skipped]
      by_cases noLabel : stream.labeled = true ∧ len < out.length + KMSG_LABEL_LEN
      · rw [if_pos noLabel]
        refine ⟨⟨out, front.length % KMSG_BUFFER_SIZE, 0⟩, ⟨[], record :: records⟩, rfl, ?_, rfl,
          room, Or.inr (Or.inr ⟨noLabel.1, rfl, noLabel.2⟩)⟩
        exact ⟨⟨front, split, old, rfl⟩, rfl, ok⟩
      rw [if_neg noLabel]
      generalize isLabeled
        : (if stream.labeled = true then out ++ labelOf record.level else out) = labeled
      have labelRoom : labeled.length ≤ len := by
        rw [← isLabeled]
        split
        · rename_i labeledStream
          rw [List.length_append, labelOf_length]
          exact Nat.not_lt.mp fun short => noLabel ⟨labeledStream, short⟩
        · exact room
      have shown : labeled ++ record.body = out ++ stream.shows record := by
        have kept : stream.keeps record.level = true := by simpa using skipped
        simp only [← isLabeled, Stream.shows, kept, if_true]
        split
        · rw [List.append_assoc]
        · rfl
      simp only []
      by_cases cut : min record.body.length (len - labeled.length) < record.body.length
      · rw [if_pos cut]
        have taken : (record.body.take (min record.body.length (len - labeled.length))).length
            = len - labeled.length := by
          rw [List.length_take]
          omega
        refine ⟨_, ⟨record.body.drop (min record.body.length (len - labeled.length)), records⟩,
          rfl, ⟨?_, ?_, okRest⟩, ?_, ?_⟩
        · obtain ⟨low, high, bytes, _⟩ := isOk.bytes
          refine ⟨front ++ (KMSG_TAG :: UInt8.ofNat record.level :: low :: high
            :: record.body.take (min record.body.length (len - labeled.length))), ?_, ?_, ?_⟩
          · rw [split, logOf_cons, bytes, Unread.bytes]
            simp [← List.append_assoc (record.body.take _)]
          · rw [List.length_append]
            omega
          · simp only [List.length_append, List.length_cons, taken, KMSG_HEADER_LEN]
            congr 1
            omega
        · rw [List.length_drop]
        · simp only [Unread.text]
          rw [List.append_assoc, ← List.append_assoc (record.body.take _),
            List.take_append_drop, ← List.append_assoc, shown]
          simp [Stream.text]
        · refine ⟨?_, Or.inl ?_⟩
          · simp only [List.length_append, taken]
            omega
          · simp only [List.length_append, taken]
            omega
      · rw [if_neg cut]
        have roomLeft : (labeled ++ record.body).length ≤ len := by
          rw [List.length_append]
          omega
        obtain ⟨read, unread, ran, stands, same, fills⟩ := ih okRest next nextOld fewer roomLeft
        refine ⟨read, unread, ran, stands, ?_, fills⟩
        rw [same, shown]
        simp [Stream.text]

theorem length_le_logOf (records : List Record) : records.length ≤ (logOf records).length := by
  induction records with
  | nil => exact Nat.le_refl 0
  | cons record rest ih =>
      rw [logOf_cons, List.length_append, record.length_bytes, List.length_cons, KMSG_HEADER_LEN]
      omega

/-- Where `kmsg_read` begins: at the cursor, or where it finds a record if the cursor is lost. -/
def Begins (kmsg : Kmsg) (handle : Handle) (start pending : Nat) : Prop :=
  if handle.cursor < kmsg.tail ∨ kmsg.head < handle.cursor then
    kmsgResync kmsg kmsg.tail = some start ∧ pending = 0
  else start = handle.cursor ∧ pending = handle.pending

theorem kmsgRead_eq {handle : Handle} {start pending : Nat}
    (begins : Begins kmsg handle start pending)
    (len : Nat)
    : kmsgRead kmsg handle len
      = (if min pending len < pending then
            some ⟨(Log.copyOut kmsg (min pending len) start).1,
              (Log.copyOut kmsg (min pending len) start).2, pending - min pending len⟩
          else
            Log.readRecords kmsg handle.stream len (KMSG_BUFFER_SIZE + 1)
              (Log.copyOut kmsg (min pending len) start).1
              (Log.copyOut kmsg (min pending len) start).2).map
          (fun read => (read.out, ⟨handle.stream, read.cursor, read.pending⟩)) := by
  unfold kmsgRead
  by_cases lost : handle.cursor < kmsg.tail ∨ kmsg.head < handle.cursor
  · rw [Begins, if_pos lost] at begins
    obtain ⟨resync, rfl⟩ := begins
    simp only [if_pos lost, resync]
  · rw [Begins, if_neg lost] at begins
    obtain ⟨rfl, rfl⟩ := begins
    simp only [if_neg lost]

theorem Backs.kmsgRead (backs : Backs kmsg log) {handle : Handle} {start pending : Nat}
    {unread : Unread} (begins : Begins kmsg handle start pending)
    (stands : Stands log start pending unread) (len : Nat)
    : ∃ out after left,
        Log.kmsgRead kmsg handle len = some (out, after)
        ∧ after.stream = handle.stream
        ∧ Stands log after.cursor after.pending left
        ∧ out ++ left.text handle.stream = unread.text handle.stream
        ∧ Fills handle.stream len out left := by
  obtain ⟨⟨front, split, old, rfl⟩, rfl, ok⟩ := stands
  rw [kmsgRead_eq begins]
  have parts : log = front ++ (unread.rest.take (min unread.rest.length len)
      ++ (unread.rest.drop (min unread.rest.length len) ++ logOf unread.records)) := by
    rw [split, Unread.bytes, ← List.append_assoc (unread.rest.take _), List.take_append_drop]
  have taken : (unread.rest.take (min unread.rest.length len)).length
      = min unread.rest.length len :=
    List.length_take_of_le (Nat.min_le_left _ _)
  have copy := backs.copyOut parts old
  rw [taken] at copy
  rw [copy]
  by_cases cut : min unread.rest.length len < unread.rest.length
  · rw [if_pos cut]
    refine ⟨_, _, ⟨unread.rest.drop (min unread.rest.length len), unread.records⟩, rfl, rfl,
      ⟨⟨front ++ unread.rest.take (min unread.rest.length len), ?_, ?_, ?_⟩, ?_, ok⟩, ?_, ?_⟩
    · rw [parts, List.append_assoc]
      rfl
    · rw [List.length_append]
      omega
    · rw [List.length_append, taken]
    · rw [List.length_drop]
    · simp only [Unread.text]
      rw [← List.append_assoc, List.take_append_drop]
    · refine ⟨?_, Or.inl ?_⟩
      · rw [taken]
        omega
      · rw [taken]
        omega
  · have all : min unread.rest.length len = unread.rest.length := by omega
    rw [if_neg cut, all, List.take_length, ← List.length_append]
    have next : log = (front ++ unread.rest) ++ logOf unread.records := by
      rw [split, Unread.bytes, List.append_assoc]
    have few : unread.records.length < KMSG_BUFFER_SIZE + 1 := by
      have bound := length_le_logOf unread.records
      have total := congrArg List.length split
      simp only [Unread.bytes, List.length_append] at total
      simp only [oldest, KMSG_BUFFER_SIZE] at old ⊢
      omega
    obtain ⟨read, left, ran, standsAfter, same, fills⟩ :=
      backs.readRecords handle.stream ok next (by rw [List.length_append]; omega) few
        (by omega : unread.rest.length ≤ len)
    rw [ran]
    exact ⟨_, _, left, rfl, rfl, standsAfter, same, fills⟩

end Reads

end Panuti.Log
