import Mathlib.Data.List.Induction
import Panuti.Log.KmsgReads

/-! Runs of the log with one open handle. Its reads deliver every record of its stream once and in
order, as long as no read takes the handle's cursor for a lost one.
-/

namespace Panuti.Log

-- Finding a record

/-- `kmsg_resync` stops in front of these bytes, the last ones of the ring. -/
def mayStart : List UInt8 → Bool
  | tag :: level :: _ :: _ :: _ =>
      tag == KMSG_TAG && (level.toNat == KLOG_INFO || level.toNat == KLOG_WARN)
  | tag :: _ => tag == KMSG_TAG
  | [] => false

/-- Nothing in what is left of a record looks like the start of one. -/
def Clean (torn after : List UInt8) : Prop :=
  ∀ front c back, torn = front ++ c :: back → mayStart (c :: back ++ after) = false

section Resync

variable {kmsg : Kmsg} {log : List UInt8} {front : List UInt8} {records : List Record}

theorem Backs.resync_turn (backs : Backs kmsg log) {rest : List UInt8} {c : UInt8}
    (split : log = front ++ c :: rest) (old : oldest log ≤ front.length) (turns : Nat)
    : Log.resyncLoop kmsg (turns + 1) (front.length % KMSG_BUFFER_SIZE)
      = if mayStart (c :: rest) = true then some (front.length % KMSG_BUFFER_SIZE)
        else Log.resyncLoop kmsg turns ((front.length + 1) % KMSG_BUFFER_SIZE) := by
  have total : log.length = front.length + (rest.length + 1) := by
    rw [split, List.length_append, List.length_cons]
  have notHead : front.length % KMSG_BUFFER_SIZE ≠ kmsg.head := by
    rw [ne_eq, backs.atHead_iff old (by omega)]
    omega
  rw [Log.resyncLoop, if_neg notHead, backs.byte split old, ringAdd_mod]
  by_cases isTag : c = KMSG_TAG
  · rw [if_neg (not_not.mpr isTag), backs.ahead old (by omega)]
    match rest, split, total with
    | level :: low :: high :: rest, split, total =>
        have next : log = (front ++ [c]) ++ level :: (low :: high :: rest) := by rw [split]; simp
        have levelByte := backs.byte next (by rw [List.length_append]; omega)
        rw [List.length_append, List.length_singleton] at levelByte
        simp only [List.length_cons] at total
        rw [if_neg (by rw [KMSG_HEADER_LEN]; omega), levelByte]
        simp [mayStart, isTag]
    | [], _, total | [_], _, total | [_, _], _, total =>
        simp only [List.length_cons, List.length_nil] at total
        rw [if_pos (by rw [KMSG_HEADER_LEN]; omega)]
        simp [mayStart, isTag]
  · have other : mayStart (c :: rest) = false := by
      match rest with
      | level :: low :: high :: rest => simp [mayStart, isTag]
      | [] | [_] | [_, _] => simp [mayStart, isTag]
    rw [if_pos isTag, other]
    simp

theorem Backs.resync_skips (backs : Backs kmsg log) {torn after : List UInt8}
    (split : log = front ++ (torn ++ after)) (old : oldest log ≤ front.length)
    (clean : Clean torn after) (turns : Nat)
    : Log.resyncLoop kmsg (torn.length + turns) (front.length % KMSG_BUFFER_SIZE)
      = Log.resyncLoop kmsg turns ((front.length + torn.length) % KMSG_BUFFER_SIZE) := by
  induction torn generalizing front with
  | nil => rw [List.length_nil, Nat.zero_add, Nat.add_zero]
  | cons c torn ih =>
      have here : log = front ++ c :: (torn ++ after) := split
      have next : log = (front ++ [c]) ++ (torn ++ after) := by rw [here]; simp
      have cleanRest : Clean torn after := by
        intro before other back inTorn
        exact clean (c :: before) other back (by rw [inTorn]; rfl)
      have goesOn : mayStart (c :: (torn ++ after)) = false := clean [] c torn rfl
      have later := ih next (by rw [List.length_append]; omega) cleanRest
      rw [List.length_append, List.length_singleton] at later
      rw [List.length_cons, Nat.add_right_comm, backs.resync_turn here old, goesOn,
        if_neg Bool.false_ne_true, later, Nat.add_assoc, Nat.add_comm 1]

theorem Backs.resync_records (backs : Backs kmsg log) (ok : ∀ record ∈ records, record.Ok)
    (split : log = front ++ logOf records) (old : oldest log ≤ front.length) (turns : Nat)
    : Log.resyncLoop kmsg (turns + 1) (front.length % KMSG_BUFFER_SIZE)
      = some (front.length % KMSG_BUFFER_SIZE) := by
  cases records with
  | nil =>
      have isLog : front = log := by simpa [logOf] using split.symm
      rw [Log.resyncLoop, if_pos ((backs.atHead_iff old (by rw [isLog])).mpr (by rw [isLog]))]
  | cons record records =>
      have isOk := ok record (List.mem_cons_self ..)
      obtain ⟨low, high, bytes, _⟩ := isOk.bytes
      have here : log = front ++ KMSG_TAG :: (UInt8.ofNat record.level :: low :: high
          :: (record.body ++ logOf records)) := by
        rw [split, logOf_cons, bytes]
        simp
      have starts : mayStart (KMSG_TAG :: (UInt8.ofNat record.level :: low :: high
          :: (record.body ++ logOf records))) = true := by
        simpa [mayStart, level_of_byte isOk] using isOk.level
      rw [backs.resync_turn here old, if_pos starts]

theorem Backs.resyncLoop (backs : Backs kmsg log) {torn : List UInt8}
    (ok : ∀ record ∈ records, record.Ok) (split : log = front ++ (torn ++ logOf records))
    (old : oldest log ≤ front.length) (clean : Clean torn (logOf records)) {turns : Nat}
    (enough : torn.length < turns)
    : Log.resyncLoop kmsg turns (front.length % KMSG_BUFFER_SIZE)
      = some ((front.length + torn.length) % KMSG_BUFFER_SIZE) := by
  obtain ⟨more, rfl⟩ : ∃ more, turns = torn.length + (more + 1) :=
    ⟨turns - torn.length - 1, by omega⟩
  have behind : log = (front ++ torn) ++ logOf records := by rw [split, List.append_assoc]
  rw [backs.resync_skips split old clean, ← List.length_append,
    backs.resync_records ok behind (by rw [List.length_append]; omega)]

end Resync

-- Opening

/-- The records of which the ring still has every byte. -/
def wholeRecords : List Record → List Record
  | [] => []
  | record :: rest =>
      if (logOf (record :: rest)).length < KMSG_BUFFER_SIZE then record :: rest
      else wholeRecords rest

/-- What the ring has of the records before those. -/
def tornBytes (records : List Record) : List UInt8 :=
  (logOf (records.take (records.length - (wholeRecords records).length))).drop
    (oldest (logOf records))

theorem logOf_append (one two : List Record) : logOf (one ++ two) = logOf one ++ logOf two :=
  List.flatMap_append

theorem wholeRecords_suffix (records : List Record) : wholeRecords records <:+ records := by
  induction records with
  | nil => exact List.suffix_refl []
  | cons record rest ih =>
      rw [wholeRecords]
      split
      · exact List.suffix_refl _
      · exact ih.trans (List.suffix_cons record rest)

theorem wholeRecords_fit (records : List Record)
    : (logOf (wholeRecords records)).length < KMSG_BUFFER_SIZE := by
  induction records with
  | nil => decide
  | cons record rest ih =>
      rw [wholeRecords]
      split
      · rename_i fits
        exact fits
      · exact ih

theorem logOf_torn (records : List Record)
    : ∃ front, logOf records = front ++ (tornBytes records ++ logOf (wholeRecords records))
        ∧ front.length = oldest (logOf records) := by
  obtain ⟨lost, same⟩ := wholeRecords_suffix records
  have lostIs : records.take (records.length - (wholeRecords records).length) = lost := by
    have total := congrArg List.length same
    rw [List.length_append] at total
    rw [← total, Nat.add_sub_cancel]
    exact (congrArg (List.take lost.length) same.symm).trans List.take_left
  have split : logOf records = logOf lost ++ logOf (wholeRecords records) := by
    rw [← logOf_append, same]
  have inside : oldest (logOf records) ≤ (logOf lost).length := by
    have fit := wholeRecords_fit records
    rw [split, oldest, List.length_append]
    omega
  refine ⟨(logOf lost).take (oldest (logOf records)), ?_, List.length_take_of_le inside⟩
  rw [tornBytes, lostIs, ← List.append_assoc, List.take_append_drop]
  exact split

def pushAll (pushes : List (Int × List UInt8)) : Kmsg :=
  pushes.foldl (fun kmsg push => kmsgPush kmsg push.1 push.2) .empty

def recordsOf (pushes : List (Int × List UInt8)) : List Record :=
  pushes.map (fun push => recordOf push.1 push.2)

theorem recordsOf_ok (pushes : List (Int × List UInt8)) (record : Record)
    (member : record ∈ recordsOf pushes)
    : record.Ok := by
  obtain ⟨push, _, rfl⟩ := List.mem_map.mp member
  exact recordOf_ok push.1 push.2

theorem pushAll_backs (pushes : List (Int × List UInt8))
    : Backs (pushAll pushes) (logOf (recordsOf pushes)) := by
  induction pushes using List.reverseRecOn with
  | nil => exact .empty
  | append_singleton pushes push ih =>
      have pushed := ih.push push.1 push.2
      rw [pushAll, List.foldl_append, recordsOf, List.map_append, logOf_append]
      simpa [logOf, pushAll, recordsOf] using pushed

theorem kmsgOpen_spec {pushes : List (Int × List UInt8)}
    (clean : Clean (tornBytes (recordsOf pushes)) (logOf (wholeRecords (recordsOf pushes))))
    (stream : Stream)
    : ∃ cursor, kmsgOpen (pushAll pushes) stream = some ⟨stream, cursor, 0⟩
        ∧ Stands (logOf (recordsOf pushes)) cursor 0 ⟨[], wholeRecords (recordsOf pushes)⟩ := by
  have backs := pushAll_backs pushes
  obtain ⟨front, split, isOldest⟩ := logOf_torn (recordsOf pushes)
  have ok (record : Record) (member : record ∈ wholeRecords (recordsOf pushes)) : record.Ok :=
    recordsOf_ok pushes record ((wholeRecords_suffix _).subset member)
  have few : (tornBytes (recordsOf pushes)).length < KMSG_BUFFER_SIZE + 1 := by
    have total := congrArg List.length split
    simp only [List.length_append] at total
    simp only [oldest, KMSG_BUFFER_SIZE] at isOldest ⊢
    omega
  have found := backs.resyncLoop ok split (Nat.le_of_eq isOldest.symm) clean few
  rw [isOldest, ← backs.tail] at found
  refine ⟨_, by rw [kmsgOpen, kmsgResync, found, Option.map_some], ?_, rfl, ok⟩
  refine ⟨front ++ tornBytes (recordsOf pushes), ?_, ?_, ?_⟩
  · rw [List.append_assoc]
    exact split
  · rw [List.length_append]
    omega
  · rw [List.length_append, isOldest]

-- Runs

/-- The log and one open handle: the records it is to deliver, which are the whole ones at its
opening and all that were pushed since, and what its reads have returned.
-/
structure Session where
  kmsg : Kmsg
  handle : Handle
  due : List Record
  out : List UInt8

def Session.push (session : Session) (level : Int) (data : List UInt8) : Session :=
  { session with
    kmsg := kmsgPush session.kmsg level data
    due := session.due ++ [recordOf level data] }

/-- A push leaves alone what the handle has not read. -/
def Session.Spares (session : Session) (level : Int) (data : List UInt8) : Prop :=
  session.kmsg.ahead session.handle.cursor + (recordOf level data).bytes.length < KMSG_BUFFER_SIZE

/-- Opening a handle after some pushes, and then pushes that overwrite nothing unread, and reads, in
any order.
-/
inductive Run (mayOpen : List Record → Prop) (mayRead : Session → Prop) (stream : Stream)
    : Session → Prop where
  | opened {pushes : List (Int × List UInt8)} {handle : Handle}
      (may : mayOpen (recordsOf pushes))
      (ran : kmsgOpen (pushAll pushes) stream = some handle)
      : Run mayOpen mayRead stream
          ⟨pushAll pushes, handle, wholeRecords (recordsOf pushes), []⟩
  | push {session : Session} (run : Run mayOpen mayRead stream session) (level : Int)
      (data : List UInt8) (spares : session.Spares level data)
      : Run mayOpen mayRead stream (session.push level data)
  | read {session : Session} {len : Nat} {bytes : List UInt8} {handle : Handle}
      (run : Run mayOpen mayRead stream session) (may : mayRead session)
      (ran : kmsgRead session.kmsg session.handle len = some (bytes, handle))
      : Run mayOpen mayRead stream { session with handle, out := session.out ++ bytes }

/-- Nothing that is left of an overwritten record looks like the start of one. -/
def CleanOpen (records : List Record) : Prop :=
  Clean (tornBytes records) (logOf (wholeRecords records))

/-- The ring does not wrap around its end, or the handle still stands on the first record. -/
def Session.ReadSafe (session : Session) : Prop :=
  session.kmsg.tail ≤ session.kmsg.head
  ∨ session.handle.pending = 0
    ∧ kmsgResync session.kmsg session.kmsg.tail = some session.handle.cursor

def CaughtUp (kmsg : Kmsg) (handle : Handle) : Prop :=
  handle.cursor = kmsg.head ∧ handle.pending = 0

/-- The reads have returned what the stream shows of the records due, from the first one on; all of
it where everything is read.
-/
structure Session.Delivers (session : Session) (stream : Stream) : Prop where
  isPrefix : session.out <+: stream.text session.due
  whole : CaughtUp session.kmsg session.handle → session.out = stream.text session.due

/-- A read returns, and takes all that its buffer has room for. -/
def Session.Answers (session : Session) (stream : Stream) (len : Nat) : Prop :=
  ∃ bytes handle, kmsgRead session.kmsg session.handle len = some (bytes, handle)
    ∧ bytes.length ≤ len
    ∧ (bytes.length = len ∨ CaughtUp session.kmsg handle
      ∨ stream.labeled = true ∧ handle.pending = 0 ∧ len < bytes.length + KMSG_LABEL_LEN)

/-- Where the handle stands, and that what it has not read yet completes what it has. -/
structure Session.Good (session : Session) (stream : Stream) (log : List UInt8) (unread : Unread)
    : Prop where
  backs : Backs session.kmsg log
  stands : Stands log session.handle.cursor session.handle.pending unread
  sameStream : session.handle.stream = stream
  completes : session.out ++ unread.text stream = stream.text session.due

namespace Session

variable {session : Session} {stream : Stream} {log : List UInt8} {unread : Unread}

theorem Good.push (good : session.Good stream log unread) (level : Int) (data : List UInt8)
    (spares : session.Spares level data)
    : (session.push level data).Good stream (log ++ (recordOf level data).bytes)
        ⟨unread.rest, unread.records ++ [recordOf level data]⟩ := by
  obtain ⟨⟨front, split, old, place⟩, pending, ok⟩ := good.stands
  have bytes : (Unread.mk unread.rest (unread.records ++ [recordOf level data])).bytes
      = unread.bytes ++ (recordOf level data).bytes := by
    simp [Unread.bytes, logOf]
  refine ⟨good.backs.push level data, ⟨⟨front, ?_, ?_, place⟩, pending, ?_⟩, good.sameStream, ?_⟩
  · rw [bytes, split, List.append_assoc]
  · rw [Spares, place, good.backs.ahead old (by simp [split])] at spares
    rw [oldest, List.length_append]
    omega
  · intro record member
    rcases List.mem_append.mp member with was | new
    · exact ok record was
    · obtain rfl := List.mem_singleton.mp new
      exact recordOf_ok level data
  · have text : (Unread.mk unread.rest (unread.records ++ [recordOf level data])).text stream
        = unread.text stream ++ stream.text [recordOf level data] := by
      simp [Unread.text, Stream.text]
    rw [text, ← List.append_assoc, Session.push, good.completes]
    simp [Stream.text]

theorem Good.read (good : session.Good stream log unread) {start pending : Nat}
    (begins : Begins session.kmsg session.handle start pending)
    (stands : Stands log start pending unread) (len : Nat)
    : ∃ bytes handle left,
        kmsgRead session.kmsg session.handle len = some (bytes, handle)
        ∧ Session.Good { session with handle, out := session.out ++ bytes } stream log left
        ∧ Fills stream len bytes left := by
  obtain ⟨bytes, handle, left, ran, sameStream, standsAfter, same, fills⟩ :=
    good.backs.kmsgRead begins stands len
  rw [good.sameStream] at sameStream same fills
  refine ⟨bytes, handle, left, ran, ⟨good.backs, standsAfter, sameStream, ?_⟩, fills⟩
  rw [List.append_assoc, same]
  exact good.completes

theorem Good.begins (good : session.Good stream log unread) (safe : session.ReadSafe)
    : Begins session.kmsg session.handle session.handle.cursor session.handle.pending := by
  obtain ⟨⟨front, split, old, place⟩, _, _⟩ := good.stands
  unfold Begins
  rcases safe with straight | ⟨nothing, found⟩
  · rw [if_neg]
    · exact ⟨rfl, rfl⟩
    · have inside : front.length ≤ log.length := by simp [split]
      rw [good.backs.tail, good.backs.head] at straight
      rw [good.backs.tail, good.backs.head, place]
      simp only [oldest, KMSG_BUFFER_SIZE] at straight old ⊢
      omega
  · split
    · exact ⟨found, nothing⟩
    · exact ⟨rfl, rfl⟩

theorem Good.caughtUp_iff (good : session.Good stream log unread)
    : CaughtUp session.kmsg session.handle ↔ unread = ⟨[], []⟩ := by
  obtain ⟨⟨front, split, old, place⟩, pending, _⟩ := good.stands
  have total := congrArg List.length split
  rw [List.length_append] at total
  have atHead := good.backs.atHead_iff old (by omega)
  rw [← place] at atHead
  constructor
  · rintro ⟨same, _⟩
    have here := atHead.mp same
    have nothing : unread.bytes.length = 0 := by omega
    rw [Unread.bytes, List.length_append] at nothing
    have few := length_le_logOf unread.records
    obtain ⟨rest, records⟩ := unread
    have noRest : rest.length = 0 := by
      simp only at nothing
      omega
    have noRecords : records.length = 0 := by
      simp only at nothing few
      omega
    rw [List.length_eq_zero_iff.mp noRest, List.length_eq_zero_iff.mp noRecords]
  · rintro rfl
    refine ⟨atHead.mpr ?_, pending⟩
    simp only [Unread.bytes, logOf, List.flatMap_nil, List.append_nil, List.length_nil] at total
    omega

theorem Good.delivered (good : session.Good stream log unread) : session.Delivers stream := by
  constructor
  · exact ⟨_, good.completes⟩
  · intro caughtUp
    obtain rfl := good.caughtUp_iff.mp caughtUp
    simpa [Unread.text, Stream.text] using good.completes

theorem Good.answers (good : session.Good stream log unread) (safe : session.ReadSafe) (len : Nat)
    : session.Answers stream len := by
  obtain ⟨bytes, handle, left, ran, after, fills⟩ := good.read (good.begins safe) good.stands len
  refine ⟨bytes, handle, ran, fills.bound, ?_⟩
  rcases fills.stops with full | nothing | ⟨labeled, noRest, short⟩
  · exact Or.inl full
  · exact Or.inr (Or.inl (after.caughtUp_iff.mpr nothing))
  · refine Or.inr (Or.inr ⟨labeled, ?_, short⟩)
    rw [after.stands.pending, noRest, List.length_nil]

end Session

theorem Run.good {stream : Stream} {session : Session}
    (run : Run CleanOpen Session.ReadSafe stream session)
    : ∃ log unread, session.Good stream log unread := by
  induction run with
  | @opened pushes handle clean ran =>
      obtain ⟨cursor, opens, stands⟩ := kmsgOpen_spec clean stream
      obtain rfl := Option.some.inj (opens.symm.trans ran)
      exact ⟨_, _, pushAll_backs pushes, stands, rfl, rfl⟩
  | push run level data spares ih =>
      obtain ⟨log, unread, good⟩ := ih
      exact ⟨_, _, good.push level data spares⟩
  | @read session len bytes handle run safe ran ih =>
      obtain ⟨log, unread, good⟩ := ih
      obtain ⟨found, after, left, result, goodAfter, _⟩ :=
        good.read (good.begins safe) good.stands len
      obtain ⟨rfl, rfl⟩ := Prod.mk.inj (Option.some.inj (result.symm.trans ran))
      exact ⟨log, left, goodAfter⟩

/-- Where every opening is clean and every read finds its cursor, the reads of a handle deliver each
record due to its stream, once and in order.
-/
theorem Run.delivers {stream : Stream} {session : Session}
    (run : Run CleanOpen Session.ReadSafe stream session)
    : session.Delivers stream
      ∧ (session.ReadSafe → ∀ len, session.Answers stream len) := by
  obtain ⟨log, unread, good⟩ := run.good
  exact ⟨good.delivered, fun safe len => good.answers safe len⟩

/-- One record is pushed before the opening and read. -/
theorem delivers_small
    : ∃ session, Run CleanOpen Session.ReadSafe kmsgLogStream session
        ∧ session.out = [0x68, 0x69]
        ∧ session.Delivers kmsgLogStream := by
  have clean : CleanOpen (recordsOf [(0, [0x68, 0x69])]) := by
    intro front c back torn
    have nothing : tornBytes (recordsOf [(0, [0x68, 0x69])]) = [] := by decide
    rw [nothing] at torn
    cases front <;> cases torn
  have opens : kmsgOpen (pushAll [(0, [0x68, 0x69])]) kmsgLogStream
      = some ⟨kmsgLogStream, 0, 0⟩ := by
    decide +kernel
  have reads : kmsgRead (pushAll [(0, [0x68, 0x69])]) ⟨kmsgLogStream, 0, 0⟩ 64
      = some ([0x68, 0x69], ⟨kmsgLogStream, 6, 0⟩) := by
    decide +kernel
  have safe : Session.ReadSafe ⟨pushAll [(0, [0x68, 0x69])], ⟨kmsgLogStream, 0, 0⟩,
      wholeRecords (recordsOf [(0, [0x68, 0x69])]), []⟩ :=
    Or.inl (by decide +kernel)
  have run := Run.read (.opened clean opens) safe reads
  exact ⟨_, run, rfl, run.delivers.1⟩

section Rereading

theorem Backs.readAll {kmsg : Kmsg} {log : List UInt8} (backs : Backs kmsg log) {handle : Handle}
    (plain : handle.stream.labeled = false) {start pending : Nat} {unread : Unread}
    (begins : Begins kmsg handle start pending) (stands : Stands log start pending unread)
    {len : Nat} (room : (unread.text handle.stream).length < len)
    : ∃ after,
        Log.kmsgRead kmsg handle len = some (unread.text handle.stream, after)
        ∧ Stands log after.cursor after.pending ⟨[], []⟩
        ∧ after.stream = handle.stream := by
  obtain ⟨bytes, after, left, ran, sameStream, standsAfter, same, fills⟩ :=
    backs.kmsgRead begins stands len
  have nothing : left = ⟨[], []⟩ := by
    rcases fills.stops with full | nothing | ⟨labeled, _⟩
    · have total := congrArg List.length same
      rw [List.length_append] at total
      omega
    · exact nothing
    · rw [plain] at labeled
      cases labeled
  subst nothing
  have all : bytes = unread.text handle.stream := by simpa [Unread.text, Stream.text] using same
  exact ⟨after, all ▸ ran, standsAfter, sameStream⟩

/-- So many zero bytes, which look like nothing else. -/
@[irreducible] def zeros (count : Nat) : List UInt8 := List.replicate count 0

variable {count : Nat}

theorem recordOf_zeros (small : count ≤ KMSG_MAX_RECORD)
    : recordOf 0 (zeros count) = ⟨0, zeros count⟩ := by
  rw [recordOf, zeros, List.take_replicate, Nat.min_eq_right small]
  rfl

theorem zeros_bytes_length : (Record.mk 0 (zeros count)).bytes.length = count + 4 := by
  rw [Record.length_bytes, zeros, List.length_replicate, KMSG_HEADER_LEN]

theorem zeros_shown (records : List Record)
    : kmsgLogStream.text (⟨0, zeros count⟩ :: records)
      = zeros count ++ kmsgLogStream.text records := by
  rfl

theorem clean_zeros (after : List UInt8) : Clean (zeros count) after := by
  intro front c back torn
  have member : c ∈ zeros count := by
    rw [torn]
    simp
  rw [zeros] at member
  obtain rfl : c = 0 := (List.mem_replicate.mp member).2
  rw [List.cons_append]
  match back ++ after with
  | [] => rfl
  | [_] => rfl
  | [_, _] => rfl
  | _ :: _ :: _ :: _ => rfl

theorem zeros_add (one two : Nat) : zeros (one + two) = zeros one ++ zeros two := by
  rw [zeros, zeros, zeros, List.replicate_append_replicate]

theorem zeros_length : (zeros count).length = count := by
  rw [zeros, List.length_replicate]

theorem Session.Good.pushRead {mayRead : Session → Prop} (any : ∀ session, mayRead session)
    {session : Session} {log : List UInt8} (run : Run CleanOpen mayRead kmsgLogStream session)
    (good : session.Good kmsgLogStream log ⟨[], []⟩)
    (small : log.length + count + 4 < KMSG_BUFFER_SIZE)
    : ∃ after, Run CleanOpen mayRead kmsgLogStream after
        ∧ after.Good kmsgLogStream (log ++ (Record.mk 0 (zeros count)).bytes) ⟨[], []⟩
        ∧ after.due = session.due ++ [⟨0, zeros count⟩]
        ∧ after.out = session.out ++ zeros count := by
  obtain ⟨⟨front, split, old, place⟩, _, _⟩ := good.stands
  have isLog : front = log := by simpa [Unread.bytes, logOf] using split.symm
  subst isLog
  have record : recordOf 0 (zeros count) = ⟨0, zeros count⟩ := by
    apply recordOf_zeros
    simp only [KMSG_BUFFER_SIZE, KMSG_MAX_RECORD] at small ⊢
    omega
  have spares : session.Spares 0 (zeros count) := by
    rw [Session.Spares, place, good.backs.ahead old (Nat.le_refl _), record, zeros_bytes_length]
    omega
  have pushed := good.push 0 (zeros count) spares
  rw [record, List.nil_append] at pushed
  have safe : (session.push 0 (zeros count)).ReadSafe := by
    refine Or.inl ?_
    rw [pushed.backs.tail, oldest, List.length_append, zeros_bytes_length]
    simp only [KMSG_BUFFER_SIZE] at small ⊢
    omega
  have stream : (session.push 0 (zeros count)).handle.stream = kmsgLogStream := good.sameStream
  have text : (Unread.mk [] [⟨0, zeros count⟩]).text kmsgLogStream = zeros count := by
    rw [Unread.text, zeros_shown]
    exact List.append_nil (zeros count)
  obtain ⟨handle, ran, stands, sameStream⟩ := pushed.backs.readAll (by rw [stream]; rfl)
    (pushed.begins safe) pushed.stands (Nat.lt_succ_self _)
  rw [stream, text] at ran
  refine ⟨_, .read (.push run 0 (zeros count) spares) (any _) ran,
    ⟨pushed.backs, stands, sameStream.trans stream, ?_⟩, ?_, rfl⟩
  · have completes := pushed.completes
    rw [text] at completes
    rw [← completes]
    simp [Unread.text, Stream.text]
  · rw [← record]
    rfl

/-- Once the ring has wrapped around its end, a read takes its cursor for a lost one and returns a
record again that was read before.
-/
theorem rereads
    : ¬∀ session, Run CleanOpen (fun _ => True) kmsgLogStream session
        → session.Delivers kmsgLogStream := by
  intro delivers
  have any (session : Session) : (fun _ : Session => True) session := trivial
  have clean : CleanOpen (recordsOf []) := by
    intro front c back torn
    cases front <;> cases torn
  have opens : kmsgOpen (pushAll []) kmsgLogStream = some ⟨kmsgLogStream, 0, 0⟩ := by
    decide +kernel
  have start : Run CleanOpen (fun _ => True) kmsgLogStream
      ⟨pushAll [], ⟨kmsgLogStream, 0, 0⟩, wholeRecords (recordsOf []), []⟩ :=
    .opened clean opens
  have first : Session.Good ⟨pushAll [], ⟨kmsgLogStream, 0, 0⟩, wholeRecords (recordsOf []), []⟩
      kmsgLogStream [] ⟨[], []⟩ :=
    ⟨.empty, ⟨⟨[], rfl, Nat.le_refl 0, rfl⟩, rfl, nofun⟩, rfl, rfl⟩
  have roomOne : ([] : List UInt8).length + 8000 + 4 < KMSG_BUFFER_SIZE := by decide
  obtain ⟨one, runOne, goodOne, dueOne, outOne⟩ := first.pushRead any start roomOne
  have roomTwo : ([] ++ (Record.mk 0 (zeros 8000)).bytes).length + 100 + 4 < KMSG_BUFFER_SIZE := by
    rw [List.nil_append, zeros_bytes_length]
    decide
  obtain ⟨two, runTwo, goodTwo, dueTwo, outTwo⟩ := goodOne.pushRead any runOne roomTwo
  -- the third record is pushed over the beginning of the first one
  have record : recordOf 0 (zeros 100) = ⟨0, zeros 100⟩ := recordOf_zeros (by decide)
  obtain ⟨⟨front, split, old, place⟩, _, _⟩ := goodTwo.stands
  rw [List.nil_append] at split old goodTwo
  have places : front.length = 8108 := by
    have total := congrArg List.length split
    simp only [Unread.bytes, logOf, List.flatMap_nil, List.append_nil, List.length_append,
      zeros_bytes_length] at total
    omega
  have spares : two.Spares 0 (zeros 100) := by
    rw [Session.Spares, place, goodTwo.backs.ahead old (by simp [split]), record,
      zeros_bytes_length, List.length_append, zeros_bytes_length, zeros_bytes_length, places]
    decide
  have pushed := goodTwo.push 0 (zeros 100) spares
  rw [record, List.nil_append] at pushed
  generalize isLog : (Record.mk 0 (zeros 8000)).bytes ++ (Record.mk 0 (zeros 100)).bytes
    ++ (Record.mk 0 (zeros 100)).bytes = log at pushed
  have length : log.length = 8212 := by
    rw [← isLog, List.length_append, List.length_append, zeros_bytes_length, zeros_bytes_length]
  have stands : Stands log 8004 0 ⟨[], [⟨0, zeros 100⟩, ⟨0, zeros 100⟩]⟩ := by
    refine ⟨⟨(Record.mk 0 (zeros 8000)).bytes, ?_, ?_, ?_⟩, rfl, ?_⟩
    · rw [← isLog, List.append_assoc, Unread.bytes, logOf_cons, logOf_cons]
      simp [logOf]
    · rw [oldest, length, zeros_bytes_length]
      decide
    · rw [zeros_bytes_length]
      decide
    · intro other member
      obtain rfl : other = ⟨0, zeros 100⟩ := by simpa using member
      rw [← record]
      exact recordOf_ok 0 (zeros 100)
  have found : kmsgResync (two.push 0 (zeros 100)).kmsg (two.push 0 (zeros 100)).kmsg.tail
      = some 8004 := by
    have bigOk : (Record.mk 0 (zeros 8000)).Ok := ⟨Or.inl rfl, by rw [zeros_length]; decide⟩
    obtain ⟨low, high, bytes, _⟩ := bigOk.bytes
    have front : log = (KMSG_TAG :: UInt8.ofNat 0 :: low :: high :: zeros 17)
        ++ (zeros 7983 ++ logOf [⟨0, zeros 100⟩, ⟨0, zeros 100⟩]) := by
      rw [← isLog, bytes, logOf_cons, logOf_cons, zeros_add 17 7983]
      simp [logOf]
    have frontLength : (KMSG_TAG :: UInt8.ofNat 0 :: low :: high :: zeros 17).length = 21 := by
      simp [zeros_length]
    have few : (zeros 7983).length < KMSG_BUFFER_SIZE + 1 := by
      rw [zeros_length]
      decide
    have search := pushed.backs.resyncLoop stands.ok front
      (by rw [oldest, length, frontLength]; decide) (clean_zeros _) few
    rw [frontLength, zeros_length] at search
    rw [kmsgResync, pushed.backs.tail, oldest, length]
    exact search
  have begins : Begins (two.push 0 (zeros 100)).kmsg (two.push 0 (zeros 100)).handle 8004 0 := by
    have lost : (two.push 0 (zeros 100)).kmsg.head < (two.push 0 (zeros 100)).handle.cursor := by
      have cursor : (two.push 0 (zeros 100)).handle.cursor = 8108 := by
        rw [Session.push, place, places]
        decide
      rw [pushed.backs.head, length, cursor]
      decide
    rw [Begins, if_pos (Or.inr lost)]
    exact ⟨found, rfl⟩
  have stream : (two.push 0 (zeros 100)).handle.stream = kmsgLogStream := goodTwo.sameStream
  obtain ⟨handle, ran, _⟩ := pushed.backs.readAll (by rw [stream]; rfl) begins stands
    (Nat.lt_succ_self _)
  rw [stream, Unread.text, zeros_shown, zeros_shown] at ran
  have reread := (delivers _ (.read (.push runTwo 0 (zeros 100) spares) trivial ran)).isPrefix
  have short := reread.length_le
  have due : (two.push 0 (zeros 100)).due
      = [⟨0, zeros 8000⟩, ⟨0, zeros 100⟩, ⟨0, zeros 100⟩] := by
    rw [Session.push, dueTwo, dueOne, record]
    rfl
  have out : (two.push 0 (zeros 100)).out = zeros 8000 ++ zeros 100 := by
    rw [Session.push, outTwo, outOne, List.nil_append]
  simp only [due, out, zeros_shown, List.length_append, zeros_length] at short
  simp [Stream.text] at short

end Rereading

end Panuti.Log
