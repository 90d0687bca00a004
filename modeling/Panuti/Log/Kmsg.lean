import Mathlib.Data.Nat.Bitwise
import Panuti.Library.Ring

/-! The kernel's log, `kmsg.c`: records of variable size in a ring of bytes, and the handles that
read them as three streams. Every call here runs with interrupts disabled.
-/

namespace Panuti.Log

-- The ring

def KMSG_BUFFER_SIZE : Nat := 8192
def KMSG_TAG : UInt8 := 0x01
def KMSG_HEADER_LEN : Nat := 4
def KMSG_LABEL_LEN : Nat := 7
def KMSG_MAX_RECORD : Nat := 65535

def KLOG_INFO : Nat := 0
def KLOG_WARN : Nat := 1

/-- `kmsg_buffer`, `kmsg_head` and `kmsg_tail`. -/
structure Kmsg where
  buffer : Nat → UInt8
  head : Nat
  tail : Nat

def Kmsg.empty : Kmsg := ⟨fun _ => 0, 0, 0⟩

/-- `(cursor + count) % KMSG_BUFFER_SIZE`. -/
def ringAdd (cursor count : Nat) : Nat := (cursor + count) % KMSG_BUFFER_SIZE

/-- `(head - cursor + KMSG_BUFFER_SIZE) % KMSG_BUFFER_SIZE`. -/
def Kmsg.ahead (kmsg : Kmsg) (cursor : Nat) : Nat :=
  (kmsg.head + KMSG_BUFFER_SIZE - cursor) % KMSG_BUFFER_SIZE

def kmsgPushByte (kmsg : Kmsg) (c : UInt8) : Kmsg :=
  let next := ringAdd kmsg.head 1
  { buffer := Function.update kmsg.buffer kmsg.head c
    head := next
    tail := if next = kmsg.tail then ringAdd kmsg.tail 1 else kmsg.tail }

def pushedLevel (level : Int) : Nat := if level = KLOG_WARN then KLOG_WARN else KLOG_INFO

/-- A record as it was pushed: its level, and its body. -/
structure Record where
  level : Nat
  body : List UInt8
deriving Repr, DecidableEq

def Record.bytes (record : Record) : List UInt8 :=
  KMSG_TAG :: UInt8.ofNat record.level :: UInt8.ofNat (record.body.length &&& 0xff)
    :: UInt8.ofNat ((record.body.length >>> 8) &&& 0xff) :: record.body

/-- What a call of `kmsg_push` writes. -/
def recordOf (level : Int) (data : List UInt8) : Record :=
  ⟨pushedLevel level, data.take KMSG_MAX_RECORD⟩

def kmsgPush (kmsg : Kmsg) (level : Int) (data : List UInt8) : Kmsg :=
  (recordOf level data).bytes.foldl kmsgPushByte kmsg

-- Handles

/-- `kmsg_stream_t`. -/
structure Stream where
  level : Int
  labeled : Bool
deriving Repr, DecidableEq

def kmsgAllStream : Stream := ⟨-1, true⟩
def kmsgLogStream : Stream := ⟨KLOG_INFO, false⟩
def kmsgWarnStream : Stream := ⟨KLOG_WARN, false⟩

/-- `kmsg_handle_t`. -/
structure Handle where
  stream : Stream
  cursor : Nat
  pending : Nat
deriving Repr, DecidableEq

/-- `kmsg_resync` from a cursor, for at most so many turns of its loop. -/
def resyncLoop (kmsg : Kmsg) : Nat → Nat → Option Nat
  | 0, _ => none
  | turns + 1, cursor =>
      if cursor = kmsg.head then some cursor
      else if kmsg.buffer cursor ≠ KMSG_TAG then resyncLoop kmsg turns (ringAdd cursor 1)
      else if kmsg.ahead cursor < KMSG_HEADER_LEN then some cursor
      else
        let level := (kmsg.buffer (ringAdd cursor 1)).toNat
        if level = KLOG_INFO ∨ level = KLOG_WARN then some cursor
        else resyncLoop kmsg turns (ringAdd cursor 1)

def kmsgResync (kmsg : Kmsg) (start : Nat) : Option Nat :=
  resyncLoop kmsg (KMSG_BUFFER_SIZE + 1) start

/-- `kmsg_open`, where the handle can be allocated. -/
def kmsgOpen (kmsg : Kmsg) (stream : Stream) : Option Handle :=
  (kmsgResync kmsg kmsg.tail).map (fun cursor => ⟨stream, cursor, 0⟩)

/-- So many bytes from a cursor on, and the cursor behind them. -/
def copyOut (kmsg : Kmsg) : Nat → Nat → List UInt8 × Nat
  | 0, cursor => ([], cursor)
  | count + 1, cursor =>
      let (bytes, after) := copyOut kmsg count (ringAdd cursor 1)
      (kmsg.buffer cursor :: bytes, after)

/-- `s->level < 0 || s->level == level`. -/
def Stream.keeps (stream : Stream) (level : Nat) : Bool :=
  decide (stream.level < 0) || decide (stream.level = level)

def labelOf (level : Nat) : List UInt8 :=
  if level = KLOG_WARN then [0x5b, 0x57, 0x41, 0x52, 0x4e, 0x5d, 0x20]
  else [0x5b, 0x49, 0x4e, 0x46, 0x4f, 0x5d, 0x20]

/-- Where `kmsg_read` stands: what it has written, its cursor and `h->pending`. -/
structure Reading where
  out : List UInt8
  cursor : Nat
  pending : Nat

/-- The second loop of `kmsg_read`, for at most so many turns. -/
def readRecords (kmsg : Kmsg) (stream : Stream) (len : Nat)
    : Nat → List UInt8 → Nat → Option Reading
  | 0, _, _ => none
  | turns + 1, out, cursor =>
      if cursor = kmsg.head ∨ len ≤ out.length then some ⟨out, cursor, 0⟩
      else if kmsg.buffer cursor ≠ KMSG_TAG then
        readRecords kmsg stream len turns (out ++ [kmsg.buffer cursor]) (ringAdd cursor 1)
      else if kmsg.ahead cursor < KMSG_HEADER_LEN then some ⟨out, cursor, 0⟩
      else
        let read := (kmsg.buffer (ringAdd cursor 1)).toNat
        let bodyLen := (kmsg.buffer (ringAdd cursor 2)).toNat
          ||| ((kmsg.buffer (ringAdd cursor 3)).toNat <<< 8)
        let level := if read ≠ KLOG_INFO ∧ read ≠ KLOG_WARN then KLOG_INFO else read
        let body := ringAdd cursor 4
        -- the cursor stays behind the header here
        if kmsg.ahead body < bodyLen then some ⟨out, body, 0⟩
        else if stream.keeps level = false then
          readRecords kmsg stream len turns out (ringAdd body bodyLen)
        else if stream.labeled ∧ len < out.length + KMSG_LABEL_LEN then some ⟨out, cursor, 0⟩
        else
          let labeled := if stream.labeled then out ++ labelOf level else out
          let take := min bodyLen (len - labeled.length)
          let (bytes, after) := copyOut kmsg take body
          if take < bodyLen then some ⟨labeled ++ bytes, after, bodyLen - take⟩
          else readRecords kmsg stream len turns (labeled ++ bytes) after

/-- `kmsg_read`: the bytes written to the buffer of `len`, whose number is returned. -/
def kmsgRead (kmsg : Kmsg) (handle : Handle) (len : Nat) : Option (List UInt8 × Handle) :=
  let lost := handle.cursor < kmsg.tail ∨ kmsg.head < handle.cursor
  let found := if lost then kmsgResync kmsg kmsg.tail else some handle.cursor
  let pending := if lost then 0 else handle.pending
  match found with
  | none => none
  | some start =>
      let take := min pending len
      let (bytes, cursor) := copyOut kmsg take start
      let read :=
        if take < pending then some ⟨bytes, cursor, pending - take⟩
        else readRecords kmsg handle.stream len (KMSG_BUFFER_SIZE + 1) bytes cursor
      read.map (fun read => (read.out, ⟨handle.stream, read.cursor, read.pending⟩))

end Panuti.Log
