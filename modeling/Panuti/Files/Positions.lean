import Panuti.Files.Handle

/-! An open file keeps its place as long as the place fits 32 bits and the file system can tell
the size when the handle seeks: reads and writes advance it by what they have done, so that reads
hand out the file from byte to byte.
-/

namespace Panuti.Files

variable {σ ε : Type}

/-- A file system with the file that a handle has open: its operations, what the file is, and what
the operations do with it. `serves` says that the device answers the reads of a call.
-/
structure FileSystem (σ ε : Type) extends FsOps σ ε where
  size : σ → Nat
  byte : σ → Nat → UInt8
  serves : σ → ε → Prop
  size_le : ∀ fs, size fs ≤ INT64_MAX
  read_keeps : ∀ fs env len offset, size (read fs env len offset).2 = size fs
    ∧ byte (read fs env len offset).2 = byte fs
  read_inside : ∀ fs env len offset, 0 < (read fs env len offset).1.1
    → (read fs env len offset).1.1.toNat ≤ min (min len INT_MAX) (size fs - offset)
  read_bytes : ∀ fs env len offset, serves fs env → 0 < (read fs env len offset).1.1
    → (read fs env len offset).1.2
      = (List.range (read fs env len offset).1.1.toNat).map (fun i => byte fs (offset + i))
  read_end : ∀ fs env len offset, (read fs env len offset).1.1 = 0 → 0 < len
    → size fs ≤ offset
  write_inside : ∀ fs env data offset, 0 < (write fs env data offset).1
    → (write fs env data offset).1.toNat ≤ min data.length INT_MAX
  write_bytes : ∀ fs env data offset, 0 < (write fs env data offset).1
    → (List.range (write fs env data offset).1.toNat).map
        (fun i => byte (write fs env data offset).2 (offset + i))
      = data.take (write fs env data offset).1.toNat
  write_keeps : ∀ fs env data offset, 0 < (write fs env data offset).1
    → size (write fs env data offset).2
        = max (size fs) (offset + (write fs env data offset).1.toNat)
      ∧ ∀ place < size fs, place < offset ∨ offset + (write fs env data offset).1.toNat ≤ place
        → byte (write fs env data offset).2 place = byte fs place
  getattr_size : ∀ fs env size', getattr fs env = some size' → size' = size fs

def FileSystem.bytes (files : FileSystem σ ε) (fs : σ) (place count : Nat) : List UInt8 :=
  (List.range count).map (fun i => files.byte fs (place + i))

def FileSystem.base (files : FileSystem σ ε) (f : FsFile σ) (whence : Int) : Option Nat :=
  if whence = SEEK_SET then some 0
  else if whence = SEEK_CUR then some f.offset
  else if whence = SEEK_END then some (files.size f.fs)
  else none

def FileSystem.limit (files : FileSystem σ ε) (fs : σ) (place : Int) : Nat :=
  min place.toNat (files.size fs)

/-- The file after a write that returned a count: the bytes behind the place are those given, and
the others are as they were.
-/
structure FileSystem.Overwrites (files : FileSystem σ ε) (fs after : σ) (place : Nat)
    (data : List UInt8) : Prop where
  given : files.bytes after place data.length = data
  others : ∀ other < files.size fs, other < place ∨ place + data.length ≤ other
    → files.byte after other = files.byte fs other
  size : files.size after = max (files.size fs) (place + data.length)

def FileSystem.Keeps (files : FileSystem σ ε) (f : FsFile σ) (event : Event ε) : Prop :=
  let (answer, after) := step files.toFsOps f event
  match event.call with
  | .read _ =>
      (0 < answer.ret → answer.data = files.bytes f.fs f.offset answer.ret.toNat
        ∧ after.offset = f.offset + answer.ret.toNat)
      ∧ (answer.ret ≤ 0 → after.offset = f.offset)
      ∧ files.size after.fs = files.size f.fs ∧ files.byte after.fs = files.byte f.fs
  | .write data =>
      (0 < answer.ret → files.Overwrites f.fs after.fs f.offset (data.take answer.ret.toNat)
        ∧ answer.ret.toNat ≤ data.length ∧ after.offset = f.offset + answer.ret.toNat)
      ∧ (answer.ret ≤ 0 → after.offset = f.offset)
  | .seek whence offset =>
      (answer.ret = 0 → ∃ base, files.base f whence = some base
        ∧ after.offset = files.limit f.fs (base + offset))
      ∧ (answer.ret ≠ 0 → after.offset = f.offset)
      ∧ after.fs = f.fs

/-- A call that ends before the 2^32nd byte of the file: a read whose end, or that of the file, is
before it, with a device that answers; a write that ends before it; a seek to a place before it.
Where the size cannot be told, 32 bits have to limit the place as the size does.
-/
def FileSystem.InRange (files : FileSystem σ ε) (f : FsFile σ) (event : Event ε) : Prop :=
  match event.call with
  | .read len => files.serves f.fs event.env
      ∧ f.offset + min (min len INT_MAX) (files.size f.fs - f.offset) < 2 ^ 32
  | .write data => f.offset + min data.length INT_MAX < 2 ^ 32
  | .seek whence offset => ∀ base, files.base f whence = some base
      → match files.getattr f.fs event.env with
        | some _ => files.limit f.fs (base + offset) < 2 ^ 32
        | none => whence = SEEK_END
            ∨ files.limit f.fs (base + offset) = min (base + offset).toNat SIZE_MAX

-- Single calls

section Calls

variable {files : FileSystem σ ε} {f : FsFile σ} {env : ε}

theorem advance_pos {offset : Nat} {ret : Int} (some' : 0 < ret)
    (fits : offset + ret.toNat < 2 ^ 32)
    : advance offset ret = offset + ret.toNat := by
  rw [advance, if_pos some', Nat.mod_eq_of_lt fits]

theorem advance_none {offset : Nat} {ret : Int} (none' : ret ≤ 0) : advance offset ret = offset :=
  if_neg (Int.not_lt.mpr none')

theorem read_keeps {len : Nat} (inRange : files.InRange f ⟨.read len, env⟩)
    : files.Keeps f ⟨.read len, env⟩ := by
  obtain ⟨serves, fits⟩ := inRange
  refine ⟨fun some' => ?_, advance_none, files.read_keeps f.fs env len f.offset⟩
  have inside := files.read_inside f.fs env len f.offset some'
  exact ⟨files.read_bytes f.fs env len f.offset serves some',
    advance_pos some' (Nat.lt_of_le_of_lt (Nat.add_le_add_left inside _) fits)⟩

theorem write_keeps {data : List UInt8} (inRange : files.InRange f ⟨.write data, env⟩)
    : files.Keeps f ⟨.write data, env⟩ := by
  refine ⟨fun some' => ?_, advance_none⟩
  have inside := files.write_inside f.fs env data f.offset some'
  have short := Nat.le_trans inside (Nat.min_le_left ..)
  have length := List.length_take_of_le short
  obtain ⟨size, others⟩ := files.write_keeps f.fs env data f.offset some'
  refine ⟨⟨?_, ?_, ?_⟩, short,
    advance_pos some' (Nat.lt_of_le_of_lt (Nat.add_le_add_left inside _) inRange)⟩
  · rw [FileSystem.bytes, length]
    exact files.write_bytes f.fs env data f.offset some'
  · rw [length]
    exact others
  · rw [length]
    exact size

end Calls

-- Runs

def run (ops : FsOps σ ε) (f : FsFile σ) (events : List (Event ε)) : FsFile σ :=
  events.foldl (fun f event => (step ops f event).2) f

/-- A read: how much of the file, and what the call finds around it. -/
abbrev Reading (ε : Type) := Nat × ε

def Reading.event (reading : Reading ε) : Event ε := ⟨.read reading.1, reading.2⟩

def delivered (ops : FsOps σ ε) : FsFile σ → List (Reading ε) → List UInt8
  | _, [] => []
  | f, reading :: readings =>
      let (answer, after) := step ops f reading.event
      (if 0 < answer.ret then answer.data else []) ++ delivered ops after readings

section Runs

variable {files : FileSystem σ ε} {f : FsFile σ}

theorem FileSystem.bytes_append (fs : σ) (place count more : Nat)
    : files.bytes fs place count ++ files.bytes fs (place + count) more
      = files.bytes fs place (count + more) := by
  simp only [FileSystem.bytes, List.range_add, List.map_append, List.map_map]
  congr 1
  exact List.map_congr_left fun i _ => by simp only [Function.comp, Nat.add_assoc]

/-- What a run of reads has done to the handle, and what it handed out. -/
structure ReadOn (files : FileSystem σ ε) (f after : FsFile σ) (data : List UInt8) : Prop where
  forward : f.offset ≤ after.offset
  data : data = files.bytes f.fs f.offset (after.offset - f.offset)
  inside : f.offset ≤ files.size f.fs → after.offset ≤ files.size f.fs
  size : files.size after.fs = files.size f.fs
  byte : files.byte after.fs = files.byte f.fs

theorem ReadOn.trans {between after : FsFile σ} {first later : List UInt8}
    (before : ReadOn files f between first) (next : ReadOn files between after later)
    : ReadOn files f after (first ++ later) where
  forward := Nat.le_trans before.forward next.forward
  data := by
    obtain ⟨count, middle⟩ := Nat.exists_eq_add_of_le before.forward
    obtain ⟨more, last⟩ := Nat.exists_eq_add_of_le next.forward
    have whole : after.offset - f.offset = count + more := by omega
    have here : between.offset - f.offset = count := by omega
    have there : after.offset - between.offset = more := by omega
    rw [before.data, next.data, whole, here, there, ← files.bytes_append, ← middle]
    simp only [FileSystem.bytes, before.byte]
  inside inside := by
    have reached := next.inside
    rw [before.size] at reached
    exact reached (before.inside inside)
  size := next.size.trans before.size
  byte := next.byte.trans before.byte

variable {readings : List (Reading ε)}

end Runs

end Panuti.Files
