import Panuti.Time.Calendars

/-! The directories of ISO 9660 volumes, `isofs.c`: the records of a directory extent with their
Rock Ridge names, the search for a name and the listing, the cache of extents, and the parameters
that a mount accepts. Every access to a buffer is checked against its size, and a loop that takes
more turns than it can is an error of its own.
-/

namespace Panuti.Iso9660

def ISOFS_BLOCKSIZE : Nat := 2048
def ISOFS_DIRCACHE_SLOTS : Nat := 8
def REG_MAX_NAME_LEN : Nat := 256
def DIRENT_NAME_MAX : Nat := 256
def PAGE_SIZE : Nat := 4096

abbrev Bytes := List UInt8

/-- What must not happen: an access outside of a buffer, or a loop without end. -/
inductive Fault where
  | outside
  | endless
deriving Repr, DecidableEq

-- Buffers

def byteAt (buf : Bytes) (place : Nat) : Except Fault Nat :=
  match buf[place]? with
  | some byte => .ok byte.toNat
  | none => .error .outside

/-- So many bytes of a buffer, as `memcpy` reads them. -/
def bytesAt (buf : Bytes) (place count : Nat) : Except Fault Bytes :=
  if place + count ≤ buf.length then .ok ((buf.drop place).take count) else .error .outside

def copyAt (buf : Bytes) (place : Nat) (bytes : Bytes) : Except Fault Bytes :=
  if place + bytes.length ≤ buf.length then
    .ok (buf.take place ++ bytes ++ buf.drop (place + bytes.length))
  else .error .outside

def cstring (buf : Bytes) : Bytes := buf.takeWhile (· != 0)

def strlen (buf : Bytes) : Except Fault Nat :=
  if 0 ∈ buf then .ok (cstring buf).length else .error .outside

/-- `strncmp(one, two, n) == 0`. -/
def strncmpEqual : (n : Nat) → (one two : Bytes) → Except Fault Bool
  | 0, _, _ => .ok true
  | n + 1, a :: one, b :: two =>
      if a ≠ b then .ok false
      else if a = 0 then .ok true
      else strncmpEqual n one two
  | _ + 1, _, _ => .error .outside

/-- What `strncpy` writes: at most `n` bytes of the string, and zeros behind them. -/
def strncpyBytes (n : Nat) (source : Bytes) : Except Fault Bytes :=
  if 0 ∈ source.take n ∨ n ≤ source.length then
    let copied := cstring (source.take n)
    .ok (copied ++ List.replicate (n - copied.length) 0)
  else .error .outside

/-- `memchr` in the first bytes of a buffer. -/
def memchr (buf : Bytes) (byte : UInt8) (count : Nat) : Except Fault (Option Nat) := do
  let bytes ← bytesAt buf 0 count
  return bytes.findIdx? (· == byte)

def readLe16 (buf : Bytes) (place : Nat) : Except Fault Nat := do
  let b0 ← byteAt buf place
  let b1 ← byteAt buf (place + 1)
  return b0 ||| b1 <<< 8

def readLe32 (buf : Bytes) (place : Nat) : Except Fault Nat := do
  let b0 ← byteAt buf place
  let b1 ← byteAt buf (place + 1)
  let b2 ← byteAt buf (place + 2)
  let b3 ← byteAt buf (place + 3)
  return b0 ||| b1 <<< 8 ||| b2 <<< 16 ||| b3 <<< 24

-- Records

/-- `isofs_dirent_t`. The name stands in a buffer of its own. -/
structure IsofsDirent where
  startLba : Nat
  length : Nat
  isDir : Bool
  mtime : Option Int
  name : Bytes
deriving Repr, DecidableEq

/-- `isofs_t`, less the device and the cache. -/
structure Isofs where
  blockSize : Nat
  volumeSpaceSize : Nat
  rootLba : Nat
  rootLength : Nat
  isRockRidge : Bool
  rrLenSkip : Nat
deriving Repr, DecidableEq

def suStart (lenFi : Nat) : Nat :=
  let suOffset := 33 + lenFi
  if suOffset % 2 = 1 then suOffset + 1 else suOffset

/-- The loop of `rr_apply_name` over the entries of the system use area: the buffer of the name,
and the length of the name where one was found.
-/
def rrEntries (buf : Bytes) (record drLen suOffset nameLen : Nat) (found : Bool) (outName : Bytes)
    : Except Fault (Option Nat × Bytes) := do
  if _ : suOffset + 4 ≤ drLen then
    let sig1 ← byteAt buf (record + suOffset)
    let sig2 ← byteAt buf (record + suOffset + 1)
    let entryLen ← byteAt buf (record + suOffset + 2)
    if _ : entryLen < 4 ∨ drLen < suOffset + entryLen then
      return (if found then some nameLen else none, outName)
    else if sig1 = 'N'.toNat ∧ sig2 = 'M'.toNat ∧ 5 ≤ entryLen then
      let flags ← byteAt buf (record + suOffset + 4)
      let dataLen := entryLen - 5
      if nameLen + dataLen < REG_MAX_NAME_LEN then
        let data ← bytesAt buf (record + suOffset + 5) dataLen
        let outName ← copyAt outName nameLen data
        if flags % 2 = 0 then return (some (nameLen + dataLen), outName)
        else rrEntries buf record drLen (suOffset + entryLen) (nameLen + dataLen) true outName
      else if flags % 2 = 0 then return (if found then some nameLen else none, outName)
      else rrEntries buf record drLen (suOffset + entryLen) nameLen found outName
    else rrEntries buf record drLen (suOffset + entryLen) nameLen found outName
  else return (if found then some nameLen else none, outName)
termination_by drLen - suOffset

/-- `rr_apply_name`: whether there is a Rock Ridge name, and the buffer it was written to. -/
def rrApplyName (fs : Isofs) (buf : Bytes) (record : Nat) (outName : Bytes)
    : Except Fault (Bool × Bytes) := do
  if fs.isRockRidge = false then return (false, outName)
  else
    let drLen ← byteAt buf record
    let lenFi ← byteAt buf (record + 32)
    let (found, outName) ←
      rrEntries buf record drLen (suStart lenFi + fs.rrLenSkip) 0 false outName
    match found with
    | none => return (false, outName)
    | some nameLen => return (true, ← copyAt outName nameLen [0])

def cutAt (buf : Bytes) : Option Nat → Except Fault Bytes
  | some place => copyAt buf place [0]
  | none => .ok buf

/-- The file identifier of a record, without its version and without a dot at the end. -/
def plainName (buf : Bytes) (record lenFi : Nat) (outName : Bytes) : Except Fault Bytes := do
  let rawName ← bytesAt buf (record + 33) lenFi
  let outName ← copyAt outName 0 rawName
  let outName ← copyAt outName lenFi [0]
  let semi ← memchr outName ';'.toUInt8 lenFi
  let outName ← cutAt outName semi
  let l ← strlen outName
  if 0 < l then
    if (← byteAt outName (l - 1)) = '.'.toNat then copyAt outName (l - 1) [0]
    else return outName
  else return outName

/-- The byte of a file identifier that is one byte long. -/
def soleByte (buf : Bytes) (record lenFi : Nat) : Except Fault (Option Nat) := do
  if lenFi = 1 then return some (← byteAt buf (record + 33)) else return none

/-- `parse_dirent_basename`: the buffer with the name, or none where it does not fit. -/
def parseDirentBasename (fs : Isofs) (buf : Bytes) (record : Nat) (outName : Bytes)
    : Except Fault (Option Bytes) := do
  let lenFi ← byteAt buf (record + 32)
  let special ← soleByte buf record lenFi
  if special = some 0 then return some (← copyAt outName 0 ['.'.toUInt8, 0])
  else if special = some 1 then return some (← copyAt outName 0 ['.'.toUInt8, '.'.toUInt8, 0])
  else
    let (rockRidge, outName) ← rrApplyName fs buf record outName
    if rockRidge then return some outName
    else if REG_MAX_NAME_LEN ≤ lenFi then return none
    else return some (← plainName buf record lenFi outName)

def parseDirRecord (fs : Isofs) (buf : Bytes) (record : Nat)
    : Except Fault (Option IsofsDirent) := do
  let startLba ← readLe32 buf (record + 2)
  let length ← readLe32 buf (record + 10)
  let time ← bytesAt buf (record + 18) 7
  let flags ← byteAt buf (record + 25)
  let name ← parseDirentBasename fs buf record (List.replicate REG_MAX_NAME_LEN 0)
  return name.map (fun name =>
    { startLba, length, isDir := flags / 2 % 2 = 1,
      mtime := Time.isofsTimeToUnix (fun i => time.getD i 0), name })

-- Extents

def isofsLbaValid (fs : Isofs) (lba len : Nat) : Bool :=
  let blocks := (len + fs.blockSize - 1) / fs.blockSize
  if fs.volumeSpaceSize ≤ lba then false
  else if fs.volumeSpaceSize - lba < blocks then false
  else true

/-- `isofs_dircache_entry_t`, where it holds an extent. -/
structure DircacheEntry where
  startLba : Nat
  length : Nat
  data : Bytes
deriving Repr, DecidableEq

/-- The cache of extents, with the place of its next victim. -/
structure Dircache where
  slots : List (Option DircacheEntry)
  next : Nat
deriving Repr, DecidableEq

/-- What a call finds: whether the kernel heap has room, and whether the device answers. -/
structure Medium where
  room : Bool
  answers : Bool
deriving Repr, DecidableEq

/-- The sizes that `kmalloc` serves while there is room. -/
def kmallocServes (size : Nat) : Bool :=
  size ≠ 0 ∧ size + (PAGE_SIZE - 1) ≤ 65535 * PAGE_SIZE

def deviceBytes (device : Nat → UInt8) (place count : Nat) : Bytes :=
  (List.range count).map (fun i => device (place + i))

def isofsDirData (fs : Isofs) (device : Nat → UInt8) (cache : Dircache) (startLba length : Nat)
    (medium : Medium) : Option Bytes × Dircache :=
  match cache.slots.findSome? (fun slot => slot.filter (fun entry =>
      entry.startLba = startLba ∧ entry.length = length)) with
  | some entry => (some entry.data, cache)
  | none =>
      if (kmallocServes length && medium.room) = false then (none, cache)
      else if medium.answers = false then (none, cache)
      else
        let data := deviceBytes device (startLba * fs.blockSize) length
        (some data,
          ⟨cache.slots.set cache.next (some ⟨startLba, length, data⟩),
            (cache.next + 1) % ISOFS_DIRCACHE_SLOTS⟩)

-- Searching and listing

/-- A directory of the volume: the extent its inode has, or the root where it has none. -/
structure Directory where
  impl : Option (Nat × Nat)
deriving Repr, DecidableEq

def Isofs.extent (fs : Isofs) (dir : Directory) : Nat × Nat :=
  match dir.impl with
  | some extent => extent
  | none => (fs.rootLba, fs.rootLength)

/-- What one turn of the loop over the records of an extent finds: the end, something to pass over,
or a record, with the place the next turn goes on from.
-/
inductive Turn where
  | ends
  | goesOn (next : Nat)
  | record (next : Nat) (dirent : IsofsDirent)
deriving Repr, DecidableEq

/-- One turn of the loops of `isofs_lookup` and `isofs_readdir`, at an offset inside the extent. -/
def turnAt (fs : Isofs) (buf : Bytes) (sdLen offset : Nat) : Except Fault Turn := do
  let drLen ← byteAt buf offset
  if drLen = 0 then
    -- the rest of the sector is padding
    let next := (offset / fs.blockSize + 1) * fs.blockSize % 2 ^ 32
    if sdLen ≤ next then return .ends else return .goesOn next
  else if drLen < 34 ∨ sdLen < (offset + drLen) % 2 ^ 32 then
    return .goesOn ((offset + 1) % 2 ^ 32)
  else
    let lenFi ← byteAt buf ((offset + 32) % 2 ^ 32)
    if drLen - 33 < lenFi then return .goesOn ((offset + 1) % 2 ^ 32)
    else
      match ← parseDirRecord fs buf offset with
      | none => return .goesOn ((offset + drLen) % 2 ^ 32)
      | some dirent => return .record ((offset + drLen) % 2 ^ 32) dirent

/-- The loop that `isofs_lookup` and `isofs_readdir` share. A record is handed to `visit` with the
place behind it, and ends the loop where `visit` gives something.
-/
def scanRecords {α : Type} (fs : Isofs) (buf : Bytes) (sdLen : Nat)
    (visit : Nat → IsofsDirent → Except Fault (Option α))
    : (turns offset : Nat) → Except Fault (Option α)
  | 0, _ => .error .endless
  | turns + 1, offset =>
      if sdLen ≤ offset then .ok none
      else do
        match ← turnAt fs buf sdLen offset with
        | .ends => return none
        | .goesOn next => scanRecords fs buf sdLen visit turns next
        | .record next dirent =>
            match ← visit next dirent with
            | some found => return some found
            | none => scanRecords fs buf sdLen visit turns next

/-- The test in `isofs_lookup`. -/
def isNamed (name : Bytes) (dirent : IsofsDirent) : Except Fault Bool := do
  if (← strlen dirent.name) = name.length then strncmpEqual name.length dirent.name name
  else return false

/-- Whether the inode, its data and its entry can be made. -/
structure InodeRoom where
  inode : Bool
  data : Bool
  entry : Bool
deriving Repr, DecidableEq

/-- `isofs_lookup`: what is told of the inode that was found and entered in the directory. -/
def isofsLookup (fs : Isofs) (device : Nat → UInt8) (cache : Dircache) (dir : Directory)
    (name : Bytes) (medium : Medium) (room : InodeRoom)
    : Except Fault (Option IsofsDirent × Dircache) := do
  let (sdLba, sdLen) := fs.extent dir
  if isofsLbaValid fs sdLba sdLen = false then return (none, cache)
  else
    match isofsDirData fs device cache sdLba sdLen medium with
    | (none, cache) => return (none, cache)
    | (some buf, cache) =>
        let found ← scanRecords fs buf sdLen
          (fun _ dirent => do
            if ← isNamed name dirent then return some dirent else return none)
          (sdLen + 1) 0
        let linked := room.inode && room.data && room.entry
          && decide (0 < name.length ∧ name.length < REG_MAX_NAME_LEN)
        return (if linked then found else none, cache)

/-- `dirent_entry_t`, in so far as `isofs_readdir` fills it. -/
structure DirentEntry where
  name : Bytes
  isDir : Bool
  size : Nat
  mtime : Int
deriving Repr, DecidableEq

/-- What `isofs_readdir` returns: -1, 1, or 0 with an entry. -/
inductive ReaddirResult where
  | failed
  | finished
  | entry (entry : DirentEntry)
deriving Repr, DecidableEq

/-- The entry that `isofs_readdir` hands out for a record. -/
def fillEntry (dirent : IsofsDirent) : Except Fault DirentEntry := do
  let outName := List.replicate DIRENT_NAME_MAX (0 : UInt8)
  let outName ← copyAt outName 0 (← strncpyBytes (DIRENT_NAME_MAX - 1) dirent.name)
  let outName ← copyAt outName (DIRENT_NAME_MAX - 1) [0]
  return ⟨outName, dirent.isDir, dirent.length, dirent.mtime.getD 0⟩

/-- `isofs_readdir`, with the cursor it leaves. -/
def isofsReaddir (fs : Isofs) (device : Nat → UInt8) (cache : Dircache) (dir : Directory)
    (cursor : Nat) (medium : Medium) : Except Fault (ReaddirResult × Nat × Dircache) := do
  let (sdLba, sdLen) := fs.extent dir
  if isofsLbaValid fs sdLba sdLen = false then return (.failed, cursor, cache)
  else if sdLen ≤ cursor then return (.finished, cursor, cache)
  else
    match isofsDirData fs device cache sdLba sdLen medium with
    | (none, cache) => return (.failed, cursor, cache)
    | (some buf, cache) =>
        let found ← scanRecords fs buf sdLen
          (fun next dirent => do return some (← fillEntry dirent, next)) (sdLen + 1) cursor
        match found with
        | some (entry, next) => return (.entry entry, next, cache)
        | none => return (.finished, sdLen, cache)

-- Mounting

/-- The device a volume is on: its size in bytes, and its content. -/
structure BlockDev where
  blockCount : Nat
  blockSize : Nat
  content : Nat → UInt8

/-- The loop of `isofs_mount` over the volume descriptors: the buffer it reads them into, and the
first primary one. `answers` tells whether a descriptor can be read.
-/
def findPvd (dev : BlockDev) (answers : Nat → Bool)
    : (turns lba : Nat) → Bytes → Option Bytes → Option (Bytes × Option Bytes)
  | 0, _, desc, pvd => some (desc, pvd)
  | turns + 1, lba, _, pvd =>
      if answers lba = false then none
      else
        let desc := deviceBytes dev.content (lba * ISOFS_BLOCKSIZE) ISOFS_BLOCKSIZE
        if desc.head? = some 255 then some (desc, pvd)
        else findPvd dev answers turns (lba + 1) desc
          (if desc.head? = some 1 ∧ pvd = none then some desc else pvd)

/-- `rr_check_sp`: how many bytes of each system use area to skip, on a volume with Rock Ridge. -/
def rrCheckSp (record : Bytes) : Except Fault (Option Nat) := do
  let drLen ← byteAt record 0
  let lenFi ← byteAt record 32
  let suOffset := suStart lenFi
  if drLen < suOffset + 7 then return none
  else if (← byteAt record suOffset) = 'S'.toNat ∧ (← byteAt record (suOffset + 1)) = 'P'.toNat
      ∧ (← byteAt record (suOffset + 2)) = 7 ∧ (← byteAt record (suOffset + 4)) = 0xBE
      ∧ (← byteAt record (suOffset + 5)) = 0xEF then
    return some (← byteAt record (suOffset + 6))
  else return none

/-- The parameters of a volume as `isofs_mount` takes them from its primary descriptor; none where
it refuses the volume. `rootAnswers` tells whether the root's first block can be read.
-/
def mountParameters (dev : BlockDev) (answers : Nat → Bool) (rootAnswers : Bool)
    : Except Fault (Option Isofs) := do
  match findPvd dev answers (dev.blockCount - 16) 16 [] none with
  | some (desc, some pvd) =>
      if (← bytesAt pvd 1 5) ≠ "CD001".toList.map Char.toUInt8 then return none
      else if (← byteAt pvd 6) ≠ 1 then return none
      else if (← byteAt pvd 881) ≠ 1 then return none
      else
        let volumeSpaceSize ← readLe32 pvd 80
        let blockSize ← readLe16 pvd 128
        if blockSize = 0 ∨ blockSize &&& (blockSize - 1) ≠ 0 ∨ 65536 < blockSize then return none
        else if dev.blockCount * dev.blockSize % 2 ^ 64 < volumeSpaceSize * blockSize then
          return none
        else
          let plain : Isofs := ⟨blockSize, volumeSpaceSize, 0, 0, false, 0⟩
          match ← parseDirRecord plain pvd 156 with
          | none => return none
          | some root =>
              let fs : Isofs := { plain with rootLba := root.startLba, rootLength := root.length }
              if isofsLbaValid fs root.startLba root.length = false then return none
              else if ISOFS_BLOCKSIZE < blockSize then return none
              else if rootAnswers = false then return some fs
              else
                let desc ← copyAt desc 0
                  (deviceBytes dev.content (root.startLba * blockSize) blockSize)
                match ← rrCheckSp desc with
                | some lenSkp => return some { fs with isRockRidge := true, rrLenSkip := lenSkp }
                | none => return some fs
  | _ => return none

end Panuti.Iso9660
