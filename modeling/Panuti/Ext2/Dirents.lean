import Panuti.Library.ByteMemory
import Panuti.Library.RecordChain

/-! Directory blocks of an ext2 volume: the records, the search for a name, and the three ways
a block is changed. Every access to the bytes of a block is checked, so an access outside of the
block, or a loop that does not end within as many turns as the block has bytes, is `none`.
-/

namespace Panuti.Ext2

open ByteMemory RecordChain

/-- The fields of `ext2_t` that say how directory blocks are written. `ext2_mount` admits these
sizes of a block only.
-/
structure Format where
  blockSize : Nat
  hasFiletype : Bool
  supported : blockSize = 1024 ∨ blockSize = 2048 ∨ blockSize = 4096

theorem Format.kilobyte : 1024 = 1024 ∨ 1024 = 2048 ∨ 1024 = 4096 := .inl rfl

abbrev Name := List UInt8

/-- The name `.`. -/
def dot : Name := [0x2E]

/-- The name `..`. -/
def dotDot : Name := [0x2E, 0x2E]

def UINT32_MAX : Nat := 4294967295
def EXT2_NAME_LEN : Nat := 255
def EXT2_FT_REG : Nat := 1
def EXT2_FT_DIR : Nat := 2

/-- `ext2_dirent_hdr_len`: the size of `ext2_dirent_hdr_t`. -/
def HDR_LEN : Nat := 8

/-- `ext2_dirent_hdr_t`. -/
structure DirentHdr where
  inode : Nat
  recLen : Nat
  nameLen : Nat
  fileType : Nat
deriving Repr, DecidableEq

/-- The bytes of a header as it lies in memory; what does not fit a field is cut off. -/
def DirentHdr.bytes (header : DirentHdr) : List UInt8 :=
  [UInt8.ofNat header.inode, UInt8.ofNat (header.inode / 256),
    UInt8.ofNat (header.inode / 65536), UInt8.ofNat (header.inode / 16777216),
    UInt8.ofNat header.recLen, UInt8.ofNat (header.recLen / 256),
    UInt8.ofNat header.nameLen, UInt8.ofNat header.fileType]

/-- `ext2_dirent_rec_len`: what a record with a name of this length takes, in words of four. -/
def direntRecLen (nameLen : Nat) : Nat := (HDR_LEN + nameLen + 3) / 4 * 4

/-- `ext2_dirent_name_ok`. -/
def direntNameOk (name : Name) : Bool :=
  name.length ≠ 0 && name.length ≤ EXT2_NAME_LEN && !name.contains 0x2F

-- What the loops over the records keep

inductive Look where
  | deleted
  | malformed
  | named
  | other
deriving Repr, DecidableEq

/-- What `ext2_dirent_place` reports. -/
inductive Verdict where
  | full
  | placed
  | exists
  | corrupt
deriving Repr, DecidableEq

/-- The variables of the loop; `split_off` is `none` where the source has `UINT32_MAX`. -/
structure Scan where
  splitOff : Option Nat
  holeOff : Nat
  holeLen : Nat
  lastOff : Nat
  lastLen : Nat
  seen : Bool
deriving Repr, DecidableEq

def Scan.start : Scan := ⟨none, UINT32_MAX, 0, 0, 0, false⟩

/-- The loop remembers the longest hole that is long enough. -/
def Scan.hole (scan : Scan) (need off recLen : Nat) : Scan :=
  if need ≤ recLen ∧ scan.holeLen < recLen then { scan with holeLen := recLen, holeOff := off }
  else scan

/-- The loop remembers the first live record whose tail is long enough. -/
def Scan.split (scan : Scan) (need off recLen nameLen : Nat) : Scan :=
  if scan.splitOff = none ∧ need < recLen ∧ direntRecLen nameLen ≤ recLen - need then
    { scan with splitOff := some off }
  else scan

def Scan.last (scan : Scan) (off recLen : Nat) : Scan :=
  { scan with lastOff := off, lastLen := recLen, seen := true }

-- Accesses to a block

namespace Format

variable (format : Format)

def peekHdr (buf : Memory) (off : Nat) : Option DirentHdr :=
  if off + HDR_LEN ≤ format.blockSize then
    some ⟨buf.word off, buf.half (off + 4), (buf (off + 6)).toNat, (buf (off + 7)).toNat⟩
  else none

def poke (buf : Memory) (off : Nat) (string : List UInt8) : Option Memory :=
  if off + string.length ≤ format.blockSize then some (buf.store off string) else none

/-- Clear `len` bytes of the block. -/
def clear (buf : Memory) (off len : Nat) : Option Memory :=
  if off + len ≤ format.blockSize then some (buf.fill off len 0) else none

/-- Compare the bytes at `off` with a name. -/
def sameName (buf : Memory) (off : Nat) (name : Name) : Option Bool :=
  if off + name.length ≤ format.blockSize then
    some (buf.bytes off name.length == name)
  else none

/-- `ext2_all_zero`. -/
def allZero (buf : Memory) (off len : Nat) : Option Bool :=
  if off + len ≤ format.blockSize then
    some ((List.range len).all (fun i => buf (off + i) == 0))
  else none

-- Records

/-- `ext2_dirent_at`: the record at `off`, where one stands. -/
def direntAt (buf : Memory) (off : Nat) : Option (Slot DirentHdr) :=
  if format.blockSize - HDR_LEN < off then some .unused
  else
    match format.peekHdr buf off with
    | none => none
    | some out =>
        if out.recLen = 0 then some .unused
        else if out.recLen < HDR_LEN ∨ out.recLen % 4 ≠ 0 ∨ format.blockSize < out.recLen
            ∨ format.blockSize - out.recLen < off then
          some .broken
        else some (.record out)

/-- `ext2_dirent_write`. -/
def direntWrite (buf : Memory) (off inum : Nat) (name : Name) (fileType recLen : Nat)
    : Option Memory :=
  match format.clear buf off recLen with
  | none => none
  | some buf =>
      let header : DirentHdr :=
        ⟨inum, recLen, name.length, if format.hasFiletype then fileType else 0⟩
      match format.poke buf off header.bytes with
      | none => none
      | some buf => format.poke buf (off + HDR_LEN) name

/-- `ext2_dirent_init_dir`: the only block of a new directory, or nothing where it returns -1. -/
def direntInitDir (buf : Memory) (inum parent : Nat) : Option (Option Memory) :=
  let selfLen := direntRecLen 1
  let upLen := direntRecLen 2
  if inum = 0 ∨ format.blockSize < selfLen + upLen + HDR_LEN then some none
  else
    match format.clear buf 0 format.blockSize with
    | none => none
    | some buf =>
        match format.direntWrite buf 0 inum dot EXT2_FT_DIR selfLen with
        | none => none
        | some buf =>
            match format.direntWrite buf selfLen parent dotDot EXT2_FT_DIR upLen with
            | none => none
            | some buf =>
                let rest := format.blockSize - selfLen - upLen
                (format.poke buf (selfLen + upLen) (DirentHdr.mk 0 rest 0 0).bytes).map some

/-- Look at the record `d` at `off`; a deleted record has no name worth validating. -/
def look (buf : Memory) (name : Name) (off : Nat) (d : DirentHdr) : Option Look :=
  if d.inode = 0 then some .deleted
  else if d.nameLen = 0 ∨ d.recLen - HDR_LEN < d.nameLen then some .malformed
  else if d.nameLen = name.length then
    (format.sameName buf (off + HDR_LEN) name).map
      (fun same => if same then .named else .other)
  else some .other

-- ext2_dirent_place

/-- One turn of the loop in `ext2_dirent_place`. -/
def placeVisit (buf : Memory) (need : Nat) (name : Name) (scan : Scan) (off : Nat)
    (d : DirentHdr) : Option (Turn Scan Verdict) :=
  (format.look buf name off d).map fun seen =>
    match seen with
    | .malformed => .stop .corrupt
    | .named => .stop .exists
    | .deleted => .next ((scan.hole need off d.recLen).last off d.recLen)
    | .other => .next ((scan.split need off d.recLen d.nameLen).last off d.recLen)

/-- Carve the tail off the record at `splitOff`. -/
def carve (buf : Memory) (splitOff need inum : Nat) (name : Name) (fileType : Nat)
    : Option Memory :=
  match format.direntAt buf splitOff with
  | some (.record d) =>
      let keep := d.recLen - need
      let self := direntRecLen d.nameLen
      match format.poke buf splitOff { d with recLen := keep }.bytes with
      | none => none
      | some buf =>
          match format.clear buf (splitOff + self) (keep - self) with
          | none => none
          | some buf => format.direntWrite buf (splitOff + keep) inum name fileType need
  | _ => none

/-- What `ext2_dirent_place` does when its loop has come to the end of the records. -/
def placeAt (buf : Memory) (need : Nat) (name : Name) (inum fileType : Nat) (scan : Scan)
    : Option (Verdict × Memory) :=
  if need ≤ scan.holeLen then
    (format.direntWrite buf scan.holeOff inum name fileType scan.holeLen).map (.placed, ·)
  else
    match scan.splitOff with
    | some splitOff =>
        (format.carve buf splitOff need inum name fileType).map (.placed, ·)
    | none =>
        if !scan.seen then
          (format.direntWrite buf 0 inum name fileType need).map (.placed, ·)
        else
          let tailOff := scan.lastOff + scan.lastLen
          if format.blockSize - tailOff < need then some (.full, buf)
          else
            match format.allZero buf tailOff (format.blockSize - tailOff) with
            | none => none
            | some false => some (.full, buf)
            | some true =>
                (format.direntWrite buf tailOff inum name fileType need).map (.placed, ·)

/-- `ext2_dirent_place`. -/
def direntPlace (buf : Memory) (need : Nat) (name : Name) (inum fileType : Nat)
    : Option (Verdict × Memory) :=
  match walk (format.direntAt buf) DirentHdr.recLen (format.placeVisit buf need name)
      (format.blockSize + 1) 0 Scan.start with
  | none => none
  | some (.broken _) => some (.corrupt, buf)
  | some (.stopped verdict) => some (verdict, buf)
  | some (.unused scan) => format.placeAt buf need name inum fileType scan

-- ext2_dirent_find, ext2_dirent_remove and ext2_dirent_set_parent, in one block

/-- One turn of the loops that search a block for a name. -/
def searchVisit (buf : Memory) (name : Name) (_ : Unit) (off : Nat) (d : DirentHdr)
    : Option (Turn Unit (Option (Nat × DirentHdr))) :=
  (format.look buf name off d).map fun seen =>
    match seen with
    | .malformed => .stop none
    | .named => .stop (some (off, d))
    | .deleted => .next ()
    | .other => .next ()

/-- The loop of the three functions over the records of a block: the record of the name, and
nothing where the loop breaks on padding or on a record it cannot trust.
-/
def search (buf : Memory) (name : Name) : Option (Option (Nat × DirentHdr)) :=
  (walk (format.direntAt buf) DirentHdr.recLen (format.searchVisit buf name)
    (format.blockSize + 1) 0 ()).map fun ended =>
      match ended with
      | .unused _ => none
      | .broken _ => none
      | .stopped found => found

/-- `ext2_dirent_find` in one block. -/
def direntFind (buf : Memory) (name : Name) : Option (Option Nat) :=
  (format.search buf name).map fun found => found.map fun (_, d) => d.inode

/-- The removal step: the record becomes a hole, which takes up a hole behind it. -/
def removeAt (buf : Memory) (off : Nat) (d : DirentHdr) : Option Memory :=
  let next := off + d.recLen
  let absorbed : Option (Nat × Memory) :=
    match format.direntAt buf next with
    | none => none
    | some (.record nx) =>
        if nx.inode = 0 then
          (format.clear buf next nx.recLen).map (d.recLen + nx.recLen, ·)
        else some (d.recLen, buf)
    | some _ => some (d.recLen, buf)
  match absorbed with
  | none => none
  | some (total, buf) =>
      match format.poke buf off (DirentHdr.mk 0 total 0 0).bytes with
      | none => none
      | some buf => format.clear buf (off + HDR_LEN) (total - HDR_LEN)

/-- `ext2_dirent_remove` in one block: the block to write back, where the name is in it. -/
def direntRemove (buf : Memory) (name : Name) : Option (Option Memory) :=
  match format.search buf name with
  | none => none
  | some none => some none
  | some (some (off, d)) => (format.removeAt buf off d).map some

/-- `ext2_dirent_set_parent` in one block: the block to write back, where `..` is in it. -/
def direntSetParent (buf : Memory) (parentInum : Nat) : Option (Option Memory) :=
  match format.search buf dotDot with
  | none => none
  | some none => some none
  | some (some (off, d)) =>
      (format.poke buf off { d with inode := parentInum }.bytes).map some

end Format

end Panuti.Ext2
