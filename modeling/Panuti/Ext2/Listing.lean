import Panuti.Ext2.DirentBounds

/-! Listing and lookup in an ext2 directory of any number of blocks: `ext2_readdir`, with the
block it holds from call to call, and `ext2_dirent_find`. The device serves every read. A loop
that does not end within its turns, or an access outside of a block, is `none`.
-/

namespace Panuti.Ext2

open ByteMemory RecordChain

def EXT2_NDIR_BLOCKS : Nat := 12
def EXT2_IND_BLOCK : Nat := 12
def EXT2_DIND_BLOCK : Nat := 13
def EXT2_TIND_BLOCK : Nat := 14
def EXT2_S_IFMT : Nat := 0xF000
def EXT2_S_IFDIR : Nat := 0x4000
def EXT2_S_IFREG : Nat := 0x8000
def DIRENT_NAME_MAX : Nat := 256

/-- The fields of `ext2_inode_hdr_t` that a listing or a lookup reads. -/
structure InodeHdr where
  mode : Nat
  size : Nat
  atime : Nat
  ctime : Nat
  mtime : Nat
  dtime : Nat
  block : Nat → Nat
  sizeHigh : Nat
  size_lt : size < 2 ^ 32

/-- The values of `inode_type_t` that ext2 uses. -/
inductive InodeType where
  | dir
  | file
deriving Repr, DecidableEq

/-- `dirent_entry_t`, in the buffer `syshandler_readdir` has cleared: `name` is what is written
to the array, its zero included.
-/
structure DirentOut where
  name : List UInt8
  type : InodeType
  size : Nat
  atime : Nat
  mtime : Nat
  ctime : Nat
deriving Repr, DecidableEq

/-- The name as the caller reads it, up to the first zero. -/
def DirentOut.shown (out : DirentOut) : Name := out.name.takeWhile (· ≠ 0)

/-- The part of a mounted volume that a listing or a lookup reads: the blocks, and the inodes as
`ext2_read_inode` finds them on the device.
-/
structure Image where
  format : Format
  blocksCount : Nat
  inodesCount : Nat
  largeFiles : Bool
  readOnly : Bool
  disk : Nat → Memory
  inode : Nat → InodeHdr

/-- The part of `ext2_t` that a listing changes, and the access times it changes on the device.
`cachedDirBlock` is biased by one, so that 0 is no block.
-/
structure Held where
  dirBuf : Memory
  cachedDirInode : Nat
  cachedDirBlock : Nat
  cachedDirSize : Nat
  cachedDirBlocks : Nat → Nat
  atime : Nat → Nat

/-- What `ext2_readdir` returns: -1, 1 and 0. -/
inductive Readdir where
  | error
  | done
  | entry (out : DirentOut)
deriving Repr, DecidableEq

/-- The type and the header of an inode that is live, where it is a file or a directory. -/
def liveChild (child : InodeHdr) : Option (InodeType × InodeHdr) :=
  if child.dtime ≠ 0 then none
  else
    let fmt := child.mode &&& EXT2_S_IFMT
    if fmt ≠ EXT2_S_IFDIR ∧ fmt ≠ EXT2_S_IFREG then none
    else some (if fmt = EXT2_S_IFDIR then .dir else .file, child)

/-- `ext2_block_slot`: the root of the index and the entries to follow from it. -/
def blockSlot (index apb : Nat) : Option (Nat × List Nat) :=
  if index < EXT2_NDIR_BLOCKS then none
  else
    let index := index - EXT2_NDIR_BLOCKS
    if index < apb then some (EXT2_IND_BLOCK, [index])
    else
      let index := index - apb
      let dindSpan := apb * apb
      if index < dindSpan then some (EXT2_DIND_BLOCK, [index / apb, index % apb])
      else
        let index := index - dindSpan
        some (EXT2_TIND_BLOCK, [index / dindSpan, index / apb % apb, index % apb])

namespace Image

variable (image : Image)

-- Blocks and inodes

/-- `ext2_read_block`. -/
def readBlock (block : Nat) : Option Memory :=
  let offset := block * image.format.blockSize
  if 2 ^ 64 - 1 - image.format.blockSize < offset then none
  else if image.blocksCount ≤ block then none
  else some (image.disk block)

/-- `ext2_indirect_entry`, whose block of addresses is read where it is not held already. -/
def indirectEntry (block index : Nat) : Option Nat :=
  if block = 0 ∨ image.format.blockSize / 4 ≤ index then none
  else if image.blocksCount ≤ block then none
  else
    (image.readBlock block).bind fun buf =>
      let value := buf.word (index * 4)
      if value = 0 ∨ image.blocksCount ≤ value then none else some value

/-- `ext2_map_block`. -/
def mapBlock (iBlock : Nat → Nat) (index : Nat) : Option Nat :=
  if index < EXT2_NDIR_BLOCKS then
    if iBlock index = 0 ∨ image.blocksCount ≤ iBlock index then none else some (iBlock index)
  else
    match blockSlot index (image.format.blockSize / 4) with
    | none => none
    | some (root, slots) => slots.foldlM image.indirectEntry (iBlock root)

/-- `ext2_inode_size`. -/
def inodeSize (hdr : InodeHdr) : Nat :=
  if image.largeFiles ∧ hdr.sizeHigh ≠ 0 then hdr.sizeHigh <<< 32 ||| hdr.size else hdr.size

/-- `ext2_inode_length`. -/
def inodeLength (hdr : InodeHdr) : Option Nat :=
  let len := image.inodeSize hdr
  if image.blocksCount * image.format.blockSize < len then none else some len

/-- `ext2_read_inode`. -/
def readInode (held : Held) (inum : Nat) : Option InodeHdr :=
  if inum = 0 ∨ image.inodesCount < inum then none
  else some { image.inode inum with atime := held.atime inum }

/-- `ext2_touch_atime`. -/
def touchAtime (now inum : Nat) (hdr : InodeHdr) (held : Held) : Held :=
  if image.readOnly then held
  else if hdr.atime = now then held
  else { held with atime := Function.update held.atime inum now }

-- ext2_readdir

/-- Note which directory is walked; nothing where its length is not one. -/
def openDir (inum : Nat) (hdr : InodeHdr) (held : Held) : Option Held :=
  if held.cachedDirInode ≠ inum then
    (image.inodeLength hdr).map fun len =>
      { held with
        cachedDirInode := inum, cachedDirSize := len, cachedDirBlocks := hdr.block,
        cachedDirBlock := 0 }
  else some held

/-- Bring a block of the directory into the buffer, where it is not there already. -/
def loadBlock (blockIndex : Nat) (held : Held) : Option Held :=
  if held.cachedDirBlock ≠ blockIndex + 1 then
    ((image.mapBlock held.cachedDirBlocks blockIndex).bind image.readBlock).map fun buf =>
      { held with dirBuf := buf, cachedDirBlock := blockIndex + 1 }
  else some held

/-- Fill in the entry for the record `d` at `inBlock`. -/
def fillEntry (buf : Memory) (inBlock : Nat) (d : DirentHdr) (type : InodeType)
    (child : InodeHdr) : Option DirentOut :=
  let nameMax := DIRENT_NAME_MAX - 1
  let n := if nameMax < d.nameLen then nameMax else d.nameLen
  if inBlock + HDR_LEN + n ≤ image.format.blockSize then
    some {
      name := buf.bytes (inBlock + HDR_LEN) n ++ [0]
      type := type
      size := ((image.inodeLength child).map (· % 2 ^ 32)).getD 0
      atime := child.atime * 100
      mtime := child.mtime * 100
      ctime := child.ctime * 100 }
  else none

/-- One turn of the loop in `ext2_readdir`: the entry it returns, if it returns one, and the
cursor, a `size_t` of 32 bits.
-/
def readdirTurn (off : Nat) (held : Held) : Option (Option DirentOut × Nat × Held) :=
  let blockIndex := off / image.format.blockSize
  let inBlock := off % image.format.blockSize
  let behind := (blockIndex + 1) * image.format.blockSize % 2 ^ 32
  match image.loadBlock blockIndex held with
  | none => some (none, behind, { held with cachedDirBlock := 0 })
  | some held =>
      match image.format.direntAt held.dirBuf inBlock with
      | none => none
      | some (.record d) =>
          let next := (off + d.recLen) % 2 ^ 32
          if d.inode = 0 ∨ d.nameLen = 0 ∨ d.recLen - HDR_LEN < d.nameLen then
            some (none, next, held)
          else
            match (image.readInode held d.inode).bind liveChild with
            | none => some (none, next, held)
            | some (type, child) =>
                (image.fillEntry held.dirBuf inBlock d type child).map
                  fun out => (some out, next, held)
      | some _ => some (none, behind, { held with cachedDirBlock := 0 })

/-- The loop in `ext2_readdir`. -/
def readdirLoop (dsize : Nat) : (turns cursor : Nat) → Held → Option (Readdir × Nat × Held)
  | 0, _, _ => none
  | turns + 1, cursor, held =>
      if cursor < dsize then
        match image.readdirTurn cursor held with
        | none => none
        | some (some out, cursor, held) => some (.entry out, cursor, held)
        | some (none, cursor, held) => readdirLoop dsize turns cursor held
      else some (.done, dsize % 2 ^ 32, held)

/-- `ext2_readdir`. -/
def readdir (turns now inum cursor : Nat) (held : Held) : Option (Readdir × Nat × Held) :=
  match image.readInode held inum with
  | none => some (.error, cursor, held)
  | some hdr =>
      if hdr.mode &&& EXT2_S_IFMT ≠ EXT2_S_IFDIR then some (.error, cursor, held)
      else
        let held := image.touchAtime now inum hdr held
        match image.openDir inum hdr held with
        | none => some (.error, cursor, held)
        | some held =>
            if held.cachedDirSize = 0 then some (.done, cursor, held)
            else image.readdirLoop held.cachedDirSize turns cursor held

/-- A complete walk: calls of `ext2_readdir` until it returns 1. Call `n` finds the time
`clock n`, and behind it `others n` is what other calls do to what is held.
-/
def listing (clock : Nat → Nat) (others : Nat → Held → Held) (turns inum : Nat)
    : (calls n cursor : Nat) → Held → Option (List DirentOut)
  | 0, _, _, _ => none
  | calls + 1, n, cursor, held =>
      match image.readdir turns (clock n) inum cursor held with
      | some (.entry out, cursor, held) =>
          (listing clock others turns inum calls (n + 1) cursor (others n held)).map (out :: ·)
      | some (.done, _, _) => some []
      | some (.error, _, _) => none
      | none => none

-- ext2_dirent_find

/-- A block of the directory, where it can be mapped and read. -/
def dirBlock (hdr : InodeHdr) (index : Nat) : Option Memory :=
  (image.mapBlock hdr.block index).bind image.readBlock

/-- The loop in `ext2_dirent_find` over `count` blocks from `index` on. -/
def findBlocks (hdr : InodeHdr) (name : Name) : (count index : Nat) → Option (Option Nat)
  | 0, _ => some none
  | count + 1, index =>
      match image.dirBlock hdr index with
      | none => findBlocks hdr name count (index + 1)
      | some buf =>
          match image.format.direntFind buf name with
          | none => none
          | some (some inum) => some (some inum)
          | some none => findBlocks hdr name count (index + 1)

/-- The blocks `ext2_dirent_find` goes through, counted in 32 bits. -/
def searchedBlocks (hdr : InodeHdr) : Nat :=
  (hdr.size + image.format.blockSize - 1) % 2 ^ 32 / image.format.blockSize

/-- `ext2_dirent_find`: the inode of the first record of the name, where it is found. -/
def direntFind (hdr : InodeHdr) (name : Name) : Option (Option Nat) :=
  if hdr.mode &&& EXT2_S_IFMT ≠ EXT2_S_IFDIR then some none
  else if direntNameOk name = false then some none
  else if image.blocksCount * image.format.blockSize < hdr.size then some none
  else image.findBlocks hdr name (image.searchedBlocks hdr) 0

end Image

end Panuti.Ext2
