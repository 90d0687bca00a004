import Panuti.Ext2.Volume

/-! The allocators of blocks and inodes: the search for a clear bit group by group, the undo of
an allocation that fails midway, and frees that wait in a queue until they are flushed.
-/

namespace Panuti.Ext2

open ByteMemory Bitmap

namespace Volume

variable (volume : Volume)

-- Blocks

/-- `ext2_group_blocks`. -/
def groupBlocks (group : Nat) : Nat :=
  let start := group * volume.blocksPerGroup + volume.firstDataBlock
  if volume.blocksCount ≤ start then 0
  else min volume.blocksPerGroup (volume.blocksCount - start)

/-- `ext2_first_allocatable`. -/
def firstAllocatable : Nat :=
  volume.inodeTable 0 + divCeil (volume.inodeSize * volume.inodesPerGroup) volume.blockSize

/-- The block of the `i`-th bit of a group. -/
def blockAt (group i : Nat) : Nat :=
  group * volume.blocksPerGroup + volume.firstDataBlock + i

/-- The loop over the bits of a group in `ext2_alloc_block`: the first one to be taken. -/
def findBlock (group avail : Nat) (bm : Memory) : Option Nat :=
  (List.range (min avail (volume.blockSize * 8))).find? fun i =>
    !(group == 0 && decide (volume.blockAt group i < volume.firstAllocatable)) && !bit bm i

def restoreBlockByte (fs : Fs) (device : Device) (bc : BitmapCache) (i : Nat) (byte : UInt8)
    : Fs :=
  { fs with
    device := device
    blockBitmap := { bc with buf := Function.update bc.buf (i / 8) byte, dirty := true } }

/-- Take the block of a clear bit of the cached bitmap. -/
def takeBlock (fs : Fs) (group i : Nat) : Option Nat × Fs :=
  let block := volume.blockAt group i
  let byte := fs.blockBitmap.buf (i / 8)
  let bc := { fs.blockBitmap with buf := setBit fs.blockBitmap.buf i, dirty := true }
  match volume.bitmapSync fs.device bc with
  | (false, device, bc) => (none, restoreBlockByte fs device bc i byte)
  | (true, device, bc) =>
      match volume.zeroBlock device block with
      | (false, device) => (none, restoreBlockByte fs device bc i byte)
      | (true, device) =>
          (some block,
            { fs with
              device := device
              blockBitmap := bc
              freeBlocksCount := fs.freeBlocksCount - 1
              superblockDirty := true
              groupFreeBlocks :=
                Function.update fs.groupFreeBlocks group (fs.groupFreeBlocks group - 1)
              gdtDirty := true
              blockAllocHint := group })

/-- The loop over the groups in `ext2_alloc_block`, with `left` groups to go from the `n`-th on. -/
def allocBlockFrom : (left n : Nat) → Fs → Option Nat × Fs
  | 0, _, fs => (none, fs)
  | left + 1, n, fs =>
      let group := (fs.blockAllocHint + n) % volume.groupCount
      let avail := volume.groupBlocks group
      if avail = 0 then allocBlockFrom left (n + 1) fs
      else
        match volume.bitmapGet fs.device fs.blockBitmap (volume.blockBitmap group) with
        | (false, device, bc) => (none, { fs with device := device, blockBitmap := bc })
        | (true, device, bc) =>
            let fs := { fs with device := device, blockBitmap := bc }
            match volume.findBlock group avail bc.buf with
            | none => allocBlockFrom left (n + 1) fs
            | some i => volume.takeBlock fs group i

/-- `ext2_alloc_block`. -/
def allocBlock (fs : Fs) : Option Nat × Fs := volume.allocBlockFrom volume.groupCount 0 fs

/-- `ext2_block_freeable`: the group and the bit of a block that may be freed. -/
def blockFreeable (block : Nat) : Option (Nat × Nat) :=
  if block < volume.firstDataBlock then none
  else
    let rel := block - volume.firstDataBlock
    let group := rel / volume.blocksPerGroup
    let i := rel % volume.blocksPerGroup
    if volume.groupCount ≤ group ∨ volume.blockSize * 8 ≤ i ∨ volume.groupBlocks group ≤ i then
      none
    else if group = 0 ∧ block < volume.firstAllocatable then none
    else some (group, i)

/-- `ext2_free_block_now`. -/
def freeBlockNow (fs : Fs) (block : Nat) : Bool × Fs :=
  match volume.blockFreeable block with
  | none => (false, fs)
  | some (group, i) =>
      match volume.bitmapGet fs.device fs.blockBitmap (volume.blockBitmap group) with
      | (false, device, bc) => (false, { fs with device := device, blockBitmap := bc })
      | (true, device, bc) =>
          if !bit bc.buf i then (false, { fs with device := device, blockBitmap := bc })
          else
            let count := fs.groupFreeBlocks group
            (true,
              { fs with
                device := device
                blockBitmap := { bc with buf := clearBit bc.buf i, dirty := true }
                freeBlocksCount :=
                  if fs.freeBlocksCount < UINT32_MAX then fs.freeBlocksCount + 1
                  else fs.freeBlocksCount
                superblockDirty := true
                groupFreeBlocks :=
                  Function.update fs.groupFreeBlocks group
                    (if count < 65535 then count + 1 else count)
                gdtDirty := true
                released := fs.released ++ [block] })

/-- The end of `ext2_free_block`: the block is queued. -/
def queueBlock (fs : Fs) (block : Nat) : Fs :=
  { fs with pendingFree := fs.pendingFree ++ [block], queued := fs.queued ++ [block] }

/-- `ext2_free_block`. -/
def freeBlock (fs : Fs) (block : Nat) : Bool × Fs :=
  match volume.blockFreeable block with
  | none => (false, fs)
  | some _ =>
      if block ∈ fs.pendingFree then (false, fs)
      else if fs.pendingFree.length = fs.pendingFreeCap then
        let newCap := if fs.pendingFreeCap ≠ 0 then fs.pendingFreeCap * 2 % 2 ^ 32 else 64
        if newCap < fs.pendingFreeCap ∨ UINT32_MAX / 4 < newCap then (false, fs)
        else
          match fs.device.kmalloc with
          | (false, device) => (false, { fs with device := device })
          | (true, device) =>
              (true, queueBlock { fs with device := device, pendingFreeCap := newCap } block)
      else (true, queueBlock fs block)

/-- `ext2_pending_free_flush`. -/
def pendingFreeFlush (fs : Fs) : Bool × Fs :=
  if fs.pendingFree = [] then (true, fs)
  else
    let fs := fs.pendingFree.foldl (fun fs block => (volume.freeBlockNow fs block).2) fs
    match volume.bitmapSync fs.device fs.blockBitmap with
    | (ok, device, bc) =>
        (ok, { fs with pendingFree := [], device := device, blockBitmap := bc })

-- Inodes

/-- The number of the inode of the `i`-th bit of a group, in 32 bits. -/
def inumAt (group i : Nat) : Nat := (group * volume.inodesPerGroup + i + 1) % 2 ^ 32

/-- How many bits of a group `ext2_alloc_inode` looks at; `left` is taken in 64 bits, after the
count was taken plus one in 32.
-/
def inodeAvail (group : Nat) : Nat :=
  let firstInum := group * volume.inodesPerGroup + 1
  let left := ((volume.inodesCount + 1) % 2 ^ 32 + 2 ^ 64 - firstInum) % 2 ^ 64
  min (min volume.inodesPerGroup left) (volume.blockSize * 8)

/-- The loop over the bits of a group in `ext2_alloc_inode`: the first one to be taken. -/
def findInode (group : Nat) (bm : Memory) : Option Nat :=
  (List.range (volume.inodeAvail group)).find? fun i =>
    decide (volume.firstInode ≤ volume.inumAt group i) && !bit bm i

/-- Take the inode of a clear bit of the cached bitmap. -/
def takeInode (fs : Fs) (group i : Nat) : Option Nat × Fs :=
  let byte := fs.inodeBitmap.buf (i / 8)
  let bc := { fs.inodeBitmap with buf := setBit fs.inodeBitmap.buf i, dirty := true }
  match volume.bitmapSync fs.device bc with
  | (false, device, bc) =>
      (none,
        { fs with
          device := device
          inodeBitmap := { bc with buf := Function.update bc.buf (i / 8) byte, dirty := true } })
  | (true, device, bc) =>
      (some (volume.inumAt group i),
        { fs with
          device := device
          inodeBitmap := bc
          freeInodesCount := fs.freeInodesCount - 1
          superblockDirty := true
          groupFreeInodes :=
            Function.update fs.groupFreeInodes group (fs.groupFreeInodes group - 1)
          gdtDirty := true
          inodeAllocHint := group })

/-- The loop over the groups in `ext2_alloc_inode`, with `left` groups to go from the `n`-th on. -/
def allocInodeFrom : (left n : Nat) → Fs → Option Nat × Fs
  | 0, _, fs => (none, fs)
  | left + 1, n, fs =>
      let group := (fs.inodeAllocHint + n) % volume.groupCount
      match volume.bitmapGet fs.device fs.inodeBitmap (volume.inodeBitmap group) with
      | (false, device, bc) => (none, { fs with device := device, inodeBitmap := bc })
      | (true, device, bc) =>
          let fs := { fs with device := device, inodeBitmap := bc }
          if volume.inodesCount < group * volume.inodesPerGroup + 1 then
            allocInodeFrom left (n + 1) fs
          else
            match volume.findInode group bc.buf with
            | none => allocInodeFrom left (n + 1) fs
            | some i => volume.takeInode fs group i

/-- `ext2_alloc_inode`. -/
def allocInode (fs : Fs) : Option Nat × Fs := volume.allocInodeFrom volume.groupCount 0 fs

/-- `ext2_free_inode`. -/
def freeInode (fs : Fs) (inum : Nat) : Bool × Fs :=
  if inum < volume.firstInode ∨ volume.inodesCount < inum then (false, fs)
  else
    let group := (inum - 1) / volume.inodesPerGroup
    if volume.groupCount ≤ group then (false, fs)
    else
      let i := (inum - 1) % volume.inodesPerGroup
      if volume.blockSize * 8 ≤ i then (false, fs)
      else
        match volume.bitmapGet fs.device fs.inodeBitmap (volume.inodeBitmap group) with
        | (false, device, bc) => (false, { fs with device := device, inodeBitmap := bc })
        | (true, device, bc) =>
            if !bit bc.buf i then (false, { fs with device := device, inodeBitmap := bc })
            else
              (true,
                { fs with
                  device := device
                  inodeBitmap := { bc with buf := clearBit bc.buf i, dirty := true }
                  freeInodesCount := (fs.freeInodesCount + 1) % 2 ^ 32
                  superblockDirty := true
                  groupFreeInodes :=
                    Function.update fs.groupFreeInodes group
                      ((fs.groupFreeInodes group + 1) % 2 ^ 16)
                  gdtDirty := true })

-- Calls in any order

inductive Call where
  | allocBlock
  | freeBlock (block : Nat)
  | flush
  | allocInode
  | freeInode (inum : Nat)
deriving Repr, DecidableEq

/-- A call with what the accesses to the device and the calls of `kmalloc` come to in it. -/
structure Event where
  call : Call
  accesses : List Access
  kmallocs : List Bool

/-- What a call answers: a number, or whether it succeeded. -/
inductive Answer where
  | number (number : Option Nat)
  | status (ok : Bool)
deriving Repr, DecidableEq

/-- The device with the outcomes of the accesses of an event. -/
def armed (fs : Fs) (event : Event) : Fs :=
  { fs with
    device := { fs.device with accesses := event.accesses, kmallocs := event.kmallocs } }

def answer (fs : Fs) (event : Event) : Answer × Fs :=
  let fs := armed fs event
  match event.call with
  | .allocBlock => (.number (volume.allocBlock fs).1, (volume.allocBlock fs).2)
  | .freeBlock block => (.status (volume.freeBlock fs block).1, (volume.freeBlock fs block).2)
  | .flush => (.status (volume.pendingFreeFlush fs).1, (volume.pendingFreeFlush fs).2)
  | .allocInode => (.number (volume.allocInode fs).1, (volume.allocInode fs).2)
  | .freeInode inum => (.status (volume.freeInode fs inum).1, (volume.freeInode fs inum).2)

def step (fs : Fs) (event : Event) : Fs := (volume.answer fs event).2

end Volume

end Panuti.Ext2
