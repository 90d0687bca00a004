import Panuti.Library.Bitmap
import Panuti.Ext2.Dirents

/-! A mounted ext2 volume: what `ext2_mount` reads and checks once, the device below it with the
outcomes of the accesses to come, and the part of `ext2_t` that the block and inode allocators
change.
-/

namespace Panuti.Ext2

open ByteMemory

/-- `div_ceil_u32`. -/
def divCeil (x y : Nat) : Nat := (x + y - 1) / y

/-- The superblock and the group descriptors, as far as they stay as they were read. The proofs
are the checks of `ext2_mount` and `ext2_validate_gdt`.
-/
structure Volume extends Format where
  blocksCount : Nat
  inodesCount : Nat
  firstDataBlock : Nat
  blocksPerGroup : Nat
  inodesPerGroup : Nat
  groupCount : Nat
  inodeSize : Nat
  firstInode : Nat
  blockBitmap : Nat → Nat
  inodeBitmap : Nat → Nat
  inodeTable : Nat → Nat
  blocksCount_lt : blocksCount < 2 ^ 32
  inodesCount_lt : inodesCount < 2 ^ 32
  blocksPerGroup_pos : 0 < blocksPerGroup
  inodesPerGroup_pos : 0 < inodesPerGroup
  blocksPerGroup_le : blocksPerGroup ≤ 8 * blockSize
  inodesPerGroup_le : inodesPerGroup ≤ 8 * blockSize
  groups : groupCount = divCeil (blocksCount - firstDataBlock) blocksPerGroup
  groupCount_pos : 0 < groupCount
  inodes : inodesCount ≤ groupCount * inodesPerGroup
  reserved : 11 ≤ firstInode
  bitmaps_lt : ∀ group < groupCount,
    blockBitmap group < blocksCount ∧ inodeBitmap group < blocksCount

-- The device

/-- What an access to the device comes to: where it fails, it may have moved any bytes. -/
inductive Access where
  | done
  | failed (bytes : Memory)

/-- The blocks of the device, and what the accesses and the calls of `kmalloc` to come will
come to; those not listed succeed.
-/
structure Device where
  disk : Nat → Memory
  accesses : List Access
  kmallocs : List Bool

def Device.access (device : Device) : Access × Device :=
  match device.accesses with
  | [] => (.done, device)
  | first :: rest => (first, { device with accesses := rest })

def Device.kmalloc (device : Device) : Bool × Device :=
  match device.kmallocs with
  | [] => (true, device)
  | first :: rest => (first, { device with kmallocs := rest })

/-- `ext2_read_block` into `buf`. -/
def Volume.readBlock (volume : Volume) (device : Device) (block : Nat) (buf : Memory)
    : Bool × Memory × Device :=
  if volume.blocksCount ≤ block then (false, buf, device)
  else
    match device.access with
    | (.done, device) => (true, device.disk block, device)
    | (.failed bytes, device) => (false, bytes, device)

/-- `ext2_write_block`. -/
def Volume.writeBlock (volume : Volume) (device : Device) (block : Nat) (buf : Memory)
    : Bool × Device :=
  if volume.blocksCount ≤ block then (false, device)
  else
    match device.access with
    | (.done, device) => (true, { device with disk := Function.update device.disk block buf })
    | (.failed bytes, device) =>
        (false, { device with disk := Function.update device.disk block bytes })

/-- `ext2_zero_block`. -/
def Volume.zeroBlock (volume : Volume) (device : Device) (block : Nat) : Bool × Device :=
  match device.kmalloc with
  | (false, device) => (false, device)
  | (true, device) => volume.writeBlock device block (fun _ => 0)

-- The bitmap caches

/-- `ext2_bitmap_cache_t`; `cached` is the number of the block held, plus one. -/
structure BitmapCache where
  buf : Memory
  cached : Nat
  dirty : Bool

/-- `ext2_bitmap_sync`. -/
def Volume.bitmapSync (volume : Volume) (device : Device) (bc : BitmapCache)
    : Bool × Device × BitmapCache :=
  if !bc.dirty then (true, device, bc)
  else if bc.cached = 0 then (false, device, bc)
  else
    match volume.writeBlock device (bc.cached - 1) bc.buf with
    | (true, device) => (true, device, { bc with dirty := false })
    | (false, device) => (false, device, bc)

/-- `ext2_bitmap_get`. -/
def Volume.bitmapGet (volume : Volume) (device : Device) (bc : BitmapCache)
    (bitmapBlock : Nat) : Bool × Device × BitmapCache :=
  if bitmapBlock = 0 ∨ volume.blocksCount ≤ bitmapBlock then (false, device, bc)
  else if bc.cached = bitmapBlock + 1 then (true, device, bc)
  else
    match volume.bitmapSync device bc with
    | (false, device, bc) => (false, device, bc)
    | (true, device, bc) =>
        match volume.readBlock device bitmapBlock bc.buf with
        | (false, buf, device) => (false, device, { bc with buf := buf, cached := 0 })
        | (true, buf, device) => (true, device, ⟨buf, bitmapBlock + 1, false⟩)

-- The fields the allocators change

/-- The part of `ext2_t` that changes. `queued` lists the blocks `ext2_free_block` has ever
queued, and `released` those whose bit a flush has cleared; nothing reads these two.
-/
structure Fs where
  device : Device
  blockBitmap : BitmapCache
  inodeBitmap : BitmapCache
  freeBlocksCount : Nat
  freeInodesCount : Nat
  groupFreeBlocks : Nat → Nat
  groupFreeInodes : Nat → Nat
  superblockDirty : Bool
  gdtDirty : Bool
  blockAllocHint : Nat
  inodeAllocHint : Nat
  pendingFree : List Nat
  pendingFreeCap : Nat
  queued : List Nat
  released : List Nat

end Panuti.Ext2
