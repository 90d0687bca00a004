import Panuti.Block.Device
import Panuti.Memory.Slab

/-! Reads and writes of bytes at any offset of a block device: `utils.c`. There is no result where
an access passes the end of the scratch buffer.
-/

namespace Panuti.Block

open ByteMemory Panuti.Library KernelHeap

/-- What `kmalloc_inner` hands out as long as there are pages. -/
def kmallocServes (size align : Nat) : Bool :=
  size ≠ 0
    && (if 2048 < size then align ≤ PAGE_SIZE && size + PAGE_SIZE - 1 ≤ 65535 * PAGE_SIZE
      else (KernelHeap.cacheFor size align).isSome)

section

variable {Impl : Type} (dev : Device Impl) (kmalloc : (size align : Nat) → Bool)

def startblk (offset : Nat) : Nat := offset / dev.blockSize

/-- `endblk`, in 64 bits. -/
def endblk (offset len : Nat) : Nat := (offset + len - 1) % 2 ^ 64 / dev.blockSize

/-- `blkc`, in 32 bits. -/
def blkc (offset len : Nat) : Nat :=
  (endblk dev offset len + 2 ^ 64 - startblk dev offset + 1) % 2 ^ 32

/-- `(size_t)blkc * blks`, in 32 bits. -/
def scratchLen (offset len : Nat) : Nat := blkc dev offset len * dev.blockSize % 2 ^ 32

/-- The part of `block_read_bytes` for ranges that are not made of whole blocks. The memory
`kmalloc` gives is clear.
-/
def readThrough (impl : Impl) (offset len : Nat) (buf : List UInt8)
    : Option (BlockErr × List UInt8 × Impl) :=
  if kmalloc (scratchLen dev offset len) dev.blockSize then do
    let scratch := List.replicate (scratchLen dev offset len) 0
    let (rc, scratch, impl) ←
      dev.readInto impl (startblk dev offset) (blkc dev offset len) scratch
    if rc = .ok then
      let skip := offset - startblk dev offset * dev.blockSize
      let bytes ← readAt scratch skip len
      let buf ← writeAt buf 0 bytes
      some (rc, buf, impl)
    else some (rc, buf, impl)
  else some (.io, buf, impl)

def blockReadBytes (impl : Impl) (offset len : Nat) (buf : List UInt8)
    : Option (BlockErr × List UInt8 × Impl) :=
  if len = 0 then some (.ok, buf, impl)
  else if dev.blockCount ≤ endblk dev offset len then some (.inval, buf, impl)
  else if offset % dev.blockSize = 0 ∧ len % dev.blockSize = 0 then
    dev.readInto impl (startblk dev offset) (len / dev.blockSize) buf
  else readThrough dev kmalloc impl offset len buf

/-- The part of `block_write_bytes` for ranges that are not made of whole blocks: the blocks are
read, patched and written whole.
-/
def writeThrough (write : Impl → (block count : Nat) → List UInt8 → BlockErr × Impl)
    (impl : Impl) (offset len : Nat) (buf : List UInt8) : Option (BlockErr × Impl) :=
  if kmalloc (scratchLen dev offset len) dev.blockSize then do
    let scratch := List.replicate (scratchLen dev offset len) 0
    let (rc, scratch, impl) ←
      dev.readInto impl (startblk dev offset) (blkc dev offset len) scratch
    if rc = .ok then
      let skip := offset - startblk dev offset * dev.blockSize
      let bytes ← readAt buf 0 len
      let scratch ← writeAt scratch skip bytes
      dev.writeFrom write impl (startblk dev offset) (blkc dev offset len) scratch
    else some (rc, impl)
  else some (.io, impl)

def blockWriteBytes (impl : Impl) (offset len : Nat) (buf : List UInt8)
    : Option (BlockErr × Impl) :=
  if len = 0 then some (.ok, impl)
  else
    match dev.write with
    | none => some (.inval, impl)
    | some write =>
        if dev.blockCount ≤ endblk dev offset len then some (.inval, impl)
        else if offset % dev.blockSize = 0 ∧ len % dev.blockSize = 0 then
          dev.writeFrom write impl (startblk dev offset) (len / dev.blockSize) buf
        else writeThrough dev kmalloc write impl offset len buf

-- What a flat array of bytes would do

/-- Some byte of the range is past the end of the device. -/
def OffDevice (offset len : Nat) : Prop :=
  ∃ location, offset ≤ location ∧ location < offset + len ∧ dev.size ≤ location

/-- The read stays inside its buffers, gives the bytes of the range, and rejects a range that is
not wholly on the device.
-/
def ReadsFlat (impl : Impl) (offset len : Nat) (buf : List UInt8) : Prop :=
  ∃ rc out impl', blockReadBytes dev kmalloc impl offset len buf = some (rc, out, impl')
    ∧ (rc = .ok → out = (dev.contents impl).bytes offset len
        ∧ dev.contents impl' = dev.contents impl)
    ∧ (OffDevice dev offset len → rc ≠ .ok ∧ impl' = impl)

/-- The write stays inside its buffers, changes the bytes of the range to those of the buffer and
no others, and rejects a range that is not wholly on the device.
-/
def WritesFlat (impl : Impl) (offset len : Nat) (buf : List UInt8) : Prop :=
  ∃ rc impl', blockWriteBytes dev kmalloc impl offset len buf = some (rc, impl')
    ∧ (rc = .ok → ∀ location, dev.contents impl' location
        = if offset ≤ location ∧ location < offset + len then buf.getD (location - offset) 0
          else dev.contents impl location)
    ∧ (OffDevice dev offset len → rc ≠ .ok ∧ impl' = impl)

/-- On whole blocks the two ways to read, and the two ways to write, come to the same where both
succeed.
-/
def PathsAgree (impl : Impl) (offset len : Nat) (buf : List UInt8) : Prop :=
  offset % dev.blockSize = 0 → len % dev.blockSize = 0 → 0 < len →
    (∀ out slow after after',
      dev.readInto impl (startblk dev offset) (len / dev.blockSize) buf
          = some (.ok, out, after)
        → readThrough dev kmalloc impl offset len buf = some (.ok, slow, after')
        → out = slow)
    ∧ (∀ write after after', dev.write = some write
        → dev.writeFrom write impl (startblk dev offset) (len / dev.blockSize) buf
            = some (.ok, after)
        → writeThrough dev kmalloc write impl offset len buf = some (.ok, after')
        → dev.contents after = dev.contents after')

/-- The range needs no scratch buffer, the blocks it touches come to less than 4 GiB, or there is
no memory for the scratch buffer.
-/
def ScratchFits (offset len : Nat) : Prop :=
  len = 0 ∨ OffDevice dev offset len ∨ (offset % dev.blockSize = 0 ∧ len % dev.blockSize = 0)
    ∨ dev.span offset len * dev.blockSize < 2 ^ 32
    ∨ kmalloc (dev.span offset len * dev.blockSize % 2 ^ 32) dev.blockSize = false

end

end Panuti.Block
