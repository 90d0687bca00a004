import Panuti.Block.Utils

/-! Handles on block devices: `block.c`. What the handle is for, an array of bytes with a
position, stands beside it. There is no result where an access passes the end of the buffer.
-/

namespace Panuti.Block

open ByteMemory Panuti.Library

def SEEK_SET : Int := 0
def SEEK_CUR : Int := 1
def SEEK_END : Int := 2

def INT64_MAX : Int := 2 ^ 63 - 1

/-- `PANUTIERRNO_INVALIDARG` as an `int`. -/
def PANUTIERRNO_INVALIDARG : Int := -2147483637

/-- `(int)len`. -/
def asInt (len : Nat) : Int := if len < 2 ^ 31 then len else (len : Int) - 2 ^ 32

/-- `block_handle_t`: the driver of the device, and a position of 32 bits. -/
structure Handle (Impl : Type) where
  impl : Impl
  offset : Nat
  offset_lt : offset < 2 ^ 32

section

variable {Impl : Type} (dev : Device Impl) (kmalloc : (size align : Nat) → Bool)

/-- `num_blocks`: the sum of the position and the length has 32 bits, and so has the number. -/
def numBlocks (offset len : Nat) : Nat :=
  ((offset + len - 1) % 2 ^ 32 / dev.blockSize + 2 ^ 64 - offset / dev.blockSize + 1) % 2 ^ 32

/-- The position `count` further on, in 32 bits. -/
def Handle.advance (bh : Handle Impl) (impl : Impl) (count : Nat) : Handle Impl where
  impl := impl
  offset := (bh.offset + count) % 2 ^ 32
  offset_lt := Nat.mod_lt _ (Nat.two_pow_pos 32)

/-- `block_read_op`: what it returns, the buffer, and the handle. -/
def blockReadOp (bh : Handle Impl) (len : Nat) (buf : List UInt8)
    : Option (Int × List UInt8 × Handle Impl) :=
  if len = 0 then some (0, buf, bh)
  else
    let size := numBlocks dev bh.offset len * dev.blockSize % 2 ^ 32
    if kmalloc size 1 then do
      let (rc, tmp, impl) ←
        dev.readInto bh.impl (bh.offset / dev.blockSize) (numBlocks dev bh.offset len)
          (List.replicate size 0)
      if rc ≠ .ok then some (0, buf, { bh with impl := impl })
      else
        let bytes ← readAt tmp (bh.offset % dev.blockSize : Nat) len
        let buf ← writeAt buf 0 bytes
        some (asInt len, buf, bh.advance impl len)
    else some (0, buf, bh)

/-- The rest of `block_write_op` once `tmp` holds what the blocks hold, where that is needed. -/
def patchBlocks (write : Impl → (block count : Nat) → List UInt8 → BlockErr × Impl)
    (bh : Handle Impl) (impl : Impl) (len : Nat) (buf tmp : List UInt8)
    : Option (Int × Handle Impl) := do
  let bytes ← readAt buf 0 len
  let tmp ← writeAt tmp (bh.offset % dev.blockSize : Nat) bytes
  let (rc, impl) ←
    dev.writeFrom write impl (bh.offset / dev.blockSize) (numBlocks dev bh.offset len) tmp
  if rc ≠ .ok then some (0, { bh with impl := impl })
  else some (asInt len, bh.advance impl len)

def blockWriteOp (bh : Handle Impl) (len : Nat) (buf : List UInt8)
    : Option (Int × Handle Impl) :=
  if len = 0 then some (0, bh)
  else
    match dev.write with
    | none => some (BlockErr.inval.code, bh)
    | some write =>
        if dev.blockCount < bh.offset / dev.blockSize + numBlocks dev bh.offset len then
          some (BlockErr.inval.code, bh)
        else
          let size := numBlocks dev bh.offset len * dev.blockSize % 2 ^ 32
          if kmalloc size 1 then
            if bh.offset % dev.blockSize ≠ 0 ∨ len < size then do
              let (rc, tmp, impl) ←
                dev.readInto bh.impl (bh.offset / dev.blockSize) (numBlocks dev bh.offset len)
                  (List.replicate size 0)
              if rc ≠ .ok then some (0, { bh with impl := impl })
              else patchBlocks dev write bh impl len buf tmp
            else patchBlocks dev write bh bh.impl len buf (List.replicate size 0)
          else some (0, bh)

/-- `dev_size`, in 64 bits. -/
def devSize : Nat := dev.blockCount * dev.blockSize % 2 ^ 64

/-- The position that `block_seek_op` comes to from `base`, before it is put into 32 bits. -/
def seekTo (base offset : Int) : Nat :=
  let pos := if 0 < offset ∧ INT64_MAX - offset < base then INT64_MAX else base + offset
  let pos := if pos < 0 then 0 else pos
  if devSize dev < pos.toNat then devSize dev else pos.toNat

/-- `block_seek_op`, with an `int64_t` to move by. -/
def blockSeekOp (bh : Handle Impl) (whence offset : Int) : Int × Handle Impl :=
  let moved (base : Int) : Handle Impl :=
    { bh with
      offset := seekTo dev base offset % 2 ^ 32
      offset_lt := Nat.mod_lt _ (Nat.two_pow_pos 32) }
  if whence = SEEK_SET then (0, moved 0)
  else if whence = SEEK_CUR then (0, moved bh.offset)
  else if whence = SEEK_END then
    (0, moved (if INT64_MAX < devSize dev then INT64_MAX else devSize dev))
  else (PANUTIERRNO_INVALIDARG, bh)

end

-- Calls on a handle

/-- A call on a handle. A read and a write bring their buffer, and the length is its length. -/
inductive Request where
  | seek (whence offset : Int)
  | read (buf : List UInt8)
  | write (buf : List UInt8)

/-- A call can be made: its offset has 64 bits and its length 32. -/
def Request.WellFormed : Request → Prop
  | .seek _ offset => -2 ^ 63 ≤ offset ∧ offset < 2 ^ 63
  | .read buf | .write buf => buf.length < 2 ^ 32

/-- The answer to a call: what it returns, and the buffer it leaves. -/
structure Answer where
  returns : Int
  buf : List UInt8

section

variable {Impl : Type} (dev : Device Impl)

def call (kmalloc : (size align : Nat) → Bool) (bh : Handle Impl)
    : Request → Option (Answer × Handle Impl)
  | .seek whence offset =>
      let (returns, bh) := blockSeekOp dev bh whence offset
      some (⟨returns, []⟩, bh)
  | .read buf => do
      let (returns, buf, bh) ← blockReadOp dev kmalloc bh buf.length buf
      some (⟨returns, buf⟩, bh)
  | .write buf => do
      let (returns, bh) ← blockWriteOp dev kmalloc bh buf.length buf
      some (⟨returns, buf⟩, bh)

/-- Calls one after the other; the memory of the kernel may change between them. -/
def calls (bh : Handle Impl) : List (((size align : Nat) → Bool) × Request)
    → Option (List Answer × Handle Impl)
  | [] => some ([], bh)
  | (kmalloc, request) :: rest => do
      let (answer, bh) ← call dev kmalloc bh request
      let (answers, bh) ← calls bh rest
      some (answer :: answers, bh)

end

-- An array of bytes with a position

/-- What a handle stands for: the bytes of the device, and a position among them. -/
structure File where
  bytes : Memory
  pos : Nat

/-- Where a seek leads: to the offset from its base, limited to the bytes there are. -/
def seekTarget (size : Nat) (base offset : Int) : Nat :=
  min (base + offset).toNat size

/-- The base of a seek, where `whence` names one. -/
def seekBase (size pos : Nat) (whence : Int) : Option Int :=
  if whence = SEEK_SET then some 0
  else if whence = SEEK_CUR then some pos
  else if whence = SEEK_END then some size
  else none

/-- What an array of `size` bytes with a position does on a call. -/
def Behaves (size : Nat) (file : File) : Request → Answer → File → Prop
  | .seek whence offset, answer, after =>
      match seekBase size file.pos whence with
      | some base =>
          answer.returns = 0 ∧ after = { file with pos := seekTarget size base offset }
      | none => answer.returns = PANUTIERRNO_INVALIDARG ∧ after = file
  | .read buf, answer, after =>
      (answer.returns = buf.length ∧ answer.buf = file.bytes.bytes file.pos buf.length
        ∧ after = { file with pos := file.pos + buf.length })
      ∨ (answer.returns ≤ 0 ∧ answer.buf = buf ∧ after = file)
  | .write buf, answer, after =>
      (answer.returns = buf.length
        ∧ after = ⟨file.bytes.store file.pos buf, file.pos + buf.length⟩)
      ∨ (answer.returns ≤ 0 ∧ after = file)

/-- What the array does on calls one after the other. -/
inductive BehavesAll (size : Nat) : File → List Request → List Answer → File → Prop where
  | nil (file) : BehavesAll size file [] [] file
  | cons {file request answer middle requests answers after} :
      Behaves size file request answer middle
      → BehavesAll size middle requests answers after
      → BehavesAll size file (request :: requests) (answer :: answers) after

end Panuti.Block
