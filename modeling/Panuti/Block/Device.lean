import Panuti.Library.Blocks
import Panuti.Library.ByteMemory

/-! Block devices: `block_dev_t`, what its operations promise, and what it takes to hand one of
them a buffer.
-/

namespace Panuti.Block

open ByteMemory Panuti.Library

inductive BlockErr where
  | ok
  | inval
  | io
deriving Repr, DecidableEq

def BlockErr.code : BlockErr → Int
  | .ok => 0
  | .inval => -1
  | .io => -2

/-- `block_dev_t`: `read` gives the bytes it moved to its buffer, and a device without a `write`
cannot be written to. The bytes on the device belong to the state of its driver, `impl`, which
also decides which accesses fail; a driver that returns `BLOCK_OK` did what it was asked for, on
blocks that are there. That a block has a size is a check of `block_register`.
-/
structure Device (Impl : Type) where
  blockSize : Nat
  blockCount : Nat
  contents : Impl → Memory
  read : Impl → (block count : Nat) → BlockErr × List UInt8 × Impl
  write : Option (Impl → (block count : Nat) → List UInt8 → BlockErr × Impl)
  blockSize_pos : 0 < blockSize
  blockSize_lt : blockSize < 2 ^ 32
  blockCount_lt : blockCount < 2 ^ 64
  read_ok : ∀ {impl block count moved impl'}, block + count < 2 ^ 64
    → read impl block count = (.ok, moved, impl')
    → block + count ≤ blockCount
      ∧ moved = (contents impl).bytes (block * blockSize) (count * blockSize)
      ∧ contents impl' = contents impl
  write_ok : ∀ {op impl block count buf impl'}, write = some op → block + count < 2 ^ 64
    → buf.length = count * blockSize → op impl block count buf = (.ok, impl')
    → block + count ≤ blockCount
      ∧ contents impl' = (contents impl).store (block * blockSize) buf

section

variable {Impl : Type} (dev : Device Impl)

def Device.size : Nat := dev.blockCount * dev.blockSize

/-- Operations that fail leave the device as it was, and the buffer too. -/
structure Device.AllOrNothing : Prop where
  read_fails : ∀ {impl block count rc moved impl'}, dev.read impl block count = (rc, moved, impl')
    → rc ≠ .ok → moved = [] ∧ dev.contents impl' = dev.contents impl
  write_fails : ∀ {op impl block count buf rc impl'}, dev.write = some op
    → op impl block count buf = (rc, impl') → rc ≠ .ok
    → dev.contents impl' = dev.contents impl

/-- `dev->ops->read` into a buffer. A request for blocks that the device does not have is rejected
before the buffer is touched; for others the buffer must have room, or bytes after it are lost.
-/
def Device.readInto (impl : Impl) (block count : Nat) (buf : List UInt8)
    : Option (BlockErr × List UInt8 × Impl) :=
  let (rc, moved, impl) := dev.read impl block count
  if block + count ≤ dev.blockCount ∧ buf.length < count * dev.blockSize then none
  else some (rc, moved ++ buf.drop moved.length, impl)

/-- `dev->ops->write` from a buffer. -/
def Device.writeFrom (op : Impl → (block count : Nat) → List UInt8 → BlockErr × Impl)
    (impl : Impl) (block count : Nat) (buf : List UInt8) : Option (BlockErr × Impl) :=
  if block + count ≤ dev.blockCount ∧ buf.length < count * dev.blockSize then none
  else some (op impl block count (buf.take (count * dev.blockSize)))

/-- The blocks that the bytes from `offset` on touch. -/
def Device.span (offset len : Nat) : Nat :=
  (offset + len - 1) / dev.blockSize - offset / dev.blockSize + 1

variable {len block count : Nat} {buf : List UInt8}

theorem Device.span_le (offset : Nat) (some : 0 < len) : dev.span offset len ≤ len := by
  have spread : (offset + (len - 1) * dev.blockSize) / dev.blockSize
      = offset / dev.blockSize + (len - 1) := Nat.add_mul_div_right _ _ dev.blockSize_pos
  have near : (offset + len - 1) / dev.blockSize
      ≤ (offset + (len - 1) * dev.blockSize) / dev.blockSize := by
    apply Nat.div_le_div_right
    have := Nat.le_mul_of_pos_right (len - 1) dev.blockSize_pos
    omega
  rw [Device.span]
  omega

theorem Device.span_holds (offset : Nat) (some : 0 < len)
    : offset / dev.blockSize + dev.span offset len = (offset + len - 1) / dev.blockSize + 1
      ∧ offset % dev.blockSize + len ≤ dev.span offset len * dev.blockSize := by
  have order : offset / dev.blockSize ≤ (offset + len - 1) / dev.blockSize :=
    Nat.div_le_div_right (by omega)
  have together : offset / dev.blockSize + dev.span offset len
      = (offset + len - 1) / dev.blockSize + 1 := by
    rw [Device.span]
    omega
  refine ⟨together, ?_⟩
  have first := Nat.div_add_mod offset dev.blockSize
  have last := Nat.lt_mul_div_succ (offset + len - 1) dev.blockSize_pos
  have spread : dev.blockSize * ((offset + len - 1) / dev.blockSize + 1)
      = dev.blockSize * (offset / dev.blockSize) + dev.span offset len * dev.blockSize := by
    rw [← together, Nat.mul_add, Nat.mul_comm (dev.span offset len)]
  omega

theorem Device.last_lt_iff (offset : Nat) (some : 0 < len)
    : (offset + len - 1) / dev.blockSize < dev.blockCount ↔ offset + len ≤ dev.size := by
  rw [Nat.div_lt_iff_lt_mul dev.blockSize_pos, Device.size]
  omega

theorem Device.readInto_ok {impl impl' : Impl} {out : List UInt8} (bounded : block + count < 2 ^ 64)
    (exact : buf.length = count * dev.blockSize)
    (ran : dev.readInto impl block count buf = some (.ok, out, impl'))
    : block + count ≤ dev.blockCount
      ∧ out = (dev.contents impl).bytes (block * dev.blockSize) (count * dev.blockSize)
      ∧ dev.contents impl' = dev.contents impl := by
  rw [Device.readInto] at ran
  generalize given : dev.read impl block count = answer at ran
  obtain ⟨rc, moved, after⟩ := answer
  dsimp only at ran
  split at ran
  next => cases ran
  next =>
    obtain ⟨rfl, rfl, rfl⟩ : rc = .ok ∧ moved ++ buf.drop moved.length = out ∧ after = impl' := by
      simpa using ran
    obtain ⟨inside, rfl, same⟩ := dev.read_ok bounded given
    refine ⟨inside, ?_, same⟩
    rw [Memory.length_bytes, ← exact, List.drop_length, List.append_nil]

theorem Device.readInto_takes (impl : Impl) (block : Nat)
    (room : count * dev.blockSize ≤ buf.length)
    : ∃ rc out impl', dev.readInto impl block count buf = some (rc, out, impl') := by
  refine ⟨_, _, _, if_neg ?_⟩
  omega

theorem Device.readInto_overruns (impl : Impl) (inside : block + count ≤ dev.blockCount)
    (small : buf.length < count * dev.blockSize)
    : dev.readInto impl block count buf = none := if_pos ⟨inside, small⟩

theorem Device.read_blocks (impl : Impl) (bounded : block + count < 2 ^ 64)
    : ∃ rc out after,
        dev.readInto impl block count (List.replicate (count * dev.blockSize) 0)
          = some (rc, out, after)
        ∧ (rc = .ok →
            out = (dev.contents impl).bytes (block * dev.blockSize) (count * dev.blockSize)
            ∧ dev.contents after = dev.contents impl) := by
  have exact : (List.replicate (count * dev.blockSize) (0 : UInt8)).length
      = count * dev.blockSize := List.length_replicate
  obtain ⟨rc, out, after, ran⟩ := dev.readInto_takes impl block (Nat.le_of_eq exact.symm)
  refine ⟨rc, out, after, ran, ?_⟩
  rintro rfl
  exact (dev.readInto_ok bounded exact ran).2

theorem Device.AllOrNothing.readInto_fails {dev : Device Impl} (whole : dev.AllOrNothing)
    {impl after : Impl} {out : List UInt8} {rc : BlockErr}
    (ran : dev.readInto impl block count buf = some (rc, out, after)) (failed : rc ≠ .ok)
    : dev.contents after = dev.contents impl := by
  rw [Device.readInto] at ran
  generalize given : dev.read impl block count = answer at ran
  obtain ⟨rc, moved, after⟩ := answer
  dsimp only at ran
  split at ran
  next => cases ran
  next =>
    cases ran
    exact (whole.read_fails given failed).2

theorem Device.readInto_past (impl : Impl) (buf : List UInt8) (bounded : block + count < 2 ^ 64)
    (past : dev.blockCount < block + count)
    : ∃ rc out after, dev.readInto impl block count buf = some (rc, out, after) ∧ rc ≠ .ok := by
  refine ⟨_, _, _, if_neg (by omega), ?_⟩
  intro fine
  have inside := (dev.read_ok bounded (Prod.ext fine (Prod.ext rfl rfl))).1
  omega

theorem Device.writeFrom_exact (impl : Impl)
    {op : Impl → (block count : Nat) → List UInt8 → BlockErr × Impl}
    (exact : buf.length = count * dev.blockSize)
    : dev.writeFrom op impl block count buf = some (op impl block count buf) := by
  rw [Device.writeFrom, if_neg (by omega), ← exact, List.take_length]

end

-- A device in memory

/-- A disk that serves every request for blocks it has, the way `ramblock_read` and
`ramblock_write` do; its bytes are all there is of its driver.
-/
def disk (blockSize blockCount : Nat) (blockSize_pos : 0 < blockSize)
    (blockSize_lt : blockSize < 2 ^ 32) (blockCount_lt : blockCount < 2 ^ 64) : Device Memory where
  blockSize := blockSize
  blockCount := blockCount
  contents := id
  read impl block count :=
    if blockCount < block + count then (.inval, [], impl)
    else (.ok, impl.bytes (block * blockSize) (count * blockSize), impl)
  write := some (fun impl block count buf =>
    if blockCount < block + count then (.inval, impl)
    else (.ok, impl.store (block * blockSize) buf))
  blockSize_pos := blockSize_pos
  blockSize_lt := blockSize_lt
  blockCount_lt := blockCount_lt
  read_ok := by
    intro impl block count moved impl' _ ran
    split at ran
    next => cases ran
    next inside =>
      cases ran
      exact ⟨by omega, rfl, rfl⟩
  write_ok := by
    intro op impl block count buf impl' given _ _ ran
    cases given
    dsimp only at ran
    split at ran
    next => cases ran
    next inside =>
      cases ran
      exact ⟨by omega, rfl⟩

theorem disk_allOrNothing {blockSize blockCount : Nat} (blockSize_pos : 0 < blockSize)
    (blockSize_lt : blockSize < 2 ^ 32) (blockCount_lt : blockCount < 2 ^ 64)
    : (disk blockSize blockCount blockSize_pos blockSize_lt blockCount_lt).AllOrNothing where
  read_fails := by
    intro impl block count rc moved impl' ran failed
    simp only [disk] at ran
    split at ran
    · cases ran
      exact ⟨rfl, rfl⟩
    · cases ran
      exact absurd rfl failed
  write_fails := by
    intro op impl block count buf rc impl' given ran failed
    cases given
    dsimp only at ran
    split at ran
    · cases ran
      rfl
    · cases ran
      exact absurd rfl failed

end Panuti.Block
