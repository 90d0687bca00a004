import Mathlib.Algebra.Ring.Int.Defs
import Mathlib.Algebra.Ring.Nat
import Mathlib.Tactic.Common

/-! The handle of an open file, `handle/fs.c`: it keeps a place in the file, a `size_t` of 32 bits,
and goes through the table of operations of the file system for everything else.
-/

namespace Panuti.Files

def INT_MAX : Nat := 2147483647
def INT64_MAX : Nat := 9223372036854775807
def SIZE_MAX : Nat := 4294967295
def SEEK_SET : Int := 0
def SEEK_CUR : Int := 1
def SEEK_END : Int := 2
def PANUTIERRNO_UNSUPPORTEDOP : Int := -2147483646
def PANUTIERRNO_INVALIDARG : Int := -2147483637

/-- The operations of `fs_ops_t` that an open file uses, on states `σ` of the file system. What the
call finds around it, such as the time or a device that does not answer, is an `ε`. A read returns
a number and leaves bytes in the buffer. `getattr` is the size, where it can be told.
-/
structure FsOps (σ ε : Type) where
  read : σ → ε → (len offset : Nat) → (Int × List UInt8) × σ
  write : σ → ε → (data : List UInt8) → (offset : Nat) → Int × σ
  getattr : σ → ε → Option Int

/-- `fs_file_t`, with the state of the file system. -/
structure FsFile (σ : Type) where
  fs : σ
  offset : Nat

inductive Call where
  | read (len : Nat)
  | write (data : List UInt8)
  | seek (whence offset : Int)
deriving Repr, DecidableEq

/-- What a call returns, and the bytes it leaves in the buffer. -/
structure Answer where
  ret : Int
  data : List UInt8
deriving Repr, DecidableEq

structure Event (ε : Type) where
  call : Call
  env : ε

variable {σ ε : Type}

/-- Where `fs_file_read` and `fs_file_write` leave the offset. -/
def advance (offset : Nat) (ret : Int) : Nat :=
  if 0 < ret then (offset + ret.toNat) % 2 ^ 32 else offset

def fsFileRead (ops : FsOps σ ε) (f : FsFile σ) (env : ε) (len : Nat) : Answer × FsFile σ :=
  let result := ops.read f.fs env len f.offset
  (⟨result.1.1, result.1.2⟩, ⟨result.2, advance f.offset result.1.1⟩)

def fsFileWrite (ops : FsOps σ ε) (f : FsFile σ) (env : ε) (data : List UInt8)
    : Answer × FsFile σ :=
  let result := ops.write f.fs env data f.offset
  (⟨result.1, []⟩, ⟨result.2, advance f.offset result.1⟩)

/-- The place that `fs_file_seek` counts from. A size below zero is one that is not known. -/
def seekBase (whence size : Int) (offset : Nat) : Except Int Int :=
  if whence = SEEK_SET then .ok 0
  else if whence = SEEK_CUR then .ok offset
  else if whence = SEEK_END then
    if size < 0 then .error PANUTIERRNO_UNSUPPORTEDOP else .ok size
  else .error PANUTIERRNO_INVALIDARG

def fsFileSeek (ops : FsOps σ ε) (f : FsFile σ) (env : ε) (whence offset : Int)
    : Answer × FsFile σ :=
  let size := (ops.getattr f.fs env).getD (-1)
  match seekBase whence size f.offset with
  | .error code => (⟨code, []⟩, f)
  | .ok base =>
      let pos := if 0 < offset ∧ INT64_MAX - offset < base then (INT64_MAX : Int) else base + offset
      let pos := if pos < 0 then 0 else pos
      let np := pos.toNat
      let np := if 0 ≤ size ∧ size.toNat < np then size.toNat else np
      let np := if SIZE_MAX < np then SIZE_MAX else np
      (⟨0, []⟩, { f with offset := np })

def step (ops : FsOps σ ε) (f : FsFile σ) (event : Event ε) : Answer × FsFile σ :=
  match event.call with
  | .read len => fsFileRead ops f event.env len
  | .write data => fsFileWrite ops f event.env data
  | .seek whence offset => fsFileSeek ops f event.env whence offset

end Panuti.Files
