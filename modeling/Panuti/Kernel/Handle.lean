import Mathlib.Tactic.Common
import Mathlib.Data.List.Basic
import Mathlib.Logic.Function.Basic

/-! Handles, the per-task descriptor table of `handle.c`, and the objects behind handles:
pipe ends with their reference counts, and the objects an open creates and a close frees.
-/

namespace Panuti.Kernel

-- Handles

/-- The error codes of `panuti/errno.h` that the modelled system calls return. -/
inductive Errno where
  | plainErr
  | unsupportedOp
  | notFound
  | noFds
  | badFd
  | noMem
  | busy
  | alreadyExists
deriving Repr, DecidableEq

inductive InodeType where
  | none
  | dir
  | file
  | block
  | pipe
  | dvc
deriving Repr, DecidableEq

/-- The operation table of a handle. A device either allocates an object of its own in
`open` and frees it in `close` (`perOpen`), or shares the registered one.
-/
inductive HandleOps where
  | dirHandle
  | blockHandle
  | fsFile
  | pipe
  | device (perOpen : Bool)
deriving Repr, DecidableEq

/-- Closing a handle with these operations frees its `impl`. -/
def HandleOps.frees : HandleOps → Bool
  | .dirHandle => true
  | .blockHandle => true
  | .fsFile => true
  | .pipe => false
  | .device perOpen => perOpen

/-- `handle_t`. `impl` names an object created by `open` or `pipe_create`; it is `none` for
an object that no open created.
-/
structure Handle where
  type : InodeType
  impl : Option Nat
  ops : Option HandleOps
  inode : Option Nat
deriving Repr, DecidableEq

/-- `(handle_t){0}`. -/
def Handle.zero : Handle := ⟨.none, none, none, none⟩

-- The descriptor table

def FD_INITIAL_CAP : Nat := 16
def MAX_HANDLES : Nat := 1024

/-- One entry of the table with its bit of `openb`. -/
structure Slot where
  used : Bool
  handle : Handle
deriving Repr, DecidableEq

/-- `fdtable_t`: the capacity is the length, and no table at all is the empty list. -/
abbrev FdTable := List Slot

def Slot.zero : Slot := ⟨false, Handle.zero⟩

/-- `fdtable_grow`; `room` says whether both allocations succeed. -/
def fdtableGrow (table : FdTable) (room : Bool) : Option FdTable :=
  if MAX_HANDLES ≤ table.length then none
  else if room = false then none
  else
    let doubled := if table.length = 0 then FD_INITIAL_CAP else table.length * 2
    let newCap := if doubled > MAX_HANDLES then MAX_HANDLES else doubled
    some (table ++ List.replicate (newCap - table.length) Slot.zero)

def claimSlot (table : FdTable) (slot : Nat) (type : InodeType) : FdTable :=
  table.modify slot (fun entry => ⟨true, { entry.handle with type }⟩)

/-- `handle_alloc`: the lowest slot not in use, growing the table when there is none. -/
def handleAlloc (table : FdTable) (type : InodeType) (room : Bool)
    : Option (Nat × FdTable) :=
  match table.findIdx? (fun entry => !entry.used) with
  | some slot => some (slot, claimSlot table slot type)
  | none =>
      match fdtableGrow table room with
      | none => none
      | some grown => some (table.length, claimSlot grown table.length type)

/-- `handle_free`: clear the slot, and drop the table with its last slot. -/
def handleFree (table : FdTable) (fd : Nat) : FdTable :=
  if table.length ≤ fd then table
  else
    let cleared := table.set fd Slot.zero
    if cleared.all (fun entry => !entry.used) then [] else cleared

/-- `task_return_hslot`: the handle of a slot in use. -/
def returnHslot (table : FdTable) (fd : Nat) : Option Handle :=
  match table[fd]? with
  | some entry => if entry.used then some entry.handle else none
  | none => none

def fillSlot (table : FdTable) (fd : Nat) (handle : Handle) : FdTable :=
  table.set fd ⟨true, handle⟩

def openHandles (table : FdTable) : List Handle :=
  (table.filter Slot.used).map Slot.handle

-- Objects behind handles

/-- What an object is: created by `open`, one end of a pipe, or the pipe itself. -/
inductive ObjectKind where
  | opened
  | pipeEnd (pipe : Nat) (isWriteEnd : Bool)
  | pipe
deriving Repr, DecidableEq

/-- An object with its reference count, where its kind has one, and the number of times it
was handed to `kfree`.
-/
structure Object where
  kind : ObjectKind
  refcount : Int
  releases : Nat
deriving Repr, DecidableEq

abbrev Objects := Nat → Object

def kfree (objects : Objects) (object : Nat) : Objects :=
  Function.update objects object
    { objects object with releases := (objects object).releases + 1 }

def pipeEndRef (objects : Objects) (pipeEnd : Nat) : Objects :=
  Function.update objects pipeEnd
    { objects pipeEnd with refcount := (objects pipeEnd).refcount + 1 }

/-- `pipe_end_release`: the end drops its reference to the pipe and goes away. -/
def pipeEndRelease (objects : Objects) (pipeEnd : Nat) : Objects :=
  match (objects pipeEnd).kind with
  | .pipeEnd pipe _ =>
      let left := (objects pipe).refcount - 1
      let objects := Function.update objects pipe { objects pipe with refcount := left }
      let objects := if left = 0 then kfree objects pipe else objects
      kfree objects pipeEnd
  | _ => objects

def pipeEndUnref (objects : Objects) (pipeEnd : Nat) : Objects :=
  let left := (objects pipeEnd).refcount - 1
  let objects := Function.update objects pipeEnd { objects pipeEnd with refcount := left }
  if left > 0 then objects else pipeEndRelease objects pipeEnd

/-- `ops->close(impl)`. -/
def closeHandle (objects : Objects) (handle : Handle) : Objects :=
  match handle.ops, handle.impl with
  | some .pipe, some pipeEnd => pipeEndUnref objects pipeEnd
  | some ops, some object => if ops.frees then kfree objects object else objects
  | _, _ => objects

end Panuti.Kernel
