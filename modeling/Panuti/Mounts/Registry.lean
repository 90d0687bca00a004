import Panuti.Native.Registry

/-! The registry with its mount table: the path walk through `..` and mountpoints, the lookups
of the three drivers with the entries they cache, and the calls on mounted directories. What a
driver reads from its medium is an argument, and so are the answers of `kmalloc`.
-/

namespace Panuti.Mounts

open Panuti.Kernel (HandleOps InodeType)
open Panuti.Native

-- Mounts

/-- The driver whose table `fs_ops` points at. -/
inductive Driver where
  | ext2
  | isofs
  | fatfs
deriving Repr, DecidableEq

/-- `mount_t` of a slot in use. `fsImpl` names the driver's own state. -/
structure Mount where
  mountpoint : Nat
  root : Nat
  fsOps : Driver
  fsImpl : Nat
  refcount : Nat
deriving Repr, DecidableEq

structure Ext2Inode where
  fs : Nat
  inum : Nat
deriving Repr, DecidableEq

/-- The registry, the slots of the mount table, and of every inode its `mnt`, as the number of
a slot, and the `impl` an ext2 volume gave it.
-/
structure Vfs where
  reg : Registry
  mounts : Nat → Option Mount
  mnt : Nat → Option Nat
  ext2Inode : Nat → Option Ext2Inode

/-- `mount_find`, with the slot. -/
def Vfs.mountFind (vfs : Vfs) (mountpoint : Nat) : Option (Nat × Mount) :=
  (List.range REG_MAX_MOUNTS).findSome? (fun slot =>
    (vfs.mounts slot).bind (fun mount =>
      if mount.mountpoint = mountpoint then some (slot, mount) else none))

/-- The registry as native calls see it, with the directories that mounts cover. -/
def Vfs.native (vfs : Vfs) : Registry :=
  { vfs.reg with
    mountpoints := (List.range REG_MAX_MOUNTS).filterMap (fun slot =>
      (vfs.mounts slot).map Mount.mountpoint) }

def Vfs.setMnt (vfs : Vfs) (inode : Nat) (slot : Option Nat) : Vfs :=
  { vfs with mnt := Function.update vfs.mnt inode slot }

def Vfs.setMount (vfs : Vfs) (slot : Nat) (mount : Option Mount) : Vfs :=
  { vfs with mounts := Function.update vfs.mounts slot mount }

def mountAttach (vfs : Vfs) (mountpoint : Nat) (fsOps : Driver) (fsImpl root : Nat)
    : Except Failure Unit × Vfs :=
  if (vfs.mountFind mountpoint).isSome then (.error .minusOne, vfs)
  else if (vfs.mnt mountpoint).isSome then (.error .minusOne, vfs)
  else if vfs.reg.isDeleted mountpoint then (.error .minusOne, vfs)
  else
    match (List.range REG_MAX_MOUNTS).find? (fun slot => (vfs.mounts slot).isNone) with
    | none => (.error .minusOne, vfs)
    | some slot =>
        let vfs := vfs.setMount slot (some ⟨mountpoint, root, fsOps, fsImpl, 0⟩)
        (.ok (), { vfs with reg := inodeRef (inodeRef vfs.reg mountpoint) root })

-- Lookups

def EXT2_NAME_LEN : Nat := 255

/-- What one lookup reads from the medium, the number of the inode and whether it is a
directory, and what the allocator answers it.
-/
structure Answer where
  found : Option (Nat × Bool)
  inode : Bool
  impl : Bool
  entry : LinkRoom
deriving Repr, DecidableEq

def inodeTypeOf (isDir : Bool) : InodeType := if isDir then .dir else .file

/-- The inode belongs to the volume: `impl` is set and `impl->fs == fs`. -/
def Vfs.ofVolume (vfs : Vfs) (fs inode : Nat) : Bool :=
  (vfs.ext2Inode inode).any (fun impl => impl.fs = fs)

def ext2Lookup (vfs : Vfs) (fs dir : Nat) (name : Name) (answer : Answer)
    : Option Nat × Vfs :=
  if name.length = 0 ∨ EXT2_NAME_LEN < name.length then (none, vfs)
  else if vfs.reg.isDir dir = false then (none, vfs)
  else if vfs.ofVolume fs dir = false then (none, vfs)
  else
    match registryFinddirent vfs.reg dir name with
    | some cached => (vfs.reg.target cached, vfs)
    | none =>
        match answer.found with
        | none => (none, vfs)
        | some (inum, isDir) =>
            match registryInodeAlloc vfs.reg (inodeTypeOf isDir) answer.inode with
            | none => (none, vfs)
            | some (inode, reg) =>
                if answer.impl = false then (none, { vfs with reg := inodeUnref reg inode })
                else
                  match registryLinkdirent reg dir name inode answer.entry with
                  | none => (none, { vfs with reg := inodeUnref reg inode })
                  | some (_, reg) =>
                      (some inode,
                        { vfs with
                          reg := inodeUnref reg inode
                          ext2Inode := Function.update vfs.ext2Inode inode (some ⟨fs, inum⟩) })

/-- `isofs_lookup`. It asks the medium whether the name is cached or not, and keeps the
reference of `registry_inode_alloc`.
-/
def isofsLookup (vfs : Vfs) (dir : Nat) (name : Name) (answer : Answer) : Option Nat × Vfs :=
  if vfs.reg.isDir dir = false then (none, vfs)
  else
    match answer.found with
    | none => (none, vfs)
    | some (_, isDir) =>
        match registryInodeAlloc vfs.reg (inodeTypeOf isDir) answer.inode with
        | none => (none, vfs)
        | some (inode, reg) =>
            if answer.impl = false then (none, { vfs with reg := inodeUnref reg inode })
            else
              let mnt := Function.update vfs.mnt inode (vfs.mnt dir)
              match registryLinkdirent reg dir name inode answer.entry with
              | none => (none, { vfs with reg := inodeUnref reg inode })
              | some (_, reg) => (some inode, { vfs with reg, mnt })

/-- `fs_ops->lookup`; that of fatfs finds nothing. -/
def fsLookup (vfs : Vfs) (mount : Mount) (dir : Nat) (name : Name) (answer : Answer)
    : Option Nat × Vfs :=
  match mount.fsOps with
  | .ext2 => ext2Lookup vfs mount.fsImpl dir name answer
  | .isofs => isofsLookup vfs dir name answer
  | .fatfs => (none, vfs)

-- The walk

/-- Step from a covered directory to the root of the mount over it. -/
def descend (vfs : Vfs) (inode : Nat) : Nat × Vfs :=
  match vfs.mountFind inode with
  | some (slot, mount) => (mount.root, vfs.setMnt mount.root (some slot))
  | none => (inode, vfs)

/-- The part of `walk` that finds the child behind a component, and whether it crossed out
of the mount. A lookup through a slot that is free again calls through a null pointer; here
it finds nothing.
-/
def walkChild (vfs : Vfs) (current : Nat) (component : Name) (answer : Answer)
    : Option (Nat × Bool) × Vfs :=
  match vfs.mnt current with
  | some slot =>
      match vfs.mounts slot with
      | none => (none, vfs)
      | some mount =>
          if component = dotdot ∧ current = mount.root then
            (some (vfs.reg.parentOf mount.mountpoint, true), vfs)
          else
            match fsLookup vfs mount current component answer with
            | (none, vfs) => (none, vfs)
            | (some child, vfs) => (some (child, false), vfs.setMnt child (some slot))
  | none =>
      (((registryFinddirent vfs.reg current component).bind vfs.reg.target).map
        (fun child => (child, false)), vfs)

/-- One turn of `walk` for a component that is not created. -/
def walkStep (vfs : Vfs) (current : Nat) (component : Name) (answer : Answer)
    : Option Nat × Vfs :=
  if vfs.reg.isDir current = false then (none, vfs)
  else
    match walkChild vfs current component answer with
    | (none, vfs) => (none, vfs)
    | (some (child, true), vfs) => (some child, vfs)
    | (some (child, false), vfs) => (some (descend vfs child).1, (descend vfs child).2)

/-- The last turn of `walk` when it creates: only a native directory gets a new entry. -/
def walkLast (vfs : Vfs) (current : Nat) (component : Name) (answer : Answer)
    (type : InodeType) (room : CreateRoom) : Option Nat × Vfs :=
  if vfs.reg.isDir current = false then (none, vfs)
  else
    match walkChild vfs current component answer with
    | (some _, vfs) => (none, vfs)
    | (none, after) =>
        if (vfs.mnt current).isSome then (none, after)
        else if vfs.reg.isDeleted current then (none, vfs)
        else
          let (created, reg) := walkCreate vfs.reg current component type room
          (created, { vfs with reg })

/-- The loop of `walk` over the components between slashes. The answer to a lookup goes by
the number of components behind it.
-/
def walkComponents (vfs : Vfs) (create : Option (InodeType × CreateRoom))
    (answers : Nat → Answer) : Nat → List Name → Option Nat × Vfs
  | current, [] => (some current, vfs)
  | current, component :: rest =>
      if component = [] then walkComponents vfs create answers current rest
      else
        match rest, create with
        | [], some (type, room) => walkLast vfs current component (answers 0) type room
        | _, _ =>
            match walkStep vfs current component (answers rest.length) with
            | (none, vfs) => (none, vfs)
            | (some child, vfs) => walkComponents vfs create answers child rest

/-- The start of `walk`: resolution that begins at a mountpoint begins inside the mount. -/
def enter (vfs : Vfs) (current : Nat) : Nat × Vfs :=
  if (vfs.mnt current).isSome then (current, vfs) else descend vfs current

def Vfs.base (vfs : Vfs) (start : Nat) (path : Path) : Nat :=
  if path.head? = some '/' then vfs.reg.root else start

def walk (vfs : Vfs) (start : Nat) (path : Path) (create : Option (InodeType × CreateRoom))
    (answers : Nat → Answer) : Option Nat × Vfs :=
  if path = [] then (none, vfs)
  else
    let (current, vfs) := enter vfs (vfs.base start path)
    match walkComponents vfs create answers current (path.splitOn '/') with
    | (none, vfs) => (none, vfs)
    | (some found, vfs) =>
        if 1 < path.length ∧ path.getLast? = some '/' ∧ vfs.reg.isDir found = false then
          (none, vfs)
        else (some found, vfs)

def registryResolve (vfs : Vfs) (start : Nat) (path : Path) (answers : Nat → Answer)
    : Option Nat × Vfs :=
  walk vfs start path none answers

-- Calls of the drivers that change the medium

def PANUTIERRNO_PLAINERR : Int := -2147483648
def PANUTIERRNO_INVALIDARG : Int := -2147483637

/-- What an ext2 call meets on its medium: the error of the checks in front of those of the
inodes, if any, and what the work behind them returns.
-/
structure Medium where
  refuses : Option Int
  returns : Int
deriving Repr, DecidableEq

/-- `ext2_create` and `ext2_unlink`, up to the work on the medium. -/
def ext2OnDir (vfs : Vfs) (fs dir : Nat) (medium : Medium) : Int :=
  match medium.refuses with
  | some ret => ret
  | none => if vfs.ofVolume fs dir then medium.returns else PANUTIERRNO_INVALIDARG

/-- `fs_ops->unlink`. -/
def fsUnlink (vfs : Vfs) (mount : Mount) (dir : Nat) (medium : Medium) : Int :=
  match mount.fsOps with
  | .ext2 => ext2OnDir vfs mount.fsImpl dir medium
  | .isofs => -1
  | .fatfs => -1

end Panuti.Mounts
