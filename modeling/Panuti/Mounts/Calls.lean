import Panuti.Mounts.Registry

/-! Mounting a volume, and taking a name out of a native or a mounted directory. In a native one it
is the call of the native tree; in a mounted one the driver decides, and the cached entries follow
what it did.
-/

namespace Panuti.Mounts

open Panuti.Kernel (HandleOps InodeType)
open Panuti.Native

/-- `mount_find(d->inode)`. -/
def Vfs.covered (vfs : Vfs) (entry : Nat) : Bool :=
  (vfs.reg.target entry).any (fun inode => (vfs.mountFind inode).isSome)

-- Making and mounting

def EXT2_ROOT_INO : Nat := 2

def rootImpl (vfs : Vfs) (driver : Driver) (fsImpl root : Nat) : Vfs :=
  match driver with
  | .ext2 =>
      { vfs with
        ext2Inode := Function.update vfs.ext2Inode root (some ⟨fsImpl, EXT2_ROOT_INO⟩) }
  | .isofs => vfs
  | .fatfs => vfs

/-- Mount a driver's tree over the directory of a path. -/
def mountOver (vfs : Vfs) (path : Path) (driver : Driver) (fsImpl : Nat)
    (answers : Nat → Answer) (inodeRoom implRoom : Bool) : Except Failure Unit × Vfs :=
  match registryResolve vfs vfs.reg.root path answers with
  | (none, vfs) => (.error .minusOne, vfs)
  | (some mountpoint, vfs) =>
      if vfs.reg.isDir mountpoint = false then (.error .minusOne, vfs)
      else
        match registryInodeAlloc vfs.reg .dir inodeRoom with
        | none => (.error .minusOne, vfs)
        | some (root, reg) =>
            if implRoom = false then
              (.error .minusOne, { vfs with reg := inodeUnref reg root })
            else
              match mountAttach (rootImpl { vfs with reg } driver fsImpl root) mountpoint driver
                  fsImpl root with
              | (.error failure, after) =>
                  (.error failure,
                    { after with
                      reg := inodeUnref after.reg root
                      ext2Inode := Function.update after.ext2Inode root none })
              | (.ok _, after) => (.ok (), { after with reg := inodeUnref after.reg root })

/-- `ext2_mount`, once the volume was accepted. -/
def ext2Mount (vfs : Vfs) (path : Path) (fsImpl : Nat) (answers : Nat → Answer)
    (inodeRoom implRoom : Bool) : Except Failure Unit × Vfs :=
  mountOver vfs path .ext2 fsImpl answers inodeRoom implRoom

-- unlink, link and rename

/-- Take the cached entry of a name off its list and give it up, if there is one. -/
def dropCached (reg : Registry) (dir : Nat) (name : Name) : Registry :=
  match direntDetach reg dir name with
  | none => reg
  | some (entry, reg) => direntUnref reg entry

def registryUnlink (vfs : Vfs) (dir : Nat) (name : Name) (medium : Medium)
    : Except Failure Unit × Vfs :=
  match vfs.mnt dir with
  | none =>
      let (result, reg) := Native.registryUnlink vfs.native dir name
      (result, { vfs with reg })
  | some slot =>
      if vfs.reg.isDir dir = false then (.error .minusOne, vfs)
      else if isDotName name ∨ vfs.reg.isDeleted dir then (.error (.code .busy), vfs)
      else if (registryFinddirent vfs.reg dir name).any vfs.covered then
        (.error (.code .busy), vfs)
      else
        match vfs.mounts slot with
        | none => (.error .minusOne, vfs)
        | some mount =>
            if fsUnlink vfs mount dir medium < 0 then (.error .minusOne, vfs)
            else if (registryFinddirent vfs.reg dir name).isNone then (.error .minusOne, vfs)
            else (.ok (), { vfs with reg := dropCached vfs.reg dir name })

end Panuti.Mounts
