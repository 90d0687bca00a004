import Mathlib.Data.List.DropRight
import Panuti.Kernel.Handle
import Panuti.Library.Arena

/-! The native tree of `registry.c`: inodes and directory entries with their reference counts,
the path walk, and the calls that create, link, unlink and rename. The answers of `kmalloc`
are arguments. A walk that steps into a covered directory leaves the native tree and finds
nothing here.
-/

namespace Panuti.Native

open Panuti.Kernel (Errno HandleOps InodeType)

-- Inodes and entries

def REG_MAX_INODES : Nat := 65536
def REG_MAX_DIRENTS : Nat := 262144
def REG_MAX_NAME_LEN : Nat := 256
def REG_MAX_MOUNTS : Nat := 64
def UINT16_MAX : Nat := 65535
def INT_MAX : Int := 2147483647

abbrev Name := List Char
abbrev Path := List Char

/-- `dirent_t`. -/
structure Dirent where
  name : Name
  refcount : Nat
  inode : Nat
deriving Repr, DecidableEq

/-- `inode_t` outside mounted trees. The children are the places of the entries on the list,
the newest first.
-/
structure Inode where
  type : InodeType
  refcount : Int
  deleted : Bool
  impl : Option Nat
  ops : Option HandleOps
  children : List Nat
deriving Repr, DecidableEq

/-- The heap of the registry, its counters, its root and the covered directories of the mount
table.
-/
structure Registry where
  inodes : Arena Inode
  dirents : Arena Dirent
  inodeCount : Nat
  direntCount : Nat
  root : Nat
  mountpoints : List Nat

/-- A negative return value: plain `-1`, or an error code. -/
inductive Failure where
  | minusOne
  | code (errno : Errno)
deriving Repr, DecidableEq

def dot : Name := ['.']
def dotdot : Name := ['.', '.']

def isDotName (name : Name) : Bool := name = dot || name = dotdot

def Registry.modifyInode (reg : Registry) (inode : Nat) (change : Inode → Inode)
    : Registry :=
  { reg with inodes := reg.inodes.modify inode change }

def Registry.modifyDirent (reg : Registry) (entry : Nat) (change : Dirent → Dirent)
    : Registry :=
  { reg with dirents := reg.dirents.modify entry change }

def registryInodeAlloc (reg : Registry) (type : InodeType) (room : Bool)
    : Option (Nat × Registry) :=
  if REG_MAX_INODES ≤ reg.inodeCount then none
  else if room = false then none
  else
    some (reg.inodes.next,
      { reg with
        inodes := reg.inodes.alloc ⟨type, 1, false, none, none, []⟩
        inodeCount := reg.inodeCount + 1 })

/-- `dirent_alloc`, with the fields its one caller sets. -/
def direntAlloc (reg : Registry) (name : Name) (inode : Nat) (room : Bool)
    : Option (Nat × Registry) :=
  if REG_MAX_DIRENTS ≤ reg.direntCount then none
  else if room = false then none
  else
    some (reg.dirents.next,
      { reg with
        dirents := reg.dirents.alloc ⟨name, 1, inode⟩
        direntCount := reg.direntCount + 1 })

def inodeRef (reg : Registry) (inode : Nat) : Registry :=
  reg.modifyInode inode (fun node =>
    if node.refcount < INT_MAX then { node with refcount := node.refcount + 1 } else node)

def direntRef (reg : Registry) (entry : Nat) : Registry :=
  reg.modifyDirent entry (fun found =>
    if found.refcount = UINT16_MAX then found
    else { found with refcount := found.refcount + 1 })

def Registry.target (reg : Registry) (entry : Nat) : Option Nat :=
  (reg.dirents.get entry).map Dirent.inode

/-- `dirent_put`. `unref` is `inode_unref`, which can come back here for another entry. -/
def direntPut (unref : Registry → Nat → Registry) (reg : Registry) (entry : Nat)
    (dropInode : Bool) : Registry :=
  match reg.dirents.get entry with
  | none => reg
  | some found =>
      let left := found.refcount - 1
      if left ≠ 0 then
        reg.modifyDirent entry (fun found => { found with refcount := left })
      else
        let reg := { reg with
          dirents := reg.dirents.free entry
          direntCount := reg.direntCount - 1 }
        if dropInode then unref reg found.inode else reg

/-- `registry_destroy` of an inode whose count is zero: put its entries, then free it. An
entry that names the directory itself holds no reference.
-/
def registryDestroy (unref : Registry → Nat → Registry) (reg : Registry) (inode : Nat)
    (node : Inode) : Registry :=
  let reg :=
    if node.type = .dir then
      node.children.foldl
        (fun reg entry => direntPut unref reg entry (decide (reg.target entry ≠ some inode)))
        reg
    else reg
  { reg with inodes := reg.inodes.free inode, inodeCount := reg.inodeCount - 1 }

/-- `inode_unref`, to a depth of at most `fuel` inodes destroyed inside each other. -/
def inodeUnrefDepth : Nat → Registry → Nat → Registry
  | 0, reg, _ => reg
  | fuel + 1, reg, inode =>
      match reg.inodes.get inode with
      | none => reg
      | some node =>
          let left := node.refcount - 1
          let reg := reg.modifyInode inode (fun node => { node with refcount := left })
          if left ≠ 0 then reg
          else registryDestroy (inodeUnrefDepth fuel) reg inode { node with refcount := left }

/-- `inode_unref`: no more inodes can be destroyed than were created. -/
def inodeUnref (reg : Registry) (inode : Nat) : Registry :=
  inodeUnrefDepth reg.inodes.next reg inode

def direntUnref (reg : Registry) (entry : Nat) : Registry :=
  direntPut inodeUnref reg entry true

-- Entries of a directory

/-- The allocator's answers when an entry is made. -/
structure LinkRoom where
  name : Bool
  entry : Bool
deriving Repr, DecidableEq

def registryLinkdirent (reg : Registry) (dir : Nat) (name : Name) (target : Nat)
    (room : LinkRoom) : Option (Nat × Registry) :=
  if name.length = 0 ∨ REG_MAX_NAME_LEN ≤ name.length then none
  else if room.name = false then none
  else
    match direntAlloc reg name target room.entry with
    | none => none
    | some (entry, reg) =>
        let reg := reg.modifyInode dir (fun node =>
          { node with children := entry :: node.children })
        some (entry, if target ≠ dir then inodeRef reg target else reg)

def Registry.named (reg : Registry) (name : Name) (entry : Nat) : Bool :=
  (reg.dirents.get entry).any (fun found => found.name = name)

def registryFinddirent (reg : Registry) (dir : Nat) (name : Name) : Option Nat :=
  match reg.inodes.get dir with
  | some node => node.children.find? (reg.named name)
  | none => none

/-- `dirent_detach`: take the entry of this name off the list. -/
def direntDetach (reg : Registry) (dir : Nat) (name : Name) : Option (Nat × Registry) :=
  match registryFinddirent reg dir name with
  | some entry =>
      some (entry, reg.modifyInode dir (fun node =>
        { node with children := node.children.erase entry }))
  | none => none

def registryDirIsEmpty (reg : Registry) (dir : Nat) : Bool :=
  match reg.inodes.get dir with
  | some node => node.children.all (fun entry => reg.named dot entry || reg.named dotdot entry)
  | none => true

def Registry.isDir (reg : Registry) (inode : Nat) : Bool :=
  (reg.inodes.get inode).any (fun node => node.type = .dir)

def Registry.isDeleted (reg : Registry) (inode : Nat) : Bool :=
  (reg.inodes.get inode).any Inode.deleted

/-- The inode behind the `..` of a directory; the directory itself when it has none. -/
def Registry.parentOf (reg : Registry) (dir : Nat) : Nat :=
  ((registryFinddirent reg dir dotdot).bind reg.target).getD dir

/-- `dir_has_ancestor`, over at most `fuel` steps up. -/
def dirHasAncestor (reg : Registry) : Nat → Nat → Nat → Bool
  | 0, _, _ => false
  | fuel + 1, dir, ancestor =>
      if dir = ancestor then true
      else if reg.parentOf dir = dir then false
      else dirHasAncestor reg fuel (reg.parentOf dir) ancestor

-- Paths

/-- The allocator's answers when `walk` creates an entry: its inode, and its links. -/
structure CreateRoom where
  inode : Bool
  entry : LinkRoom
  self : LinkRoom
  parent : LinkRoom
deriving Repr, DecidableEq

/-- Put an entry detached from the directory being given up again, if there was one. -/
def dropLink (reg : Registry) (dir : Nat) (name : Name) : Registry :=
  match direntDetach reg dir name with
  | some (entry, reg) =>
      direntPut inodeUnref reg entry (decide (reg.target entry ≠ some dir))
  | none => reg

/-- The part of `walk` that creates its last component. -/
def walkCreate (reg : Registry) (current : Nat) (name : Name) (type : InodeType)
    (room : CreateRoom) : Option Nat × Registry :=
  match registryInodeAlloc reg type room.inode with
  | none => (none, reg)
  | some (inode, reg) =>
      match registryLinkdirent reg current name inode room.entry with
      | none => (none, inodeUnref reg inode)
      | some (_, reg) =>
          if type ≠ .dir then (some inode, inodeUnref reg inode)
          else
            let (linked, reg) :=
              match registryLinkdirent reg inode dot inode room.self with
              | none => (false, reg)
              | some (_, reg) =>
                  match registryLinkdirent reg inode dotdot current room.parent with
                  | none => (false, reg)
                  | some (_, reg) => (true, reg)
            if linked then (some inode, inodeUnref reg inode)
            else
              let reg := dropLink reg inode dot
              let reg := dropLink reg inode dotdot
              let reg :=
                match direntDetach reg current name with
                | some (entry, reg) => direntUnref reg entry
                | none => reg
              (none, inodeUnref reg inode)

/-- The loop of `walk` over the components between slashes. The last one is created when
`create` says so.
-/
def walkComponents (reg : Registry) (create : Option (InodeType × CreateRoom))
    : Nat → List Name → Option Nat × Registry
  | current, [] => (some current, reg)
  | current, component :: rest =>
      if component = [] then walkComponents reg create current rest
      else if reg.isDir current = false then (none, reg)
      else
        match (registryFinddirent reg current component).bind reg.target with
        | some child =>
            if rest = [] ∧ create.isSome then (none, reg)
            else if child ∈ reg.mountpoints then (none, reg)
            else walkComponents reg create child rest
        | none =>
            match rest, create with
            | [], some (type, room) =>
                if reg.isDeleted current then (none, reg)
                else walkCreate reg current component type room
            | _, _ => (none, reg)

def walk (reg : Registry) (start : Nat) (path : Path)
    (create : Option (InodeType × CreateRoom)) : Option Nat × Registry :=
  if path = [] then (none, reg)
  else
    let current := if path.head? = some '/' then reg.root else start
    if current ∈ reg.mountpoints then (none, reg)
    else
      match walkComponents reg create current (path.splitOn '/') with
      | (none, reg) => (none, reg)
      | (some found, reg) =>
          if 1 < path.length ∧ path.getLast? = some '/' ∧ reg.isDir found = false then
            (none, reg)
          else (some found, reg)

def registryResolve (reg : Registry) (start : Nat) (path : Path) : Option Nat :=
  (walk reg start path none).1

/-- The path without trailing slashes, but never without its first character. -/
def stripSlashes (path : Path) : Path :=
  match path.rdropWhile (· == '/') with
  | [] => path.take 1
  | stripped => stripped

/-- The part of a path before its last component, and that component. -/
def splitLast (path : Path) : Path × Name :=
  let stripped := stripSlashes path
  let name := stripped.rtakeWhile (· != '/')
  (stripped.take (stripped.length - name.length), name)

def registryMkdirAt (reg : Registry) (start : Nat) (path : Path) (room : CreateRoom)
    : Except Failure Unit × Registry :=
  let (before, name) := splitLast path
  if path = [] ∨ name = [] then (.error .minusOne, reg)
  else
    let base := if path.head? = some '/' then reg.root else start
    let parent :=
      if before = [] then some base
      else if 128 ≤ before.length then none
      else registryResolve reg base before
    match parent with
    | none => (.error .minusOne, reg)
    | some parent =>
        if reg.isDir parent = false ∨ reg.isDeleted parent then (.error .minusOne, reg)
        else
          match walk reg base path (some (.dir, room)) with
          | (some _, reg) => (.ok (), reg)
          | (none, reg) => (.error .minusOne, reg)

def registryAdd (reg : Registry) (path : Path) (type : InodeType) (impl : Option Nat)
    (ops : Option HandleOps) (room : CreateRoom) : Except Failure Unit × Registry :=
  match walk reg reg.root path (some (type, room)) with
  | (none, reg) => (.error .minusOne, reg)
  | (some inode, reg) => (.ok (), reg.modifyInode inode (fun node => { node with impl, ops }))

-- link, unlink and rename

def Registry.covered (reg : Registry) (entry : Nat) : Bool :=
  (reg.target entry).any (fun inode => inode ∈ reg.mountpoints)

def markDeleted (reg : Registry) (entry : Nat) : Registry :=
  match reg.target entry with
  | some inode =>
      if reg.isDir inode then
        reg.modifyInode inode (fun node => { node with deleted := true })
      else reg
  | none => reg

/-- `registry_unlink` in a native directory. -/
def registryUnlink (reg : Registry) (dir : Nat) (name : Name)
    : Except Failure Unit × Registry :=
  if reg.isDir dir = false then (.error .minusOne, reg)
  else if isDotName name ∨ reg.isDeleted dir then (.error (.code .busy), reg)
  else
    match registryFinddirent reg dir name with
    | none => (.error .minusOne, reg)
    | some entry =>
        if reg.covered entry then (.error (.code .busy), reg)
        else if (reg.target entry).any (fun inode =>
            reg.isDir inode && !registryDirIsEmpty reg inode) then
          (.error (.code .busy), reg)
        else
          match direntDetach reg dir name with
          | none => (.error .minusOne, reg)
          | some (entry, reg) => (.ok (), direntUnref (markDeleted reg entry) entry)

/-- `registry_link` of a native inode in a native directory. -/
def registryLink (reg : Registry) (target dir : Nat) (name : Name) (room : LinkRoom)
    : Except Failure Unit × Registry :=
  if name.length = 0 ∨ REG_MAX_NAME_LEN ≤ name.length then (.error (.code .plainErr), reg)
  else if reg.isDir dir = false then (.error (.code .notFound), reg)
  else if reg.isDeleted dir then (.error (.code .busy), reg)
  else if isDotName name ∨ reg.isDir target then (.error (.code .unsupportedOp), reg)
  else if (registryFinddirent reg dir name).isSome then
    (.error (.code .alreadyExists), reg)
  else
    match registryLinkdirent reg dir name target room with
    | none => (.error (.code .plainErr), reg)
    | some (_, reg) => (.ok (), reg)

/-- The part of `registry_rename` that hangs a moved directory below its new parent. -/
def reparent (reg : Registry) (moved newDir : Nat) : Registry :=
  match registryFinddirent reg moved dotdot with
  | none => reg
  | some up =>
      match reg.target up with
      | none => reg
      | some oldParent =>
          if oldParent = newDir then reg
          else
            let reg := inodeRef reg newDir
            let reg := reg.modifyDirent up (fun found => { found with inode := newDir })
            inodeUnref reg oldParent

/-- The part of `registry_rename` behind its checks: link the new name, drop the old one. -/
def moveEntry (reg : Registry) (oldDir : Nat) (oldName : Name) (newDir : Nat)
    (newName : Name) (moved : Nat) (room : LinkRoom) : Except Failure Unit × Registry :=
  match registryLinkdirent reg newDir newName moved room with
  | none => (.error (.code .plainErr), reg)
  | some (_, reg) =>
      match direntDetach reg oldDir oldName with
      | none =>
          match direntDetach reg newDir newName with
          | some (added, reg) => (.error (.code .plainErr), direntUnref reg added)
          | none => (.error (.code .plainErr), reg)
      | some (old, reg) =>
          let reg := direntUnref reg old
          if reg.isDir moved ∧ oldDir ≠ newDir then (.ok (), reparent reg moved newDir)
          else (.ok (), reg)

/-- The part of `registry_rename` that takes away the entry it replaces. -/
def dropReplaced (reg : Registry) (newDir : Nat) (newName : Name) : Option Registry :=
  match direntDetach reg newDir newName with
  | none => none
  | some (entry, reg) => some (direntUnref (markDeleted reg entry) entry)

/-- `registry_rename` between native directories. -/
def registryRename (reg : Registry) (oldDir : Nat) (oldName : Name) (newDir : Nat)
    (newName : Name) (room : LinkRoom) : Except Failure Unit × Registry :=
  if reg.isDir oldDir = false ∨ reg.isDir newDir = false then (.error (.code .notFound), reg)
  else if oldName.length = 0 ∨ newName.length = 0
      ∨ REG_MAX_NAME_LEN ≤ oldName.length ∨ REG_MAX_NAME_LEN ≤ newName.length then
    (.error (.code .plainErr), reg)
  else if reg.isDeleted oldDir ∨ reg.isDeleted newDir then (.error (.code .busy), reg)
  else if isDotName oldName ∨ isDotName newName then (.error (.code .busy), reg)
  else if oldDir = newDir ∧ oldName = newName then (.ok (), reg)
  else if (registryFinddirent reg oldDir oldName).any reg.covered then
    (.error (.code .busy), reg)
  else if (registryFinddirent reg newDir newName).any reg.covered then
    (.error (.code .busy), reg)
  else
    match (registryFinddirent reg oldDir oldName).bind reg.target with
    | none => (.error (.code .notFound), reg)
    | some moved =>
        if reg.isDir moved ∧ dirHasAncestor reg reg.inodes.next newDir moved then
          (.error (.code .busy), reg)
        else
          match (registryFinddirent reg newDir newName).bind reg.target with
          | none => moveEntry reg oldDir oldName newDir newName moved room
          | some replaced =>
              if replaced = moved then (.ok (), reg)
              else if reg.isDir moved ≠ reg.isDir replaced then
                (.error (.code .unsupportedOp), reg)
              else if reg.isDir replaced ∧ registryDirIsEmpty reg replaced = false then
                (.error (.code .busy), reg)
              else
                match dropReplaced reg newDir newName with
                | none => (.error (.code .plainErr), reg)
                | some reg => moveEntry reg oldDir oldName newDir newName moved room

end Panuti.Native
