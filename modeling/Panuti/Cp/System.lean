import Panuti.Native.Registry

/-! The files and directories as the calls of cp see them, and those calls. A directory has its
entries with the inodes that the walk goes on with, past the mounts over them. What the kernel
answers where these do not decide it is a stream: calls fail for want of memory or of room, and
reads and writes are short.
-/

namespace Panuti.Cp

open Panuti.Native (Name Path dot dotdot splitLast)

-- Files and directories

/-- An inode: a directory with its entries, `.` and `..` among them, a regular file, or a device,
with what reads of it give.
-/
inductive Node where
  | dir (entries : List (Name × Nat))
  | file (contents : List UInt8)
  | device (input : List UInt8)
deriving Repr, DecidableEq

def Node.add (entry : Name × Nat) : Node → Node
  | .dir entries => .dir (entry :: entries)
  | other => other

/-- The kernel's part in the answer to one call: whether the call fails, to how many bytes it comes,
and which of the entries that are new in a directory it lists.
-/
structure Fate where
  fails : Bool
  count : Nat
  shown : Name → Bool

/-- What has happened: `copy_tree` or `copy_file` was called for an inode, a directory got an entry,
`copy_file` opened a source and a target, new or wiped, and it reported success.
-/
inductive Call where
  | tree (dir : Option Nat)
  | file (source : Option Nat)
  | made (parent : Nat)
  | opened (source target : Nat) (fresh wiped : Bool)
  | copied (source target : Nat)
deriving DecidableEq

/-- The inodes, the root and the working directory, the answers of the kernel, and what has happened
so far.
-/
structure System where
  nodes : Arena Node
  root : Nat
  cwd : Nat
  fates : Nat → Fate
  clock : Nat
  log : List Call

namespace System

variable (s : System)

/-- The kernel's part in the answer to the next call. -/
def fate : Fate := s.fates s.clock

def tick : System := { s with clock := s.clock + 1 }

def note (call : Call) : System := { s with log := s.log ++ [call] }

def isDir (inode : Nat) : Bool :=
  match s.nodes.get inode with
  | some (.dir _) => true
  | _ => false

def entries (dir : Nat) : List (Name × Nat) :=
  match s.nodes.get dir with
  | some (.dir entries) => entries
  | _ => []

/-- The loop of `walk` over the components between slashes. -/
def walkComponents : Nat → List Name → Option Nat
  | current, [] => some current
  | current, component :: rest =>
      if component = [] then walkComponents current rest
      else
        match (s.entries current).lookup component with
        | some child => walkComponents child rest
        | none => none

/-- `registry_resolve`, by `walk`. -/
def resolve (path : Path) : Option Nat :=
  if path = [] then none
  else
    let start := if path.head? = some '/' then s.root else s.cwd
    match s.walkComponents start (path.splitOn '/') with
    | some found =>
        if 1 < path.length ∧ path.getLast? = some '/' ∧ s.isDir found = false then none
        else some found
    | none => none

-- Calls

/-- `handle_open`: the inode behind the handle. -/
def handleOpen (path : Path) : Option Nat × System :=
  if s.fate.fails then (none, s.tick)
  else ((s.resolve path).filter (fun inode => (s.nodes.get inode).isSome), s.tick)

/-- `stat`, with the inode in place of its type. -/
def stat (path : Path) : Option Nat × System := s.handleOpen path

/-- The directory that a path is to get its last component in, and this component. -/
def parent (path : Path) : Option (Nat × Name) :=
  let (before, name) := splitLast path
  if path = [] ∨ name = [] then none
  else if before = [] then some (s.cwd, name)
  else if 128 ≤ before.length then none
  else (s.resolve before).map fun dir => (dir, name)

/-- A directory gets a new inode under a new name. -/
def link (dir : Nat) (name : Name) (node : Node) : System :=
  { s with
    nodes := (s.nodes.alloc node).modify dir (Node.add (name, s.nodes.next))
    log := s.log ++ [.made dir] }

/-- `registry_mkdir_at` and `registry_mkfile_at`: whether they made an entry. -/
def make (path : Path) (node : Nat → Node) : Bool × System :=
  if s.fate.fails then (false, s.tick)
  else
    match s.parent path with
    | none => (false, s.tick)
    | some (dir, name) =>
        if s.isDir dir = false ∨ ((s.entries dir).lookup name).isSome then (false, s.tick)
        else (true, (s.tick).link dir name (node dir))

/-- `panutisysf_mkdir`. -/
def mkdir (path : Path) : Bool × System :=
  s.make path fun parent => .dir [(dot, s.nodes.next), (dotdot, parent)]

/-- `panutisysf_mkfile`. -/
def mkfile (path : Path) : Bool × System := s.make path fun _ => .file []

/-- `handle_read` of so many bytes at a position; none at the end. -/
def handleRead (inode pos len : Nat) : Option (List UInt8) × System :=
  let part (bytes : List UInt8) := ((bytes.drop pos).take len).take (max 1 s.fate.count)
  if s.fate.fails then (none, s.tick)
  else
    match s.nodes.get inode with
    | some (.file contents) => (some (part contents), s.tick)
    | some (.device input) => (some (part input), s.tick)
    | _ => (none, s.tick)

def writeAt (contents : List UInt8) (pos : Nat) (bytes : List UInt8) : List UInt8 :=
  contents.take pos ++ List.replicate (pos - contents.length) 0 ++ bytes
    ++ contents.drop (pos + bytes.length)

/-- `handle_write` at a position: how many bytes it took, and nothing when it fails. -/
def handleWrite (inode pos : Nat) (bytes : List UInt8) : Nat × System :=
  let taken := bytes.take s.fate.count
  if s.fate.fails then (0, s.tick)
  else
    match s.nodes.get inode with
    | some (.file contents) =>
        (taken.length,
          { s.tick with
            nodes := s.nodes.modify inode fun _ => .file (writeAt contents pos taken) })
    | some (.device _) => (taken.length, s.tick)
    | _ => (0, s.tick)

/-- `panutisysf_resize` to nothing: whether the handle could do it. -/
def resize (inode : Nat) : Bool × System :=
  if s.fate.fails then (false, s.tick)
  else
    match s.nodes.get inode with
    | some (.file _) =>
        (true, { s.tick with nodes := s.nodes.modify inode fun _ => .file [] })
    | _ => (false, s.tick)

end System

/-- An open directory: the entries that it still lists, and how many it had at the last look. New
entries come before those that are there.
-/
structure DirHandle where
  dir : Nat
  rest : List (Name × Nat)
  known : Nat

namespace System

variable (s : System)

def openDir (dir : Nat) : DirHandle := ⟨dir, s.entries dir, (s.entries dir).length⟩

/-- `readdir`: the next entry. A native directory lists no entry that was made after it was opened;
another one may.
-/
def readdir (h : DirHandle) : Option ((Name × Nat) × DirHandle) × System :=
  let entries := s.entries h.dir
  let news := (entries.take (entries.length - h.known)).filter fun entry => s.fate.shown entry.1
  if s.fate.fails then (none, s.tick)
  else
    match h.rest ++ news with
    | [] => (none, s.tick)
    | entry :: rest => (some (entry, ⟨h.dir, rest, entries.length⟩), s.tick)

end System

end Panuti.Cp
