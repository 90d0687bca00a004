import Panuti.Cp.System

/-! The functions of `cp.c`, over the calls that they make. Reports on the terminal are left out. -/

namespace Panuti.Cp

open Panuti.Native (Name Path dot dotdot splitLast)

def CP_BUFSZ : Nat := 128

/-- `pcr_path_join`. -/
def pathJoin (base : Path) (name : Name) : Path :=
  if base = [] then name
  else if base.getLast? = some '/' then base ++ name
  else base ++ '/' :: name

def baseName (path : Path) : Name := (splitLast path).2

def isDirectory (s : System) (path : Path) : Bool × System :=
  match s.stat path with
  | (none, s) => (false, s)
  | (some inode, s) => (s.isDir inode, s)

-- One file

/-- The loop of `pcr_handle_write_all`, for at most so many turns; each takes at least a byte. -/
def pcrHandleWriteAll (s : System) (target : Nat)
    : (turns pos : Nat) → List UInt8 → Bool × System
  | _, _, [] => (true, s)
  | 0, _, _ :: _ => (false, s)
  | turns + 1, pos, bytes =>
      match s.handleWrite target pos bytes with
      | (0, s) => (false, s)
      | (taken + 1, s) =>
          pcrHandleWriteAll s target turns (pos + (taken + 1)) (bytes.drop (taken + 1))

/-- The loop of `copy_file`, for at most so many turns; each but the last one copies at least a
byte.
-/
def copyLoop (s : System) (source target : Nat) : (turns pos : Nat) → Bool × System
  | 0, _ => (false, s)
  | turns + 1, pos =>
      match s.handleRead source pos CP_BUFSZ with
      | (none, s) => (false, s)
      | (some [], s) => (true, s)
      | (some (byte :: bytes), s) =>
          match pcrHandleWriteAll s target (bytes.length + 1) pos (byte :: bytes) with
          | (false, s) => (false, s)
          | (true, s) => copyLoop s source target turns (pos + (bytes.length + 1))

def System.data (s : System) (inode : Nat) : List UInt8 :=
  match s.nodes.get inode with
  | some (.file contents) => contents
  | some (.device input) => input
  | _ => []

def copyFile (s : System) (src dst : Path) : Int × System :=
  let s := s.note (.file (s.resolve src))
  if src = dst then (-1, s)
  else
    match s.handleOpen src with
    | (none, s) => (-1, s)
    | (some source, s) =>
        let next := s.nodes.next
        let s := (s.mkfile dst).2
        match s.handleOpen dst with
        | (none, s) => (-1, s)
        | (some target, s) =>
            let (wiped, s) := s.resize target
            let s := s.note (.opened source target (decide (next ≤ target)) wiped)
            match copyLoop s source target ((s.data source).length + 1) 0 with
            | (false, s) => (-1, s)
            | (true, s) => (0, s.note (.copied source target))

-- Trees

def makeDir (s : System) (path : Path) : Int × System :=
  match isDirectory s path with
  | (true, s) => (0, s)
  | (false, s) =>
      match s.mkdir path with
      | (true, s) => (0, s)
      | (false, s) =>
          match isDirectory s path with
          | (true, s) => (0, s)
          | (false, s) => (-1, s)

/-- Where a call has come to: whether it has returned, its result, and the system. -/
structure Outcome where
  finished : Bool
  rc : Int
  system : System

/-- What `copy_tree` does for an entry. `tree` is `copy_tree`. -/
def copyEntry (tree : System → Path → Path → Outcome) (s : System) (src dst : Path)
    (entry : Name × Nat) : Outcome :=
  -- the two joined paths are allocated
  if s.fate.fails then ⟨true, -1, s.tick⟩
  else
    let s := s.tick
    let from' := pathJoin src entry.1
    let to' := pathJoin dst entry.1
    if s.isDir entry.2 then
      match makeDir s to' with
      | (0, s) => tree s from' to'
      | (_, s) => ⟨true, -1, s⟩
    else
      let (rc, s) := copyFile s from' to'
      ⟨true, rc, s⟩

/-- The loop of `copy_tree` over the entries, for at most so many turns. -/
def copyEntries (tree : System → Path → Path → Outcome) (src dst : Path)
    : (turns : Nat) → System → DirHandle → (failed : Bool) → Outcome
  | 0, s, _, _ => ⟨false, -1, s⟩
  | turns + 1, s, h, failed =>
      match s.readdir h with
      | (none, s) => ⟨true, if failed then -1 else 0, s⟩
      | (some (entry, h), s) =>
          if entry.1 = dot ∨ entry.1 = dotdot then copyEntries tree src dst turns s h failed
          else
            let copied := copyEntry tree s src dst entry
            if copied.finished then
              copyEntries tree src dst turns copied.system h (failed || copied.rc ≠ 0)
            else copied

/-- `copy_tree`, to at most so many calls inside each other and so many turns of each loop. -/
def copyTree : (fuel : Nat) → System → Path → Path → Outcome
  | 0, s, _, _ => ⟨false, -1, s⟩
  | fuel + 1, s, src, dst =>
      let s := s.note (.tree (s.resolve src))
      match s.handleOpen src with
      | (none, s) => ⟨true, -1, s⟩
      | (some dir, s) => copyEntries (copyTree fuel) src dst fuel s (s.openDir dir) false

def copySource (fuel : Nat) (recurse : Bool) (s : System) (src dest : Path) (destIsDir : Bool)
    : Outcome :=
  match s.stat src with
  | (none, s) => ⟨true, -1, s⟩
  | (some inode, s) =>
      let name := baseName src
      if s.isDir inode && !recurse then ⟨true, -1, s⟩
      else if destIsDir && (CP_BUFSZ ≤ name.length || s.fate.fails) then ⟨true, -1, s.tick⟩
      else
        let target := if destIsDir then pathJoin dest name else dest
        let s := s.tick
        if s.isDir inode then
          match makeDir s target with
          | (0, s) => copyTree fuel s src target
          | (_, s) => ⟨true, -1, s⟩
        else
          let (rc, s) := copyFile s src target
          ⟨true, rc, s⟩

/-- The loop of `main` over the sources. -/
def copySources (fuel : Nat) (recurse : Bool) (dest : Path) (destIsDir : Bool)
    : System → (failed : Bool) → List Path → Outcome
  | s, failed, [] => ⟨true, if failed then -1 else 0, s⟩
  | s, failed, src :: rest =>
      let copied := copySource fuel recurse s src dest destIsDir
      if copied.finished then
        copySources fuel recurse dest destIsDir copied.system (failed || copied.rc ≠ 0) rest
      else copied

/-- `main`, from the operands on. Nothing has happened before. -/
def main (fuel : Nat) (recurse : Bool) (s : System) (sources : List Path) (dest : Path)
    : Outcome :=
  let s := { s with log := [] }
  if sources = [] then ⟨true, -1, s⟩
  else
    let (destIsDir, s) := isDirectory s dest
    if 1 < sources.length ∧ destIsDir = false then ⟨true, -1, s⟩
    else copySources fuel recurse dest destIsDir s false sources

end Panuti.Cp
