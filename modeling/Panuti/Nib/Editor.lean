import Panuti.Nib.Lines

/-! The buffer of nib: its lines and cursor, how a file is loaded into it and how it is saved. What
the allocator and the file system answer is given from outside, call by call.
-/

namespace Panuti.Nib

open Library

abbrev Heap := Nat → Grant

/-- `editor_mode_t`. -/
inductive Mode where
  | normal
  | command
  | insert
deriving Repr, DecidableEq

/-- `editor_global_t`, with how many requests and calls were made. -/
structure Editor where
  lines : List Line
  capl : Int
  vupX : Int
  vupY : Int
  curX : Int
  curY : Int
  insertX : Int
  mode : Mode
  errormsg : Line
  showErrmsg : Bool
  command : Line
  pendingOp : UInt8
  dirty : Bool
  trailingNl : Bool
  asked : Nat
  called : Nat
deriving Repr, DecidableEq

/-- `EGG` when nib starts. -/
def Editor.start : Editor :=
  { lines := [], capl := 0, vupX := 0, vupY := 0, curX := 0, curY := 0, insertX := 0
    mode := .normal, errormsg := lineInit, showErrmsg := false, command := lineInit
    pendingOp := 0, dirty := false, trailingNl := false, asked := 0, called := 0 }

/-- `EGG.nlines`. -/
def Editor.nlines (e : Editor) : Int := e.lines.length

/-- `EGG.lines[y]`. -/
def Editor.line (e : Editor) (y : Int) : Except Fault Line :=
  if y < 0 then .error .outside
  else
    match e.lines[y.toNat]? with
    | some l => .ok l
    | none => .error .outside

/-- `EGG.lines[y]` is changed. -/
def Editor.setLine (e : Editor) (y : Int) (l : Line) : Editor :=
  { e with lines := e.lines.set y.toNat l }

def Editor.ask (e : Editor) : Editor := { e with asked := e.asked + 1 }

-- Lines of the buffer

/-- The capacity that `line_new_at` asks for, when there is one. -/
def growCapl (capl : Int) : Option Int :=
  let ncap := if capl = 0 then some 64
    else if intMax / 2 < capl then if capl = intMax then none else some intMax
    else some (capl * 2)
  -- `sizeof(line_t)` is 12
  ncap.filter (fun ncap => ncap ≤ intMax / 12)

/-- How `line_new_at` gets room for a line. -/
def growLines (heap : Heap) (e : Editor) : Bool × Editor :=
  if e.nlines ≠ e.capl then (true, e)
  else
    match growCapl e.capl with
    | none => (false, e)
    | some ncap =>
        match heap e.asked with
        | none => (false, e.ask)
        | some _ => (true, { e.ask with capl := ncap })

/-- `line_new_at`, with the place of the line. -/
def lineNewAt (heap : Heap) (place : Int) (e : Editor) : Option Int × Editor :=
  match growLines heap e with
  | (false, e) => (none, e)
  | (true, e) =>
      let place := if place < 0 then 0 else place
      let place := if e.nlines < place then e.nlines else place
      (some place, { e with lines := e.lines.insertIdx place.toNat lineInit })

def lineDeleteAt (place : Int) (e : Editor) : Editor :=
  if place < 0 ∨ e.nlines ≤ place then e
  else { e with lines := e.lines.eraseIdx place.toNat }

def addLine (heap : Heap) (str : List UInt8) (e : Editor) : Except Fault (Bool × Editor) :=
  match lineNewAt heap e.nlines e with
  | (none, e) => .ok (false, e)
  | (some place, e) => do
      let l ← e.line place
      let (done, l) ← lineSet (heap e.asked) l str
      let e := (e.setLine place l).ask
      if done then return (true, e) else return (false, lineDeleteAt (e.nlines - 1) e)

def ascii (text : String) : List UInt8 := text.toList.map (fun c => UInt8.ofNat c.toNat)

-- Files

/-- The loop of `load` over the data, with the line so far. -/
def loadLoop (heap : Heap) : List UInt8 → List UInt8 → Editor → Except Fault (Bool × Editor)
  | [], current, e =>
      if current = [] then .ok (true, e)
      else if lineLenMax < current.length then .ok (false, e)
      else addLine heap current e
  | c :: data, current, e =>
      if c = 0x0A then
        if lineLenMax < current.length then .ok (false, e)
        else do
          let (done, e) ← addLine heap current e
          if done then loadLoop heap data [] e else return (false, e)
      else loadLoop heap data (current ++ [c]) e

/-- `load` of what is in a file, or of none; with whether it is `LOAD_OK` or `LOAD_NEW`. The first
request is that of `tmp_path`, and the second is for the data.
-/
def load (heap : Heap) (file : Option (List UInt8)) (e : Editor)
    : Except Fault (Bool × Editor) :=
  match file with
  | none => addLine heap [] { e.ask with trailingNl := true }
  | some data =>
      if (heap e.ask.asked).isNone then .ok (false, e.ask.ask)
      else do
        let (done, e) ← loadLoop heap data [] e.ask.ask
        if !done then return (false, e)
        else do
          let (done, e) ← (if e.lines = [] then addLine heap [] e else .ok (true, e))
          return (done, { e with trailingNl := data.getLast? = some 0x0A })

end Panuti.Nib
