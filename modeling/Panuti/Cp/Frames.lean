import Mathlib.Logic.Relation
import Panuti.Cp.Copy

/-! What the calls of cp leave as it was, and what a run of cp is made of. -/

namespace Panuti.Cp

open Panuti.Native (Name Path dot dotdot splitLast)

-- Calls that leave the inodes alone

section

variable (s : System)

@[simp] theorem System.handleOpen_system (path : Path) : (s.handleOpen path).2 = s.tick := by
  rw [System.handleOpen]
  split <;> rfl

@[simp] theorem System.stat_system (path : Path) : (s.stat path).2 = s.tick :=
  s.handleOpen_system path

@[simp] theorem System.readdir_system (h : DirHandle) : (s.readdir h).2 = s.tick := by
  rw [System.readdir]
  split
  next => rfl
  next => split <;> rfl

@[simp] theorem System.handleRead_system (inode pos len : Nat)
    : (s.handleRead inode pos len).2 = s.tick := by
  rw [System.handleRead]
  dsimp only
  split
  next => rfl
  next => split <;> rfl

@[simp] theorem isDirectory_system (path : Path) : (isDirectory s path).2 = s.tick := by
  have same := s.stat_system path
  rw [isDirectory]
  split
  next found => rw [← same, found]
  next found => rw [← same, found]

theorem System.handleOpen_some {path : Path} {inode : Nat}
    (opened : (s.handleOpen path).1 = some inode)
    : s.resolve path = some inode ∧ ∃ node, s.nodes.get inode = some node := by
  rw [System.handleOpen] at opened
  split at opened
  next => cases opened
  next =>
      obtain ⟨found, present⟩ := Option.filter_eq_some_iff.mp opened
      exact ⟨found, Option.isSome_iff_exists.mp present⟩

end

-- Calls on one file

/-- From one state to the other at most the contents of one file have changed. -/
structure Touches (target : Nat) (s later : System) : Prop where
  root : later.root = s.root
  cwd : later.cwd = s.cwd
  fates : later.fates = s.fates
  log : later.log = s.log
  next : later.nodes.next = s.nodes.next
  others : ∀ inode, inode ≠ target → later.nodes.get inode = s.nodes.get inode
  file : later.nodes.get target = s.nodes.get target
    ∨ ∃ contents contents', s.nodes.get target = some (.file contents)
      ∧ later.nodes.get target = some (.file contents')

theorem Touches.refl (target : Nat) (s : System) : Touches target s s :=
  ⟨rfl, rfl, rfl, rfl, rfl, fun _ _ => rfl, .inl rfl⟩

theorem Touches.tick (target : Nat) (s : System) : Touches target s s.tick :=
  ⟨rfl, rfl, rfl, rfl, rfl, fun _ _ => rfl, .inl rfl⟩

theorem Touches.trans {target : Nat} {first second third : System}
    (before : Touches target first second) (after : Touches target second third)
    : Touches target first third where
  root := after.root.trans before.root
  cwd := after.cwd.trans before.cwd
  fates := after.fates.trans before.fates
  log := after.log.trans before.log
  next := after.next.trans before.next
  others inode apart := (after.others inode apart).trans (before.others inode apart)
  file := by
    rcases before.file with same | ⟨contents, contents', there, there'⟩
    · rw [← same]
      exact after.file
    · rcases after.file with same' | ⟨_, contents'', -, there''⟩
      · exact .inr ⟨contents, contents', there, same'.trans there'⟩
      · exact .inr ⟨contents, contents'', there, there''⟩

variable {s later : System} {inode : Nat} {before : Node} {tree : System → Path → Path → Outcome}

theorem Touches.target {target : Nat} (touches : Touches target s later) (node : Node)
    (there : s.nodes.get target = some node)
    : ∃ node', later.nodes.get target = some node' := by
  rcases touches.file with same | ⟨_, contents, -, there'⟩
  · exact ⟨node, same.trans there⟩
  · exact ⟨.file contents, there'⟩

theorem Touches.modify {target : Nat} {contents : List UInt8}
    (there : s.nodes.get target = some (.file contents)) (contents' : List UInt8)
    : Touches target s
        { s.tick with nodes := s.nodes.modify target fun _ => .file contents' } where
  root := rfl
  cwd := rfl
  fates := rfl
  log := rfl
  next := rfl
  others _ apart := Arena.get_modify_of_ne apart
  file := by
    refine .inr ⟨contents, contents', there, ?_⟩
    dsimp only
    rw [Arena.get_modify_self, there]
    rfl

theorem resize_touches (s : System) (inode : Nat) : Touches inode s (s.resize inode).2 := by
  rw [System.resize]
  split
  next => exact .tick inode s
  next =>
      split
      next there => exact .modify there []
      next => exact .tick inode s

theorem handleWrite_touches (s : System) (inode pos : Nat) (bytes : List UInt8)
    : Touches inode s (s.handleWrite inode pos bytes).2 := by
  rw [System.handleWrite]
  dsimp only
  split
  next => exact Touches.tick inode s
  next =>
      split
      next there => exact .modify there _
      next => exact .tick inode s
      next => exact .tick inode s

theorem pcrHandleWriteAll_touches (s : System) (target turns pos : Nat) (bytes : List UInt8)
    : Touches target s (pcrHandleWriteAll s target turns pos bytes).2 := by
  induction turns generalizing s pos bytes with
  | zero =>
      cases bytes with
      | nil => exact .refl target s
      | cons byte rest => exact .refl target s
  | succ turns ih =>
      cases bytes with
      | nil => exact .refl target s
      | cons byte rest =>
          have wrote := handleWrite_touches s target pos (byte :: rest)
          rw [pcrHandleWriteAll]
          split
          next same =>
              rw [same] at wrote
              exact wrote
          next same =>
              rw [same] at wrote
              exact wrote.trans (ih _ _ _)
          next => exact nofun

theorem copyLoop_touches (s : System) (source target turns pos : Nat)
    : Touches target s (copyLoop s source target turns pos).2 := by
  induction turns generalizing s pos with
  | zero => exact .refl target s
  | succ turns ih =>
      have read := s.handleRead_system source pos CP_BUFSZ
      rw [copyLoop]
      split
      next same =>
          rw [same] at read
          exact read ▸ Touches.tick target s
      next same =>
          rw [same] at read
          exact read ▸ Touches.tick target s
      next byte bytes later same =>
          rw [same] at read
          obtain rfl : later = s.tick := read
          have wrote := pcrHandleWriteAll_touches s.tick target (bytes.length + 1) pos
            (byte :: bytes)
          split
          next same' =>
              rw [same'] at wrote
              exact (Touches.tick target s).trans wrote
          next same' =>
              rw [same'] at wrote
              exact ((Touches.tick target s).trans wrote).trans (ih _ _)

-- Calls that make an entry

/-- From one state to the other at most an entry was made, with its inode. -/
inductive Makes (s : System) : System → Prop
  | nothing : Makes s s.tick
  | entry (dir : Nat) (name : Name) (node : Node) (isDir : s.isDir dir = true)
      (free : (s.entries dir).lookup name = none)
      : Makes s (s.tick.link dir name node)

theorem make_makes (s : System) (path : Path) (node : Nat → Node)
    : Makes s (s.make path node).2 := by
  rw [System.make]
  split
  next => exact .nothing
  next =>
      split
      next => exact .nothing
      next dir name _ =>
          split
          next => exact .nothing
          next possible =>
              obtain ⟨isDir, free⟩ := not_or.mp possible
              exact .entry dir name _ (Bool.not_eq_false _ ▸ isDir)
                (Option.not_isSome_iff_eq_none.mp free)

theorem get_link (there : s.nodes.get inode = some before) (dir : Nat) (name : Name) (node : Node)
    : (s.link dir name node).nodes.get inode
      = if inode = dir then some (before.add (name, s.nodes.next)) else some before := by
  rw [System.link]
  dsimp only
  rw [Arena.get_modify, Arena.get_alloc_of_some there]
  rfl

theorem Makes.node (makes : Makes s later) (there : s.nodes.get inode = some before)
    : ∃ after, later.nodes.get inode = some after
      ∧ ∀ contents, after = .file contents ↔ before = .file contents := by
  cases makes with
  | nothing => exact ⟨before, there, fun _ => Iff.rfl⟩
  | entry dir name node =>
      rw [get_link (s := s.tick) there]
      split
      next =>
          cases before with
          | dir entries => exact ⟨_, rfl, fun _ => iff_of_false nofun nofun⟩
          | file contents => exact ⟨_, rfl, fun _ => Iff.rfl⟩
          | device input => exact ⟨_, rfl, fun _ => Iff.rfl⟩
      next => exact ⟨before, rfl, fun _ => Iff.rfl⟩

theorem Makes.file (makes : Makes s later) (there : s.nodes.get inode = some before)
    (contents : List UInt8)
    : later.nodes.get inode = some (.file contents)
      ↔ s.nodes.get inode = some (.file contents) := by
  obtain ⟨after, there', same⟩ := makes.node there
  rw [there, there', Option.some_inj, Option.some_inj]
  exact same contents

theorem Makes.log (makes : Makes s later)
    : later.log = s.log ∨ ∃ dir, later.log = s.log ++ [.made dir] := by
  cases makes with
  | nothing => exact .inl rfl
  | entry dir name node => exact .inr ⟨dir, rfl⟩

-- What a run of cp is made of

/-- What a call of `copy_file` comes to: the paths are spelt alike, the source or the destination
could not be opened, or the loop was run.
-/
inductive CopyRun (s : System) (src dst : Path) : Int × System → Prop
  | same : CopyRun s src dst (-1, s.note (.file (s.resolve src)))
  | noSource : CopyRun s src dst (-1, (s.note (.file (s.resolve src))).tick)
  | noTarget {made : System} (makes : ((s.note (.file (s.resolve src))).tick.mkfile dst).2 = made)
      : CopyRun s src dst (-1, made.tick)
  | opened {made resized later : System} {source target : Nat} {wiped success : Bool}
      {result : Int × System} (sourceThere : ∃ node, s.nodes.get source = some node)
      (makes : ((s.note (.file (s.resolve src))).tick.mkfile dst).2 = made)
      (targetThere : ∃ node, made.nodes.get target = some node)
      (resize : made.tick.resize target = (wiped, resized))
      (loop : copyLoop
        (resized.note (.opened source target (decide (s.nodes.next ≤ target)) wiped))
        source target ((resized.data source).length + 1) 0 = (success, later))
      (returns
        : result = if success then (0, later.note (.copied source target)) else (-1, later))
      : CopyRun s src dst result

theorem copyFile_run (s : System) (src dst : Path) : CopyRun s src dst (copyFile s src dst) := by
  have sourceOpened := (s.note (.file (s.resolve src))).handleOpen_system src
  rw [copyFile]
  dsimp only
  split
  next => exact .same
  next =>
      split
      next later same =>
          rw [same] at sourceOpened
          obtain rfl : later = _ := sourceOpened
          exact .noSource
      next source later same =>
          rw [same] at sourceOpened
          obtain rfl : later = _ := sourceOpened
          have sourceThere := (System.handleOpen_some _ (congrArg Prod.fst same)).2
          have targetOpened := System.handleOpen_system
            ((s.note (.file (s.resolve src))).tick.mkfile dst).2 dst
          split
          next later same' =>
              rw [same'] at targetOpened
              obtain rfl : later = _ := targetOpened
              exact .noTarget rfl
          next target later same' =>
              rw [same'] at targetOpened
              obtain rfl : later = _ := targetOpened
              have targetThere := (System.handleOpen_some _ (congrArg Prod.fst same')).2
              rcases resize
                : ((s.note (.file (s.resolve src))).tick.mkfile dst).2.tick.resize target
                with ⟨wiped, resized⟩
              dsimp only
              split
              next later loop => exact .opened sourceThere rfl targetThere resize loop rfl
              next later loop => exact .opened sourceThere rfl targetThere resize loop rfl

inductive Does (s : System) : System → Prop
  | asks : Does s s.tick
  | enters (dir : Option Nat) : Does s (s.note (.tree dir))
  | makes (path : Path) : Does s (s.mkdir path).2
  | copies (src dst : Path) : Does s (copyFile s src dst).2

open Relation (ReflTransGen)

theorem makeDir_does (s : System) (path : Path) : ReflTransGen Does s (makeDir s path).2 := by
  have asks := ReflTransGen.single (Does.asks (s := s))
  have look := isDirectory_system s path
  rw [makeDir]
  split
  next same =>
      rw [same] at look
      exact look ▸ asks
  next later same =>
      rw [same] at look
      obtain rfl : later = s.tick := look
      have made := asks.tail (Does.makes path)
      split
      next same' =>
          rw [same'] at made
          exact made
      next later same' =>
          rw [same'] at made
          have again := isDirectory_system later path
          split
          next found =>
              rw [found] at again
              exact made.tail (again ▸ Does.asks)
          next found =>
              rw [found] at again
              exact made.tail (again ▸ Does.asks)

theorem copyEntry_does (does : ∀ s src dst, ReflTransGen Does s (tree s src dst).system)
    (s : System) (src dst : Path) (entry : Name × Nat)
    : ReflTransGen Does s (copyEntry tree s src dst entry).system := by
  have asks := ReflTransGen.single (Does.asks (s := s))
  rw [copyEntry]
  split
  next => exact asks
  next =>
      dsimp only
      split
      next =>
          have made := asks.trans (makeDir_does s.tick (pathJoin dst entry.1))
          split
          next same =>
              rw [same] at made
              exact made.trans (does _ _ _)
          next same =>
              rw [same] at made
              exact made
      next => exact asks.tail (Does.copies _ _)

theorem copyEntries_does (does : ∀ s src dst, ReflTransGen Does s (tree s src dst).system)
    (src dst : Path) (turns : Nat) (s : System) (h : DirHandle) (failed : Bool)
    : ReflTransGen Does s (copyEntries tree src dst turns s h failed).system := by
  induction turns generalizing s h failed with
  | zero => exact .refl
  | succ turns ih =>
      have asks := ReflTransGen.single (Does.asks (s := s))
      have read := s.readdir_system h
      rw [copyEntries]
      split
      next later same =>
          rw [same] at read
          obtain rfl : later = s.tick := read
          exact asks
      next entry h later same =>
          rw [same] at read
          obtain rfl : later = s.tick := read
          split
          next => exact asks.trans (ih _ _ _)
          next =>
              have copied := asks.trans (copyEntry_does does s.tick src dst entry)
              dsimp only
              split
              next => exact copied.trans (ih _ _ _)
              next => exact copied

theorem copyTree_does (fuel : Nat) (s : System) (src dst : Path)
    : ReflTransGen Does s (copyTree fuel s src dst).system := by
  induction fuel generalizing s src dst with
  | zero => exact .refl
  | succ fuel ih =>
      have entered := (ReflTransGen.single (Does.enters (s := s) (s.resolve src))).tail Does.asks
      have opened := (s.note (.tree (s.resolve src))).handleOpen_system src
      rw [copyTree]
      split
      next later same =>
          rw [same] at opened
          obtain rfl : later = _ := opened
          exact entered
      next dir later same =>
          rw [same] at opened
          obtain rfl : later = _ := opened
          exact entered.trans (copyEntries_does ih src dst fuel _ _ false)

theorem copySource_does (fuel : Nat) (recurse : Bool) (s : System) (src dest : Path)
    (destIsDir : Bool)
    : ReflTransGen Does s (copySource fuel recurse s src dest destIsDir).system := by
  have asks := ReflTransGen.single (Does.asks (s := s))
  have stat := s.stat_system src
  rw [copySource]
  split
  next later same =>
      rw [same] at stat
      obtain rfl : later = s.tick := stat
      exact asks
  next inode later same =>
      rw [same] at stat
      obtain rfl : later = s.tick := stat
      dsimp only
      split
      next => exact asks
      next =>
          split
          next => exact asks.tail .asks
          next =>
              split
              next =>
                  have made := (asks.tail .asks).trans (makeDir_does s.tick.tick
                    (if destIsDir = true then pathJoin dest (baseName src) else dest))
                  split
                  next same' =>
                      rw [same'] at made
                      exact made.trans (copyTree_does fuel _ _ _)
                  next same' =>
                      rw [same'] at made
                      exact made
              next => exact (asks.tail .asks).tail (Does.copies _ _)

/-- A run of cp is made of its calls. -/
theorem main_does (fuel : Nat) (recurse : Bool) (s : System) (sources : List Path) (dest : Path)
    : ReflTransGen Does { s with log := [] } (main fuel recurse s sources dest).system := by
  have look := isDirectory_system { s with log := [] } dest
  have asks := ReflTransGen.single (Does.asks (s := { s with log := [] }))
  have all (s : System) (failed destIsDir : Bool)
      : ReflTransGen Does s (copySources fuel recurse dest destIsDir s failed sources).system := by
    induction sources generalizing s failed with
    | nil => exact .refl
    | cons src rest ih =>
        have copied := copySource_does fuel recurse s src dest destIsDir
        rw [copySources]
        split
        next => exact copied.trans (ih _ _)
        next => exact copied
  rw [main]
  split
  next => exact .refl
  next =>
      generalize isDirectory { s with log := [] } dest = answer at look
      obtain ⟨destIsDir, later⟩ := answer
      obtain rfl : later = _ := look
      dsimp only
      split
      next => exact asks
      next => exact asks.trans (all _ _ _)

end Panuti.Cp
