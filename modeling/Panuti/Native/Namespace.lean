import Panuti.Native.Creates
import Panuti.Native.Renames

/-! The native tree with those that refer to it: working directories, handles with their
directory cursors, streams and mounts. Every event keeps the counts equal to the references.
-/

namespace Panuti.Native

open Panuti.Kernel (Errno HandleOps InodeType)

-- References from outside the tree

/-- A handle of a native inode. The cursor of an open directory is the entry it reads
next.
-/
structure OpenHandle where
  inode : Nat
  cursor : Option Nat
deriving Repr, DecidableEq

/-- The registry, the working directory of every task, the open handles, and the inodes of
the streams.
-/
structure Namespace where
  reg : Registry
  cwds : List Nat
  handles : List OpenHandle
  streams : List Nat

/-- `dirent_t.next`: what follows an entry on its directory's list. -/
def Registry.nextOf (reg : Registry) (dir entry : Nat) : Option Nat :=
  (reg.inodes.get dir).bind (fun node => (node.children.dropWhile (· != entry)).tail.head?)

/-- `dir_handle_start`, with the entry the cursor starts at. -/
def dirHandleStart (reg : Registry) (head : Option Nat) : Registry :=
  match head with
  | some entry => direntRef reg entry
  | none => reg

/-- `dir_handle_advance` on a handle that reads the native directory `dir`. -/
def dirHandleAdvance (reg : Registry) (dir : Nat) (cursor : Option Nat)
    : Option Nat × Registry :=
  match cursor with
  | none => (none, reg)
  | some current =>
      let next := reg.nextOf dir current
      (next, direntUnref (dirHandleStart reg next) current)

def dirClose (reg : Registry) (cursor : Option Nat) : Registry :=
  match cursor with
  | some entry => direntUnref reg entry
  | none => reg

/-- `mount_attach` over a native directory. -/
def mountAttach (reg : Registry) (mountpoint : Nat) : Except Failure Unit × Registry :=
  if mountpoint ∈ reg.mountpoints then (.error .minusOne, reg)
  else if reg.isDeleted mountpoint then (.error .minusOne, reg)
  else if REG_MAX_MOUNTS ≤ reg.mountpoints.length then (.error .minusOne, reg)
  else
    (.ok (), inodeRef { reg with mountpoints := mountpoint :: reg.mountpoints } mountpoint)

/-- `mount_detach` of the mount over a native directory. -/
def mountDetach (reg : Registry) (mountpoint : Nat) (inUse : Bool)
    : Except Failure Unit × Registry :=
  if mountpoint ∉ reg.mountpoints then (.error .minusOne, reg)
  else if inUse then (.error .minusOne, reg)
  else
    (.ok (),
      inodeUnref { reg with mountpoints := reg.mountpoints.erase mountpoint } mountpoint)

def Registry.firstEntry (reg : Registry) (inode : Nat) : Option Nat :=
  if reg.isDir inode then (reg.inodes.get inode).bind (fun node => node.children.head?)
  else none

-- Events

inductive Event where
  | mkdir (start : Nat) (path : Path) (room : CreateRoom)
  | add (path : Path) (type : InodeType) (impl : Option Nat) (ops : Option HandleOps)
      (room : CreateRoom)
  | link (target dir : Nat) (name : Name) (room : LinkRoom)
  | unlink (dir : Nat) (name : Name)
  | rename (oldDir : Nat) (oldName : Name) (newDir : Nat) (newName : Name)
      (room : LinkRoom)
  | startTask (inode : Nat)
  | endTask (place : Nat)
  | chdir (place inode : Nat)
  | open (inode : Nat)
  | readdir (place : Nat)
  | close (place : Nat)
  | shareStream (inode : Nat)
  | dropStream (place : Nat)
  | mount (mountpoint : Nat)
  | unmount (mountpoint : Nat) (inUse : Bool)

/-- Inodes the caller passes were resolved: they exist. -/
def Event.Admissible (reg : Registry) : Event → Prop
  | .link target _ _ _ => ∃ node, reg.inodes.get target = some node
  | .startTask inode => ∃ node, reg.inodes.get inode = some node
  | .chdir _ inode => ∃ node, reg.inodes.get inode = some node
  | .open inode => ∃ node, reg.inodes.get inode = some node
  | .shareStream inode => ∃ node, reg.inodes.get inode = some node
  | .mount mountpoint => ∃ node, reg.inodes.get mountpoint = some node
  | _ => True

def Namespace.step (space : Namespace) : Event → Namespace
  | .mkdir start path room =>
      { space with reg := (registryMkdirAt space.reg start path room).2 }
  | .add path type impl ops room =>
      { space with reg := (registryAdd space.reg path type impl ops room).2 }
  | .link target dir name room =>
      { space with reg := (registryLink space.reg target dir name room).2 }
  | .unlink dir name => { space with reg := (registryUnlink space.reg dir name).2 }
  | .rename oldDir oldName newDir newName room =>
      { space with reg := (registryRename space.reg oldDir oldName newDir newName room).2 }
  | .startTask inode =>
      { space with reg := inodeRef space.reg inode, cwds := space.cwds ++ [inode] }
  | .endTask place =>
      match space.cwds[place]? with
      | none => space
      | some old =>
          { space with reg := inodeUnref space.reg old, cwds := space.cwds.eraseIdx place }
  | .chdir place inode =>
      match space.cwds[place]? with
      | none => space
      | some old =>
          { space with
            reg := inodeUnref (inodeRef space.reg inode) old
            cwds := space.cwds.set place inode }
  | .open inode =>
      let head := space.reg.firstEntry inode
      { space with
        reg := inodeRef (dirHandleStart space.reg head) inode
        handles := space.handles ++ [⟨inode, head⟩] }
  | .readdir place =>
      match space.handles[place]? with
      | none => space
      | some handle =>
          let (cursor, reg) := dirHandleAdvance space.reg handle.inode handle.cursor
          { space with reg, handles := space.handles.set place ⟨handle.inode, cursor⟩ }
  | .close place =>
      match space.handles[place]? with
      | none => space
      | some handle =>
          { space with
            reg := inodeUnref (dirClose space.reg handle.cursor) handle.inode
            handles := space.handles.eraseIdx place }
  | .shareStream inode =>
      { space with reg := inodeRef space.reg inode, streams := space.streams ++ [inode] }
  | .dropStream place =>
      match space.streams[place]? with
      | none => space
      | some old =>
          { space with
            reg := inodeUnref space.reg old
            streams := space.streams.eraseIdx place }
  | .mount mountpoint => { space with reg := (mountAttach space.reg mountpoint).2 }
  | .unmount mountpoint inUse =>
      { space with reg := (mountDetach space.reg mountpoint inUse).2 }

-- The invariant

/-- Who refers to inodes from outside the tree; the root belongs to the registry. -/
def Namespace.holders (space : Namespace) : List Nat :=
  space.reg.root ::
    (space.reg.mountpoints ++ (space.cwds ++ (space.streams
      ++ space.handles.map OpenHandle.inode)))

def Namespace.cursors (space : Namespace) : List Nat :=
  space.handles.filterMap OpenHandle.cursor

/-- A cursor whose entry is still on a list is on the list of the directory it reads. -/
def Registry.Reads (reg : Registry) (handle : OpenHandle) : Prop :=
  ∀ entry, handle.cursor = some entry
  → ∀ dir node, reg.inodes.get dir = some node → entry ∈ node.children → dir = handle.inode

structure Namespace.Good (space : Namespace) : Prop where
  counts
    : Counts space.reg [] (fun inode => space.holders.count inode)
        (fun entry => space.cursors.count entry)
  tree : Tree space.reg
  reads : ∀ handle ∈ space.handles, space.reg.Reads handle

section Readers

theorem cursors_le {reg : Registry} {dir entry : Nat} {node : Inode}
    (here : reg.inodes.get dir = some node) (member : entry ∈ node.children)
    (handles : List OpenHandle) (reads : ∀ handle ∈ handles, reg.Reads handle)
    : (handles.filterMap OpenHandle.cursor).count entry
      ≤ (handles.map OpenHandle.inode).count dir := by
  induction handles with
  | nil => simp
  | cons handle rest ih =>
      have later := ih (fun other inRest => reads other (List.mem_cons_of_mem _ inRest))
      have first := reads handle (by simp) entry
      obtain ⟨inode, cursor⟩ := handle
      cases cursor with
      | none =>
          simp only [List.filterMap_cons, List.map_cons, List.count_cons]
          omega
      | some current =>
          simp only [List.filterMap_cons, List.map_cons, List.count_cons]
          by_cases same : current = entry
          · have atDir : inode = dir := (first (by rw [same]) dir node here member).symm
            simp only [same, atDir, beq_self_eq_true, if_true]
            omega
          · simp only [beq_iff_eq, same, if_false]
            omega

theorem Namespace.readersHold (space : Namespace)
    (reads : ∀ handle ∈ space.handles, space.reg.Reads handle)
    : ReadersHold space.reg [] (fun inode => space.holders.count inode)
        (fun entry => space.cursors.count entry) := by
  intro dir _ node here entry member
  have few := cursors_le here member space.handles reads
  simp only [Namespace.holders, Namespace.cursors, List.count_cons, List.count_append]
  omega

end Readers

theorem Namespace.rootHeld (space : Namespace) : 0 < space.holders.count space.reg.root := by
  simp [Namespace.holders]

variable {space : Namespace} {handle : OpenHandle}

theorem Namespace.Good.sound (good : space.Good)
    : Sound space.reg (fun inode => space.holders.count inode)
        (fun entry => space.cursors.count entry) :=
  ⟨good.counts, good.tree, space.readersHold good.reads, space.rootHeld⟩

theorem Follows.reads {reg changed : Registry} (follows : Follows reg changed)
    (reads : reg.Reads handle)
    (old : ∀ entry, handle.cursor = some entry → entry < reg.dirents.next)
    : changed.Reads handle := by
  intro entry isCursor dir node here member
  obtain ⟨was, there, inWas⟩ := follows.lists dir node here entry member (old entry isCursor)
  exact reads entry isCursor dir was there inWas

theorem Namespace.Good.old (good : space.Good) (member : handle ∈ space.handles) {entry : Nat}
    (isCursor : handle.cursor = some entry)
    : entry < space.reg.dirents.next := by
  have pinned : 0 < space.cursors.count entry := by
    apply List.count_pos_iff.mpr
    exact List.mem_filterMap.mpr ⟨handle, member, isCursor⟩
  obtain ⟨found, present⟩ := good.counts.pinned entry pinned
  exact Arena.lt_next present

theorem Namespace.Good.tree_step {after : Registry} (good : space.Good)
    (sound : Sound after (fun inode => space.holders.count inode)
      (fun entry => space.cursors.count entry))
    (follows : Follows space.reg after)
    : Namespace.Good { space with reg := after } := by
  have sameHolders : ({ space with reg := after } : Namespace).holders = space.holders := by
    simp only [Namespace.holders, follows.sameRoot, follows.sameMounts]
  constructor
  · rw [sameHolders]
    exact sound.counts
  · exact sound.tree
  · intro handle member
    exact follows.reads (good.reads handle member) (fun _ => good.old member)

-- Taking and giving up references

theorem Within.direntRef (reg : Registry) (entry : Nat) : Within reg (direntRef reg entry) := by
  refine ⟨fun inode node present => ⟨node, present, rfl, rfl, rfl⟩, ?_, rfl⟩
  intro other contents present
  obtain ⟨was, there, rfl⟩ := Arena.get_modify_eq_some present
  refine ⟨was, there, ?_⟩
  split
  · split
    · exact ⟨rfl, rfl⟩
    · exact ⟨rfl, rfl⟩
  · exact ⟨rfl, rfl⟩

theorem Within.dirHandleStart (reg : Registry) (head : Option Nat)
    : Within reg (dirHandleStart reg head) := by
  cases head with
  | none => exact ⟨fun _ node present => ⟨node, present, rfl, rfl, rfl⟩,
      fun _ found present => ⟨found, present, rfl, rfl⟩, rfl⟩
  | some entry => exact Within.direntRef reg entry

/-- In the middle of an event, when the readers of an entry may not hold its directory. -/
structure Steady (reg : Registry) (holds pins : Nat → Nat) : Prop where
  counts : Counts reg [] holds pins
  tree : Tree reg
  rootHeld : 0 < holds reg.root

section Steady

variable {reg : Registry} {holds pins : Nat → Nat}

theorem Steady.inodeRef {inode : Nat} {node : Inode} (steady : Steady reg holds pins)
    (here : reg.inodes.get inode = some node) (below : node.refcount < INT_MAX)
    : Steady (inodeRef reg inode) (plus holds [inode]) pins := by
  have counts := steady.counts.inodeRef here (by simp) below
  have rootHeld : 0 < plus holds [inode] reg.root := Nat.add_pos_left steady.rootHeld _
  exact ⟨counts, steady.tree.within (Within.inodeRef reg inode) counts rootHeld, rootHeld⟩

theorem Steady.direntRef {entry : Nat} {found : Dirent} (steady : Steady reg holds pins)
    (here : reg.dirents.get entry = some found) (below : found.refcount < UINT16_MAX)
    : Steady (direntRef reg entry) holds (plus pins [entry]) := by
  have counts := steady.counts.direntRef here below
  exact ⟨counts, steady.tree.within (Within.direntRef reg entry) counts steady.rootHeld,
    steady.rootHeld⟩

theorem Steady.inodeUnref {inode : Nat} (steady : Steady reg (plus holds [inode]) pins)
    (readers : ReadersHold reg [] holds pins) (rootHeld : 0 < holds reg.root)
    : Steady (inodeUnref reg inode) holds pins ∧ Shrinks [] reg (inodeUnref reg inode) := by
  obtain ⟨counts, shrinks⟩ := steady.counts.inodeUnref readers
  refine ⟨⟨counts, steady.tree.within shrinks.within counts rootHeld, ?_⟩, shrinks⟩
  rw [shrinks.sameRoot]
  exact rootHeld

theorem Steady.direntUnref {entry : Nat} (steady : Steady reg holds (plus pins [entry]))
    (readers : ReadersHold reg [] holds pins)
    : Steady (direntUnref reg entry) holds pins ∧ Shrinks [] reg (direntUnref reg entry) := by
  obtain ⟨counts, shrinks⟩ := steady.counts.direntUnref readers
  refine ⟨⟨counts, steady.tree.within shrinks.within counts steady.rootHeld, ?_⟩, shrinks⟩
  rw [shrinks.sameRoot]
  exact steady.rootHeld

end Steady

theorem Steady.congr {reg : Registry} {holds pins holds' pins' : Nat → Nat}
    (steady : Steady reg holds pins) (sameHolds : ∀ inode, holds' inode = holds inode)
    (samePins : ∀ entry, pins' entry = pins entry)
    : Steady reg holds' pins' := by
  obtain rfl : holds' = holds := funext sameHolds
  obtain rfl : pins' = pins := funext samePins
  exact steady

theorem follows_inodeRef (reg : Registry) (inode : Nat) : Follows reg (inodeRef reg inode) := by
  apply Follows.modifyInode
  intro node entry member
  split at member
  · exact member
  · exact member

-- Events

section Events

variable {space : Namespace}

theorem Namespace.Good.steady (good : space.Good)
    : Steady space.reg (fun inode => space.holders.count inode)
        (fun entry => space.cursors.count entry) :=
  ⟨good.counts, good.tree, space.rootHeld⟩

theorem Namespace.Good.of_steady (before : Registry)
    (steady : Steady space.reg (fun inode => space.holders.count inode)
      (fun entry => space.cursors.count entry))
    (follows : Follows before space.reg)
    (sameNext : space.reg.dirents.next = before.dirents.next)
    (reads : ∀ handle ∈ space.handles, before.Reads handle)
    : space.Good := by
  refine ⟨steady.counts, steady.tree, fun handle member => ?_⟩
  apply follows.reads (reads handle member)
  intro entry isCursor
  have pinned : 0 < space.cursors.count entry := by
    apply List.count_pos_iff.mpr
    exact List.mem_filterMap.mpr ⟨handle, member, isCursor⟩
  obtain ⟨found, present⟩ := steady.counts.pinned entry pinned
  rw [← sameNext]
  exact Arena.lt_next present

theorem holders_reg {after : Registry} (sameRoot : after.root = space.reg.root)
    (sameMounts : after.mountpoints = space.reg.mountpoints)
    : ({ space with reg := after } : Namespace).holders = space.holders := by
  simp only [Namespace.holders, sameRoot, sameMounts]

variable {inode place entry : Nat} {node : Inode} {reg : Registry} {holds pins : Nat → Nat}
    {handles : List OpenHandle}

theorem Namespace.Good.gain (middle : Namespace) (holds : Nat → Nat)
    (steady : Steady middle.reg holds (fun entry => middle.cursors.count entry))
    (here : middle.reg.inodes.get inode = some node) (below : node.refcount < INT_MAX)
    (more : ∀ other, middle.holders.count other = plus holds [inode] other)
    (reads : ∀ handle ∈ middle.handles, middle.reg.Reads handle)
    : Namespace.Good { middle with reg := inodeRef middle.reg inode } := by
  refine Namespace.Good.of_steady middle.reg ?_ (follows_inodeRef middle.reg inode) rfl reads
  exact (steady.inodeRef here below).congr more (fun _ => rfl)

theorem Namespace.Good.lose (middle : Namespace)
    (steady : Steady middle.reg (plus (fun other => middle.holders.count other) [inode])
      (fun entry => middle.cursors.count entry))
    (reads : ∀ handle ∈ middle.handles, middle.reg.Reads handle)
    : Namespace.Good { middle with reg := inodeUnref middle.reg inode } := by
  obtain ⟨released, shrinks⟩ :=
    steady.inodeUnref (middle.readersHold reads) middle.rootHeld
  refine Namespace.Good.of_steady middle.reg ?_ shrinks.follows shrinks.nextEntry reads
  rw [holders_reg shrinks.sameRoot shrinks.sameMounts]
  exact released

theorem Steady.remount (steady : Steady reg holds pins) (mountpoints : List Nat)
    : Steady { reg with mountpoints } holds pins := by
  have counts : Counts { reg with mountpoints } [] holds pins := steady.counts.congr rfl rfl
  refine ⟨counts, steady.tree.within ?_ counts steady.rootHeld, steady.rootHeld⟩
  exact ⟨fun _ node present => ⟨node, present, rfl, rfl, rfl⟩,
    fun _ found present => ⟨found, present, rfl, rfl⟩, rfl⟩

theorem Namespace.Good.startTask (good : space.Good) (roomy : space.reg.Roomy)
    (here : space.reg.inodes.get inode = some node)
    : (space.step (.startTask inode)).Good := by
  refine Namespace.Good.gain { space with cwds := space.cwds ++ [inode] } _ good.steady here
    (roomy.1 inode node here) ?_ good.reads
  intro other
  simp only [Namespace.holders, plus, List.count_cons, List.count_append, List.count_nil]
  omega

theorem Namespace.Good.shareStream (good : space.Good) (roomy : space.reg.Roomy)
    (here : space.reg.inodes.get inode = some node)
    : (space.step (.shareStream inode)).Good := by
  refine Namespace.Good.gain { space with streams := space.streams ++ [inode] } _ good.steady here
    (roomy.1 inode node here) ?_ good.reads
  intro other
  simp only [Namespace.holders, plus, List.count_cons, List.count_append, List.count_nil]
  omega

theorem count_eraseIdx {places : List Nat} {old : Nat} (present : places[place]? = some old)
    (other : Nat)
    : places.count other = (places.eraseIdx place).count other + [old].count other := by
  obtain ⟨inside, rfl⟩ := List.getElem?_eq_some_iff.mp present
  have perm := (List.getElem_cons_eraseIdx_perm inside).count_eq other
  rw [← perm, List.count_cons, List.count_singleton]

theorem Namespace.Good.endTask (good : space.Good) : (space.step (.endTask place)).Good := by
  simp only [Namespace.step]
  cases present : space.cwds[place]? with
  | none => exact good
  | some old =>
      refine Namespace.Good.lose { space with cwds := space.cwds.eraseIdx place } ?_ good.reads
      refine good.steady.congr (fun other => ?_) (fun _ => rfl)
      have erased := count_eraseIdx present other
      simp only [Namespace.holders, plus, List.count_cons, List.count_append] at erased ⊢
      omega

theorem Namespace.Good.dropStream (good : space.Good) : (space.step (.dropStream place)).Good := by
  simp only [Namespace.step]
  cases present : space.streams[place]? with
  | none => exact good
  | some old =>
      refine Namespace.Good.lose { space with streams := space.streams.eraseIdx place } ?_
        good.reads
      refine good.steady.congr (fun other => ?_) (fun _ => rfl)
      have erased := count_eraseIdx present other
      simp only [Namespace.holders, plus, List.count_cons, List.count_append] at erased ⊢
      omega

theorem count_set {places : List Nat} {old : Nat} (present : places[place]? = some old)
    (new other : Nat)
    : places.count other + [new].count other
      = (places.set place new).count other + [old].count other := by
  obtain ⟨inside, rfl⟩ := List.getElem?_eq_some_iff.mp present
  have erased := (List.getElem_cons_eraseIdx_perm inside).count_eq other
  have replaced := (List.set_perm_cons_eraseIdx inside new).count_eq other
  simp only [List.count_cons] at erased replaced ⊢
  omega

theorem Namespace.Good.chdir (good : space.Good) (roomy : space.reg.Roomy)
    (here : space.reg.inodes.get inode = some node)
    : (space.step (.chdir place inode)).Good := by
  simp only [Namespace.step]
  cases present : space.cwds[place]? with
  | none => exact good
  | some old =>
      have reads (handle : OpenHandle) (member : handle ∈ space.handles)
          : (inodeRef space.reg inode).Reads handle :=
        (follows_inodeRef space.reg inode).reads (good.reads handle member)
          (fun _ => good.old member)
      refine Namespace.Good.lose
        { space with reg := inodeRef space.reg inode, cwds := space.cwds.set place inode } ?_ reads
      have steady := good.steady.inodeRef here (roomy.1 inode node here)
      refine steady.congr (fun other => ?_) (fun _ => rfl)
      have moved := count_set present inode other
      simp only [Namespace.holders, plus, List.count_cons, List.count_append] at moved ⊢
      have sameRoot : (inodeRef space.reg inode).root = space.reg.root := rfl
      have sameMounts : (inodeRef space.reg inode).mountpoints = space.reg.mountpoints := rfl
      rw [sameRoot, sameMounts]
      omega

theorem Registry.firstEntry_some (first : reg.firstEntry inode = some entry)
    : ∃ node, reg.inodes.get inode = some node ∧ entry ∈ node.children := by
  simp only [Registry.firstEntry] at first
  split at first
  · obtain ⟨node, here, head⟩ := Option.bind_eq_some_iff.mp first
    exact ⟨node, here, List.mem_of_head? head⟩
  · cases first

theorem Registry.nextOf_some {dir next : Nat} (found : reg.nextOf dir entry = some next)
    : ∃ node, reg.inodes.get dir = some node ∧ next ∈ node.children := by
  obtain ⟨node, here, head⟩ := Option.bind_eq_some_iff.mp found
  have inTail := List.mem_of_head? head
  exact ⟨node, here, (List.dropWhile_sublist _).mem (List.mem_of_mem_tail inTail)⟩

theorem Counts.reads (counts : Counts reg [] holds pins) (here : reg.inodes.get inode = some node)
    (member : entry ∈ node.children)
    : reg.Reads ⟨inode, some entry⟩ := by
  intro other same dir otherNode there memberToo
  obtain rfl : entry = other := Option.some.inj same
  exact counts.owner dir inode otherNode node entry there here memberToo member

theorem Steady.dirHandleStart {head : Option Nat} (steady : Steady reg holds pins)
    (roomy : reg.Roomy)
    (onList : ∀ entry, head = some entry → ∃ dir node, reg.inodes.get dir = some node
      ∧ entry ∈ node.children)
    : Steady (dirHandleStart reg head) holds (plus pins head.toList) := by
  cases head with
  | none =>
      rw [Option.toList_none, plus_nil]
      exact steady
  | some entry =>
      obtain ⟨dir, node, here, member⟩ := onList entry rfl
      obtain ⟨found, present⟩ := steady.counts.present entry ⟨dir, node, by simp, here, member⟩
      exact steady.direntRef present (roomy.2 entry found present)

theorem dirHandleStart_inodes (reg : Registry) (head : Option Nat)
    : (dirHandleStart reg head).inodes = reg.inodes := by
  cases head with
  | none => rfl
  | some entry => rfl

theorem follows_dirHandleStart (reg : Registry) (head : Option Nat)
    : Follows reg (dirHandleStart reg head) := by
  cases head with
  | none => exact Follows.refl reg
  | some entry => exact Follows.modifyDirent reg entry _

theorem Namespace.Good.open (good : space.Good) (roomy : space.reg.Roomy)
    (here : space.reg.inodes.get inode = some node)
    : (space.step (.open inode)).Good := by
  have onList (entry : Nat) (first : space.reg.firstEntry inode = some entry)
      : ∃ dir node, space.reg.inodes.get dir = some node ∧ entry ∈ node.children := by
    obtain ⟨node, there, member⟩ := Registry.firstEntry_some first
    exact ⟨inode, node, there, member⟩
  have follows := follows_dirHandleStart space.reg (space.reg.firstEntry inode)
  have started := good.steady.dirHandleStart roomy onList
  have hereToo
      : (dirHandleStart space.reg (space.reg.firstEntry inode)).inodes.get inode = some node := by
    rw [dirHandleStart_inodes]
    exact here
  refine Namespace.Good.gain
    { space with
      reg := dirHandleStart space.reg (space.reg.firstEntry inode)
      handles := space.handles ++ [⟨inode, space.reg.firstEntry inode⟩] }
    (fun other => space.holders.count other) ?_ hereToo (roomy.1 inode node here) ?_ ?_
  · refine started.congr (fun _ => rfl) (fun entry => ?_)
    simp only [Namespace.cursors, plus, List.filterMap_append, List.count_append]
    cases space.reg.firstEntry inode <;> rfl
  · intro other
    simp only [Namespace.holders, plus, List.count_cons, List.count_append, List.map_append,
      List.map_cons, List.map_nil, List.count_nil, follows.sameRoot, follows.sameMounts]
    omega
  · intro handle member
    rcases List.mem_append.mp member with was | new
    · exact follows.reads (good.reads handle was) (fun _ => good.old was)
    · obtain rfl := List.mem_singleton.mp new
      cases first : space.reg.firstEntry inode with
      | none =>
          intro entry same
          cases same
      | some entry =>
          obtain ⟨node, there, member⟩ := Registry.firstEntry_some first
          have startedCounts := started.counts
          rw [first] at startedCounts
          exact startedCounts.reads there member

theorem count_filterMap_eraseIdx (present : handles[place]? = some handle) (entry : Nat)
    : (handles.filterMap OpenHandle.cursor).count entry
      = ((handles.eraseIdx place).filterMap OpenHandle.cursor).count entry
        + handle.cursor.toList.count entry := by
  obtain ⟨inside, rfl⟩ := List.getElem?_eq_some_iff.mp present
  have perm := List.getElem_cons_eraseIdx_perm inside
  rw [← (perm.filterMap OpenHandle.cursor).count_eq entry, List.filterMap_cons]
  cases (handles[place]).cursor with
  | none => simp
  | some current => simp [List.count_cons]

theorem count_map_eraseIdx (present : handles[place]? = some handle) (inode : Nat)
    : (handles.map OpenHandle.inode).count inode
      = ((handles.eraseIdx place).map OpenHandle.inode).count inode
        + [handle.inode].count inode := by
  obtain ⟨inside, rfl⟩ := List.getElem?_eq_some_iff.mp present
  have perm := List.getElem_cons_eraseIdx_perm inside
  rw [← (perm.map OpenHandle.inode).count_eq inode, List.map_cons, List.count_cons,
    List.count_singleton]

theorem mem_set {changed : OpenHandle} (member : handle ∈ handles.set place changed)
    : handle ∈ handles ∨ handle = changed := by
  rcases List.mem_or_eq_of_mem_set member with was | new
  · exact Or.inl was
  · exact Or.inr new

/-- Giving up an entry, after which a handle of the same inode has another cursor. -/
theorem Namespace.Good.recursor {before : Registry} {current : Nat} {cursor : Option Nat}
    (good : space.Good) (present : space.handles[place]? = some handle)
    (isCurrent : handle.cursor = some current)
    (steady : Steady before (fun inode => space.holders.count inode)
      (plus (fun entry => space.cursors.count entry) cursor.toList))
    (follows : Follows space.reg before) (reads : before.Reads ⟨handle.inode, cursor⟩)
    : Namespace.Good
        { space with
          reg := direntUnref before current
          handles := space.handles.set place ⟨handle.inode, cursor⟩ }
      ∧ Shrinks [] before (direntUnref before current) := by
  obtain ⟨inside, atPlace⟩ := List.getElem?_eq_some_iff.mp present
  have replaced := List.set_perm_cons_eraseIdx inside ⟨handle.inode, cursor⟩
  have readsAll : ∀ other ∈ space.handles.set place ⟨handle.inode, cursor⟩,
      before.Reads other := by
    intro other member
    rcases mem_set member with was | rfl
    · exact follows.reads (good.reads other was) (fun _ => good.old was)
    · exact reads
  have sameHolders (inode : Nat)
      : ({ space with
            reg := before
            handles := space.handles.set place ⟨handle.inode, cursor⟩ } : Namespace).holders.count
          inode
        = space.holders.count inode := by
    have mapped := (replaced.map OpenHandle.inode).count_eq inode
    have erased := count_map_eraseIdx present inode
    simp only [Namespace.holders, List.count_cons, List.count_append, follows.sameRoot,
      follows.sameMounts, List.map_cons, List.count_nil] at mapped erased ⊢
    omega
  have sameCursors (entry : Nat)
      : plus (fun entry => space.cursors.count entry) cursor.toList entry
        = plus (fun entry =>
            ({ space with
                reg := before
                handles := space.handles.set place ⟨handle.inode, cursor⟩ }
              : Namespace).cursors.count entry) [current] entry := by
    have mapped := (replaced.filterMap OpenHandle.cursor).count_eq entry
    have erased := count_filterMap_eraseIdx present entry
    rw [isCurrent] at erased
    rw [List.filterMap_cons] at mapped
    simp only [Namespace.cursors, plus, Option.toList_some] at mapped erased ⊢
    cases cursor with
    | none =>
        simp only [Option.toList_none, List.count_nil] at mapped ⊢
        omega
    | some next =>
        simp only [Option.toList_some, List.count_cons, List.count_nil] at mapped erased ⊢
        omega
  have moved := steady.congr sameHolders (fun entry => (sameCursors entry).symm)
  obtain ⟨dropped, shrinks⟩ := moved.direntUnref (Namespace.readersHold
    { space with
      reg := before
      handles := space.handles.set place ⟨handle.inode, cursor⟩ } readsAll)
  refine ⟨Namespace.Good.of_steady before ?_ shrinks.follows shrinks.nextEntry readsAll, shrinks⟩
  refine dropped.congr (fun inode => ?_) (fun _ => rfl)
  simp only [Namespace.holders, shrinks.sameRoot, shrinks.sameMounts]

theorem Namespace.Good.readdir_within {place : Nat} (good : space.Good) (roomy : space.reg.Roomy)
    : (space.step (.readdir place)).Good
      ∧ Within space.reg (space.step (.readdir place)).reg := by
  have same : Within space.reg space.reg := Within.dirHandleStart space.reg none
  simp only [Namespace.step]
  cases present : space.handles[place]? with
  | none => exact ⟨good, same⟩
  | some handle =>
      obtain ⟨inode, cursor⟩ := handle
      cases cursor with
      | none =>
          obtain ⟨inside, atPlace⟩ := List.getElem?_eq_some_iff.mp present
          have kept : space.handles.set place ⟨inode, none⟩ = space.handles := by
            rw [← atPlace]
            exact List.set_getElem_self inside
          simp only [dirHandleAdvance, kept]
          exact ⟨good, same⟩
      | some current =>
          have onList (entry : Nat) (next : space.reg.nextOf inode current = some entry)
              : ∃ dir node, space.reg.inodes.get dir = some node ∧ entry ∈ node.children := by
            obtain ⟨node, there, member⟩ := Registry.nextOf_some next
            exact ⟨inode, node, there, member⟩
          have started := good.steady.dirHandleStart roomy onList
          have follows := follows_dirHandleStart space.reg (space.reg.nextOf inode current)
          have within := Within.dirHandleStart space.reg (space.reg.nextOf inode current)
          simp only [dirHandleAdvance]
          refine (good.recursor present rfl started follows ?_).imp_right
            (fun shrinks => within.trans shrinks.within)
          cases next : space.reg.nextOf inode current with
          | none =>
              intro entry same
              cases same
          | some entry =>
              obtain ⟨node, there, member⟩ := Registry.nextOf_some next
              have startedCounts := started.counts
              rw [next] at startedCounts
              exact startedCounts.reads there member

theorem Namespace.Good.readdir (good : space.Good) (roomy : space.reg.Roomy)
    : (space.step (.readdir place)).Good :=
  (good.readdir_within roomy).1

theorem Namespace.Good.dirClose (good : space.Good) (present : space.handles[place]? = some handle)
    : Namespace.Good
        { space with
          reg := Native.dirClose space.reg handle.cursor
          handles := space.handles.set place ⟨handle.inode, none⟩ } := by
  obtain ⟨inode, cursor⟩ := handle
  cases cursor with
  | none =>
      obtain ⟨inside, atPlace⟩ := List.getElem?_eq_some_iff.mp present
      have same : space.handles.set place ⟨inode, none⟩ = space.handles := by
        rw [← atPlace]
        exact List.set_getElem_self inside
      simp only [Native.dirClose, same]
      exact good
  | some current =>
      refine (good.recursor present rfl ?_ (Follows.refl space.reg) ?_).1
      · rw [Option.toList_none, plus_nil]
        exact good.steady
      · intro entry same
        cases same

theorem Namespace.Good.close (good : space.Good) : (space.step (.close place)).Good := by
  simp only [Namespace.step]
  cases present : space.handles[place]? with
  | none => exact good
  | some handle =>
      obtain ⟨inside, atPlace⟩ := List.getElem?_eq_some_iff.mp present
      have closed := good.dirClose present
      simp only []
      generalize Native.dirClose space.reg handle.cursor = before at closed ⊢
      have presentClosed
          : (space.handles.set place ⟨handle.inode, none⟩)[place]?
            = some ⟨handle.inode, none⟩ := by
        rw [List.getElem?_set_self inside]
      have sameRest
          : (space.handles.set place ⟨handle.inode, none⟩).eraseIdx place
            = space.handles.eraseIdx place := List.eraseIdx_set_eq
      refine Namespace.Good.lose
        { space with reg := before, handles := space.handles.eraseIdx place } ?_ ?_
      · refine closed.steady.congr (fun other => ?_) (fun entry => ?_)
        · have erased := count_map_eraseIdx presentClosed other
          rw [sameRest] at erased
          simp only [Namespace.holders, plus, List.count_cons, List.count_append] at erased ⊢
          omega
        · have erased := count_filterMap_eraseIdx presentClosed entry
          rw [sameRest] at erased
          simp only [Namespace.cursors, Option.toList_none, List.count_nil] at erased ⊢
          omega
      · intro other member
        apply closed.reads other
        rw [← sameRest] at member
        exact List.mem_of_mem_eraseIdx member

theorem Namespace.Good.mount {mountpoint : Nat} (good : space.Good) (roomy : space.reg.Roomy)
    (here : space.reg.inodes.get mountpoint = some node)
    : (space.step (.mount mountpoint)).Good := by
  simp only [Namespace.step, mountAttach]
  split
  · exact good
  split
  · exact good
  split
  · exact good
  refine Namespace.Good.gain
    { space with
      reg := { space.reg with mountpoints := mountpoint :: space.reg.mountpoints } }
    _ (good.steady.remount _) here (roomy.1 mountpoint node here) ?_ good.reads
  intro other
  simp only [Namespace.holders, plus, List.count_cons, List.count_append, List.count_nil]
  omega

theorem Namespace.Good.unmount {mountpoint : Nat} {inUse : Bool} (good : space.Good)
    : (space.step (.unmount mountpoint inUse)).Good := by
  simp only [Namespace.step, mountDetach]
  split
  · exact good
  rename_i covered
  split
  · exact good
  refine Namespace.Good.lose
    { space with
      reg := { space.reg with mountpoints := space.reg.mountpoints.erase mountpoint } }
    ?_ good.reads
  refine (good.steady.remount _).congr (fun other => ?_) (fun _ => rfl)
  have erased := (List.perm_cons_erase (not_not.mp covered)).count_eq other
  simp only [Namespace.holders, plus, List.count_cons, List.count_append, List.count_nil]
    at erased ⊢
  omega

/-- Every event below the caps keeps the invariant. -/
theorem Namespace.Good.step {event : Event} (good : space.Good) (roomy : space.reg.Roomy)
    (admissible : event.Admissible space.reg)
    : (space.step event).Good := by
  cases event with
  | mkdir start path room =>
      exact good.tree_step (good.sound.mkdirAt roomy).1 (good.sound.mkdirAt roomy).2
  | add path type impl ops room =>
      exact good.tree_step (good.sound.add roomy).1 (good.sound.add roomy).2
  | link target dir name room =>
      obtain ⟨node, here⟩ := admissible
      exact good.tree_step (good.sound.link roomy here).1 (good.sound.link roomy here).2
  | unlink dir name =>
      exact good.tree_step (good.sound.unlink).1 (good.sound.unlink).2
  | rename oldDir oldName newDir newName room =>
      exact good.tree_step (good.sound.rename roomy).1 (good.sound.rename roomy).2
  | startTask inode =>
      obtain ⟨node, here⟩ := admissible
      exact good.startTask roomy here
  | endTask place => exact good.endTask
  | chdir place inode =>
      obtain ⟨node, here⟩ := admissible
      exact good.chdir roomy here
  | «open» inode =>
      obtain ⟨node, here⟩ := admissible
      exact good.open roomy here
  | readdir place => exact good.readdir roomy
  | close place => exact good.close
  | shareStream inode =>
      obtain ⟨node, here⟩ := admissible
      exact good.shareStream roomy here
  | dropStream place => exact good.dropStream
  | mount mountpoint =>
      obtain ⟨node, here⟩ := admissible
      exact good.mount roomy here
  | unmount mountpoint inUse => exact good.unmount

end Events

end Panuti.Native
