import Panuti.Library.ListWalk
import Panuti.Mounts.Caches
import Panuti.Native.Replaces

/-! READDIR walks of a native directory from which entries are unlinked on the way. The handle
keeps the entry it reads next, but an unlink of that entry takes its link to the next one away.
-/

namespace Panuti.Native

open Panuti.Kernel (HandleOps InodeType)
open Panuti.Mounts (Sheds)
open ListWalk (behind)

-- READDIR

def DIRENT_NAME_MAX : Nat := 256

structure DirentEntry where
  name : Name
  type : InodeType
  size : Nat
deriving Repr, DecidableEq

/-- What READDIR copies out of an entry of a native directory. -/
def Registry.entryOut (reg : Registry) (entry : Nat) : Option DirentEntry :=
  (reg.dirents.get entry).bind (fun found =>
    (reg.inodes.get found.inode).map (fun node =>
      ⟨found.name.take (DIRENT_NAME_MAX - 1), node.type, 0⟩))

/-- `next_inode` of the open handle at a place. -/
def Namespace.cursorAt (space : Namespace) (place : Nat) : Option Nat :=
  (space.handles[place]?).bind OpenHandle.cursor

/-- `syshandler_readdir` on a handle of a native directory. At its end nothing is written. -/
def syshandlerReaddir (space : Namespace) (place : Nat) : Option DirentEntry × Namespace :=
  ((space.cursorAt place).bind space.reg.entryOut, space.step (.readdir place))

-- Walks

def Registry.childrenOf (reg : Registry) (dir : Nat) : List Nat :=
  ((reg.inodes.get dir).map Inode.children).getD []

structure Delivered where
  entry : Nat
  out : DirentEntry

/-- A walk of an open directory: what it has delivered, and the entries that stood behind the
cursor's one when that was unlinked.
-/
structure DirWalk where
  space : Namespace
  delivered : List Delivered
  cutOff : List Nat

inductive WalkCall where
  | readdir
  | unlink (name : Name)
deriving Repr, DecidableEq

/-- A call of READDIR on the handle at a place, or an unlink in the directory it reads. -/
def DirWalk.call (dir place : Nat) (walk : DirWalk) : WalkCall → DirWalk
  | .readdir =>
      let (out, space) := syshandlerReaddir walk.space place
      { walk with
        space
        delivered :=
          match walk.space.cursorAt place, out with
          | some entry, some out => walk.delivered ++ [⟨entry, out⟩]
          | _, _ => walk.delivered }
  | .unlink name =>
      { walk with
        space := walk.space.step (.unlink dir name)
        cutOff :=
          match walk.space.cursorAt place, registryUnlink walk.space.reg dir name with
          | some entry, (.ok _, _) =>
              if registryFinddirent walk.space.reg dir name = some entry then
                walk.cutOff ++ behind (walk.space.reg.childrenOf dir) entry
              else walk.cutOff
          | _, _ => walk.cutOff }

def DirWalk.calls (dir place : Nat) (walk : DirWalk) (made : List WalkCall) : DirWalk :=
  made.foldl (DirWalk.call dir place) walk

/-- The walk that starts where a directory is opened. -/
def opened (space : Namespace) (dir : Nat) : DirWalk := ⟨space.step (.open dir), [], []⟩

/-- What the directory's list and the handle say, as a walk along a list. -/
def DirWalk.view (dir place : Nat) (walk : DirWalk) : ListWalk.Walk Nat :=
  ⟨walk.space.reg.childrenOf dir, walk.space.cursorAt place, walk.delivered.map Delivered.entry,
    walk.cutOff⟩

/-- What READDIR promises of a walk that has come from its start by some calls: it ends, delivers
no entry twice and every entry as it was found, and once it has ended it has delivered every entry
that was there from its start on.
-/
structure DirWalk.Promised (dir place : Nat) (walk start : DirWalk) (made : List WalkCall)
    : Prop where
  ends
    : (start.space.reg.childrenOf dir).length ≤ made.count .readdir
      → walk.space.cursorAt place = none
  once : (walk.delivered.map Delivered.entry).Nodup
  told : ∀ one ∈ walk.delivered, start.space.reg.entryOut one.entry = some one.out
  complete
    : walk.space.cursorAt place = none
      → ∀ entry ∈ start.space.reg.childrenOf dir, entry ∈ walk.space.reg.childrenOf dir
      → (walk.delivered.map Delivered.entry).count entry = 1

/-- Where the walk has ended, every entry that was behind the cursor when the cursor's own entry
was unlinked was unlinked, too.
-/
def DirWalk.Spared (dir place : Nat) (walk : DirWalk) : Prop :=
  walk.space.cursorAt place = none → ∀ entry ∈ walk.cutOff, entry ∉ walk.space.reg.childrenOf dir

-- Lists and cursors

section Facts

variable {reg after : Registry} {dir : Nat}

theorem Registry.childrenOf_of_get {node : Inode} (here : reg.inodes.get dir = some node)
    : reg.childrenOf dir = node.children := by
  rw [Registry.childrenOf, here, Option.map_some, Option.getD_some]

theorem Registry.nextOf_eq (reg : Registry) (dir entry : Nat)
    : reg.nextOf dir entry = (behind (reg.childrenOf dir) entry).head? := by
  unfold Registry.nextOf Registry.childrenOf
  cases reg.inodes.get dir with
  | none => rfl
  | some node => rfl

theorem Registry.firstEntry_eq (isDir : reg.isDir dir = true)
    : reg.firstEntry dir = (reg.childrenOf dir).head? := by
  rw [Registry.firstEntry, if_pos isDir, Registry.childrenOf]
  cases reg.inodes.get dir with
  | none => rfl
  | some node => rfl

theorem entryOut_of_sheds {entry : Nat} {out : DirentEntry} (sheds : Sheds reg after)
    (written : after.entryOut entry = some out)
    : reg.entryOut entry = some out := by
  obtain ⟨found, present, mapped⟩ := Option.bind_eq_some_iff.mp written
  obtain ⟨node, here, rfl⟩ := Option.map_eq_some_iff.mp mapped
  obtain ⟨was, there, name, inode⟩ := sheds.entry entry found present
  obtain ⟨before, hereToo, type, _⟩ := sheds.inode found.inode node here
  rw [Registry.entryOut, there, Option.bind_some, ← inode, hereToo, Option.map_some, name, type]

theorem Counts.entryOut {holds pins : Nat → Nat} {entry : Nat}
    (counts : Counts reg [] holds pins) (pinned : 0 < pins entry)
    : ∃ out, reg.entryOut entry = some out := by
  obtain ⟨found, present⟩ := counts.pinned entry pinned
  obtain ⟨node, here⟩ := counts.target entry found present
  exact ⟨_, by rw [Registry.entryOut, present, Option.bind_some, here, Option.map_some]⟩

theorem Within.childrenOf {node : Inode} (within : Within reg after)
    (stays : after.inodes.get dir = some node)
    : after.childrenOf dir = reg.childrenOf dir := by
  obtain ⟨was, there, _, _, children⟩ := within.inode dir node stays
  rw [Registry.childrenOf_of_get stays, Registry.childrenOf_of_get there, children]

end Facts

-- The invariant

/-- The namespace is sound, the handle still reads the directory, everything there was there at the
start, and the view is sound.
-/
structure DirWalk.Good (dir place : Nat) (walk start : DirWalk) : Prop where
  good : walk.space.Good
  handle : ∃ cursor, walk.space.handles[place]? = some ⟨dir, cursor⟩
  isDir : walk.space.reg.isDir dir = true
  sheds : Sheds start.space.reg walk.space.reg
  sound : (walk.view dir place).Sound (start.space.reg.childrenOf dir)
  told : ∀ one ∈ walk.delivered, start.space.reg.entryOut one.entry = some one.out

namespace DirWalk

variable {dir place : Nat} {start walk : DirWalk}

theorem pinned {entry : Nat} (here : walk.space.cursorAt place = some entry)
    : 0 < walk.space.cursors.count entry := by
  obtain ⟨handle, atPlace, cursor⟩ := Option.bind_eq_some_iff.mp here
  apply List.count_pos_iff.mpr
  exact List.mem_filterMap.mpr ⟨handle, List.mem_of_getElem? atPlace, cursor⟩

theorem held {cursor : Option Nat} (good : walk.space.Good)
    (handle : walk.space.handles[place]? = some ⟨dir, cursor⟩)
    : ∃ node, walk.space.reg.inodes.get dir = some node := by
  refine (good.counts.held dir ?_).2
  apply List.count_pos_iff.mpr
  simp only [Namespace.holders, List.mem_cons, List.mem_append]
  exact Or.inr (Or.inr (Or.inr (Or.inr
    (List.mem_map.mpr ⟨_, List.mem_of_getElem? handle, rfl⟩))))

theorem readdir_handles {cursor : Option Nat}
    (handle : walk.space.handles[place]? = some ⟨dir, cursor⟩)
    : (walk.space.step (.readdir place)).handles[place]?
      = some ⟨dir, cursor.bind (walk.space.reg.nextOf dir)⟩ := by
  obtain ⟨inside, _⟩ := List.getElem?_eq_some_iff.mp handle
  simp only [Namespace.step, handle]
  rw [List.getElem?_set_self inside]
  cases cursor with
  | none => rfl
  | some entry => rfl

theorem readdir_sheds (space : Namespace) (place : Nat)
    : Sheds space.reg (space.step (.readdir place)).reg := by
  simp only [Namespace.step]
  cases space.handles[place]? with
  | none => exact Sheds.refl _
  | some handle =>
      obtain ⟨inode, cursor⟩ := handle
      cases cursor with
      | none => exact Sheds.refl _
      | some current =>
          simp only [dirHandleAdvance]
          refine Mounts.Sheds.trans ?_ (Mounts.Sheds.direntUnref _ _)
          cases space.reg.nextOf inode current with
          | none => exact Sheds.refl _
          | some next => exact Mounts.Sheds.direntRef _ _

/-- A READDIR is an advance of the view. -/
theorem Good.readdir (good : walk.Good dir place start) (roomy : walk.space.reg.Roomy)
    : (walk.call dir place .readdir).Good dir place start
      ∧ (walk.call dir place .readdir).view dir place = (walk.view dir place).advance := by
  obtain ⟨cursor, handle⟩ := good.handle
  obtain ⟨after, within⟩ := @Namespace.Good.readdir_within _ place good.good roomy
  have handleAfter := readdir_handles handle
  have sheds := readdir_sheds walk.space place
  have follows (entry : Nat) : walk.space.reg.nextOf dir entry
      = (behind (walk.space.reg.childrenOf dir) entry).head? := walk.space.reg.nextOf_eq dir entry
  obtain ⟨node, stays⟩ := @held _ _ (walk.call dir place .readdir) _ after handleAfter
  have children : (walk.call dir place .readdir).space.reg.childrenOf dir
      = walk.space.reg.childrenOf dir := Within.childrenOf within stays
  have cursorAfter : (walk.call dir place .readdir).space.cursorAt place
      = cursor.bind (walk.space.reg.nextOf dir) := by
    rw [Namespace.cursorAt]
    exact (congrArg (fun handle => handle.bind OpenHandle.cursor) handleAfter).trans rfl
  have isDir : (walk.call dir place .readdir).space.reg.isDir dir = true := by
    obtain ⟨was, there, type, _⟩ := within.inode dir node stays
    rw [Registry.isDir_of_get stays, type, ← Registry.isDir_of_get there]
    exact good.isDir
  have here : walk.space.cursorAt place = cursor := by
    rw [Namespace.cursorAt, handle, Option.bind_some]
  cases cursor with
  | none =>
      have delivered : (walk.call dir place .readdir).delivered = walk.delivered := by
        simp [call, here]
      have view : (walk.call dir place .readdir).view dir place = (walk.view dir place).advance := by
        have stands : (walk.view dir place).advance = walk.view dir place := by
          simp [ListWalk.Walk.advance, DirWalk.view, here]
        rw [stands, DirWalk.view, DirWalk.view, children, cursorAfter, delivered, here]
        rfl
      refine ⟨⟨after, ⟨_, handleAfter⟩, isDir, good.sheds.trans sheds, ?_, ?_⟩, view⟩
      · rw [view]
        exact good.sound.advance
      · rw [delivered]
        exact good.told
  | some entry =>
      obtain ⟨out, written⟩ := Counts.entryOut good.good.counts (pinned here)
      have delivered
          : (walk.call dir place .readdir).delivered = walk.delivered ++ [⟨entry, out⟩] := by
        simp [call, syshandlerReaddir, here, written]
      have view : (walk.call dir place .readdir).view dir place = (walk.view dir place).advance := by
        have stands : (walk.view dir place).advance
            = ⟨walk.space.reg.childrenOf dir,
              (behind (walk.space.reg.childrenOf dir) entry).head?,
              walk.delivered.map Delivered.entry ++ [entry], walk.cutOff⟩ := by
          simp [ListWalk.Walk.advance, DirWalk.view, here]
        rw [stands, DirWalk.view, children, cursorAfter, delivered, Option.bind_some, follows,
          List.map_append]
        rfl
      refine ⟨⟨after, ⟨_, handleAfter⟩, isDir, good.sheds.trans sheds, ?_, ?_⟩, view⟩
      · rw [view]
        exact good.sound.advance
      · rw [delivered]
        intro one member
        rcases List.mem_append.mp member with was | now
        · exact good.told one was
        · obtain rfl := List.mem_singleton.mp now
          exact entryOut_of_sheds good.sheds written

/-- An unlink takes its entry from the view, if it takes one away. -/
theorem Good.unlink (good : walk.Good dir place start)
    (initialNodup : (start.space.reg.childrenOf dir).Nodup) (name : Name)
    : (walk.call dir place (.unlink name)).Good dir place start
      ∧ ((walk.call dir place (.unlink name)).view dir place = walk.view dir place
        ∨ ∃ entry, (walk.call dir place (.unlink name)).view dir place
            = (walk.view dir place).remove entry) := by
  obtain ⟨cursor, handle⟩ := good.handle
  have here : walk.space.cursorAt place = cursor := by
    rw [Namespace.cursorAt, handle, Option.bind_some]
  rcases registryUnlink_cases walk.space.reg dir name with
    ⟨_, failed⟩ | ⟨entry, found, checks, ran⟩
  · have same : walk.call dir place (.unlink name) = walk := by
      simp only [call, Namespace.step, failed]
      cases walk.space.cursorAt place <;> rfl
    rw [same]
    exact ⟨good, Or.inl rfl⟩
  · obtain ⟨isDir, live, search, has, named, plain, empty⟩ := checks
    have dropped := good.good.sound.drop_exactly isDir live has plain empty
    obtain ⟨kept, follows, _, _⟩ := good.good.sound.drop isDir has plain empty
    have after : (walk.call dir place (.unlink name)).space.Good := by
      simp only [call, Namespace.step, ran]
      exact good.good.tree_step kept follows
    have reg : (walk.call dir place (.unlink name)).space.reg
        = (registryUnlink walk.space.reg dir name).2 := rfl
    have sheds : Sheds walk.space.reg (walk.call dir place (.unlink name)).space.reg :=
      Mounts.Sheds.registryUnlink walk.space.reg dir name
    obtain ⟨node, here', member⟩ := has.1
    have notSelf := good.good.sound.tree.target_ne isDir has plain
    obtain ⟨refcount, stays, _⟩ := dropped.inodes dir notSelf.symm
    obtain ⟨now, there, nowChildren, nowType⟩
        : ∃ now, (walk.call dir place (.unlink name)).space.reg.inodes.get dir = some now
          ∧ now.children = node.children.erase entry
          ∧ now.type = node.type := by
      rw [reg, ran, stays, here', Option.map_some, if_pos rfl]
      exact ⟨_, rfl, rfl, rfl⟩
    have children : (walk.call dir place (.unlink name)).space.reg.childrenOf dir
        = (walk.space.reg.childrenOf dir).erase entry := by
      rw [Registry.childrenOf_of_get there, Registry.childrenOf_of_get here', nowChildren]
    have cutOff : (walk.call dir place (.unlink name)).cutOff
        = if walk.space.cursorAt place = some entry then
            walk.cutOff ++ behind (walk.space.reg.childrenOf dir) entry
          else walk.cutOff := by
      simp only [call, ran, search]
      cases walk.space.cursorAt place with
      | none => rfl
      | some current =>
          by_cases same : entry = current
          · simp [same]
          · simp [same, Ne.symm same]
    have view : (walk.call dir place (.unlink name)).view dir place
        = (walk.view dir place).remove entry := by
      rw [DirWalk.view, children, cutOff]
      rfl
    refine ⟨⟨after, ⟨cursor, handle⟩, ?_, good.sheds.trans sheds, ?_, good.told⟩,
      Or.inr ⟨entry, view⟩⟩
    · rw [Registry.isDir_of_get there, nowType, ← Registry.isDir_of_get here']
      exact isDir
    · rw [view]
      exact good.sound.remove initialNodup entry

theorem Good.calls (good : walk.Good dir place start)
    (nodup : (start.space.reg.childrenOf dir).Nodup) {advances : Nat}
    (paced : (walk.view dir place).Paced advances) (made : List WalkCall)
    (below : ∀ done, done <+: made → (walk.calls dir place done).space.reg.Roomy)
    : (walk.calls dir place made).Good dir place start
      ∧ ((walk.calls dir place made).view dir place).Paced (advances + made.count .readdir) := by
  induction made generalizing walk advances with
  | nil => exact ⟨good, paced⟩
  | cons call rest ih =>
      have later (done : List WalkCall) (before : done <+: rest)
          : (((walk.call dir place call).calls dir place done).space.reg).Roomy :=
        below (call :: done) ((List.prefix_cons_inj call).mpr before)
      cases call with
      | readdir =>
          obtain ⟨next, view⟩ := good.readdir (below [] List.nil_prefix)
          have pacedNext := paced.advance
          rw [← view] at pacedNext
          have result := ih next pacedNext later
          rw [List.count_cons_self, Nat.add_comm (rest.count .readdir), ← Nat.add_assoc]
          exact result
      | unlink name =>
          obtain ⟨next, view⟩ := good.unlink nodup name
          have pacedNext
              : ((walk.call dir place (.unlink name)).view dir place).Paced advances := by
            rcases view with same | ⟨entry, removed⟩
            · rw [same]
              exact paced
            · rw [removed]
              exact paced
          rw [List.count_cons_of_ne (by simp)]
          exact ih next pacedNext later

theorem Good.promised_iff (good : walk.Good dir place start)
    (nodup : (start.space.reg.childrenOf dir).Nodup) {made : List WalkCall}
    (paced : (walk.view dir place).Paced (made.count .readdir))
    : walk.Promised dir place start made ↔ walk.Spared dir place := by
  constructor
  · intro promised ended
    exact (good.sound.complete_iff nodup ended).mp (promised.complete ended)
  · intro spared
    exact ⟨good.sound.ends paced, good.sound.delivered_nodup nodup, good.told,
      fun ended => (good.sound.complete_iff nodup ended).mpr (spared ended)⟩

end DirWalk

-- Runs

theorem Namespace.Good.opened {space : Namespace} (good : space.Good) (roomy : space.reg.Roomy)
    {dir : Nat} (isDir : space.reg.isDir dir = true)
    : (opened space dir).Good dir space.handles.length (Native.opened space dir)
      ∧ ((Native.opened space dir).view dir space.handles.length).Paced 0
      ∧ ((Native.opened space dir).space.reg.childrenOf dir).Nodup := by
  obtain ⟨node, here, type⟩ := Registry.isDir_iff.mp isDir
  have started : (Native.opened space dir).space.Good := good.open roomy here
  have there : (Native.opened space dir).space.reg.inodes.get dir
      = some { node with refcount := node.refcount + 1 } := by
    have below := roomy.1 dir node here
    have refs : (inodeRef (dirHandleStart space.reg (space.reg.firstEntry dir)) dir).inodes.get dir
        = some { node with refcount := node.refcount + 1 } := by
      have inodes := dirHandleStart_inodes space.reg (space.reg.firstEntry dir)
      simp [inodeRef, Registry.modifyInode, inodes, here, below]
    exact refs
  have children : (Native.opened space dir).space.reg.childrenOf dir
      = space.reg.childrenOf dir := by
    rw [Registry.childrenOf_of_get there, Registry.childrenOf_of_get here]
  have handle : (Native.opened space dir).space.handles[space.handles.length]?
      = some ⟨dir, space.reg.firstEntry dir⟩ := List.getElem?_concat_length
  have cursor : (Native.opened space dir).space.cursorAt space.handles.length
      = ((Native.opened space dir).space.reg.childrenOf dir).head? := by
    rw [Namespace.cursorAt, handle, Option.bind_some, Registry.firstEntry_eq isDir, children]
  have view : (Native.opened space dir).view dir space.handles.length
      = ListWalk.start ((Native.opened space dir).space.reg.childrenOf dir) := by
    rw [DirWalk.view, cursor]
    rfl
  have nodup : ((Native.opened space dir).space.reg.childrenOf dir).Nodup := by
    rw [Registry.childrenOf_of_get there]
    exact good.counts.nodup dir node here
  refine ⟨⟨started, ⟨_, handle⟩, ?_, Mounts.Sheds.refl _, ?_, List.forall_mem_nil _⟩,
    Or.inr rfl, nodup⟩
  · rw [Registry.isDir_of_get there]
    exact decide_eq_true type
  · rw [view]
    exact .start nodup

/-- In every walk along a directory of a tree reached with no count at its cap, whatever is unlinked
on the way, READDIR keeps its promise exactly where nothing that stood behind an unlinked cursor
is left.
-/
theorem Run.dirWalk_iff {space : Namespace} (run : Run Registry.Roomy space)
    (roomy : space.reg.Roomy) {dir : Nat} (isDir : space.reg.isDir dir = true)
    (made : List WalkCall)
    (below
      : ∀ done, done <+: made
        → ((opened space dir).calls dir space.handles.length done).space.reg.Roomy)
    : ((opened space dir).calls dir space.handles.length made).Promised dir space.handles.length
        (opened space dir) made
      ↔ ((opened space dir).calls dir space.handles.length made).Spared dir
          space.handles.length := by
  obtain ⟨good, paced, nodup⟩ := run.good.opened roomy isDir
  obtain ⟨after, pacedAfter⟩ := good.calls nodup paced made below
  rw [Nat.zero_add] at pacedAfter
  exact after.promised_iff nodup pacedAfter

/-- A whole walk of the root, on which an entry is unlinked once it was read. -/
def wholeWalk : List WalkCall := [.readdir, .unlink ['b'], .readdir, .readdir, .readdir]

theorem dirWalk_small
    : ((opened twoDirectories 0).calls 0 0 wholeWalk).Promised 0 0 (opened twoDirectories 0)
        wholeWalk := by
  refine (Run.dirWalk_iff twoDirectories_run
    (roomy_of_all (by decide +kernel) (by decide +kernel)) (by decide +kernel) wholeWalk ?_).mpr ?_
  · intro done before
    have inodes
        : ∀ done ∈ wholeWalk.inits,
            (List.range ((opened twoDirectories 0).calls 0 0 done).space.reg.inodes.next).all
              (fun inode =>
                (((opened twoDirectories 0).calls 0 0 done).space.reg.inodes.get inode).all
                  (fun node => decide (node.refcount < INT_MAX))) = true := by
      decide +kernel
    have dirents
        : ∀ done ∈ wholeWalk.inits,
            (List.range ((opened twoDirectories 0).calls 0 0 done).space.reg.dirents.next).all
              (fun entry =>
                (((opened twoDirectories 0).calls 0 0 done).space.reg.dirents.get entry).all
                  (fun found => decide (found.refcount < UINT16_MAX))) = true := by
      decide +kernel
    have member := (List.mem_inits done wholeWalk).mpr before
    exact roomy_of_all (inodes done member) (dirents done member)
  · intro _ entry lost
    have nothing : ((opened twoDirectories 0).calls 0 0 wholeWalk).cutOff = [] := by decide +kernel
    rw [show twoDirectories.handles.length = 0 from rfl, nothing] at lost
    cases lost

/-- Where the entry under the cursor is unlinked, the rest is not delivered. -/
theorem dirWalk_cut
    : ¬((opened oneDirectory 0).calls 0 0 [.unlink ['a'], .readdir]).Promised 0 0
        (opened oneDirectory 0) [.unlink ['a'], .readdir] := by
  intro promised
  have once := promised.complete (by decide +kernel) 0 (by decide +kernel) (by decide +kernel)
  exact absurd once (by decide +kernel)

end Panuti.Native
