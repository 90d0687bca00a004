import Panuti.Native.Drops

/-! What `registry_rename` leaves when it succeeds and when it fails. The replaced entry is
detached and released before the new one is made, so a failure in between loses it.
-/

namespace Panuti.Native

open Panuti.Kernel (Errno HandleOps InodeType)

variable {reg : Registry} {holds pins : Nat → Nat}

-- Names and counts

/-- The inode that a name of a directory denotes, its `..` among the names. -/
def Registry.lookup (reg : Registry) (dir : Nat) (name : Name) : Option Nat :=
  (registryFinddirent reg dir name).bind reg.target

def Registry.refcount (reg : Registry) (inode : Nat) : Option Int :=
  (reg.inodes.get inode).map Inode.refcount

/-- Every name, every `..`, every deleted flag and every count is as it was. -/
structure Untouched (reg after : Registry) : Prop where
  names : ∀ dir name, after.lookup dir name = reg.lookup dir name
  deleted : ∀ inode, after.isDeleted inode = reg.isDeleted inode
  refcounts : ∀ inode, after.refcount inode = reg.refcount inode

/-- The inode has moved from one name to another, and nothing else has changed but what was
replaced. The counts of the two directories follow the `..` that name them.
-/
structure Renamed (reg after : Registry) (replaced : Option Nat) (oldDir : Nat) (oldName : Name)
    (newDir : Nat) (newName : Name) (moved : Nat)
    : Prop where
  gone : after.lookup oldDir oldName = none
  arrived : after.lookup newDir newName = some moved
  hung : reg.isDir moved = true → after.lookup moved dotdot = some newDir
  names
    : ∀ dir name, replaced ≠ some dir
      → ¬(dir = oldDir ∧ name = oldName)
      → ¬(dir = newDir ∧ name = newName)
      → ¬(dir = moved ∧ name = dotdot)
      → after.lookup dir name = reg.lookup dir name
  deleted : ∀ inode, replaced ≠ some inode → after.isDeleted inode = reg.isDeleted inode
  refcounts
    : ∀ inode, replaced ≠ some inode → inode ≠ moved → inode ≠ oldDir → inode ≠ newDir
      → after.refcount inode = reg.refcount inode

/-- A call that fails leaves everything as it was, and one that succeeds renames. -/
def RenamesCleanly (reg : Registry) (oldDir : Nat) (oldName : Name) (newDir : Nat)
    (newName : Name) (room : LinkRoom) : Prop :=
  match registryRename reg oldDir oldName newDir newName room with
  | (.error _, after) => Untouched reg after
  | (.ok _, after) =>
      ∃ moved, reg.lookup oldDir oldName = some moved
        ∧ (reg.lookup newDir newName = some moved ∧ Untouched reg after
          ∨ Renamed reg after (reg.lookup newDir newName) oldDir oldName newDir newName moved)

theorem Untouched.refl (reg : Registry) : Untouched reg reg where
  names _ _ := rfl
  deleted _ := rfl
  refcounts _ := rfl

variable {dir inode : Nat} {name : Name}

theorem lookup_some (found : reg.lookup dir name = some inode)
    : ∃ entry contents,
        registryFinddirent reg dir name = some entry
        ∧ reg.Has dir entry contents
        ∧ contents.name = name
        ∧ contents.inode = inode := by
  obtain ⟨entry, search, target⟩ := Option.bind_eq_some_iff.mp found
  obtain ⟨contents, has, named⟩ := registryFinddirent_some search
  refine ⟨entry, contents, search, has, named, ?_⟩
  simpa [Registry.target, has.2] using target

theorem Tree.lookup_iff (tree : Tree reg)
    : reg.lookup dir name = some inode
      ↔ ∃ entry found, reg.Has dir entry found ∧ found.name = name ∧ found.inode = inode := by
  constructor
  · intro found
    obtain ⟨entry, contents, _, has, named, target⟩ := lookup_some found
    exact ⟨entry, contents, has, named, target⟩
  · rintro ⟨entry, found, has, rfl, rfl⟩
    rw [Registry.lookup, tree.find has, Option.bind_some, Registry.target, has.2, Option.map_some]

theorem Tree.lookup_congr {after : Registry} (tree : Tree reg) (afterTree : Tree after)
    (same
      : ∀ inode,
          (∃ entry found, after.Has dir entry found ∧ found.name = name ∧ found.inode = inode)
          ↔ ∃ entry found, reg.Has dir entry found ∧ found.name = name ∧ found.inode = inode)
    : after.lookup dir name = reg.lookup dir name := by
  ext inode
  rw [afterTree.lookup_iff, tree.lookup_iff]
  exact same inode

theorem refcount_modifyInode {other : Nat} {change : Inode → Inode}
    (same : other = inode → ∀ node, (change node).refcount = node.refcount)
    : (reg.modifyInode inode change).refcount other = reg.refcount other := by
  simp only [Registry.refcount, Registry.modifyInode, Arena.get_modify]
  split
  · rename_i here
    cases reg.inodes.get other with
    | none => rfl
    | some node => simp [same here]
  · rfl

-- The dropped entry

namespace DroppedExactly

variable {after : Registry} {dir entry gone : Nat}

theorem isDeleted (exactly : DroppedExactly reg after dir entry gone) (apart : inode ≠ gone)
    : after.isDeleted inode = reg.isDeleted inode := by
  obtain ⟨refcount, same, _⟩ := exactly.inodes inode apart
  rw [Registry.isDeleted, Registry.isDeleted, same]
  cases reg.inodes.get inode <;> rfl

theorem refcount (exactly : DroppedExactly reg after dir entry gone) (apart : inode ≠ gone)
    (elsewhere : inode ≠ dir)
    : after.refcount inode = reg.refcount inode := by
  obtain ⟨refcount, same, unchanged⟩ := exactly.inodes inode apart
  rw [Registry.refcount, Registry.refcount, same]
  cases reg.inodes.get inode with
  | none => rfl
  | some node => simp [unchanged elsewhere]

theorem has (exactly : DroppedExactly reg after dir entry gone) (sound : Sound reg holds pins)
    {found : Dirent} (hasEntry : reg.Has dir entry found) {parent other : Nat} {contents : Dirent}
    (apart : parent ≠ gone)
    : after.Has parent other contents ↔ reg.Has parent other contents ∧ other ≠ entry := by
  obtain ⟨refcount, same, _⟩ := exactly.inodes parent apart
  -- an entry on this list is not on the list of what is gone
  have present {node : Inode} (here : reg.inodes.get parent = some node)
      (member : other ∈ node.children) (different : other ≠ entry)
      : after.dirents.get other = reg.dirents.get other := by
    apply exactly.dirents other different
    intro goneNode goneHere inGone
    exact apart (sound.counts.owner parent gone node goneNode other here goneHere member inGone)
  have erased {node : Inode} (here : reg.inodes.get parent = some node)
      : other ∈ (if parent = dir then node.children.erase entry else node.children)
        ↔ other ∈ node.children ∧ other ≠ entry := by
    have nodup := sound.counts.nodup parent node here
    split
    · rw [nodup.mem_erase_iff, and_comm]
    · rename_i elsewhere
      refine ⟨fun member => ⟨member, ?_⟩, And.left⟩
      rintro rfl
      obtain ⟨owner, there, inOwner⟩ := hasEntry.1
      exact elsewhere (sound.counts.owner parent dir node owner other here there member inOwner)
  constructor
  · rintro ⟨⟨now, here, member⟩, presentNow⟩
    rw [same] at here
    obtain ⟨node, there, rfl⟩ := Option.map_eq_some_iff.mp here
    obtain ⟨inNode, different⟩ := (erased there).mp member
    rw [present there inNode different] at presentNow
    exact ⟨⟨⟨node, there, inNode⟩, presentNow⟩, different⟩
  · rintro ⟨⟨⟨node, there, inNode⟩, presentWas⟩, different⟩
    refine ⟨⟨_, by rw [same, there]; rfl, (erased there).mpr ⟨inNode, different⟩⟩, ?_⟩
    rw [present there inNode different]
    exact presentWas

end DroppedExactly

-- The moved entry

variable {after linkedReg : Registry} {oldDir old newDir new : Nat} {oldFound : Dirent}
    {newName : Name}

theorem Linked.refcount_other {entry target : Nat} (linked : Linked reg after dir entry name target)
    (apart : inode ≠ target)
    : after.refcount inode = reg.refcount inode := by
  rw [Registry.refcount, Registry.refcount, linked.nodes]
  cases reg.inodes.get inode with
  | none => rfl
  | some node => simp [apart]

theorem direntUnref_refcount {entry : Nat} {found : Dirent} {node : Inode}
    (present : reg.dirents.get entry = some found) (here : reg.inodes.get found.inode = some node)
    (more : node.refcount ≠ 1) (apart : inode ≠ found.inode)
    : (direntUnref reg entry).refcount inode = reg.refcount inode := by
  simp only [direntUnref, direntPut, present]
  split
  · rfl
  · generalize freedIs : ({ reg with
      dirents := reg.dirents.free entry
      direntCount := reg.direntCount - 1 } : Registry) = freed
    have inodes : freed.inodes = reg.inodes := by rw [← freedIs]
    have stillHere : freed.inodes.get found.inode = some node := by
      rw [inodes]
      exact here
    simp only [if_true]
    rw [inodeUnref_more stillHere more,
      refcount_modifyInode (fun same => absurd same apart), Registry.refcount, Registry.refcount,
      inodes]

theorem Movable.relink_refcount (movable : Movable reg oldDir old oldFound newDir newName)
    (sound : Sound reg holds pins) (roomy : reg.Roomy)
    (linked : Linked reg linkedReg newDir new newName oldFound.inode)
    (apart : inode ≠ oldFound.inode)
    : (direntUnref (linkedReg.modifyInode oldDir (fun node =>
        { node with children := node.children.erase old })) old).refcount inode
      = reg.refcount inode := by
  obtain ⟨movedNode, movedHere⟩ := sound.counts.target old oldFound movable.has.2
  have positive := (sound.counts.counted oldFound.inode (by simp) movedNode movedHere).1
  have below := roomy.1 oldFound.inode movedNode movedHere
  have oldStill : linkedReg.dirents.get old = some oldFound := by
    have notNew : old ≠ new := by
      rw [linked.newEntry]
      exact Arena.ne_next movable.has.2
    rw [linked.others old notNew]
    exact movable.has.2
  obtain ⟨now, nowHere, count⟩
      : ∃ now, (linkedReg.modifyInode oldDir (fun node =>
            { node with children := node.children.erase old })).inodes.get oldFound.inode = some now
          ∧ now.refcount = movedNode.refcount + 1 := by
    simp only [Registry.modifyInode, Arena.get_modify, linked.nodes, movedHere]
    split
    · exact ⟨_, rfl, by simp [movable.moved_ne.symm, below]⟩
    · exact ⟨_, rfl, by simp [movable.moved_ne.symm, below]⟩
  have oldErased : (linkedReg.modifyInode oldDir (fun node =>
      { node with children := node.children.erase old })).dirents.get old = some oldFound :=
    oldStill
  rw [direntUnref_refcount oldErased nowHere (by omega) apart,
    refcount_modifyInode (by intros; rfl), linked.refcount_other apart]

/-- What hanging a moved directory below its new parent leaves. -/
structure Hung (reg after : Registry) (up oldDir newDir : Nat) : Prop where
  has
    : ∀ parent other found, after.Has parent other found
      ↔ ∃ was, reg.Has parent other was
        ∧ found = if other = up then { was with inode := newDir } else was
  isDeleted : ∀ inode, after.isDeleted inode = reg.isDeleted inode
  refcount
    : ∀ inode, inode ≠ oldDir → inode ≠ newDir → after.refcount inode = reg.refcount inode

theorem reparent_hung {moved up : Nat} {oldNode : Inode}
    (search : registryFinddirent reg moved dotdot = some up) (target : reg.target up = some oldDir)
    (cross : oldDir ≠ newDir) (here : reg.inodes.get oldDir = some oldNode)
    (more : oldNode.refcount ≠ 1)
    : Hung reg (reparent reg moved newDir) up oldDir newDir := by
  simp only [reparent, search, target, if_neg cross]
  have stillHere : ((inodeRef reg newDir).modifyDirent up (fun found =>
      { found with inode := newDir })).inodes.get oldDir = some oldNode := by
    rw [← here]
    exact Arena.get_modify_of_ne cross
  rw [inodeUnref_more stillHere more]
  refine ⟨?_, ?_, ?_⟩
  · intro parent other found
    refine (has_modifyInode (by intros; rfl)).trans (has_modifyDirent.trans ?_)
    refine exists_congr fun was => and_congr_left fun _ => has_modifyInode ?_
    intro node
    split <;> rfl
  · intro inode
    refine (isDeleted_modifyInode (by intros; rfl)).trans (isDeleted_modifyInode ?_)
    intro node
    split <;> rfl
  · intro inode notOld notNew
    rw [refcount_modifyInode (fun same => absurd same notOld)]
    exact refcount_modifyInode (fun same => absurd same notNew)

theorem Relinked.up (relinked : Relinked reg after old newDir new newName oldFound.inode)
    (movable : Movable reg oldDir old oldFound newDir newName) (tree : Tree reg)
    (isDir : reg.isDir oldFound.inode = true)
    : ∃ up upFound,
        reg.Has oldFound.inode up upFound
        ∧ upFound.name = dotdot
        ∧ upFound.inode = oldDir
        ∧ up ≠ old
        ∧ registryFinddirent after oldFound.inode dotdot = some up
        ∧ after.target up = some oldDir := by
  obtain ⟨up, upFound, hasUp, named⟩ := tree.parent oldFound.inode isDir
  have upParent : upFound.inode = oldDir := by
    rw [← tree.parentOf hasUp named]
    exact (tree.child oldDir old oldFound movable.has movable.plainOld isDir).2.2
  have upNotOld : up ≠ old := by
    rintro rfl
    obtain rfl : oldFound = upFound := Option.some.inj (movable.has.2.symm.trans hasUp.2)
    have plain := movable.plainOld
    rw [named, dotdot_isDotName] at plain
    cases plain
  have hasUpAfter : after.Has oldFound.inode up upFound :=
    (relinked.has _ _ _).mpr (Or.inr ⟨hasUp, upNotOld⟩)
  refine ⟨up, upFound, hasUp, named, upParent, upNotOld, ?_, ?_⟩
  · apply registryFinddirent_eq hasUpAfter named
    intro other found has namedToo
    rcases (relinked.has _ _ _).mp has with ⟨same, _, _⟩ | ⟨was, _⟩
    · exact absurd same.symm movable.moved_ne
    · exact tree.distinct oldFound.inode other up found upFound was hasUp
        (namedToo.trans named.symm)
  · simp [Registry.target, hasUpAfter.2, upParent]

/-- The entries of a registry after a move: those before without the old one, with the new one,
and with what `shift` makes of the `..` of the moved directory.
-/
structure Shifted (reg after : Registry) (old newDir new : Nat) (newName : Name) (moved : Nat)
    (shift : Nat → Dirent → Dirent) : Prop where
  has
    : ∀ parent other found, after.Has parent other found
      ↔ ∃ was,
          (parent = newDir ∧ other = new ∧ was = ⟨newName, 1, moved⟩
            ∨ reg.Has parent other was ∧ other ≠ old)
          ∧ found = shift other was
  name : ∀ other was, (shift other was).name = was.name
  newInode : (shift new ⟨newName, 1, moved⟩).inode = moved
  inode
    : ∀ parent other was, reg.Has parent other was
      → ¬(parent = moved ∧ was.name = dotdot)
      → (shift other was).inode = was.inode
  up
    : reg.isDir moved = true
      → ∃ up upFound,
          reg.Has moved up upFound ∧ upFound.name = dotdot ∧ up ≠ old
          ∧ (shift up upFound).inode = newDir

/-- What the names denote after a move. -/
theorem Shifted.lookups {shift : Nat → Dirent → Dirent}
    (shifted : Shifted reg after old newDir new newName oldFound.inode shift)
    (movable : Movable reg oldDir old oldFound newDir newName) (sound : Sound reg holds pins)
    (afterTree : Tree after)
    : after.lookup oldDir oldFound.name = none
      ∧ after.lookup newDir newName = some oldFound.inode
      ∧ (reg.isDir oldFound.inode = true
        → after.lookup oldFound.inode dotdot = some newDir)
      ∧ ∀ dir name, ¬(dir = oldDir ∧ name = oldFound.name)
        → ¬(dir = newDir ∧ name = newName)
        → ¬(dir = oldFound.inode ∧ name = dotdot)
        → after.lookup dir name = reg.lookup dir name := by
  have tree := sound.tree
  refine ⟨?_, ?_, ?_, ?_⟩
  · rw [Option.eq_none_iff_forall_ne_some]
    intro inode found
    obtain ⟨entry, contents, has, named, _⟩ := afterTree.lookup_iff.mp found
    obtain ⟨was, ⟨rfl, rfl, rfl⟩ | ⟨hasWas, different⟩, rfl⟩ := (shifted.has _ _ _).mp has
    · rw [shifted.name] at named
      exact movable.free old oldFound movable.has named.symm
    · rw [shifted.name] at named
      exact different (tree.distinct oldDir entry old was oldFound hasWas movable.has named)
  · exact afterTree.lookup_iff.mpr ⟨new, _, (shifted.has _ _ _).mpr ⟨_, .inl ⟨rfl, rfl, rfl⟩, rfl⟩,
      shifted.name _ _, shifted.newInode⟩
  · intro isDir
    obtain ⟨up, upFound, hasUp, named, different, hangs⟩ := shifted.up isDir
    exact afterTree.lookup_iff.mpr ⟨up, _,
      (shifted.has _ _ _).mpr ⟨upFound, .inr ⟨hasUp, different⟩, rfl⟩,
      (shifted.name _ _).trans named, hangs⟩
  · intro dir name notOld notNew notUp
    apply tree.lookup_congr afterTree
    intro inode
    constructor
    · rintro ⟨entry, contents, has, rfl, rfl⟩
      obtain ⟨was, ⟨rfl, rfl, rfl⟩ | ⟨hasWas, _⟩, rfl⟩ := (shifted.has _ _ _).mp has
      · exact absurd ⟨rfl, shifted.name _ _⟩ notNew
      · rw [shifted.name] at notUp ⊢
        exact ⟨entry, was, hasWas, rfl, (shifted.inode _ _ _ hasWas notUp).symm⟩
    · rintro ⟨entry, contents, has, rfl, rfl⟩
      have different : entry ≠ old := by
        rintro rfl
        obtain ⟨same, rfl⟩ := sound.counts.has_unique has movable.has
        exact notOld ⟨same, rfl⟩
      exact ⟨entry, _, (shifted.has _ _ _).mpr ⟨contents, .inr ⟨has, different⟩, rfl⟩,
        shifted.name _ _, shifted.inode _ _ _ has notUp⟩

/-- Where the new entry can be made, the inode moves. -/
theorem Sound.moveEntry_renamed {room : LinkRoom} (sound : Sound reg holds pins) (roomy : reg.Roomy)
    (movable : Movable reg oldDir old oldFound newDir newName)
    (oldLive : reg.isDeleted oldDir = false)
    (made : registryLinkdirent reg newDir newName oldFound.inode room = some (new, linkedReg))
    : ∃ after,
        Native.moveEntry reg oldDir oldFound.name newDir newName oldFound.inode room
          = (.ok (), after)
        ∧ Renamed reg after none oldDir oldFound.name newDir newName oldFound.inode := by
  obtain ⟨_, linked⟩ := registryLinkdirent_some made
  obtain ⟨search, counts, relinked⟩ := movable.relink sound roomy linked
  have refcounts {inode : Nat} (apart : inode ≠ oldFound.inode) :=
    movable.relink_refcount sound roomy linked apart
  have final
      : Sound
          (Native.moveEntry reg oldDir oldFound.name newDir newName oldFound.inode room).2
          holds pins :=
    (sound.moveEntry roomy movable).1
  simp only [Native.moveEntry, made, direntDetach, search] at final ⊢
  generalize direntUnref (linkedReg.modifyInode oldDir (fun node =>
    { node with children := node.children.erase old })) old = after
    at counts relinked refcounts final ⊢
  rw [relinked.isDir] at final ⊢
  by_cases far : reg.isDir oldFound.inode = true ∧ oldDir ≠ newDir
  · rw [if_pos far] at final ⊢
    refine ⟨_, rfl, ?_⟩
    obtain ⟨up, upFound, hasUp, named, upParent, different, searchUp, target⟩ :=
      relinked.up movable sound.tree far.1
    have notMoved := sound.tree.target_ne movable.oldIsDir movable.has movable.plainOld
    obtain ⟨oldNode, oldHere, _⟩ := Registry.isDir_iff.mp movable.oldIsDir
    have twice := sound.two_le_refcount oldHere movable.oldIsDir oldLive hasUp notMoved upParent
      named
    obtain ⟨oldNow, nowHere, count⟩ : ∃ now, after.inodes.get oldDir = some now
        ∧ now.refcount = oldNode.refcount := by
      have same := refcounts notMoved.symm
      rw [Registry.refcount, Registry.refcount, oldHere, Option.map_some] at same
      exact Option.map_eq_some_iff.mp same
    have hung := reparent_hung searchUp target far.2 nowHere (by omega)
    generalize reparent after oldFound.inode newDir = hanging at final hung ⊢
    have newNotUp : new ≠ up := by
      rintro rfl
      have hasNew := (relinked.has newDir new _).mpr (Or.inl ⟨rfl, rfl, rfl⟩)
      have hasUpAfter := (relinked.has oldFound.inode new upFound).mpr (Or.inr ⟨hasUp, different⟩)
      exact movable.moved_ne (counts.has_unique hasNew hasUpAfter).1
    have shifted : Shifted reg hanging old newDir new newName oldFound.inode
        (fun other was => if other = up then { was with inode := newDir } else was) := by
      refine ⟨?_, ?_, ?_, ?_, ?_⟩
      · intro parent other found
        rw [hung.has]
        simp only [relinked.has]
      · intro other was
        split <;> rfl
      · simp [newNotUp]
      · intro parent other was has notUp
        have apart : other ≠ up := by
          rintro rfl
          obtain ⟨rfl, rfl⟩ := sound.counts.has_unique has hasUp
          exact notUp ⟨rfl, named⟩
        simp [apart]
      · intro _
        exact ⟨up, upFound, hasUp, named, different, by simp⟩
    obtain ⟨gone, arrived, hangs, names⟩ := shifted.lookups movable sound final.tree
    refine ⟨gone, arrived, hangs, fun dir name _ => names dir name, ?_, ?_⟩
    · intro inode _
      rw [hung.isDeleted, relinked.isDeleted]
    · intro inode _ notMovedToo notOld notNew
      rw [hung.refcount inode notOld notNew, refcounts notMovedToo]
  · rw [if_neg far] at final ⊢
    refine ⟨_, rfl, ?_⟩
    have shifted : Shifted reg after old newDir new newName oldFound.inode
        (fun _ was => was) := by
      refine ⟨?_, fun _ _ => rfl, rfl, fun _ _ _ _ _ => rfl, ?_⟩
      · intro parent other found
        rw [relinked.has]
        constructor
        · intro has
          exact ⟨found, has, rfl⟩
        · rintro ⟨was, has, rfl⟩
          exact has
      · intro isDir
        obtain ⟨up, upFound, hasUp, named, upParent, different, _⟩ :=
          relinked.up movable sound.tree isDir
        have near : oldDir = newDir := by
          by_contra cross
          exact far ⟨isDir, cross⟩
        exact ⟨up, upFound, hasUp, named, different, upParent.trans near⟩
    obtain ⟨gone, arrived, hangs, names⟩ := shifted.lookups movable sound final.tree
    refine ⟨gone, arrived, hangs, fun dir name _ => names dir name, ?_, ?_⟩
    · exact fun inode _ => relinked.isDeleted inode
    · exact fun inode _ notMoved _ _ => refcounts notMoved

-- Which renames are clean

/-- The first checks of `registry_rename`. -/
structure Passes (reg : Registry) (oldDir : Nat) (oldName : Name) (newDir : Nat) (newName : Name)
    : Prop where
  oldIsDir : reg.isDir oldDir = true
  newIsDir : reg.isDir newDir = true
  sized
    : ¬(oldName.length = 0 ∨ newName.length = 0
      ∨ REG_MAX_NAME_LEN ≤ oldName.length ∨ REG_MAX_NAME_LEN ≤ newName.length)
  oldLive : reg.isDeleted oldDir = false
  newLive : reg.isDeleted newDir = false
  oldPlain : isDotName oldName = false
  newPlain : isDotName newName = false

/-- The call passes all its checks and finds an entry to replace at the new name. -/
structure Replaces (reg : Registry) (oldDir : Nat) (oldName : Name) (newDir : Nat)
    (newName : Name) (moved entry : Nat) (found : Dirent)
    : Prop where
  passes : Passes reg oldDir oldName newDir newName
  elsewhere : ¬(oldDir = newDir ∧ oldName = newName)
  oldUncovered : ¬(registryFinddirent reg oldDir oldName).any reg.covered = true
  newUncovered : ¬(registryFinddirent reg newDir newName).any reg.covered = true
  moves : reg.lookup oldDir oldName = some moved
  noCycle : ¬(reg.isDir moved = true ∧ dirHasAncestor reg reg.inodes.next newDir moved = true)
  finds : registryFinddirent reg newDir newName = some entry
  present : reg.dirents.get entry = some found
  different : found.inode ≠ moved
  sameKind : ¬reg.isDir moved ≠ reg.isDir found.inode
  empty : ¬(reg.isDir found.inode = true ∧ registryDirIsEmpty reg found.inode = false)

/-- A new entry can be made once the entry that is replaced is put: both allocations succeed,
and the entries are below their limit. A name is renamed onto itself only where it exists.
-/
structure RenameSafe (reg : Registry) (oldDir : Nat) (oldName : Name) (newDir : Nat)
    (newName : Name) (room : LinkRoom) : Prop where
  replaced
    : ∀ moved entry found, Replaces reg oldDir oldName newDir newName moved entry found
      → room.name = true ∧ room.entry = true
        ∧ reg.direntCount - reg.freedBy entry < REG_MAX_DIRENTS
  itself
    : Passes reg oldDir oldName newDir newName → oldDir = newDir → oldName = newName
      → ∃ inode, reg.lookup oldDir oldName = some inode

theorem registryLinkdirent_isSome_iff {target : Nat} {room : LinkRoom}
    (sized : ¬(name.length = 0 ∨ REG_MAX_NAME_LEN ≤ name.length))
    : (∃ made, registryLinkdirent reg dir name target room = some made)
      ↔ room.name = true ∧ room.entry = true ∧ reg.direntCount < REG_MAX_DIRENTS := by
  unfold registryLinkdirent direntAlloc
  rw [if_neg sized]
  cases room.name with
  | false => simp
  | true =>
      by_cases full : REG_MAX_DIRENTS ≤ reg.direntCount
      · simp [full, Nat.not_lt.mpr full]
      · cases room.entry with
        | false => simp [full]
        | true => simp [full, Nat.lt_of_not_le full]

/-- The registry once the entry of the new name is off its list, marked and put. -/
def replacedDropped (reg : Registry) (newDir entry : Nat) : Registry :=
  direntUnref (markDeleted (reg.modifyInode newDir (fun node =>
    { node with children := node.children.erase entry })) entry) entry

namespace Replaces

variable {oldDir newDir moved entry : Nat} {oldName newName : Name} {found : Dirent}
  {room : LinkRoom}

theorem ran (replaces : Replaces reg oldDir oldName newDir newName moved entry found)
    : registryRename reg oldDir oldName newDir newName room
      = moveEntry (replacedDropped reg newDir entry) oldDir oldName newDir newName moved room := by
  obtain ⟨⟨oldIsDir, newIsDir, sized, oldLive, newLive, oldPlain, newPlain⟩, elsewhere,
    oldUncovered, newUncovered, moves, noCycle, finds, present, different, sameKind, empty⟩ :=
    replaces
  have target : reg.target entry = some found.inode := by simp [Registry.target, present]
  rw [finds] at newUncovered
  have moves : (registryFinddirent reg oldDir oldName).bind reg.target = some moved := moves
  have dirs : ¬(reg.isDir oldDir = false ∨ reg.isDir newDir = false) := by simp [oldIsDir, newIsDir]
  have live : ¬(reg.isDeleted oldDir = true ∨ reg.isDeleted newDir = true) := by
    simp [oldLive, newLive]
  have plain : ¬(isDotName oldName = true ∨ isDotName newName = true) := by
    simp [oldPlain, newPlain]
  simp only [registryRename, if_neg dirs, if_neg sized, if_neg live, if_neg plain,
    if_neg elsewhere, if_neg oldUncovered, finds, if_neg newUncovered, moves, if_neg noCycle,
    Option.bind_some, target, if_neg different, if_neg sameKind, if_neg empty, dropReplaced,
    direntDetach]
  rfl

end Replaces

theorem Sound.dropped_lookup {entry : Nat} {found : Dirent} (sound : Sound reg holds pins)
    (isDir : reg.isDir dir = true) (has : reg.Has dir entry found)
    (plain : isDotName found.name = false)
    (empty
      : reg.isDir found.inode = true
        → ∀ other otherFound, reg.Has found.inode other otherFound
        → isDotName otherFound.name = true)
    : (replacedDropped reg dir entry).lookup dir found.name = none := by
  obtain ⟨kept, _, _, dropped⟩ := sound.drop isDir has plain empty
  rw [Option.eq_none_iff_forall_ne_some]
  intro inode denotes
  obtain ⟨other, now, hasNow, named, _⟩ := kept.tree.lookup_iff.mp denotes
  obtain ⟨notEntry, was, hasWas, wasName, _⟩ := dropped.hasOld dir other now hasNow
  exact notEntry (sound.tree.distinct dir other entry was found hasWas has
    (wasName.symm.trans named))

namespace Replaces

variable {oldDir newDir moved entry : Nat} {oldName newName : Name} {found : Dirent}
  {room : LinkRoom}

/-- What is left of the new directory and of everything but the replaced inode. -/
structure Left (reg : Registry) (holds pins : Nat → Nat) (oldDir : Nat) (oldName : Name)
    (newDir : Nat) (newName : Name) (moved entry : Nat) (found : Dirent) : Prop where
  sound : Sound (replacedDropped reg newDir entry) holds pins
  roomy : (replacedDropped reg newDir entry).Roomy
  exactly : DroppedExactly reg (replacedDropped reg newDir entry) newDir entry found.inode
  free : (replacedDropped reg newDir entry).lookup newDir newName = none
  oldLive : (replacedDropped reg newDir entry).isDeleted oldDir = false
  movable
    : ∃ old now, now.name = oldName ∧ now.inode = moved
      ∧ Movable (replacedDropped reg newDir entry) oldDir old now newDir newName

theorem left (replaces : Replaces reg oldDir oldName newDir newName moved entry found)
    (sound : Sound reg holds pins) (roomy : reg.Roomy)
    : Left reg holds pins oldDir oldName newDir newName moved entry found := by
  obtain ⟨⟨oldIsDir, newIsDir, sized, oldLive, newLive, oldPlain, newPlain⟩, elsewhere,
    oldUncovered, newUncovered, moves, noCycle, finds, present, different, sameKind, empty⟩ :=
    replaces
  obtain ⟨old, oldFound, searchOld, has, rfl, rfl⟩ := lookup_some moves
  obtain ⟨contents, hasNew, rfl⟩ := registryFinddirent_some finds
  obtain rfl : contents = found := Option.some.inj (hasNew.2.symm.trans present)
  have dots (isDir : reg.isDir contents.inode = true) (other : Nat) (otherFound : Dirent)
      (hasOther : reg.Has contents.inode other otherFound)
      : isDotName otherFound.name = true := by
    apply registryDirIsEmpty_spec ?_ hasOther
    simpa using fun notEmpty => empty ⟨isDir, notEmpty⟩
  have apart (isDir : reg.isDir oldFound.inode = true) (taken : Nat)
      : reg.parentOf^[taken] newDir ≠ oldFound.inode := by
    intro reached
    exact noCycle ⟨isDir, (sound.tree.dirHasAncestor_iff newIsDir).mpr ⟨taken, reached⟩⟩
  obtain ⟨kept, _, roomyAfter, dropped⟩ := sound.drop newIsDir hasNew newPlain dots
  have exactly := sound.drop_exactly newIsDir newLive hasNew newPlain dots
  have movable := Movable.dropped sound.tree kept.tree dropped has oldPlain oldIsDir oldLive
    newIsDir newLive hasNew newPlain different dots apart
  refine ⟨kept, roomyAfter roomy, exactly,
    sound.dropped_lookup newIsDir hasNew newPlain dots, ?_, ?_⟩
  · have notGone : oldDir ≠ contents.inode := by
      rintro rfl
      have plain := dots oldIsDir old oldFound has
      rw [oldPlain] at plain
      cases plain
    exact (dropped.kept oldDir oldIsDir oldLive notGone).2
  · obtain ⟨now, name, inode, movable⟩ := movable
    exact ⟨old, now, name, inode, movable⟩

theorem renamed (replaces : Replaces reg oldDir oldName newDir newName moved entry found)
    (sound : Sound reg holds pins)
    (left : Left reg holds pins oldDir oldName newDir newName moved entry found)
    (renamed : Renamed (replacedDropped reg newDir entry) after none oldDir oldName newDir newName
      moved)
    : Renamed reg after (some found.inode) oldDir oldName newDir newName moved := by
  obtain ⟨contents, hasNew, named⟩ := registryFinddirent_some replaces.finds
  have movedStays : (replacedDropped reg newDir entry).isDir moved = reg.isDir moved := by
    obtain ⟨_, same, _⟩ := left.exactly.inodes moved replaces.different.symm
    rw [Registry.isDir, Registry.isDir, same]
    cases reg.inodes.get moved <;> rfl
  refine ⟨renamed.gone, renamed.arrived, ?_, ?_, ?_, ?_⟩
  · rw [← movedStays]
    exact renamed.hung
  · intro dir name notGone notOld notNew notUp
    rw [renamed.names dir name (by simp) notOld notNew notUp]
    have apart : dir ≠ found.inode := fun same => notGone (congrArg some same.symm)
    apply sound.tree.lookup_congr left.sound.tree
    intro inode
    constructor
    · rintro ⟨other, was, has, rfl, rfl⟩
      exact ⟨other, was, ((left.exactly.has sound hasNew apart).mp has).1, rfl, rfl⟩
    · rintro ⟨other, was, has, rfl, rfl⟩
      refine ⟨other, was, (left.exactly.has sound hasNew apart).mpr ⟨has, ?_⟩, rfl, rfl⟩
      rintro rfl
      obtain ⟨same, rfl⟩ := sound.counts.has_unique has hasNew
      exact notNew ⟨same, named⟩
  · intro inode notGone
    rw [renamed.deleted inode (by simp)]
    exact left.exactly.isDeleted (fun same => notGone (congrArg some same.symm))
  · intro inode notGone notMoved notOld notNew
    rw [renamed.refcounts inode (by simp) notMoved notOld notNew]
    exact left.exactly.refcount (fun same => notGone (congrArg some same.symm)) notNew

theorem clean_iff (replaces : Replaces reg oldDir oldName newDir newName moved entry found)
    (sound : Sound reg holds pins) (roomy : reg.Roomy)
    : RenamesCleanly reg oldDir oldName newDir newName room
      ↔ room.name = true ∧ room.entry = true
        ∧ reg.direntCount - reg.freedBy entry < REG_MAX_DIRENTS := by
  have left := replaces.left sound roomy
  obtain ⟨old, now, rfl, rfl, movable⟩ := left.movable
  have sized : ¬(newName.length = 0 ∨ REG_MAX_NAME_LEN ≤ newName.length) := by
    have sized := replaces.passes.sized
    omega
  have denotes : reg.lookup newDir newName = some found.inode := by
    rw [Registry.lookup, replaces.finds, Option.bind_some, Registry.target, replaces.present,
      Option.map_some]
  rw [← left.exactly.count, ← registryLinkdirent_isSome_iff sized]
  unfold RenamesCleanly
  rw [replaces.ran]
  constructor
  · intro clean
    by_contra refused
    have failed : registryLinkdirent (replacedDropped reg newDir entry) newDir newName now.inode
        room = none := by
      rw [Option.eq_none_iff_forall_ne_some]
      exact fun made found => refused ⟨made, found⟩
    simp only [moveEntry, failed] at clean
    have lost := clean.names newDir newName
    rw [left.free, denotes] at lost
    cases lost
  · rintro ⟨⟨new, linkedReg⟩, made⟩
    obtain ⟨after, moves, renamed⟩ :=
      left.sound.moveEntry_renamed left.roomy movable left.oldLive made
    rw [moves]
    refine ⟨now.inode, replaces.moves, .inr ?_⟩
    rw [denotes]
    exact replaces.renamed sound left renamed

end Replaces

theorem Sound.moveEntry_clean (sound : Sound reg holds pins) (roomy : reg.Roomy)
    (movable : Movable reg oldDir old oldFound newDir newName)
    (oldLive : reg.isDeleted oldDir = false) (room : LinkRoom)
    : match Native.moveEntry reg oldDir oldFound.name newDir newName oldFound.inode room with
      | (.error _, after) => Untouched reg after
      | (.ok _, after) =>
          Renamed reg after none oldDir oldFound.name newDir newName oldFound.inode := by
  cases made : registryLinkdirent reg newDir newName oldFound.inode room with
  | none =>
      simp only [Native.moveEntry, made]
      exact Untouched.refl reg
  | some linked =>
      obtain ⟨after, moves, renamed⟩ := sound.moveEntry_renamed roomy movable oldLive made
      rw [moves]
      exact renamed

theorem RenameSafe.clean {oldName : Name} {room : LinkRoom}
    (safe : RenameSafe reg oldDir oldName newDir newName room) (sound : Sound reg holds pins)
    (roomy : reg.Roomy)
    : RenamesCleanly reg oldDir oldName newDir newName room := by
  have refused (failure : Failure)
      (ran : registryRename reg oldDir oldName newDir newName room = (.error failure, reg))
      : RenamesCleanly reg oldDir oldName newDir newName room := by
    unfold RenamesCleanly
    rw [ran]
    exact Untouched.refl reg
  by_cases notDirs : reg.isDir oldDir = false ∨ reg.isDir newDir = false
  · exact refused (.code .notFound) (by simp only [registryRename, if_pos notDirs])
  by_cases sized : oldName.length = 0 ∨ newName.length = 0
      ∨ REG_MAX_NAME_LEN ≤ oldName.length ∨ REG_MAX_NAME_LEN ≤ newName.length
  · exact refused (.code .plainErr) (by
      simp only [registryRename, if_neg notDirs, if_pos sized])
  by_cases deleted : reg.isDeleted oldDir = true ∨ reg.isDeleted newDir = true
  · exact refused (.code .busy) (by
      simp only [registryRename, if_neg notDirs, if_neg sized, if_pos deleted])
  by_cases dots : isDotName oldName = true ∨ isDotName newName = true
  · exact refused (.code .busy) (by
      simp only [registryRename, if_neg notDirs, if_neg sized, if_neg deleted, if_pos dots])
  have passes : Passes reg oldDir oldName newDir newName := by
    simp only [not_or, Bool.not_eq_false, Bool.not_eq_true] at notDirs deleted dots
    exact ⟨notDirs.1, notDirs.2, sized, deleted.1, deleted.2, dots.1, dots.2⟩
  by_cases same : oldDir = newDir ∧ oldName = newName
  · obtain ⟨inode, found⟩ := safe.itself passes same.1 same.2
    have ran : registryRename reg oldDir oldName newDir newName room = (.ok (), reg) := by
      simp only [registryRename, if_neg notDirs, if_neg sized, if_neg deleted, if_neg dots,
        if_pos same]
    unfold RenamesCleanly
    rw [ran]
    exact ⟨inode, found, .inl ⟨same.1 ▸ same.2 ▸ found, Untouched.refl reg⟩⟩
  by_cases oldCovered : (registryFinddirent reg oldDir oldName).any reg.covered = true
  · exact refused (.code .busy) (by
      simp only [registryRename, if_neg notDirs, if_neg sized, if_neg deleted, if_neg dots,
        if_neg same, if_pos oldCovered])
  by_cases newCovered : (registryFinddirent reg newDir newName).any reg.covered = true
  · exact refused (.code .busy) (by
      simp only [registryRename, if_neg notDirs, if_neg sized, if_neg deleted, if_neg dots,
        if_neg same, if_neg oldCovered, if_pos newCovered])
  cases found : reg.lookup oldDir oldName with
  | none =>
      have missing : (registryFinddirent reg oldDir oldName).bind reg.target = none := found
      exact refused (.code .notFound) (by
        simp only [registryRename, if_neg notDirs, if_neg sized, if_neg deleted, if_neg dots,
          if_neg same, if_neg oldCovered, if_neg newCovered, missing])
  | some moved =>
  have moves : (registryFinddirent reg oldDir oldName).bind reg.target = some moved := found
  by_cases cycle : reg.isDir moved = true
      ∧ dirHasAncestor reg reg.inodes.next newDir moved = true
  · exact refused (.code .busy) (by
      simp only [registryRename, if_neg notDirs, if_neg sized, if_neg deleted, if_neg dots,
        if_neg same, if_neg oldCovered, if_neg newCovered, moves, if_pos cycle])
  cases search : registryFinddirent reg newDir newName with
  | none =>
      have free : reg.lookup newDir newName = none := by simp [Registry.lookup, search]
      obtain ⟨old, oldFound, _, has, rfl, rfl⟩ := lookup_some found
      have apart (isDir : reg.isDir oldFound.inode = true) (taken : Nat)
          : reg.parentOf^[taken] newDir ≠ oldFound.inode := by
        intro reached
        exact cycle ⟨isDir, (sound.tree.dirHasAncestor_iff passes.newIsDir).mpr ⟨taken, reached⟩⟩
      have movable : Movable reg oldDir old oldFound newDir newName :=
        ⟨has, passes.oldPlain, passes.oldIsDir, passes.newIsDir, passes.newLive, passes.newPlain,
          fun other contents hasOther => registryFinddirent_none search hasOther, apart⟩
      have clean := sound.moveEntry_clean roomy movable passes.oldLive room
      have ran : registryRename reg oldDir oldFound.name newDir newName room
          = moveEntry reg oldDir oldFound.name newDir newName oldFound.inode room := by
        simp only [registryRename, if_neg notDirs, if_neg sized, if_neg deleted, if_neg dots,
          if_neg same, if_neg oldCovered, if_neg newCovered, moves, if_neg cycle]
        rw [search, Option.bind_none]
      unfold RenamesCleanly
      rw [ran, free]
      generalize moveEntry reg oldDir oldFound.name newDir newName oldFound.inode room = result
        at clean ⊢
      obtain ⟨outcome, after⟩ := result
      cases outcome with
      | error => exact clean
      | ok => exact ⟨oldFound.inode, found, .inr clean⟩
  | some entry =>
      obtain ⟨contents, hasNew, _⟩ := registryFinddirent_some search
      have target : reg.target entry = some contents.inode := by simp [Registry.target, hasNew.2]
      have target' : (registryFinddirent reg newDir newName).bind reg.target
          = some contents.inode := by rw [search, Option.bind_some, target]
      by_cases sameFile : contents.inode = moved
      · have denotes : reg.lookup newDir newName = some moved := by
          rw [Registry.lookup, search, Option.bind_some, target, sameFile]
        have ran : registryRename reg oldDir oldName newDir newName room = (.ok (), reg) := by
          simp only [registryRename, if_neg notDirs, if_neg sized, if_neg deleted, if_neg dots,
            if_neg same, if_neg oldCovered, if_neg newCovered, moves, if_neg cycle, target',
            if_pos sameFile]
        unfold RenamesCleanly
        rw [ran]
        exact ⟨moved, found, .inl ⟨denotes, Untouched.refl reg⟩⟩
      by_cases mixed : reg.isDir moved ≠ reg.isDir contents.inode
      · exact refused (.code .unsupportedOp) (by
          simp only [registryRename, if_neg notDirs, if_neg sized, if_neg deleted, if_neg dots,
            if_neg same, if_neg oldCovered, if_neg newCovered, moves, if_neg cycle, target',
            if_neg sameFile, if_pos mixed])
      by_cases full : reg.isDir contents.inode = true
          ∧ registryDirIsEmpty reg contents.inode = false
      · exact refused (.code .busy) (by
          simp only [registryRename, if_neg notDirs, if_neg sized, if_neg deleted, if_neg dots,
            if_neg same, if_neg oldCovered, if_neg newCovered, moves, if_neg cycle, target',
            if_neg sameFile, if_neg mixed, if_pos full])
      have replaces : Replaces reg oldDir oldName newDir newName moved entry contents :=
        ⟨passes, same, oldCovered, newCovered, found, cycle, search, hasNew.2, sameFile, mixed, full⟩
      exact (replaces.clean_iff sound roomy).mpr (safe.replaced moved entry contents replaces)

theorem Sound.renameClean_iff {oldName : Name} {room : LinkRoom} (sound : Sound reg holds pins)
    (roomy : reg.Roomy)
    : RenamesCleanly reg oldDir oldName newDir newName room
      ↔ RenameSafe reg oldDir oldName newDir newName room := by
  refine ⟨fun clean => ⟨?_, ?_⟩, fun safe => safe.clean sound roomy⟩
  · exact fun moved entry found replaces => (replaces.clean_iff sound roomy).mp clean
  · intro passes sameDir sameName
    obtain ⟨oldIsDir, newIsDir, sized, oldLive, newLive, oldPlain, newPlain⟩ := passes
    have dirs : ¬(reg.isDir oldDir = false ∨ reg.isDir newDir = false) := by
      simp [oldIsDir, newIsDir]
    have live : ¬(reg.isDeleted oldDir = true ∨ reg.isDeleted newDir = true) := by
      simp [oldLive, newLive]
    have plain : ¬(isDotName oldName = true ∨ isDotName newName = true) := by
      simp [oldPlain, newPlain]
    have ran : registryRename reg oldDir oldName newDir newName room = (.ok (), reg) := by
      simp only [registryRename, if_neg dirs, if_neg sized, if_neg live, if_neg plain,
        if_pos (And.intro sameDir sameName)]
    unfold RenamesCleanly at clean
    rw [ran] at clean
    obtain ⟨moved, found, _⟩ := clean
    exact ⟨moved, found⟩

-- Runs

/-- In every tree that is reached with no count at its cap, a rename is clean exactly where a new
entry can be made in the place of the one it replaces.
-/
theorem Run.rename_clean_iff {space : Namespace} (run : Run Registry.Roomy space)
    (roomy : space.reg.Roomy) (oldDir : Nat) (oldName : Name) (newDir : Nat) (newName : Name)
    (room : LinkRoom)
    : RenamesCleanly space.reg oldDir oldName newDir newName room
      ↔ RenameSafe space.reg oldDir oldName newDir newName room :=
  run.good.sound.renameClean_iff roomy

theorem roomy_of_all
    (inodes
      : (List.range reg.inodes.next).all (fun inode =>
          (reg.inodes.get inode).all (fun node => decide (node.refcount < INT_MAX))) = true)
    (dirents
      : (List.range reg.dirents.next).all (fun entry =>
          (reg.dirents.get entry).all (fun found => decide (found.refcount < UINT16_MAX))) = true)
    : reg.Roomy := by
  rw [List.all_eq_true] at inodes dirents
  refine ⟨?_, ?_⟩
  · intro inode node here
    simpa [here] using inodes inode (List.mem_range.mpr (Arena.lt_next here))
  · intro entry found present
    simpa [present] using dirents entry (List.mem_range.mpr (Arena.lt_next present))

/-- The namespace after a second directory `/b` was made. -/
def twoDirectories : Namespace :=
  oneDirectory.step
    (.mkdir 0 ['/', 'b'] ⟨true, ⟨true, true⟩, ⟨true, true⟩, ⟨true, true⟩⟩)

theorem twoDirectories_run : Run Registry.Roomy twoDirectories :=
  .step (.step .start trivial registryInit_roomy) trivial
    (roomy_of_all (by decide +kernel) (by decide +kernel))

/-- `/a` takes the place of `/b` where both allocations succeed. -/
theorem rename_replaces_small
    : ∃ space, Run Registry.Roomy space
        ∧ RenamesCleanly space.reg 0 ['a'] 0 ['b'] ⟨true, true⟩ := by
  refine ⟨twoDirectories, twoDirectories_run, ?_⟩
  refine (Run.rename_clean_iff twoDirectories_run
    (roomy_of_all (by decide +kernel) (by decide +kernel)) 0 ['a'] 0 ['b'] ⟨true, true⟩).mpr ?_
  refine ⟨fun _ entry _ _ => ⟨rfl, rfl, ?_⟩, fun _ _ same => absurd same (by decide)⟩
  exact Nat.lt_of_le_of_lt (Nat.sub_le _ _) (by decide +kernel)

/-- Where the name cannot be copied, `/b` is lost and the call fails. -/
theorem rename_loses
    : ¬∀ space, Run Registry.Roomy space
        → RenamesCleanly space.reg 0 ['a'] 0 ['b'] ⟨false, true⟩ := by
  intro clean
  have kept := clean twoDirectories twoDirectories_run
  have failed : registryRename twoDirectories.reg 0 ['a'] 0 ['b'] ⟨false, true⟩
      = (.error (.code .plainErr),
        (registryRename twoDirectories.reg 0 ['a'] 0 ['b'] ⟨false, true⟩).2) := by
    have error : (registryRename twoDirectories.reg 0 ['a'] 0 ['b'] ⟨false, true⟩).1
        = .error (.code .plainErr) := by
      decide +kernel
    rw [← error]
  unfold RenamesCleanly at kept
  rw [failed] at kept
  have lost := kept.names 0 ['b']
  have before : twoDirectories.reg.lookup 0 ['b'] = some 2 := by decide +kernel
  have after : (registryRename twoDirectories.reg 0 ['a'] 0 ['b'] ⟨false, true⟩).2.lookup 0 ['b']
      = none := by
    decide +kernel
  rw [before, after] at lost
  cases lost

end Panuti.Native
