import Panuti.Native.Links

/-! Renaming: the replaced entry goes first, then the new name is linked, the old one dropped,
and a moved directory hung below its new parent.
-/

namespace Panuti.Native

open Panuti.Kernel (Errno HandleOps InodeType)

section Renames

variable {reg : Registry} {holds pins : Nat → Nat}

-- References that are not the last

variable {entry oldDir old newDir new : Nat} {found oldFound : Dirent} {newName : Name}
    {after : Registry}

theorem Counts.inodeUnref_named {inode : Nat} {node : Inode}
    (counts : Counts reg [] (plus holds [inode]) pins) (here : reg.inodes.get inode = some node)
    (present : reg.dirents.get entry = some found) (names : found.inode = inode)
    (elsewhere : entry ∉ node.children)
    : Native.inodeUnref reg inode
      = reg.modifyInode inode (fun was => { was with refcount := node.refcount - 1 }) := by
  have count := (counts.counted inode (by simp) node here).2
  have more : ((entry :: node.children).map (reg.dirents.weigh (naming inode))).sum
      ≤ reg.namings inode :=
    Arena.sum_weigh_le _ (List.nodup_cons.mpr ⟨elsewhere, counts.nodup inode node here⟩)
  have one : naming inode found = 1 := if_pos names
  rw [List.map_cons, List.sum_cons, Arena.weigh_of_some present, one] at more
  rw [plus_self, Registry.selfLinks] at count
  have left : node.refcount - 1 ≠ 0 := by omega
  have positive : reg.inodes.next ≠ 0 := by
    have := Arena.lt_next here
    omega
  obtain ⟨fuel, some_fuel⟩ := Nat.exists_eq_succ_of_ne_zero positive
  simp [Native.inodeUnref, some_fuel, inodeUnrefDepth, here, left]

theorem Counts.direntUnref_named {other : Nat} {node : Inode} {otherFound : Dirent}
    (counts : Counts reg [] holds (plus pins [entry]))
    (present : reg.dirents.get entry = some found) (here : reg.inodes.get found.inode = some node)
    (presentOther : reg.dirents.get other = some otherFound)
    (names : otherFound.inode = found.inode) (apart : other ≠ entry)
    (elsewhere : other ∉ node.children)
    : (∀ inode, ∃ refcount : Inode → Int,
          (Native.direntUnref reg entry).inodes.get inode
            = (reg.inodes.get inode).map (fun was => { was with refcount := refcount was })
          ∧ (inode ≠ found.inode → ∀ was, refcount was = was.refcount))
      ∧ ∀ place, place ≠ entry
        → (Native.direntUnref reg entry).dirents.get place = reg.dirents.get place := by
  have unchanged (inode : Nat)
      : ∃ refcount : Inode → Int,
          reg.inodes.get inode
            = (reg.inodes.get inode).map (fun was => { was with refcount := refcount was })
          ∧ (inode ≠ found.inode → ∀ was, refcount was = was.refcount) :=
    ⟨fun was => was.refcount, by simp, fun _ _ => rfl⟩
  simp only [Native.direntUnref, Native.direntPut, present]
  by_cases more : found.refcount - 1 ≠ 0
  · rw [if_pos more]
    exact ⟨unchanged, fun place different => Arena.get_modify_of_ne different⟩
  · rw [if_neg more]
    obtain ⟨positive, onList, offList⟩ := counts.entryCount entry found present
    rw [plus_self] at onList offList
    have unlisted : ¬reg.Listed [] entry := by
      intro isListed
      have := onList isListed
      omega
    have freed : Counts
        { reg with
          dirents := reg.dirents.free entry, direntCount := reg.direntCount - 1 }
        [] (plus holds [found.inode]) pins := by
      refine counts.freeEntry present (by omega) unlisted ?_ (by simp)
      intro inode _
      by_cases same : inode = found.inode
      · rw [same, plus_self]
        simp [naming]
      · rw [plus_of_ne same, naming, if_neg (fun eq => same eq.symm)]
        rfl
    have stillThere : (reg.dirents.free entry).get other = some otherFound :=
      Arena.get_free_eq_some.mpr ⟨apart, presentOther⟩
    simp only [if_true]
    rw [freed.inodeUnref_named here stillThere names elsewhere]
    refine ⟨?_, fun place different => Arena.get_free_of_ne different⟩
    intro inode
    by_cases same : inode = found.inode
    · subst same
      refine ⟨fun _ => node.refcount - 1, ?_, fun different => absurd rfl different⟩
      simp [Registry.modifyInode]
    · obtain ⟨refcount, keeps, _⟩ := unchanged inode
      refine ⟨fun was => was.refcount, ?_, fun _ _ => rfl⟩
      simp [Registry.modifyInode, Arena.get_modify_of_ne same]

-- Moving

theorem Within.trans {middle changed : Registry} (first : Within reg middle)
    (second : Within middle changed)
    : Within reg changed where
  inode := by
    intro inode node present
    obtain ⟨between, there, type, deleted, children⟩ := second.inode inode node present
    obtain ⟨was, old, typeToo, deletedToo, childrenToo⟩ := first.inode inode between there
    exact ⟨was, old, type.trans typeToo, deleted.trans deletedToo, children.trans childrenToo⟩
  entry := by
    intro entry found present
    obtain ⟨between, there, name, inode⟩ := second.entry entry found present
    obtain ⟨was, old, nameToo, inodeToo⟩ := first.entry entry between there
    exact ⟨was, old, name.trans nameToo, inode.trans inodeToo⟩
  sameRoot := second.sameRoot.trans first.sameRoot

theorem Within.inodeRef (reg : Registry) (inode : Nat) : Within reg (inodeRef reg inode) where
  inode := by
    intro other node present
    obtain ⟨was, there, rfl⟩ := Arena.get_modify_eq_some present
    refine ⟨was, there, ?_⟩
    split
    · split
      · exact ⟨rfl, rfl, rfl⟩
      · exact ⟨rfl, rfl, rfl⟩
    · exact ⟨rfl, rfl, rfl⟩
  entry _ found present := ⟨found, present, rfl, rfl⟩
  sameRoot := rfl

/-- What `moveEntry` starts from. -/
structure Movable (reg : Registry) (oldDir old : Nat) (oldFound : Dirent) (newDir : Nat)
    (newName : Name) : Prop where
  has : reg.Has oldDir old oldFound
  plainOld : isDotName oldFound.name = false
  oldIsDir : reg.isDir oldDir = true
  newIsDir : reg.isDir newDir = true
  newLive : reg.isDeleted newDir = false
  plain : isDotName newName = false
  free : ∀ other found, reg.Has newDir other found → found.name ≠ newName
  apart
    : reg.isDir oldFound.inode = true
      → ∀ taken, reg.parentOf^[taken] newDir ≠ oldFound.inode

theorem Movable.moved_ne (movable : Movable reg oldDir old oldFound newDir newName)
    : newDir ≠ oldFound.inode := by
  intro same
  have isDir : reg.isDir oldFound.inode = true := by
    rw [← same]
    exact movable.newIsDir
  exact movable.apart isDir 0 same

/-- What linking the new name and dropping the old one leaves. -/
structure Relinked (reg after : Registry) (old newDir new : Nat) (newName : Name) (moved : Nat)
    : Prop where
  follows : Follows reg after
  isDir : ∀ inode, after.isDir inode = reg.isDir inode
  isDeleted : ∀ inode, after.isDeleted inode = reg.isDeleted inode
  has
    : ∀ parent other found, after.Has parent other found
      ↔ parent = newDir ∧ other = new ∧ found = ⟨newName, 1, moved⟩
        ∨ reg.Has parent other found ∧ other ≠ old
  refcount
    : ∀ inode node, after.inodes.get inode = some node → inode ≠ moved
      → ∃ was, reg.inodes.get inode = some was ∧ node.refcount = was.refcount

/-- The two entries a rename exchanges: the counts agree again, and no inode is destroyed.
Witness: the new entry keeps the moved inode in use.
-/
theorem Movable.relink {linkedReg : Registry}
    (movable : Movable reg oldDir old oldFound newDir newName) (sound : Sound reg holds pins)
    (roomy : reg.Roomy) (linked : Linked reg linkedReg newDir new newName oldFound.inode)
    : let after := direntUnref (linkedReg.modifyInode oldDir (fun node =>
        { node with children := node.children.erase old })) old
      registryFinddirent linkedReg oldDir oldFound.name = some old
        ∧ Counts after [] holds pins
        ∧ Relinked reg after old newDir new newName oldFound.inode := by
  have hasLinked := linked.has sound.counts movable.newIsDir
  obtain ⟨movedNode, movedHere⟩ := sound.counts.target old oldFound movable.has.2
  have counts := linked.counts sound.counts movable.newIsDir movedHere
    (fun _ => roomy.1 oldFound.inode movedNode movedHere)
  have hasOld : linkedReg.Has oldDir old oldFound :=
    (hasLinked _ _ _).mpr (Or.inl movable.has)
  have hasNew : linkedReg.Has newDir new ⟨newName, 1, oldFound.inode⟩ :=
    (hasLinked _ _ _).mpr (Or.inr ⟨rfl, rfl, rfl⟩)
  have newNotOld : new ≠ old := by
    rw [linked.newEntry]
    exact (Arena.ne_next movable.has.2).symm
  have search : registryFinddirent linkedReg oldDir oldFound.name = some old := by
    apply registryFinddirent_eq hasOld rfl
    intro other found has named
    rcases (hasLinked _ _ _).mp has with was | ⟨rfl, _, rfl⟩
    · exact sound.tree.distinct oldDir other old found oldFound was movable.has named
    · exact absurd named.symm (movable.free old oldFound movable.has)
  obtain ⟨dirNode, dirHere, member⟩ := hasOld.1
  have notSelf := sound.tree.target_ne movable.oldIsDir movable.has movable.plainOld
  have detached : Counts
      (linkedReg.modifyInode oldDir (fun node =>
        { node with children := node.children.erase old }))
      [] holds (plus pins [old]) := by
    apply counts.detach dirHere (by simp) member hasOld.2
    intro other
    split
    · rename_i same
      rw [same, naming, if_neg notSelf]
      rfl
    · rfl
  have hasErased (parent other : Nat) (found : Dirent)
      : (linkedReg.modifyInode oldDir (fun node =>
          { node with children := node.children.erase old })).Has parent other found
        ↔ linkedReg.Has parent other found ∧ other ≠ old := by
    rw [has_erase dirHere (counts.nodup oldDir dirNode dirHere)]
    refine and_congr_right (fun has => not_congr ⟨fun both => both.2, ?_⟩)
    rintro rfl
    exact ⟨(counts.has_unique has hasOld).1, rfl⟩
  have followsErased : Follows reg (linkedReg.modifyInode oldDir (fun node =>
      { node with children := node.children.erase old })) :=
    linked.follows.trans (Follows.modifyInode linkedReg oldDir
      (fun _ _ inErased => List.mem_of_mem_erase inErased))
  have isDirErased (inode : Nat)
      : (linkedReg.modifyInode oldDir (fun node =>
          { node with children := node.children.erase old })).isDir inode
        = reg.isDir inode := by
    rw [← linked.isDir inode]
    exact isDir_modifyInode (fun _ => rfl)
  have isDeletedErased (inode : Nat)
      : (linkedReg.modifyInode oldDir (fun node =>
          { node with children := node.children.erase old })).isDeleted inode
        = reg.isDeleted inode := by
    rw [← linked.isDeleted inode]
    exact isDeleted_modifyInode (fun _ => rfl)
  have countErased (inode : Nat) (node : Inode)
      (here : (linkedReg.modifyInode oldDir (fun node =>
          { node with children := node.children.erase old })).inodes.get inode = some node)
      (apart : inode ≠ oldFound.inode)
      : ∃ was, reg.inodes.get inode = some was ∧ node.refcount = was.refcount := by
    obtain ⟨between, there, rfl⟩ := Arena.get_modify_eq_some here
    rw [linked.nodes] at there
    obtain ⟨was, origin, rfl⟩ := Option.map_eq_some_iff.mp there
    refine ⟨was, origin, ?_⟩
    split
    · simp [apart]
    · simp [apart]
  have oldErased : (linkedReg.modifyInode oldDir (fun node =>
      { node with children := node.children.erase old })).dirents.get old = some oldFound :=
    hasOld.2
  have newErased := (hasErased _ _ _).mpr ⟨hasNew, newNotOld⟩
  generalize linkedReg.modifyInode oldDir (fun node =>
    { node with children := node.children.erase old }) = erased
    at detached hasErased followsErased isDirErased isDeletedErased countErased oldErased
      newErased ⊢
  obtain ⟨erasedNode, erasedHere⟩ := detached.target old oldFound oldErased
  have elsewhere : new ∉ erasedNode.children := by
    intro memberNew
    obtain ⟨newNode, newHere, memberToo⟩ := newErased.1
    exact movable.moved_ne (detached.owner newDir oldFound.inode newNode erasedNode new
      newHere erasedHere memberToo memberNew)
  obtain ⟨after, shrinks⟩ := detached.direntUnref
    (sound.readers.follows sound.counts followsErased)
  obtain ⟨inodes, dirents⟩ := detached.direntUnref_named oldErased erasedHere newErased.2 rfl
    newNotOld elsewhere
  generalize direntUnref erased old = dropped at after shrinks inodes dirents ⊢
  refine ⟨search, after, ?_⟩
  constructor
  · exact followsErased.trans shrinks.follows
  · intro inode
    rw [← isDirErased]
    obtain ⟨refcount, keeps, _⟩ := inodes inode
    simp only [Registry.isDir, keeps]
    cases erased.inodes.get inode <;> rfl
  · intro inode
    rw [← isDeletedErased]
    obtain ⟨refcount, keeps, _⟩ := inodes inode
    simp only [Registry.isDeleted, keeps]
    cases erased.inodes.get inode <;> rfl
  · intro parent other found
    have same : dropped.Has parent other found ↔ erased.Has parent other found := by
      have lists : (∃ node, dropped.inodes.get parent = some node ∧ other ∈ node.children)
          ↔ ∃ node, erased.inodes.get parent = some node ∧ other ∈ node.children := by
        obtain ⟨refcount, keeps, _⟩ := inodes parent
        rw [keeps]
        cases erased.inodes.get parent with
        | none => simp
        | some node => simp
      by_cases isOld : other = old
      · subst isOld
        constructor
        · rintro ⟨onList, present⟩
          have there := (hasErased parent other oldFound).mp ⟨lists.mp onList, oldErased⟩
          exact absurd rfl there.2
        · intro has
          exact absurd rfl ((hasErased parent other found).mp has).2
      · simp only [Registry.Has, lists, dirents other isOld]
    rw [same, hasErased, hasLinked]
    constructor
    · rintro ⟨was | isNew, different⟩
      · exact Or.inr ⟨was, different⟩
      · exact Or.inl isNew
    · rintro (⟨rfl, rfl, rfl⟩ | ⟨was, different⟩)
      · exact ⟨Or.inr ⟨rfl, rfl, rfl⟩, newNotOld⟩
      · exact ⟨Or.inl was, different⟩
  · intro inode node here apart
    obtain ⟨refcount, keeps, unchanged⟩ := inodes inode
    rw [keeps] at here
    obtain ⟨was, there, rfl⟩ := Option.map_eq_some_iff.mp here
    obtain ⟨origin, first, count⟩ := countErased inode was there apart
    exact ⟨origin, first, (unchanged apart was).trans count⟩

theorem Relinked.tree_near (relinked : Relinked reg after old newDir new newName oldFound.inode)
    (movable : Movable reg oldDir old oldFound newDir newName) (tree : Tree reg)
    (counts : Counts reg [] holds pins)
    (near : ¬(reg.isDir oldFound.inode = true ∧ oldDir ≠ newDir))
    : Tree after := by
  refine tree.move new (fun _ found => found) movable.has movable.plainOld rfl
    movable.newIsDir movable.newLive movable.plain movable.free movable.apart
    (fun _ _ => rfl) ?_ relinked.follows.sameRoot relinked.isDir relinked.isDeleted ?_
  · intro parent other found has
    split
    · rename_i upward
      obtain ⟨rfl, named⟩ := upward
      obtain ⟨node, here, member⟩ := has.1
      have isDir : reg.isDir oldFound.inode = true := by
        refine Registry.isDir_iff.mpr ⟨node, here, ?_⟩
        by_contra file
        rw [counts.files oldFound.inode node here file] at member
        cases member
      have same : oldDir = newDir := by
        by_contra cross
        exact near ⟨isDir, cross⟩
      rw [← tree.parentOf has named, ← same]
      exact (tree.child oldDir old oldFound movable.has movable.plainOld isDir).2.2
    · rfl
  · intro parent other found
    rw [relinked.has]
    refine or_congr_right ⟨?_, ?_⟩
    · rintro ⟨has, different⟩
      exact ⟨found, has, different, rfl⟩
    · rintro ⟨was, has, different, rfl⟩
      exact ⟨has, different⟩

/-- Hanging a moved directory below its new parent completes the move. -/
theorem Relinked.reparent (relinked : Relinked reg after old newDir new newName oldFound.inode)
    (movable : Movable reg oldDir old oldFound newDir newName) (sound : Sound reg holds pins)
    (roomy : reg.Roomy) (counts : Counts after [] holds pins)
    (isDir : reg.isDir oldFound.inode = true) (cross : oldDir ≠ newDir)
    : let hung := reparent after oldFound.inode newDir
      Sound hung holds pins ∧ Follows reg hung := by
  have movedNe := movable.moved_ne
  have notSelf := sound.tree.target_ne movable.oldIsDir movable.has movable.plainOld
  obtain ⟨up, upFound, hasUp, named⟩ := sound.tree.parent oldFound.inode isDir
  have upParent : upFound.inode = oldDir := by
    rw [← sound.tree.parentOf hasUp named]
    exact (sound.tree.child oldDir old oldFound movable.has movable.plainOld isDir).2.2
  have upNotOld : up ≠ old := by
    rintro rfl
    obtain rfl : oldFound = upFound := Option.some.inj (movable.has.2.symm.trans hasUp.2)
    have plain := movable.plainOld
    rw [named, dotdot_isDotName] at plain
    cases plain
  have hasUpAfter : after.Has oldFound.inode up upFound :=
    (relinked.has _ _ _).mpr (Or.inr ⟨hasUp, upNotOld⟩)
  have search : registryFinddirent after oldFound.inode dotdot = some up := by
    apply registryFinddirent_eq hasUpAfter named
    intro other found has namedToo
    rcases (relinked.has _ _ _).mp has with ⟨same, _, _⟩ | ⟨was, _⟩
    · exact absurd same.symm movedNe
    · exact sound.tree.distinct oldFound.inode other up found upFound was hasUp
        (namedToo.trans named.symm)
  have target : after.target up = some oldDir := by
    simp [Registry.target, hasUpAfter.2, upParent]
  simp only [Native.reparent, search, target, if_neg cross]
  obtain ⟨newNode, newHere⟩ : ∃ node, after.inodes.get newDir = some node := by
    have newIsDir := movable.newIsDir
    rw [← relinked.isDir, Registry.isDir_iff] at newIsDir
    obtain ⟨node, here, _⟩ := newIsDir
    exact ⟨node, here⟩
  have below : newNode.refcount < INT_MAX := by
    obtain ⟨was, there, same⟩ := relinked.refcount newDir newNode newHere movedNe
    rw [same]
    exact roomy.1 newDir was there
  have referred := counts.inodeRef newHere (by simp) below
  obtain ⟨movedNode, movedHere, member⟩ := hasUpAfter.1
  have movedReferred : (inodeRef after newDir).inodes.get oldFound.inode = some movedNode := by
    rw [← movedHere]
    exact Arena.get_modify_of_ne movedNe.symm
  have shifted : Counts
      ((inodeRef after newDir).modifyDirent up (fun found => { found with inode := newDir }))
      [] (plus holds [oldDir]) pins := by
    have retargeted := referred.retarget movedReferred member hasUpAfter.2
      (by rw [upParent]; exact cross) (by rw [upParent]; exact notSelf.symm) movedNe (by simp)
    rwa [upParent] at retargeted
  have follows : Follows reg
      ((inodeRef after newDir).modifyDirent up (fun found => { found with inode := newDir })) := by
    refine (relinked.follows.trans (Follows.modifyInode after newDir ?_)).trans
      (Follows.modifyDirent _ up _)
    intro node entry inNode
    split at inNode
    · exact inNode
    · exact inNode
  have tree
      : Tree (after.modifyDirent up (fun found => { found with inode := newDir })) := by
    refine sound.tree.move new
      (fun other found => if other = up then { found with inode := newDir } else found)
      movable.has movable.plainOld rfl movable.newIsDir movable.newLive movable.plain
      movable.free movable.apart ?_ ?_ relinked.follows.sameRoot relinked.isDir
      relinked.isDeleted ?_
    · intro other found
      split <;> rfl
    · intro parent other found has
      by_cases isUp : other = up
      · subst isUp
        obtain ⟨rfl, rfl⟩ := sound.counts.has_unique has hasUp
        simp [named]
      · have notUp : ¬(parent = oldFound.inode ∧ found.name = dotdot) := by
          rintro ⟨rfl, namedToo⟩
          exact isUp (sound.tree.distinct oldFound.inode other up found upFound has hasUp
            (namedToo.trans named.symm))
        rw [if_neg isUp, if_neg notUp]
    · intro parent other found
      have newNotUp : new ≠ up := by
        rintro rfl
        have hasNew := (relinked.has newDir new _).mpr (Or.inl ⟨rfl, rfl, rfl⟩)
        exact movedNe (counts.has_unique hasNew hasUpAfter).1
      rw [has_modifyDirent]
      constructor
      · rintro ⟨was, has, rfl⟩
        rcases (relinked.has _ _ _).mp has with ⟨rfl, rfl, rfl⟩ | ⟨hasWas, different⟩
        · exact Or.inl ⟨rfl, rfl, if_neg newNotUp⟩
        · exact Or.inr ⟨was, hasWas, different, rfl⟩
      · rintro (⟨rfl, rfl, rfl⟩ | ⟨was, hasWas, different, rfl⟩)
        · exact ⟨_, (relinked.has _ _ _).mpr (Or.inl ⟨rfl, rfl, rfl⟩), (if_neg newNotUp).symm⟩
        · exact ⟨was, (relinked.has _ _ _).mpr (Or.inr ⟨hasWas, different⟩), rfl⟩
  have readers := sound.readers.follows sound.counts follows
  obtain ⟨final, shrinks⟩ := shifted.inodeUnref readers
  have rootHeld : 0 < holds after.root := by
    rw [relinked.follows.sameRoot]
    exact sound.rootHeld
  have within := (Within.inodeRef
    (after.modifyDirent up (fun found => { found with inode := newDir })) newDir).trans
    shrinks.within
  refine ⟨⟨final, tree.within within final rootHeld, readers.shrinks shrinks, ?_⟩,
    follows.trans shrinks.follows⟩
  rw [shrinks.sameRoot]
  exact rootHeld

theorem Sound.moveEntry {room : LinkRoom} (sound : Sound reg holds pins) (roomy : reg.Roomy)
    (movable : Movable reg oldDir old oldFound newDir newName)
    : let after :=
        (moveEntry reg oldDir oldFound.name newDir newName oldFound.inode room).2
      Sound after holds pins ∧ Follows reg after := by
  simp only [Native.moveEntry]
  cases result : registryLinkdirent reg newDir newName oldFound.inode room with
  | none => exact ⟨sound, Follows.refl reg⟩
  | some made =>
      obtain ⟨new, linkedReg⟩ := made
      obtain ⟨_, linked⟩ := registryLinkdirent_some result
      obtain ⟨search, counts, relinked⟩ := movable.relink sound roomy linked
      simp only [direntDetach, search]
      rw [relinked.isDir]
      by_cases far : reg.isDir oldFound.inode = true ∧ oldDir ≠ newDir
      · rw [if_pos far]
        exact relinked.reparent movable sound roomy counts far.1 far.2
      · rw [if_neg far]
        refine ⟨⟨counts, relinked.tree_near movable sound.tree sound.counts far,
          sound.readers.follows sound.counts relinked.follows, ?_⟩, relinked.follows⟩
        rw [relinked.follows.sameRoot]
        exact sound.rootHeld

-- Replacing

/-- The entry can still be moved once the entry it replaces is dropped.
Witness: an empty directory is on nobody's climb.
-/
theorem Movable.dropped (tree : Tree reg) (afterTree : Tree after)
    (dropped : Dropped reg after entry found.inode) (has : reg.Has oldDir old oldFound)
    (plainOld : isDotName oldFound.name = false) (oldIsDir : reg.isDir oldDir = true)
    (oldLive : reg.isDeleted oldDir = false) (newIsDir : reg.isDir newDir = true)
    (newLive : reg.isDeleted newDir = false) (hasNew : reg.Has newDir entry found)
    (plain : isDotName found.name = false) (different : found.inode ≠ oldFound.inode)
    (empty
      : reg.isDir found.inode = true
        → ∀ other otherFound, reg.Has found.inode other otherFound
        → isDotName otherFound.name = true)
    (apart
      : reg.isDir oldFound.inode = true
        → ∀ taken, reg.parentOf^[taken] newDir ≠ oldFound.inode)
    : ∃ now, now.name = oldFound.name
        ∧ now.inode = oldFound.inode
        ∧ Movable after oldDir old now newDir found.name := by
  have notEmpty {dir place : Nat} {contents : Dirent} (isDir : reg.isDir dir = true)
      (hasPlain : reg.Has dir place contents) (plainContents : isDotName contents.name = false)
      : dir ≠ found.inode := by
    rintro rfl
    have dots := empty isDir place contents hasPlain
    rw [plainContents] at dots
    cases dots
  have oldNotEntry : old ≠ entry := by
    rintro rfl
    obtain rfl : oldFound = found := Option.some.inj (has.2.symm.trans hasNew.2)
    exact different rfl
  have oldNotGone := notEmpty oldIsDir has plainOld
  have newNotGone := notEmpty newIsDir hasNew plain
  obtain ⟨now, hasNow, name, inode⟩ :=
    dropped.hasKept oldDir oldIsDir oldLive oldNotGone old oldFound has oldNotEntry
  have sameParent {dir : Nat} (isDir : reg.isDir dir = true)
      (live : reg.isDeleted dir = false) (notGone : dir ≠ found.inode)
      : after.parentOf dir = reg.parentOf dir := by
    obtain ⟨up, upFound, hasUp, named⟩ := tree.parent dir isDir
    have upNotEntry : up ≠ entry := by
      rintro rfl
      obtain rfl : upFound = found := Option.some.inj (hasUp.2.symm.trans hasNew.2)
      rw [named, dotdot_isDotName] at plain
      cases plain
    obtain ⟨upNow, hasUpNow, upName, upInode⟩ :=
      dropped.hasKept dir isDir live notGone up upFound hasUp upNotEntry
    rw [afterTree.parentOf hasUpNow (upName.trans named), tree.parentOf hasUp named, upInode]
  have path (taken : Nat)
      : reg.isDeleted (reg.parentOf^[taken] newDir) = false
        ∧ reg.parentOf^[taken] newDir ≠ found.inode
        ∧ after.parentOf^[taken] newDir = reg.parentOf^[taken] newDir := by
    induction taken with
    | zero => exact ⟨newLive, newNotGone, rfl⟩
    | succ taken ih =>
        obtain ⟨live, notGone, same⟩ := ih
        have isDir := tree.iterate_isDir newIsDir taken
        rw [Function.iterate_succ_apply', Function.iterate_succ_apply', same]
        generalize reg.parentOf^[taken] newDir = place at live notGone isDir
        refine ⟨tree.parent_live isDir live, ?_, sameParent isDir live notGone⟩
        by_cases atRoot : place = reg.root
        · rw [atRoot] at notGone ⊢
          rw [tree.rootParent]
          exact notGone
        · obtain ⟨other, contents, hasOther, plainOther, _⟩ :=
            tree.parent_names isDir live atRoot
          exact notEmpty (tree.parent_isDir isDir) hasOther plainOther
  obtain ⟨oldIsDirNow, _⟩ := dropped.kept oldDir oldIsDir oldLive oldNotGone
  obtain ⟨newIsDirNow, newLiveNow⟩ := dropped.kept newDir newIsDir newLive newNotGone
  refine ⟨now, name, inode, ?_⟩
  constructor
  · exact hasNow
  · rw [name]
    exact plainOld
  · exact oldIsDirNow
  · exact newIsDirNow
  · exact newLiveNow
  · exact plain
  · intro other contents hasOther same
    obtain ⟨otherNotEntry, was, hasWas, wasName, _⟩ := dropped.hasOld newDir other contents hasOther
    exact otherNotEntry (tree.distinct newDir other entry was found hasWas hasNew
      (wasName.symm.trans same))
  · intro isDirNow taken
    rw [inode] at isDirNow ⊢
    rw [(path taken).2.2]
    exact apart (dropped.isDirOld _ isDirNow) taken

/-- `registry_rename` keeps the registry sound. -/
theorem Sound.rename {oldName : Name} {room : LinkRoom} (sound : Sound reg holds pins)
    (roomy : reg.Roomy)
    : let after := (registryRename reg oldDir oldName newDir newName room).2
      Sound after holds pins ∧ Follows reg after := by
  simp only [registryRename]
  by_cases notDirs : reg.isDir oldDir = false ∨ reg.isDir newDir = false
  · simpa only [if_pos notDirs] using ⟨sound, Follows.refl reg⟩
  rw [if_neg notDirs]
  obtain ⟨oldIsDir, newIsDir⟩ := not_or.mp notDirs
  rw [Bool.not_eq_false] at oldIsDir newIsDir
  by_cases sized : oldName.length = 0 ∨ newName.length = 0
      ∨ REG_MAX_NAME_LEN ≤ oldName.length ∨ REG_MAX_NAME_LEN ≤ newName.length
  · simpa only [if_pos sized] using ⟨sound, Follows.refl reg⟩
  rw [if_neg sized]
  by_cases deleted : reg.isDeleted oldDir = true ∨ reg.isDeleted newDir = true
  · simpa only [if_pos deleted] using ⟨sound, Follows.refl reg⟩
  rw [if_neg deleted]
  obtain ⟨oldLive, newLive⟩ := not_or.mp deleted
  rw [Bool.not_eq_true] at oldLive newLive
  by_cases dots : isDotName oldName = true ∨ isDotName newName = true
  · simpa only [if_pos dots] using ⟨sound, Follows.refl reg⟩
  rw [if_neg dots]
  obtain ⟨plainOld, plainNew⟩ := not_or.mp dots
  rw [Bool.not_eq_true] at plainOld plainNew
  by_cases same : oldDir = newDir ∧ oldName = newName
  · simpa only [if_pos same] using ⟨sound, Follows.refl reg⟩
  rw [if_neg same]
  by_cases oldCovered : (registryFinddirent reg oldDir oldName).any reg.covered = true
  · simpa only [if_pos oldCovered] using ⟨sound, Follows.refl reg⟩
  rw [if_neg oldCovered]
  by_cases newCovered : (registryFinddirent reg newDir newName).any reg.covered = true
  · simpa only [if_pos newCovered] using ⟨sound, Follows.refl reg⟩
  rw [if_neg newCovered]
  cases searchOld : registryFinddirent reg oldDir oldName with
  | none => exact ⟨sound, Follows.refl reg⟩
  | some old =>
  obtain ⟨oldFound, has, rfl⟩ := registryFinddirent_some searchOld
  have oldTarget : reg.target old = some oldFound.inode := by
    simp [Registry.target, has.2]
  simp only [Option.bind_some, oldTarget]
  by_cases cycle : reg.isDir oldFound.inode = true
      ∧ dirHasAncestor reg reg.inodes.next newDir oldFound.inode = true
  · simpa only [if_pos cycle] using ⟨sound, Follows.refl reg⟩
  rw [if_neg cycle]
  have apart (isDir : reg.isDir oldFound.inode = true) (taken : Nat)
      : reg.parentOf^[taken] newDir ≠ oldFound.inode := by
    intro reached
    exact cycle ⟨isDir, (sound.tree.dirHasAncestor_iff newIsDir).mpr ⟨taken, reached⟩⟩
  cases searchNew : registryFinddirent reg newDir newName with
  | none =>
      refine sound.moveEntry roomy
        ⟨has, plainOld, oldIsDir, newIsDir, newLive, plainNew, ?_, apart⟩
      intro other found hasOther
      exact registryFinddirent_none searchNew hasOther
  | some entry =>
  obtain ⟨found, hasNew, rfl⟩ := registryFinddirent_some searchNew
  have newTarget : reg.target entry = some found.inode := by
    simp [Registry.target, hasNew.2]
  simp only [Option.bind_some, newTarget]
  by_cases sameFile : found.inode = oldFound.inode
  · simpa only [if_pos sameFile] using ⟨sound, Follows.refl reg⟩
  rw [if_neg sameFile]
  by_cases mixed : reg.isDir oldFound.inode ≠ reg.isDir found.inode
  · simpa only [if_pos mixed] using ⟨sound, Follows.refl reg⟩
  rw [if_neg mixed]
  by_cases full : reg.isDir found.inode = true ∧ registryDirIsEmpty reg found.inode = false
  · simpa only [if_pos full] using ⟨sound, Follows.refl reg⟩
  rw [if_neg full]
  have empty (isDir : reg.isDir found.inode = true) (other : Nat) (otherFound : Dirent)
      (hasOther : reg.Has found.inode other otherFound)
      : isDotName otherFound.name = true := by
    apply registryDirIsEmpty_spec ?_ hasOther
    simpa using fun notEmpty => full ⟨isDir, notEmpty⟩
  obtain ⟨kept, follows, roomyAfter, dropped⟩ := sound.drop newIsDir hasNew plainNew empty
  simp only [dropReplaced, direntDetach, searchNew]
  obtain ⟨now, name, inode, movable⟩ := Movable.dropped sound.tree kept.tree dropped has plainOld
    oldIsDir oldLive newIsDir newLive hasNew plainNew sameFile empty apart
  rw [← name, ← inode]
  obtain ⟨final, followsMove⟩ := kept.moveEntry (roomyAfter roomy) movable
  exact ⟨final, follows.trans followsMove⟩

end Renames

end Panuti.Native
