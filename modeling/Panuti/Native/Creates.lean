import Panuti.Native.Links

/-! Creating a file or a directory below a directory of the tree, with every way the creation
can fail, and the walk that leads to it.
-/

namespace Panuti.Native

open Panuti.Kernel (Errno HandleOps InodeType)

section Creates

variable {reg : Registry} {holds pins : Nat → Nat}

-- A creation given up

/-- A registry with a new inode on its way into the tree: apart from that inode, one entry
for it at `current`, and newer entries, everything is as in `reg`.
-/
structure Started (reg middle : Registry) (current entry : Nat) : Prop where
  inodes
    : ∀ inode node, middle.inodes.get inode = some node
      → inode = reg.inodes.next
        ∨ ∃ was, reg.inodes.get inode = some was
          ∧ node.type = was.type
          ∧ node.deleted = was.deleted
          ∧ node.children = (if inode = current then entry :: was.children else was.children)
  dirents
    : ∀ other found, middle.dirents.get other = some found → other < reg.dirents.next
      → reg.dirents.get other = some found
  sameRoot : middle.root = reg.root
  sameMounts : middle.mountpoints = reg.mountpoints
  nextEntry : reg.dirents.next ≤ middle.dirents.next

theorem Sound.abandon {after : Registry} (sound : Sound reg holds pins)
    (counts : Counts after [] holds pins)
    (inodes
      : ∀ inode node, after.inodes.get inode = some node
        → inode = reg.inodes.next ∧ node.children = []
          ∨ ∃ was, reg.inodes.get inode = some was
            ∧ node.type = was.type
            ∧ node.deleted = was.deleted
            ∧ node.children = was.children)
    (dirents
      : ∀ other found, after.dirents.get other = some found → other < reg.dirents.next
        → ∃ was, reg.dirents.get other = some was
          ∧ found.name = was.name
          ∧ found.inode = was.inode)
    (sameRoot : after.root = reg.root) (sameMounts : after.mountpoints = reg.mountpoints)
    (nextEntry : reg.dirents.next ≤ after.dirents.next)
    : Sound after holds pins ∧ Follows reg after := by
  have absent : reg.inodes.get reg.inodes.next = none := Arena.get_beyond (Nat.le_refl _)
  have old : ∀ other found, after.dirents.get other = some found
      → other < reg.dirents.next := by
    intro other found present
    by_contra new
    have noPins : pins other = 0 := sound.counts.pins_absent (Arena.get_beyond (by omega))
    obtain ⟨positive, _, unlisted⟩ := counts.entryCount other found present
    have listed : after.Listed [] other := by
      by_contra notListed
      have := unlisted notListed
      omega
    obtain ⟨inode, node, _, here, member⟩ := listed
    rcases inodes inode node here with ⟨_, none_⟩ | ⟨was, there, _, _, children⟩
    · rw [none_] at member
      cases member
    · rw [children] at member
      exact new (sound.counts.young inode was there other member)
  have unnamed : after.namings reg.inodes.next = 0 := by
    apply Arena.tally_eq_zero
    intro other found present
    obtain ⟨was, there, _, inode⟩ := dirents other found present (old other found present)
    obtain ⟨node, target⟩ := sound.counts.target other was there
    have apart : found.inode ≠ reg.inodes.next := by
      rw [inode]
      exact Arena.ne_next target
    simp [naming, apart]
  have gone : after.inodes.get reg.inodes.next = none := by
    cases here : after.inodes.get reg.inodes.next with
    | none => rfl
    | some node =>
        obtain ⟨positive, count⟩ := counts.counted reg.inodes.next (by simp) node here
        rw [unnamed, sound.counts.holds_absent absent] at count
        omega
  have within : Within reg after := by
    refine ⟨?_, ?_, sameRoot⟩
    · intro inode node here
      rcases inodes inode node here with ⟨rfl, _⟩ | was
      · rw [gone] at here
        cases here
      · exact was
    · intro other found present
      exact dirents other found present (old other found present)
  have follows : Follows reg after := by
    refine ⟨?_, nextEntry, sameRoot, sameMounts⟩
    intro inode node here entry member _
    obtain ⟨was, there, _, _, children⟩ := within.inode inode node here
    exact ⟨was, there, by rw [← children]; exact member⟩
  refine ⟨⟨counts, sound.tree.within within counts sound.rootHeld,
    sound.readers.follows sound.counts follows, ?_⟩, follows⟩
  rw [sameRoot]
  exact sound.rootHeld

/-- Taking the entry of a new inode off again and dropping the inode leaves the registry as it
was.
-/
theorem Sound.giveUp {middle : Registry} {current entry : Nat} {name : Name} {node : Inode}
    (sound : Sound reg holds pins)
    (counts : Counts middle [] (plus holds [reg.inodes.next]) pins)
    (started : Started reg middle current entry)
    (isDir : reg.isDir current = true)
    (newHere : middle.inodes.get reg.inodes.next = some node) (noEntries : node.children = [])
    (has : middle.Has current entry ⟨name, 1, reg.inodes.next⟩)
    : let after := inodeUnref
        (direntUnref
          (middle.modifyInode current (fun node =>
            { node with children := node.children.erase entry }))
          entry)
        reg.inodes.next
      Sound after holds pins ∧ Follows reg after := by
  have apart : reg.inodes.next ≠ current := by
    obtain ⟨was, there, _⟩ := Registry.isDir_iff.mp isDir
    exact (Arena.ne_next there).symm
  obtain ⟨⟨currentNode, here, member⟩, present⟩ := has
  have detached : Counts
      (middle.modifyInode current (fun node =>
        { node with children := node.children.erase entry }))
      [] (plus holds [reg.inodes.next]) (plus pins [entry]) := by
    apply counts.detach here (by simp) member present
    intro other
    by_cases same : other = current
    · rw [if_pos same, same]
      simp [naming, apart]
    · rw [if_neg same]
      rfl
  have lists : ∀ inode found,
      (middle.modifyInode current (fun node =>
        { node with children := node.children.erase entry })).inodes.get inode = some found
      → inode = reg.inodes.next ∧ found.children = []
        ∨ ∃ was, reg.inodes.get inode = some was
          ∧ found.type = was.type
          ∧ found.deleted = was.deleted
          ∧ found.children = was.children := by
    intro inode found there
    obtain ⟨between, thereMiddle, rfl⟩ := Arena.get_modify_eq_some there
    rcases started.inodes inode between thereMiddle with isNew | ⟨was, old, type, deleted, children⟩
    · subst isNew
      obtain rfl : node = between := Option.some.inj (newHere.symm.trans thereMiddle)
      exact Or.inl ⟨rfl, by rw [if_neg apart]; exact noEntries⟩
    · refine Or.inr ⟨was, old, ?_⟩
      by_cases same : inode = current
      · rw [if_pos same] at children
        rw [if_pos same]
        exact ⟨type, deleted, by rw [children]; simp⟩
      · rw [if_neg same] at children
        rw [if_neg same]
        exact ⟨type, deleted, children⟩
  have follows : Follows reg (middle.modifyInode current (fun node =>
      { node with children := node.children.erase entry })) := by
    refine ⟨?_, started.nextEntry, started.sameRoot, started.sameMounts⟩
    intro inode found there other inList _
    rcases lists inode found there with ⟨_, none_⟩ | ⟨was, old, _, _, children⟩
    · rw [none_] at inList
      cases inList
    · exact ⟨was, old, by rw [← children]; exact inList⟩
  have readers := sound.readers.follows sound.counts follows
  have readersMore : ReadersHold (middle.modifyInode current (fun node =>
      { node with children := node.children.erase entry })) []
      (plus holds [reg.inodes.next]) pins := by
    intro inode alive found there other inList
    have := readers inode alive found there other inList
    simp only [plus]
    omega
  obtain ⟨dropped, shrinks⟩ := detached.direntUnref readersMore
  obtain ⟨final, shrinksToo⟩ := dropped.inodeUnref (readers.shrinks shrinks)
  have both := shrinks.trans shrinksToo
  refine sound.abandon final ?_ ?_ (both.sameRoot.trans started.sameRoot)
    (both.sameMounts.trans started.sameMounts) ?_
  · intro inode found there
    obtain ⟨between, thereMiddle, type, deleted, children, _⟩ := both.inode inode found there
    rcases lists inode between thereMiddle with ⟨isNew, none_⟩ | ⟨was, old, same⟩
    · exact Or.inl ⟨isNew, children.trans none_⟩
    · exact Or.inr ⟨was, old, type.trans same.1, deleted.trans same.2.1,
        children.trans same.2.2⟩
  · intro other found there old
    obtain ⟨between, thereMiddle, sameName, inode, _⟩ := both.entry other found there
    exact ⟨between, started.dirents other between thereMiddle old, sameName, inode⟩
  · rw [both.nextEntry]
    exact started.nextEntry

-- The new inode

structure Allocated (reg after : Registry) (inode : Nat) (type : InodeType) : Prop where
  isNext : inode = reg.inodes.next
  here : after.inodes.get inode = some ⟨type, 1, false, none, none, []⟩
  others : ∀ other, other ≠ inode → after.inodes.get other = reg.inodes.get other
  dirents : after.dirents = reg.dirents
  sameRoot : after.root = reg.root
  sameMounts : after.mountpoints = reg.mountpoints

theorem registryInodeAlloc_some {type : InodeType} {room : Bool} {inode : Nat}
    {after : Registry}
    (made : registryInodeAlloc reg type room = some (inode, after))
    (counts : Counts reg [] holds pins)
    : Allocated reg after inode type
      ∧ Counts after [] (plus holds [inode]) pins := by
  simp only [registryInodeAlloc] at made
  split at made
  · cases made
  split at made
  · cases made
  simp only [Option.some.injEq, Prod.mk.injEq] at made
  obtain ⟨rfl, rfl⟩ := made
  refine ⟨⟨rfl, Arena.get_alloc_self _ _, ?_, rfl, rfl, rfl⟩, counts.allocInode (by simp)⟩
  intro other apart
  exact Arena.get_alloc_of_ne apart _

section Allocated

variable {middle : Registry} {inode : Nat} {type : InodeType}

theorem Allocated.absent (allocated : Allocated reg middle inode type)
    : reg.inodes.get inode = none := by
  rw [allocated.isNext]
  exact Arena.get_beyond (Nat.le_refl _)

theorem Allocated.follows (allocated : Allocated reg middle inode type) : Follows reg middle := by
  refine ⟨?_, by rw [allocated.dirents], allocated.sameRoot, allocated.sameMounts⟩
  intro other node there entry member _
  by_cases new : other = inode
  · rw [new, allocated.here] at there
    obtain rfl := Option.some.inj there
    cases member
  · rw [allocated.others other new] at there
    exact ⟨node, there, member⟩

theorem Allocated.isDir (allocated : Allocated reg middle inode type) (other : Nat)
    : middle.isDir other = (reg.isDir other || (decide (other = inode) && decide (type = .dir)))
    := by
  by_cases new : other = inode
  · subst new
    simp [Registry.isDir, allocated.here, allocated.absent]
  · simp [Registry.isDir, allocated.others other new, new]

theorem Allocated.isDeleted (allocated : Allocated reg middle inode type) (other : Nat)
    : middle.isDeleted other = reg.isDeleted other := by
  by_cases new : other = inode
  · subst new
    simp [Registry.isDeleted, allocated.here, allocated.absent]
  · simp [Registry.isDeleted, allocated.others other new]

theorem Allocated.has (allocated : Allocated reg middle inode type) (parent entry : Nat)
    (found : Dirent)
    : middle.Has parent entry found ↔ reg.Has parent entry found := by
  simp only [Registry.Has, allocated.dirents]
  refine and_congr_left (fun _ => ?_)
  by_cases new : parent = inode
  · subst new
    simp [allocated.here, allocated.absent]
  · rw [allocated.others parent new]

end Allocated

variable {middle after : Registry} {inode current entry dir : Nat} {name : Name} {node : Inode}
    {room : CreateRoom} {path : Path} {ops : Option HandleOps}

theorem Started.linked {type : InodeType} (allocated : Allocated reg middle inode type)
    (linked : Linked middle after current entry name inode)
    : Started reg after current entry where
  inodes := by
    intro other node there
    obtain ⟨was, thereMiddle, sameType, deleted, children⟩ := linked.get there
    by_cases new : other = inode
    · exact Or.inl (new.trans allocated.isNext)
    · rw [allocated.others other new] at thereMiddle
      exact Or.inr ⟨was, thereMiddle, sameType, deleted, children⟩
  dirents := by
    intro other found present old
    have apart : other ≠ entry := by
      have := linked.newEntry
      rw [allocated.dirents] at this
      omega
    rw [linked.others other apart, allocated.dirents] at present
    exact present
  sameRoot := linked.sameRoot.trans allocated.sameRoot
  sameMounts := linked.sameMounts.trans allocated.sameMounts
  nextEntry := by
    rw [linked.nextEntry, allocated.dirents]
    omega

theorem Started.more {link target : Nat} (started : Started reg middle current entry)
    (linked : Linked middle after reg.inodes.next link name target)
    : Started reg after current entry where
  inodes := by
    intro other node there
    obtain ⟨was, thereMiddle, sameType, deleted, children⟩ := linked.get there
    by_cases new : other = reg.inodes.next
    · exact Or.inl new
    · rw [if_neg new] at children
      rcases started.inodes other was thereMiddle with isNew | ⟨origin, old, same⟩
      · exact absurd isNew new
      · exact Or.inr ⟨origin, old, sameType.trans same.1, deleted.trans same.2.1,
          children.trans same.2.2⟩
  dirents := by
    intro other found present old
    have apart : other ≠ link := by
      have := linked.newEntry
      have := started.nextEntry
      omega
    rw [linked.others other apart] at present
    exact started.dirents other found present old
  sameRoot := linked.sameRoot.trans started.sameRoot
  sameMounts := linked.sameMounts.trans started.sameMounts
  nextEntry := by
    rw [linked.nextEntry]
    have := started.nextEntry
    omega

theorem Linked.find {target : Nat} (linked : Linked reg after dir entry name target)
    (isDir : reg.isDir dir = true)
    : registryFinddirent after dir name = some entry := by
  obtain ⟨node, here, _⟩ := Registry.isDir_iff.mp isDir
  have there := linked.nodes dir
  rw [here] at there
  simp [registryFinddirent, there, Registry.named, linked.present]

theorem registryFinddirent_head {found : Dirent} {rest : List Nat}
    (here : reg.inodes.get dir = some node) (children : node.children = entry :: rest)
    (present : reg.dirents.get entry = some found)
    : registryFinddirent reg dir found.name = some entry := by
  simp [registryFinddirent, here, children, Registry.named, present]

theorem dropLink_empty (here : reg.inodes.get dir = some node) (empty : node.children = [])
    : dropLink reg dir name = reg := by
  simp [dropLink, direntDetach, registryFinddirent, here, empty]

/-- Dropping the self link of a new directory undoes linking it. -/
theorem Counts.dropSelf {link : Nat} (counts : Counts after [] (plus holds [inode]) pins)
    (here : middle.inodes.get inode = some node) (noEntries : node.children = [])
    (isDir : middle.isDir inode = true) (linked : Linked middle after inode link dot inode)
    : let dropped := dropLink after inode dot
      Counts dropped [] (plus holds [inode]) pins
      ∧ (∃ found, dropped.inodes.get inode = some found ∧ found.children = [])
      ∧ (∀ other, other ≠ inode → dropped.inodes.get other = after.inodes.get other)
      ∧ (∀ other, other ≠ link → dropped.dirents.get other = after.dirents.get other)
      ∧ dropped.dirents.get link = none
      ∧ dropped.root = after.root
      ∧ dropped.mountpoints = after.mountpoints
      ∧ dropped.dirents.next = after.dirents.next := by
  have thereAfter := linked.nodes inode
  rw [here] at thereAfter
  have member : link ∈ ({ node with
      refcount :=
        if inode = inode ∧ inode ≠ inode ∧ node.refcount < INT_MAX then node.refcount + 1
        else node.refcount
      children := if inode = inode then link :: node.children else node.children }
      : Inode).children := by simp
  have detached : Counts
      (after.modifyInode inode (fun node =>
        { node with children := node.children.erase link }))
      [] holds (plus pins [link]) := by
    apply counts.detach thereAfter (by simp) member linked.present
    intro other
    by_cases same : other = inode
    · rw [if_pos same, same, plus_self]
      simp [naming]
    · rw [if_neg same, plus_of_ne same]
      rfl
  have presentStill : (after.modifyInode inode (fun node =>
      { node with children := node.children.erase link })).dirents.get link
      = some ⟨dot, 1, inode⟩ := linked.present
  have unlisted : ¬(after.modifyInode inode (fun node =>
      { node with children := node.children.erase link })).Listed [] link := by
    rintro ⟨other, found, _, there, inList⟩
    obtain ⟨was, thereWas, rfl⟩ := Arena.get_modify_eq_some there
    by_cases same : other = inode
    · subst same
      rw [if_pos rfl] at inList
      rw [thereAfter] at thereWas
      obtain rfl := Option.some.inj thereWas
      simp [noEntries] at inList
    · rw [if_neg same] at inList
      exact same (counts.owner other inode was _ link thereWas thereAfter inList member)
  have dropped : dropLink after inode dot
      = { after.modifyInode inode (fun node =>
            { node with children := node.children.erase link }) with
          dirents := after.dirents.free link
          direntCount := after.direntCount - 1 } := by
    have search := linked.find isDir
    simp [dropLink, direntDetach, search, Registry.target, Native.direntPut, linked.present,
      Registry.modifyInode]
  rw [dropped]
  refine ⟨?_, ?_, ?_, ?_, Arena.get_free_self _ _, rfl, rfl, rfl⟩
  · refine detached.freeEntry presentStill rfl unlisted ?_ (by simp)
    intro other _
    by_cases same : other = inode
    · rw [same, plus_self]
      simp [naming]
    · rw [plus_of_ne same, naming, if_neg (fun eq => same eq.symm)]
      rfl
  · refine ⟨_, by simp [Registry.modifyInode, thereAfter]; rfl, ?_⟩
    simp [noEntries]
  · intro other apart
    exact Arena.get_modify_of_ne apart
  · intro other apart
    exact Arena.get_free_of_ne apart

-- Creating

/-- `walk` creates its last component, or leaves the registry as it was.
Witness: every step is counted, and what a failed step leaves is given up in reverse.
-/
theorem Sound.walkCreate {type : InodeType} (sound : Sound reg holds pins) (roomy : reg.Roomy)
    (isDir : reg.isDir current = true) (live : reg.isDeleted current = false)
    (plain : isDotName name = false)
    (free : ∀ other found, reg.Has current other found → found.name ≠ name)
    : let after := (walkCreate reg current name type room).2
      Sound after holds pins ∧ Follows reg after := by
  obtain ⟨currentNode, currentHere, currentType⟩ := Registry.isDir_iff.mp isDir
  simp only [Native.walkCreate]
  cases made : registryInodeAlloc reg type room.inode with
  | none => exact ⟨sound, Follows.refl reg⟩
  | some result =>
      obtain ⟨inode, start⟩ := result
      obtain ⟨allocated, counts⟩ := registryInodeAlloc_some made sound.counts
      have apart : current ≠ inode := by
        rw [allocated.isNext]
        exact Arena.ne_next currentHere
      have readers := sound.readers.follows sound.counts allocated.follows
      have startDir : start.isDir current = true := by
        rw [allocated.isDir, isDir]
        rfl
      simp only []
      cases link : registryLinkdirent start current name inode room.entry with
      | none =>
          obtain ⟨kept, shrinks⟩ := counts.inodeUnref readers
          refine sound.abandon kept ?_ ?_ (shrinks.sameRoot.trans allocated.sameRoot)
            (shrinks.sameMounts.trans allocated.sameMounts) ?_
          · intro other node there
            obtain ⟨was, old, sameType, deleted, children, _⟩ := shrinks.inode other node there
            by_cases new : other = inode
            · rw [new, allocated.here] at old
              obtain rfl := Option.some.inj old
              exact Or.inl ⟨new.trans allocated.isNext, children⟩
            · rw [allocated.others other new] at old
              exact Or.inr ⟨was, old, sameType, deleted, children⟩
          · intro other found present _
            obtain ⟨was, old, sameName, sameInode, _⟩ := shrinks.entry other found present
            rw [allocated.dirents] at old
            exact ⟨was, old, sameName, sameInode⟩
          · rw [shrinks.nextEntry, allocated.dirents]
      | some result =>
          obtain ⟨entry, first⟩ := result
          obtain ⟨_, linked⟩ := registryLinkdirent_some link
          have countsFirst : Counts first [] (plus holds [inode]) pins :=
            linked.counts counts startDir allocated.here
              (fun _ => show (1 : Int) < INT_MAX by decide)
          have started := Started.linked allocated linked
          have hasFirst (parent other : Nat) (found : Dirent)
              : first.Has parent other found
                ↔ reg.Has parent other found
                  ∨ parent = current ∧ other = entry ∧ found = ⟨name, 1, inode⟩ := by
            rw [linked.has counts startDir, allocated.has]
          have followsFirst := allocated.follows.trans linked.follows
          have firstNew := linked.nodes inode
          rw [allocated.here] at firstNew
          simp only [apart.symm, if_false, Option.map_some] at firstNew
          simp only []
          by_cases file : type ≠ .dir
          · rw [if_pos file]
            have notDir : reg.isDir inode = false := by
              simp [Registry.isDir, allocated.absent]
            have tree : Tree first := by
              apply sound.tree.addFile live plain free notDir
              · exact followsFirst.sameRoot
              · intro other
                rw [linked.isDir, allocated.isDir]
                simp [file]
              · intro other
                rw [linked.isDeleted, allocated.isDeleted]
              · exact hasFirst
            have readersFirst := sound.readers.follows sound.counts followsFirst
            obtain ⟨kept, shrinks⟩ := countsFirst.inodeUnref readersFirst
            have follows := followsFirst.trans shrinks.follows
            refine ⟨⟨kept, tree.within shrinks.within kept ?_, readersFirst.shrinks shrinks, ?_⟩,
              follows⟩
            · rw [followsFirst.sameRoot]
              exact sound.rootHeld
            · rw [follows.sameRoot]
              exact sound.rootHeld
          · rw [if_neg file]
            obtain rfl : type = .dir := by simpa using file
            have hasCurrent : first.Has current entry ⟨name, 1, reg.inodes.next⟩ := by
              rw [← allocated.isNext]
              exact (hasFirst _ _ _).mpr (Or.inr ⟨rfl, rfl, rfl⟩)
            have firstDir : first.isDir inode = true := by
              rw [linked.isDir, allocated.isDir]
              simp
            have firstCurrent := linked.nodes current
            rw [allocated.others current apart, currentHere] at firstCurrent
            simp only [apart, false_and, if_false, if_true, Option.map_some] at firstCurrent
            cases linkSelf : registryLinkdirent first inode dot inode room.self with
            | none =>
                simp only [Bool.false_eq_true, if_false]
                rw [dropLink_empty firstNew rfl, dropLink_empty firstNew rfl]
                simp only [direntDetach, linked.find startDir]
                rw [allocated.isNext] at countsFirst firstNew ⊢
                exact sound.giveUp countsFirst started isDir firstNew rfl hasCurrent
            | some result =>
                obtain ⟨self, second⟩ := result
                obtain ⟨_, linkedSelf⟩ := registryLinkdirent_some linkSelf
                have countsSecond : Counts second [] (plus holds [inode]) pins :=
                  linkedSelf.counts countsFirst firstDir firstNew
                    (fun different => absurd rfl different)
                have secondCurrent := linkedSelf.nodes current
                rw [firstCurrent] at secondCurrent
                simp only [apart, false_and, if_false, Option.map_some] at secondCurrent
                have selfNew : self ≠ entry := by
                  have := Arena.lt_next hasCurrent.2
                  have := linkedSelf.newEntry
                  omega
                simp only []
                cases linkUp : registryLinkdirent second inode dotdot current room.parent with
                | none =>
                    simp only [Bool.false_eq_true, if_false]
                    obtain ⟨countsBack, ⟨node, hereBack, noEntries⟩, sameNodes, sameEntries, _,
                      sameRoot, sameMounts, sameNext⟩ :=
                      countsSecond.dropSelf firstNew rfl firstDir linkedSelf
                    generalize dropLink second inode dot = back at *
                    rw [dropLink_empty hereBack noEntries]
                    have backCurrent := sameNodes current apart
                    rw [secondCurrent] at backCurrent
                    have backEntry : back.dirents.get entry
                        = some ⟨name, 1, reg.inodes.next⟩ := by
                      rw [sameEntries entry selfNew.symm, linkedSelf.others entry selfNew.symm]
                      exact hasCurrent.2
                    have search := registryFinddirent_head backCurrent rfl backEntry
                    have startedBack : Started reg back current entry := by
                      rw [allocated.isNext] at linkedSelf
                      have startedSecond := started.more linkedSelf
                      refine ⟨?_, ?_, sameRoot.trans startedSecond.sameRoot,
                        sameMounts.trans startedSecond.sameMounts, ?_⟩
                      · intro other found there
                        by_cases new : other = inode
                        · exact Or.inl (new.trans allocated.isNext)
                        · rw [sameNodes other new] at there
                          exact startedSecond.inodes other found there
                      · intro other found present old
                        have notSelf : other ≠ self := by
                          have := linkedSelf.newEntry
                          have := started.nextEntry
                          omega
                        rw [sameEntries other notSelf] at present
                        exact startedSecond.dirents other found present old
                      · rw [sameNext]
                        exact startedSecond.nextEntry
                    simp only [direntDetach, search]
                    rw [allocated.isNext] at countsBack hereBack ⊢
                    exact sound.giveUp countsBack startedBack isDir hereBack noEntries
                      ⟨⟨_, backCurrent, by simp⟩, backEntry⟩
                | some result =>
                    obtain ⟨up, third⟩ := result
                    obtain ⟨_, linkedUp⟩ := registryLinkdirent_some linkUp
                    have secondDir : second.isDir inode = true := by
                      rw [linkedSelf.isDir]
                      exact firstDir
                    have countsThird : Counts third [] (plus holds [inode]) pins :=
                      linkedUp.counts countsSecond secondDir secondCurrent
                        (fun _ => roomy.1 current currentNode currentHere)
                    have followsThird :=
                      (followsFirst.trans linkedSelf.follows).trans linkedUp.follows
                    have tree : Tree third := by
                      apply sound.tree.addDir isDir live plain free allocated.absent
                      · intro parent other found has same
                        obtain ⟨node, target⟩ := sound.counts.target other found has.2
                        rw [same, allocated.absent] at target
                        cases target
                      · exact followsThird.sameRoot
                      · intro other
                        rw [linkedUp.isDir, linkedSelf.isDir, linked.isDir, allocated.isDir]
                        simp
                      · intro other
                        rw [linkedUp.isDeleted, linkedSelf.isDeleted, linked.isDeleted,
                          allocated.isDeleted]
                      · intro parent other found
                        rw [linkedUp.has countsSecond secondDir,
                          linkedSelf.has countsFirst firstDir, hasFirst, or_assoc, or_assoc]
                    have readersThird := sound.readers.follows sound.counts followsThird
                    obtain ⟨kept, shrinks⟩ := countsThird.inodeUnref readersThird
                    have follows := followsThird.trans shrinks.follows
                    simp only [if_true]
                    refine ⟨⟨kept, tree.within shrinks.within kept ?_,
                      readersThird.shrinks shrinks, ?_⟩, follows⟩
                    · rw [followsThird.sameRoot]
                      exact sound.rootHeld
                    · rw [follows.sameRoot]
                      exact sound.rootHeld

-- Paths

theorem Sound.walkComponents {create : Option (InodeType × CreateRoom)}
    (components : List Name)
    (sound : Sound reg holds pins) (roomy : reg.Roomy) (current : Nat)
    : let after := (walkComponents reg create current components).2
      Sound after holds pins ∧ Follows reg after := by
  induction components generalizing current with
  | nil => exact ⟨sound, Follows.refl reg⟩
  | cons component rest ih =>
      simp only [Native.walkComponents]
      by_cases empty : component = []
      · rw [if_pos empty]
        exact ih current
      rw [if_neg empty]
      by_cases notDir : reg.isDir current = false
      · rw [if_pos notDir]
        exact ⟨sound, Follows.refl reg⟩
      rw [if_neg notDir]
      have isDir : reg.isDir current = true := by simpa using notDir
      cases target : (registryFinddirent reg current component).bind reg.target with
      | some child =>
          simp only []
          by_cases collision : rest = [] ∧ create.isSome = true
          · rw [if_pos collision]
            exact ⟨sound, Follows.refl reg⟩
          rw [if_neg collision]
          by_cases covered : child ∈ reg.mountpoints
          · rw [if_pos covered]
            exact ⟨sound, Follows.refl reg⟩
          · rw [if_neg covered]
            exact ih child
      | none =>
          have free : ∀ other found, reg.Has current other found → found.name ≠ component := by
            intro other found has same
            have search := sound.tree.find has
            rw [same] at search
            simp [search, Registry.target, has.2] at target
          have plain : isDotName component = false := by
            by_contra dots
            rcases isDotName_cases (by simpa using dots) with rfl | rfl
            · obtain ⟨other, found, has, named⟩ := sound.tree.self current isDir
              exact free other found has named
            · obtain ⟨other, found, has, named⟩ := sound.tree.parent current isDir
              exact free other found has named
          cases rest with
          | cons => exact ⟨sound, Follows.refl reg⟩
          | nil =>
              cases create with
              | none => exact ⟨sound, Follows.refl reg⟩
              | some what =>
                  obtain ⟨type, room⟩ := what
                  simp only []
                  by_cases deleted : reg.isDeleted current = true
                  · rw [if_pos deleted]
                    exact ⟨sound, Follows.refl reg⟩
                  · rw [if_neg deleted]
                    exact sound.walkCreate roomy isDir (by simpa using deleted) plain free

theorem Sound.walk {start : Nat} {create : Option (InodeType × CreateRoom)}
    (sound : Sound reg holds pins) (roomy : reg.Roomy)
    : let after := (walk reg start path create).2
      Sound after holds pins ∧ Follows reg after := by
  simp only [Native.walk]
  by_cases empty : path = []
  · rw [if_pos empty]
    exact ⟨sound, Follows.refl reg⟩
  rw [if_neg empty]
  generalize (if path.head? = some '/' then reg.root else start) = current
  by_cases covered : current ∈ reg.mountpoints
  · rw [if_pos covered]
    exact ⟨sound, Follows.refl reg⟩
  rw [if_neg covered]
  have kept : Sound (Native.walkComponents reg create current (path.splitOn '/')).2 holds pins
      ∧ Follows reg (Native.walkComponents reg create current (path.splitOn '/')).2 :=
    sound.walkComponents (path.splitOn '/') roomy current
  generalize Native.walkComponents reg create current (path.splitOn '/') = outcome at kept ⊢
  obtain ⟨found, after⟩ := outcome
  cases found with
  | none => exact kept
  | some inode =>
      simp only []
      split
      · exact kept
      · exact kept

theorem Sound.mkdirAt {start : Nat} (sound : Sound reg holds pins) (roomy : reg.Roomy)
    : let after := (registryMkdirAt reg start path room).2
      Sound after holds pins ∧ Follows reg after := by
  simp only [registryMkdirAt]
  split
  · exact ⟨sound, Follows.refl reg⟩
  split
  · exact ⟨sound, Follows.refl reg⟩
  split
  · exact ⟨sound, Follows.refl reg⟩
  generalize (if path.head? = some '/' then reg.root else start) = base
  have kept : Sound (Native.walk reg base path (some (.dir, room))).2 holds pins
      ∧ Follows reg (Native.walk reg base path (some (.dir, room))).2 :=
    sound.walk roomy
  generalize Native.walk reg base path (some (.dir, room)) = outcome at kept ⊢
  obtain ⟨found, after⟩ := outcome
  cases found with
  | none => exact kept
  | some inode => exact kept

theorem Sound.setData {impl : Option Nat} (sound : Sound reg holds pins)
    : let after := reg.modifyInode inode (fun node => { node with impl, ops })
      Sound after holds pins ∧ Follows reg after := by
  have follows : Follows reg (reg.modifyInode inode (fun node => { node with impl, ops })) :=
    Follows.modifyInode reg inode (fun _ _ member => member)
  have within : Within reg (reg.modifyInode inode (fun node => { node with impl, ops })) := by
    refine ⟨?_, fun other found present => ⟨found, present, rfl, rfl⟩, rfl⟩
    intro other node there
    obtain ⟨was, old, rfl⟩ := Arena.get_modify_eq_some there
    refine ⟨was, old, ?_⟩
    split
    · exact ⟨rfl, rfl, rfl⟩
    · exact ⟨rfl, rfl, rfl⟩
  have counts : Counts (reg.modifyInode inode (fun node => { node with impl, ops })) []
      holds pins := by
    cases here : reg.inodes.get inode with
    | some node =>
        exact sound.counts.recount here (by simp) rfl rfl
          (sound.counts.counted inode (by simp) node here).1 rfl (fun _ _ => rfl)
    | none =>
        refine sound.counts.congr ?_ rfl
        apply Arena.ext_get
        · intro other
          by_cases same : other = inode
          · rw [same, here]
            simp [Registry.modifyInode, here]
          · exact Arena.get_modify_of_ne same
        · rfl
  exact ⟨⟨counts, sound.tree.within within counts sound.rootHeld,
    sound.readers.follows sound.counts follows, sound.rootHeld⟩, follows⟩

theorem Sound.add {type : InodeType} {impl : Option Nat} (sound : Sound reg holds pins)
    (roomy : reg.Roomy)
    : let after := (registryAdd reg path type impl ops room).2
      Sound after holds pins ∧ Follows reg after := by
  simp only [registryAdd]
  have kept : Sound (Native.walk reg reg.root path (some (type, room))).2 holds pins
      ∧ Follows reg (Native.walk reg reg.root path (some (type, room))).2 :=
    sound.walk roomy
  generalize Native.walk reg reg.root path (some (type, room)) = outcome at kept ⊢
  obtain ⟨found, after⟩ := outcome
  cases found with
  | none => exact kept
  | some inode =>
      obtain ⟨soundAfter, follows⟩ := kept
      obtain ⟨soundData, followsData⟩ := soundAfter.setData
      exact ⟨soundData, follows.trans followsData⟩

end Creates

end Panuti.Native
