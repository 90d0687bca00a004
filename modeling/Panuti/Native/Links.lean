import Panuti.Native.Tree

/-! What detaching, marking and linking an entry do to the tree, and the calls that drop or add
one entry of a directory.
-/

namespace Panuti.Native

open Panuti.Kernel (Errno HandleOps InodeType)

-- Reading a changed registry

section Reading

variable {reg : Registry} {inode other dir entry : Nat} {change : Inode → Inode}

theorem isDir_modifyInode (same : ∀ node, (change node).type = node.type)
    : (reg.modifyInode inode change).isDir other = reg.isDir other := by
  simp only [Registry.isDir, Registry.modifyInode, Arena.get_modify]
  split
  · cases reg.inodes.get other with
    | none => rfl
    | some node => simp [same]
  · rfl

theorem isDeleted_modifyInode (same : ∀ node, (change node).deleted = node.deleted)
    : (reg.modifyInode inode change).isDeleted other = reg.isDeleted other := by
  simp only [Registry.isDeleted, Registry.modifyInode, Arena.get_modify]
  split
  · cases reg.inodes.get other with
    | none => rfl
    | some node => simp [same]
  · rfl

variable {parent : Nat} {found : Dirent}

theorem has_modifyInode (same : ∀ node, (change node).children = node.children)
    : (reg.modifyInode inode change).Has parent entry found ↔ reg.Has parent entry found := by
  refine and_congr_left (fun _ => ?_)
  simp only [Registry.modifyInode, Arena.get_modify]
  split
  · simp [same]
  · rfl

theorem has_erase {node : Inode} (here : reg.inodes.get dir = some node)
    (nodup : node.children.Nodup)
    : (reg.modifyInode dir (fun node =>
          { node with children := node.children.erase inode })).Has parent entry found
        ↔ reg.Has parent entry found ∧ ¬(parent = dir ∧ entry = inode) := by
  simp only [Registry.Has, Registry.modifyInode, Arena.get_modify]
  by_cases same : parent = dir
  · subst same
    simp only [if_true, here, Option.map_some, Option.some.injEq, exists_eq_left', true_and,
      nodup.mem_erase_iff]
    rw [and_assoc, and_comm, and_assoc]
  · simp [same]

theorem has_modifyDirent {shift : Dirent → Dirent}
    : (reg.modifyDirent other shift).Has parent entry found
        ↔ ∃ was, reg.Has parent entry was ∧ found = if entry = other then shift was else was := by
  simp only [Registry.Has, Registry.modifyDirent, Arena.get_modify]
  constructor
  · rintro ⟨listed, present⟩
    split at present
    · rename_i same
      obtain ⟨was, there, rfl⟩ := Option.map_eq_some_iff.mp present
      exact ⟨was, ⟨listed, there⟩, by rw [if_pos same]⟩
    · rename_i apart
      exact ⟨found, ⟨listed, present⟩, by rw [if_neg apart]⟩
  · rintro ⟨was, ⟨listed, there⟩, rfl⟩
    refine ⟨listed, ?_⟩
    split
    · rw [there]
      rfl
    · exact there

end Reading

variable {reg changed : Registry} {holds pins : Nat → Nat} {dying : List Nat}
    {change : Inode → Inode}

theorem Counts.has_unique (counts : Counts reg dying holds pins) {dir other entry : Nat}
    {found otherFound : Dirent} (has : reg.Has dir entry found)
    (hasOther : reg.Has other entry otherFound)
    : dir = other ∧ found = otherFound := by
  obtain ⟨⟨node, here, member⟩, present⟩ := has
  obtain ⟨⟨otherNode, there, memberOther⟩, presentOther⟩ := hasOther
  exact ⟨counts.owner dir other node otherNode entry here there member memberOther,
    Option.some.inj (present.symm.trans presentOther)⟩

-- No entry comes back

/-- Entries on a list were on it before, or are new. -/
structure Follows (reg changed : Registry) : Prop where
  lists
    : ∀ inode node, changed.inodes.get inode = some node
      → ∀ entry ∈ node.children, entry < reg.dirents.next
      → ∃ was, reg.inodes.get inode = some was ∧ entry ∈ was.children
  nextEntry : reg.dirents.next ≤ changed.dirents.next
  sameRoot : changed.root = reg.root
  sameMounts : changed.mountpoints = reg.mountpoints

theorem Follows.refl (reg : Registry) : Follows reg reg :=
  ⟨fun _ node present _ member _ => ⟨node, present, member⟩, Nat.le_refl _, rfl, rfl⟩

theorem Follows.trans {middle : Registry} (first : Follows reg middle)
    (second : Follows middle changed)
    : Follows reg changed where
  lists := by
    intro inode node present entry member old
    have next := first.nextEntry
    obtain ⟨between, there, memberToo⟩ :=
      second.lists inode node present entry member (by omega)
    exact first.lists inode between there entry memberToo old
  nextEntry := Nat.le_trans first.nextEntry second.nextEntry
  sameRoot := second.sameRoot.trans first.sameRoot
  sameMounts := second.sameMounts.trans first.sameMounts

theorem Shrinks.follows (shrinks : Shrinks dying reg changed)
    : Follows reg changed where
  lists := by
    intro inode node present entry member _
    obtain ⟨was, there, _, _, children, _⟩ := shrinks.inode inode node present
    exact ⟨was, there, by rw [← children]; exact member⟩
  nextEntry := Nat.le_of_eq shrinks.nextEntry.symm
  sameRoot := shrinks.sameRoot
  sameMounts := shrinks.sameMounts

theorem Follows.modifyInode (reg : Registry) (inode : Nat)
    (fewer : ∀ node, ∀ entry ∈ (change node).children, entry ∈ node.children)
    : Follows reg (reg.modifyInode inode change) where
  lists := by
    intro other node present entry member _
    obtain ⟨was, there, rfl⟩ := Arena.get_modify_eq_some present
    refine ⟨was, there, ?_⟩
    split at member
    · exact fewer was entry member
    · exact member
  nextEntry := Nat.le_refl _
  sameRoot := rfl
  sameMounts := rfl

theorem Follows.modifyDirent (reg : Registry) (entry : Nat) (change : Dirent → Dirent)
    : Follows reg (reg.modifyDirent entry change) :=
  ⟨fun _ node present _ member _ => ⟨node, present, member⟩, Nat.le_refl _, rfl, rfl⟩

theorem ReadersHold.follows (readers : ReadersHold reg [] holds pins)
    (counts : Counts reg [] holds pins) (follows : Follows reg changed)
    : ReadersHold changed [] holds pins := by
  intro inode alive node present entry member
  by_cases old : entry < reg.dirents.next
  · obtain ⟨was, there, memberToo⟩ := follows.lists inode node present entry member old
    exact readers inode alive was there entry memberToo
  · rw [counts.pins_absent (Arena.get_beyond (by omega))]
    exact Nat.zero_le _

-- Sound registries

/-- Between calls: counts agree, the tree has its shape, and the root stays. -/
structure Sound (reg : Registry) (holds pins : Nat → Nat) : Prop where
  counts : Counts reg [] holds pins
  tree : Tree reg
  readers : ReadersHold reg [] holds pins
  rootHeld : 0 < holds reg.root

def Registry.Roomy (reg : Registry) : Prop :=
  (∀ inode node, reg.inodes.get inode = some node → node.refcount < INT_MAX)
  ∧ ∀ entry found, reg.dirents.get entry = some found → found.refcount < UINT16_MAX

theorem Registry.Roomy.shrinks (roomy : reg.Roomy) (shrinks : Shrinks dying reg changed)
    : changed.Roomy := by
  refine ⟨?_, ?_⟩
  · intro inode node present
    obtain ⟨was, there, _, _, _, count⟩ := shrinks.inode inode node present
    exact lt_of_le_of_lt count (roomy.1 inode was there)
  · intro entry found present
    obtain ⟨was, there, _, _, count⟩ := shrinks.entry entry found present
    exact lt_of_le_of_lt count (roomy.2 entry was there)

theorem Registry.Roomy.modifyInode {inode : Nat} (roomy : reg.Roomy)
    (same : ∀ node, (change node).refcount = node.refcount)
    : (reg.modifyInode inode change).Roomy := by
  refine ⟨?_, roomy.2⟩
  intro other node present
  obtain ⟨was, there, rfl⟩ := Arena.get_modify_eq_some present
  split
  · rw [same]
    exact roomy.1 other was there
  · exact roomy.1 other was there

theorem Tree.target_ne (tree : Tree reg) {dir entry : Nat} {found : Dirent}
    (isDir : reg.isDir dir = true) (has : reg.Has dir entry found)
    (plain : isDotName found.name = false)
    : found.inode ≠ dir := by
  intro same
  have isDirToo : reg.isDir found.inode = true := by
    rw [same]
    exact isDir
  obtain ⟨_, notRoot, above⟩ := tree.child dir entry found has plain isDirToo
  rw [same] at notRoot above
  exact tree.parent_ne isDir notRoot above

-- Dropping an entry

section Drop

variable {reg : Registry} {holds pins : Nat → Nat}

theorem Counts.markDeleted (counts : Counts reg [] holds pins) (entry : Nat)
    : Counts (markDeleted reg entry) [] holds pins := by
  simp only [Native.markDeleted]
  cases target : reg.target entry with
  | none => exact counts
  | some inode =>
      simp only []
      split
      · rename_i isDir
        obtain ⟨node, here, _⟩ := Registry.isDir_iff.mp isDir
        exact counts.recount here (by simp) rfl rfl (counts.counted inode (by simp) node here).1
          rfl (fun _ _ => rfl)
      · exact counts

theorem follows_markDeleted (reg : Registry) (entry : Nat)
    : Follows reg (markDeleted reg entry) := by
  simp only [markDeleted]
  split
  · split
    · exact Follows.modifyInode reg _ (fun _ _ member => member)
    · exact Follows.refl reg
  · exact Follows.refl reg

theorem roomy_markDeleted (entry : Nat) (roomy : reg.Roomy) : (markDeleted reg entry).Roomy := by
  simp only [markDeleted]
  split
  · split
    · exact roomy.modifyInode (fun _ => rfl)
    · exact roomy
  · exact roomy

theorem isDir_markDeleted (reg : Registry) (entry inode : Nat)
    : (markDeleted reg entry).isDir inode = reg.isDir inode := by
  simp only [markDeleted]
  split
  · split
    · exact isDir_modifyInode (fun _ => rfl)
    · rfl
  · rfl

theorem has_markDeleted (reg : Registry) (entry parent other : Nat) (found : Dirent)
    : (markDeleted reg entry).Has parent other found ↔ reg.Has parent other found := by
  simp only [markDeleted]
  split
  · split
    · apply has_modifyInode
      intro _
      rfl
    · rfl
  · rfl

variable {entry dir : Nat}

theorem isDeleted_markDeleted {target : Nat} (names : reg.target entry = some target) (inode : Nat)
    : (markDeleted reg entry).isDeleted inode
      = (reg.isDeleted inode || (decide (inode = target) && reg.isDir inode)) := by
  simp only [markDeleted, names]
  by_cases isDir : reg.isDir target = true
  · rw [if_pos isDir]
    obtain ⟨node, here, type⟩ := Registry.isDir_iff.mp isDir
    simp only [Registry.isDeleted, Registry.isDir, Registry.modifyInode, Arena.get_modify]
    by_cases same : inode = target
    · simp [same, here, type]
    · simp [same]
  · rw [if_neg isDir]
    by_cases same : inode = target
    · simp [same, isDir]
    · simp [same]

/-- What dropping an entry leaves: the directories other than the dropped one, with their
other entries.
-/
structure Dropped (reg after : Registry) (entry gone : Nat) : Prop where
  kept
    : ∀ dir, reg.isDir dir = true → reg.isDeleted dir = false → dir ≠ gone
      → after.isDir dir = true ∧ after.isDeleted dir = false
  hasKept
    : ∀ dir, reg.isDir dir = true → reg.isDeleted dir = false → dir ≠ gone
      → ∀ other was, reg.Has dir other was → other ≠ entry
      → ∃ now, after.Has dir other now ∧ now.name = was.name ∧ now.inode = was.inode
  hasOld
    : ∀ dir other now, after.Has dir other now
      → other ≠ entry
        ∧ ∃ was, reg.Has dir other was ∧ now.name = was.name ∧ now.inode = was.inode
  isDirOld : ∀ inode, after.isDir inode = true → reg.isDir inode = true

/-- Detaching an entry of a file or of an empty directory, marking the directory and dropping
the list's reference keeps the registry sound.
-/
theorem Sound.drop {found : Dirent} (sound : Sound reg holds pins) (isDir : reg.isDir dir = true)
    (has : reg.Has dir entry found) (plain : isDotName found.name = false)
    (empty
      : reg.isDir found.inode = true
        → ∀ other otherFound, reg.Has found.inode other otherFound
        → isDotName otherFound.name = true)
    : let after := direntUnref (markDeleted (reg.modifyInode dir (fun node =>
        { node with children := node.children.erase entry })) entry) entry
      Sound after holds pins
        ∧ Follows reg after
        ∧ (reg.Roomy → after.Roomy)
        ∧ Dropped reg after entry found.inode := by
  obtain ⟨node, here, member⟩ := has.1
  have notSelf := sound.tree.target_ne isDir has plain
  have detached : Counts
      (reg.modifyInode dir (fun node =>
        { node with children := node.children.erase entry }))
      [] holds (plus pins [entry]) := by
    apply sound.counts.detach here (by simp) member has.2
    intro other
    split
    · rename_i same
      rw [same, naming, if_neg notSelf]
      rfl
    · rfl
  have follows : Follows reg (reg.modifyInode dir (fun node =>
      { node with children := node.children.erase entry })) :=
    Follows.modifyInode reg dir (fun _ _ inErased => List.mem_of_mem_erase inErased)
  have entries (parent other : Nat) (otherFound : Dirent)
      : (reg.modifyInode dir (fun node =>
          { node with children := node.children.erase entry })).Has parent other otherFound
        ↔ reg.Has parent other otherFound ∧ other ≠ entry := by
    rw [has_erase here (sound.counts.nodup dir node here)]
    refine and_congr_right (fun hasOther => not_congr ⟨fun both => both.2, ?_⟩)
    rintro rfl
    exact ⟨(sound.counts.has_unique hasOther has).1, rfl⟩
  have roomyErased (roomy : reg.Roomy)
      : (reg.modifyInode dir (fun node =>
          { node with children := node.children.erase entry })).Roomy :=
    roomy.modifyInode (fun _ => rfl)
  have dirErased (other : Nat)
      : (reg.modifyInode dir (fun node =>
          { node with children := node.children.erase entry })).isDir other
        = reg.isDir other := isDir_modifyInode (fun _ => rfl)
  have deletedErased (other : Nat)
      : (reg.modifyInode dir (fun node =>
          { node with children := node.children.erase entry })).isDeleted other
        = reg.isDeleted other := isDeleted_modifyInode (fun _ => rfl)
  have targetErased : (reg.modifyInode dir (fun node =>
      { node with children := node.children.erase entry })).target entry
      = some found.inode := by
    simp [Registry.target, Registry.modifyInode, has.2]
  generalize reg.modifyInode dir (fun node =>
    { node with children := node.children.erase entry }) = erased
    at detached follows entries roomyErased dirErased deletedErased targetErased ⊢
  have marked := detached.markDeleted entry
  have followsMarked := follows.trans (follows_markDeleted erased entry)
  have roomyMarked (roomy : reg.Roomy) := roomy_markDeleted entry (roomyErased roomy)
  have dirMarked (inode : Nat) : (markDeleted erased entry).isDir inode = reg.isDir inode :=
    (isDir_markDeleted erased entry inode).trans (dirErased inode)
  have deletedMarked (inode : Nat)
      : (markDeleted erased entry).isDeleted inode
        = (reg.isDeleted inode || (decide (inode = found.inode) && reg.isDir inode)) := by
    rw [isDeleted_markDeleted targetErased, deletedErased, dirErased]
  have hasMarked (parent other : Nat) (otherFound : Dirent)
      : (markDeleted erased entry).Has parent other otherFound
        ↔ reg.Has parent other otherFound ∧ other ≠ entry :=
    (has_markDeleted erased entry parent other otherFound).trans (entries parent other otherFound)
  generalize markDeleted erased entry = middle
    at marked followsMarked roomyMarked dirMarked deletedMarked hasMarked ⊢
  have tree : Tree middle :=
    sound.tree.unlink has plain empty followsMarked.sameRoot dirMarked deletedMarked hasMarked
  have readers := sound.readers.follows sound.counts followsMarked
  obtain ⟨counts, shrinks⟩ := marked.direntUnref readers
  generalize direntUnref middle entry = after at counts shrinks ⊢
  have rootHeld : 0 < holds middle.root := by
    rw [followsMarked.sameRoot]
    exact sound.rootHeld
  have within := shrinks.within
  have keptLive {other : Nat} (isDirOther : reg.isDir other = true)
      (live : reg.isDeleted other = false) (apart : other ≠ found.inode)
      : ∃ was now, middle.inodes.get other = some was
          ∧ after.inodes.get other = some now
          ∧ now.type = was.type
          ∧ now.deleted = was.deleted
          ∧ now.children = was.children := by
    rw [← dirMarked] at isDirOther
    obtain ⟨now, hereNow⟩ := tree.keeps within counts rootHeld isDirOther (by
      rw [deletedMarked, live]
      simp [apart])
    obtain ⟨was, there, type, deleted, children⟩ := within.inode other now hereNow
    exact ⟨was, now, there, hereNow, type, deleted, children⟩
  refine ⟨⟨counts, tree.within within counts rootHeld, readers.shrinks shrinks, ?_⟩,
    followsMarked.trans shrinks.follows, fun roomy => (roomyMarked roomy).shrinks shrinks, ?_⟩
  · rw [shrinks.sameRoot]
    exact rootHeld
  constructor
  · intro other isDirOther live apart
    obtain ⟨was, now, there, hereNow, type, deleted, _⟩ := keptLive isDirOther live apart
    have gone := deletedMarked other
    rw [← dirMarked, Registry.isDir_of_get there] at isDirOther
    rw [Registry.isDir_of_get hereNow, Registry.isDeleted_of_get hereNow, type, deleted,
      ← Registry.isDeleted_of_get there, gone, live]
    exact ⟨isDirOther, by simp [apart]⟩
  · intro other isDirOther live apart place was hasWas different
    obtain ⟨node, now, there, hereNow, _, _, children⟩ := keptLive isDirOther live apart
    obtain ⟨⟨nodeToo, thereToo, inNode⟩, presentWas⟩ := (hasMarked _ _ _).mpr ⟨hasWas, different⟩
    obtain rfl : node = nodeToo := Option.some.inj (there.symm.trans thereToo)
    rw [← children] at inNode
    obtain ⟨contents, hasNow⟩ := counts.has hereNow inNode
    obtain ⟨origin, presentToo, name, inode⟩ := within.entry place contents hasNow.2
    obtain rfl : was = origin := Option.some.inj (presentWas.symm.trans presentToo)
    exact ⟨contents, hasNow, name, inode⟩
  · rintro other place contents ⟨⟨now, hereNow, inNow⟩, present⟩
    obtain ⟨was, there, _, _, children⟩ := within.inode other now hereNow
    obtain ⟨origin, presentWas, name, inode⟩ := within.entry place contents present
    rw [children] at inNow
    obtain ⟨hasWas, different⟩ := (hasMarked _ _ _).mp ⟨⟨was, there, inNow⟩, presentWas⟩
    exact ⟨different, origin, hasWas, name, inode⟩
  · intro inode isDirNow
    obtain ⟨now, hereNow, type⟩ := Registry.isDir_iff.mp isDirNow
    obtain ⟨was, there, sameType, _⟩ := within.inode inode now hereNow
    rw [← dirMarked, Registry.isDir_of_get there, ← sameType, type]
    rfl

theorem registryDirIsEmpty_spec (empty : registryDirIsEmpty reg dir = true) {found : Dirent}
    (has : reg.Has dir entry found)
    : isDotName found.name = true := by
  obtain ⟨⟨node, here, member⟩, present⟩ := has
  simp only [registryDirIsEmpty, here, List.all_eq_true] at empty
  have dots := empty entry member
  simpa [Registry.named, present, isDotName] using dots

/-- What `registry_unlink` has checked where it takes an entry away. -/
structure Unlinkable (reg : Registry) (dir : Nat) (name : Name) (entry : Nat) (found : Dirent)
    : Prop where
  isDir : reg.isDir dir = true
  live : reg.isDeleted dir = false
  search : registryFinddirent reg dir name = some entry
  has : reg.Has dir entry found
  named : found.name = name
  plain : isDotName found.name = false
  empty
    : reg.isDir found.inode = true
      → ∀ other otherFound, reg.Has found.inode other otherFound
      → isDotName otherFound.name = true

theorem registryUnlink_cases (reg : Registry) (dir : Nat) (name : Name)
    : (∃ failure, registryUnlink reg dir name = (.error failure, reg))
      ∨ ∃ entry found, Unlinkable reg dir name entry found
          ∧ registryUnlink reg dir name
            = (.ok (), direntUnref (markDeleted (reg.modifyInode dir (fun node =>
                { node with children := node.children.erase entry })) entry) entry) := by
  simp only [registryUnlink]
  by_cases notDir : reg.isDir dir = false
  · exact Or.inl ⟨.minusOne, by rw [if_pos notDir]⟩
  rw [if_neg notDir]
  by_cases refused : isDotName name = true ∨ reg.isDeleted dir = true
  · exact Or.inl ⟨.code .busy, by rw [if_pos refused]⟩
  rw [if_neg refused]
  obtain ⟨plain, live⟩ := not_or.mp refused
  cases search : registryFinddirent reg dir name with
  | none => exact Or.inl ⟨.minusOne, rfl⟩
  | some entry =>
      obtain ⟨found, has, named⟩ := registryFinddirent_some search
      have target : reg.target entry = some found.inode := by
        simp [Registry.target, has.2]
      simp only []
      by_cases covered : reg.covered entry = true
      · exact Or.inl ⟨.code .busy, by rw [if_pos covered]⟩
      rw [if_neg covered]
      by_cases full : ((reg.target entry).any fun inode =>
          reg.isDir inode && !registryDirIsEmpty reg inode) = true
      · exact Or.inl ⟨.code .busy, by rw [if_pos full]⟩
      rw [if_neg full]
      refine Or.inr ⟨entry, found, ⟨by simpa using notDir, by simpa using live, search, has, named,
        by rw [named]; simpa using plain, ?_⟩, by simp only [direntDetach, search]⟩
      intro targetDir other otherFound hasOther
      simp only [target, Option.any_some, targetDir, Bool.true_and, Bool.not_eq_true,
        Bool.not_eq_false'] at full
      exact registryDirIsEmpty_spec full hasOther

theorem Sound.unlink {name : Name} (sound : Sound reg holds pins)
    : let after := (registryUnlink reg dir name).2
      Sound after holds pins ∧ Follows reg after := by
  rcases registryUnlink_cases reg dir name with ⟨_, failed⟩ | ⟨entry, found, checks, ran⟩
  · rw [failed]
    exact ⟨sound, Follows.refl reg⟩
  · rw [ran]
    obtain ⟨kept, follows, _, _⟩ := sound.drop checks.isDir checks.has checks.plain checks.empty
    exact ⟨kept, follows⟩

end Drop

-- Adding an entry

section Add

variable {reg : Registry} {holds pins : Nat → Nat}

structure Linked (reg after : Registry) (dir entry : Nat) (name : Name) (target : Nat)
    : Prop where
  newEntry : entry = reg.dirents.next
  nextEntry : after.dirents.next = reg.dirents.next + 1
  nextInode : after.inodes.next = reg.inodes.next
  present : after.dirents.get entry = some ⟨name, 1, target⟩
  others
    : ∀ other, other ≠ entry → after.dirents.get other = reg.dirents.get other
  nodes
    : ∀ inode, after.inodes.get inode
        = (reg.inodes.get inode).map (fun node =>
            { node with
              refcount :=
                if inode = target ∧ target ≠ dir ∧ node.refcount < INT_MAX then
                  node.refcount + 1
                else node.refcount
              children := if inode = dir then entry :: node.children else node.children })
  sameRoot : after.root = reg.root
  sameMounts : after.mountpoints = reg.mountpoints

theorem registryLinkdirent_some {dir target entry : Nat} {name : Name} {room : LinkRoom}
    {after : Registry}
    (linked : registryLinkdirent reg dir name target room = some (entry, after))
    : 0 < name.length ∧ Linked reg after dir entry name target := by
  simp only [registryLinkdirent] at linked
  split at linked
  · cases linked
  rename_i sized
  split at linked
  · cases linked
  simp only [direntAlloc] at linked
  split at linked
  · cases linked
  rename_i allocated
  split at allocated
  · cases allocated
  split at allocated
  · cases allocated
  simp only [Option.some.injEq, Prod.mk.injEq] at allocated linked
  obtain ⟨rfl, rfl⟩ := allocated
  obtain ⟨rfl, rfl⟩ := linked
  refine ⟨by omega, ?_⟩
  constructor
  · rfl
  · split <;> rfl
  · split <;> rfl
  · split <;> exact Arena.get_alloc_self _ _
  · intro other apart
    split <;> exact Arena.get_alloc_of_ne apart _
  · intro inode
    split
    · rename_i different
      simp only [inodeRef, Registry.modifyInode, Arena.get_modify]
      cases here : reg.inodes.get inode with
      | none => simp
      | some node =>
          by_cases isTarget : inode = target
          · subst isTarget
            by_cases below : node.refcount < INT_MAX
            · simp [different, below]
            · simp [different, below]
          · by_cases isDir : inode = dir
            · have apart : ¬dir = target := fun same => different same.symm
              simp [isDir, apart]
            · simp [isTarget, isDir]
    · rename_i same
      obtain rfl : target = dir := by simpa using same
      simp only [Registry.modifyInode, Arena.get_modify]
      cases here : reg.inodes.get inode with
      | none => simp
      | some node =>
          by_cases isDir : inode = target
          · simp [isDir]
          · simp [isDir]
  · split <;> rfl
  · split <;> rfl

theorem Counts.congr {after : Registry} (counts : Counts reg dying holds pins)
    (inodes : after.inodes = reg.inodes) (dirents : after.dirents = reg.dirents)
    : Counts after dying holds pins := by
  obtain ⟨afterInodes, afterDirents, _, _, _, _⟩ := after
  obtain rfl : afterInodes = reg.inodes := inodes
  obtain rfl : afterDirents = reg.dirents := dirents
  exact ⟨counts.counted, counts.held, counts.target, counts.dyingTarget, counts.entryCount,
    counts.present, counts.pinned, counts.owner, counts.nodup, counts.files, counts.young⟩

section Linked

variable {after : Registry} {dir entry target : Nat} {name : Name}

theorem Linked.get (linked : Linked reg after dir entry name target) {inode : Nat} {node : Inode}
    (here : after.inodes.get inode = some node)
    : ∃ was, reg.inodes.get inode = some was
        ∧ node.type = was.type
        ∧ node.deleted = was.deleted
        ∧ node.children = (if inode = dir then entry :: was.children else was.children) := by
  rw [linked.nodes] at here
  obtain ⟨was, there, rfl⟩ := Option.map_eq_some_iff.mp here
  exact ⟨was, there, rfl, rfl, rfl⟩

theorem Linked.isDir (linked : Linked reg after dir entry name target) (inode : Nat)
    : after.isDir inode = reg.isDir inode := by
  simp only [Registry.isDir, linked.nodes]
  cases reg.inodes.get inode <;> rfl

theorem Linked.isDeleted (linked : Linked reg after dir entry name target) (inode : Nat)
    : after.isDeleted inode = reg.isDeleted inode := by
  simp only [Registry.isDeleted, linked.nodes]
  cases reg.inodes.get inode <;> rfl

theorem Linked.follows (linked : Linked reg after dir entry name target)
    : Follows reg after where
  lists := by
    intro inode node here other member old
    obtain ⟨was, there, _, _, children⟩ := linked.get here
    refine ⟨was, there, ?_⟩
    rw [children] at member
    split at member
    · rcases List.mem_cons.mp member with new | inWas
      · have := linked.newEntry
        omega
      · exact inWas
    · exact member
  nextEntry := by
    rw [linked.nextEntry]
    omega
  sameRoot := linked.sameRoot
  sameMounts := linked.sameMounts

theorem Linked.has (linked : Linked reg after dir entry name target)
    (counts : Counts reg dying holds pins) (isDir : reg.isDir dir = true) (parent other : Nat)
    (found : Dirent)
    : after.Has parent other found
      ↔ reg.Has parent other found
        ∨ parent = dir ∧ other = entry ∧ found = ⟨name, 1, target⟩ := by
  have unlisted := counts.next_unused.2
  constructor
  · rintro ⟨⟨node, here, member⟩, present⟩
    obtain ⟨was, there, _, _, children⟩ := linked.get here
    by_cases new : other = entry
    · subst new
      rw [linked.present] at present
      rw [children] at member
      split at member
      · rename_i same
        exact Or.inr ⟨same, rfl, (Option.some.inj present).symm⟩
      · rw [linked.newEntry] at member
        exact absurd member (unlisted parent was there)
    · rw [linked.others other new] at present
      rw [children] at member
      refine Or.inl ⟨⟨was, there, ?_⟩, present⟩
      split at member
      · rcases List.mem_cons.mp member with same | inWas
        · exact absurd same new
        · exact inWas
      · exact member
  · rintro (⟨⟨was, there, member⟩, present⟩ | ⟨rfl, rfl, rfl⟩)
    · have old : other ≠ entry := by
        rw [linked.newEntry]
        exact Arena.ne_next present
      refine ⟨⟨_, by rw [linked.nodes, there]; rfl, ?_⟩, ?_⟩
      · simp only []
        split
        · exact List.mem_cons_of_mem _ member
        · exact member
      · rw [linked.others other old]
        exact present
    · obtain ⟨was, there, _⟩ := Registry.isDir_iff.mp isDir
      refine ⟨⟨_, by rw [linked.nodes, there]; rfl, ?_⟩, linked.present⟩
      simp

/-- Linking an entry below the caps keeps the counts. -/
theorem Linked.counts (linked : Linked reg after dir entry name target)
    (counts : Counts reg [] holds pins) (isDir : reg.isDir dir = true)
    {node : Inode} (targetHere : reg.inodes.get target = some node)
    (below : target ≠ dir → node.refcount < INT_MAX)
    : Counts after [] holds pins := by
  obtain ⟨dirNode, dirHere, type⟩ := Registry.isDir_iff.mp isDir
  by_cases self : target = dir
  · have withSelf : Counts reg [] (plus holds (if target = dir then [] else [target])) pins := by
      rw [if_pos self, plus_nil]
      exact counts
    apply (withSelf.link name 0 dirHere (by simp) type (by simp) ⟨node, targetHere⟩).congr
    · apply Arena.ext_get
      · intro inode
        rw [linked.nodes]
        simp only [Registry.modifyInode, Arena.get_modify]
        cases reg.inodes.get inode with
        | none => simp
        | some was =>
            by_cases same : inode = dir
            · simp [same, self, linked.newEntry]
            · simp [same, self]
      · exact linked.nextInode
    · apply Arena.ext_get
      · intro other
        by_cases new : other = entry
        · rw [new, linked.present, linked.newEntry]
          exact (Arena.get_alloc_self _ _).symm
        · rw [linked.others other new]
          rw [linked.newEntry] at new
          exact (Arena.get_alloc_of_ne new _).symm
      · exact linked.nextEntry
  · have referred := counts.inodeRef targetHere (by simp) (below self)
    have dirStill : (inodeRef reg target).inodes.get dir = some dirNode := by
      have apart : dir ≠ target := fun same => self same.symm
      rw [← dirHere]
      exact Arena.get_modify_of_ne apart
    have targetStill : ∃ found, (inodeRef reg target).inodes.get target = some found := by
      simp [inodeRef, Registry.modifyInode, targetHere]
    have withTarget
        : Counts (inodeRef reg target) []
            (plus holds (if target = dir then [] else [target])) pins := by
      rw [if_neg self]
      exact referred
    apply (withTarget.link name 0 dirStill (by simp) type (by simp) targetStill).congr
    · apply Arena.ext_get
      · intro inode
        rw [linked.nodes]
        simp only [Registry.modifyInode, inodeRef, Arena.get_modify]
        cases here : reg.inodes.get inode with
        | none => simp
        | some was =>
            by_cases same : inode = dir
            · have apart : ¬dir = target := fun eq => self eq.symm
              simp [same, apart, linked.newEntry]
            · by_cases isTarget : inode = target
              · subst isTarget
                by_cases room : was.refcount < INT_MAX
                · simp [self, room]
                · simp [self, room]
              · simp [same, isTarget]
      · exact linked.nextInode
    · apply Arena.ext_get
      · intro other
        by_cases new : other = entry
        · rw [new, linked.present, linked.newEntry]
          exact (Arena.get_alloc_self _ _).symm
        · rw [linked.others other new]
          rw [linked.newEntry] at new
          exact (Arena.get_alloc_of_ne new _).symm
      · exact linked.nextEntry

end Linked

/-- `registry_link` keeps the registry sound. -/
theorem Sound.link {target dir : Nat} {name : Name} {room : LinkRoom} {node : Inode}
    (sound : Sound reg holds pins) (roomy : reg.Roomy)
    (targetHere : reg.inodes.get target = some node)
    : let after := (registryLink reg target dir name room).2
      Sound after holds pins ∧ Follows reg after := by
  simp only [registryLink]
  by_cases sized : name.length = 0 ∨ REG_MAX_NAME_LEN ≤ name.length
  · simpa only [if_pos sized] using ⟨sound, Follows.refl reg⟩
  rw [if_neg sized]
  by_cases notDir : reg.isDir dir = false
  · simpa only [if_pos notDir] using ⟨sound, Follows.refl reg⟩
  have isDir : reg.isDir dir = true := by simpa using notDir
  rw [if_neg notDir]
  by_cases deleted : reg.isDeleted dir = true
  · simpa only [if_pos deleted] using ⟨sound, Follows.refl reg⟩
  have live : reg.isDeleted dir = false := by simpa using deleted
  rw [if_neg deleted]
  by_cases refused : isDotName name = true ∨ reg.isDir target = true
  · simpa only [if_pos refused] using ⟨sound, Follows.refl reg⟩
  rw [if_neg refused]
  obtain ⟨plain, file⟩ := not_or.mp refused
  by_cases taken : (registryFinddirent reg dir name).isSome = true
  · simpa only [if_pos taken] using ⟨sound, Follows.refl reg⟩
  rw [if_neg taken]
  cases result : registryLinkdirent reg dir name target room with
  | none => exact ⟨sound, Follows.refl reg⟩
  | some made =>
      obtain ⟨entry, after⟩ := made
      obtain ⟨_, linked⟩ := registryLinkdirent_some result
      have free : registryFinddirent reg dir name = none := by simpa using taken
      have tree : Tree after :=
        sound.tree.addFile live (by simpa using plain)
          (fun other found has => registryFinddirent_none free has) (by simpa using file)
          linked.sameRoot linked.isDir linked.isDeleted
          (linked.has sound.counts isDir)
      have counts := linked.counts sound.counts isDir targetHere
        (fun _ => roomy.1 target node targetHere)
      refine ⟨⟨counts, tree, sound.readers.follows sound.counts linked.follows, ?_⟩,
        linked.follows⟩
      rw [linked.sameRoot]
      exact sound.rootHeld

end Add

end Panuti.Native
