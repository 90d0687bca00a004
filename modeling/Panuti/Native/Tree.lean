import Panuti.Library.Climb
import Panuti.Native.Destroy

/-! The shape of the native tree: which entry of which directory names which inode. Names are
unique in a directory, a directory that was not deleted is named by one entry of the
directory behind its `..`, and every directory climbs to the root.
-/

namespace Panuti.Native

open Panuti.Kernel (Errno HandleOps InodeType)

-- Entries of directories

/-- The entry is on the directory's list, with these contents. -/
def Registry.Has (reg : Registry) (dir entry : Nat) (found : Dirent) : Prop :=
  (∃ node, reg.inodes.get dir = some node ∧ entry ∈ node.children)
  ∧ reg.dirents.get entry = some found

structure Tree (reg : Registry) : Prop where
  rootDir : reg.isDir reg.root = true
  rootLive : reg.isDeleted reg.root = false
  rootParent : reg.parentOf reg.root = reg.root
  distinct
    : ∀ dir entry other found otherFound, reg.Has dir entry found
      → reg.Has dir other otherFound
      → found.name = otherFound.name
      → entry = other
  self
    : ∀ dir, reg.isDir dir = true
      → ∃ entry found, reg.Has dir entry found ∧ found.name = dot
  selfTarget
    : ∀ dir entry found, reg.Has dir entry found → found.name = dot → found.inode = dir
  parent
    : ∀ dir, reg.isDir dir = true
      → ∃ entry found, reg.Has dir entry found ∧ found.name = dotdot
  parentDir
    : ∀ dir entry found, reg.Has dir entry found → found.name = dotdot
      → reg.isDir found.inode = true
  child
    : ∀ dir entry found, reg.Has dir entry found → isDotName found.name = false
      → reg.isDir found.inode = true
      → reg.isDeleted found.inode = false
        ∧ found.inode ≠ reg.root
        ∧ reg.parentOf found.inode = dir
  single
    : ∀ dir other entry otherEntry found otherFound, reg.Has dir entry found
      → reg.Has other otherEntry otherFound
      → isDotName found.name = false
      → isDotName otherFound.name = false
      → found.inode = otherFound.inode
      → reg.isDir found.inode = true
      → entry = otherEntry
  named
    : ∀ dir, reg.isDir dir = true → reg.isDeleted dir = false → dir ≠ reg.root
      → ∃ parent entry found, reg.Has parent entry found
        ∧ isDotName found.name = false
        ∧ found.inode = dir
  empty
    : ∀ dir entry found, reg.Has dir entry found → reg.isDeleted dir = true
      → isDotName found.name = true
  grounded
    : ∀ dir, reg.isDir dir = true → Climb.Grounded reg.parentOf reg.root dir

variable {reg : Registry} {inode : Nat}

theorem Registry.isDir_iff
    : reg.isDir inode = true ↔ ∃ node, reg.inodes.get inode = some node ∧ node.type = .dir := by
  cases present : reg.inodes.get inode with
  | none => simp [Registry.isDir, present]
  | some node => simp [Registry.isDir, present]

theorem Registry.isDir_of_get {node : Inode} (here : reg.inodes.get inode = some node)
    : reg.isDir inode = decide (node.type = .dir) := by
  simp [Registry.isDir, here]

theorem Registry.isDeleted_of_get {node : Inode} (here : reg.inodes.get inode = some node)
    : reg.isDeleted inode = node.deleted := by
  simp [Registry.isDeleted, here]

theorem dot_isDotName : isDotName dot = true := by decide

theorem dotdot_isDotName : isDotName dotdot = true := by decide

theorem not_dot_of_not_isDotName {name : Name} (plain : isDotName name = false)
    : name ≠ dot ∧ name ≠ dotdot := by
  refine ⟨?_, ?_⟩
  · rintro rfl
    simp [dot_isDotName] at plain
  · rintro rfl
    simp [dotdot_isDotName] at plain

theorem isDotName_cases {name : Name} (dots : isDotName name = true)
    : name = dot ∨ name = dotdot := by
  simpa [isDotName] using dots

section Find

variable {reg : Registry} {dir : Nat} {name : Name} {entry : Nat} {found : Dirent}

theorem registryFinddirent_some (found : registryFinddirent reg dir name = some entry)
    : ∃ contents, reg.Has dir entry contents ∧ contents.name = name := by
  simp only [registryFinddirent] at found
  cases here : reg.inodes.get dir with
  | none => simp [here] at found
  | some node =>
      simp only [here] at found
      have isNamed := List.find?_some found
      have member := List.mem_of_find?_eq_some found
      simp only [Registry.named, Option.any_eq_true] at isNamed
      obtain ⟨contents, present, named⟩ := isNamed
      exact ⟨contents, ⟨⟨node, here, member⟩, present⟩, by simpa using named⟩

theorem registryFinddirent_none (absent : registryFinddirent reg dir name = none)
    (has : reg.Has dir entry found)
    : found.name ≠ name := by
  obtain ⟨⟨node, here, member⟩, present⟩ := has
  simp only [registryFinddirent, here, List.find?_eq_none] at absent
  have unnamed := absent entry member
  simpa [Registry.named, present] using unnamed

theorem registryFinddirent_eq (has : reg.Has dir entry found) (named : found.name = name)
    (unique
      : ∀ other otherFound, reg.Has dir other otherFound → otherFound.name = name
        → other = entry)
    : registryFinddirent reg dir name = some entry := by
  cases search : registryFinddirent reg dir name with
  | none => exact absurd named (registryFinddirent_none search has)
  | some other =>
      obtain ⟨contents, hasOther, namedOther⟩ := registryFinddirent_some search
      rw [unique other contents hasOther namedOther]

theorem parentOf_eq (distinct
      : ∀ entry other found otherFound, reg.Has dir entry found → reg.Has dir other otherFound
        → found.name = otherFound.name
        → entry = other)
    (has : reg.Has dir entry found) (named : found.name = dotdot)
    : reg.parentOf dir = found.inode := by
  have search : registryFinddirent reg dir dotdot = some entry := by
    apply registryFinddirent_eq has named
    intro other otherFound hasOther namedOther
    exact distinct other entry otherFound found hasOther has (namedOther.trans named.symm)
  simp [Registry.parentOf, search, Registry.target, has.2]

end Find

variable {dir entry : Nat} {holds pins : Nat → Nat} {changed : Registry}

theorem Tree.find (tree : Tree reg) {found : Dirent} (has : reg.Has dir entry found)
    : registryFinddirent reg dir found.name = some entry := by
  apply registryFinddirent_eq has rfl
  intro other otherFound hasOther same
  exact tree.distinct dir other entry otherFound found hasOther has same

theorem Tree.parentOf (tree : Tree reg) {found : Dirent} (has : reg.Has dir entry found)
    (named : found.name = dotdot)
    : reg.parentOf dir = found.inode :=
  parentOf_eq (tree.distinct dir) has named

theorem Tree.parent_isDir (tree : Tree reg) (isDir : reg.isDir dir = true)
    : reg.isDir (reg.parentOf dir) = true := by
  obtain ⟨entry, found, has, named⟩ := tree.parent dir isDir
  rw [tree.parentOf has named]
  exact tree.parentDir dir entry found has named

theorem Tree.parent_ne (tree : Tree reg) (isDir : reg.isDir dir = true) (notRoot : dir ≠ reg.root)
    : reg.parentOf dir ≠ dir :=
  (tree.grounded dir isDir).acyclic tree.rootParent notRoot 0

theorem Counts.has (counts : Counts reg [] holds pins) {node : Inode}
    (here : reg.inodes.get dir = some node) (member : entry ∈ node.children)
    : ∃ found, reg.Has dir entry found := by
  obtain ⟨found, present⟩ := counts.present entry ⟨dir, node, by simp, here, member⟩
  exact ⟨found, ⟨node, here, member⟩, present⟩

-- What is destroyed leaves the shape

structure Within (reg changed : Registry) : Prop where
  inode
    : ∀ inode node, changed.inodes.get inode = some node
      → ∃ was, reg.inodes.get inode = some was
        ∧ node.type = was.type
        ∧ node.deleted = was.deleted
        ∧ node.children = was.children
  entry
    : ∀ entry found, changed.dirents.get entry = some found
      → ∃ was, reg.dirents.get entry = some was
        ∧ found.name = was.name
        ∧ found.inode = was.inode
  sameRoot : changed.root = reg.root

theorem Shrinks.within {dying : List Nat} (shrinks : Shrinks dying reg changed)
    : Within reg changed where
  inode := by
    intro inode node present
    obtain ⟨was, there, type, deleted, children, _⟩ := shrinks.inode inode node present
    exact ⟨was, there, type, deleted, children⟩
  entry := by
    intro entry found present
    obtain ⟨was, there, name, inode, _⟩ := shrinks.entry entry found present
    exact ⟨was, there, name, inode⟩
  sameRoot := shrinks.sameRoot

/-- Where everything left is as it was and references lead to what is left, the tree keeps
its shape.
Witness: the parents of the directories left are left, since their `..` refers to them.
-/
theorem Tree.within (tree : Tree reg) (within : Within reg changed)
    (counts : Counts changed [] holds pins) (rootHeld : 0 < holds reg.root)
    : Tree changed := by
  have oldHas {dir entry : Nat} {found : Dirent} (has : changed.Has dir entry found)
      : ∃ was, reg.Has dir entry was ∧ found.name = was.name ∧ found.inode = was.inode := by
    obtain ⟨⟨node, here, member⟩, present⟩ := has
    obtain ⟨wasNode, there, _, _, children⟩ := within.inode dir node here
    obtain ⟨was, thereEntry, name, inode⟩ := within.entry entry found present
    rw [children] at member
    exact ⟨was, ⟨⟨wasNode, there, member⟩, thereEntry⟩, name, inode⟩
  have keptHas {dir entry : Nat} {was : Dirent} {node : Inode}
      (here : changed.inodes.get dir = some node) (has : reg.Has dir entry was)
      : ∃ found, changed.Has dir entry found
          ∧ found.name = was.name
          ∧ found.inode = was.inode := by
    obtain ⟨⟨wasNode, there, member⟩, presentWas⟩ := has
    obtain ⟨otherNode, thereToo, _, _, children⟩ := within.inode dir node here
    obtain rfl : wasNode = otherNode := Option.some.inj (there.symm.trans thereToo)
    rw [← children] at member
    obtain ⟨found, hasNow⟩ := counts.has here member
    obtain ⟨otherWas, thereEntry, name, inode⟩ := within.entry entry found hasNow.2
    obtain rfl : was = otherWas := Option.some.inj (presentWas.symm.trans thereEntry)
    exact ⟨found, hasNow, name, inode⟩
  have oldDir {dir : Nat} (isDir : changed.isDir dir = true)
      : reg.isDir dir = true ∧ ∃ node, changed.inodes.get dir = some node := by
    obtain ⟨node, here, type⟩ := Registry.isDir_iff.mp isDir
    obtain ⟨was, there, sameType, _⟩ := within.inode dir node here
    exact ⟨Registry.isDir_iff.mpr ⟨was, there, sameType.symm.trans type⟩, node, here⟩
  have keptDir {dir : Nat} {node : Inode} (here : changed.inodes.get dir = some node)
      (isDir : reg.isDir dir = true)
      : changed.isDir dir = true := by
    obtain ⟨was, there, type⟩ := Registry.isDir_iff.mp isDir
    obtain ⟨otherWas, thereToo, sameType, _⟩ := within.inode dir node here
    obtain rfl : was = otherWas := Option.some.inj (there.symm.trans thereToo)
    exact Registry.isDir_iff.mpr ⟨node, here, sameType.trans type⟩
  have sameDeleted {dir : Nat} {node : Inode} (here : changed.inodes.get dir = some node)
      : changed.isDeleted dir = reg.isDeleted dir := by
    obtain ⟨was, there, _, deleted, _⟩ := within.inode dir node here
    rw [Registry.isDeleted_of_get here, Registry.isDeleted_of_get there, deleted]
  have distinct : ∀ dir entry other found otherFound, changed.Has dir entry found
      → changed.Has dir other otherFound → found.name = otherFound.name → entry = other := by
    intro dir entry other found otherFound has hasOther same
    obtain ⟨was, hasWas, name, _⟩ := oldHas has
    obtain ⟨wasOther, hasWasOther, nameOther, _⟩ := oldHas hasOther
    exact tree.distinct dir entry other was wasOther hasWas hasWasOther
      (name.symm.trans (same.trans nameOther))
  have sameParent {dir : Nat} (isDir : changed.isDir dir = true)
      : changed.parentOf dir = reg.parentOf dir
        ∧ ∃ node, changed.inodes.get (reg.parentOf dir) = some node := by
    obtain ⟨wasDir, node, here⟩ := oldDir isDir
    obtain ⟨entry, was, has, named⟩ := tree.parent dir wasDir
    obtain ⟨found, hasNow, name, inode⟩ := keptHas here has
    rw [parentOf_eq (distinct dir) hasNow (name.trans named), tree.parentOf has named, inode]
    refine ⟨rfl, ?_⟩
    rw [← inode]
    exact counts.target entry found hasNow.2
  obtain ⟨_, rootNode, rootHere⟩ := counts.held reg.root rootHeld
  have rootDir : changed.isDir reg.root = true := keptDir rootHere tree.rootDir
  constructor
  · rw [within.sameRoot]
    exact rootDir
  · rw [within.sameRoot, sameDeleted rootHere]
    exact tree.rootLive
  · rw [within.sameRoot, (sameParent rootDir).1]
    exact tree.rootParent
  · exact distinct
  · intro dir isDir
    obtain ⟨wasDir, node, here⟩ := oldDir isDir
    obtain ⟨entry, was, has, named⟩ := tree.self dir wasDir
    obtain ⟨found, hasNow, name, _⟩ := keptHas here has
    exact ⟨entry, found, hasNow, name.trans named⟩
  · intro dir entry found has named
    obtain ⟨was, hasWas, name, inode⟩ := oldHas has
    rw [inode]
    exact tree.selfTarget dir entry was hasWas (name.symm.trans named)
  · intro dir isDir
    obtain ⟨wasDir, node, here⟩ := oldDir isDir
    obtain ⟨entry, was, has, named⟩ := tree.parent dir wasDir
    obtain ⟨found, hasNow, name, _⟩ := keptHas here has
    exact ⟨entry, found, hasNow, name.trans named⟩
  · intro dir entry found has named
    obtain ⟨was, hasWas, name, inode⟩ := oldHas has
    obtain ⟨node, here⟩ := counts.target entry found has.2
    apply keptDir here
    rw [inode]
    exact tree.parentDir dir entry was hasWas (name.symm.trans named)
  · intro dir entry found has plain isDir
    obtain ⟨was, hasWas, name, inode⟩ := oldHas has
    obtain ⟨node, here⟩ := counts.target entry found has.2
    rw [(sameParent isDir).1, sameDeleted here, within.sameRoot, inode]
    rw [inode] at isDir
    rw [name] at plain
    exact tree.child dir entry was hasWas plain (oldDir isDir).1
  · intro dir other entry otherEntry found otherFound has hasOther plain plainOther same isDir
    obtain ⟨was, hasWas, name, inode⟩ := oldHas has
    obtain ⟨wasOther, hasWasOther, nameOther, inodeOther⟩ := oldHas hasOther
    rw [inode, inodeOther] at same
    rw [inode] at isDir
    rw [name] at plain
    rw [nameOther] at plainOther
    exact tree.single dir other entry otherEntry was wasOther hasWas hasWasOther plain
      plainOther same (oldDir isDir).1
  · intro dir isDir live notRoot
    obtain ⟨wasDir, node, here⟩ := oldDir isDir
    rw [sameDeleted here] at live
    rw [within.sameRoot] at notRoot
    obtain ⟨parent, entry, was, has, plain, names⟩ := tree.named dir wasDir live notRoot
    have above := (tree.child parent entry was has plain (by rw [names]; exact wasDir)).2.2
    rw [names] at above
    obtain ⟨parentNode, parentHere⟩ := (sameParent isDir).2
    rw [above] at parentHere
    obtain ⟨found, hasNow, name, inode⟩ := keptHas parentHere has
    exact ⟨parent, entry, found, hasNow, by rw [name]; exact plain, inode.trans names⟩
  · intro dir entry found has deleted
    obtain ⟨was, hasWas, name, _⟩ := oldHas has
    obtain ⟨⟨node, here, _⟩, _⟩ := has
    rw [sameDeleted here] at deleted
    rw [name]
    exact tree.empty dir entry was hasWas deleted
  · intro dir isDir
    rw [within.sameRoot]
    apply Climb.Grounded.congr (fun place => changed.isDir place = true) ?_ isDir
      (tree.grounded dir (oldDir isDir).1)
    intro place inside _
    obtain ⟨same, node, here⟩ := sameParent inside
    exact ⟨same, keptDir here (tree.parent_isDir (oldDir inside).1)⟩

-- Climbing

theorem Tree.iterate_isDir (tree : Tree reg) (isDir : reg.isDir dir = true) (steps : Nat)
    : reg.isDir (reg.parentOf^[steps] dir) = true := by
  induction steps with
  | zero => exact isDir
  | succ steps ih =>
      rw [Function.iterate_succ_apply']
      exact tree.parent_isDir ih

theorem Tree.climb_bounded (tree : Tree reg) (isDir : reg.isDir dir = true)
    : ∃ steps < reg.inodes.next, reg.parentOf^[steps] dir = reg.root := by
  apply (tree.grounded dir isDir).bounded
  intro steps
  obtain ⟨node, here, _⟩ := Registry.isDir_iff.mp (tree.iterate_isDir isDir steps)
  exact Arena.lt_next here

theorem Tree.parent_names (tree : Tree reg) (isDir : reg.isDir dir = true)
    (live : reg.isDeleted dir = false) (notRoot : dir ≠ reg.root)
    : ∃ entry found, reg.Has (reg.parentOf dir) entry found
        ∧ isDotName found.name = false
        ∧ found.inode = dir := by
  obtain ⟨parent, entry, found, has, plain, rfl⟩ := tree.named dir isDir live notRoot
  rw [(tree.child parent entry found has plain isDir).2.2]
  exact ⟨entry, found, has, plain, rfl⟩

theorem Tree.parent_live (tree : Tree reg) (isDir : reg.isDir dir = true)
    (live : reg.isDeleted dir = false)
    : reg.isDeleted (reg.parentOf dir) = false := by
  by_cases atRoot : dir = reg.root
  · rw [atRoot, tree.rootParent]
    exact tree.rootLive
  · obtain ⟨entry, found, has, plain, _⟩ := tree.parent_names isDir live atRoot
    by_contra gone
    have dots := tree.empty _ entry found has (by simpa using gone)
    rw [plain] at dots
    cases dots

theorem Tree.keeps (tree : Tree reg) (within : Within reg changed)
    (counts : Counts changed [] holds pins) (rootHeld : 0 < holds reg.root)
    (isDir : reg.isDir dir = true) (live : reg.isDeleted dir = false)
    : ∃ node, changed.inodes.get dir = some node := by
  obtain ⟨steps, reached⟩ := tree.grounded dir isDir
  induction steps generalizing dir with
  | zero =>
      obtain rfl : dir = reg.root := reached
      exact (counts.held _ rootHeld).2
  | succ steps ih =>
      by_cases atRoot : dir = reg.root
      · rw [atRoot]
        exact (counts.held _ rootHeld).2
      · rw [Function.iterate_succ_apply] at reached
        obtain ⟨node, here⟩ := ih (tree.parent_isDir isDir) (tree.parent_live isDir live) reached
        obtain ⟨entry, found, has, _, names⟩ := tree.parent_names isDir live atRoot
        obtain ⟨was, there, _, _, children⟩ := within.inode _ node here
        obtain ⟨⟨otherWas, thereToo, member⟩, presentWas⟩ := has
        obtain rfl : was = otherWas := Option.some.inj (there.symm.trans thereToo)
        rw [← children] at member
        obtain ⟨now, hasNow⟩ := counts.has here member
        obtain ⟨origin, presentToo, _, inode⟩ := within.entry entry now hasNow.2
        obtain rfl : found = origin := Option.some.inj (presentWas.symm.trans presentToo)
        rw [← names, ← inode]
        exact counts.target entry now hasNow.2

theorem Tree.dirHasAncestor_of_climb (tree : Tree reg) {steps fuel ancestor : Nat}
    (isDir : reg.isDir dir = true) (reached : reg.parentOf^[steps] dir = reg.root)
    (enough : steps < fuel)
    : dirHasAncestor reg fuel dir ancestor = true
      ↔ ∃ taken, reg.parentOf^[taken] dir = ancestor := by
  induction steps generalizing fuel dir with
  | zero =>
      obtain ⟨fuel, rfl⟩ : ∃ less, fuel = less + 1 := ⟨fuel - 1, by omega⟩
      obtain rfl : dir = reg.root := reached
      simp only [dirHasAncestor]
      by_cases here : reg.root = ancestor
      · simp only [here, if_true, true_iff]
        exact ⟨0, rfl⟩
      · simp only [here, if_false, tree.rootParent, if_true, Bool.false_eq_true, false_iff,
          not_exists]
        intro taken
        rw [Climb.iterate_root tree.rootParent]
        exact here
  | succ steps ih =>
      obtain ⟨fuel, rfl⟩ : ∃ less, fuel = less + 1 := ⟨fuel - 1, by omega⟩
      simp only [dirHasAncestor]
      by_cases here : dir = ancestor
      · simp only [here, if_true, true_iff]
        exact ⟨0, rfl⟩
      · rw [if_neg here]
        by_cases fixed : reg.parentOf dir = dir
        · rw [if_pos fixed]
          simp only [Bool.false_eq_true, false_iff, not_exists]
          intro taken
          rw [Function.iterate_fixed fixed]
          exact here
        · rw [if_neg fixed, ih (tree.parent_isDir isDir)
            (by rw [← Function.iterate_succ_apply]; exact reached) (by omega)]
          constructor
          · rintro ⟨taken, found⟩
            exact ⟨taken + 1, by rw [Function.iterate_succ_apply]; exact found⟩
          · rintro ⟨taken, found⟩
            cases taken with
            | zero => exact absurd found here
            | succ taken =>
                exact ⟨taken, by rw [← Function.iterate_succ_apply]; exact found⟩

theorem Tree.dirHasAncestor_iff (tree : Tree reg) {ancestor : Nat} (isDir : reg.isDir dir = true)
    : dirHasAncestor reg reg.inodes.next dir ancestor = true
      ↔ ∃ taken, reg.parentOf^[taken] dir = ancestor := by
  obtain ⟨steps, few, reached⟩ := tree.climb_bounded isDir
  exact tree.dirHasAncestor_of_climb isDir reached few

-- Unlinking, linking and creating

section Shapes

variable {reg changed : Registry}

/-- Taking the entry of a file or of an empty directory off its list keeps the tree. -/
theorem Tree.unlink {found : Dirent} (tree : Tree reg) (has : reg.Has dir entry found)
    (plain : isDotName found.name = false)
    (empty
      : reg.isDir found.inode = true
        → ∀ other otherFound, reg.Has found.inode other otherFound
        → isDotName otherFound.name = true)
    (sameRoot : changed.root = reg.root) (sameDir : ∀ inode, changed.isDir inode = reg.isDir inode)
    (deleted
      : ∀ inode, changed.isDeleted inode
          = (reg.isDeleted inode || (decide (inode = found.inode) && reg.isDir inode)))
    (entries
      : ∀ parent other otherFound, changed.Has parent other otherFound
          ↔ reg.Has parent other otherFound ∧ other ≠ entry)
    : Tree changed := by
  have old {parent other : Nat} {otherFound : Dirent}
      (hasOther : changed.Has parent other otherFound)
      : reg.Has parent other otherFound ∧ other ≠ entry :=
    (entries parent other otherFound).mp hasOther
  have keptDots {parent other : Nat} {otherFound : Dirent}
      (hasOther : reg.Has parent other otherFound) (dots : isDotName otherFound.name = true)
      : changed.Has parent other otherFound := by
    refine (entries parent other otherFound).mpr ⟨hasOther, ?_⟩
    rintro rfl
    obtain rfl : found = otherFound := Option.some.inj (has.2.symm.trans hasOther.2)
    rw [plain] at dots
    cases dots
  have distinct : ∀ parent first second firstFound secondFound,
      changed.Has parent first firstFound → changed.Has parent second secondFound
      → firstFound.name = secondFound.name → first = second :=
    fun parent first second firstFound secondFound hasFirst hasSecond same =>
      tree.distinct parent first second firstFound secondFound (old hasFirst).1
        (old hasSecond).1 same
  have sameParent {parent : Nat} (isDir : reg.isDir parent = true)
      : changed.parentOf parent = reg.parentOf parent := by
    obtain ⟨up, upFound, hasUp, named⟩ := tree.parent parent isDir
    rw [tree.parentOf hasUp named]
    exact parentOf_eq (distinct parent)
      (keptDots hasUp (by rw [named]; exact dotdot_isDotName)) named
  have notRoot (isDir : reg.isDir found.inode = true) : found.inode ≠ reg.root :=
    (tree.child dir entry found has plain isDir).2.1
  constructor
  · rw [sameDir, sameRoot]
    exact tree.rootDir
  · rw [deleted, sameRoot, tree.rootLive, tree.rootDir]
    by_cases same : reg.root = found.inode
    · exact absurd same.symm (notRoot (by rw [← same]; exact tree.rootDir))
    · simp [same]
  · rw [sameRoot, sameParent tree.rootDir]
    exact tree.rootParent
  · exact distinct
  · intro parent isDir
    rw [sameDir] at isDir
    obtain ⟨other, otherFound, hasOther, named⟩ := tree.self parent isDir
    exact ⟨other, otherFound, keptDots hasOther (by rw [named]; exact dot_isDotName), named⟩
  · intro parent other otherFound hasOther named
    exact tree.selfTarget parent other otherFound (old hasOther).1 named
  · intro parent isDir
    rw [sameDir] at isDir
    obtain ⟨other, otherFound, hasOther, named⟩ := tree.parent parent isDir
    exact ⟨other, otherFound, keptDots hasOther (by rw [named]; exact dotdot_isDotName), named⟩
  · intro parent other otherFound hasOther named
    rw [sameDir]
    exact tree.parentDir parent other otherFound (old hasOther).1 named
  · intro parent other otherFound hasOther plainOther isDir
    rw [sameDir] at isDir
    obtain ⟨hasWas, apart⟩ := old hasOther
    obtain ⟨live, notRootOther, above⟩ :=
      tree.child parent other otherFound hasWas plainOther isDir
    refine ⟨?_, by rw [sameRoot]; exact notRootOther, by rw [sameParent isDir]; exact above⟩
    rw [deleted, live]
    by_cases same : otherFound.inode = found.inode
    · exact absurd (tree.single parent dir other entry otherFound found hasWas has plainOther
        plain same isDir) apart
    · simp [same]
  · intro parent other first second firstFound secondFound hasFirst hasSecond plainFirst
      plainSecond same isDir
    rw [sameDir] at isDir
    exact tree.single parent other first second firstFound secondFound (old hasFirst).1
      (old hasSecond).1 plainFirst plainSecond same isDir
  · intro child isDir live childNotRoot
    rw [sameDir] at isDir
    rw [sameRoot] at childNotRoot
    rw [deleted, isDir] at live
    simp only [Bool.and_true, Bool.or_eq_false_iff, decide_eq_false_iff_not] at live
    obtain ⟨parent, other, otherFound, hasOther, plainOther, names⟩ :=
      tree.named child isDir live.1 childNotRoot
    refine ⟨parent, other, otherFound, (entries _ _ _).mpr ⟨hasOther, ?_⟩, plainOther, names⟩
    rintro rfl
    obtain rfl : found = otherFound := Option.some.inj (has.2.symm.trans hasOther.2)
    exact live.2 names.symm
  · intro parent other otherFound hasOther gone
    obtain ⟨hasWas, _⟩ := old hasOther
    rw [deleted] at gone
    simp only [Bool.or_eq_true, Bool.and_eq_true, decide_eq_true_eq] at gone
    rcases gone with before | ⟨rfl, isDir⟩
    · exact tree.empty parent other otherFound hasWas before
    · exact empty isDir other otherFound hasWas
  · intro parent isDir
    rw [sameDir] at isDir
    rw [sameRoot]
    apply Climb.Grounded.congr (fun place => reg.isDir place = true) ?_ isDir
      (tree.grounded parent isDir)
    intro place inside _
    exact ⟨sameParent inside, tree.parent_isDir inside⟩

/-- A new name for a file in a directory that was not deleted keeps the tree. -/
theorem Tree.addFile {target : Nat} {name : Name} (tree : Tree reg)
    (live : reg.isDeleted dir = false) (plain : isDotName name = false)
    (free : ∀ other found, reg.Has dir other found → found.name ≠ name)
    (file : reg.isDir target = false) (sameRoot : changed.root = reg.root)
    (sameDir : ∀ inode, changed.isDir inode = reg.isDir inode)
    (sameDeleted : ∀ inode, changed.isDeleted inode = reg.isDeleted inode)
    (entries
      : ∀ parent other found, changed.Has parent other found
          ↔ reg.Has parent other found
            ∨ parent = dir ∧ other = entry ∧ found = ⟨name, 1, target⟩)
    : Tree changed := by
  have kept {parent other : Nat} {found : Dirent} (has : reg.Has parent other found)
      : changed.Has parent other found := (entries parent other found).mpr (Or.inl has)
  have old {parent other : Nat} {found : Dirent} (has : changed.Has parent other found)
      (different : isDotName found.name = true ∨ reg.isDir found.inode = true)
      : reg.Has parent other found := by
    rcases (entries parent other found).mp has with was | ⟨_, _, rfl⟩
    · exact was
    · rcases different with dots | isDir
      · rw [plain] at dots
        cases dots
      · rw [file] at isDir
        cases isDir
  have distinct : ∀ parent first second firstFound secondFound,
      changed.Has parent first firstFound → changed.Has parent second secondFound
      → firstFound.name = secondFound.name → first = second := by
    intro parent first second firstFound secondFound hasFirst hasSecond same
    rcases (entries _ _ _).mp hasFirst with was | ⟨rfl, rfl, rfl⟩
    · rcases (entries _ _ _).mp hasSecond with wasToo | ⟨rfl, rfl, rfl⟩
      · exact tree.distinct parent first second firstFound secondFound was wasToo same
      · exact absurd same (free first firstFound was)
    · rcases (entries _ _ _).mp hasSecond with wasToo | ⟨_, sameEntry, _⟩
      · exact absurd same.symm (free second secondFound wasToo)
      · exact sameEntry.symm
  have sameParent {parent : Nat} (isDir : reg.isDir parent = true)
      : changed.parentOf parent = reg.parentOf parent := by
    obtain ⟨up, upFound, hasUp, named⟩ := tree.parent parent isDir
    rw [tree.parentOf hasUp named]
    exact parentOf_eq (distinct parent) (kept hasUp) named
  constructor
  · rw [sameDir, sameRoot]
    exact tree.rootDir
  · rw [sameDeleted, sameRoot]
    exact tree.rootLive
  · rw [sameRoot, sameParent tree.rootDir]
    exact tree.rootParent
  · exact distinct
  · intro parent isDir
    rw [sameDir] at isDir
    obtain ⟨other, found, has, named⟩ := tree.self parent isDir
    exact ⟨other, found, kept has, named⟩
  · intro parent other found has named
    exact tree.selfTarget parent other found
      (old has (Or.inl (by rw [named]; exact dot_isDotName))) named
  · intro parent isDir
    rw [sameDir] at isDir
    obtain ⟨other, found, has, named⟩ := tree.parent parent isDir
    exact ⟨other, found, kept has, named⟩
  · intro parent other found has named
    rw [sameDir]
    exact tree.parentDir parent other found
      (old has (Or.inl (by rw [named]; exact dotdot_isDotName))) named
  · intro parent other found has plainOther isDir
    rw [sameDir] at isDir
    rw [sameDeleted, sameRoot, sameParent isDir]
    exact tree.child parent other found (old has (Or.inr isDir)) plainOther isDir
  · intro parent other first second firstFound secondFound hasFirst hasSecond plainFirst
      plainSecond same isDir
    rw [sameDir] at isDir
    exact tree.single parent other first second firstFound secondFound
      (old hasFirst (Or.inr isDir)) (old hasSecond (Or.inr (by rw [← same]; exact isDir)))
      plainFirst plainSecond same isDir
  · intro child isDir liveChild notRoot
    rw [sameDir] at isDir
    rw [sameDeleted] at liveChild
    rw [sameRoot] at notRoot
    obtain ⟨parent, other, found, has, plainOther, names⟩ :=
      tree.named child isDir liveChild notRoot
    exact ⟨parent, other, found, kept has, plainOther, names⟩
  · intro parent other found has gone
    rw [sameDeleted] at gone
    rcases (entries parent other found).mp has with was | ⟨rfl, _, _⟩
    · exact tree.empty parent other found was gone
    · rw [live] at gone
      cases gone
  · intro parent isDir
    rw [sameDir] at isDir
    rw [sameRoot]
    apply Climb.Grounded.congr (fun place => reg.isDir place = true) ?_ isDir
      (tree.grounded parent isDir)
    intro place inside _
    exact ⟨sameParent inside, tree.parent_isDir inside⟩

/-- A new directory with its `.` and `..`, below one that was not deleted. -/
theorem Tree.addDir {self up : Nat} {name : Name} (tree : Tree reg) (isDir : reg.isDir dir = true)
    (live : reg.isDeleted dir = false) (plain : isDotName name = false)
    (free : ∀ other found, reg.Has dir other found → found.name ≠ name)
    (fresh : reg.inodes.get inode = none)
    (unnamed : ∀ parent other found, reg.Has parent other found → found.inode ≠ inode)
    (sameRoot : changed.root = reg.root)
    (dirs : ∀ other, changed.isDir other = (reg.isDir other || decide (other = inode)))
    (sameDeleted : ∀ other, changed.isDeleted other = reg.isDeleted other)
    (entries
      : ∀ parent other found, changed.Has parent other found
          ↔ reg.Has parent other found
            ∨ parent = dir ∧ other = entry ∧ found = ⟨name, 1, inode⟩
            ∨ parent = inode ∧ other = self ∧ found = ⟨dot, 1, inode⟩
            ∨ parent = inode ∧ other = up ∧ found = ⟨dotdot, 1, dir⟩)
    : Tree changed := by
  have noEntries (other : Nat) (found : Dirent) : ¬reg.Has inode other found := by
    rintro ⟨⟨node, here, _⟩, _⟩
    rw [fresh] at here
    cases here
  have notDir : reg.isDir inode = false := by simp [Registry.isDir, fresh]
  have notDeleted : reg.isDeleted inode = false := by simp [Registry.isDeleted, fresh]
  have dirNe : dir ≠ inode := by
    rintro rfl
    rw [notDir] at isDir
    cases isDir
  have rootNe : reg.root ≠ inode := by
    intro same
    have := tree.rootDir
    rw [same, notDir] at this
    cases this
  obtain ⟨notDot, notDotdot⟩ := not_dot_of_not_isDotName plain
  have dotNe : dot ≠ dotdot := by decide
  have kept {parent other : Nat} {found : Dirent} (has : reg.Has parent other found)
      : changed.Has parent other found := (entries parent other found).mpr (Or.inl has)
  have hasEntry : changed.Has dir entry ⟨name, 1, inode⟩ :=
    (entries _ _ _).mpr (Or.inr (Or.inl ⟨rfl, rfl, rfl⟩))
  have hasSelf : changed.Has inode self ⟨dot, 1, inode⟩ :=
    (entries _ _ _).mpr (Or.inr (Or.inr (Or.inl ⟨rfl, rfl, rfl⟩)))
  have hasUp : changed.Has inode up ⟨dotdot, 1, dir⟩ :=
    (entries _ _ _).mpr (Or.inr (Or.inr (Or.inr ⟨rfl, rfl, rfl⟩)))
  have distinct : ∀ parent first second firstFound secondFound,
      changed.Has parent first firstFound → changed.Has parent second secondFound
      → firstFound.name = secondFound.name → first = second := by
    intro parent first second firstFound secondFound hasFirst hasSecond same
    by_cases atNew : parent = inode
    · subst atNew
      rcases (entries _ _ _).mp hasFirst with was | ⟨clash, _⟩ | ⟨_, rfl, rfl⟩ | ⟨_, rfl, rfl⟩
      · exact absurd was (noEntries _ _)
      · exact absurd clash.symm dirNe
      · rcases (entries _ _ _).mp hasSecond with was | ⟨clash, _⟩ | ⟨_, rfl, _⟩ | ⟨_, _, rfl⟩
        · exact absurd was (noEntries _ _)
        · exact absurd clash.symm dirNe
        · rfl
        · exact absurd same dotNe
      · rcases (entries _ _ _).mp hasSecond with was | ⟨clash, _⟩ | ⟨_, _, rfl⟩ | ⟨_, rfl, _⟩
        · exact absurd was (noEntries _ _)
        · exact absurd clash.symm dirNe
        · exact absurd same.symm dotNe
        · rfl
    · rcases (entries _ _ _).mp hasFirst with was | ⟨rfl, rfl, rfl⟩ | ⟨clash, _⟩ | ⟨clash, _⟩
      · rcases (entries _ _ _).mp hasSecond with
          wasToo | ⟨rfl, rfl, rfl⟩ | ⟨clash, _⟩ | ⟨clash, _⟩
        · exact tree.distinct parent first second firstFound secondFound was wasToo same
        · exact absurd same (free first firstFound was)
        · exact absurd clash atNew
        · exact absurd clash atNew
      · rcases (entries _ _ _).mp hasSecond with
          wasToo | ⟨_, sameEntry, _⟩ | ⟨clash, _⟩ | ⟨clash, _⟩
        · exact absurd same.symm (free second secondFound wasToo)
        · exact sameEntry.symm
        · exact absurd clash atNew
        · exact absurd clash atNew
      · exact absurd clash atNew
      · exact absurd clash atNew
  have oldDir {other : Nat} (isDirOther : changed.isDir other = true) (apart : other ≠ inode)
      : reg.isDir other = true := by
    simpa [dirs, apart] using isDirOther
  have sameParent {parent : Nat} (isDirParent : reg.isDir parent = true)
      : changed.parentOf parent = reg.parentOf parent := by
    obtain ⟨other, found, has, named⟩ := tree.parent parent isDirParent
    rw [tree.parentOf has named]
    exact parentOf_eq (distinct parent) (kept has) named
  have newParent : changed.parentOf inode = dir :=
    parentOf_eq (distinct inode) hasUp rfl
  have plainOld {parent other : Nat} {found : Dirent} (has : changed.Has parent other found)
      (plainFound : isDotName found.name = false)
      : reg.Has parent other found
        ∨ parent = dir ∧ other = entry ∧ found = ⟨name, 1, inode⟩ := by
    rcases (entries _ _ _).mp has with was | new | ⟨_, _, rfl⟩ | ⟨_, _, rfl⟩
    · exact Or.inl was
    · exact Or.inr new
    · rw [dot_isDotName] at plainFound
      cases plainFound
    · rw [dotdot_isDotName] at plainFound
      cases plainFound
  constructor
  · rw [dirs, sameRoot, tree.rootDir]
    rfl
  · rw [sameDeleted, sameRoot]
    exact tree.rootLive
  · rw [sameRoot, sameParent tree.rootDir]
    exact tree.rootParent
  · exact distinct
  · intro parent isDirParent
    by_cases atNew : parent = inode
    · subst atNew
      exact ⟨self, _, hasSelf, rfl⟩
    · obtain ⟨other, found, has, named⟩ := tree.self parent (oldDir isDirParent atNew)
      exact ⟨other, found, kept has, named⟩
  · intro parent other found has named
    rcases (entries _ _ _).mp has with was | ⟨_, _, rfl⟩ | ⟨rfl, _, rfl⟩ | ⟨_, _, rfl⟩
    · exact tree.selfTarget parent other found was named
    · exact absurd named notDot
    · rfl
    · exact absurd named.symm dotNe
  · intro parent isDirParent
    by_cases atNew : parent = inode
    · subst atNew
      exact ⟨up, _, hasUp, rfl⟩
    · obtain ⟨other, found, has, named⟩ := tree.parent parent (oldDir isDirParent atNew)
      exact ⟨other, found, kept has, named⟩
  · intro parent other found has named
    rw [dirs]
    rcases (entries _ _ _).mp has with was | ⟨_, _, rfl⟩ | ⟨_, _, rfl⟩ | ⟨_, _, rfl⟩
    · rw [tree.parentDir parent other found was named]
      rfl
    · exact absurd named notDotdot
    · exact absurd named dotNe
    · rw [isDir]
      rfl
  · intro parent other found has plainFound isDirFound
    rw [sameDeleted, sameRoot]
    rcases plainOld has plainFound with was | ⟨rfl, rfl, rfl⟩
    · have apart := unnamed parent other found was
      have isDirOld := oldDir isDirFound apart
      rw [sameParent isDirOld]
      exact tree.child parent other found was plainFound isDirOld
    · exact ⟨notDeleted, rootNe.symm, newParent⟩
  · intro parent other first second firstFound secondFound hasFirst hasSecond plainFirst
      plainSecond same isDirFound
    rcases plainOld hasFirst plainFirst with was | ⟨rfl, rfl, rfl⟩
    · have apart := unnamed parent first firstFound was
      rcases plainOld hasSecond plainSecond with wasToo | ⟨rfl, rfl, rfl⟩
      · exact tree.single parent other first second firstFound secondFound was wasToo plainFirst
          plainSecond same (oldDir isDirFound apart)
      · exact absurd same apart
    · rcases plainOld hasSecond plainSecond with wasToo | ⟨_, sameEntry, _⟩
      · exact absurd same.symm (unnamed other second secondFound wasToo)
      · exact sameEntry.symm
  · intro child isDirChild liveChild notRoot
    rw [sameDeleted] at liveChild
    rw [sameRoot] at notRoot
    by_cases atNew : child = inode
    · subst atNew
      exact ⟨dir, entry, _, hasEntry, plain, rfl⟩
    · obtain ⟨parent, other, found, has, plainFound, names⟩ :=
        tree.named child (oldDir isDirChild atNew) liveChild notRoot
      exact ⟨parent, other, found, kept has, plainFound, names⟩
  · intro parent other found has gone
    rw [sameDeleted] at gone
    rcases (entries _ _ _).mp has with was | ⟨rfl, _, _⟩ | ⟨_, _, rfl⟩ | ⟨_, _, rfl⟩
    · exact tree.empty parent other found was gone
    · rw [live] at gone
      cases gone
    · exact dot_isDotName
    · exact dotdot_isDotName
  · intro parent isDirParent
    rw [sameRoot]
    have oldGrounded {place : Nat} (isDirPlace : reg.isDir place = true)
        : Climb.Grounded changed.parentOf reg.root place := by
      apply Climb.Grounded.congr (fun place => reg.isDir place = true) ?_ isDirPlace
        (tree.grounded place isDirPlace)
      intro other inside _
      exact ⟨sameParent inside, tree.parent_isDir inside⟩
    by_cases atNew : parent = inode
    · rw [atNew]
      apply Climb.Grounded.of_up
      rw [newParent]
      exact oldGrounded isDir
    · exact oldGrounded (oldDir isDirParent atNew)

/-- Moving an entry, with the `..` of a moved directory, to a directory that does not lie
below it keeps the tree.
Witness: the climb of the new parent avoids the moved directory.
-/
theorem Tree.move {oldDir newDir old moved : Nat} {newName : Name} {oldFound : Dirent}
    (tree : Tree reg) (new : Nat) (shift : Nat → Dirent → Dirent) (has : reg.Has oldDir old oldFound)
    (plainOld : isDotName oldFound.name = false) (names : oldFound.inode = moved)
    (isDir : reg.isDir newDir = true) (live : reg.isDeleted newDir = false)
    (plain : isDotName newName = false)
    (free : ∀ other found, reg.Has newDir other found → found.name ≠ newName)
    (apart
      : reg.isDir moved = true → ∀ taken, reg.parentOf^[taken] newDir ≠ moved)
    (sameName : ∀ other found, (shift other found).name = found.name)
    (target
      : ∀ parent other found, reg.Has parent other found
        → (shift other found).inode
          = if parent = moved ∧ found.name = dotdot then newDir else found.inode)
    (sameRoot : changed.root = reg.root)
    (sameDir : ∀ inode, changed.isDir inode = reg.isDir inode)
    (sameDeleted : ∀ inode, changed.isDeleted inode = reg.isDeleted inode)
    (entries
      : ∀ parent other found, changed.Has parent other found
          ↔ parent = newDir ∧ other = new ∧ found = ⟨newName, 1, moved⟩
            ∨ ∃ was, reg.Has parent other was ∧ other ≠ old ∧ found = shift other was)
    : Tree changed := by
  obtain ⟨notDot, notDotdot⟩ := not_dot_of_not_isDotName plain
  have dotNe : dot ≠ dotdot := by decide
  have hasNew : changed.Has newDir new ⟨newName, 1, moved⟩ :=
    (entries _ _ _).mpr (Or.inl ⟨rfl, rfl, rfl⟩)
  have keptDots {parent other : Nat} {was : Dirent} (hasWas : reg.Has parent other was)
      (dots : isDotName was.name = true)
      : changed.Has parent other (shift other was) := by
    refine (entries _ _ _).mpr (Or.inr ⟨was, hasWas, ?_, rfl⟩)
    rintro rfl
    obtain rfl : oldFound = was := Option.some.inj (has.2.symm.trans hasWas.2)
    rw [plainOld] at dots
    cases dots
  have plainTarget {parent other : Nat} {was : Dirent} (hasWas : reg.Has parent other was)
      (notUp : was.name ≠ dotdot)
      : (shift other was).inode = was.inode := by
    rw [target parent other was hasWas, if_neg (fun both => notUp both.2)]
  have distinct : ∀ parent first second firstFound secondFound,
      changed.Has parent first firstFound → changed.Has parent second secondFound
      → firstFound.name = secondFound.name → first = second := by
    intro parent first second firstFound secondFound hasFirst hasSecond same
    rcases (entries _ _ _).mp hasFirst with ⟨rfl, rfl, rfl⟩ | ⟨was, hasWas, _, rfl⟩
    · rcases (entries _ _ _).mp hasSecond with ⟨_, sameEntry, _⟩ | ⟨was, hasWas, _, rfl⟩
      · exact sameEntry.symm
      · rw [sameName] at same
        exact absurd same.symm (free second was hasWas)
    · rw [sameName] at same
      rcases (entries _ _ _).mp hasSecond with ⟨rfl, rfl, rfl⟩ | ⟨wasToo, hasWasToo, _, rfl⟩
      · exact absurd same (free first was hasWas)
      · rw [sameName] at same
        exact tree.distinct parent first second was wasToo hasWas hasWasToo same
  have newParent {parent : Nat} (isDirParent : reg.isDir parent = true)
      : changed.parentOf parent = if parent = moved then newDir else reg.parentOf parent := by
    obtain ⟨up, was, hasUp, named⟩ := tree.parent parent isDirParent
    rw [tree.parentOf hasUp named,
      parentOf_eq (distinct parent) (keptDots hasUp (by rw [named]; exact dotdot_isDotName))
        ((sameName up was).trans named), target parent up was hasUp]
    simp [named]
  have movedNotRoot : reg.isDir moved = true → moved ≠ reg.root := by
    intro isDirMoved
    have notRoot := (tree.child oldDir old oldFound has plainOld (by
      rw [names]
      exact isDirMoved)).2.1
    rwa [names] at notRoot
  have plainCases {parent other : Nat} {found : Dirent} (hasFound : changed.Has parent other found)
      (plainFound : isDotName found.name = false)
      : parent = newDir ∧ other = new ∧ found.inode = moved
        ∨ ∃ was, reg.Has parent other was ∧ other ≠ old ∧ found.inode = was.inode
          ∧ isDotName was.name = false := by
    rcases (entries _ _ _).mp hasFound with ⟨rfl, rfl, rfl⟩ | ⟨was, hasWas, different, rfl⟩
    · exact Or.inl ⟨rfl, rfl, rfl⟩
    · rw [sameName] at plainFound
      exact Or.inr ⟨was, hasWas, different,
        plainTarget hasWas (not_dot_of_not_isDotName plainFound).2, plainFound⟩
  have notMoved {parent other : Nat} {was : Dirent} (hasWas : reg.Has parent other was)
      (different : other ≠ old) (plainWas : isDotName was.name = false)
      (isDirWas : reg.isDir was.inode = true)
      : was.inode ≠ moved := by
    intro same
    exact different (tree.single parent oldDir other old was oldFound hasWas has plainWas
      plainOld (same.trans names.symm) isDirWas)
  constructor
  · rw [sameDir, sameRoot]
    exact tree.rootDir
  · rw [sameDeleted, sameRoot]
    exact tree.rootLive
  · rw [sameRoot, newParent tree.rootDir]
    split
    · rename_i same
      exact absurd same.symm (movedNotRoot (by rw [← same]; exact tree.rootDir))
    · exact tree.rootParent
  · exact distinct
  · intro parent isDirParent
    rw [sameDir] at isDirParent
    obtain ⟨other, was, hasWas, named⟩ := tree.self parent isDirParent
    exact ⟨other, _, keptDots hasWas (by rw [named]; exact dot_isDotName),
      (sameName other was).trans named⟩
  · intro parent other found hasFound named
    rcases (entries _ _ _).mp hasFound with ⟨_, _, rfl⟩ | ⟨was, hasWas, _, rfl⟩
    · exact absurd named notDot
    · rw [sameName] at named
      rw [plainTarget hasWas (by rw [named]; exact dotNe)]
      exact tree.selfTarget parent other was hasWas named
  · intro parent isDirParent
    rw [sameDir] at isDirParent
    obtain ⟨other, was, hasWas, named⟩ := tree.parent parent isDirParent
    exact ⟨other, _, keptDots hasWas (by rw [named]; exact dotdot_isDotName),
      (sameName other was).trans named⟩
  · intro parent other found hasFound named
    rw [sameDir]
    rcases (entries _ _ _).mp hasFound with ⟨_, _, rfl⟩ | ⟨was, hasWas, _, rfl⟩
    · exact absurd named notDotdot
    · rw [sameName] at named
      rw [target parent other was hasWas]
      split
      · exact isDir
      · exact tree.parentDir parent other was hasWas named
  · intro parent other found hasFound plainFound isDirFound
    rw [sameDir] at isDirFound
    rw [sameDeleted, sameRoot, newParent isDirFound]
    rcases plainCases hasFound plainFound with
      ⟨rfl, rfl, inode⟩ | ⟨was, hasWas, different, inode, plainWas⟩
    · rw [inode] at isDirFound ⊢
      have childOld := tree.child oldDir old oldFound has plainOld (by
        rw [names]
        exact isDirFound)
      rw [names] at childOld
      exact ⟨childOld.1, childOld.2.1, if_pos rfl⟩
    · rw [inode] at isDirFound ⊢
      rw [if_neg (notMoved hasWas different plainWas isDirFound)]
      exact tree.child parent other was hasWas plainWas isDirFound
  · intro parent other first second firstFound secondFound hasFirst hasSecond plainFirst
      plainSecond same isDirFound
    rw [sameDir] at isDirFound
    rcases plainCases hasFirst plainFirst with
      ⟨_, rfl, inode⟩ | ⟨was, hasWas, different, inode, plainWas⟩
    · rcases plainCases hasSecond plainSecond with
        ⟨_, sameEntry, _⟩ | ⟨wasToo, hasWasToo, differentToo, inodeToo, plainWasToo⟩
      · exact sameEntry.symm
      · rw [same, inodeToo] at isDirFound
        rw [inode, inodeToo] at same
        exact absurd same.symm (notMoved hasWasToo differentToo plainWasToo isDirFound)
    · rw [inode] at isDirFound same
      rcases plainCases hasSecond plainSecond with
        ⟨_, _, inodeToo⟩ | ⟨wasToo, hasWasToo, _, inodeToo, plainWasToo⟩
      · rw [inodeToo] at same
        exact absurd same (notMoved hasWas different plainWas isDirFound)
      · rw [inodeToo] at same
        exact tree.single parent other first second was wasToo hasWas hasWasToo plainWas
          plainWasToo same isDirFound
  · intro child isDirChild liveChild notRoot
    rw [sameDir] at isDirChild
    rw [sameDeleted] at liveChild
    rw [sameRoot] at notRoot
    by_cases here : child = moved
    · subst here
      exact ⟨newDir, new, _, hasNew, plain, rfl⟩
    · obtain ⟨parent, other, was, hasWas, plainWas, namesChild⟩ :=
        tree.named child isDirChild liveChild notRoot
      have different : other ≠ old := by
        rintro rfl
        obtain rfl : oldFound = was := Option.some.inj (has.2.symm.trans hasWas.2)
        exact here (namesChild.symm.trans names)
      refine ⟨parent, other, shift other was,
        (entries _ _ _).mpr (Or.inr ⟨was, hasWas, different, rfl⟩), ?_, ?_⟩
      · rw [sameName]
        exact plainWas
      · rw [plainTarget hasWas (not_dot_of_not_isDotName plainWas).2]
        exact namesChild
  · intro parent other found hasFound gone
    rw [sameDeleted] at gone
    rcases (entries _ _ _).mp hasFound with ⟨rfl, _, _⟩ | ⟨was, hasWas, _, rfl⟩
    · rw [live] at gone
      cases gone
    · rw [sameName]
      exact tree.empty parent other was hasWas gone
  · intro parent isDirParent
    rw [sameDir] at isDirParent
    rw [sameRoot]
    have avoiding {place : Nat} (isDirPlace : reg.isDir place = true)
        (avoids : ∀ taken, reg.parentOf^[taken] place ≠ moved)
        : Climb.Grounded changed.parentOf reg.root place := by
      apply Climb.Grounded.congr
        (fun place => reg.isDir place = true ∧ ∀ taken, reg.parentOf^[taken] place ≠ moved)
        ?_ ⟨isDirPlace, avoids⟩ (tree.grounded place isDirPlace)
      rintro other ⟨inside, outside⟩ _
      refine ⟨?_, tree.parent_isDir inside, ?_⟩
      · have different : other ≠ moved := outside 0
        rw [newParent inside, if_neg different]
      · intro taken
        have later := outside (taken + 1)
        rwa [Function.iterate_succ_apply] at later
    by_cases isDirMoved : reg.isDir moved = true
    · apply Climb.Grounded.move (fun place => reg.isDir place = true) ?_ ?_ isDirParent
        (tree.grounded parent isDirParent)
      · exact moved
      · intro place inside _ different
        exact ⟨by rw [newParent inside, if_neg different], tree.parent_isDir inside⟩
      · rw [newParent isDirMoved, if_pos rfl]
        exact avoiding isDir (apart isDirMoved)
    · apply Climb.Grounded.congr (fun place => reg.isDir place = true) ?_ isDirParent
        (tree.grounded parent isDirParent)
      intro place inside _
      refine ⟨?_, tree.parent_isDir inside⟩
      rw [newParent inside, if_neg]
      rintro rfl
      exact isDirMoved inside

end Shapes

end Panuti.Native
