import Panuti.Native.Namespace

/-! Runs of the native tree from its start: the tree stays a tree, and every inode's count is
the number of references to it, where the root has one reference more.
-/

namespace Panuti.Native

open Panuti.Kernel (Errno HandleOps InodeType)

-- The start

/-- The registry before `registry_init`. -/
def noRegistry : Registry := ⟨Arena.empty, Arena.empty, 0, 0, 0, []⟩

/-- `registry_init`, at boot, where the allocator has room. -/
def registryInit : Registry :=
  match registryInodeAlloc noRegistry .dir true with
  | none => noRegistry
  | some (root, reg) =>
      let reg := { reg with root }
      let reg := ((registryLinkdirent reg root dot root ⟨true, true⟩).map Prod.snd).getD reg
      ((registryLinkdirent reg root dotdot root ⟨true, true⟩).map Prod.snd).getD reg

/-- The namespace after `registry_init`, before the first task. -/
def firstNamespace : Namespace := ⟨registryInit, [], [], []⟩

theorem registryInit_inodes (inode : Nat)
    : registryInit.inodes.get inode
      = if inode = 0 then some ⟨.dir, 1, false, none, none, [1, 0]⟩ else none := by
  by_cases same : inode = 0
  · subst same
    rfl
  · rw [if_neg same]
    have beyond : registryInit.inodes.next ≤ inode := by
      have next : registryInit.inodes.next = 1 := rfl
      omega
    exact Arena.get_beyond beyond

theorem registryInit_dirents (entry : Nat)
    : registryInit.dirents.get entry
      = if entry = 0 then some ⟨dot, 1, 0⟩
        else if entry = 1 then some ⟨dotdot, 1, 0⟩
        else none := by
  by_cases first : entry = 0
  · subst first
    rfl
  by_cases second : entry = 1
  · subst second
    rfl
  rw [if_neg first, if_neg second]
  have beyond : registryInit.dirents.next ≤ entry := by
    have next : registryInit.dirents.next = 2 := rfl
    omega
  exact Arena.get_beyond beyond

theorem registryInit_has {dir entry : Nat} {found : Dirent}
    : registryInit.Has dir entry found
      ↔ dir = 0 ∧ (entry = 0 ∧ found = ⟨dot, 1, 0⟩ ∨ entry = 1 ∧ found = ⟨dotdot, 1, 0⟩) := by
  simp only [Registry.Has, registryInit_inodes, registryInit_dirents]
  constructor
  · rintro ⟨⟨node, here, member⟩, present⟩
    split at here
    · rename_i atRoot
      obtain rfl := Option.some.inj here
      rcases List.mem_cons.mp member with rfl | inRest
      · exact ⟨atRoot, Or.inr ⟨rfl, (Option.some.inj present).symm⟩⟩
      · obtain rfl := List.mem_singleton.mp inRest
        exact ⟨atRoot, Or.inl ⟨rfl, (Option.some.inj present).symm⟩⟩
    · cases here
  · rintro ⟨rfl, ⟨rfl, rfl⟩ | ⟨rfl, rfl⟩⟩
    · exact ⟨⟨_, rfl, by simp⟩, rfl⟩
    · exact ⟨⟨_, rfl, by simp⟩, rfl⟩

theorem registryInit_isDir (inode : Nat) : registryInit.isDir inode = decide (inode = 0) := by
  simp only [Registry.isDir, registryInit_inodes]
  by_cases atRoot : inode = 0
  · simp [atRoot]
  · simp [atRoot]

theorem registryInit_isDeleted (inode : Nat) : registryInit.isDeleted inode = false := by
  simp only [Registry.isDeleted, registryInit_inodes]
  by_cases atRoot : inode = 0
  · simp [atRoot]
  · simp [atRoot]

theorem registryInit_parentOf : registryInit.parentOf 0 = 0 := rfl

theorem registryInit_tree : Tree registryInit := by
  have noPlain {dir entry : Nat} {found : Dirent} (has : registryInit.Has dir entry found)
      : isDotName found.name = true := by
    obtain ⟨_, ⟨_, rfl⟩ | ⟨_, rfl⟩⟩ := registryInit_has.mp has
    · exact dot_isDotName
    · exact dotdot_isDotName
  have different : dot ≠ dotdot := by decide
  constructor
  · rfl
  · exact registryInit_isDeleted 0
  · exact registryInit_parentOf
  · intro dir entry other found otherFound has hasOther same
    obtain ⟨_, ⟨rfl, rfl⟩ | ⟨rfl, rfl⟩⟩ := registryInit_has.mp has
    · obtain ⟨_, ⟨rfl, rfl⟩ | ⟨rfl, rfl⟩⟩ := registryInit_has.mp hasOther
      · rfl
      · exact absurd same different
    · obtain ⟨_, ⟨rfl, rfl⟩ | ⟨rfl, rfl⟩⟩ := registryInit_has.mp hasOther
      · exact absurd same.symm different
      · rfl
  · intro dir isDir
    rw [registryInit_isDir, decide_eq_true_eq] at isDir
    exact ⟨0, _, registryInit_has.mpr ⟨isDir, Or.inl ⟨rfl, rfl⟩⟩, rfl⟩
  · intro dir entry found has named
    obtain ⟨rfl, ⟨rfl, rfl⟩ | ⟨rfl, rfl⟩⟩ := registryInit_has.mp has
    · rfl
    · rfl
  · intro dir isDir
    rw [registryInit_isDir, decide_eq_true_eq] at isDir
    exact ⟨1, _, registryInit_has.mpr ⟨isDir, Or.inr ⟨rfl, rfl⟩⟩, rfl⟩
  · intro dir entry found has named
    obtain ⟨_, ⟨_, rfl⟩ | ⟨_, rfl⟩⟩ := registryInit_has.mp has
    · rfl
    · rfl
  · intro dir entry found has plain
    rw [noPlain has] at plain
    cases plain
  · intro dir other entry otherEntry found otherFound has _ plain
    rw [noPlain has] at plain
    cases plain
  · intro dir isDir _ notRoot
    rw [registryInit_isDir, decide_eq_true_eq] at isDir
    exact absurd isDir notRoot
  · intro dir entry found has _
    exact noPlain has
  · intro dir isDir
    rw [registryInit_isDir, decide_eq_true_eq] at isDir
    exact ⟨0, isDir⟩

theorem registryInit_counts
    : Counts registryInit [] (fun inode => [0].count inode) (fun _ => 0) := by
  have only {inode : Nat} {node : Inode} (here : registryInit.inodes.get inode = some node)
      : inode = 0 ∧ node = ⟨.dir, 1, false, none, none, [1, 0]⟩ := by
    rw [registryInit_inodes] at here
    split at here
    · rename_i atRoot
      exact ⟨atRoot, (Option.some.inj here).symm⟩
    · cases here
  have entries {entry : Nat} {found : Dirent}
      (present : registryInit.dirents.get entry = some found)
      : found.refcount = 1
        ∧ found.inode = 0
        ∧ registryInit.Listed [] entry
        ∧ entry < 2 := by
    have listed : entry = 0 ∨ entry = 1 → registryInit.Listed [] entry := by
      intro which
      refine ⟨0, ⟨.dir, 1, false, none, none, [1, 0]⟩, by simp, rfl, ?_⟩
      rcases which with rfl | rfl
      · simp
      · simp
    rw [registryInit_dirents] at present
    split at present
    · rename_i first
      obtain rfl := Option.some.inj present
      exact ⟨rfl, rfl, listed (Or.inl first), by omega⟩
    split at present
    · rename_i second
      obtain rfl := Option.some.inj present
      exact ⟨rfl, rfl, listed (Or.inr second), by omega⟩
    · cases present
  constructor
  · intro inode _ node here
    obtain ⟨rfl, rfl⟩ := only here
    exact ⟨by decide, by decide⟩
  · intro inode some_left
    have atRoot : inode = 0 := by
      by_contra apart
      rw [List.count_cons, List.count_nil, if_neg (by simpa using fun eq => apart eq.symm)]
        at some_left
      exact absurd some_left (Nat.lt_irrefl 0)
    subst atRoot
    exact ⟨by simp, _, rfl⟩
  · intro entry found present
    rw [(entries present).2.1]
    exact ⟨_, rfl⟩
  · intro entry found _ dying
    cases dying
  · intro entry found present
    obtain ⟨one, _, listed, _⟩ := entries present
    exact ⟨by omega, fun _ => one, fun unlisted => absurd listed unlisted⟩
  · rintro entry ⟨inode, node, _, here, member⟩
    obtain ⟨rfl, rfl⟩ := only here
    rcases List.mem_cons.mp member with rfl | inRest
    · exact ⟨_, rfl⟩
    · obtain rfl := List.mem_singleton.mp inRest
      exact ⟨_, rfl⟩
  · intro entry some_left
    exact absurd some_left (Nat.lt_irrefl 0)
  · intro inode other node otherNode entry here there _ _
    rw [(only here).1, (only there).1]
  · intro inode node here
    rw [(only here).2]
    decide
  · intro inode node here file
    rw [(only here).2] at file
    exact absurd rfl file
  · intro inode node here entry member
    rw [(only here).2] at member
    have next : registryInit.dirents.next = 2 := rfl
    rcases List.mem_cons.mp member with rfl | inRest
    · omega
    · obtain rfl := List.mem_singleton.mp inRest
      omega

theorem firstNamespace_good : firstNamespace.Good :=
  ⟨registryInit_counts, registryInit_tree, by
    intro handle member
    cases member⟩

-- Runs

/-- The namespaces reached by events from `registry_init`, where `allowed` holds of the
registry before every event.
-/
inductive Run (allowed : Registry → Prop) : Namespace → Prop where
  | start : Run allowed firstNamespace
  | step {space : Namespace} {event : Event}
      (reached : Run allowed space)
      (admissible : event.Admissible space.reg)
      (fine : allowed space.reg)
      : Run allowed (space.step event)

variable {space : Namespace}

theorem Run.good (run : Run Registry.Roomy space) : space.Good := by
  induction run with
  | start => exact firstNamespace_good
  | step reached admissible roomy good => exact good.step roomy admissible

/-- The references to an inode: entries other than a directory's own links to itself,
handles, streams, working directories and mounts.
-/
def Namespace.references (space : Namespace) (inode : Nat) (node : Inode) : Nat :=
  space.reg.namings inode - space.reg.selfLinks inode node.children
  + (space.handles.map OpenHandle.inode).count inode
  + space.streams.count inode
  + space.cwds.count inode
  + space.reg.mountpoints.count inode

structure Registry.TreeShaped (reg : Registry) : Prop where
  unique
    : ∀ dir entry other found otherFound, reg.Has dir entry found
      → reg.Has dir other otherFound
      → found.name = otherFound.name
      → entry = other
  oneParent
    : ∀ dir, reg.isDir dir = true → reg.isDeleted dir = false → dir ≠ reg.root
      → ∃ parent entry found, reg.Has parent entry found
        ∧ isDotName found.name = false
        ∧ found.inode = dir
        ∧ (∃ up upFound, reg.Has dir up upFound ∧ upFound.name = dotdot ∧ upFound.inode = parent)
        ∧ ∀ other otherEntry otherFound, reg.Has other otherEntry otherFound
          → isDotName otherFound.name = false
          → otherFound.inode = dir
          → other = parent ∧ otherEntry = entry
  climbs
    : ∀ dir, reg.isDir dir = true
      → ∃ steps < reg.inodes.next, reg.parentOf^[steps] dir = reg.root
  acyclic
    : ∀ dir, reg.isDir dir = true → dir ≠ reg.root → ∀ steps, reg.parentOf^[steps + 1] dir ≠ dir
  ancestors
    : ∀ dir ancestor, reg.isDir dir = true
      → (dirHasAncestor reg reg.inodes.next dir ancestor = true
        ↔ ∃ steps, reg.parentOf^[steps] dir = ancestor)

structure Namespace.Intact (space : Namespace) : Prop where
  inodes
    : ∀ inode, inode = space.reg.root
        ∨ inode ∈ space.reg.mountpoints
        ∨ inode ∈ space.cwds
        ∨ inode ∈ space.streams
        ∨ inode ∈ space.handles.map OpenHandle.inode
      → ∃ node, space.reg.inodes.get inode = some node
  targets
    : ∀ entry found, space.reg.dirents.get entry = some found
      → ∃ node, space.reg.inodes.get found.inode = some node
  lists
    : ∀ dir node entry, space.reg.inodes.get dir = some node → entry ∈ node.children
      → ∃ found, space.reg.dirents.get entry = some found
  cursors
    : ∀ handle ∈ space.handles, ∀ entry, handle.cursor = some entry
      → ∃ found, space.reg.dirents.get entry = some found

theorem Tree.treeShaped {reg : Registry} (tree : Tree reg) : reg.TreeShaped where
  unique := tree.distinct
  oneParent := by
    intro dir isDir live notRoot
    obtain ⟨parent, entry, found, has, plain, rfl⟩ := tree.named dir isDir live notRoot
    refine ⟨parent, entry, found, has, plain, rfl, ?_, ?_⟩
    · obtain ⟨up, upFound, hasUp, named⟩ := tree.parent found.inode isDir
      refine ⟨up, upFound, hasUp, named, ?_⟩
      rw [← tree.parentOf hasUp named]
      exact (tree.child parent entry found has plain isDir).2.2
    · intro other otherEntry otherFound hasOther plainOther same
      refine ⟨?_, ?_⟩
      · rw [← (tree.child parent entry found has plain isDir).2.2, ← same]
        rw [← same] at isDir
        exact (tree.child other otherEntry otherFound hasOther plainOther isDir).2.2.symm
      · exact (tree.single parent other entry otherEntry found otherFound has hasOther plain
          plainOther same.symm isDir).symm
  climbs := fun _ isDir => tree.climb_bounded isDir
  acyclic := fun dir isDir notRoot steps =>
    (tree.grounded dir isDir).acyclic tree.rootParent notRoot steps
  ancestors := fun _ _ isDir => tree.dirHasAncestor_iff isDir

theorem Namespace.Good.intact (good : space.Good) : space.Intact where
  inodes := by
    intro inode held
    apply (good.counts.held inode ?_).2
    apply List.count_pos_iff.mpr
    simpa only [Namespace.holders, List.mem_cons, List.mem_append] using held
  targets := good.counts.target
  lists := fun dir node entry here member =>
    good.counts.present entry ⟨dir, node, by simp, here, member⟩
  cursors := by
    intro handle member entry isCursor
    apply good.counts.pinned entry
    apply List.count_pos_iff.mpr
    exact List.mem_filterMap.mpr ⟨handle, member, isCursor⟩

theorem Namespace.Good.refcount (good : space.Good) {inode : Nat} {node : Inode}
    (here : space.reg.inodes.get inode = some node)
    : node.refcount
      = space.references inode node + if inode = space.reg.root then 1 else 0 := by
  have count := (good.counts.counted inode (by simp) node here).2
  have few := good.counts.selfLinks_le here
  simp only [Namespace.holders, List.count_cons, List.count_append, beq_iff_eq] at count
  simp only [Namespace.references]
  by_cases atRoot : space.reg.root = inode
  · rw [if_pos atRoot] at count
    rw [if_pos atRoot.symm]
    omega
  · rw [if_neg atRoot] at count
    rw [if_neg (fun same => atRoot same.symm)]
    omega

/-- In every run in which no count stands at its cap, the directories form a tree, the count
of every inode is the number of references to it, one more for the root, and nothing that is
referred to was freed.
-/
theorem Run.native_tree {space : Namespace} (run : Run Registry.Roomy space)
    : space.reg.TreeShaped
      ∧ (∀ inode node, space.reg.inodes.get inode = some node
        → node.refcount
          = space.references inode node + if inode = space.reg.root then 1 else 0)
      ∧ space.Intact :=
  ⟨run.good.tree.treeShaped, fun _ _ here => run.good.refcount here, run.good.intact⟩

theorem registryInit_roomy : registryInit.Roomy := by
  refine ⟨?_, ?_⟩
  · intro inode node here
    rw [registryInit_inodes] at here
    split at here
    · obtain rfl := Option.some.inj here
      decide
    · cases here
  · intro entry found present
    rw [registryInit_dirents] at present
    split at present
    · obtain rfl := Option.some.inj present
      decide
    split at present
    · obtain rfl := Option.some.inj present
      decide
    · cases present

/-- The namespace after a first directory `/a` was made. -/
def oneDirectory : Namespace :=
  firstNamespace.step
    (.mkdir 0 ['/', 'a'] ⟨true, ⟨true, true⟩, ⟨true, true⟩, ⟨true, true⟩⟩)

theorem native_tree_small
    : oneDirectory.reg.isDir 1 = true
      ∧ oneDirectory.reg.TreeShaped
      ∧ (∀ inode node, oneDirectory.reg.inodes.get inode = some node
        → node.refcount
          = oneDirectory.references inode node
            + if inode = oneDirectory.reg.root then 1 else 0)
      ∧ oneDirectory.Intact :=
  ⟨by decide, Run.native_tree (Run.step Run.start trivial registryInit_roomy)⟩

/-- Nothing refers to the root at first, and its count is one: the registry keeps it. -/
theorem native_refcount_fails
    : ¬∀ space, Run (fun _ => True) space
        → ∀ inode node, space.reg.inodes.get inode = some node
        → node.refcount = space.references inode node := by
  intro exact_count
  have zero := exact_count firstNamespace Run.start 0 _ rfl
  exact absurd zero (by decide)

end Panuti.Native
