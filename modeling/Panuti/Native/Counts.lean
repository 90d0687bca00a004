import Panuti.Native.Registry

/-! Reference counts of the registry against what refers to inodes and entries: the entries
themselves, and holders outside the tree. Holders are given by two functions, the number of
them for each inode (`holds`) and for each entry (`pins`). Each primitive change of the tree
moves a reference between a count and its holders.
An inode that is being destroyed is `dying`: its count is zero, and its entries are on no
list any more but held by the loop that puts them.
-/

namespace Panuti.Native

open Panuti.Kernel (Errno HandleOps InodeType)

-- Holders

/-- The same holders, and one more for each occurrence in `places`. -/
def plus (counts : Nat → Nat) (places : List Nat) (place : Nat) : Nat :=
  counts place + places.count place

@[simp] theorem plus_nil (counts : Nat → Nat) : plus counts [] = counts := by
  funext place
  simp [plus]

theorem plus_cons (counts : Nat → Nat) (place : Nat) (rest : List Nat)
    : plus counts (place :: rest) = plus (plus counts rest) [place] := by
  funext other
  simp only [plus, List.count_cons, List.count_nil]
  omega

theorem plus_self (counts : Nat → Nat) (place : Nat)
    : plus counts [place] place = counts place + 1 := by
  simp [plus]

theorem plus_of_ne {counts : Nat → Nat} {place other : Nat} (apart : other ≠ place)
    : plus counts [place] other = counts other := by
  simp [plus, apart.symm]

-- Counts

def naming (inode : Nat) (entry : Dirent) : Nat := if entry.inode = inode then 1 else 0

def Registry.namings (reg : Registry) (inode : Nat) : Nat := reg.dirents.tally (naming inode)

/-- The number of a directory's own entries that name the directory. -/
def Registry.selfLinks (reg : Registry) (inode : Nat) (children : List Nat) : Nat :=
  (children.map (reg.dirents.weigh (naming inode))).sum

/-- The entry is on the list of a directory that is not being destroyed. -/
def Registry.Listed (reg : Registry) (dying : List Nat) (entry : Nat) : Prop :=
  ∃ inode node, inode ∉ dying ∧ reg.inodes.get inode = some node ∧ entry ∈ node.children

/-- Every count is the number of references, and references lead to what exists. -/
structure Counts (reg : Registry) (dying : List Nat) (holds pins : Nat → Nat) : Prop where
  counted
    : ∀ inode ∉ dying, ∀ node, reg.inodes.get inode = some node
      → 0 < node.refcount
        ∧ node.refcount + reg.selfLinks inode node.children
          = reg.namings inode + holds inode
  held
    : ∀ inode, 0 < holds inode
      → inode ∉ dying ∧ ∃ node, reg.inodes.get inode = some node
  target
    : ∀ entry found, reg.dirents.get entry = some found
      → ∃ node, reg.inodes.get found.inode = some node
  dyingTarget
    : ∀ entry found, reg.dirents.get entry = some found → found.inode ∈ dying
      → ∃ node, reg.inodes.get found.inode = some node ∧ entry ∈ node.children
  entryCount
    : ∀ entry found, reg.dirents.get entry = some found
      → 0 < found.refcount
        ∧ (reg.Listed dying entry → found.refcount = 1 + pins entry)
        ∧ (¬reg.Listed dying entry → found.refcount = pins entry)
  present : ∀ entry, reg.Listed dying entry → ∃ found, reg.dirents.get entry = some found
  pinned : ∀ entry, 0 < pins entry → ∃ found, reg.dirents.get entry = some found
  owner
    : ∀ inode other node otherNode entry, reg.inodes.get inode = some node
      → reg.inodes.get other = some otherNode
      → entry ∈ node.children
      → entry ∈ otherNode.children
      → inode = other
  nodup : ∀ inode node, reg.inodes.get inode = some node → node.children.Nodup
  files
    : ∀ inode node, reg.inodes.get inode = some node → node.type ≠ .dir → node.children = []
  young
    : ∀ inode node, reg.inodes.get inode = some node
      → ∀ entry ∈ node.children, entry < reg.dirents.next

section Basics

variable {reg : Registry} {dying : List Nat} {holds pins : Nat → Nat} {inode : Nat}

theorem Registry.selfLinks_congr {changed : Registry} {children : List Nat}
    (same
      : ∀ entry ∈ children,
          changed.dirents.weigh (naming inode) entry = reg.dirents.weigh (naming inode) entry)
    : changed.selfLinks inode children = reg.selfLinks inode children := by
  simp only [Registry.selfLinks]
  rw [List.map_congr_left same]

theorem Counts.selfLinks_le (counts : Counts reg dying holds pins) {node : Inode}
    (here : reg.inodes.get inode = some node)
    : reg.selfLinks inode node.children ≤ reg.namings inode :=
  Arena.sum_weigh_le node.children (counts.nodup inode node here)

theorem Counts.holds_absent (counts : Counts reg dying holds pins)
    (absent : reg.inodes.get inode = none)
    : holds inode = 0 := by
  by_contra some_left
  obtain ⟨_, node, present⟩ := counts.held inode (Nat.pos_of_ne_zero some_left)
  rw [absent] at present
  cases present

theorem Counts.pins_absent (counts : Counts reg dying holds pins) {entry : Nat}
    (absent : reg.dirents.get entry = none)
    : pins entry = 0 := by
  by_contra some_left
  obtain ⟨found, present⟩ := counts.pinned entry (Nat.pos_of_ne_zero some_left)
  rw [absent] at present
  cases present

end Basics

-- Changes of one inode

section Inodes

variable {reg : Registry} {dying : List Nat} {holds pins : Nat → Nat} {change : Inode → Inode}
    {inode : Nat}

theorem Registry.listed_modifyInode (same : ∀ node, reg.inodes.get inode = some node
      → (change node).children = node.children)
    (entry : Nat)
    : (reg.modifyInode inode change).Listed dying entry ↔ reg.Listed dying entry := by
  constructor
  · rintro ⟨other, node, alive, present, member⟩
    obtain ⟨old, was, rfl⟩ := Arena.get_modify_eq_some present
    refine ⟨other, old, alive, was, ?_⟩
    split at member
    · rename_i here
      subst here
      rwa [same old was] at member
    · exact member
  · rintro ⟨other, node, alive, present, member⟩
    by_cases here : other = inode
    · subst here
      refine ⟨other, change node, alive, ?_, ?_⟩
      · simp [Registry.modifyInode, present]
      · rwa [same node present]
    · exact ⟨other, node, alive, by
        simpa only [Registry.modifyInode, Arena.get_modify_of_ne here] using present, member⟩

/-- Changing an inode's own data and count, but not its entries, moves references between
its count and its holders.
-/
theorem Counts.recount {node : Inode} {holds' : Nat → Nat} (counts : Counts reg dying holds pins)
    (here : reg.inodes.get inode = some node) (alive : inode ∉ dying)
    (sameChildren : (change node).children = node.children)
    (sameType : (change node).type = node.type) (positive : 0 < (change node).refcount)
    (moved : (change node).refcount + holds inode = node.refcount + holds' inode)
    (elsewhere : ∀ other, other ≠ inode → holds' other = holds other)
    : Counts (reg.modifyInode inode change) dying holds' pins := by
  have same : ∀ found, reg.inodes.get inode = some found
      → (change found).children = found.children := by
    intro found present
    obtain rfl : node = found := Option.some.inj (here.symm.trans present)
    exact sameChildren
  have old {other : Nat} {found : Inode}
      (present : (reg.modifyInode inode change).inodes.get other = some found)
      : ∃ was, reg.inodes.get other = some was
          ∧ found.children = was.children
          ∧ found.type = was.type
          ∧ (other ≠ inode → found = was)
          ∧ (other = inode → found = change node) := by
    obtain ⟨was, there, rfl⟩ := Arena.get_modify_eq_some present
    refine ⟨was, there, ?_⟩
    by_cases at_ : other = inode
    · subst at_
      obtain rfl : node = was := Option.some.inj (here.symm.trans there)
      simp [sameChildren, sameType]
    · simp [at_]
  have kept {other : Nat} {was : Inode} (present : reg.inodes.get other = some was)
      : ∃ found, (reg.modifyInode inode change).inodes.get other = some found
          ∧ found.children = was.children := by
    by_cases at_ : other = inode
    · subst at_
      exact ⟨change was, by simp [Registry.modifyInode, present], same was present⟩
    · exact ⟨was, by
        simpa only [Registry.modifyInode, Arena.get_modify_of_ne at_] using present, rfl⟩
  have listed (entry : Nat)
      : (reg.modifyInode inode change).Listed dying entry ↔ reg.Listed dying entry :=
    Registry.listed_modifyInode same entry
  constructor
  · intro other awake found present
    obtain ⟨was, there, children, _, apart, at_⟩ := old present
    obtain ⟨wasPositive, wasCount⟩ := counts.counted other awake was there
    rw [children]
    by_cases same : other = inode
    · subst same
      obtain rfl : node = was := Option.some.inj (here.symm.trans there)
      rw [at_ rfl]
      refine ⟨positive, ?_⟩
      change (change node).refcount + (reg.selfLinks other node.children : Int)
        = reg.namings other + holds' other
      omega
    · rw [apart same, elsewhere other same]
      exact ⟨wasPositive, wasCount⟩
  · intro other positive'
    by_cases same : other = inode
    · subst same
      obtain ⟨found, present, _⟩ := kept here
      exact ⟨alive, found, present⟩
    · rw [elsewhere other same] at positive'
      obtain ⟨awake, was, there⟩ := counts.held other positive'
      obtain ⟨found, present, _⟩ := kept there
      exact ⟨awake, found, present⟩
  · intro entry found present
    obtain ⟨was, there⟩ := counts.target entry found present
    obtain ⟨new, presentNew, _⟩ := kept there
    exact ⟨new, presentNew⟩
  · intro entry found present ends
    obtain ⟨was, there, member⟩ := counts.dyingTarget entry found present ends
    obtain ⟨new, presentNew, children⟩ := kept there
    exact ⟨new, presentNew, by rw [children]; exact member⟩
  · intro entry found present
    rw [listed entry]
    exact counts.entryCount entry found present
  · intro entry isListed
    exact counts.present entry ((listed entry).mp isListed)
  · exact counts.pinned
  · intro first second firstNode secondNode entry presentFirst presentSecond inFirst inSecond
    obtain ⟨was, there, children, _⟩ := old presentFirst
    obtain ⟨wasToo, thereToo, childrenToo, _⟩ := old presentSecond
    rw [children] at inFirst
    rw [childrenToo] at inSecond
    exact counts.owner first second was wasToo entry there thereToo inFirst inSecond
  · intro other found present
    obtain ⟨was, there, children, _⟩ := old present
    rw [children]
    exact counts.nodup other was there
  · intro other found present notDir
    obtain ⟨was, there, children, type, _⟩ := old present
    rw [children]
    exact counts.files other was there (by rw [← type]; exact notDir)
  · intro other found present entry member
    obtain ⟨was, there, children, _⟩ := old present
    rw [children] at member
    exact counts.young other was there entry member

theorem Counts.inodeRef {node : Inode} (counts : Counts reg dying holds pins)
    (here : reg.inodes.get inode = some node) (alive : inode ∉ dying)
    (below : node.refcount < INT_MAX)
    : Counts (inodeRef reg inode) dying (plus holds [inode]) pins := by
  have positive := (counts.counted inode alive node here).1
  apply counts.recount here alive
  · simp [below]
  · simp [below]
  · simp only [below, if_true]
    omega
  · simp only [below, if_true, plus_self]
    omega
  · intro other apart
    exact plus_of_ne apart

end Inodes

-- Changes of one entry

section Entries

variable {reg : Registry} {dying : List Nat} {holds pins : Nat → Nat} {entry : Nat} {found : Dirent}

/-- Changing the name or the count of an entry moves references between its count and its
holders.
-/
theorem Counts.repin {change : Dirent → Dirent} {pins' : Nat → Nat}
    (counts : Counts reg dying holds pins) (here : reg.dirents.get entry = some found)
    (sameInode : (change found).inode = found.inode) (positive : 0 < (change found).refcount)
    (moved : (change found).refcount + pins entry = found.refcount + pins' entry)
    (elsewhere : ∀ other, other ≠ entry → pins' other = pins other)
    : Counts (reg.modifyDirent entry change) dying holds pins' := by
  have old {other : Nat} {changed : Dirent}
      (present : (reg.modifyDirent entry change).dirents.get other = some changed)
      : ∃ was, reg.dirents.get other = some was
          ∧ changed.inode = was.inode
          ∧ (other ≠ entry → changed = was)
          ∧ (other = entry → changed = change found) := by
    obtain ⟨was, there, rfl⟩ := Arena.get_modify_eq_some present
    refine ⟨was, there, ?_⟩
    by_cases at_ : other = entry
    · subst at_
      obtain rfl : found = was := Option.some.inj (here.symm.trans there)
      simp [sameInode]
    · simp [at_]
  have kept {other : Nat} {was : Dirent} (present : reg.dirents.get other = some was)
      : ∃ changed, (reg.modifyDirent entry change).dirents.get other = some changed := by
    by_cases at_ : other = entry
    · subst at_
      exact ⟨change was, by simp [Registry.modifyDirent, present]⟩
    · exact ⟨was, by
        simpa only [Registry.modifyDirent, Arena.get_modify_of_ne at_] using present⟩
  have namings (inode : Nat)
      : (reg.modifyDirent entry change).namings inode = reg.namings inode := by
    apply Arena.tally_modify_same
    intro value present
    obtain rfl : found = value := Option.some.inj (here.symm.trans present)
    simp [naming, sameInode]
  have selfLinks (inode : Nat) (children : List Nat)
      : (reg.modifyDirent entry change).selfLinks inode children
        = reg.selfLinks inode children := by
    apply Registry.selfLinks_congr
    intro other _
    by_cases at_ : other = entry
    · subst at_
      simp [Arena.weigh, Registry.modifyDirent, here, naming, sameInode]
    · simp only [Arena.weigh, Registry.modifyDirent, Arena.get_modify_of_ne at_]
  constructor
  · intro inode alive node present
    rw [namings, selfLinks]
    exact counts.counted inode alive node present
  · exact counts.held
  · intro other changed present
    obtain ⟨was, there, same, _⟩ := old present
    rw [same]
    exact counts.target other was there
  · intro other changed present ends
    obtain ⟨was, there, same, _⟩ := old present
    rw [same] at ends ⊢
    exact counts.dyingTarget other was there ends
  · intro other changed present
    obtain ⟨was, there, _, apart, at_⟩ := old present
    obtain ⟨wasPositive, listed, unlisted⟩ := counts.entryCount other was there
    change 0 < changed.refcount
      ∧ (reg.Listed dying other → changed.refcount = 1 + pins' other)
      ∧ (¬reg.Listed dying other → changed.refcount = pins' other)
    by_cases same : other = entry
    · subst same
      obtain rfl : found = was := Option.some.inj (here.symm.trans there)
      rw [at_ rfl]
      refine ⟨positive, ?_, ?_⟩
      · intro isListed
        have := listed isListed
        omega
      · intro notListed
        have := unlisted notListed
        omega
    · rw [apart same, elsewhere other same]
      exact ⟨wasPositive, listed, unlisted⟩
  · intro other isListed
    obtain ⟨was, there⟩ := counts.present other isListed
    exact kept there
  · intro other some_left
    by_cases same : other = entry
    · rw [same]
      exact kept here
    · rw [elsewhere other same] at some_left
      obtain ⟨was, there⟩ := counts.pinned other some_left
      exact kept there
  · exact counts.owner
  · exact counts.nodup
  · exact counts.files
  · exact counts.young

theorem Counts.direntRef (counts : Counts reg dying holds pins)
    (here : reg.dirents.get entry = some found) (below : found.refcount < UINT16_MAX)
    : Counts (direntRef reg entry) dying holds (plus pins [entry]) := by
  have notFull : ¬found.refcount = UINT16_MAX := by omega
  apply counts.repin here
  · simp [notFull]
  · simp [notFull]
  · simp only [notFull, if_false, plus_self]
    omega
  · intro other apart
    exact plus_of_ne apart

/-- Freeing an entry that is on no list hands its reference to its inode over to a holder. -/
theorem Counts.freeEntry {holds' : Nat → Nat} {count : Nat}
    (counts : Counts reg dying holds (plus pins [entry]))
    (here : reg.dirents.get entry = some found) (last : found.refcount = 1)
    (unlisted : ¬reg.Listed dying entry)
    (raised : ∀ inode ∉ dying, holds' inode = holds inode + naming inode found)
    (kept : ∀ inode ∈ dying, holds' inode = holds inode)
    : Counts { reg with dirents := reg.dirents.free entry, direntCount := count } dying holds'
        pins := by
  have noPins : pins entry = 0 := by
    have := (counts.entryCount entry found here).2.2 unlisted
    rw [plus_self] at this
    omega
  have old {other : Nat} {was : Dirent}
      (present : (reg.dirents.free entry).get other = some was)
      : other ≠ entry ∧ reg.dirents.get other = some was :=
    Arena.get_free_eq_some.mp present
  have stays {other : Nat} {was : Dirent} (apart : other ≠ entry)
      (present : reg.dirents.get other = some was)
      : (reg.dirents.free entry).get other = some was :=
    Arena.get_free_eq_some.mpr ⟨apart, present⟩
  constructor
  · intro inode alive node present
    obtain ⟨positive, count⟩ := counts.counted inode alive node present
    have freed : (reg.dirents.free entry).tally (naming inode) + naming inode found
        = reg.namings inode := Arena.tally_free here
    have self
        : (node.children.map ((reg.dirents.free entry).weigh (naming inode))).sum
          = reg.selfLinks inode node.children := by
      apply congrArg List.sum
      apply List.map_congr_left
      intro other member
      have apart : other ≠ entry := by
        rintro rfl
        exact unlisted ⟨inode, node, alive, present, member⟩
      simp only [Arena.weigh, Arena.get_free_of_ne apart]
    refine ⟨positive, ?_⟩
    simp only [Registry.namings, Registry.selfLinks] at self count ⊢
    rw [self, raised inode alive]
    simp only [Registry.namings] at freed
    omega
  · intro inode some_left
    by_cases ends : inode ∈ dying
    · rw [kept inode ends] at some_left
      exact counts.held inode some_left
    · rw [raised inode ends] at some_left
      by_cases names : found.inode = inode
      · obtain ⟨node, present⟩ := counts.target entry found here
        exact ⟨ends, node, by rw [← names]; exact present⟩
      · simp only [naming, names, if_false, Nat.add_zero] at some_left
        exact counts.held inode some_left
  · intro other was present
    exact counts.target other was (old present).2
  · intro other was present ends
    exact counts.dyingTarget other was (old present).2 ends
  · intro other was present
    obtain ⟨apart, there⟩ := old present
    have same := counts.entryCount other was there
    rw [plus_of_ne apart] at same
    exact same
  · intro other isListed
    obtain ⟨was, there⟩ := counts.present other isListed
    have apart : other ≠ entry := by
      rintro rfl
      exact unlisted isListed
    exact ⟨was, stays apart there⟩
  · intro other some_left
    have apart : other ≠ entry := by
      rintro rfl
      omega
    obtain ⟨was, there⟩ := counts.pinned other (by rw [plus_of_ne apart]; exact some_left)
    exact ⟨was, stays apart there⟩
  · exact counts.owner
  · exact counts.nodup
  · exact counts.files
  · exact counts.young

end Entries

-- Entries and their directories

section Lists

variable {reg : Registry} {dying : List Nat} {holds pins : Nat → Nat} {node : Inode}

/-- Taking an entry off its list makes the list's reference a holder of the entry. A self
link that is taken off counts for its directory from then on.
-/
theorem Counts.detach {inode entry : Nat} {found : Dirent} {holds' : Nat → Nat}
    (counts : Counts reg dying holds pins) (here : reg.inodes.get inode = some node)
    (alive : inode ∉ dying) (member : entry ∈ node.children)
    (names : reg.dirents.get entry = some found)
    (lowered
      : ∀ other, holds other
          = holds' other + if other = inode then naming inode found else 0)
    : Counts
        (reg.modifyInode inode (fun node =>
          { node with children := node.children.erase entry }))
        dying holds' (plus pins [entry]) := by
  have nodup := counts.nodup inode node here
  have old {other : Nat} {changed : Inode}
      (present : (reg.modifyInode inode (fun node =>
          { node with children := node.children.erase entry })).inodes.get other
        = some changed)
      : ∃ was, reg.inodes.get other = some was
          ∧ changed.type = was.type
          ∧ changed.refcount = was.refcount
          ∧ (other ≠ inode → changed.children = was.children)
          ∧ (other = inode → was = node ∧ changed.children = node.children.erase entry) := by
    obtain ⟨was, there, rfl⟩ := Arena.get_modify_eq_some present
    refine ⟨was, there, ?_⟩
    by_cases at_ : other = inode
    · subst at_
      obtain rfl : node = was := Option.some.inj (here.symm.trans there)
      simp
    · simp [at_]
  have within {other : Nat} {changed was : Inode} {taken : Nat}
      (there : reg.inodes.get other = some was)
      (apart : other ≠ inode → changed.children = was.children)
      (at_ : other = inode → was = node ∧ changed.children = node.children.erase entry)
      (memberOf : taken ∈ changed.children)
      : taken ∈ was.children ∧ taken ≠ entry := by
    by_cases same : other = inode
    · obtain ⟨rfl, children⟩ := at_ same
      rw [children] at memberOf
      exact ⟨List.mem_of_mem_erase memberOf, ((nodup.mem_erase_iff).mp memberOf).1⟩
    · rw [apart same] at memberOf
      refine ⟨memberOf, ?_⟩
      rintro rfl
      exact same (counts.owner other inode was node taken there here memberOf member)
  have kept {other : Nat} {was : Inode} (present : reg.inodes.get other = some was)
      : ∃ changed, (reg.modifyInode inode (fun node =>
            { node with children := node.children.erase entry })).inodes.get other
          = some changed
        ∧ ∀ taken ∈ was.children, taken ≠ entry → taken ∈ changed.children := by
    by_cases at_ : other = inode
    · subst at_
      refine ⟨{ was with children := was.children.erase entry }, ?_, ?_⟩
      · simp [Registry.modifyInode, present]
      · intro taken memberOf apart
        exact (List.mem_erase_of_ne apart).mpr memberOf
    · exact ⟨was, by
        simpa only [Registry.modifyInode, Arena.get_modify_of_ne at_] using present,
        fun taken memberOf _ => memberOf⟩
  have listed (taken : Nat)
      : (reg.modifyInode inode (fun node =>
          { node with children := node.children.erase entry })).Listed dying taken
        ↔ reg.Listed dying taken ∧ taken ≠ entry := by
    constructor
    · rintro ⟨other, changed, awake, present, memberOf⟩
      obtain ⟨was, there, _, _, apart, at_⟩ := old present
      obtain ⟨inWas, different⟩ := within there apart at_ memberOf
      exact ⟨⟨other, was, awake, there, inWas⟩, different⟩
    · rintro ⟨⟨other, was, awake, there, inWas⟩, different⟩
      obtain ⟨changed, present, still⟩ := kept there
      exact ⟨other, changed, awake, present, still taken inWas different⟩
  constructor
  · intro other awake changed present
    obtain ⟨was, there, _, sameCount, apart, at_⟩ := old present
    obtain ⟨positive, count⟩ := counts.counted other awake was there
    have split := lowered other
    rw [sameCount]
    refine ⟨positive, ?_⟩
    change was.refcount + (reg.selfLinks other changed.children : Int)
      = reg.namings other + holds' other
    by_cases same : other = inode
    · subst same
      obtain ⟨rfl, children⟩ := at_ rfl
      have sum : reg.selfLinks other was.children
          = naming other found + reg.selfLinks other (was.children.erase entry) := by
        simp only [Registry.selfLinks]
        rw [← List.sum_map_erase _ member, Arena.weigh_of_some names]
      rw [if_pos rfl] at split
      rw [children]
      omega
    · rw [if_neg same] at split
      rw [apart same]
      omega
  · intro other some_left
    have more : 0 < holds other := by
      rw [lowered other]
      omega
    obtain ⟨awake, was, there⟩ := counts.held other more
    obtain ⟨changed, present, _⟩ := kept there
    exact ⟨awake, changed, present⟩
  · intro taken was present
    obtain ⟨wasNode, there⟩ := counts.target taken was present
    obtain ⟨changed, presentNew, _⟩ := kept there
    exact ⟨changed, presentNew⟩
  · intro taken was present ends
    obtain ⟨wasNode, there, inWas⟩ := counts.dyingTarget taken was present ends
    have apart : was.inode ≠ inode := by
      intro same
      rw [same] at ends
      exact alive ends
    exact ⟨wasNode, by
      simpa only [Registry.modifyInode, Arena.get_modify_of_ne apart] using there, inWas⟩
  · intro taken was present
    obtain ⟨positive, onList, offList⟩ := counts.entryCount taken was present
    refine ⟨positive, ?_, ?_⟩
    · intro isListed
      obtain ⟨wasListed, different⟩ := (listed taken).mp isListed
      rw [onList wasListed, plus_of_ne different]
    · intro notListed
      by_cases same : taken = entry
      · subst same
        rw [onList ⟨inode, node, alive, here, member⟩, plus_self]
        omega
      · rw [plus_of_ne same]
        exact offList (fun isListed => notListed ((listed taken).mpr ⟨isListed, same⟩))
  · intro taken isListed
    exact counts.present taken ((listed taken).mp isListed).1
  · intro taken some_left
    by_cases same : taken = entry
    · exact ⟨found, by rw [same]; exact names⟩
    · rw [plus_of_ne same] at some_left
      exact counts.pinned taken some_left
  · intro first second firstNode secondNode taken presentFirst presentSecond inFirst inSecond
    obtain ⟨was, there, _, _, apart, at_⟩ := old presentFirst
    obtain ⟨wasToo, thereToo, _, _, apartToo, atToo⟩ := old presentSecond
    exact counts.owner first second was wasToo taken there thereToo
      (within there apart at_ inFirst).1 (within thereToo apartToo atToo inSecond).1
  · intro other changed present
    obtain ⟨was, there, _, _, apart, at_⟩ := old present
    by_cases same : other = inode
    · rw [(at_ same).2]
      exact nodup.erase entry
    · rw [apart same]
      exact counts.nodup other was there
  · intro other changed present notDir
    obtain ⟨was, there, type, _, apart, at_⟩ := old present
    rw [type] at notDir
    have noChildren := counts.files other was there notDir
    by_cases same : other = inode
    · obtain ⟨rfl, children⟩ := at_ same
      rw [children, noChildren]
      rfl
    · rw [apart same, noChildren]
  · intro other changed present taken memberOf
    obtain ⟨was, there, _, _, apart, at_⟩ := old present
    exact counts.young other was there taken (within there apart at_ memberOf).1

theorem Counts.next_unused (counts : Counts reg dying holds pins)
    : pins reg.dirents.next = 0
      ∧ ∀ inode node, reg.inodes.get inode = some node
        → reg.dirents.next ∉ node.children := by
  refine ⟨counts.pins_absent (Arena.get_beyond (Nat.le_refl _)), ?_⟩
  intro inode node present member
  exact absurd (counts.young inode node present _ member) (Nat.lt_irrefl _)

/-- Linking an entry into a directory uses up one holder of its target. A self link takes no
reference.
-/
theorem Counts.link {dir : Nat} {target : Nat}
    (counts : Counts reg dying (plus holds (if target = dir then [] else [target])) pins)
    (name : Name) (count : Nat) (here : reg.inodes.get dir = some node) (alive : dir ∉ dying)
    (isDir : node.type = .dir) (targetAlive : target ∉ dying)
    (targetHere : ∃ found, reg.inodes.get target = some found)
    : Counts
        (({ reg with
            dirents := reg.dirents.alloc ⟨name, 1, target⟩
            direntCount := count } : Registry).modifyInode dir (fun node =>
          { node with children := reg.dirents.next :: node.children }))
        dying holds pins := by
  obtain ⟨noPins, notListed⟩ := counts.next_unused
  generalize result : ({ reg with
      dirents := reg.dirents.alloc ⟨name, 1, target⟩
      direntCount := count } : Registry).modifyInode dir (fun node =>
    { node with children := reg.dirents.next :: node.children }) = changedReg
  have entries (entry : Nat) : changedReg.dirents.get entry
      = if entry = reg.dirents.next then some ⟨name, 1, target⟩ else reg.dirents.get entry := by
    rw [← result]
    exact Arena.get_alloc reg.dirents entry _
  have nodes (inode : Nat) : changedReg.inodes.get inode
      = if inode = dir then
          (reg.inodes.get inode).map (fun node =>
            { node with children := reg.dirents.next :: node.children })
        else reg.inodes.get inode := by
    rw [← result]
    exact Arena.get_modify reg.inodes dir inode _
  have old {inode : Nat} {changed : Inode}
      (present : changedReg.inodes.get inode = some changed)
      : ∃ was, reg.inodes.get inode = some was
          ∧ changed.type = was.type
          ∧ changed.refcount = was.refcount
          ∧ changed.children
            = if inode = dir then reg.dirents.next :: was.children else was.children := by
    rw [nodes] at present
    by_cases same : inode = dir
    · simp only [same, if_true, Option.map_eq_some_iff] at present
      obtain ⟨was, there, rfl⟩ := present
      exact ⟨was, by rw [same]; exact there, rfl, rfl, by simp [same]⟩
    · rw [if_neg same] at present
      exact ⟨changed, present, rfl, rfl, by simp [same]⟩
  have kept {inode : Nat} {was : Inode} (present : reg.inodes.get inode = some was)
      : ∃ changed, changedReg.inodes.get inode = some changed
          ∧ ∀ entry ∈ was.children, entry ∈ changed.children := by
    rw [nodes]
    by_cases same : inode = dir
    · simp only [same, if_true]
      rw [← same, present]
      exact ⟨_, rfl, fun entry member => List.mem_cons_of_mem _ member⟩
    · rw [if_neg same]
      exact ⟨was, present, fun entry member => member⟩
  have memberOld {inode : Nat} {was changed : Inode} {entry : Nat}
      (children : changed.children
        = if inode = dir then reg.dirents.next :: was.children else was.children)
      (member : entry ∈ changed.children)
      : entry ∈ was.children ∨ inode = dir ∧ entry = reg.dirents.next := by
    rw [children] at member
    by_cases same : inode = dir
    · rw [if_pos same] at member
      rcases List.mem_cons.mp member with new | inWas
      · exact Or.inr ⟨same, new⟩
      · exact Or.inl inWas
    · rw [if_neg same] at member
      exact Or.inl member
  have listed (entry : Nat) (apart : entry ≠ reg.dirents.next)
      : changedReg.Listed dying entry ↔ reg.Listed dying entry := by
    constructor
    · rintro ⟨inode, changed, awake, present, member⟩
      obtain ⟨was, there, _, _, children⟩ := old present
      rcases memberOld children member with inWas | ⟨_, new⟩
      · exact ⟨inode, was, awake, there, inWas⟩
      · exact absurd new apart
    · rintro ⟨inode, was, awake, there, inWas⟩
      obtain ⟨changed, present, more⟩ := kept there
      exact ⟨inode, changed, awake, present, more entry inWas⟩
  have newListed : changedReg.Listed dying reg.dirents.next := by
    refine ⟨dir, { node with children := reg.dirents.next :: node.children }, alive, ?_, ?_⟩
    · rw [nodes, if_pos rfl, here]
      rfl
    · simp
  constructor
  · intro inode awake changed present
    obtain ⟨was, there, _, sameCount, children⟩ := old present
    obtain ⟨positive, count⟩ := counts.counted inode awake was there
    have named : changedReg.namings inode
        = reg.namings inode + naming inode ⟨name, 1, target⟩ := by
      rw [← result]
      exact Arena.tally_alloc
    have self : reg.selfLinks inode was.children
        = (was.children.map (changedReg.dirents.weigh (naming inode))).sum := by
      apply congrArg List.sum
      apply List.map_congr_left
      intro entry member
      have apart : entry ≠ reg.dirents.next := by
        rintro rfl
        exact notListed inode was there member
      simp only [Arena.weigh, entries, if_neg apart]
    have newWeight : changedReg.dirents.weigh (naming inode) reg.dirents.next
        = naming inode ⟨name, 1, target⟩ := by
      simp only [Arena.weigh, entries, if_true, Option.elim]
    rw [sameCount]
    refine ⟨positive, ?_⟩
    rw [named, Registry.selfLinks, children]
    rw [self] at count
    simp only [plus] at count
    by_cases same : inode = dir
    · subst same
      rw [if_pos rfl, List.map_cons, List.sum_cons, newWeight]
      by_cases loop : target = inode
      · simp only [loop, if_true, List.count_nil] at count
        omega
      · simp only [loop, if_false, List.count_cons, List.count_nil, beq_iff_eq] at count
        simp only [naming, loop, if_false]
        omega
    · rw [if_neg same]
      by_cases names : target = inode
      · subst names
        simp only [same, if_false, List.count_cons, List.count_nil, beq_self_eq_true,
          if_true] at count
        simp only [naming, if_true]
        omega
      · have none_counted : (if target = dir then [] else [target]).count inode = 0 := by
          apply List.count_eq_zero_of_not_mem
          intro member
          split at member
          · simp at member
          · simp only [List.mem_singleton] at member
            exact names member.symm
        simp only [none_counted] at count
        simp only [naming, names, if_false]
        omega
  · intro inode some_left
    have more : 0 < plus holds (if target = dir then [] else [target]) inode := by
      simp only [plus]
      omega
    obtain ⟨awake, was, there⟩ := counts.held inode more
    obtain ⟨changed, present, _⟩ := kept there
    exact ⟨awake, changed, present⟩
  · intro entry found present
    rw [entries] at present
    by_cases same : entry = reg.dirents.next
    · rw [if_pos same] at present
      obtain rfl := Option.some.inj present
      obtain ⟨was, there⟩ := targetHere
      obtain ⟨changed, presentNew, _⟩ := kept there
      exact ⟨changed, presentNew⟩
    · rw [if_neg same] at present
      obtain ⟨was, there⟩ := counts.target entry found present
      obtain ⟨changed, presentNew, _⟩ := kept there
      exact ⟨changed, presentNew⟩
  · intro entry found present ends
    rw [entries] at present
    by_cases same : entry = reg.dirents.next
    · rw [if_pos same] at present
      obtain rfl := Option.some.inj present
      exact absurd ends targetAlive
    · rw [if_neg same] at present
      obtain ⟨was, there, member⟩ := counts.dyingTarget entry found present ends
      obtain ⟨changed, presentNew, more⟩ := kept there
      exact ⟨changed, presentNew, more entry member⟩
  · intro entry found present
    rw [entries] at present
    by_cases same : entry = reg.dirents.next
    · rw [if_pos same] at present
      obtain rfl := Option.some.inj present
      subst same
      exact ⟨Nat.one_pos, fun _ => by rw [noPins], fun absent => absurd newListed absent⟩
    · rw [if_neg same] at present
      rw [listed entry same]
      exact counts.entryCount entry found present
  · intro entry isListed
    rw [entries]
    by_cases same : entry = reg.dirents.next
    · exact ⟨_, if_pos same⟩
    · rw [if_neg same]
      exact counts.present entry ((listed entry same).mp isListed)
  · intro entry some_left
    have same : entry ≠ reg.dirents.next := by
      rintro rfl
      omega
    rw [entries, if_neg same]
    exact counts.pinned entry some_left
  · intro first second firstNode secondNode entry presentFirst presentSecond inFirst inSecond
    obtain ⟨was, there, _, _, children⟩ := old presentFirst
    obtain ⟨wasToo, thereToo, _, _, childrenToo⟩ := old presentSecond
    rcases memberOld children inFirst with inWas | ⟨firstDir, new⟩
    · rcases memberOld childrenToo inSecond with inWasToo | ⟨_, newToo⟩
      · exact counts.owner first second was wasToo entry there thereToo inWas inWasToo
      · subst newToo
        exact absurd inWas (notListed first was there)
    · rcases memberOld childrenToo inSecond with inWasToo | ⟨secondDir, _⟩
      · subst new
        exact absurd inWasToo (notListed second wasToo thereToo)
      · rw [firstDir, secondDir]
  · intro inode changed present
    obtain ⟨was, there, _, _, children⟩ := old present
    rw [children]
    split
    · exact List.nodup_cons.mpr ⟨notListed inode was there, counts.nodup inode was there⟩
    · exact counts.nodup inode was there
  · intro inode changed present notDir
    obtain ⟨was, there, type, _, children⟩ := old present
    rw [type] at notDir
    have apart : inode ≠ dir := by
      rintro rfl
      obtain rfl : node = was := Option.some.inj (here.symm.trans there)
      exact notDir isDir
    rw [children, if_neg apart]
    exact counts.files inode was there notDir
  · intro inode changed present entry member
    obtain ⟨was, there, _, _, children⟩ := old present
    have grown : changedReg.dirents.next = reg.dirents.next + 1 := by
      rw [← result]
      rfl
    rcases memberOld children member with inWas | ⟨_, new⟩
    · have := counts.young inode was there entry inWas
      omega
    · omega

/-- A new inode has one holder, the call that made it. -/
theorem Counts.allocInode {type : InodeType} {count : Nat}
    (counts : Counts reg dying holds pins) (alive : reg.inodes.next ∉ dying)
    : Counts
        { reg with
          inodes := reg.inodes.alloc ⟨type, 1, false, none, none, []⟩, inodeCount := count }
        dying (plus holds [reg.inodes.next]) pins := by
  have absent : reg.inodes.get reg.inodes.next = none := Arena.get_beyond (Nat.le_refl _)
  have unnamed : reg.namings reg.inodes.next = 0 := by
    apply Arena.tally_eq_zero
    intro entry found present
    obtain ⟨node, there⟩ := counts.target entry found present
    have apart : found.inode ≠ reg.inodes.next := Arena.ne_next there
    simp [naming, apart]
  have kept {inode : Nat} {was : Inode} (present : reg.inodes.get inode = some was)
      : (reg.inodes.alloc ⟨type, 1, false, none, none, []⟩).get inode = some was :=
    Arena.get_alloc_of_some present
  have old {inode : Nat} {node : Inode}
      (present : (reg.inodes.alloc ⟨type, 1, false, none, none, []⟩).get inode = some node)
      : inode ≠ reg.inodes.next ∧ reg.inodes.get inode = some node
        ∨ inode = reg.inodes.next ∧ node = ⟨type, 1, false, none, none, []⟩ := by
    rw [Arena.get_alloc] at present
    by_cases new : inode = reg.inodes.next
    · rw [if_pos new] at present
      exact Or.inr ⟨new, (Option.some.inj present).symm⟩
    · rw [if_neg new] at present
      exact Or.inl ⟨new, present⟩
  have listed (entry : Nat)
      : ({ reg with
            inodes := reg.inodes.alloc ⟨type, 1, false, none, none, []⟩
            inodeCount := count } : Registry).Listed dying entry
        ↔ reg.Listed dying entry := by
    constructor
    · rintro ⟨inode, node, awake, present, member⟩
      rcases old present with ⟨_, there⟩ | ⟨_, rfl⟩
      · exact ⟨inode, node, awake, there, member⟩
      · simp at member
    · rintro ⟨inode, node, awake, present, member⟩
      exact ⟨inode, node, awake, kept present, member⟩
  constructor
  · intro inode awake node present
    change 0 < node.refcount ∧ node.refcount + (reg.selfLinks inode node.children : Int)
      = reg.namings inode + plus holds [reg.inodes.next] inode
    rcases old present with ⟨apart, there⟩ | ⟨rfl, rfl⟩
    · rw [plus_of_ne apart]
      exact counts.counted inode awake node there
    · rw [plus_self, unnamed, counts.holds_absent absent]
      simp [Registry.selfLinks]
  · intro inode some_left
    by_cases new : inode = reg.inodes.next
    · rw [new]
      exact ⟨alive, _, Arena.get_alloc_self _ _⟩
    · rw [plus_of_ne new] at some_left
      obtain ⟨awake, node, present⟩ := counts.held inode some_left
      exact ⟨awake, node, kept present⟩
  · intro entry found present
    obtain ⟨node, there⟩ := counts.target entry found present
    exact ⟨node, kept there⟩
  · intro entry found present ends
    obtain ⟨node, there, member⟩ := counts.dyingTarget entry found present ends
    exact ⟨node, kept there, member⟩
  · intro entry found present
    rw [listed]
    exact counts.entryCount entry found present
  · intro entry isListed
    exact counts.present entry ((listed entry).mp isListed)
  · exact counts.pinned
  · intro first second firstNode secondNode entry presentFirst presentSecond inFirst inSecond
    rcases old presentFirst with ⟨_, there⟩ | ⟨_, rfl⟩
    · rcases old presentSecond with ⟨_, thereToo⟩ | ⟨_, rfl⟩
      · exact counts.owner first second _ _ entry there thereToo inFirst inSecond
      · simp at inSecond
    · simp at inFirst
  · intro inode node present
    rcases old present with ⟨_, there⟩ | ⟨_, rfl⟩
    · exact counts.nodup inode node there
    · simp
  · intro inode node present notDir
    rcases old present with ⟨_, there⟩ | ⟨_, rfl⟩
    · exact counts.files inode node there notDir
    · rfl
  · intro inode node present entry member
    rcases old present with ⟨_, there⟩ | ⟨_, rfl⟩
    · exact counts.young inode node there entry member
    · simp at member

/-- Letting a listed entry name another inode moves a holder from the new to the old one. -/
theorem Counts.retarget {dir entry target : Nat} {found : Dirent}
    (counts : Counts reg dying (plus holds [target]) pins) (here : reg.inodes.get dir = some node)
    (member : entry ∈ node.children) (names : reg.dirents.get entry = some found)
    (different : found.inode ≠ target) (notSelf : found.inode ≠ dir) (targetNotDir : target ≠ dir)
    (oldAlive : found.inode ∉ dying)
    : Counts (reg.modifyDirent entry (fun found => { found with inode := target })) dying
        (plus holds [found.inode]) pins := by
  obtain ⟨targetAlive, targetNode, targetHere⟩ :=
    counts.held target (by rw [plus_self]; omega)
  have entries (other : Nat)
      : (reg.modifyDirent entry (fun found =>
          { found with inode := target })).dirents.get other
        = if other = entry then some { found with inode := target }
          else reg.dirents.get other := by
    by_cases same : other = entry
    · subst same
      simp [Registry.modifyDirent, names]
    · rw [if_neg same]
      exact Arena.get_modify_of_ne same
  constructor
  · intro inode awake was present
    obtain ⟨positive, count⟩ := counts.counted inode awake was present
    have moved : (reg.modifyDirent entry (fun found =>
          { found with inode := target })).namings inode + naming inode found
        = reg.namings inode + naming inode { found with inode := target } :=
      Arena.tally_modify names _
    have self : (reg.modifyDirent entry (fun found =>
          { found with inode := target })).selfLinks inode was.children
        = reg.selfLinks inode was.children := by
      apply Registry.selfLinks_congr
      intro other inWas
      simp only [Arena.weigh, entries]
      by_cases same : other = entry
      · subst same
        have atDir : inode = dir :=
          counts.owner inode dir was node other present here inWas member
        simp [naming, names, atDir, notSelf, targetNotDir]
      · rw [if_neg same]
    rw [self]
    refine ⟨positive, ?_⟩
    simp only [plus, List.count_cons, List.count_nil, beq_iff_eq, naming] at count moved ⊢
    by_cases toNew : target = inode
    · have notOld : ¬found.inode = inode := by
        rw [← toNew]
        exact different
      simp only [toNew, notOld, if_true, if_false] at count moved ⊢
      omega
    · by_cases fromOld : found.inode = inode
      · simp only [toNew, fromOld, if_true, if_false] at count moved ⊢
        omega
      · simp only [toNew, fromOld, if_false] at count moved ⊢
        omega
  · intro inode some_left
    by_cases same : inode = found.inode
    · rw [same]
      exact ⟨oldAlive, counts.target entry found names⟩
    · rw [plus_of_ne same] at some_left
      exact counts.held inode (by simp only [plus]; omega)
  · intro other was present
    rw [entries] at present
    by_cases same : other = entry
    · rw [if_pos same] at present
      obtain rfl := Option.some.inj present
      exact ⟨targetNode, targetHere⟩
    · rw [if_neg same] at present
      exact counts.target other was present
  · intro other was present ends
    rw [entries] at present
    by_cases same : other = entry
    · rw [if_pos same] at present
      obtain rfl := Option.some.inj present
      exact absurd ends targetAlive
    · rw [if_neg same] at present
      exact counts.dyingTarget other was present ends
  · intro other was present
    rw [entries] at present
    by_cases same : other = entry
    · rw [if_pos same] at present
      obtain rfl := Option.some.inj present
      rw [same]
      exact counts.entryCount entry found names
    · rw [if_neg same] at present
      exact counts.entryCount other was present
  · intro other isListed
    rw [entries]
    by_cases same : other = entry
    · exact ⟨_, if_pos same⟩
    · rw [if_neg same]
      exact counts.present other isListed
  · intro other some_left
    rw [entries]
    by_cases same : other = entry
    · exact ⟨_, if_pos same⟩
    · rw [if_neg same]
      exact counts.pinned other some_left
  · exact counts.owner
  · exact counts.nodup
  · exact counts.files
  · exact counts.young

end Lists

end Panuti.Native
