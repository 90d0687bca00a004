import Mathlib.Data.Finset.Card
import Panuti.Native.Counts

/-! Dropping references. The last reference to an inode destroys it: its entries are put one
by one, which can drop the last reference to further inodes. What remains is counted as
before, and no destroyed inode or entry is referred to by anything left.
-/

namespace Panuti.Native

open Panuti.Kernel (Errno HandleOps InodeType)

-- Shrinking

/-- Inodes and entries may be gone, and counts may be lower; nothing else changed. -/
structure Shrinks (dying : List Nat) (reg changed : Registry) : Prop where
  inode
    : ∀ inode node, changed.inodes.get inode = some node
      → ∃ was, reg.inodes.get inode = some was
        ∧ node.type = was.type
        ∧ node.deleted = was.deleted
        ∧ node.children = was.children
        ∧ node.refcount ≤ was.refcount
  entry
    : ∀ entry found, changed.dirents.get entry = some found
      → ∃ was, reg.dirents.get entry = some was
        ∧ found.name = was.name
        ∧ found.inode = was.inode
        ∧ found.refcount ≤ was.refcount
  dyingSame : ∀ inode ∈ dying, changed.inodes.get inode = reg.inodes.get inode
  nextInode : changed.inodes.next = reg.inodes.next
  nextEntry : changed.dirents.next = reg.dirents.next
  sameRoot : changed.root = reg.root
  sameMounts : changed.mountpoints = reg.mountpoints

theorem Shrinks.refl (dying : List Nat) (reg : Registry) : Shrinks dying reg reg where
  inode _ node present := ⟨node, present, rfl, rfl, rfl, le_refl _⟩
  entry _ found present := ⟨found, present, rfl, rfl, le_refl _⟩
  dyingSame _ _ := rfl
  nextInode := rfl
  nextEntry := rfl
  sameRoot := rfl
  sameMounts := rfl

variable {dying : List Nat} {reg changed : Registry}

theorem Shrinks.trans {middle : Registry} (first : Shrinks dying reg middle)
    (second : Shrinks dying middle changed)
    : Shrinks dying reg changed where
  inode := by
    intro inode node present
    obtain ⟨between, there, type, deleted, children, count⟩ := second.inode inode node present
    obtain ⟨was, thereToo, typeToo, deletedToo, childrenToo, countToo⟩ :=
      first.inode inode between there
    exact ⟨was, thereToo, type.trans typeToo, deleted.trans deletedToo,
      children.trans childrenToo, le_trans count countToo⟩
  entry := by
    intro entry found present
    obtain ⟨between, there, name, inode, count⟩ := second.entry entry found present
    obtain ⟨was, thereToo, nameToo, inodeToo, countToo⟩ := first.entry entry between there
    exact ⟨was, thereToo, name.trans nameToo, inode.trans inodeToo, le_trans count countToo⟩
  dyingSame inode ends := (second.dyingSame inode ends).trans (first.dyingSame inode ends)
  nextInode := second.nextInode.trans first.nextInode
  nextEntry := second.nextEntry.trans first.nextEntry
  sameRoot := second.sameRoot.trans first.sameRoot
  sameMounts := second.sameMounts.trans first.sameMounts

theorem Shrinks.recount {inode : Nat} {node : Inode} {change : Inode → Inode}
    (here : reg.inodes.get inode = some node) (alive : inode ∉ dying)
    (same
      : (change node).type = node.type
        ∧ (change node).deleted = node.deleted
        ∧ (change node).children = node.children
        ∧ (change node).refcount ≤ node.refcount)
    : Shrinks dying reg (reg.modifyInode inode change) where
  inode := by
    intro other changed present
    obtain ⟨was, there, rfl⟩ := Arena.get_modify_eq_some present
    refine ⟨was, there, ?_⟩
    split
    · rename_i at_
      subst at_
      obtain rfl : node = was := Option.some.inj (here.symm.trans there)
      exact same
    · exact ⟨rfl, rfl, rfl, le_refl _⟩
  entry _ found present := ⟨found, present, rfl, rfl, le_refl _⟩
  dyingSame other ends := by
    have apart : other ≠ inode := by
      rintro rfl
      exact alive ends
    exact Arena.get_modify_of_ne apart
  nextInode := rfl
  nextEntry := rfl
  sameRoot := rfl
  sameMounts := rfl

theorem Shrinks.repin {entry : Nat} {found : Dirent} {change : Dirent → Dirent}
    (here : reg.dirents.get entry = some found)
    (same
      : (change found).name = found.name
        ∧ (change found).inode = found.inode
        ∧ (change found).refcount ≤ found.refcount)
    : Shrinks dying reg (reg.modifyDirent entry change) where
  inode _ node present := ⟨node, present, rfl, rfl, rfl, le_refl _⟩
  entry := by
    intro other changed present
    obtain ⟨was, there, rfl⟩ := Arena.get_modify_eq_some present
    refine ⟨was, there, ?_⟩
    split
    · rename_i at_
      subst at_
      obtain rfl : found = was := Option.some.inj (here.symm.trans there)
      exact same
    · exact ⟨rfl, rfl, le_refl _⟩
  dyingSame _ _ := rfl
  nextInode := rfl
  nextEntry := rfl
  sameRoot := rfl
  sameMounts := rfl

theorem Shrinks.freeEntry (reg : Registry) (dying : List Nat) (entry count : Nat)
    : Shrinks dying reg
        { reg with dirents := reg.dirents.free entry, direntCount := count } where
  inode _ node present := ⟨node, present, rfl, rfl, rfl, le_refl _⟩
  entry _ found present :=
    ⟨found, (Arena.get_free_eq_some.mp present).2, rfl, rfl, le_refl _⟩
  dyingSame _ _ := rfl
  nextInode := rfl
  nextEntry := rfl
  sameRoot := rfl
  sameMounts := rfl

/-- An entry on a list is pinned only while its directory is held: the readers that pin it
hold the directory they read.
-/
def ReadersHold (reg : Registry) (dying : List Nat) (holds pins : Nat → Nat) : Prop :=
  ∀ inode ∉ dying, ∀ node, reg.inodes.get inode = some node
  → ∀ entry ∈ node.children, pins entry ≤ holds inode

theorem ReadersHold.shrinks {holds pins : Nat → Nat} (readers : ReadersHold reg dying holds pins)
    (shrinks : Shrinks dying reg changed)
    : ReadersHold changed dying holds pins := by
  intro inode alive node present entry member
  obtain ⟨was, there, _, _, children, _⟩ := shrinks.inode inode node present
  rw [children] at member
  exact readers inode alive was there entry member

def Registry.awake (reg : Registry) (dying : List Nat) : Finset Nat :=
  (Finset.range reg.inodes.next).filter
    (fun inode => (reg.inodes.get inode).isSome ∧ inode ∉ dying)

theorem Registry.mem_awake {inode : Nat}
    : inode ∈ reg.awake dying ↔ inode ∉ dying ∧ ∃ node, reg.inodes.get inode = some node := by
  simp only [Registry.awake, Finset.mem_filter, Finset.mem_range, Option.isSome_iff_exists]
  constructor
  · rintro ⟨_, present, alive⟩
    exact ⟨alive, present⟩
  · rintro ⟨alive, node, present⟩
    exact ⟨Arena.lt_next present, ⟨node, present⟩, alive⟩

theorem Shrinks.awake_le (shrinks : Shrinks dying reg changed)
    : (changed.awake dying).card ≤ (reg.awake dying).card := by
  apply Finset.card_le_card
  intro inode member
  obtain ⟨alive, node, present⟩ := Registry.mem_awake.mp member
  obtain ⟨was, there, _⟩ := shrinks.inode inode node present
  exact Registry.mem_awake.mpr ⟨alive, was, there⟩

-- The last reference to an inode

section Dying

variable {reg : Registry} {dying : List Nat} {holds pins : Nat → Nat}

theorem Counts.last {inode : Nat} {node : Inode}
    (counts : Counts reg dying (plus holds [inode]) pins)
    (here : reg.inodes.get inode = some node) (alive : inode ∉ dying)
    (last : node.refcount - 1 = 0)
    : holds inode = 0
      ∧ ∀ entry found, reg.dirents.get entry = some found → found.inode = inode
        → entry ∈ node.children := by
  have count := (counts.counted inode alive node here).2
  have own := counts.selfLinks_le here
  rw [plus_self] at count
  refine ⟨by omega, ?_⟩
  intro entry found present names
  by_contra elsewhere
  have more : ((entry :: node.children).map (reg.dirents.weigh (naming inode))).sum
      ≤ reg.namings inode :=
    Arena.sum_weigh_le _ (List.nodup_cons.mpr ⟨elsewhere, counts.nodup inode node here⟩)
  have one : naming inode found = 1 := if_pos names
  rw [List.map_cons, List.sum_cons, Arena.weigh_of_some present, one] at more
  simp only [Registry.selfLinks] at own count
  omega

/-- An inode starts to die: its entries leave the list for the hands of the loop. -/
theorem Counts.startDying {inode : Nat} {node : Inode} {change : Inode → Inode}
    (counts : Counts reg dying (plus holds [inode]) pins)
    (here : reg.inodes.get inode = some node) (alive : inode ∉ dying)
    (last : node.refcount - 1 = 0)
    (sameChildren : (change node).children = node.children)
    (sameType : (change node).type = node.type)
    : Counts (reg.modifyInode inode change) (inode :: dying) holds
        (plus pins node.children) := by
  obtain ⟨noHolds, own⟩ := counts.last here alive last
  have nodup := counts.nodup inode node here
  have nodes (other : Nat) : (reg.modifyInode inode change).inodes.get other
      = if other = inode then some (change node) else reg.inodes.get other := by
    by_cases same : other = inode
    · subst same
      simp [Registry.modifyInode, here]
    · rw [if_neg same]
      exact Arena.get_modify_of_ne same
  have old {other : Nat} {changed : Inode}
      (present : (reg.modifyInode inode change).inodes.get other = some changed)
      : ∃ was, reg.inodes.get other = some was
          ∧ changed.children = was.children
          ∧ changed.type = was.type
          ∧ (other ≠ inode → changed = was) := by
    rw [nodes] at present
    by_cases same : other = inode
    · rw [if_pos same] at present
      obtain rfl := Option.some.inj present
      exact ⟨node, by rw [same]; exact here, sameChildren, sameType,
        fun apart => absurd same apart⟩
    · rw [if_neg same] at present
      exact ⟨changed, present, rfl, rfl, fun _ => rfl⟩
  have kept {other : Nat} {was : Inode} (present : reg.inodes.get other = some was)
      : ∃ changed, (reg.modifyInode inode change).inodes.get other = some changed
          ∧ changed.children = was.children := by
    rw [nodes]
    by_cases same : other = inode
    · subst same
      obtain rfl : node = was := Option.some.inj (here.symm.trans present)
      exact ⟨change node, if_pos rfl, sameChildren⟩
    · exact ⟨was, by rw [if_neg same]; exact present, rfl⟩
  have listed (entry : Nat)
      : (reg.modifyInode inode change).Listed (inode :: dying) entry
        ↔ reg.Listed dying entry ∧ entry ∉ node.children := by
    constructor
    · rintro ⟨other, changed, awake, present, member⟩
      obtain ⟨apart, awakeToo⟩ := List.ne_and_not_mem_of_not_mem_cons awake
      obtain ⟨was, there, children, _⟩ := old present
      rw [children] at member
      refine ⟨⟨other, was, awakeToo, there, member⟩, ?_⟩
      intro inNode
      exact apart (counts.owner other inode was node entry there here member inNode)
    · rintro ⟨⟨other, was, awake, there, member⟩, outside⟩
      have apart : other ≠ inode := by
        rintro rfl
        obtain rfl : node = was := Option.some.inj (here.symm.trans there)
        exact outside member
      refine ⟨other, was, List.not_mem_cons_of_ne_of_not_mem apart awake, ?_, member⟩
      rw [nodes, if_neg apart]
      exact there
  have mine (entry : Nat) (member : entry ∈ node.children) : reg.Listed dying entry :=
    ⟨inode, node, alive, here, member⟩
  constructor
  · intro other awake changed present
    obtain ⟨apart, awakeToo⟩ := List.ne_and_not_mem_of_not_mem_cons awake
    obtain ⟨was, there, _, _, same⟩ := old present
    rw [same apart]
    have count := counts.counted other awakeToo was there
    rw [plus_of_ne apart] at count
    exact count
  · intro other some_left
    have apart : other ≠ inode := by
      rintro rfl
      omega
    obtain ⟨awake, was, there⟩ := counts.held other (by rw [plus_of_ne apart]; exact some_left)
    refine ⟨List.not_mem_cons_of_ne_of_not_mem apart awake, was, ?_⟩
    rw [nodes, if_neg apart]
    exact there
  · intro entry found present
    obtain ⟨was, there⟩ := counts.target entry found present
    obtain ⟨changed, presentNew, _⟩ := kept there
    exact ⟨changed, presentNew⟩
  · intro entry found present ends
    rcases List.mem_cons.mp ends with same | others
    · have member := own entry found present same
      rw [same]
      exact ⟨change node, by rw [nodes, if_pos rfl], by rw [sameChildren]; exact member⟩
    · obtain ⟨was, there, member⟩ := counts.dyingTarget entry found present others
      obtain ⟨changed, presentNew, children⟩ := kept there
      exact ⟨changed, presentNew, by rw [children]; exact member⟩
  · intro entry found present
    obtain ⟨positive, onList, offList⟩ := counts.entryCount entry found present
    refine ⟨positive, ?_, ?_⟩
    · intro isListed
      obtain ⟨wasListed, outside⟩ := (listed entry).mp isListed
      rw [onList wasListed, plus, List.count_eq_zero_of_not_mem outside, Nat.add_zero]
    · intro notListed
      by_cases member : entry ∈ node.children
      · rw [onList (mine entry member), plus, List.count_eq_one_of_mem nodup member]
        omega
      · rw [offList (fun isListed => notListed ((listed entry).mpr ⟨isListed, member⟩)), plus,
          List.count_eq_zero_of_not_mem member, Nat.add_zero]
  · intro entry isListed
    exact counts.present entry ((listed entry).mp isListed).1
  · intro entry some_left
    by_cases member : entry ∈ node.children
    · exact counts.present entry (mine entry member)
    · rw [plus, List.count_eq_zero_of_not_mem member, Nat.add_zero] at some_left
      exact counts.pinned entry some_left
  · intro first second firstNode secondNode entry presentFirst presentSecond inFirst inSecond
    obtain ⟨was, there, children, _⟩ := old presentFirst
    obtain ⟨wasToo, thereToo, childrenToo, _⟩ := old presentSecond
    rw [children] at inFirst
    rw [childrenToo] at inSecond
    exact counts.owner first second was wasToo entry there thereToo inFirst inSecond
  · intro other changed present
    obtain ⟨was, there, children, _⟩ := old present
    rw [children]
    exact counts.nodup other was there
  · intro other changed present notDir
    obtain ⟨was, there, children, type, _⟩ := old present
    rw [children]
    exact counts.files other was there (by rw [← type]; exact notDir)
  · intro other changed present entry member
    obtain ⟨was, there, children, _⟩ := old present
    rw [children] at member
    exact counts.young other was there entry member

/-- A dying inode that no entry names any more is freed. -/
theorem Counts.endDying {inode count : Nat}
    (counts : Counts reg (inode :: dying) holds pins)
    (unnamed : ∀ entry found, reg.dirents.get entry = some found → found.inode ≠ inode)
    : Counts { reg with inodes := reg.inodes.free inode, inodeCount := count } dying holds
        pins := by
  have old {other : Nat} {node : Inode}
      (present : (reg.inodes.free inode).get other = some node)
      : other ≠ inode ∧ reg.inodes.get other = some node :=
    Arena.get_free_eq_some.mp present
  have kept {other : Nat} {node : Inode} (apart : other ≠ inode)
      (present : reg.inodes.get other = some node)
      : (reg.inodes.free inode).get other = some node :=
    Arena.get_free_eq_some.mpr ⟨apart, present⟩
  have listed (entry : Nat)
      : ({ reg with inodes := reg.inodes.free inode, inodeCount := count } : Registry).Listed
          dying entry
        ↔ reg.Listed (inode :: dying) entry := by
    constructor
    · rintro ⟨other, node, awake, present, member⟩
      obtain ⟨apart, there⟩ := old present
      exact ⟨other, node, List.not_mem_cons_of_ne_of_not_mem apart awake, there, member⟩
    · rintro ⟨other, node, awake, present, member⟩
      obtain ⟨apart, awakeToo⟩ := List.ne_and_not_mem_of_not_mem_cons awake
      exact ⟨other, node, awakeToo, kept apart present, member⟩
  constructor
  · intro other awake node present
    obtain ⟨apart, there⟩ := old present
    exact counts.counted other (List.not_mem_cons_of_ne_of_not_mem apart awake) node there
  · intro other some_left
    obtain ⟨awake, node, there⟩ := counts.held other some_left
    obtain ⟨apart, awakeToo⟩ := List.ne_and_not_mem_of_not_mem_cons awake
    exact ⟨awakeToo, node, kept apart there⟩
  · intro entry found present
    obtain ⟨node, there⟩ := counts.target entry found present
    exact ⟨node, kept (unnamed entry found present) there⟩
  · intro entry found present ends
    obtain ⟨node, there, member⟩ :=
      counts.dyingTarget entry found present (List.mem_cons_of_mem _ ends)
    exact ⟨node, kept (unnamed entry found present) there, member⟩
  · intro entry found present
    rw [listed]
    exact counts.entryCount entry found present
  · intro entry isListed
    exact counts.present entry ((listed entry).mp isListed)
  · exact counts.pinned
  · intro first second firstNode secondNode entry presentFirst presentSecond inFirst inSecond
    exact counts.owner first second _ _ entry (old presentFirst).2 (old presentSecond).2
      inFirst inSecond
  · intro other node present
    exact counts.nodup other node (old present).2
  · intro other node present notDir
    exact counts.files other node (old present).2 notDir
  · intro other node present entry member
    exact counts.young other node (old present).2 entry member

end Dying

-- Putting entries

/-- `unref` gives up one holder of an inode, where at most `depth` inodes are awake. -/
def Releases (unref : Registry → Nat → Registry) (dying : List Nat) (depth : Nat) : Prop :=
  ∀ reg holds pins inode, Counts reg dying (plus holds [inode]) pins
  → ReadersHold reg dying holds pins
  → (reg.awake dying).card ≤ depth
  → Counts (unref reg inode) dying holds pins ∧ Shrinks dying reg (unref reg inode)

section Put

variable {unref : Registry → Nat → Registry} {reg : Registry} {dying : List Nat}
  {holds pins : Nat → Nat} {depth : Nat}

theorem Counts.direntPut {entry : Nat} {found : Dirent} {drop : Bool}
    (counts : Counts reg dying holds (plus pins [entry]))
    (releases : Releases unref dying depth)
    (readers : ReadersHold reg dying holds pins)
    (small : (reg.awake dying).card ≤ depth)
    (here : reg.dirents.get entry = some found)
    (dropped : drop = true ↔ found.inode ∉ dying)
    : Counts (direntPut unref reg entry drop) dying holds pins
      ∧ Shrinks dying reg (direntPut unref reg entry drop) := by
  obtain ⟨positive, onList, offList⟩ := counts.entryCount entry found here
  rw [plus_self] at onList offList
  simp only [Native.direntPut, here]
  by_cases more : found.refcount - 1 ≠ 0
  · rw [if_pos more]
    refine ⟨counts.repin here rfl ?_ ?_ ?_,
      Shrinks.repin here ⟨rfl, rfl, Nat.sub_le found.refcount 1⟩⟩
    · exact Nat.pos_of_ne_zero more
    · simp only [plus_self]
      omega
    · intro other apart
      rw [plus_of_ne apart]
  · rw [if_neg more]
    have unlisted : ¬reg.Listed dying entry := by
      intro isListed
      have := onList isListed
      omega
    cases drop with
    | true =>
        have alive : found.inode ∉ dying := dropped.mp rfl
        simp only [if_true]
        have freed : Counts
            { reg with
              dirents := reg.dirents.free entry, direntCount := reg.direntCount - 1 }
            dying (plus holds [found.inode]) pins := by
          apply counts.freeEntry here (by omega) unlisted
          · intro inode _
            by_cases names : inode = found.inode
            · subst names
              simp [plus_self, naming]
            · rw [plus_of_ne names, naming, if_neg (fun same => names same.symm)]
              rfl
          · intro inode ends
            have apart : inode ≠ found.inode := by
              rintro rfl
              exact alive ends
            exact plus_of_ne apart
        have shrinks := Shrinks.freeEntry reg dying entry (reg.direntCount - 1)
        obtain ⟨kept, further⟩ := releases _ holds pins found.inode freed
          (readers.shrinks shrinks) (Nat.le_trans shrinks.awake_le small)
        exact ⟨kept, shrinks.trans further⟩
    | false =>
        have ends : found.inode ∈ dying := by
          by_contra alive
          exact absurd (dropped.mpr alive) (by simp)
        simp only [Bool.false_eq_true, if_false]
        refine ⟨counts.freeEntry here (by omega) unlisted ?_ (fun _ _ => rfl),
          Shrinks.freeEntry reg dying entry (reg.direntCount - 1)⟩
        intro inode alive
        have apart : ¬found.inode = inode := by
          rintro rfl
          exact alive ends
        simp [naming, apart]

theorem direntPut_last {entry : Nat} {found : Dirent}
    (here : reg.dirents.get entry = some found) (last : found.refcount = 1)
    : (direntPut unref reg entry false).dirents.get entry = none := by
  simp [Native.direntPut, here, last]

theorem Counts.putChildren {inode : Nat} {node : Inode} (entries : List Nat)
    (counts : Counts reg (inode :: dying) holds (plus pins entries))
    (releases : Releases unref (inode :: dying) depth)
    (readers : ReadersHold reg (inode :: dying) holds pins)
    (small : (reg.awake (inode :: dying)).card ≤ depth)
    (here : reg.inodes.get inode = some node)
    (inside : ∀ entry ∈ entries, entry ∈ node.children)
    (nodup : entries.Nodup)
    (own
      : ∀ entry found, reg.dirents.get entry = some found → found.inode = inode
        → entry ∈ entries ∧ pins entry = 0)
    : let after := entries.foldl (fun reg entry =>
        Native.direntPut unref reg entry (decide (reg.target entry ≠ some inode))) reg
      Counts after (inode :: dying) holds pins
      ∧ Shrinks (inode :: dying) reg after
      ∧ ∀ entry found, after.dirents.get entry = some found → found.inode ≠ inode := by
  induction entries generalizing reg with
  | nil =>
      rw [plus_nil] at counts
      refine ⟨counts, Shrinks.refl _ _, ?_⟩
      intro entry found present names
      simpa using (own entry found present names).1
  | cons first rest ih =>
      obtain ⟨apart, restNodup⟩ := List.nodup_cons.mp nodup
      rw [plus_cons] at counts
      obtain ⟨found, present⟩ := counts.pinned first (by rw [plus_self]; omega)
      have readersRest : ReadersHold reg (inode :: dying) holds (plus pins rest) := by
        intro other awake otherNode there entry member
        have outside : entry ∉ rest := by
          intro inRest
          have same := counts.owner other inode otherNode node entry there here member
            (inside entry (List.mem_cons_of_mem _ inRest))
          exact awake (by simp [same])
        rw [plus, List.count_eq_zero_of_not_mem outside, Nat.add_zero]
        exact readers other awake otherNode there entry member
      have dropped : decide (reg.target first ≠ some inode) = true
          ↔ found.inode ∉ inode :: dying := by
        simp only [Registry.target, present, Option.map_some, ne_eq, Option.some.injEq,
          decide_eq_true_eq, List.mem_cons, not_or]
        constructor
        · intro different
          refine ⟨different, ?_⟩
          intro ends
          obtain ⟨other, there, member⟩ :=
            counts.dyingTarget first found present (List.mem_cons_of_mem _ ends)
          exact different (counts.owner found.inode inode other node first there here member
            (inside first (by simp)))
        · exact fun both => both.1
      obtain ⟨kept, shrinks⟩ := counts.direntPut releases readersRest small present dropped
      have gone : found.inode = inode →
          (Native.direntPut unref reg first
            (decide (reg.target first ≠ some inode))).dirents.get first = none := by
        intro names
        have noDrop : decide (reg.target first ≠ some inode) = false := by
          simp [Registry.target, present, names]
        rw [noDrop]
        apply direntPut_last present
        have unlisted : ¬reg.Listed (inode :: dying) first := by
          rintro ⟨other, otherNode, awake, there, member⟩
          have same := counts.owner other inode otherNode node first there here member
            (inside first (by simp))
          exact awake (by simp [same])
        rw [(counts.entryCount first found present).2.2 unlisted, plus_self, plus,
          (own first found present names).2, List.count_eq_zero_of_not_mem apart]
      rw [List.foldl_cons]
      generalize Native.direntPut unref reg first (decide (reg.target first ≠ some inode))
        = middle at kept shrinks gone ⊢
      have hereStill : middle.inodes.get inode = some node := by
        rw [shrinks.dyingSame inode (by simp)]
        exact here
      obtain ⟨keptAll, further, unnamed⟩ := ih kept (readers.shrinks shrinks)
        (Nat.le_trans shrinks.awake_le small) hereStill
        (fun entry member => inside entry (List.mem_cons_of_mem _ member)) restNodup (by
          intro entry other presentOther names
          obtain ⟨was, there, _, sameInode, _⟩ := shrinks.entry entry other presentOther
          obtain ⟨member, free⟩ := own entry was there (by rw [← sameInode]; exact names)
          refine ⟨?_, free⟩
          rcases List.mem_cons.mp member with isFirst | inRest
          · subst isFirst
            obtain rfl : found = was := Option.some.inj (present.symm.trans there)
            rw [gone (by rw [← sameInode]; exact names)] at presentOther
            cases presentOther
          · exact inRest)
      exact ⟨keptAll, shrinks.trans further, unnamed⟩

end Put

-- inode_unref

/-- `inode_unref` gives up one holder. The depth suffices, since every inode destroyed inside
another is awake no longer.
Witness: induction on the depth; the loop over the entries of a dying inode recurs one lower.
-/
theorem inodeUnrefDepth_releases (depth : Nat) (dying : List Nat)
    : Releases (inodeUnrefDepth depth) dying depth := by
  induction depth generalizing dying with
  | zero =>
      intro reg holds pins inode counts readers small
      have held := counts.held inode (by rw [plus_self]; omega)
      have member : inode ∈ reg.awake dying := Registry.mem_awake.mpr held
      have positive := Finset.card_pos.mpr ⟨inode, member⟩
      omega
  | succ depth ih =>
      intro reg holds pins inode counts readers small
      obtain ⟨alive, node, here⟩ := counts.held inode (by rw [plus_self]; omega)
      have positive := (counts.counted inode alive node here).1
      have lower : node.refcount - 1 ≤ node.refcount := by omega
      simp only [inodeUnrefDepth, here]
      by_cases more : node.refcount - 1 ≠ 0
      · rw [if_pos more]
        refine ⟨?_, Shrinks.recount here alive ⟨rfl, rfl, rfl, lower⟩⟩
        apply counts.recount here alive rfl rfl
        · show 0 < node.refcount - 1
          omega
        · show node.refcount - 1 + (plus holds [inode] inode : Int)
            = node.refcount + holds inode
          rw [plus_self]
          omega
        · intro other apart
          exact (plus_of_ne apart).symm
      · rw [if_neg more]
        have last : node.refcount - 1 = 0 := by omega
        obtain ⟨noHolds, own⟩ := counts.last here alive last
        have dead : Counts
            (reg.modifyInode inode (fun was => { was with refcount := node.refcount - 1 }))
            (inode :: dying) holds (plus pins node.children) :=
          counts.startDying here alive last rfl rfl
        have shrinksFirst : Shrinks dying reg
            (reg.modifyInode inode (fun was => { was with refcount := node.refcount - 1 })) :=
          Shrinks.recount here alive ⟨rfl, rfl, rfl, lower⟩
        have hereNow
            : (reg.modifyInode inode (fun was =>
                { was with refcount := node.refcount - 1 })).inodes.get inode
              = some { node with refcount := node.refcount - 1 } := by
          simp [Registry.modifyInode, here]
        have readersNow : ReadersHold
            (reg.modifyInode inode (fun was => { was with refcount := node.refcount - 1 }))
            (inode :: dying) holds pins := by
          intro other awake otherNode present
          exact readers.shrinks shrinksFirst other
            (List.not_mem_of_not_mem_cons awake) otherNode present
        have fewer
            : ((reg.modifyInode inode (fun was =>
                { was with refcount := node.refcount - 1 })).awake (inode :: dying)).card
              ≤ depth := by
          have smaller
              : (reg.modifyInode inode (fun was =>
                  { was with refcount := node.refcount - 1 })).awake (inode :: dying)
                ⊂ reg.awake dying := by
            refine Finset.ssubset_iff_subset_ne.mpr ⟨?_, ?_⟩
            · intro other member
              obtain ⟨awake, otherNode, present⟩ := Registry.mem_awake.mp member
              obtain ⟨was, there, _⟩ := shrinksFirst.inode other otherNode present
              exact Registry.mem_awake.mpr ⟨List.not_mem_of_not_mem_cons awake, was, there⟩
            · intro same
              have member : inode ∈ reg.awake dying :=
                Registry.mem_awake.mpr ⟨alive, node, here⟩
              rw [← same] at member
              exact (Registry.mem_awake.mp member).1 (by simp)
          have := Finset.card_lt_card smaller
          omega
        have ownFree : ∀ entry found, reg.dirents.get entry = some found
            → found.inode = inode → entry ∈ node.children ∧ pins entry = 0 := by
          intro entry found present names
          have member := own entry found present names
          have bound := readers inode alive node here entry member
          exact ⟨member, by omega⟩
        obtain ⟨kept, shrinks, unnamed⟩ := dead.putChildren node.children (ih (inode :: dying))
          readersNow fewer hereNow (fun entry member => member)
          (counts.nodup inode node here) ownFree
        have loop
            : (if node.type = .dir then
                node.children.foldl (fun reg entry =>
                  Native.direntPut (inodeUnrefDepth depth) reg entry
                    (decide (reg.target entry ≠ some inode)))
                  (reg.modifyInode inode (fun was =>
                    { was with refcount := node.refcount - 1 }))
              else reg.modifyInode inode (fun was =>
                { was with refcount := node.refcount - 1 }))
              = node.children.foldl (fun reg entry =>
                  Native.direntPut (inodeUnrefDepth depth) reg entry
                    (decide (reg.target entry ≠ some inode)))
                  (reg.modifyInode inode (fun was =>
                    { was with refcount := node.refcount - 1 })) := by
          split
          · rfl
          · rename_i notDir
            rw [counts.files inode node here notDir]
            rfl
        simp only [registryDestroy, loop]
        generalize node.children.foldl (fun reg entry =>
            Native.direntPut (inodeUnrefDepth depth) reg entry
              (decide (reg.target entry ≠ some inode)))
          (reg.modifyInode inode (fun was => { was with refcount := node.refcount - 1 }))
          = after at kept shrinks unnamed ⊢
        refine ⟨kept.endDying unnamed, ?_⟩
        constructor
        · intro other otherNode present
          obtain ⟨apart, there⟩ := Arena.get_free_eq_some.mp present
          obtain ⟨between, thereToo, type, deleted, children, count⟩ :=
            shrinks.inode other otherNode there
          obtain ⟨was, origin, typeToo, deletedToo, childrenToo, countToo⟩ :=
            shrinksFirst.inode other between thereToo
          exact ⟨was, origin, type.trans typeToo, deleted.trans deletedToo,
            children.trans childrenToo, le_trans count countToo⟩
        · exact shrinks.entry
        · intro other ends
          have apart : other ≠ inode := by
            rintro rfl
            exact alive ends
          rw [Arena.get_free_of_ne apart, shrinks.dyingSame other (List.mem_cons_of_mem _ ends)]
          exact Arena.get_modify_of_ne apart
        · exact shrinks.nextInode
        · exact shrinks.nextEntry
        · exact shrinks.sameRoot
        · exact shrinks.sameMounts

theorem awake_le_next (reg : Registry) (dying : List Nat)
    : (reg.awake dying).card ≤ reg.inodes.next := by
  have bound := Finset.card_filter_le (Finset.range reg.inodes.next)
    (fun inode => (reg.inodes.get inode).isSome ∧ inode ∉ dying)
  rw [Finset.card_range] at bound
  exact bound

variable {holds pins : Nat → Nat}

theorem Counts.inodeUnref {inode : Nat} (counts : Counts reg [] (plus holds [inode]) pins)
    (readers : ReadersHold reg [] holds pins)
    : Counts (inodeUnref reg inode) [] holds pins ∧ Shrinks [] reg (inodeUnref reg inode) :=
  inodeUnrefDepth_releases reg.inodes.next [] reg holds pins inode counts readers
    (awake_le_next reg [])

theorem Counts.direntUnref {entry : Nat} (counts : Counts reg [] holds (plus pins [entry]))
    (readers : ReadersHold reg [] holds pins)
    : Counts (direntUnref reg entry) [] holds pins ∧ Shrinks [] reg (direntUnref reg entry) := by
  obtain ⟨found, here⟩ := counts.pinned entry (by rw [plus_self]; omega)
  have releases : Releases Native.inodeUnref [] reg.inodes.next := by
    intro other holds' pins' inode countsNow readersNow _
    exact countsNow.inodeUnref readersNow
  exact counts.direntPut releases readers (awake_le_next reg []) here (by simp)

end Panuti.Native
