import Mathlib.Data.List.Permutation
import Panuti.Native.Runs

/-! Dropping the entry that a rename replaces, inode by inode: only the inode it named and, where
that was the last name of an empty directory, the count of the parent are touched.
-/

namespace Panuti.Native

open Panuti.Kernel (Errno HandleOps InodeType)

variable {reg : Registry} {holds pins : Nat → Nat}

-- References that are not the last

theorem inodeUnrefDepth_more {inode fuel : Nat} {node : Inode}
    (here : reg.inodes.get inode = some node) (more : node.refcount ≠ 1)
    : inodeUnrefDepth (fuel + 1) reg inode
      = reg.modifyInode inode (fun was => { was with refcount := node.refcount - 1 }) := by
  have left : node.refcount - 1 ≠ 0 := by omega
  simp [inodeUnrefDepth, here, left]

variable {node : Inode} {dir : Nat}

theorem inodeUnrefDepth_last {inode fuel : Nat} (here : reg.inodes.get inode = some node)
    (last : node.refcount = 1)
    : inodeUnrefDepth (fuel + 1) reg inode
      = registryDestroy (inodeUnrefDepth fuel)
          (reg.modifyInode inode (fun was => { was with refcount := 0 })) inode
          { node with refcount := 0 } := by
  have left : node.refcount - 1 = 0 := by omega
  simp [inodeUnrefDepth, here, left]

theorem inodeUnref_more {inode : Nat} (here : reg.inodes.get inode = some node)
    (more : node.refcount ≠ 1)
    : inodeUnref reg inode
      = reg.modifyInode inode (fun was => { was with refcount := node.refcount - 1 }) := by
  have positive : 0 < reg.inodes.next := Nat.lt_of_le_of_lt (Nat.zero_le inode) (Arena.lt_next here)
  obtain ⟨fuel, next⟩ := Nat.exists_eq_succ_of_ne_zero (Nat.ne_of_gt positive)
  rw [inodeUnref, next]
  exact inodeUnrefDepth_more here more

/-- A directory in use that a `..` names, too, has a count of two at least. -/
theorem Sound.two_le_refcount {up sub : Nat} {upFound : Dirent} (sound : Sound reg holds pins)
    (here : reg.inodes.get dir = some node) (isDir : reg.isDir dir = true)
    (live : reg.isDeleted dir = false) (hasUp : reg.Has sub up upFound) (apart : sub ≠ dir)
    (names : upFound.inode = dir) (dots : upFound.name = dotdot)
    : 2 ≤ node.refcount := by
  have count := (sound.counts.counted dir (by simp) node here).2
  have unlisted {parent entry : Nat} {found : Dirent} (has : reg.Has parent entry found)
      (different : parent ≠ dir)
      : entry ∉ node.children := by
    intro member
    obtain ⟨⟨owner, there, listed⟩, _⟩ := has
    exact different (sound.counts.owner parent dir owner node entry there here listed member)
  have one {entry : Nat} {found : Dirent} (present : reg.dirents.get entry = some found)
      (names : found.inode = dir)
      : reg.dirents.weigh (naming dir) entry = 1 := by
    rw [Arena.weigh_of_some present, naming, if_pos names]
  by_cases atRoot : dir = reg.root
  · have held := sound.rootHeld
    rw [← atRoot] at held
    have more : ((up :: node.children).map (reg.dirents.weigh (naming dir))).sum
        ≤ reg.namings dir :=
      Arena.sum_weigh_le _
        (List.nodup_cons.mpr ⟨unlisted hasUp apart, sound.counts.nodup dir node here⟩)
    rw [List.map_cons, List.sum_cons, one hasUp.2 names] at more
    rw [Registry.selfLinks] at count
    omega
  · obtain ⟨parent, entry, found, has, plain, target⟩ := sound.tree.named dir isDir live atRoot
    have parentApart : parent ≠ dir := by
      rintro rfl
      exact sound.tree.target_ne isDir has plain target
    have entryApart : up ≠ entry := by
      rintro rfl
      obtain rfl := Option.some.inj (hasUp.2.symm.trans has.2)
      rw [dots, dotdot_isDotName] at plain
      cases plain
    have nodup : (up :: entry :: node.children).Nodup := by
      refine List.nodup_cons.mpr ⟨?_, List.nodup_cons.mpr
        ⟨unlisted has parentApart, sound.counts.nodup dir node here⟩⟩
      rw [List.mem_cons, not_or]
      exact ⟨entryApart, unlisted hasUp apart⟩
    have more : ((up :: entry :: node.children).map (reg.dirents.weigh (naming dir))).sum
        ≤ reg.namings dir :=
      Arena.sum_weigh_le _ nodup
    rw [List.map_cons, List.sum_cons, List.map_cons, List.sum_cons, one hasUp.2 names,
      one has.2 target] at more
    rw [Registry.selfLinks] at count
    omega

-- Destroying an empty directory

/-- What the loop of `registry_destroy` leaves of a directory that holds its two dots only. -/
structure DotsPut (reg after : Registry) (parent own up : Nat) (left : Int) : Prop where
  inodes
    : after.inodes = reg.inodes.modify parent (fun was => { was with refcount := left })
  dirents : ∀ entry, entry ≠ own → entry ≠ up → after.dirents.get entry = reg.dirents.get entry
  count : after.direntCount = reg.direntCount - 2

theorem putDots {unref : Registry → Nat → Registry} {gone parent self up : Nat} {left : Int}
    {selfFound upFound : Dirent} {children : List Nat}
    (drops
      : ∀ other, other.inodes = reg.inodes
        → unref other parent
          = other.modifyInode parent (fun was => { was with refcount := left }))
    (hasSelf : reg.dirents.get self = some selfFound) (selfNames : selfFound.inode = gone)
    (selfLast : selfFound.refcount = 1)
    (hasUp : reg.dirents.get up = some upFound) (upNames : upFound.inode = parent)
    (upLast : upFound.refcount = 1)
    (apart : self ≠ up) (different : parent ≠ gone)
    (dots : children = [self, up] ∨ children = [up, self])
    : DotsPut reg
        (children.foldl
          (fun reg entry => direntPut unref reg entry (decide (reg.target entry ≠ some gone))) reg)
        parent self up left := by
  -- what the loop does with each of the two, whatever else was freed before
  have putSelf {other : Registry} (present : other.dirents.get self = some selfFound)
      : direntPut unref other self (decide (other.target self ≠ some gone))
        = { other with
            dirents := other.dirents.free self, direntCount := other.direntCount - 1 } := by
    simp [direntPut, Registry.target, present, selfNames, selfLast]
  have putUp (other : Registry) (present : other.dirents.get up = some upFound)
      (same : other.inodes = reg.inodes)
      : direntPut unref other up (decide (other.target up ≠ some gone))
        = ({ other with
            dirents := other.dirents.free up
            direntCount := other.direntCount - 1 } : Registry).modifyInode parent
              (fun was => { was with refcount := left }) := by
    have names : other.target up ≠ some gone := by
      simp [Registry.target, present, upNames, different]
    simp only [direntPut, present, upLast, upNames, decide_eq_true names]
    exact drops _ same
  rcases dots with rfl | rfl
  · simp only [List.foldl_cons, List.foldl_nil]
    rw [putSelf hasSelf, putUp { reg with
      dirents := reg.dirents.free self, direntCount := reg.direntCount - 1 }
      ((Arena.get_free_of_ne apart.symm).trans hasUp) rfl]
    refine ⟨rfl, ?_, by simp [Registry.modifyInode]; omega⟩
    intro entry notSelf notUp
    exact (Arena.get_free_of_ne notUp).trans (Arena.get_free_of_ne notSelf)
  · simp only [List.foldl_cons, List.foldl_nil]
    rw [putUp reg hasUp rfl, putSelf ((Arena.get_free_of_ne apart).trans hasSelf)]
    refine ⟨rfl, ?_, by simp [Registry.modifyInode]; omega⟩
    intro entry notSelf notUp
    exact (Arena.get_free_of_ne notSelf).trans (Arena.get_free_of_ne notUp)

theorem Sound.dots {dir : Nat} {node : Inode} (sound : Sound reg holds pins)
    (here : reg.inodes.get dir = some node) (isDir : reg.isDir dir = true)
    (empty : ∀ other found, reg.Has dir other found → isDotName found.name = true)
    : ∃ self selfFound up upFound,
        reg.Has dir self selfFound ∧ selfFound.name = dot
        ∧ reg.Has dir up upFound ∧ upFound.name = dotdot
        ∧ self ≠ up
        ∧ (node.children = [self, up] ∨ node.children = [up, self]) := by
  obtain ⟨self, selfFound, hasSelf, selfName⟩ := sound.tree.self dir isDir
  obtain ⟨up, upFound, hasUp, upName⟩ := sound.tree.parent dir isDir
  have member {entry : Nat} {found : Dirent} (has : reg.Has dir entry found)
      : entry ∈ node.children := by
    obtain ⟨⟨other, there, inOther⟩, _⟩ := has
    obtain rfl := Option.some.inj (here.symm.trans there)
    exact inOther
  have apart : self ≠ up := by
    rintro rfl
    obtain rfl := Option.some.inj (hasSelf.2.symm.trans hasUp.2)
    rw [selfName] at upName
    exact absurd upName (by decide)
  have only (entry : Nat) (inNode : entry ∈ node.children) : entry = self ∨ entry = up := by
    obtain ⟨found, has⟩ := sound.counts.has here inNode
    rcases isDotName_cases (empty entry found has) with named | named
    · exact .inl (sound.tree.distinct dir entry self found selfFound has hasSelf
        (named.trans selfName.symm))
    · exact .inr (sound.tree.distinct dir entry up found upFound has hasUp
        (named.trans upName.symm))
  refine ⟨self, selfFound, up, upFound, hasSelf, selfName, hasUp, upName, apart, ?_⟩
  have nodup := sound.counts.nodup dir node here
  have perm : node.children.Perm [self, up] := by
    apply (List.perm_ext_iff_of_nodup nodup (by simp [apart])).mpr
    intro entry
    simp only [List.mem_cons, List.not_mem_nil, or_false]
    constructor
    · exact only entry
    · rintro (rfl | rfl)
      · exact member hasSelf
      · exact member hasUp
  exact List.perm_pair.mp perm

-- Dropping the entry

/-- The entries that are freed where the list's reference to an entry is dropped. -/
def Registry.freedBy (reg : Registry) (entry : Nat) : Nat :=
  match reg.dirents.get entry with
  | none => 0
  | some found =>
      if found.refcount ≠ 1 then 0
      else
        match reg.inodes.get found.inode with
        | none => 1
        | some node => if node.refcount = 1 then 1 + node.children.length else 1

/-- What dropping an entry leaves, inode by inode. -/
structure DroppedExactly (reg after : Registry) (dir entry gone : Nat) : Prop where
  inodes
    : ∀ inode, inode ≠ gone
      → ∃ refcount : Inode → Int,
          after.inodes.get inode
            = (reg.inodes.get inode).map (fun was =>
                { was with
                  refcount := refcount was
                  children := if inode = dir then was.children.erase entry else was.children })
          ∧ (inode ≠ dir → ∀ was, refcount was = was.refcount)
  dirents
    : ∀ other, other ≠ entry
      → (∀ node, reg.inodes.get gone = some node → other ∉ node.children)
      → after.dirents.get other = reg.dirents.get other
  count : after.direntCount = reg.direntCount - reg.freedBy entry

/-- The registry once the entry is off its list and its directory marked. -/
theorem marked_spec {dir entry : Nat} {found : Dirent}
    (present : reg.dirents.get entry = some found)
    : let middle := markDeleted (reg.modifyInode dir (fun node =>
        { node with children := node.children.erase entry })) entry
      (∀ inode, middle.inodes.get inode
        = (reg.inodes.get inode).map (fun was =>
            { was with
              deleted := was.deleted || (decide (inode = found.inode) && decide (was.type = .dir))
              children := if inode = dir then was.children.erase entry else was.children }))
      ∧ middle.dirents = reg.dirents
      ∧ middle.direntCount = reg.direntCount := by
  have names : (reg.modifyInode dir (fun node =>
      { node with children := node.children.erase entry })).target entry = some found.inode := by
    simp [Registry.target, Registry.modifyInode, present]
  have sameDir : (reg.modifyInode dir (fun node =>
      { node with children := node.children.erase entry })).isDir found.inode
      = reg.isDir found.inode := isDir_modifyInode (fun _ => rfl)
  simp only [markDeleted, names, sameDir]
  by_cases isDir : reg.isDir found.inode = true
  · rw [if_pos isDir]
    refine ⟨?_, rfl, rfl⟩
    intro inode
    simp only [Registry.modifyInode, Arena.get_modify]
    cases here : reg.inodes.get inode with
    | none => simp
    | some node =>
        by_cases gone : inode = found.inode
        · rw [← gone, Registry.isDir_of_get here] at isDir
          by_cases same : inode = dir
          · simp [← gone, ← same, of_decide_eq_true isDir]
          · simp [← gone, same, of_decide_eq_true isDir]
        · by_cases same : inode = dir
          · subst same
            simp [gone]
          · simp [gone, same]
  · rw [if_neg isDir]
    refine ⟨?_, rfl, rfl⟩
    intro inode
    simp only [Registry.modifyInode, Arena.get_modify]
    cases here : reg.inodes.get inode with
    | none => simp
    | some node =>
        have file : (decide (inode = found.inode) && decide (node.type = .dir)) = false := by
          by_contra both
          simp only [Bool.not_eq_false, Bool.and_eq_true, decide_eq_true_eq] at both
          obtain ⟨rfl, type⟩ := both
          rw [Registry.isDir_of_get here] at isDir
          exact isDir (decide_eq_true type)
        by_cases same : inode = dir
        · simp [same ▸ file, same]
        · simp [file, same]

theorem Sound.unheld_of_one {entry : Nat} {found : Dirent} {gone : Inode}
    (sound : Sound reg holds pins) (has : reg.Has dir entry found)
    (here : reg.inodes.get found.inode = some gone) (one : gone.refcount = 1)
    (outside : entry ∉ gone.children)
    : holds found.inode = 0 := by
  have count := (sound.counts.counted found.inode (by simp) gone here).2
  have more : ((entry :: gone.children).map (reg.dirents.weigh (naming found.inode))).sum
      ≤ reg.namings found.inode :=
    Arena.sum_weigh_le _
      (List.nodup_cons.mpr ⟨outside, sound.counts.nodup found.inode gone here⟩)
  have weight : reg.dirents.weigh (naming found.inode) entry = 1 := by
    rw [Arena.weigh_of_some has.2, naming, if_pos rfl]
  rw [List.map_cons, List.sum_cons, weight] at more
  rw [Registry.selfLinks] at count
  omega

/-- Dropping an entry of a file or of an empty directory touches the inode it named, its own
directory, and nothing else.
-/
theorem Sound.drop_exactly {entry : Nat} {found : Dirent} (sound : Sound reg holds pins)
    (isDir : reg.isDir dir = true) (live : reg.isDeleted dir = false)
    (has : reg.Has dir entry found) (plain : isDotName found.name = false)
    (empty
      : reg.isDir found.inode = true
        → ∀ other otherFound, reg.Has found.inode other otherFound
        → isDotName otherFound.name = true)
    : DroppedExactly reg
        (direntUnref (markDeleted (reg.modifyInode dir (fun node =>
          { node with children := node.children.erase entry })) entry) entry)
        dir entry found.inode := by
  obtain ⟨node, here, member⟩ := has.1
  have notSelf := sound.tree.target_ne isDir has plain
  obtain ⟨nodes, dirents, count⟩ := @marked_spec reg dir entry _ has.2
  generalize markDeleted (reg.modifyInode dir (fun node =>
    { node with children := node.children.erase entry })) entry = middle
    at nodes dirents count ⊢
  have present : middle.dirents.get entry = some found := by
    rw [dirents]
    exact has.2
  have kept (inode : Nat) (apart : inode ≠ found.inode)
      : middle.inodes.get inode
        = (reg.inodes.get inode).map (fun was =>
            { was with
              refcount := was.refcount
              children := if inode = dir then was.children.erase entry else was.children }) := by
    rw [nodes]
    simp [apart]
  obtain ⟨gone, goneHere⟩ := sound.counts.target entry found has.2
  obtain ⟨marked, goneMarked, markedType, markedCount, markedChildren⟩
      : ∃ marked, middle.inodes.get found.inode = some marked
        ∧ marked.type = gone.type
        ∧ marked.refcount = gone.refcount
        ∧ marked.children = gone.children := by
    rw [nodes, goneHere]
    exact ⟨_, rfl, rfl, rfl, by simp [notSelf]⟩
  simp only [direntUnref, direntPut, present]
  by_cases more : found.refcount - 1 ≠ 0
  · rw [if_pos more]
    refine ⟨?_, ?_, ?_⟩
    · intro inode apart
      exact ⟨fun was => was.refcount, kept inode apart, fun _ _ => rfl⟩
    · intro other different _
      rw [← dirents]
      exact Arena.get_modify_of_ne different
    · have pinned : found.refcount ≠ 1 := by omega
      simp [Registry.modifyDirent, Registry.freedBy, has.2, pinned, count]
  rw [if_neg more]
  have last : found.refcount = 1 := by
    have := (sound.counts.entryCount entry found has.2).1
    omega
  have freedOthers {other : Nat} (different : other ≠ entry)
      : (middle.dirents.free entry).get other = reg.dirents.get other := by
    rw [← dirents]
    exact Arena.get_free_of_ne different
  have pinless : reg.freedBy entry
      = if gone.refcount = 1 then 1 + gone.children.length else 1 := by
    simp [Registry.freedBy, has.2, last, goneHere]
  simp only [if_true]
  generalize freedIs : ({ middle with
    dirents := middle.dirents.free entry
    direntCount := middle.direntCount - 1 } : Registry) = freed
  have freedInodes : freed.inodes = middle.inodes := by rw [← freedIs]
  have freedEntries {other : Nat} (different : other ≠ entry)
      : freed.dirents.get other = reg.dirents.get other := by
    rw [← freedIs]
    exact freedOthers different
  have freedCount : freed.direntCount = reg.direntCount - 1 := by rw [← freedIs, ← count]
  rw [← freedInodes] at goneMarked
  by_cases others : gone.refcount ≠ 1
  · rw [inodeUnref_more goneMarked (by rw [markedCount]; exact others)]
    refine ⟨?_, fun other different _ => freedEntries different, ?_⟩
    · intro inode apart
      refine ⟨fun was => was.refcount, ?_, fun _ _ => rfl⟩
      refine (Arena.get_modify_of_ne apart).trans ?_
      rw [freedInodes]
      exact kept inode apart
    · rw [pinless, if_neg others]
      exact freedCount
  rw [ne_eq, not_not] at others
  -- the last reference is gone: the inode is destroyed, with its dots where it has any
  obtain ⟨fuel, next⟩ : ∃ fuel, freed.inodes.next = fuel + 2 := by
    have goneBelow := Arena.lt_next goneMarked
    have dirBelow : dir < freed.inodes.next := by
      rw [freedInodes]
      exact Arena.lt_next ((kept dir notSelf.symm).trans (by rw [here]; rfl))
    exact ⟨freed.inodes.next - 2, by omega⟩
  rw [inodeUnref, next, inodeUnrefDepth_last goneMarked (markedCount.trans others)]
  generalize dyingIs : freed.modifyInode found.inode (fun node => { node with refcount := 0 })
    = dying
  have dyingInodes {inode : Nat} (apart : inode ≠ found.inode)
      : dying.inodes.get inode = freed.inodes.get inode := by
    rw [← dyingIs]
    exact Arena.get_modify_of_ne apart
  have dyingEntries : dying.dirents = freed.dirents := by rw [← dyingIs]; rfl
  have dyingCount : dying.direntCount = freed.direntCount := by rw [← dyingIs]; rfl
  simp only [registryDestroy, markedType, markedChildren]
  by_cases type : gone.type = .dir
  · rw [if_pos type]
    have goneDir : reg.isDir found.inode = true := Registry.isDir_iff.mpr ⟨gone, goneHere, type⟩
    obtain ⟨self, selfFound, up, upFound, hasSelf, selfName, hasUp, upName, apart, children⟩ :=
      sound.dots goneHere goneDir (empty goneDir)
    have upNames : upFound.inode = dir := by
      rw [← sound.tree.parentOf hasUp upName]
      exact (sound.tree.child dir entry found has plain goneDir).2.2
    have inGone {other : Nat} {otherFound : Dirent} (hasOther : reg.Has found.inode other otherFound)
        : other ∈ gone.children := by
      obtain ⟨⟨owner, there, inOwner⟩, _⟩ := hasOther
      obtain rfl := Option.some.inj (goneHere.symm.trans there)
      exact inOwner
    have notEntry {other : Nat} (inside : other ∈ gone.children) : other ≠ entry := by
      rintro rfl
      exact notSelf (sound.counts.owner found.inode dir gone node other goneHere here inside member)
    have noHolder := sound.unheld_of_one has goneHere others (fun inside => notEntry inside rfl)
    have lastEntry {other : Nat} {otherFound : Dirent}
        (hasOther : reg.Has found.inode other otherFound)
        : otherFound.refcount = 1 := by
      have pinned := sound.readers found.inode (by simp) gone goneHere other (inGone hasOther)
      have listed := (sound.counts.entryCount other otherFound hasOther.2).2.1
        ⟨found.inode, gone, by simp, goneHere, inGone hasOther⟩
      omega
    have presentStill {other : Nat} {otherFound : Dirent}
        (hasOther : reg.Has found.inode other otherFound)
        : dying.dirents.get other = some otherFound := by
      rw [dyingEntries, freedEntries (notEntry (inGone hasOther))]
      exact hasOther.2
    have dirStill : dying.inodes.get dir = some
        { node with refcount := node.refcount, children := node.children.erase entry } := by
      rw [dyingInodes notSelf.symm, freedInodes, kept dir notSelf.symm, here]
      simp
    have twice := sound.two_le_refcount here isDir live hasUp notSelf upNames upName
    have drops (other : Registry) (same : other.inodes = dying.inodes)
        : inodeUnrefDepth (fuel + 1) other dir
          = other.modifyInode dir (fun was => { was with refcount := node.refcount - 1 }) := by
      rw [← same] at dirStill
      have dropped := @inodeUnrefDepth_more other dir fuel _ dirStill
        (show node.refcount ≠ 1 by omega)
      exact dropped
    have put := putDots drops (presentStill hasSelf)
      (sound.tree.selfTarget found.inode self selfFound hasSelf selfName) (lastEntry hasSelf)
      (presentStill hasUp) upNames (lastEntry hasUp) apart notSelf.symm children
    refine ⟨?_, ?_, ?_⟩
    · intro inode apartGone
      refine ⟨fun was => if inode = dir then node.refcount - 1 else was.refcount, ?_, ?_⟩
      · refine (Arena.get_free_of_ne apartGone).trans ?_
        rw [put.inodes, Arena.get_modify, dyingInodes apartGone, freedInodes, kept inode apartGone]
        by_cases same : inode = dir
        · subst same
          simp [here]
        · simp [same]
      · exact fun different _ => if_neg different
    · intro other different outside
      have apartFrom := outside gone goneHere
      refine (put.dirents other ?_ ?_).trans ?_
      · rintro rfl
        exact apartFrom (inGone hasSelf)
      · rintro rfl
        exact apartFrom (inGone hasUp)
      · rw [dyingEntries, freedEntries different]
    · have two : gone.children.length = 2 := by
        rcases children with same | same <;> rw [same] <;> rfl
      rw [pinless, if_pos others, two]
      refine put.count.trans ?_
      rw [dyingCount, freedCount]
      omega
  · rw [if_neg type]
    have noChildren := sound.counts.files found.inode gone goneHere type
    refine ⟨?_, ?_, ?_⟩
    · intro inode apart
      refine ⟨fun was => was.refcount, ?_, fun _ _ => rfl⟩
      refine (Arena.get_free_of_ne apart).trans ((dyingInodes apart).trans ?_)
      rw [freedInodes]
      exact kept inode apart
    · intro other different _
      rw [← freedEntries different, ← dyingEntries]
    · rw [pinless, if_pos others, noChildren]
      exact dyingCount.trans freedCount

end Panuti.Native
