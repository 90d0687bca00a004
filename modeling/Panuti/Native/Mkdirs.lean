import Panuti.Native.Replaces

/-! `registry_mkdir_at` beside `registry_resolve` in the native tree. The call splits its path
into a parent and a last component without regard to slashes at the end, and then walks the
whole path, slashes included.
-/

namespace Panuti.Native

open Panuti.Kernel (InodeType)

variable {reg : Registry} {holds pins : Nat → Nat}

-- Splitting a path

/-- A path with a last component: what is before it, and the slashes behind it. The front is
the components before the last one.
-/
structure Parts (path before : Path) (name : Name) (slashes : Nat) (front : List Name)
    : Prop where
  split : splitLast path = (before, name)
  whole : path = before ++ name ++ List.replicate slashes '/'
  named : name ≠ []
  plain : '/' ∉ name
  stripped : stripSlashes path = before ++ name
  alone : before = [] → front = []
  parent : before ≠ [] → before.splitOn '/' = front ++ [[]]
  components
    : ∀ more, (before ++ name ++ List.replicate more '/').splitOn '/'
        = front ++ name :: List.replicate more []

theorem splitOn_slashes (more : Nat) {name : Name} (plain : '/' ∉ name)
    : (name ++ List.replicate more '/').splitOn '/' = name :: List.replicate more [] := by
  induction more generalizing name with
  | zero => rw [List.replicate_zero, List.append_nil, List.splitOn_eq_singleton plain]; rfl
  | succ more ih =>
      rw [List.replicate_succ, List.splitOn_append_cons_self_of_not_mem plain, List.replicate_succ]
      exact congrArg (name :: ·) (ih List.not_mem_nil)

variable {path : Path} {current : Nat} {component : Name}

theorem stripSlashes_slashes (some : path ≠ []) (more : Nat)
    : stripSlashes (path ++ List.replicate more '/') = stripSlashes path := by
  have dropped : (path ++ List.replicate more '/').rdropWhile (· == '/')
      = path.rdropWhile (· == '/') := by
    induction more with
    | zero => rw [List.replicate_zero, List.append_nil]
    | succ more ih =>
        rw [List.replicate_succ', ← List.append_assoc,
          List.rdropWhile_concat_pos _ _ _ (by decide), ih]
  have first : (path ++ List.replicate more '/').take 1 = path.take 1 := by
    cases path with
    | nil => exact absurd rfl some
    | cons => rfl
  simp only [stripSlashes, dropped, first]

theorem splitLast_slashes (some : path ≠ []) (more : Nat)
    : splitLast (path ++ List.replicate more '/') = splitLast path := by
  rw [splitLast, splitLast, stripSlashes_slashes some]

/-- A path whose last component is not empty has its parts. -/
theorem exists_parts (named : (splitLast path).2 ≠ [])
    : ∃ slashes front, Parts path (splitLast path).1 (splitLast path).2 slashes front := by
  have bare : path.rdropWhile (· == '/') ≠ [] := by
    intro none
    apply named
    have slashes := List.rdropWhile_eq_nil_iff.mp none
    simp only [splitLast, stripSlashes, none]
    cases path with
    | nil => rfl
    | cons first rest =>
        obtain rfl : first = '/' := by simpa using slashes first List.mem_cons_self
        rfl
  have stripped : stripSlashes path = path.rdropWhile (· == '/') := by
    simp only [stripSlashes]
  have joined : (stripSlashes path).rdropWhile (· != '/') ++ (splitLast path).2
      = stripSlashes path := List.rdropWhile_append_rtakeWhile
  have before : (splitLast path).1 = (stripSlashes path).rdropWhile (· != '/') := by
    have shape : (splitLast path).1
        = (stripSlashes path).take ((stripSlashes path).length - (splitLast path).2.length) := rfl
    generalize (stripSlashes path).rdropWhile (· != '/') = front at joined ⊢
    rw [shape, ← joined, List.length_append, Nat.add_sub_cancel, List.take_left]
  have ends (some : (splitLast path).1 ≠ []) : ∃ front, (splitLast path).1 = front ++ ['/'] := by
    rw [before] at some ⊢
    have last : List.getLast _ some = '/' := by
      simpa using List.rdropWhile_last_not _ _ some
    exact ⟨_, (List.dropLast_append_getLast some).symm.trans (congrArg (_ ++ [·]) last)⟩
  rw [← before] at joined
  have plain : '/' ∉ (splitLast path).2 := by
    intro member
    simpa using List.mem_rtakeWhile_imp member
  have slashes : path.rtakeWhile (· == '/')
      = List.replicate (path.rtakeWhile (· == '/')).length '/' := by
    apply List.eq_replicate_of_mem
    intro c member
    simpa using List.mem_rtakeWhile_imp member
  have whole : path = (splitLast path).1 ++ (splitLast path).2
      ++ List.replicate (path.rtakeWhile (· == '/')).length '/' := by
    rw [← slashes, joined, stripped]
    exact List.rdropWhile_append_rtakeWhile.symm
  by_cases alone : (splitLast path).1 = []
  · refine ⟨_, [], rfl, whole, named, plain, joined.symm, fun _ => rfl, absurd alone, ?_⟩
    intro more
    rw [alone, List.nil_append, splitOn_slashes more plain]
    rfl
  · obtain ⟨front, shape⟩ := ends alone
    refine ⟨_, front.splitOn '/', rfl, whole, named, plain, joined.symm, (absurd · alone), ?_, ?_⟩
    · intro _
      rw [shape, List.splitOn_append_cons_self]
      rfl
    · intro more
      rw [shape, List.append_assoc, List.append_assoc, List.singleton_append,
        List.splitOn_append_cons_self, splitOn_slashes more plain]

-- Walking to the parent

def Registry.find (reg : Registry) (current : Nat) (components : List Name) : Option Nat :=
  (walkComponents reg none current components).1

theorem walkComponents_empty (create : Option (InodeType × CreateRoom)) (current : Nat)
    (rest : List Name)
    : walkComponents reg create current ([] :: rest) = walkComponents reg create current rest :=
  rfl

theorem walkComponents_file (create : Option (InodeType × CreateRoom)) (named : component ≠ [])
    (notDir : reg.isDir current = false) (rest : List Name)
    : walkComponents reg create current (component :: rest) = (none, reg) := by
  simp only [walkComponents, if_neg named, if_pos notDir]

theorem walkComponents_child {create : Option (InodeType × CreateRoom)} {child : Nat}
    (named : component ≠ []) (isDir : reg.isDir current = true)
    (found : reg.lookup current component = some child) {rest : List Name}
    (inner : rest ≠ [] ∨ create = none)
    : walkComponents reg create current (component :: rest)
      = if child ∈ reg.mountpoints then (none, reg)
        else walkComponents reg create child rest := by
  have search : (registryFinddirent reg current component).bind reg.target = some child := found
  have passes : ¬(rest = [] ∧ create.isSome = true) := by
    rintro ⟨last, creates⟩
    rcases inner with more | looks
    · exact more last
    · rw [looks] at creates
      cases creates
  simp only [walkComponents, if_neg named, isDir, Bool.true_eq_false, if_false, search,
    if_neg passes]

theorem walkComponents_taken {create : InodeType × CreateRoom} {child : Nat}
    (named : component ≠ []) (isDir : reg.isDir current = true)
    (found : reg.lookup current component = some child)
    : walkComponents reg (some create) current [component] = (none, reg) := by
  have search : (registryFinddirent reg current component).bind reg.target = some child := found
  simp only [walkComponents, if_neg named, isDir, Bool.true_eq_false, if_false, search,
    Option.isSome_some, and_self, if_true]

theorem walkComponents_missing {create : Option (InodeType × CreateRoom)} (named : component ≠ [])
    (isDir : reg.isDir current = true) (missing : reg.lookup current component = none)
    {rest : List Name} (inner : rest ≠ [] ∨ create = none)
    : walkComponents reg create current (component :: rest) = (none, reg) := by
  have search : (registryFinddirent reg current component).bind reg.target = none := missing
  simp only [walkComponents, if_neg named, isDir, Bool.true_eq_false, if_false, search]
  cases rest with
  | nil => rw [inner.resolve_left (absurd rfl)]
  | cons => rfl

theorem walkComponents_new {type : InodeType} {room : CreateRoom} (named : component ≠ [])
    (isDir : reg.isDir current = true) (live : reg.isDeleted current = false)
    (missing : reg.lookup current component = none)
    : walkComponents reg (some (type, room)) current [component]
      = walkCreate reg current component type room := by
  have search : (registryFinddirent reg current component).bind reg.target = none := missing
  simp only [walkComponents, if_neg named, isDir, Bool.true_eq_false, if_false, search, live,
    Bool.false_eq_true]

theorem walkComponents_look (current : Nat) (components : List Name)
    : walkComponents reg none current components = (reg.find current components, reg) := by
  refine Prod.ext rfl ?_
  induction components generalizing current with
  | nil => rfl
  | cons component rest ih =>
      by_cases empty : component = []
      · rw [empty, walkComponents_empty]
        exact ih current
      cases isDir : reg.isDir current with
      | false => rw [walkComponents_file none empty isDir]
      | true =>
          cases found : reg.lookup current component with
          | none => rw [walkComponents_missing empty isDir found (.inr rfl)]
          | some child =>
              rw [walkComponents_child empty isDir found (.inr rfl)]
              split
              · rfl
              · exact ih child

theorem find_slashes (current more : Nat)
    : reg.find current (List.replicate more []) = some current := by
  induction more with
  | zero => rfl
  | succ more ih =>
      rw [Registry.find, List.replicate_succ, walkComponents_empty]
      exact ih

theorem walkComponents_append (create : Option (InodeType × CreateRoom)) (current : Nat)
    (front : List Name) {back : List Name} (more : back ≠ [])
    : walkComponents reg create current (front ++ back)
      = match reg.find current front with
        | some middle => walkComponents reg create middle back
        | none => (none, reg) := by
  induction front generalizing current with
  | nil => rfl
  | cons component rest ih =>
      have inner : rest ++ back ≠ [] := List.append_ne_nil_of_right_ne_nil _ more
      rw [List.cons_append, Registry.find]
      by_cases empty : component = []
      · rw [empty, walkComponents_empty, walkComponents_empty]
        exact ih current
      cases isDir : reg.isDir current with
      | false => rw [walkComponents_file _ empty isDir, walkComponents_file _ empty isDir]
      | true =>
          cases found : reg.lookup current component with
          | none =>
              rw [walkComponents_missing empty isDir found (.inl inner),
                walkComponents_missing empty isDir found (.inr rfl)]
          | some child =>
              rw [walkComponents_child empty isDir found (.inl inner),
                walkComponents_child empty isDir found (.inr rfl)]
              by_cases covered : child ∈ reg.mountpoints
              · rw [if_pos covered, if_pos covered]
              · rw [if_neg covered, if_neg covered]
                exact ih child

section Last

variable {current : Nat} {name : Name} (isDir : reg.isDir current = true) (named : name ≠ [])
  (slashes : Nat)
  (uncovered : ∀ child, reg.lookup current name = some child → child ∉ reg.mountpoints)

include isDir named uncovered

theorem find_last
    : reg.find current (name :: List.replicate slashes []) = reg.lookup current name := by
  rw [Registry.find]
  cases found : reg.lookup current name with
  | some child =>
      rw [walkComponents_child named isDir found (.inr rfl), if_neg (uncovered child found)]
      exact find_slashes child slashes
  | none => rw [walkComponents_missing named isDir found (.inr rfl)]

theorem walkComponents_slashes (create : InodeType × CreateRoom)
    : walkComponents reg (some create) current (name :: List.replicate (slashes + 1) [])
      = (reg.lookup current name, reg) := by
  have inner : List.replicate (slashes + 1) ([] : Name) ≠ [] := by simp
  have passes (child more : Nat)
      : walkComponents reg (some create) child (List.replicate more []) = (some child, reg) := by
    induction more with
    | zero => rfl
    | succ more ih => rw [List.replicate_succ, walkComponents_empty, ih]
  cases found : reg.lookup current name with
  | some child =>
      rw [walkComponents_child named isDir found (.inl inner),
        if_neg (uncovered child found), passes]
  | none => rw [walkComponents_missing named isDir found (.inl inner)]

end Last

-- The directory that is made

def fullRoom : CreateRoom := ⟨true, ⟨true, true⟩, ⟨true, true⟩, ⟨true, true⟩⟩

/-- The tables are not full: there is a place for an inode and for its three entries. -/
structure Registry.TablesFree (reg : Registry) : Prop where
  inodes : reg.inodeCount < REG_MAX_INODES
  dirents : reg.direntCount + 3 ≤ REG_MAX_DIRENTS

def Registry.Young (reg : Registry) : Prop :=
  ∀ inode node, reg.inodes.get inode = some node
  → ∀ entry ∈ node.children, entry < reg.dirents.next

variable {after : Registry} {name : Name} {inode start : Nat}

theorem Linked.young {dir entry target : Nat} (linked : Linked reg after dir entry name target)
    (young : reg.Young)
    : after.Young := by
  intro inode node here other member
  obtain ⟨was, there, _, _, children⟩ := linked.get here
  rw [linked.nextEntry]
  rw [children] at member
  have new := linked.newEntry
  split at member
  · rcases List.mem_cons.mp member with rfl | old
    · omega
    · exact Nat.lt_succ_of_lt (young inode was there other old)
  · exact Nat.lt_succ_of_lt (young inode was there other member)

/-- A new entry is found under its name, and everything else as before. -/
theorem Linked.lookup {dir entry target : Nat} (linked : Linked reg after dir entry name target)
    (young : reg.Young) (isDir : reg.isDir dir = true) (other : Nat) (component : Name)
    : after.lookup other component
      = if other = dir ∧ component = name then some target else reg.lookup other component := by
  have old (entries : List Nat) (before : ∀ place ∈ entries, place < reg.dirents.next)
      : (entries.find? (after.named component)).bind after.target
        = (entries.find? (reg.named component)).bind reg.target := by
    have same : ∀ place ∈ entries, after.dirents.get place = reg.dirents.get place := by
      intro place member
      apply linked.others
      have := before place member
      have := linked.newEntry
      omega
    induction entries with
    | nil => rfl
    | cons first rest ih =>
        have here : after.dirents.get first = reg.dirents.get first :=
          same first List.mem_cons_self
        have named : after.named component first = reg.named component first := by
          rw [Registry.named, Registry.named, here]
        rw [List.find?_cons, List.find?_cons, named]
        split
        · rw [Option.bind_some, Option.bind_some, Registry.target, Registry.target, here]
        · exact ih (fun place member => before place (List.mem_cons_of_mem _ member))
            (fun place member => same place (List.mem_cons_of_mem _ member))
  have there := linked.nodes other
  simp only [Registry.lookup, registryFinddirent, there]
  cases here : reg.inodes.get other with
  | none =>
      have apart : other ≠ dir := by
        rintro rfl
        simp [Registry.isDir, here] at isDir
      simp [apart]
  | some node =>
      have before := young other node here
      by_cases same : other = dir
      · by_cases alike : component = name
        · simp [same, alike, Registry.named, linked.present, Registry.target]
        · have skipped : after.named component entry = false := by
            simp [Registry.named, linked.present, Ne.symm alike]
          simp only [Option.map_some, same, alike, and_false, if_false, if_true,
            List.find?_cons, skipped]
          exact old node.children before
      · simp only [Option.map_some, same, false_and, if_false]
        exact old node.children before

theorem Allocated.lookup {type : InodeType} (allocated : Allocated reg after inode type)
    (other : Nat) (component : Name)
    : after.lookup other component = reg.lookup other component := by
  have target : after.target = reg.target := by
    funext entry
    rw [Registry.target, Registry.target, allocated.dirents]
  have named : after.named component = reg.named component := by
    funext entry
    rw [Registry.named, Registry.named, allocated.dirents]
  simp only [Registry.lookup, registryFinddirent, target, named]
  by_cases new : other = inode
  · rw [new, allocated.here, allocated.absent]
    rfl
  · rw [allocated.others other new]

theorem Allocated.young {type : InodeType} (allocated : Allocated reg after inode type)
    (young : reg.Young)
    : after.Young := by
  intro other node here entry member
  rw [allocated.dirents]
  by_cases new : other = inode
  · rw [new, allocated.here] at here
    obtain rfl := Option.some.inj here
    cases member
  · rw [allocated.others other new] at here
    exact young other node here entry member

theorem registryLinkdirent_full (reg : Registry) (dir target : Nat) (name : Name)
    (named : name ≠ []) (short : name.length < REG_MAX_NAME_LEN)
    (free : reg.direntCount < REG_MAX_DIRENTS)
    : ∃ entry after, registryLinkdirent reg dir name target ⟨true, true⟩ = some (entry, after)
        ∧ Linked reg after dir entry name target
        ∧ after.direntCount = reg.direntCount + 1 := by
  have sized : ¬(name.length = 0 ∨ REG_MAX_NAME_LEN ≤ name.length) := by
    have := List.length_pos_iff.mpr named
    omega
  have links : ∃ made, registryLinkdirent reg dir name target ⟨true, true⟩ = some made :=
    (registryLinkdirent_isSome_iff sized).mpr ⟨rfl, rfl, free⟩
  obtain ⟨⟨entry, after⟩, made⟩ := links
  refine ⟨entry, after, made, (registryLinkdirent_some made).2, ?_⟩
  simp only [registryLinkdirent, if_neg sized, direntAlloc, if_neg (Nat.not_le.mpr free),
    Bool.true_eq_false, if_false, Option.some.injEq, Prod.mk.injEq] at made
  obtain ⟨-, rfl⟩ := made
  split
  · rfl
  · rfl

theorem lookup_modifyInode {change : Inode → Inode}
    (same : ∀ node, (change node).children = node.children) (dir : Nat) (name : Name)
    : (reg.modifyInode inode change).lookup dir name = reg.lookup dir name := by
  have named : (reg.modifyInode inode change).named name = reg.named name := rfl
  have target : (reg.modifyInode inode change).target = reg.target := rfl
  have node : (reg.modifyInode inode change).inodes.get dir
      = if dir = inode then (reg.inodes.get dir).map change else reg.inodes.get dir := rfl
  simp only [Registry.lookup, registryFinddirent, named, target, node]
  by_cases here : dir = inode
  · rw [if_pos here]
    cases reg.inodes.get dir with
    | none => rfl
    | some node => simp only [Option.map_some, same]
  · rw [if_neg here]

/-- What making a directory leaves: one more directory, under its name, with its parent. -/
structure Made (reg after : Registry) (parent : Nat) (name : Name) (new : Nat) : Prop where
  fresh : reg.inodes.get new = none
  isDir : ∀ other, after.isDir other = (reg.isDir other || decide (other = new))
  live : ∀ other, after.isDeleted other = reg.isDeleted other
  lookup
    : ∀ other component, other ≠ new
      → after.lookup other component
        = if other = parent ∧ component = name then some new else reg.lookup other component
  up : after.lookup new dotdot = some parent
  sameRoot : after.root = reg.root
  sameMounts : after.mountpoints = reg.mountpoints

/-- With room in the tables and in memory, the directory is made. -/
theorem walkCreate_made (counts : Counts reg [] holds pins) (free : reg.TablesFree) {parent : Nat}
    (isDir : reg.isDir parent = true) (named : name ≠ []) (short : name.length < REG_MAX_NAME_LEN)
    : ∃ after, walkCreate reg parent name .dir fullRoom = (some reg.inodes.next, after)
        ∧ Made reg after parent name reg.inodes.next := by
  have room := free.dirents
  have alloc : ∃ start, registryInodeAlloc reg .dir true = some (reg.inodes.next, start)
      ∧ start.direntCount = reg.direntCount := by
    simp only [registryInodeAlloc, if_neg (Nat.not_le.mpr free.inodes), Bool.true_eq_false,
      if_false]
    exact ⟨_, rfl, rfl⟩
  obtain ⟨start, allocates, sameCount⟩ := alloc
  obtain ⟨allocated, -⟩ := registryInodeAlloc_some allocates counts
  have fresh := allocated.absent
  generalize reg.inodes.next = new at *
  have apart : parent ≠ new := by
    rintro rfl
    simp [Registry.isDir, fresh] at isDir
  obtain ⟨entry, first, linksName, linked, firstCount⟩ :=
    registryLinkdirent_full start parent new name named short (by omega)
  obtain ⟨self, second, linksSelf, linkedSelf, secondCount⟩ :=
    registryLinkdirent_full first new new dot (by decide) (by decide) (by omega)
  obtain ⟨up, third, linksUp, linkedUp, -⟩ :=
    registryLinkdirent_full second new parent dotdot (by decide) (by decide) (by omega)
  have held : ∃ node, third.inodes.get new = some node ∧ node.refcount = 2 := by
    rw [linkedUp.nodes, linkedSelf.nodes, linked.nodes, allocated.here]
    refine ⟨_, rfl, ?_⟩
    simp [apart.symm, INT_MAX]
  obtain ⟨node, here, count⟩ := held
  have unref : ∃ change : Inode → Inode, inodeUnref third new = third.modifyInode new change
      ∧ ∀ was, (change was).type = was.type
        ∧ (change was).deleted = was.deleted
        ∧ (change was).children = was.children :=
    ⟨_, inodeUnref_more here (by omega), fun _ => ⟨rfl, rfl, rfl⟩⟩
  obtain ⟨change, kept, same⟩ := unref
  have young : start.Young := allocated.young counts.young
  have startDir : start.isDir parent = true := by
    rw [allocated.isDir, isDir, Bool.true_or]
  have firstDir : first.isDir new = true := by
    rw [linked.isDir, allocated.isDir]
    simp
  have secondDir : second.isDir new = true := by
    rw [linkedSelf.isDir, firstDir]
  have lookups (other : Nat) (component : Name)
      : (inodeUnref third new).lookup other component
        = if other = new ∧ component = dotdot then some parent
          else if other = new ∧ component = dot then some new
          else if other = parent ∧ component = name then some new
          else reg.lookup other component := by
    rw [kept, lookup_modifyInode (fun was => (same was).2.2),
      linkedUp.lookup (linkedSelf.young (linked.young young)) secondDir,
      linkedSelf.lookup (linked.young young) firstDir, linked.lookup young startDir,
      allocated.lookup]
  refine ⟨inodeUnref third new, ?_, fresh, ?_, ?_, ?_, ?_, ?_, ?_⟩
  · simp only [walkCreate, fullRoom, allocates, linksName, linksSelf, linksUp, ne_eq,
      not_true_eq_false, if_false, if_true]
  · intro other
    rw [kept, isDir_modifyInode (fun was => (same was).1), linkedUp.isDir, linkedSelf.isDir,
      linked.isDir,
      allocated.isDir]
    simp
  · intro other
    rw [kept, isDeleted_modifyInode (fun was => (same was).2.1), linkedUp.isDeleted,
      linkedSelf.isDeleted,
      linked.isDeleted, allocated.isDeleted]
  · intro other component different
    rw [lookups, if_neg (different ·.1), if_neg (different ·.1)]
  · rw [lookups, if_pos ⟨rfl, rfl⟩]
  · rw [kept]
    exact linkedUp.sameRoot.trans
      (linkedSelf.sameRoot.trans (linked.sameRoot.trans allocated.sameRoot))
  · rw [kept]
    exact linkedUp.sameMounts.trans
      (linkedSelf.sameMounts.trans (linked.sameMounts.trans allocated.sameMounts))

-- The parent

def Registry.base (reg : Registry) (start : Nat) (path : Path) : Nat :=
  if path.head? = some '/' then reg.root else start

/-- The inodes that a walk comes by, as far as it gets. -/
def Registry.trail (reg : Registry) : Nat → List Name → List Nat
  | current, [] => [current]
  | current, component :: rest =>
      if component = [] then reg.trail current rest
      else
        current ::
          match reg.lookup current component with
          | some child => reg.trail child rest
          | none => []

/-- The path stays in the native tree: it comes by no covered directory. -/
def Registry.OnNative (reg : Registry) (start : Nat) (path : Path) : Prop :=
  ∀ inode ∈ reg.trail (reg.base start path) (path.splitOn '/'), inode ∉ reg.mountpoints

/-- What `registry_resolve` finds for the parent of a path; a path of one component stands in
the directory it starts at.
-/
def Registry.parentIn (reg : Registry) (start : Nat) (path : Path) : Option Nat :=
  let (before, name) := splitLast path
  if name = [] then none
  else registryResolve reg start (if before = [] then dot else before)

/-- The parent of a path exists, and entries can be made in it. -/
structure Registry.OpenParent (reg : Registry) (start : Nat) (path : Path) (parent : Nat)
    : Prop where
  found : reg.parentIn start path = some parent
  isDir : reg.isDir parent = true
  live : reg.isDeleted parent = false

theorem mem_trail_start (current : Nat) (components : List Name)
    : current ∈ reg.trail current components := by
  induction components with
  | nil => exact List.mem_cons_self
  | cons component rest ih =>
      rw [Registry.trail]
      split
      · exact ih
      · exact List.mem_cons_self

/-- A walk goes on from where its front leads. -/
theorem mem_trail {middle : Nat} {front back : List Name}
    (found : reg.find current front = some middle) (member : inode ∈ reg.trail middle back)
    : inode ∈ reg.trail current (front ++ back) := by
  induction front generalizing current with
  | nil =>
      obtain rfl : current = middle := Option.some.inj found
      exact member
  | cons component rest ih =>
      rw [List.cons_append, Registry.trail]
      by_cases empty : component = []
      · rw [if_pos empty]
        rw [Registry.find, empty, walkComponents_empty] at found
        exact ih found
      rw [if_neg empty]
      rw [Registry.find] at found
      cases isDir : reg.isDir current with
      | false =>
          rw [walkComponents_file none empty isDir] at found
          cases found
      | true =>
          cases child : reg.lookup current component with
          | none =>
              rw [walkComponents_missing empty isDir child (.inr rfl)] at found
              cases found
          | some next =>
              rw [walkComponents_child empty isDir child (.inr rfl)] at found
              by_cases covered : next ∈ reg.mountpoints
              · rw [if_pos covered] at found
                cases found
              · rw [if_neg covered] at found
                exact List.mem_cons_of_mem _ (ih found)

theorem base_congr {other : Path} (same : path.head? = other.head?)
    : reg.base start path = reg.base start other := by
  rw [Registry.base, Registry.base, same]

theorem registryResolve_eq (some_ : path ≠ []) (uncovered : reg.base start path ∉ reg.mountpoints)
    : registryResolve reg start path
      = (reg.find (reg.base start path) (path.splitOn '/')).filter (fun found =>
          !decide (1 < path.length ∧ path.getLast? = some '/' ∧ reg.isDir found = false)) := by
  have looks : walkComponents reg none (reg.base start path) (path.splitOn '/')
      = (reg.find (reg.base start path) (path.splitOn '/'), reg) := walkComponents_look _ _
  rw [registryResolve, walk, if_neg some_]
  simp only [Registry.base] at uncovered looks ⊢
  simp only [if_neg uncovered, looks]
  generalize reg.find _ _ = outcome
  cases outcome with
  | none => rfl
  | some found =>
      simp only [Option.filter]
      split
      · rename_i slashed
        simp [slashed]
      · rename_i slashed
        simp [slashed]

/-- `.` is the directory itself. -/
theorem Tree.registryResolve_dot (tree : Tree reg) (uncovered : start ∉ reg.mountpoints)
    : registryResolve reg start dot = if reg.isDir start then some start else none := by
  rw [registryResolve_eq (by decide) uncovered]
  have components : dot.splitOn '/' = dot :: List.replicate 0 [] := rfl
  rw [components]
  cases isDir : reg.isDir start with
  | false =>
      have nothing : reg.find start (dot :: List.replicate 0 []) = none := by
        rw [Registry.find, walkComponents_file none (by decide) isDir]
      exact congrArg (Option.filter _) nothing
  | true =>
      obtain ⟨entry, found, has, named⟩ := tree.self start isDir
      have self : reg.lookup start dot = some start :=
        tree.lookup_iff.mpr ⟨entry, found, has, named, tree.selfTarget start entry found has named⟩
      have stays : ∀ child, reg.lookup start dot = some child → child ∉ reg.mountpoints := by
        intro child same
        rw [self] at same
        obtain rfl := Option.some.inj same
        exact uncovered
      have reached : reg.find start (dot :: List.replicate 0 []) = some start := by
        rw [find_last isDir (by decide) 0 stays, self]
      exact congrArg (Option.filter _) reached

section Parent

variable {path before : Path} {name : Name} {slashes start parent : Nat} {front : List Name}

theorem Parts.nonempty (parts : Parts path before name slashes front) : path ≠ [] := by
  rw [parts.whole]
  simp [parts.named]

theorem Parts.more (parts : Parts path before name slashes front) (more : Nat)
    : Parts (path ++ List.replicate more '/') before name (slashes + more) front where
  split := by rw [splitLast_slashes parts.nonempty, parts.split]
  whole := by
    conv_lhs => rw [parts.whole]
    rw [List.append_assoc, List.replicate_append_replicate]
  named := parts.named
  plain := parts.plain
  stripped := by rw [stripSlashes_slashes parts.nonempty, parts.stripped]
  alone := parts.alone
  parent := parts.parent
  components := parts.components

theorem Parts.base_alone (parts : Parts path before name slashes front) (alone : before = [])
    : reg.base start path = start := by
  have relative : path.head? ≠ some '/' := by
    rw [parts.whole, alone, List.nil_append]
    obtain ⟨first, rest, shape⟩ := List.exists_cons_of_ne_nil parts.named
    intro absolute
    rw [shape] at absolute
    obtain rfl : first = '/' := by simpa using absolute
    exact parts.plain (by rw [shape]; exact List.mem_cons_self)
  rw [Registry.base, if_neg relative]

theorem Parts.base_before (parts : Parts path before name slashes front) (inner : before ≠ [])
    : reg.base start before = reg.base start path := by
  apply base_congr
  rw [parts.whole, List.append_assoc, List.head?_append_of_ne_nil _ inner]

theorem Parts.parent_iff (tree : Tree reg) (parts : Parts path before name slashes front)
    (uncovered : reg.base start path ∉ reg.mountpoints) (isDir : reg.isDir parent = true)
    : reg.parentIn start path = some parent
      ↔ reg.find (reg.base start path) front = some parent := by
  simp only [Registry.parentIn, parts.split, if_neg parts.named]
  by_cases alone : before = []
  · rw [parts.base_alone alone] at uncovered ⊢
    rw [if_pos alone, tree.registryResolve_dot uncovered, parts.alone alone]
    have stays : reg.find start [] = some start := rfl
    rw [stays]
    constructor
    · intro found
      split at found
      · exact found
      · cases found
    · intro found
      obtain rfl := Option.some.inj found
      rw [if_pos isDir]
  · rw [if_neg alone]
    rw [← parts.base_before alone] at uncovered ⊢
    rw [registryResolve_eq alone uncovered, parts.parent alone]
    have arrives : reg.find (reg.base start before) (front ++ [[]])
        = reg.find (reg.base start before) front := by
      rw [Registry.find, walkComponents_append none _ front (by decide)]
      cases reg.find (reg.base start before) front with
      | none => rfl
      | some middle => rfl
    rw [arrives, Option.filter_eq_some_iff]
    constructor
    · exact And.left
    · intro found
      exact ⟨found, by simp [isDir]⟩

end Parent

-- The outcome of the call

/-- The two parts of a path are within their limits. -/
structure Short (path : Path) : Prop where
  before : (splitLast path).1.length < 128
  name : (splitLast path).2.length < REG_MAX_NAME_LEN

section Outcome

variable {path before : Path} {name : Name} {slashes start parent : Nat} {front : List Name}

theorem parentIn_eq (tree : Tree reg) (uncovered : reg.base start path ∉ reg.mountpoints)
    (short : Short path) (named : (splitLast path).2 ≠ [])
    : (if (splitLast path).1 = [] then some (reg.base start path)
        else if 128 ≤ (splitLast path).1.length then none
        else registryResolve reg (reg.base start path) (splitLast path).1).filter reg.isDir
      = (reg.parentIn start path).filter reg.isDir := by
  obtain ⟨slashes, front, parts⟩ := exists_parts named
  have whole : reg.parentIn start path
      = registryResolve reg start
          (if (splitLast path).1 = [] then dot else (splitLast path).1) := by
    simp only [Registry.parentIn, if_neg named]
  rw [whole]
  by_cases alone : (splitLast path).1 = []
  · rw [parts.base_alone alone] at uncovered ⊢
    rw [if_pos alone, if_pos alone, tree.registryResolve_dot uncovered]
    cases isDir : reg.isDir start with
    | true => rfl
    | false => simp [Option.filter, isDir]
  · have again : reg.base (reg.base start path) (splitLast path).1 = reg.base start path := by
      rw [parts.base_before alone]
      simp only [Registry.base]
      split
      · rfl
      · rfl
    have same : registryResolve reg (reg.base start path) (splitLast path).1
        = registryResolve reg start (splitLast path).1 := by
      rw [registryResolve_eq alone (by rw [again]; exact uncovered),
        registryResolve_eq alone (by rw [parts.base_before alone]; exact uncovered), again,
        parts.base_before alone]
    rw [if_neg alone, if_neg (Nat.not_le.mpr short.before), if_neg alone, same]

theorem registryMkdirAt_nameless (nameless : (splitLast path).2 = []) (room : CreateRoom)
    : registryMkdirAt reg start path room = (.error .minusOne, reg) := by
  simp only [registryMkdirAt, if_pos (Or.inr nameless : path = [] ∨ (splitLast path).2 = [])]

/-- Without a parent nothing is made. -/
theorem registryMkdirAt_closed (tree : Tree reg)
    (uncovered : reg.base start path ∉ reg.mountpoints) (short : Short path)
    (closed : ∀ parent, ¬reg.OpenParent start path parent) (room : CreateRoom)
    : registryMkdirAt reg start path room = (.error .minusOne, reg) := by
  by_cases named : (splitLast path).2 = []
  · exact registryMkdirAt_nameless named room
  have some_ : path ≠ [] := by
    rintro rfl
    exact named rfl
  have looked := parentIn_eq tree uncovered short named
  rw [registryMkdirAt]
  simp only [if_neg (not_or.mpr ⟨some_, named⟩)]
  simp only [Registry.base] at looked
  split
  · rfl
  · rename_i parent found
    rw [found] at looked
    rw [if_pos]
    by_contra open_
    obtain ⟨isDir, live⟩ := not_or.mp open_
    refine closed parent ⟨?_, by simpa using isDir, by simpa using live⟩
    have kept : (some parent).filter reg.isDir = some parent := by
      simp [Option.filter, Bool.eq_true_of_not_eq_false isDir]
    rw [kept] at looked
    exact (Option.filter_eq_some_iff.mp looked.symm).1

theorem registryMkdirAt_open (tree : Tree reg)
    (uncovered : reg.base start path ∉ reg.mountpoints) (short : Short path)
    (named : (splitLast path).2 ≠ []) (openParent : reg.OpenParent start path parent)
    (room : CreateRoom)
    : registryMkdirAt reg start path room
      = match walk reg (reg.base start path) path (some (.dir, room)) with
        | (some _, reg) => (.ok (), reg)
        | (none, reg) => (.error .minusOne, reg) := by
  have some_ : path ≠ [] := by
    rintro rfl
    exact named rfl
  have looked := parentIn_eq tree uncovered short named
  rw [openParent.found] at looked
  have kept : (some parent).filter reg.isDir = some parent := by
    simp [Option.filter, openParent.isDir]
  rw [kept] at looked
  have found := (Option.filter_eq_some_iff.mp looked).1
  rw [registryMkdirAt]
  simp only [Registry.base] at found ⊢
  simp only [if_neg (not_or.mpr ⟨some_, named⟩), found, openParent.isDir, openParent.live,
    Bool.true_eq_false, Bool.false_eq_true, or_self, if_false] <;> rfl

theorem Parts.bare (parts : Parts path before name slashes front)
    : Parts (stripSlashes path) before name 0 front := by
  have some_ : before ++ name ≠ [] := List.append_ne_nil_of_right_ne_nil _ parts.named
  have strips : stripSlashes (before ++ name) = before ++ name := by
    rw [← stripSlashes_slashes some_ slashes, ← parts.whole, parts.stripped]
  rw [parts.stripped]
  refine ⟨?_, ?_, parts.named, parts.plain, strips, parts.alone, parts.parent, parts.components⟩
  · rw [← splitLast_slashes some_ slashes, ← parts.whole, parts.split]
  · rw [List.replicate_zero, List.append_nil]

theorem Parts.getLast_iff (parts : Parts path before name slashes front)
    : path.getLast? = some '/' ↔ slashes ≠ 0 := by
  rw [parts.whole]
  cases slashes with
  | zero =>
      refine iff_of_false (fun last => ?_) (fun more => more rfl)
      rw [List.replicate_zero, List.append_nil, List.getLast?_append_of_ne_nil _ parts.named]
        at last
      exact parts.plain (List.mem_of_getLast? last)
  | succ more =>
      refine iff_of_true ?_ (Nat.succ_ne_zero more)
      rw [List.replicate_succ', ← List.append_assoc, List.getLast?_concat]

theorem Parts.walkComponents (parts : Parts path before name slashes front)
    (found : reg.find (reg.base start path) front = some parent)
    (create : Option (InodeType × CreateRoom))
    : walkComponents reg create (reg.base start path) (path.splitOn '/')
      = Native.walkComponents reg create parent (name :: List.replicate slashes []) := by
  have components : path.splitOn '/' = front ++ name :: List.replicate slashes [] := by
    conv_lhs => rw [parts.whole]
    exact parts.components slashes
  rw [components, walkComponents_append create _ front (List.cons_ne_nil _ _), found]

theorem Parts.resolves (parts : Parts path before name slashes front)
    (uncovered : reg.base start path ∉ reg.mountpoints)
    (found : reg.find (reg.base start path) front = some parent)
    (isDir : reg.isDir parent = true)
    (stays : ∀ child, reg.lookup parent name = some child → child ∉ reg.mountpoints)
    : registryResolve reg start path
      = (reg.lookup parent name).filter (fun child => decide (slashes = 0) || reg.isDir child) := by
  have reached : reg.find (reg.base start path) (path.splitOn '/') = reg.lookup parent name := by
    rw [Registry.find, parts.walkComponents found]
    exact find_last isDir parts.named slashes stays
  rw [registryResolve_eq parts.nonempty uncovered, reached]
  congr 1
  funext child
  cases slashes with
  | zero => simp [parts.getLast_iff]
  | succ more =>
      have long : 1 < path.length := by
        have := List.length_pos_iff.mpr parts.named
        rw [parts.whole]
        simp only [List.length_append, List.length_replicate]
        omega
      simp [parts.getLast_iff, long]

end Outcome

-- Making and resolving

/-- The call succeeds where the path, without slashes at its end, has a parent to make entries
in and does not resolve yet, and then the path resolves to a new directory below that parent.
-/
structure MkdirAgrees (reg : Registry) (start : Nat) (path : Path) : Prop where
  succeeds
    : (registryMkdirAt reg start path fullRoom).1 = .ok ()
      ↔ (∃ parent, reg.OpenParent start path parent)
        ∧ registryResolve reg start (stripSlashes path) = none
  makes
    : ∀ after, registryMkdirAt reg start path fullRoom = (.ok (), after)
      → ∃ parent new, reg.OpenParent start path parent
        ∧ registryResolve after start path = some new
        ∧ reg.inodes.get new = none
        ∧ after.isDir new = true
        ∧ after.isDeleted new = false
        ∧ after.lookup new dotdot = some parent

/-- Slashes at the end of the path change neither the result nor what is made. -/
def SlashesIgnored (reg : Registry) (start : Nat) (path : Path) : Prop :=
  ∀ more, registryMkdirAt reg start (path ++ List.replicate more '/') fullRoom
    = registryMkdirAt reg start path fullRoom

/-- Nothing could be made: there is no parent, or something that is no directory has the name. -/
def Unmakable (reg : Registry) (start : Nat) (path : Path) : Prop :=
  (∀ parent, ¬reg.OpenParent start path parent)
  ∨ ∃ inode, registryResolve reg start (stripSlashes path) = some inode
      ∧ reg.isDir inode = false

/-- A parent of a path, with what the walk needs to arrive there. -/
structure Arrives (reg : Registry) (start : Nat) (path before : Path) (name : Name)
    (slashes : Nat) (front : List Name) (parent : Nat) : Prop where
  parts : Parts path before name slashes front
  short : Short path
  uncovered : reg.base start path ∉ reg.mountpoints
  openParent : reg.OpenParent start path parent
  found : reg.find (reg.base start path) front = some parent
  stays : ∀ child, reg.lookup parent name = some child → child ∉ reg.mountpoints

section Outcomes

variable {path before : Path} {name : Name} {slashes start parent : Nat} {front : List Name}

theorem Arrives.more (arrives : Arrives reg start path before name slashes front parent)
    (more : Nat)
    : Arrives reg start (path ++ List.replicate more '/') before name (slashes + more) front
        parent where
  parts := arrives.parts.more more
  short := by
    have same := splitLast_slashes arrives.parts.nonempty more
    exact ⟨by rw [same]; exact arrives.short.before, by rw [same]; exact arrives.short.name⟩
  uncovered := by
    rw [base_congr (List.head?_append_of_ne_nil _ arrives.parts.nonempty)]
    exact arrives.uncovered
  openParent := by
    have same := splitLast_slashes arrives.parts.nonempty more
    refine ⟨?_, arrives.openParent.isDir, arrives.openParent.live⟩
    have found := arrives.openParent.found
    simp only [Registry.parentIn, same] at found ⊢
    exact found
  found := by
    rw [base_congr (List.head?_append_of_ne_nil _ arrives.parts.nonempty)]
    exact arrives.found
  stays := arrives.stays

theorem Arrives.stripped (arrives : Arrives reg start path before name slashes front parent)
    : registryResolve reg start (stripSlashes path) = reg.lookup parent name := by
  have base : reg.base start (stripSlashes path) = reg.base start path := by
    apply base_congr
    conv_rhs => rw [arrives.parts.whole]
    rw [arrives.parts.stripped, List.head?_append_of_ne_nil _
      (List.append_ne_nil_of_right_ne_nil _ arrives.parts.named)]
  have uncovered := arrives.uncovered
  have found := arrives.found
  rw [← base] at uncovered found
  rw [arrives.parts.bare.resolves uncovered found arrives.openParent.isDir arrives.stays]
  cases reg.lookup parent name with
  | none => rfl
  | some child => rfl

/-- The call is what the walk makes of the last component. -/
theorem Arrives.mkdirAt (tree : Tree reg)
    (arrives : Arrives reg start path before name slashes front parent) (room : CreateRoom)
    : registryMkdirAt reg start path room
      = match walkComponents reg (some (.dir, room)) parent
            (name :: List.replicate slashes []) with
        | (none, reg) => (.error .minusOne, reg)
        | (some found, reg) =>
            if slashes ≠ 0 ∧ reg.isDir found = false then (.error .minusOne, reg)
            else (.ok (), reg) := by
  have named : (splitLast path).2 ≠ [] := by
    rw [arrives.parts.split]
    exact arrives.parts.named
  have base : (if path.head? = some '/' then reg.root else reg.base start path)
      = reg.base start path := by
    rw [Registry.base]
    split
    · rfl
    · rfl
  have trailing (found : Nat) (reg : Registry)
      : (1 < path.length ∧ path.getLast? = some '/' ∧ reg.isDir found = false)
        ↔ slashes ≠ 0 ∧ reg.isDir found = false := by
    rw [arrives.parts.getLast_iff]
    refine ⟨And.right, fun both => ⟨?_, both⟩⟩
    have := List.length_pos_iff.mpr arrives.parts.named
    have := both.1
    rw [arrives.parts.whole]
    simp only [List.length_append, List.length_replicate]
    omega
  rw [registryMkdirAt_open tree arrives.uncovered arrives.short named arrives.openParent, walk,
    if_neg arrives.parts.nonempty]
  simp only [base, if_neg arrives.uncovered, arrives.parts.walkComponents arrives.found, trailing]
  generalize walkComponents reg _ parent _ = outcome
  obtain ⟨found, after⟩ := outcome
  cases found with
  | none => rfl
  | some found =>
      by_cases refused : slashes ≠ 0 ∧ after.isDir found = false
      · simp only [if_pos refused]
      · simp only [if_neg refused]

theorem Arrives.slashed (tree : Tree reg)
    (arrives : Arrives reg start path before name (slashes + 1) front parent)
    : registryMkdirAt reg start path fullRoom
      = (match reg.lookup parent name with
          | some child => if reg.isDir child then .ok () else .error .minusOne
          | none => .error .minusOne,
        reg) := by
  rw [arrives.mkdirAt tree, walkComponents_slashes arrives.openParent.isDir arrives.parts.named
    slashes arrives.stays]
  cases reg.lookup parent name with
  | none => rfl
  | some child =>
      cases isDir : reg.isDir child with
      | true => simp [isDir]
      | false => simp [isDir]

theorem Arrives.taken (tree : Tree reg)
    (arrives : Arrives reg start path before name 0 front parent) {child : Nat}
    (found : reg.lookup parent name = some child)
    : registryMkdirAt reg start path fullRoom = (.error .minusOne, reg) := by
  rw [arrives.mkdirAt tree, List.replicate_zero,
    walkComponents_taken arrives.parts.named arrives.openParent.isDir found]

theorem Arrives.made (tree : Tree reg) (counts : Counts reg [] holds pins)
    (free : reg.TablesFree) (arrives : Arrives reg start path before name 0 front parent)
    (missing : reg.lookup parent name = none)
    : ∃ after, registryMkdirAt reg start path fullRoom = (.ok (), after)
        ∧ Made reg after parent name reg.inodes.next := by
  have short : name.length < REG_MAX_NAME_LEN := by
    have := arrives.short.name
    rw [arrives.parts.split] at this
    exact this
  obtain ⟨after, creates, made⟩ :=
    walkCreate_made counts free arrives.openParent.isDir arrives.parts.named short
  refine ⟨after, ?_, made⟩
  rw [arrives.mkdirAt tree, List.replicate_zero, walkComponents_new arrives.parts.named
    arrives.openParent.isDir arrives.openParent.live missing, creates]
  simp

/-- The way to the parent is as it was. -/
theorem Made.find {new middle : Nat} {components : List Name}
    (made : Made reg after parent name new) (missing : reg.lookup parent name = none)
    (found : reg.find current components = some middle)
    : after.find current components = some middle := by
  induction components generalizing current with
  | nil => exact found
  | cons component rest ih =>
      rw [Registry.find] at found ⊢
      by_cases empty : component = []
      · rw [empty, walkComponents_empty] at found ⊢
        exact ih found
      cases isDir : reg.isDir current with
      | false =>
          rw [walkComponents_file none empty isDir] at found
          cases found
      | true =>
          have old : current ≠ new := by
            rintro rfl
            simp [Registry.isDir, made.fresh] at isDir
          have isDirAfter : after.isDir current = true := by
            rw [made.isDir, isDir, Bool.true_or]
          cases child : reg.lookup current component with
          | none =>
              rw [walkComponents_missing empty isDir child (.inr rfl)] at found
              cases found
          | some next =>
              have childAfter : after.lookup current component = some next := by
                rw [made.lookup current component old, if_neg, child]
                rintro ⟨rfl, rfl⟩
                rw [missing] at child
                cases child
              rw [walkComponents_child empty isDir child (.inr rfl)] at found
              rw [walkComponents_child empty isDirAfter childAfter (.inr rfl), made.sameMounts]
              by_cases covered : next ∈ reg.mountpoints
              · rw [if_pos covered] at found
                cases found
              · rw [if_neg covered] at found ⊢
                exact ih found

theorem Arrives.resolves_made {new : Nat}
    (arrives : Arrives reg start path before name slashes front parent)
    (made : Made reg after parent name new) (missing : reg.lookup parent name = none)
    (native : new ∉ reg.mountpoints)
    : registryResolve after start path = some new := by
  have base : after.base start path = reg.base start path := by
    rw [Registry.base, Registry.base, made.sameRoot]
  have uncovered : after.base start path ∉ after.mountpoints := by
    rw [base, made.sameMounts]
    exact arrives.uncovered
  have found : after.find (after.base start path) front = some parent := by
    rw [base]
    exact made.find missing arrives.found
  have isDir : after.isDir parent = true := by
    rw [made.isDir, arrives.openParent.isDir, Bool.true_or]
  have old : parent ≠ new := by
    rintro rfl
    have isDir := arrives.openParent.isDir
    simp [Registry.isDir, made.fresh] at isDir
  have lookup : after.lookup parent name = some new := by
    rw [made.lookup parent name old, if_pos ⟨rfl, rfl⟩]
  have stays : ∀ child, after.lookup parent name = some child → child ∉ after.mountpoints := by
    intro child same
    rw [lookup] at same
    obtain rfl := Option.some.inj same
    rw [made.sameMounts]
    exact native
  rw [arrives.parts.resolves uncovered found isDir stays, lookup]
  simp [Option.filter, made.isDir]

theorem Arrives.refused (tree : Tree reg)
    (arrives : Arrives reg start path before name slashes front parent)
    {child : Nat} (found : reg.lookup parent name = some child) (file : reg.isDir child = false)
    : registryMkdirAt reg start path fullRoom = (.error .minusOne, reg) := by
  cases slashes with
  | zero => exact arrives.taken tree found
  | succ slashes =>
      rw [arrives.slashed tree, found]
      simp [file]

theorem exists_arrives (tree : Tree reg) (native : reg.OnNative start path) (short : Short path)
    (openParent : reg.OpenParent start path parent)
    : ∃ slashes front,
        Arrives reg start path (splitLast path).1 (splitLast path).2 slashes front parent := by
  have named : (splitLast path).2 ≠ [] := by
    intro empty
    have found := openParent.found
    simp [Registry.parentIn, empty] at found
  obtain ⟨slashes, front, parts⟩ := exists_parts named
  have uncovered := native _ (mem_trail_start _ _)
  have found := (parts.parent_iff tree uncovered openParent.isDir).mp openParent.found
  refine ⟨slashes, front, parts, short, uncovered, openParent, found, ?_⟩
  intro child lookup
  apply native
  rw [show path.splitOn '/' = front ++ (splitLast path).2 :: List.replicate slashes [] by
    conv_lhs => rw [parts.whole]
    exact parts.components slashes]
  apply mem_trail found
  rw [Registry.trail, if_neg named, lookup]
  exact List.mem_cons_of_mem _ (mem_trail_start child _)

theorem Arrives.file_agrees (tree : Tree reg)
    (arrives : Arrives reg start path before name slashes front parent)
    {child : Nat} (found : reg.lookup parent name = some child) (file : reg.isDir child = false)
    : MkdirAgrees reg start path ∧ SlashesIgnored reg start path := by
  have refused := arrives.refused tree found file
  refine ⟨⟨?_, ?_⟩, ?_⟩
  · rw [refused, arrives.stripped, found]
    exact iff_of_false nofun (fun both => nomatch both.2)
  · intro after same
    rw [refused] at same
    cases same
  · intro more
    rw [refused, (arrives.more more).refused tree found file]

theorem Arrives.agrees (sound : Sound reg holds pins) (free : reg.TablesFree)
    (held : ∀ inode ∈ reg.mountpoints, ∃ node, reg.inodes.get inode = some node)
    (arrives : Arrives reg start path before name 0 front parent)
    : MkdirAgrees reg start path := by
  cases found : reg.lookup parent name with
  | some child =>
      have refused := arrives.taken sound.tree found
      refine ⟨?_, ?_⟩
      · rw [refused, arrives.stripped, found]
        exact iff_of_false nofun (fun both => nomatch both.2)
      · intro after same
        rw [refused] at same
        cases same
  | none =>
      obtain ⟨after, makes, made⟩ := arrives.made sound.tree sound.counts free found
      refine ⟨?_, ?_⟩
      · rw [makes, arrives.stripped, found]
        exact iff_of_true rfl ⟨⟨parent, arrives.openParent⟩, rfl⟩
      · intro other same
        rw [makes] at same
        obtain rfl : after = other := (Prod.mk.inj same).2
        have native : reg.inodes.next ∉ reg.mountpoints := by
          intro covered
          obtain ⟨node, here⟩ := held _ covered
          rw [made.fresh] at here
          cases here
        refine ⟨parent, reg.inodes.next, arrives.openParent,
          arrives.resolves_made made found native, made.fresh, ?_, ?_, made.up⟩
        · simp [made.isDir]
        · rw [made.live]
          simp [Registry.isDeleted, made.fresh]

theorem Arrives.slashes_matter (sound : Sound reg holds pins) (free : reg.TablesFree)
    (arrives : Arrives reg start path before name 0 front parent)
    (makable : ∀ child, reg.lookup parent name = some child → reg.isDir child = true)
    : ¬SlashesIgnored reg start path := by
  intro ignored
  have one := ignored 1
  have slashed := (arrives.more 1).slashed sound.tree
  cases found : reg.lookup parent name with
  | some child =>
      rw [slashed, arrives.taken sound.tree found, found] at one
      simp [makable child found] at one
  | none =>
      obtain ⟨after, makes, -⟩ := arrives.made sound.tree sound.counts free found
      rw [slashed, makes, found] at one
      cases one

theorem Arrives.disagrees (tree : Tree reg)
    (arrives : Arrives reg start path before name (slashes + 1) front parent)
    (makable : ∀ child, reg.lookup parent name = some child → reg.isDir child = true)
    : ¬MkdirAgrees reg start path := by
  intro agrees
  have succeeds := agrees.succeeds
  rw [arrives.slashed tree, arrives.stripped] at succeeds
  cases found : reg.lookup parent name with
  | some child =>
      rw [found] at succeeds
      simp [makable child found] at succeeds
  | none =>
      rw [found] at succeeds
      have made := succeeds.mpr ⟨⟨parent, arrives.openParent⟩, rfl⟩
      cases made

/-- Without a parent the call fails with any slashes. -/
theorem closed_agrees (tree : Tree reg) (native : reg.OnNative start path) (short : Short path)
    (closed : ∀ parent, ¬reg.OpenParent start path parent)
    : MkdirAgrees reg start path ∧ SlashesIgnored reg start path := by
  have uncovered := native _ (mem_trail_start _ _)
  have fails := registryMkdirAt_closed tree uncovered short closed fullRoom
  refine ⟨⟨?_, ?_⟩, ?_⟩
  · rw [fails]
    exact iff_of_false nofun (fun both => both.1.elim closed)
  · intro after same
    rw [fails] at same
    cases same
  · intro more
    rw [fails]
    by_cases empty : path = []
    · rw [empty, List.nil_append]
      apply registryMkdirAt_nameless
      cases more with
      | zero => rfl
      | succ more =>
          rw [List.replicate_succ, ← List.singleton_append,
            splitLast_slashes (List.cons_ne_nil _ _)]
          rfl
    · have same := splitLast_slashes empty more
      have base : reg.base start (path ++ List.replicate more '/') = reg.base start path :=
        base_congr (List.head?_append_of_ne_nil path empty)
      refine registryMkdirAt_closed tree (by rw [base]; exact uncovered) ⟨?_, ?_⟩ ?_ fullRoom
      · rw [same]
        exact short.before
      · rw [same]
        exact short.name
      · intro parent openParent
        refine closed parent ⟨?_, openParent.isDir, openParent.live⟩
        have found := openParent.found
        simp only [Registry.parentIn, same] at found ⊢
        exact found

end Outcomes

theorem Sound.mkdirAgrees_iff (sound : Sound reg holds pins)
    (held : ∀ inode ∈ reg.mountpoints, ∃ node, reg.inodes.get inode = some node)
    (free : reg.TablesFree) (native : reg.OnNative start path) (short : Short path)
    : (MkdirAgrees reg start path ∧ SlashesIgnored reg start path ↔ Unmakable reg start path)
      ∧ (MkdirAgrees reg start path
        ↔ path.getLast? ≠ some '/' ∨ Unmakable reg start path) := by
  by_cases closed : ∀ parent, ¬reg.OpenParent start path parent
  · have both := closed_agrees sound.tree native short closed
    exact ⟨iff_of_true both (.inl closed), iff_of_true both.1 (.inr (.inl closed))⟩
  obtain ⟨parent, openParent⟩ := not_forall_not.mp closed
  obtain ⟨slashes, front, arrives⟩ := exists_arrives sound.tree native short openParent
  by_cases file : ∃ child, reg.lookup parent (splitLast path).2 = some child
      ∧ reg.isDir child = false
  · obtain ⟨child, found, isFile⟩ := file
    have both := arrives.file_agrees sound.tree found isFile
    have unmakable : Unmakable reg start path :=
      .inr ⟨child, by rw [arrives.stripped, found], isFile⟩
    exact ⟨iff_of_true both unmakable, iff_of_true both.1 (.inr unmakable)⟩
  have makable : ∀ child, reg.lookup parent (splitLast path).2 = some child
      → reg.isDir child = true := by
    intro child found
    by_contra isFile
    exact file ⟨child, found, by simpa using isFile⟩
  have notUnmakable : ¬Unmakable reg start path := by
    rintro (none_ | ⟨child, resolves, isFile⟩)
    · exact none_ parent openParent
    · rw [arrives.stripped] at resolves
      exact file ⟨child, resolves, isFile⟩
  cases slashes with
  | zero =>
      have agrees := arrives.agrees sound free held
      have bare : path.getLast? ≠ some '/' := fun last => arrives.parts.getLast_iff.mp last rfl
      exact ⟨iff_of_false (fun both => arrives.slashes_matter sound free makable both.2)
        notUnmakable, iff_of_true agrees (.inl bare)⟩
  | succ slashes =>
      have disagrees := arrives.disagrees sound.tree makable
      have last := arrives.parts.getLast_iff.mpr (Nat.succ_ne_zero slashes)
      exact ⟨iff_of_false (fun both => disagrees both.1) notUnmakable,
        iff_of_false disagrees (not_or.mpr ⟨not_not.mpr last, notUnmakable⟩)⟩

/-- In every native tree that a run reaches, with room in its tables: a path within the limits is
made where its parent exists and it does not resolve, to a directory it then resolves to, and
slashes at its end are ignored, just where nothing could be made.
-/
theorem Run.mkdir_agrees_iff {space : Namespace} (run : Run Registry.Roomy space) (start : Nat)
    (path : Path) (free : space.reg.TablesFree) (native : space.reg.OnNative start path)
    (short : Short path)
    : (MkdirAgrees space.reg start path ∧ SlashesIgnored space.reg start path
        ↔ Unmakable space.reg start path)
      ∧ (MkdirAgrees space.reg start path
        ↔ path.getLast? ≠ some '/' ∨ Unmakable space.reg start path) :=
  run.good.sound.mkdirAgrees_iff
    (fun inode member => run.good.intact.inodes inode (.inr (.inl member))) free native short

theorem registryInit_tablesFree : registryInit.TablesFree := ⟨by decide, by decide⟩

theorem registryInit_onNative (start : Nat) (path : Path) : registryInit.OnNative start path :=
  fun _ _ => List.not_mem_nil

theorem mkdir_agrees_small : ∃ space, Run Registry.Roomy space ∧ MkdirAgrees space.reg 0 ['a'] :=
  ⟨firstNamespace, .start,
    (Run.mkdir_agrees_iff .start 0 ['a'] registryInit_tablesFree (registryInit_onNative 0 ['a'])
      ⟨by decide, by decide⟩).2.mpr (.inl (by decide))⟩

/-- In the first tree, `x/` is not made, though nothing has the name `x`. -/
theorem mkdir_slash_fails
    : ¬∀ space start path, Run Registry.Roomy space → space.reg.TablesFree
        → space.reg.OnNative start path
        → Short path
        → MkdirAgrees space.reg start path ∧ SlashesIgnored space.reg start path := by
  intro claim
  have agrees := (claim firstNamespace 0 ['x', '/'] .start registryInit_tablesFree
    (registryInit_onNative 0 _) ⟨by decide, by decide⟩).1
  have openParent : registryInit.OpenParent 0 ['x', '/'] 0 :=
    ⟨by decide +kernel, by decide +kernel, by decide +kernel⟩
  have missing : registryResolve registryInit 0 (stripSlashes ['x', '/']) = none := by
    decide +kernel
  have made := agrees.succeeds.mpr ⟨⟨0, openParent⟩, missing⟩
  have fails : (registryMkdirAt registryInit 0 ['x', '/'] fullRoom).1.toOption = none := by
    decide +kernel
  rw [show (registryMkdirAt registryInit 0 ['x', '/'] fullRoom).1 = .ok () from made] at fails
  cases fails

end Panuti.Native
