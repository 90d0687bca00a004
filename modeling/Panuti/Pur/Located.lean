import Panuti.Pur.Completeness

/-! The tree of an expression in the pools, with the numbers of its leaves: which leaves it has, how
deep it is, and that the leaves on the left of a pipe come before those on its right.
-/

namespace Panuti.Pur

open Library

-- Trees

variable {α : Type} {members : List (Tree α)} {start : Nat} {ast : Ast} {trees : List (Tree Nat)}

theorem Tree.induct {motive : Tree α → Prop} (leaf : ∀ command, motive (.leaf command))
    (group : ∀ members, (∀ tree ∈ members, motive tree) → motive (.group members))
    (pipe : ∀ left right, motive left → motive right → motive (.pipe left right))
    : ∀ tree, motive tree
  | .leaf command => leaf command
  | .group members => group members (fun tree _ => Tree.induct leaf group pipe tree)
  | .pipe left right =>
      pipe left right (Tree.induct leaf group pipe left) (Tree.induct leaf group pipe right)

def Tree.leaves {α : Type} : Tree α → List α
  | .leaf command => [command]
  | .group members => members.flatMap Tree.leaves
  | .pipe left right => left.leaves ++ right.leaves

def Tree.height {α : Type} : Tree α → Nat
  | .leaf _ => 1
  | .group members => (members.map Tree.height).foldr max 0 + 1
  | .pipe left right => max left.height right.height + 1

theorem Tree.height_member {tree : Tree α} (member : tree ∈ members)
    : tree.height < (Tree.group members).height := by
  rw [Tree.height]
  induction members with
  | nil => cases member
  | cons first rest ih =>
      rw [List.map_cons, List.foldr_cons]
      rcases List.mem_cons.mp member with rfl | member
      · exact Nat.lt_succ_of_le (Nat.le_max_left _ _)
      · exact Nat.lt_of_lt_of_le (ih member) (Nat.succ_le_succ (Nat.le_max_right _ _))

theorem Tree.height_group_le {bound : Nat} (all : ∀ tree ∈ members, tree.height ≤ bound)
    : (Tree.group members).height ≤ bound + 1 := by
  rw [Tree.height]
  apply Nat.succ_le_succ
  induction members with
  | nil => exact Nat.zero_le _
  | cons first rest ih =>
      rw [List.map_cons, List.foldr_cons]
      exact Nat.max_le.mpr ⟨all first (List.mem_cons_self ..),
        ih (fun tree member => all tree (List.mem_cons_of_mem _ member))⟩

/-- Every group has members, and no leaf is on both sides of a pipe. -/
def Tree.Proper : Tree Nat → Prop
  | .leaf _ => True
  | .group members => members ≠ [] ∧ ∀ tree ∈ members, tree.Proper
  | .pipe left right => left.Proper ∧ right.Proper ∧ ∀ leaf ∈ left.leaves, leaf ∉ right.leaves

/-- Every leaf on the left of a pipe comes before those on the right. -/
def Tree.Forward : Tree Nat → Prop
  | .leaf _ => True
  | .group members => ∀ tree ∈ members, tree.Forward
  | .pipe left right =>
      left.Forward ∧ right.Forward ∧ ∀ one ∈ left.leaves, ∀ two ∈ right.leaves, one < two

-- Trees of leaf numbers

abbrev Ast.Numbers (ast : Ast) (n : Nat) (tree : Tree Nat) : Prop :=
  ast.Yields (fun leaf number => leaf = number) n tree

structure Located (start : Nat) (ast : Ast) (tree : Tree Nat) : Prop where
  leaves : ∀ leaf ∈ tree.leaves, start ≤ leaf ∧ leaf < ast.leaves.length
  height : tree.height ≤ ast.nodes.length
  proper : tree.Proper

theorem Located.grow {earlier : Nat} {later : Ast} {tree : Tree Nat}
    (located : Located start ast tree) (grows : ast.Extends later) (le : earlier ≤ start)
    : Located earlier later tree :=
  ⟨fun leaf member => ⟨Nat.le_trans le (located.leaves leaf member).1,
      Nat.lt_of_lt_of_le (located.leaves leaf member).2 grows.leaves.length_le⟩,
    Nat.le_trans located.height grows.nodes.length_le, located.proper⟩

theorem Ast.Numbers.grow {later : Ast} {n : Nat} {tree : Tree Nat} (numbers : ast.Numbers n tree)
    (grows : ast.Extends later)
    : later.Numbers n tree :=
  Ast.Yields.grow grows (fun _ _ => id) numbers

theorem Located.leaf (ast : Ast) (leaf : Leaf) (argvOff : List Nat) (asked : Nat)
    : Located ast.leaves.length
        (ast.add [⟨.leaf, ast.leaves.length, 0, 0⟩] [leaf] argvOff [] asked)
        (.leaf ast.leaves.length) := by
  refine ⟨?_, ?_, ?_⟩
  · simp [Tree.leaves, Ast.add]
  · simp [Tree.height, Ast.add]
  · simp [Tree.Proper]

theorem Located.pipe {middle : Nat} {node : Node} {left right : Tree Nat} {asked : Nat}
    (locatedLeft : Located start ast left) (locatedRight : Located middle ast right)
    (le : start ≤ middle) (before : ∀ leaf ∈ left.leaves, leaf < middle)
    : Located start (ast.add [node] [] [] [] asked) (.pipe left right) := by
  have grows := ast.extends_add [node] [] [] [] asked
  refine ⟨?_, ?_, ?_⟩
  · intro leaf member
    rw [Tree.leaves] at member
    rcases List.mem_append.mp member with member | member
    · exact (locatedLeft.grow grows (Nat.le_refl _)).leaves leaf member
    · exact (locatedRight.grow grows le).leaves leaf member
  · have taller : (ast.add [node] [] [] [] asked).nodes.length = ast.nodes.length + 1 := by
      simp [Ast.add]
    rw [Tree.height, taller]
    exact Nat.succ_le_succ (Nat.max_le.mpr ⟨locatedLeft.height, locatedRight.height⟩)
  · rw [Tree.Proper]
    refine ⟨locatedLeft.proper, locatedRight.proper, ?_⟩
    intro leaf member memberRight
    have := before leaf member
    have := (locatedRight.leaves leaf memberRight).1
    omega

theorem Tree.Forward.pipe {middle : Nat} {left right : Tree Nat} (forwardLeft : left.Forward)
    (forwardRight : right.Forward) (locatedRight : Located middle ast right)
    (before : ∀ leaf ∈ left.leaves, leaf < middle)
    : (Tree.pipe left right).Forward := by
  rw [Tree.Forward]
  refine ⟨forwardLeft, forwardRight, ?_⟩
  intro one inLeft two inRight
  exact Nat.lt_of_lt_of_le (before one inLeft) (locatedRight.leaves two inRight).1

theorem Tree.Forward.groupOf (all : ∀ tree ∈ trees, tree.Forward) : (groupOf trees).Forward := by
  rw [Pur.groupOf.eq_def]
  split
  next single => exact all single (List.mem_cons_self ..)
  next =>
    rw [Tree.Forward]
    exact all

/-- A group of trees. -/
theorem Located.groupOf {node : Node} {members : List Nat} {asked : Nat} (some : trees ≠ [])
    (all : ∀ tree ∈ trees, Located start ast tree)
    : Located start (ast.add [node] [] [] members asked) (groupOf trees) := by
  have grows := ast.extends_add [node] [] [] members asked
  have group : Located start (ast.add [node] [] [] members asked) (.group trees) := by
    refine ⟨?_, ?_, ?_⟩
    · intro leaf member
      rw [Tree.leaves] at member
      obtain ⟨tree, among, member⟩ := List.mem_flatMap.mp member
      exact ((all tree among).grow grows (Nat.le_refl _)).leaves leaf member
    · have taller : (ast.add [node] [] [] members asked).nodes.length
          = ast.nodes.length + 1 := by
        simp [Ast.add]
      rw [taller]
      exact Tree.height_group_le (fun tree among => (all tree among).height)
    · rw [Tree.Proper]
      exact ⟨some, fun tree among => (all tree among).proper⟩
  rw [Pur.groupOf.eq_def]
  split
  next single => exact (all single (List.mem_cons_self ..)).grow grows (Nat.le_refl _)
  next => exact group

-- What a parse leaves in the pools

/-- A parse adds a tree whose leaves are new, and which goes forward. -/
def Adds (start : Nat) (ast : Ast) (made : Nat × List Token × Ast) : Prop :=
  ast.Extends made.2.2 ∧ ∃ tree, made.2.2.Numbers made.1 tree ∧ Located start made.2.2 tree
    ∧ tree.Forward

/-- What is parsed with so many turns is a tree in the pools. -/
structure AddsAt (grants : Nat → Bool) (fuel : Nat) : Prop where
  expr : ∀ depth toks ast, Settles (fun _ => True) (Adds ast.leaves.length ast)
    (parseExpr grants fuel depth toks ast)
  chain : ∀ depth node toks ast start left, ast.Numbers node left → Located start ast left
    → left.Forward → start ≤ ast.leaves.length
    → Settles (fun _ => True) (Adds start ast) (exprLoop grants fuel depth node toks ast)
  operand : ∀ depth toks ast, Settles (fun _ => True) (Adds ast.leaves.length ast)
    (parseOperand grants fuel depth toks ast)
  group : ∀ depth toks ast, Settles (fun _ => True) (Adds ast.leaves.length ast)
    (parseGroup grants fuel depth toks ast)
  members : ∀ depth before toks ast start treesBefore,
    ast.YieldsAll (fun leaf number => leaf = number) before treesBefore
    → (∀ tree ∈ treesBefore, Located start ast tree ∧ tree.Forward) → start ≤ ast.leaves.length
    → Settles (fun _ => True)
        (fun made => ast.Extends made.2.2 ∧ ∃ trees,
          made.2.2.YieldsAll (fun leaf number => leaf = number) made.1 trees ∧ trees ≠ []
          ∧ ∀ tree ∈ trees, Located start made.2.2 tree ∧ tree.Forward)
        (membersLoop grants fuel depth before toks ast)

section

variable {grants : Nat → Bool} {fuel : Nat}

theorem AddsAt.exprSucc (adds : AddsAt grants fuel) (depth : Nat) (toks : List Token) (ast : Ast)
    : Settles (fun _ => True) (Adds ast.leaves.length ast)
        (parseExpr grants (fuel + 1) depth toks ast) := by
  rw [parseExpr]
  apply (adds.operand depth toks ast).bind
  rintro ⟨node, middle, ast1⟩ ⟨grows, left, numbers, located, forward⟩
  apply (adds.chain depth node middle ast1 _ left numbers located forward
    grows.leaves.length_le).mono (fun _ => id)
  rintro made ⟨growsToo, tree⟩
  exact ⟨grows.trans growsToo, tree⟩

theorem AddsAt.chainSucc (adds : AddsAt grants fuel) (depth node : Nat) (toks : List Token)
    (ast : Ast) (start : Nat) (left : Tree Nat) (numbers : ast.Numbers node left)
    (located : Located start ast left) (forward : left.Forward) (le : start ≤ ast.leaves.length)
    : Settles (fun _ => True) (Adds start ast)
        (exprLoop grants (fuel + 1) depth node toks ast) := by
  rw [exprLoop]
  split
  · split
    · trivial
    split
    · trivial
    apply (adds.operand (depth + 1) toks.tail ast).bind
    rintro ⟨rhs, middle, ast1⟩ ⟨grows, right, numbersRight, locatedRight, forwardRight⟩
    apply ((purNodeNew_settles grants .expr ast1).mono (fun _ _ => trivial) (fun _ => id)).bind
    rintro ⟨e, later⟩ ⟨rfl, asked, rfl⟩
    dsimp only
    rw [Ast.setNode_add]
    have added := ast1.extends_add [⟨.expr, node, 0, rhs⟩] [] [] [] asked
    have pipe := Ast.yields_pipe ((numbers.grow grows).grow added) (numbersRight.grow added)
    have before (leaf : Nat) (member : leaf ∈ left.leaves) : leaf < ast.leaves.length :=
      (located.leaves leaf member).2
    have locatedPipe : Located start (ast1.add [⟨.expr, node, 0, rhs⟩] [] [] [] asked)
        (.pipe left right) :=
      (located.grow grows (Nat.le_refl _)).pipe locatedRight le before
    apply (adds.chain (depth + 1) _ middle _ start _ pipe locatedPipe
      (forward.pipe forwardRight locatedRight before)
      (Nat.le_trans le (grows.trans added).leaves.length_le)).mono (fun _ => id)
    rintro made ⟨growsToo, tree⟩
    exact ⟨(grows.trans added).trans growsToo, tree⟩
  · exact ⟨.refl ast, left, numbers, located, forward⟩

theorem AddsAt.operandSucc (adds : AddsAt grants fuel) (depth : Nat) (toks : List Token)
    (ast : Ast)
    : Settles (fun _ => True) (Adds ast.leaves.length ast)
        (parseOperand grants (fuel + 1) depth toks ast) := by
  rw [parseOperand]
  split
  · exact adds.group depth toks ast
  split
  · obtain ⟨words, after, rfl, all, stops⟩ := words_split toks
    apply (parseLeaf_settles grants all stops ast).mono (fun _ _ => trivial)
    rintro ⟨n, rest, later⟩ ⟨rfl, rfl, asked, rfl⟩
    refine ⟨ast.extends_add .., .leaf ast.leaves.length, ?_, Located.leaf ast _ _ asked, ?_⟩
    · simp only [Ast.Numbers, Ast.Yields]
      exact ⟨ast.leaves.length, by simp [Ast.add], rfl⟩
    · rw [Tree.Forward]
      trivial
  · trivial

theorem AddsAt.groupSucc (adds : AddsAt grants fuel) (depth : Nat) (toks : List Token) (ast : Ast)
    : Settles (fun _ => True) (Adds ast.leaves.length ast)
        (parseGroup grants (fuel + 1) depth toks ast) := by
  rw [parseGroup]
  split
  · trivial
  split
  · trivial
  split
  · trivial
  apply (adds.members depth [] toks.tail ast ast.leaves.length [] (by simp only [Ast.YieldsAll])
    (List.forall_mem_nil _) (Nat.le_refl _)).bind
  rintro ⟨nodes, middle, ast1⟩ ⟨grows, trees, all, some, located⟩
  dsimp only at grows all located ⊢
  split
  · trivial
  apply ((purNodeNew_settles grants .group ast1).mono (fun _ _ => trivial) (fun _ => id)).bind
  rintro ⟨g, later⟩ ⟨rfl, asked, rfl⟩
  apply ((purGroupSet_settles grants _ nodes _).mono (fun _ _ => trivial) (fun _ => id)).bind
  rintro later ⟨askedToo, made⟩
  have made := made.trans (ast1.setNode_group nodes asked askedToo)
  subst made
  have added := ast1.extends_add [⟨.group, ast1.members.length, nodes.length, 0⟩] [] [] nodes
    askedToo
  have grown : Located ast.leaves.length
      (ast1.add [⟨.group, ast1.members.length, nodes.length, 0⟩] [] [] nodes askedToo)
      (groupOf trees) :=
    Located.groupOf some (fun tree among => (located tree among).1)
  have forward : (groupOf trees).Forward :=
    Tree.Forward.groupOf (fun tree among => (located tree among).2)
  obtain ⟨one, several⟩ := groupOf_yields (Ast.YieldsAll.grow added (fun _ _ => id) all)
  have grows := grows.trans added
  split
  next single => exact ⟨grows, _, one single rfl, grown, forward⟩
  next notOne => exact ⟨grows, _, several (fun single => notOne single), grown, forward⟩

theorem AddsAt.membersSucc (adds : AddsAt grants fuel) (depth : Nat) (before : List Nat)
    (toks : List Token) (ast : Ast) (start : Nat) (treesBefore : List (Tree Nat))
    (all : ast.YieldsAll (fun leaf number => leaf = number) before treesBefore)
    (located : ∀ tree ∈ treesBefore, Located start ast tree ∧ tree.Forward)
    (le : start ≤ ast.leaves.length)
    : Settles (fun _ => True)
        (fun made => ast.Extends made.2.2 ∧ ∃ trees,
          made.2.2.YieldsAll (fun leaf number => leaf = number) made.1 trees ∧ trees ≠ []
          ∧ ∀ tree ∈ trees, Located start made.2.2 tree ∧ tree.Forward)
        (membersLoop grants (fuel + 1) depth before toks ast) := by
  rw [membersLoop]
  apply ((poolReserve_settles grants rfl ast).mono (fun _ _ => trivial) (fun _ => id)).bind
  rintro _ ⟨asked, rfl⟩
  have added := ast.extends_add [] [] [] [] asked
  apply (adds.expr (depth + 1) toks _).bind
  rintro ⟨member, middle, ast1⟩ ⟨grows, tree, numbers, locatedTree, forward⟩
  have grows := added.trans grows
  have all : ast1.YieldsAll (fun leaf number => leaf = number) (before ++ [member])
      (treesBefore ++ [tree]) :=
    (Ast.YieldsAll.grow grows (fun _ _ => id) all).snoc numbers
  have located : ∀ other ∈ treesBefore ++ [tree], Located start ast1 other ∧ other.Forward := by
    intro other among
    rcases List.mem_append.mp among with among | among
    · exact ⟨(located other among).1.grow grows (Nat.le_refl _), (located other among).2⟩
    · rw [List.mem_singleton.mp among]
      exact ⟨locatedTree.grow (.refl ast1) (Nat.le_trans le added.leaves.length_le), forward⟩
  dsimp only
  split
  · exact ⟨grows, _, all, by simp, located⟩
  split
  · exact ⟨grows, _, all, by simp, located⟩
  · apply (adds.members depth _ middle.tail ast1 start _ all located
      (Nat.le_trans le grows.leaves.length_le)).mono (fun _ => id)
    rintro made ⟨growsToo, trees⟩
    exact ⟨grows.trans growsToo, trees⟩

end

theorem addsAt (grants : Nat → Bool) (fuel : Nat) : AddsAt grants fuel := by
  induction fuel with
  | zero =>
      constructor
      case expr => intro _ _ _; rw [parseExpr]; trivial
      case chain => intro _ _ _ _ _ _ _ _ _ _; rw [exprLoop]; trivial
      case operand => intro _ _ _; rw [parseOperand]; trivial
      case group => intro _ _ _; rw [parseGroup]; trivial
      case members => intro _ _ _ _ _ _ _ _ _; rw [membersLoop]; trivial
  | succ fuel adds =>
      exact ⟨adds.exprSucc, adds.chainSucc, adds.operandSucc, adds.groupSucc, adds.membersSucc⟩

variable {grants : Nat → Bool}

theorem purParseLoad_forward {parsed : Parsed} {index root : Nat}
    (loaded : purParseLoad grants parsed index = .ok (root, ast))
    : ∃ tree, ast.Numbers root tree ∧ Located 0 ast tree ∧ tree.Forward := by
  rw [purParseLoad] at loaded
  split at loaded
  · cases loaded
  next toks op entry =>
    obtain ⟨⟨n, rest, later⟩, ran, same⟩ := bind_eq_ok loaded
    cases same
    exact (((addsAt grants _).expr 0 toks _).value ran).2

theorem purParseLoad_adds {parsed : Parsed} {index root : Nat}
    (loaded : purParseLoad grants parsed index = .ok (root, ast))
    : ∃ tree, ast.Numbers root tree ∧ Located 0 ast tree := by
  obtain ⟨tree, numbers, located, -⟩ := purParseLoad_forward loaded
  exact ⟨tree, numbers, located⟩

end Panuti.Pur
