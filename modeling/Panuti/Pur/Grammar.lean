import Panuti.Pur.Parser

/-! The grammar of a command, the trees of its expressions, and when the pools hold a tree. -/

namespace Panuti.Pur

-- Trees

/-- An expression: commands, groups of expressions that run together, and pipes. -/
inductive Tree (α : Type) where
  | leaf (command : α)
  | group (members : List (Tree α))
  | pipe (left right : Tree α)

def groupOf {α : Type} : List (Tree α) → Tree α
  | [single] => single
  | members => .group members

abbrev Text := List UInt8

-- The grammar

/-- What a run of lexemes can be. A `chain` is what comes behind the first operand of an expression,
`left` being the pipe up to there; `members` is the inside of a group.
-/
inductive Symbol where
  | operand (tree : Tree (List Text))
  | expression (tree : Tree (List Text))
  | chain (left tree : Tree (List Text))
  | members (trees : List (Tree (List Text)))

/-- The grammar of an expression. With `trailing`, the last member of a group may have a `;` behind
it too.
-/
inductive Derives (trailing : Bool) : Symbol → List Lexeme → Prop where
  | command {words : List Text} (some : words ≠ [])
      : Derives trailing (.operand (.leaf words)) (words.map .word)
  | group {trees : List (Tree (List Text))} {inside : List Lexeme}
      (members : Derives trailing (.members trees) inside)
      : Derives trailing (.operand (groupOf trees)) (.lparen :: (inside ++ [.rparen]))
  | expression {first tree : Tree (List Text)} {lexemes rest : List Lexeme}
      (operand : Derives trailing (.operand first) lexemes)
      (chain : Derives trailing (.chain first tree) rest)
      : Derives trailing (.expression tree) (lexemes ++ rest)
  | stop {tree : Tree (List Text)} : Derives trailing (.chain tree tree) []
  | pipe {left right tree : Tree (List Text)} {lexemes rest : List Lexeme}
      (operand : Derives trailing (.operand right) lexemes)
      (chain : Derives trailing (.chain (.pipe left right) tree) rest)
      : Derives trailing (.chain left tree) (.gt :: (lexemes ++ rest))
  | last {tree : Tree (List Text)} {lexemes : List Lexeme}
      (expression : Derives trailing (.expression tree) lexemes)
      : Derives trailing (.members [tree]) lexemes
  | lastSemi {tree : Tree (List Text)} {lexemes : List Lexeme} (allowed : trailing = true)
      (expression : Derives trailing (.expression tree) lexemes)
      : Derives trailing (.members [tree]) (lexemes ++ [.semi])
  | more {tree : Tree (List Text)} {trees : List (Tree (List Text))}
      {lexemes rest : List Lexeme} (expression : Derives trailing (.expression tree) lexemes)
      (members : Derives trailing (.members trees) rest)
      : Derives trailing (.members (tree :: trees)) (lexemes ++ .semi :: rest)

inductive Joins : Lexeme → Op → Prop where
  | and : Joins .and .and
  | or : Joins .or .or
  | bg : Joins .bg .bg

/-- The grammar of a command, with the operator behind each expression. -/
inductive Commands (trailing : Bool)
    : List (Tree (List Text) × Op) → List Lexeme → Prop where
  | last {tree : Tree (List Text)} {lexemes : List Lexeme}
      (expression : Derives trailing (.expression tree) lexemes)
      : Commands trailing [(tree, .none)] lexemes
  | joined {tree : Tree (List Text)} {op : Op} {lexeme : Lexeme} {lexemes rest : List Lexeme}
      {exprs : List (Tree (List Text) × Op)}
      (expression : Derives trailing (.expression tree) lexemes) (joins : Joins lexeme op)
      (commands : Commands trailing exprs rest)
      : Commands trailing ((tree, op) :: exprs) (lexemes ++ lexeme :: rest)

-- Trees in the pools

mutual

/-- The tree at a node of the pools; `holds` says what a leaf is. -/
def Ast.Yields {α : Type} (ast : Ast) (holds : Nat → α → Prop) : Nat → Tree α → Prop
  | n, .leaf command => ∃ leaf, ast.nodes[n]? = some ⟨.leaf, leaf, 0, 0⟩ ∧ holds leaf command
  | n, .group trees => ∃ first, ast.nodes[n]? = some ⟨.group, first, trees.length, 0⟩
      ∧ first + trees.length ≤ ast.members.length
      ∧ ast.YieldsAll holds ((ast.members.drop first).take trees.length) trees
  | n, .pipe left right => ∃ first rhs, ast.nodes[n]? = some ⟨.expr, first, 0, rhs⟩
      ∧ ast.Yields holds first left ∧ ast.Yields holds rhs right

def Ast.YieldsAll {α : Type} (ast : Ast) (holds : Nat → α → Prop)
    : List Nat → List (Tree α) → Prop
  | [], [] => True
  | n :: nodes, tree :: trees => ast.Yields holds n tree ∧ ast.YieldsAll holds nodes trees
  | _, _ => False

end

/-- A leaf has a command for which there is room, with these words. -/
def Ast.Words (ast : Ast) (read : Nat → Text) (leaf : Nat) (words : List Text) : Prop :=
  ∃ entry, ast.leaves[leaf]? = some entry ∧ entry.argc = words.length
    ∧ entry.argvFirst + entry.argc ≤ ast.argvOff.length
    ∧ ((ast.argvOff.drop entry.argvFirst).take entry.argc).map read = words

theorem Ast.Words.argv {ast : Ast} {line : List UInt8} {leaf : Nat} {words : List Text}
    (holds : ast.Words (cstr line) leaf words)
    : purLeafArgv line ast leaf = some words := by
  obtain ⟨entry, found, -, -, same⟩ := holds
  rw [purLeafArgv, found]
  exact congrArg some same

-- Pools that grow

/-- The pools hold what they held, and maybe more. -/
structure Ast.Extends (ast later : Ast) : Prop where
  nodes : ast.nodes <+: later.nodes
  leaves : ast.leaves <+: later.leaves
  argvOff : ast.argvOff <+: later.argvOff
  members : ast.members <+: later.members

theorem Ast.Extends.refl (ast : Ast) : ast.Extends ast :=
  ⟨List.prefix_rfl, List.prefix_rfl, List.prefix_rfl, List.prefix_rfl⟩

theorem Ast.Extends.trans {first second third : Ast} (one : first.Extends second)
    (two : second.Extends third)
    : first.Extends third :=
  ⟨one.nodes.trans two.nodes, one.leaves.trans two.leaves, one.argvOff.trans two.argvOff,
    one.members.trans two.members⟩

theorem getElem?_prefix {α : Type} {short long : List α} (isPrefix : short <+: long) {i : Nat}
    {a : α} (found : short[i]? = some a)
    : long[i]? = some a := by
  obtain ⟨more, rfl⟩ := isPrefix
  rw [List.getElem?_append_left (List.getElem?_eq_some_iff.mp found).1]
  exact found

theorem slice_short {α : Type} {short long : List α} (isPrefix : short <+: long)
    {first count : Nat} (inside : first + count ≤ short.length)
    : (long.drop first).take count = (short.drop first).take count := by
  obtain ⟨more, rfl⟩ := isPrefix
  rw [List.drop_append_of_le_length (by omega), List.take_append_of_le_length]
  rw [List.length_drop]
  omega

theorem Ast.Words.grow {ast later : Ast} {read : Nat → Text} {leaf : Nat} {words : List Text}
    (holds : ast.Words read leaf words) (grows : ast.Extends later)
    : later.Words read leaf words := by
  obtain ⟨entry, found, count, inside, same⟩ := holds
  refine ⟨entry, getElem?_prefix grows.leaves found, count,
    Nat.le_trans inside grows.argvOff.length_le, ?_⟩
  rw [slice_short grows.argvOff inside]
  exact same

mutual

/-- A tree stays where it is. -/
theorem Ast.Yields.grow {α : Type} {ast later : Ast} {holds holdsLater : Nat → α → Prop}
    (grows : ast.Extends later) (keeps : ∀ leaf command, holds leaf command
      → holdsLater leaf command)
    : ∀ {n : Nat} {tree : Tree α}, ast.Yields holds n tree → later.Yields holdsLater n tree
  | _, .leaf command, yields => by
      simp only [Ast.Yields] at yields ⊢
      obtain ⟨leaf, found, held⟩ := yields
      exact ⟨leaf, getElem?_prefix grows.nodes found, keeps leaf command held⟩
  | _, .group trees, yields => by
      simp only [Ast.Yields] at yields ⊢
      obtain ⟨first, found, inside, all⟩ := yields
      refine ⟨first, getElem?_prefix grows.nodes found,
        Nat.le_trans inside grows.members.length_le, ?_⟩
      rw [slice_short grows.members inside]
      exact Ast.YieldsAll.grow grows keeps all
  | _, .pipe left right, yields => by
      simp only [Ast.Yields] at yields ⊢
      obtain ⟨first, rhs, found, yieldsLeft, yieldsRight⟩ := yields
      exact ⟨first, rhs, getElem?_prefix grows.nodes found,
        Ast.Yields.grow grows keeps yieldsLeft, Ast.Yields.grow grows keeps yieldsRight⟩

theorem Ast.YieldsAll.grow {α : Type} {ast later : Ast} {holds holdsLater : Nat → α → Prop}
    (grows : ast.Extends later) (keeps : ∀ leaf command, holds leaf command
      → holdsLater leaf command)
    : ∀ {nodes : List Nat} {trees : List (Tree α)}, ast.YieldsAll holds nodes trees
      → later.YieldsAll holdsLater nodes trees
  | [], [], _ => by simp only [Ast.YieldsAll]
  | _ :: _, tree :: _, all => by
      simp only [Ast.YieldsAll] at all ⊢
      exact ⟨Ast.Yields.grow grows keeps all.1, Ast.YieldsAll.grow grows keeps all.2⟩
  | [], _ :: _, all => by simp only [Ast.YieldsAll] at all
  | _ :: _, [], all => by simp only [Ast.YieldsAll] at all

end

theorem Ast.YieldsAll.length {α : Type} {ast : Ast} {holds : Nat → α → Prop} {nodes : List Nat}
    {trees : List (Tree α)} (all : ast.YieldsAll holds nodes trees)
    : nodes.length = trees.length := by
  induction nodes generalizing trees with
  | nil =>
      cases trees with
      | nil => rfl
      | cons tree trees => simp only [Ast.YieldsAll] at all
  | cons n nodes ih =>
      cases trees with
      | nil => simp only [Ast.YieldsAll] at all
      | cons tree trees =>
          simp only [Ast.YieldsAll] at all
          rw [List.length_cons, List.length_cons, ih all.2]

theorem Ast.YieldsAll.snoc {α : Type} {ast : Ast} {holds : Nat → α → Prop} {nodes : List Nat}
    {trees : List (Tree α)} {n : Nat} {tree : Tree α} (all : ast.YieldsAll holds nodes trees)
    (yields : ast.Yields holds n tree)
    : ast.YieldsAll holds (nodes ++ [n]) (trees ++ [tree]) := by
  induction nodes generalizing trees with
  | nil =>
      cases trees with
      | nil => simpa [Ast.YieldsAll] using yields
      | cons tree trees => simp only [Ast.YieldsAll] at all
  | cons n nodes ih =>
      cases trees with
      | nil => simp only [Ast.YieldsAll] at all
      | cons tree trees =>
          simp only [Ast.YieldsAll, List.cons_append] at all ⊢
          exact ⟨all.1, ih all.2⟩

end Panuti.Pur
