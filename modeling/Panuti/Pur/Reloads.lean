import Panuti.Library.Outcome
import Panuti.Pur.Parser

/-! An expression that was parsed once is parsed again to the same nodes, when no request for room
is refused.
-/

namespace Panuti.Pur

open Library

structure Ast.Same (ast other : Ast) : Prop where
  nodes : ast.nodes = other.nodes
  leaves : ast.leaves = other.leaves
  argvOff : ast.argvOff = other.argvOff
  members : ast.members = other.members

theorem Ast.same_reset (ast other : Ast) : (purAstReset ast).Same (purAstReset other) :=
  ⟨rfl, rfl, rfl, rfl⟩

/-- The same number, and pools that hold the same. -/
abbrev SameNode (made other : Nat × Ast) : Prop := made.1 = other.1 ∧ made.2.Same other.2

/-- The same number and place, and pools that hold the same. -/
abbrev SameParse {α : Type} (made other : α × List Token × Ast) : Prop :=
  made.1 = other.1 ∧ made.2.1 = other.2.1 ∧ made.2.2.Same other.2.2

section

variable {grants later : Nat → Bool} {ast other : Ast}

theorem Ast.Same.poolReserve (same : ast.Same other) (granted : ∀ k, later k = true)
    (refused : Status)
    : Repeats Ast.Same (poolReserve grants refused ast) (poolReserve later refused other) := by
  rw [Pur.poolReserve, Pur.poolReserve, if_pos (granted _)]
  split
  · exact .ok ⟨same.nodes, same.leaves, same.argvOff, same.members⟩
  · exact .error

theorem Ast.Same.purNodeNew (same : ast.Same other) (granted : ∀ k, later k = true) (kind : Kind)
    : Repeats SameNode (purNodeNew grants kind ast) (purNodeNew later kind other) := by
  apply (same.poolReserve granted .nodes).bind
  intro ast other same
  refine .ok ⟨congrArg List.length same.nodes, ?_, same.leaves, same.argvOff, same.members⟩
  exact congrArg (· ++ [⟨kind, 0, 0, 0⟩]) same.nodes

theorem Ast.Same.setNode (same : ast.Same other) (n : Nat) (node : Node)
    : (ast.setNode n node).Same (other.setNode n node) :=
  ⟨congrArg (List.set · n node) same.nodes, same.leaves, same.argvOff, same.members⟩

theorem Ast.Same.purLeafNew (same : ast.Same other) (argvFirst argc : Nat)
    : Repeats SameNode (purLeafNew argvFirst argc ast) (purLeafNew argvFirst argc other) := by
  rw [Pur.purLeafNew, Pur.purLeafNew, ← same.leaves]
  split
  · exact .error
  · exact .ok ⟨rfl, same.nodes, rfl, same.argvOff, same.members⟩

theorem Ast.Same.purArgvPush (same : ast.Same other) (granted : ∀ k, later k = true) (off : Nat)
    : Repeats Ast.Same (purArgvPush grants off ast) (purArgvPush later off other) := by
  apply (same.poolReserve granted .argv).bind
  intro ast other same
  exact .ok ⟨same.nodes, same.leaves, congrArg (· ++ [off]) same.argvOff, same.members⟩

theorem Ast.Same.purGroupSet (same : ast.Same other) (granted : ∀ k, later k = true) (group : Nat)
    (members : List Nat)
    : Repeats Ast.Same (purGroupSet grants group members ast)
        (purGroupSet later group members other) := by
  have room : Repeats Ast.Same
      (if 0 < members.length then Pur.poolReserve grants .nodes ast else .ok ast)
      (if 0 < members.length then Pur.poolReserve later .nodes other else .ok other) := by
    split
    · exact same.poolReserve granted .nodes
    · exact .ok same
  apply room.bind
  intro ast other same
  rw [← same.members]
  apply Repeats.ok
  apply Ast.Same.setNode
  exact ⟨same.nodes, same.leaves, same.argvOff, rfl⟩

theorem Ast.Same.parseWords (granted : ∀ k, later k = true) (toks : List Token)
    : ∀ (argc : Nat) {ast other : Ast}, ast.Same other
      → Repeats SameParse (parseWords grants toks argc ast) (parseWords later toks argc other) := by
  induction toks with
  | nil =>
      intro argc ast other same
      exact .ok ⟨rfl, rfl, same⟩
  | cons token toks ih =>
      intro argc ast other same
      rw [Pur.parseWords, Pur.parseWords]
      split
      · split
        · exact .error
        apply (same.purArgvPush granted token.off).bind
        intro ast other same
        exact ih (argc + 1) same
      · exact .ok ⟨rfl, rfl, same⟩

theorem Ast.Same.parseLeaf (same : ast.Same other) (granted : ∀ k, later k = true)
    (toks : List Token)
    : Repeats SameParse (parseLeaf grants toks ast) (parseLeaf later toks other) := by
  rw [Pur.parseLeaf, Pur.parseLeaf, ← same.argvOff]
  apply (Ast.Same.parseWords granted toks 0 same).bind
  rintro ⟨argc, toks, ast⟩ ⟨_, _, other⟩ ⟨rfl, rfl, same⟩
  apply (same.purLeafNew _ argc).bind
  rintro ⟨leaf, ast⟩ ⟨_, other⟩ ⟨rfl, same⟩
  apply (same.purNodeNew granted .leaf).bind
  rintro ⟨n, ast⟩ ⟨_, other⟩ ⟨rfl, same⟩
  exact .ok ⟨rfl, rfl, same.setNode n _⟩

/-- What is parsed with so many turns is parsed again. -/
structure AgainAt (grants later : Nat → Bool) (fuel : Nat) : Prop where
  expr : ∀ depth toks {ast other : Ast}, ast.Same other
    → Repeats SameParse (parseExpr grants fuel depth toks ast)
        (parseExpr later fuel depth toks other)
  chain : ∀ depth node toks {ast other : Ast}, ast.Same other
    → Repeats SameParse (exprLoop grants fuel depth node toks ast)
        (exprLoop later fuel depth node toks other)
  operand : ∀ depth toks {ast other : Ast}, ast.Same other
    → Repeats SameParse (parseOperand grants fuel depth toks ast)
        (parseOperand later fuel depth toks other)
  group : ∀ depth toks {ast other : Ast}, ast.Same other
    → Repeats SameParse (parseGroup grants fuel depth toks ast)
        (parseGroup later fuel depth toks other)
  members : ∀ depth members toks {ast other : Ast}, ast.Same other
    → Repeats SameParse (membersLoop grants fuel depth members toks ast)
        (membersLoop later fuel depth members toks other)

theorem AgainAt.succ {fuel : Nat} (granted : ∀ k, later k = true)
    (again : AgainAt grants later fuel)
    : AgainAt grants later (fuel + 1) := by
  constructor
  case expr =>
    intro depth toks ast other same
    rw [parseExpr, parseExpr]
    apply (again.operand depth toks same).bind
    rintro ⟨node, toks, ast⟩ ⟨_, _, other⟩ ⟨rfl, rfl, same⟩
    exact again.chain depth node toks same
  case chain =>
    intro depth node toks ast other same
    rw [exprLoop, exprLoop]
    split
    · split
      · exact .error
      split
      · exact .error
      apply (again.operand (depth + 1) toks.tail same).bind
      rintro ⟨rhs, toks, ast⟩ ⟨_, _, other⟩ ⟨rfl, rfl, same⟩
      apply (same.purNodeNew granted .expr).bind
      rintro ⟨e, ast⟩ ⟨_, other⟩ ⟨rfl, same⟩
      exact again.chain (depth + 1) e toks (same.setNode e _)
    · exact .ok ⟨rfl, rfl, same⟩
  case operand =>
    intro depth toks ast other same
    rw [parseOperand, parseOperand]
    split
    · exact again.group depth toks same
    split
    · exact same.parseLeaf granted toks
    · exact .error
  case group =>
    intro depth toks ast other same
    rw [parseGroup, parseGroup]
    split
    · exact .error
    split
    · exact .error
    split
    · exact .error
    apply (again.members depth [] toks.tail same).bind
    rintro ⟨members, toks, ast⟩ ⟨_, _, other⟩ ⟨rfl, rfl, same⟩
    dsimp only
    split
    · exact .error
    apply (same.purNodeNew granted .group).bind
    rintro ⟨g, ast⟩ ⟨_, other⟩ ⟨rfl, same⟩
    apply (same.purGroupSet granted g members).bind
    intro ast other kept
    split
    · exact .ok ⟨rfl, rfl, kept⟩
    · exact .ok ⟨rfl, rfl, kept⟩
  case members =>
    intro depth members toks ast other same
    rw [membersLoop, membersLoop]
    apply (same.poolReserve granted .memory).bind
    intro ast other same
    apply (again.expr (depth + 1) toks same).bind
    rintro ⟨member, toks, ast⟩ ⟨_, _, other⟩ ⟨rfl, rfl, same⟩
    dsimp only
    split
    · exact .ok ⟨rfl, rfl, same⟩
    split
    · exact .ok ⟨rfl, rfl, same⟩
    · exact again.members depth _ toks.tail same

theorem againAt (granted : ∀ k, later k = true) (fuel : Nat) : AgainAt grants later fuel := by
  induction fuel with
  | zero =>
      constructor
      case expr => intro _ _ _ _ _; rw [parseExpr]; exact .error
      case chain => intro _ _ _ _ _ _; rw [exprLoop]; exact .error
      case operand => intro _ _ _ _ _; rw [parseOperand]; exact .error
      case group => intro _ _ _ _ _; rw [parseGroup]; exact .error
      case members => intro _ _ _ _ _ _; rw [membersLoop]; exact .error
  | succ fuel again => exact again.succ granted

end

end Panuti.Pur
