import Panuti.Pur.Lexer

/-! `parse.c` behind the tokens, and the pools of `ast.c` that it fills. A place among the tokens is
the list of those from there on.
-/

namespace Panuti.Pur

-- The pools

/-- `PUR_MAX_LEAVES`. -/
def maxLeaves : Nat := 16

/-- `PUR_MAX_DEPTH`. -/
def maxDepth : Nat := 16

/-- `PUR_MAX_ARGV`. -/
def maxArgv : Nat := 32

/-- `PUR_MAX_EXPRS`. -/
def maxExprs : Nat := 64

/-- `pur_kind_t`. -/
inductive Kind where
  | leaf
  | group
  | expr
deriving Repr, DecidableEq

/-- `pur_node_t`. -/
structure Node where
  kind : Kind
  first : Nat
  count : Nat
  rhs : Nat
deriving Repr, DecidableEq

/-- `pur_leaf_t`. -/
structure Leaf where
  argvFirst : Nat
  argc : Nat
deriving Repr, DecidableEq

/-- The pools, up to what they hold, and how often more room was asked for. -/
structure Ast where
  nodes : List Node
  leaves : List Leaf
  argvOff : List Nat
  members : List Nat
  asked : Nat
deriving Repr, DecidableEq

def purAstReset (ast : Ast) : Ast := ⟨[], [], [], [], ast.asked⟩

/-- `pool_reserve` and `members_reserve`: `grants` says which requests are met. -/
def poolReserve (grants : Nat → Bool) (refused : Status) (ast : Ast) : Except Stop Ast :=
  if grants ast.asked then .ok { ast with asked := ast.asked + 1 } else .error (.status refused)

def purNodeNew (grants : Nat → Bool) (kind : Kind) (ast : Ast) : Except Stop (Nat × Ast) := do
  let ast ← poolReserve grants .nodes ast
  return (ast.nodes.length, { ast with nodes := ast.nodes ++ [⟨kind, 0, 0, 0⟩] })

def purLeafNew (argvFirst argc : Nat) (ast : Ast) : Except Stop (Nat × Ast) :=
  if maxLeaves ≤ ast.leaves.length then .error (.status .leaves)
  else .ok (ast.leaves.length, { ast with leaves := ast.leaves ++ [⟨argvFirst, argc⟩] })

def purArgvPush (grants : Nat → Bool) (off : Nat) (ast : Ast) : Except Stop Ast := do
  let ast ← poolReserve grants .argv ast
  return { ast with argvOff := ast.argvOff ++ [off] }

def Ast.setNode (ast : Ast) (n : Nat) (node : Node) : Ast :=
  { ast with nodes := ast.nodes.set n node }

def purGroupSet (grants : Nat → Bool) (group : Nat) (members : List Nat) (ast : Ast)
    : Except Stop Ast := do
  let ast ← (if 0 < members.length then poolReserve grants .nodes ast else .ok ast)
  let node : Node := ⟨.group, ast.members.length, members.length, 0⟩
  return { ast with members := ast.members ++ members }.setNode group node

-- One expression

/-- `toks[pos].type`, with nothing for `PUR_T_END`. -/
def peek (toks : List Token) : Option TokType := toks.head?.map Token.type

/-- The loop of `parse_leaf`. -/
def parseWords (grants : Nat → Bool)
    : List Token → Nat → Ast → Except Stop (Nat × List Token × Ast)
  | [], argc, ast => .ok (argc, [], ast)
  | token :: toks, argc, ast =>
      if token.type = .word then
        if maxArgv ≤ argc then .error (.status .argv)
        else do
          let ast ← purArgvPush grants token.off ast
          parseWords grants toks (argc + 1) ast
      else .ok (argc, token :: toks, ast)

def parseLeaf (grants : Nat → Bool) (toks : List Token) (ast : Ast)
    : Except Stop (Nat × List Token × Ast) := do
  let argvFirst := ast.argvOff.length
  let (argc, toks, ast) ← parseWords grants toks 0 ast
  let (leaf, ast) ← purLeafNew argvFirst argc ast
  let (n, ast) ← purNodeNew grants .leaf ast
  return (n, toks, ast.setNode n ⟨.leaf, leaf, 0, 0⟩)

mutual

def parseExpr (grants : Nat → Bool)
    : Nat → Nat → List Token → Ast → Except Stop (Nat × List Token × Ast)
  | 0, _, _, _ => .error .outOfFuel
  | fuel + 1, depth, toks, ast => do
      let (node, toks, ast) ← parseOperand grants fuel depth toks ast
      exprLoop grants fuel depth node toks ast
termination_by structural fuel => fuel

/-- The loop of `parse_expr`, where `depth` grows with `fold`. -/
def exprLoop (grants : Nat → Bool)
    : Nat → Nat → Nat → List Token → Ast → Except Stop (Nat × List Token × Ast)
  | 0, _, _, _, _ => .error .outOfFuel
  | fuel + 1, depth, node, toks, ast =>
      if peek toks = some .gt then
        if maxDepth < depth + 1 then .error (.status .complex)
        else if peek toks.tail ≠ some .word ∧ peek toks.tail ≠ some .lparen then
          .error (.status .syntaxError)
        else do
          let (rhs, toks, ast) ← parseOperand grants fuel (depth + 1) toks.tail ast
          let (e, ast) ← purNodeNew grants .expr ast
          exprLoop grants fuel (depth + 1) e toks (ast.setNode e ⟨.expr, node, 0, rhs⟩)
      else .ok (node, toks, ast)
termination_by structural fuel => fuel

def parseOperand (grants : Nat → Bool)
    : Nat → Nat → List Token → Ast → Except Stop (Nat × List Token × Ast)
  | 0, _, _, _ => .error .outOfFuel
  | fuel + 1, depth, toks, ast =>
      if peek toks = some .lparen then parseGroup grants fuel depth toks ast
      else if peek toks = some .word then parseLeaf grants toks ast
      else .error (.status .syntaxError)
termination_by structural fuel => fuel

def parseGroup (grants : Nat → Bool)
    : Nat → Nat → List Token → Ast → Except Stop (Nat × List Token × Ast)
  | 0, _, _, _ => .error .outOfFuel
  | fuel + 1, depth, toks, ast =>
      if peek toks ≠ some .lparen then .error (.status .syntaxError)
      else if maxDepth ≤ depth then .error (.status .complex)
      else if peek toks.tail = some .rparen then .error (.status .emptyGroup)
      else do
        let (members, toks, ast) ← membersLoop grants fuel depth [] toks.tail ast
        if peek toks ≠ some .rparen then .error (.status .syntaxError)
        else do
          let (g, ast) ← purNodeNew grants .group ast
          let ast ← purGroupSet grants g members ast
          match members with
          | [single] => return (single, toks.tail, ast)
          | _ => return (g, toks.tail, ast)
termination_by structural fuel => fuel

/-- The loop of `parse_group`. -/
def membersLoop (grants : Nat → Bool)
    : Nat → Nat → List Nat → List Token → Ast → Except Stop (List Nat × List Token × Ast)
  | 0, _, _, _, _ => .error .outOfFuel
  | fuel + 1, depth, members, toks, ast => do
      let ast ← poolReserve grants .memory ast
      let (member, toks, ast) ← parseExpr grants fuel (depth + 1) toks ast
      let members := members ++ [member]
      if peek toks ≠ some .semi then return (members, toks, ast)
      else if peek toks.tail = some .rparen then return (members, toks.tail, ast)
      else membersLoop grants fuel depth members toks.tail ast
termination_by structural fuel => fuel

end

/-- Turns that are enough for the expression at a place. -/
def exprFuel (toks : List Token) : Nat := 4 * toks.length + 2

-- A command

/-- `pur_op_t`. -/
inductive Op where
  | none
  | and
  | or
  | bg
deriving Repr, DecidableEq

/-- What a command leaves: the line cut into words, `expr_start` with `expr_op`, and the pools. -/
structure Parsed where
  line : List UInt8
  exprs : List (List Token × Op)
  ast : Ast
deriving Repr, DecidableEq

/-- What `pur_parse_command` asks of the token where an expression is to begin. -/
def startCheck (exprs : List (List Token × Op)) : Option TokType → Except Stop Unit
  | some .pipe => .error (.status .reserved)
  | some .and | some .or | some .bg => .error (.status .operator)
  | Option.none =>
      -- only behind an operator, since the empty command is turned away before
      if exprs.getLast?.map Prod.snd = some .bg then .error (.status .trailingBg)
      else .error (.status .operator)
  | _ => .ok ()

/-- The operator that `pur_parse_command` finds behind an expression. -/
def opAfter : Option TokType → Except Stop Op
  | some .and => .ok .and
  | some .or => .ok .or
  | some .bg => .ok .bg
  | Option.none => .ok .none
  | some .pipe => .error (.status .reserved)
  | _ => .error (.status .syntaxError)

/-- The loop of `pur_parse_command`, with the expressions before. -/
def commandLoop (grants : Nat → Bool)
    : Nat → List (List Token × Op) → List Token → Ast
      → Except Stop (List (List Token × Op) × Ast)
  | 0, _, _, _ => .error .outOfFuel
  | turns + 1, exprs, toks, ast => do
      startCheck exprs (peek toks)
      if maxExprs ≤ exprs.length then .error (.status .exprs)
      else do
        let (_, after, ast) ← parseExpr grants (exprFuel toks) 0 toks (purAstReset ast)
        let op ← opAfter (peek after)
        if op = .none then return (exprs ++ [(toks, op)], ast)
        else commandLoop grants turns (exprs ++ [(toks, op)]) after.tail ast

/-- `pur_parse_command`. Room for the tokens is asked of `grantsToks`, room in the pools of `grants`.
-/
def purParseCommand (grantsToks grants : Nat → Bool) (line : List UInt8) (ast : Ast)
    : Except Stop Parsed := do
  let toks ← tokenize grantsToks line
  if peek toks = Option.none then .error (.status .empty)
  else do
    let (exprs, ast) ← commandLoop grants (toks.length + 1) [] toks ast
    return ⟨terminateWords line toks, exprs, ast⟩

/-- `pur_parse_load`, with the root. -/
def purParseLoad (grants : Nat → Bool) (parsed : Parsed) (index : Nat)
    : Except Stop (Nat × Ast) :=
  match parsed.exprs[index]? with
  | Option.none => .error (.status .syntaxError)
  | some (toks, _) => do
      let (root, _, ast) ← parseExpr grants (exprFuel toks) 0 toks (purAstReset parsed.ast)
      return (root, ast)

/-- `pur_leaf_argv`, with the texts of the strings that it points to. -/
def purLeafArgv (line : List UInt8) (ast : Ast) (leaf : Nat) : Option (List (List UInt8)) :=
  ast.leaves[leaf]?.map
    (fun leaf => ((ast.argvOff.drop leaf.argvFirst).take leaf.argc).map (cstr line))

end Panuti.Pur
