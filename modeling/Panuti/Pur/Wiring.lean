import Panuti.Pur.Parser

/-! `wire_graph` of `exec.c`: which commands of an expression are joined by pipes. -/

namespace Panuti.Pur

/-- `PUR_MAX_PIPES`. -/
def maxPipes : Nat := 14

/-- `PUR_MAX_STREAMS`. -/
def maxStreams : Nat := 16

/-- Why there is no wiring. A walk over the nodes goes at most as deep as it is given, and stops at
a number that is no node's.
-/
inductive Fault where
  | pipes
  | streams
  | noNode
  | outOfFuel
deriving Repr, DecidableEq

/-- `pur_edge_t`, before it has descriptors. -/
structure Edge where
  src : Nat
  dst : Nat
  srcStream : Nat
  dstStream : Nat
deriving Repr, DecidableEq

/-- `edges`, with `in_count` and `out_count` of every leaf. -/
structure Wires where
  edges : List Edge
  inCount : Nat → Nat
  outCount : Nat → Nat

def resetState : Wires := ⟨[], fun _ => 0, fun _ => 0⟩

def addEdge (src dst : Nat) (wires : Wires) : Except Fault Wires :=
  if src = dst then .ok wires
  else if wires.edges.any (fun edge => edge.src = src ∧ edge.dst = dst) then .ok wires
  else if maxPipes ≤ wires.edges.length then .error .pipes
  else if maxStreams ≤ wires.outCount src ∨ maxStreams ≤ wires.inCount dst then .error .streams
  else
    .ok
      { edges := wires.edges ++ [⟨src, dst, wires.outCount src, wires.inCount dst⟩]
        inCount := fun leaf => if leaf = dst then wires.inCount leaf + 1 else wires.inCount leaf
        outCount := fun leaf =>
          if leaf = src then wires.outCount leaf + 1 else wires.outCount leaf }

/-- The nodes `pur_member` gives for a group. -/
def Ast.groupMembers (ast : Ast) (node : Node) : List Nat :=
  (ast.members.drop node.first).take node.count

/-- `pur_nodes[node]`. -/
def Ast.node (ast : Ast) (n : Nat) : Except Fault Node :=
  match ast.nodes[n]? with
  | some node => .ok node
  | none => .error .noNode

def outputsCollect (ast : Ast) : Nat → Nat → List Nat → Except Fault (List Nat)
  | 0, _, _ => .error .outOfFuel
  | fuel + 1, n, out => do
      let p ← ast.node n
      match p.kind with
      | .leaf => if maxLeaves ≤ out.length then .error .streams else .ok (out ++ [p.first])
      | .group =>
          (ast.groupMembers p).foldlM (fun out member => outputsCollect ast fuel member out) out
      | .expr => outputsCollect ast fuel p.rhs out

/-- Every source is wired to one leaf: what both ways to deliver do at a leaf. -/
def deliverLeaf (srcs : List Nat) (leaf : Nat) (wires : Wires) : Except Fault Wires :=
  srcs.foldlM (fun wires src => addEdge src leaf wires) wires

def deliverInternal (ast : Ast) (srcs : List Nat)
    : Nat → Nat → Wires → Except Fault Wires
  | 0, _, _ => .error .outOfFuel
  | fuel + 1, n, wires => do
      let p ← ast.node n
      match p.kind with
      | .leaf => deliverLeaf srcs p.first wires
      | .group =>
          (ast.groupMembers p).foldlM
            (fun wires member => deliverInternal ast srcs fuel member wires) wires
      | .expr => deliverInternal ast srcs fuel p.rhs wires

/-- `deliver_external`, which `wire_bare_sides` calls for a side that is a leaf and does nothing for
one that is not.
-/
def deliverBare (ast : Ast) (srcs : List Nat) (n : Nat) (wires : Wires) : Except Fault Wires := do
  let p ← ast.node n
  if p.kind = .leaf then deliverLeaf srcs p.first wires else return wires

def wireBareSides (ast : Ast) (srcs : List Nat) (n : Nat) (wires : Wires)
    : Except Fault Wires := do
  let p ← ast.node n
  let wires ← deliverBare ast srcs p.first wires
  deliverBare ast srcs p.rhs wires

def deliverExternal (ast : Ast) (srcs : List Nat) (n : Nat) (wires : Wires)
    : Except Fault Wires := do
  let p ← ast.node n
  match p.kind with
  | .leaf => deliverLeaf srcs p.first wires
  | .group =>
      (ast.groupMembers p).foldlM
        (fun wires member => do
          let m ← ast.node member
          match m.kind with
          | .leaf => deliverLeaf srcs m.first wires
          | .expr => wireBareSides ast srcs member wires
          | .group => return wires)
        wires
  | .expr => wireBareSides ast srcs n wires

def wireInternals (ast : Ast) : Nat → Nat → Bool → Wires → Except Fault Wires
  | 0, _, _, _ => .error .outOfFuel
  | fuel + 1, n, wireSelf, wires => do
      let p ← ast.node n
      match p.kind with
      | .group =>
          (ast.groupMembers p).foldlM
            (fun wires member => wireInternals ast fuel member true wires) wires
      | .leaf => return wires
      | .expr => do
          let wires ← wireInternals ast fuel p.first true wires
          let wires ← wireInternals ast fuel p.rhs true wires
          if !wireSelf then return wires
          else do
            let outs ← outputsCollect ast fuel p.first []
            deliverInternal ast outs fuel p.rhs wires

/-- `wire_graph`. No walk goes deeper than there are nodes. -/
def wireGraph (ast : Ast) (root : Nat) : Except Fault Wires :=
  if ast.leaves.length = 0 then .ok resetState
  else do
    let p ← ast.node root
    if p.kind ≠ .expr then return resetState
    else do
      let fuel := ast.nodes.length
      let wires ← wireInternals ast fuel root false resetState
      let outs ← outputsCollect ast fuel p.first []
      deliverExternal ast outs p.rhs wires

end Panuti.Pur
