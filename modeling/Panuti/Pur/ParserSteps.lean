import Panuti.Library.Outcome
import Panuti.Pur.Grammar

/-! What the parts of the parser do that are not recursive: the pools, and the words of a leaf. -/

namespace Panuti.Pur

open Library

/-- What stops a parse on account of what there is room for. -/
def Stop.Capacity (stop : Stop) : Prop := ∃ status, stop = .status status ∧ status.capacity = true

-- The token at a place

/-- What a token stands for, where `read` is the string at an offset. -/
def Token.standsFor (read : Nat → Text) (token : Token) : Lexeme :=
  match token.type with
  | .word => .word (read token.off)
  | .lparen => .lparen
  | .rparen => .rparen
  | .semi => .semi
  | .gt => .gt
  | .and => .and
  | .or => .or
  | .bg => .bg
  | .pipe => .pipe

theorem peek_eq_some {toks : List Token} {type : TokType} (seen : peek toks = some type)
    : ∃ token rest, toks = token :: rest ∧ token.type = type := by
  cases toks with
  | nil => cases seen
  | cons token toks => exact ⟨token, toks, rfl, Option.some.inj seen⟩

theorem peek_eq_none {toks : List Token} (seen : peek toks = Option.none) : toks = [] := by
  cases toks with
  | nil => rfl
  | cons token toks => cases seen

-- The pools

/-- Pools with nodes, leaves, offsets and members behind theirs. -/
def Ast.add (ast : Ast) (nodes : List Node) (leaves : List Leaf) (argvOff members : List Nat)
    (asked : Nat)
    : Ast :=
  ⟨ast.nodes ++ nodes, ast.leaves ++ leaves, ast.argvOff ++ argvOff, ast.members ++ members,
    asked⟩

theorem Ast.extends_add (ast : Ast) (nodes : List Node) (leaves : List Leaf)
    (argvOff members : List Nat) (asked : Nat)
    : ast.Extends (ast.add nodes leaves argvOff members asked) :=
  ⟨List.prefix_append .., List.prefix_append .., List.prefix_append .., List.prefix_append ..⟩

theorem poolReserve_settles (grants : Nat → Bool) {refused : Status}
    (capacity : refused.capacity = true) (ast : Ast)
    : Settles Stop.Capacity (fun later => ∃ asked, later = ast.add [] [] [] [] asked)
        (poolReserve grants refused ast) := by
  rw [poolReserve]
  split
  · exact ⟨ast.asked + 1, by simp [Ast.add]⟩
  · exact ⟨refused, rfl, capacity⟩

@[simp]
theorem Ast.add_add (ast : Ast) (nodes more : List Node) (leaves moreLeaves : List Leaf)
    (argvOff moreOff members moreMembers : List Nat) (asked askedToo : Nat)
    : (ast.add nodes leaves argvOff members asked).add more moreLeaves moreOff moreMembers askedToo
      = ast.add (nodes ++ more) (leaves ++ moreLeaves) (argvOff ++ moreOff)
          (members ++ moreMembers) askedToo := by
  simp [Ast.add]

theorem Ast.setNode_add (ast : Ast) (node set : Node) (leaves : List Leaf)
    (argvOff members : List Nat) (asked : Nat)
    : (ast.add [node] leaves argvOff members asked).setNode ast.nodes.length set
      = ast.add [set] leaves argvOff members asked := by
  simp [Ast.add, Ast.setNode]

theorem purNodeNew_settles (grants : Nat → Bool) (kind : Kind) (ast : Ast)
    : Settles Stop.Capacity
        (fun made => made.1 = ast.nodes.length
          ∧ ∃ asked, made.2 = ast.add [⟨kind, 0, 0, 0⟩] [] [] [] asked)
        (purNodeNew grants kind ast) := by
  apply (poolReserve_settles grants rfl ast).bind
  rintro _ ⟨asked, rfl⟩
  exact ⟨by simp [Ast.add], asked, by simp [Ast.add]⟩

theorem purLeafNew_settles (argvFirst argc : Nat) (ast : Ast)
    : Settles Stop.Capacity
        (fun made => made.1 = ast.leaves.length
          ∧ ∃ asked, made.2 = ast.add [] [⟨argvFirst, argc⟩] [] [] asked)
        (purLeafNew argvFirst argc ast) := by
  rw [purLeafNew]
  split
  · exact ⟨.leaves, rfl, rfl⟩
  · exact ⟨rfl, ast.asked, by simp [Ast.add]⟩

theorem purArgvPush_settles (grants : Nat → Bool) (off : Nat) (ast : Ast)
    : Settles Stop.Capacity (fun later => ∃ asked, later = ast.add [] [] [off] [] asked)
        (purArgvPush grants off ast) := by
  apply (poolReserve_settles grants rfl ast).bind
  rintro _ ⟨asked, rfl⟩
  exact ⟨asked, by simp [Ast.add]⟩

theorem purGroupSet_settles (grants : Nat → Bool) (group : Nat) (members : List Nat) (ast : Ast)
    : Settles Stop.Capacity
        (fun later => ∃ asked, later = (ast.add [] [] [] members asked).setNode group
          ⟨.group, ast.members.length, members.length, 0⟩)
        (purGroupSet grants group members ast) := by
  have room : Settles Stop.Capacity (fun later => ∃ asked, later = ast.add [] [] [] [] asked)
      (if 0 < members.length then poolReserve grants .nodes ast else .ok ast) := by
    split
    · exact poolReserve_settles grants rfl ast
    · exact ⟨ast.asked, by simp [Ast.add]⟩
  apply room.bind
  rintro _ ⟨asked, rfl⟩
  exact ⟨asked, by simp [Ast.add]⟩

theorem Ast.setNode_group (ast : Ast) (members : List Nat) (asked askedToo : Nat)
    : ((ast.add [⟨.group, 0, 0, 0⟩] [] [] [] asked).add [] [] [] members askedToo).setNode
          ast.nodes.length
          ⟨.group, (ast.add [⟨.group, 0, 0, 0⟩] [] [] [] asked).members.length, members.length, 0⟩
      = ast.add [⟨.group, ast.members.length, members.length, 0⟩] [] [] members askedToo := by
  rw [Ast.add_add, List.append_nil, List.append_nil, List.append_nil, List.nil_append,
    Ast.setNode_add]
  simp [Ast.add]

-- A leaf

theorem parseWords_settles (grants : Nat → Bool) {after : List Token}
    (stops : peek after ≠ some .word)
    : ∀ (words : List Token) (argc : Nat) (ast : Ast), (∀ token ∈ words, token.type = .word)
      → Settles Stop.Capacity
          (fun made => made.1 = argc + words.length ∧ made.2.1 = after
            ∧ ∃ asked, made.2.2 = ast.add [] [] (words.map Token.off) [] asked)
          (parseWords grants (words ++ after) argc ast) := by
  intro words
  induction words with
  | nil =>
      intro argc ast _
      have here : parseWords grants after argc ast = .ok (argc, after, ast) := by
        cases after with
        | nil => rfl
        | cons token toks =>
            rw [parseWords, if_neg]
            intro isWord
            exact stops (congrArg some isWord)
      rw [List.nil_append, here]
      exact ⟨rfl, rfl, ast.asked, by simp [Ast.add]⟩
  | cons token words ih =>
      intro argc ast all
      rw [List.cons_append, parseWords, if_pos (all token (List.mem_cons_self ..))]
      split
      · exact ⟨.argv, rfl, rfl⟩
      apply (purArgvPush_settles grants token.off ast).bind
      rintro _ ⟨asked, rfl⟩
      apply (ih (argc + 1) _ (fun other member => all other (List.mem_cons_of_mem _ member))).mono
        (fun _ => id)
      rintro ⟨count, toks, later⟩ ⟨rfl, rfl, askedToo, rfl⟩
      refine ⟨?_, rfl, askedToo, ?_⟩
      · simp only [List.length_cons]
        omega
      · simp [Ast.add]

theorem parseLeaf_settles (grants : Nat → Bool) {words after : List Token}
    (all : ∀ token ∈ words, token.type = .word) (stops : peek after ≠ some .word) (ast : Ast)
    : Settles Stop.Capacity
        (fun made => made.1 = ast.nodes.length ∧ made.2.1 = after
          ∧ ∃ asked, made.2.2 = ast.add [⟨.leaf, ast.leaves.length, 0, 0⟩]
              [⟨ast.argvOff.length, words.length⟩] (words.map Token.off) [] asked)
        (parseLeaf grants (words ++ after) ast) := by
  apply (parseWords_settles grants stops words 0 ast all).bind
  rintro ⟨argc, toks, later⟩ ⟨rfl, rfl, asked, rfl⟩
  apply (purLeafNew_settles _ _ _).bind
  rintro ⟨leaf, later⟩ ⟨rfl, asked, rfl⟩
  apply (purNodeNew_settles grants .leaf _).bind
  rintro ⟨n, later⟩ ⟨rfl, asked, rfl⟩
  refine ⟨by simp [Ast.add], rfl, asked, ?_⟩
  rw [Ast.setNode_add, Ast.add_add, Ast.add_add]
  simp [Ast.add]

end Panuti.Pur
