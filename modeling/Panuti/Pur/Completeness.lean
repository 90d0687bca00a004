import Panuti.Pur.Soundness

/-! An expression of the grammar is accepted, and its tree is what the pools then hold, unless there
is no room for it.
-/

namespace Panuti.Pur

open Library

-- How the parts of an expression begin

def Lexeme.type : Lexeme → TokType
  | .word _ => .word
  | .lparen => .lparen
  | .rparen => .rparen
  | .semi => .semi
  | .gt => .gt
  | .and => .and
  | .or => .or
  | .bg => .bg
  | .pipe => .pipe

theorem Token.says_type (read : Nat → Text) (token : Token)
    : (token.standsFor read).type = token.type := by
  obtain ⟨type, off, len⟩ := token
  cases type <;> rfl

def Opens (lexemes : List Lexeme) : Prop :=
  ∃ first rest, lexemes = first :: rest ∧ (first.type = .word ∨ first.type = .lparen)

variable {α : Type} {lexemes rest : List Lexeme} {trailing : Bool} {tree : Tree (List Text)}
    {trees : List (Tree (List Text))} {read : Nat → Text} {toks : List Token} {ast : Ast}
    {holds : Nat → α → Prop} {asked : Nat} {members : List Nat}

theorem Opens.append (opens : Opens lexemes) (more : List Lexeme) : Opens (lexemes ++ more) := by
  obtain ⟨first, rest, rfl, type⟩ := opens
  exact ⟨first, rest ++ more, rfl, type⟩

theorem Derives.operand_opens (derives : Derives trailing (.operand tree) lexemes)
    : Opens lexemes := by
  cases derives with
  | @command words some =>
      cases words with
      | nil => exact absurd rfl some
      | cons word words => exact ⟨.word word, words.map .word, rfl, Or.inl rfl⟩
  | group members => exact ⟨.lparen, _, rfl, Or.inr rfl⟩

theorem Derives.expression_opens (derives : Derives trailing (.expression tree) lexemes)
    : Opens lexemes := by
  cases derives with
  | expression operand chain => exact operand.operand_opens.append _

theorem Derives.members_opens (derives : Derives trailing (.members trees) lexemes)
    : Opens lexemes := by
  cases derives with
  | last expression => exact expression.expression_opens
  | lastSemi allowed expression => exact expression.expression_opens.append _
  | more expression members => exact expression.expression_opens.append _

theorem Derives.chain_stops {left : Tree (List Text)}
    (derives : Derives trailing (.chain left tree) lexemes)
    : lexemes = [] ∨ ∃ rest, lexemes = .gt :: rest := by
  cases derives with
  | stop => exact Or.inl rfl
  | pipe operand chain => exact Or.inr ⟨_, rfl⟩

theorem peek_opens (opens : Opens (toks.map (Token.standsFor read))) (after : List Token)
    : peek (toks ++ after) = some .word ∨ peek (toks ++ after) = some .lparen := by
  obtain ⟨first, rest, same, type⟩ := opens
  cases toks with
  | nil => cases same
  | cons token toks =>
      rw [List.map_cons, List.cons.injEq] at same
      rw [← same.1, Token.says_type] at type
      rcases type with type | type
      · exact Or.inl (congrArg some type)
      · exact Or.inr (congrArg some type)

theorem says_cons {first : Lexeme} (same : toks.map (Token.standsFor read) = first :: rest)
    : ∃ token more, toks = token :: more ∧ token.type = first.type
        ∧ more.map (Token.standsFor read) = rest := by
  cases toks with
  | nil => cases same
  | cons token toks =>
      rw [List.map_cons, List.cons.injEq] at same
      refine ⟨token, toks, rfl, ?_, same.2⟩
      rw [← same.1, Token.says_type]

theorem says_append (same : toks.map (Token.standsFor read) = lexemes ++ rest)
    : ∃ used more, toks = used ++ more ∧ used.map (Token.standsFor read) = lexemes
        ∧ more.map (Token.standsFor read) = rest := by
  obtain ⟨used, more, rfl, first, second⟩ := List.map_eq_append_iff.mp same
  exact ⟨used, more, rfl, first, second⟩

theorem words_says {words : List Text} (same : toks.map (Token.standsFor read) = words.map .word)
    : (∀ token ∈ toks, token.type = .word) ∧ toks.map (fun token => read token.off) = words := by
  have all : ∀ token ∈ toks, token.type = .word := by
    intro token member
    have : token.standsFor read ∈ words.map Lexeme.word := same ▸ List.mem_map_of_mem member
    obtain ⟨word, -, is⟩ := List.mem_map.mp this
    rw [← Token.says_type read, ← is]
    rfl
  refine ⟨all, ?_⟩
  rw [says_words read all] at same
  exact List.map_injective_iff.mpr (fun _ _ => Lexeme.word.inj) same

-- Trees behind new nodes

abbrev Ast.Reads (ast : Ast) (read : Nat → Text) (n : Nat) (tree : Tree (List Text)) : Prop :=
  ast.Yields (ast.Words read) n tree

theorem Ast.Reads.grow {later : Ast} {n : Nat} (reads : ast.Reads read n tree)
    (grows : ast.Extends later)
    : later.Reads read n tree :=
  Ast.Yields.grow grows (fun _ _ held => held.grow grows) reads

theorem Ast.YieldsAll.growWords {later : Ast} {nodes : List Nat}
    (all : ast.YieldsAll (ast.Words read) nodes trees) (grows : ast.Extends later)
    : later.YieldsAll (later.Words read) nodes trees :=
  Ast.YieldsAll.grow grows (fun _ _ held => held.grow grows) all

theorem Ast.reads_leaf (ast : Ast) (read : Nat → Text) (words : List Token) (asked : Nat)
    : (ast.add [⟨.leaf, ast.leaves.length, 0, 0⟩] [⟨ast.argvOff.length, words.length⟩]
        (words.map Token.off) [] asked).Reads read ast.nodes.length
        (.leaf (words.map (fun token => read token.off))) := by
  simp only [Ast.Reads, Ast.Yields]
  refine ⟨ast.leaves.length, by simp [Ast.add], ⟨ast.argvOff.length, words.length⟩,
    by simp [Ast.add], by simp, by simp [Ast.add], ?_⟩
  simp only [Ast.add, List.drop_left]
  rw [List.take_of_length_le (by simp), List.map_map]
  rfl

theorem Ast.yields_pipe {node rhs : Nat} {left right : Tree α}
    (yieldsLeft : (ast.add [⟨.expr, node, 0, rhs⟩] [] [] [] asked).Yields holds node left)
    (yieldsRight : (ast.add [⟨.expr, node, 0, rhs⟩] [] [] [] asked).Yields holds rhs right)
    : (ast.add [⟨.expr, node, 0, rhs⟩] [] [] [] asked).Yields holds ast.nodes.length
        (.pipe left right) := by
  simp only [Ast.Yields]
  exact ⟨node, rhs, by simp [Ast.add], yieldsLeft, yieldsRight⟩

theorem Ast.yields_group {trees : List (Tree α)}
    (all : (ast.add [⟨.group, ast.members.length, members.length, 0⟩] [] [] members
      asked).YieldsAll holds members trees)
    : (ast.add [⟨.group, ast.members.length, members.length, 0⟩] [] [] members
        asked).Yields holds ast.nodes.length (.group trees) := by
  have count := all.length
  simp only [Ast.Yields]
  refine ⟨ast.members.length, by simp [Ast.add, count], by simp [Ast.add, count], ?_⟩
  have slice : ((ast.add [⟨.group, ast.members.length, members.length, 0⟩] [] [] members
      asked).members.drop ast.members.length).take trees.length = members := by
    simp [Ast.add, ← count]
  rw [slice]
  exact all

/-- The node that a group gives. -/
theorem groupOf_yields {trees : List (Tree α)}
    (all : (ast.add [⟨.group, ast.members.length, members.length, 0⟩] [] [] members
      asked).YieldsAll holds members trees)
    : (∀ single, members = [single] → (ast.add [⟨.group, ast.members.length, members.length, 0⟩]
          [] [] members asked).Yields holds single (groupOf trees))
      ∧ ((∀ single, members ≠ [single]) → (ast.add [⟨.group, ast.members.length, members.length, 0⟩]
          [] [] members asked).Yields holds ast.nodes.length (groupOf trees)) := by
  have count := all.length
  constructor
  · rintro single rfl
    obtain ⟨tree, rfl⟩ := List.length_eq_one_iff.mp count.symm
    simp only [Ast.YieldsAll] at all
    exact all.1
  · intro several
    have notOne : ∀ tree, trees ≠ [tree] := by
      rintro tree rfl
      obtain ⟨single, rfl⟩ := List.length_eq_one_iff.mp count
      exact several single rfl
    have isGroup : groupOf trees = .group trees := by
      rw [groupOf]
      exact notOne
    rw [isGroup]
    exact Ast.yields_group all

-- What is derived is accepted

/-- A parse stops at `after`, with the tree in the pools. -/
def Gives (read : Nat → Text) (after : List Token) (ast : Ast) (tree : Tree (List Text))
    (made : Nat × List Token × Ast)
    : Prop :=
  made.2.1 = after ∧ ast.Extends made.2.2 ∧ made.2.2.Reads read made.1 tree

/-- Tokens that stand for lexemes of a symbol are accepted as such, whatever is behind them that
does not go on with it.
-/
def Accepted (grants : Nat → Bool) (read : Nat → Text) : Symbol → List Lexeme → Prop
  | .operand tree, lexemes => ∀ toks after depth fuel ast, toks.map (Token.standsFor read) = lexemes
      → peek after ≠ some .word → 4 * (toks ++ after).length + 1 ≤ fuel
      → Settles Stop.Capacity (Gives read after ast tree)
          (parseOperand grants fuel depth (toks ++ after) ast)
  | .expression tree, lexemes => ∀ toks after depth fuel ast,
      toks.map (Token.standsFor read) = lexemes → peek after ≠ some .word → peek after ≠ some .gt
      → 4 * (toks ++ after).length + 2 ≤ fuel
      → Settles Stop.Capacity (Gives read after ast tree)
          (parseExpr grants fuel depth (toks ++ after) ast)
  | .chain left tree, lexemes => ∀ toks after depth fuel node ast,
      toks.map (Token.standsFor read) = lexemes → peek after ≠ some .word → peek after ≠ some .gt
      → 4 * (toks ++ after).length + 1 ≤ fuel → ast.Reads read node left
      → Settles Stop.Capacity (Gives read after ast tree)
          (exprLoop grants fuel depth node (toks ++ after) ast)
  | .members trees, lexemes => ∀ toks after depth fuel before treesBefore ast,
      toks.map (Token.standsFor read) = lexemes → peek after = some .rparen
      → 4 * (toks ++ after).length + 3 ≤ fuel
      → ast.YieldsAll (ast.Words read) before treesBefore
      → Settles Stop.Capacity
          (fun made => made.2.1 = after ∧ ast.Extends made.2.2
            ∧ made.2.2.YieldsAll (made.2.2.Words read) made.1 (treesBefore ++ trees))
          (membersLoop grants fuel depth before (toks ++ after) ast)

section

variable {grants : Nat → Bool} {read : Nat → Text}

theorem Accepted.command {words : List Text} (some : words ≠ [])
    : Accepted grants read (.operand (.leaf words)) (words.map .word) := by
  intro toks after depth fuel ast same stops enough
  obtain ⟨fuel, rfl⟩ := Nat.exists_eq_add_of_lt (Nat.lt_of_lt_of_le (Nat.succ_pos _) enough)
  rw [Nat.zero_add]
  obtain ⟨all, rfl⟩ := words_says same
  have isWord : peek (toks ++ after) = Option.some .word := by
    cases toks with
    | nil => exact absurd rfl some
    | cons token toks => exact congrArg Option.some (all token (List.mem_cons_self ..))
  rw [parseOperand, if_neg (by simp [isWord]), if_pos isWord]
  apply (parseLeaf_settles grants all stops ast).mono (fun _ => id)
  rintro ⟨n, rest, later⟩ ⟨rfl, rfl, asked, rfl⟩
  exact ⟨rfl, ast.extends_add .., ast.reads_leaf read toks asked⟩

theorem Accepted.group {trees : List (Tree (List Text))} {inside : List Lexeme}
    (derives : Derives true (.members trees) inside)
    (members : Accepted grants read (.members trees) inside)
    : Accepted grants read (.operand (groupOf trees)) (.lparen :: (inside ++ [.rparen])) := by
  intro toks after depth fuel ast same stops enough
  obtain ⟨first, more, rfl, isLparen, same⟩ := says_cons same
  obtain ⟨used, close, rfl, saysUsed, saysClose⟩ := says_append same
  obtain ⟨last, none, rfl, isRparen, saysNone⟩ := says_cons saysClose
  obtain rfl := List.map_eq_nil_iff.mp saysNone
  have shape : first :: (used ++ [last]) ++ after = first :: (used ++ last :: after) := by simp
  rw [shape] at enough ⊢
  simp only [List.length_cons, List.length_append] at enough
  obtain ⟨fuel, rfl⟩ : ∃ more, fuel = more + 1 + 1 := ⟨fuel - 2, by omega⟩
  have opens : peek (first :: (used ++ last :: after)) = some .lparen := congrArg some isLparen
  have notEmpty : peek (first :: (used ++ last :: after)).tail ≠ some .rparen := by
    rw [List.tail_cons]
    rcases peek_opens (saysUsed ▸ derives.members_opens) (last :: after) with is | is <;> simp [is]
  rw [parseOperand, if_pos opens, parseGroup, if_neg (not_not.mpr opens)]
  by_cases deep : maxDepth ≤ depth
  · rw [if_pos deep]
    exact ⟨.complex, rfl, rfl⟩
  rw [if_neg deep, if_neg notEmpty]
  apply Settles.bind (members used (last :: after) depth fuel [] [] ast saysUsed
    (congrArg some isRparen) (by simp; omega) (by simp only [Ast.YieldsAll]))
  rintro ⟨nodes, rest, ast1⟩ ⟨rfl, grows, all⟩
  dsimp only at grows all ⊢
  have closes : peek (last :: after) = some .rparen := congrArg some isRparen
  rw [if_neg (not_not.mpr closes)]
  apply (purNodeNew_settles grants .group ast1).bind
  rintro ⟨g, later⟩ ⟨rfl, asked, rfl⟩
  apply (purGroupSet_settles grants _ nodes _).bind
  rintro later ⟨askedToo, made⟩
  have made := made.trans (ast1.setNode_group nodes asked askedToo)
  subst made
  have added := ast1.extends_add [⟨.group, ast1.members.length, nodes.length, 0⟩] [] [] nodes
    askedToo
  obtain ⟨one, several⟩ := groupOf_yields (all.growWords added)
  have grows := grows.trans added
  split
  next single => exact ⟨rfl, grows, one single rfl⟩
  next notOne => exact ⟨rfl, grows, several (fun single => notOne single)⟩

theorem Accepted.expression {first : Tree (List Text)}
    (derives : Derives true (.chain first tree) rest)
    (operand : Accepted grants read (.operand first) lexemes)
    (chain : Accepted grants read (.chain first tree) rest)
    : Accepted grants read (.expression tree) (lexemes ++ rest) := by
  intro toks after depth fuel ast same noWord noGt enough
  obtain ⟨used, more, rfl, saysUsed, saysMore⟩ := says_append same
  obtain ⟨fuel, rfl⟩ : ∃ more, fuel = more + 1 := ⟨fuel - 1, by omega⟩
  rw [List.append_assoc] at enough ⊢
  have stops : peek (more ++ after) ≠ some .word := by
    rcases derives.chain_stops with rfl | ⟨others, rfl⟩
    · obtain rfl := List.map_eq_nil_iff.mp saysMore
      exact noWord
    · obtain ⟨token, others, rfl, isGt, -⟩ := says_cons saysMore
      simp [peek, isGt, Lexeme.type]
  rw [parseExpr]
  apply Settles.bind (operand used (more ++ after) depth fuel ast saysUsed stops (by omega))
  rintro ⟨node, rest, ast1⟩ ⟨rfl, grows, reads⟩
  simp only [List.length_append] at enough
  apply (chain more after depth fuel node ast1 saysMore noWord noGt
    (by rw [List.length_append]; omega) reads).mono (fun _ => id)
  rintro ⟨n, rest, ast2⟩ ⟨rfl, growsToo, readsToo⟩
  exact ⟨rfl, grows.trans growsToo, readsToo⟩

theorem Accepted.stop : Accepted grants read (.chain tree tree) [] := by
  intro toks after depth fuel node ast same noWord noGt enough reads
  obtain rfl := List.map_eq_nil_iff.mp same
  obtain ⟨fuel, rfl⟩ : ∃ more, fuel = more + 1 := ⟨fuel - 1, by omega⟩
  rw [List.nil_append, exprLoop, if_neg noGt]
  exact ⟨rfl, .refl ast, reads⟩

theorem Accepted.pipe {left right : Tree (List Text)}
    (derivesRight : Derives true (.operand right) lexemes)
    (derives : Derives true (.chain (.pipe left right) tree) rest)
    (operand : Accepted grants read (.operand right) lexemes)
    (chain : Accepted grants read (.chain (.pipe left right) tree) rest)
    : Accepted grants read (.chain left tree) (.gt :: (lexemes ++ rest)) := by
  intro toks after depth fuel node ast same noWord noGt enough reads
  obtain ⟨first, others, rfl, isGt, same⟩ := says_cons same
  obtain ⟨used, more, rfl, saysUsed, saysMore⟩ := says_append same
  obtain ⟨fuel, rfl⟩ : ∃ more, fuel = more + 1 := ⟨fuel - 1, by omega⟩
  rw [List.cons_append, List.append_assoc] at enough ⊢
  have stops : peek (more ++ after) ≠ some .word := by
    rcases derives.chain_stops with rfl | ⟨others, rfl⟩
    · obtain rfl := List.map_eq_nil_iff.mp saysMore
      exact noWord
    · obtain ⟨token, others, rfl, isGt, -⟩ := says_cons saysMore
      simp [peek, isGt, Lexeme.type]
  have opens : peek (used ++ (more ++ after)) = some .word
      ∨ peek (used ++ (more ++ after)) = some .lparen :=
    peek_opens (saysUsed ▸ derivesRight.operand_opens) _
  have isOperand : ¬ (peek (first :: (used ++ (more ++ after))).tail ≠ some .word
      ∧ peek (first :: (used ++ (more ++ after))).tail ≠ some .lparen) := by
    rw [List.tail_cons]
    rintro ⟨notWord, notLparen⟩
    exact opens.elim notWord notLparen
  have seen : peek (first :: (used ++ (more ++ after))) = some .gt := congrArg some isGt
  rw [exprLoop, if_pos seen]
  by_cases deep : maxDepth < depth + 1
  · rw [if_pos deep]
    exact ⟨.complex, rfl, rfl⟩
  rw [if_neg deep, if_neg isOperand]
  simp only [List.length_cons, List.length_append] at enough
  apply Settles.bind (operand used (more ++ after) (depth + 1) fuel ast saysUsed stops
    (by simp only [List.length_append]; omega))
  rintro ⟨rhs, rest, ast1⟩ ⟨rfl, grows, readsRight⟩
  apply (purNodeNew_settles grants .expr ast1).bind
  rintro ⟨e, later⟩ ⟨rfl, asked, rfl⟩
  dsimp only
  rw [Ast.setNode_add]
  have added := ast1.extends_add [⟨.expr, node, 0, rhs⟩] [] [] [] asked
  have readsPipe : (ast1.add [⟨.expr, node, 0, rhs⟩] [] [] [] asked).Reads read
      ast1.nodes.length (.pipe left right) :=
    Ast.yields_pipe (reads.grow (grows.trans added)) (readsRight.grow added)
  apply (chain more after (depth + 1) fuel _ _ saysMore noWord noGt
    (by rw [List.length_append]; omega) readsPipe).mono (fun _ => id)
  rintro ⟨n, rest, ast2⟩ ⟨rfl, growsToo, readsToo⟩
  exact ⟨rfl, (grows.trans added).trans growsToo, readsToo⟩

theorem Accepted.member (expression : Accepted grants read (.expression tree) lexemes)
    {used after : List Token} {depth fuel : Nat} {before : List Nat}
    {treesBefore : List (Tree (List Text))} {holds : List Nat × List Token × Ast → Prop}
    (same : used.map (Token.standsFor read) = lexemes) (noWord : peek after ≠ some .word)
    (noGt : peek after ≠ some .gt) (enough : 4 * (used ++ after).length + 3 ≤ fuel + 1)
    (all : ast.YieldsAll (ast.Words read) before treesBefore)
    (next : ∀ member later, ast.Extends later
      → later.YieldsAll (later.Words read) (before ++ [member]) (treesBefore ++ [tree])
      → Settles Stop.Capacity holds
          (if peek after ≠ some .semi then .ok (before ++ [member], after, later)
            else if peek after.tail = some .rparen then
              .ok (before ++ [member], after.tail, later)
            else membersLoop grants fuel depth (before ++ [member]) after.tail later))
    : Settles Stop.Capacity holds
        (membersLoop grants (fuel + 1) depth before (used ++ after) ast) := by
  rw [membersLoop]
  apply (poolReserve_settles grants rfl ast).bind
  rintro _ ⟨asked, rfl⟩
  apply Settles.bind (expression used after (depth + 1) fuel _ same noWord noGt (by omega))
  rintro ⟨member, rest, later⟩ ⟨rfl, grows, reads⟩
  have grows := (ast.extends_add [] [] [] [] asked).trans grows
  exact next member later grows ((all.growWords grows).snoc reads)

theorem Accepted.last {tree : Tree (List Text)} {lexemes : List Lexeme}
    (expression : Accepted grants read (.expression tree) lexemes)
    : Accepted grants read (.members [tree]) lexemes := by
  intro toks after depth fuel before treesBefore ast same closes enough all
  obtain ⟨fuel, rfl⟩ : ∃ more, fuel = more + 1 := ⟨fuel - 1, by omega⟩
  apply expression.member same (by simp [closes]) (by simp [closes]) enough all
  intro member later grows all
  rw [if_pos (by simp [closes])]
  exact ⟨rfl, grows, all⟩

theorem Accepted.lastSemi (expression : Accepted grants read (.expression tree) lexemes)
    : Accepted grants read (.members [tree]) (lexemes ++ [.semi]) := by
  intro toks after depth fuel before treesBefore ast same closes enough all
  obtain ⟨fuel, rfl⟩ : ∃ more, fuel = more + 1 := ⟨fuel - 1, by omega⟩
  obtain ⟨used, semi, rfl, saysUsed, saysSemi⟩ := says_append same
  obtain ⟨token, none, rfl, isSemi, saysNone⟩ := says_cons saysSemi
  obtain rfl := List.map_eq_nil_iff.mp saysNone
  have seen : peek (token :: after) = some .semi := congrArg some isSemi
  rw [List.append_assoc, List.singleton_append] at enough ⊢
  apply expression.member saysUsed (by simp [seen]) (by simp [seen]) enough all
  intro member later grows all
  rw [if_neg (not_not.mpr seen), List.tail_cons, if_pos closes]
  exact ⟨rfl, grows, all⟩

theorem Accepted.more (derives : Derives true (.members trees) rest)
    (expression : Accepted grants read (.expression tree) lexemes)
    (members : Accepted grants read (.members trees) rest)
    : Accepted grants read (.members (tree :: trees)) (lexemes ++ .semi :: rest) := by
  intro toks after depth fuel before treesBefore ast same closes enough all
  obtain ⟨fuel, rfl⟩ : ∃ more, fuel = more + 1 := ⟨fuel - 1, by omega⟩
  obtain ⟨used, others, rfl, saysUsed, saysOthers⟩ := says_append same
  obtain ⟨token, others, rfl, isSemi, saysOthers⟩ := says_cons saysOthers
  have seen : peek (token :: (others ++ after)) = some .semi := congrArg some isSemi
  have notClosed : peek (others ++ after) ≠ some .rparen := by
    rcases peek_opens (saysOthers ▸ derives.members_opens) after with is | is <;> simp [is]
  rw [List.append_assoc, List.cons_append] at enough ⊢
  apply expression.member saysUsed (by simp [seen]) (by simp [seen]) enough all
  intro member later grows all
  rw [if_neg (not_not.mpr seen), List.tail_cons, if_neg notClosed]
  simp only [List.length_append, List.length_cons] at enough
  apply (members others after depth fuel (before ++ [member]) (treesBefore ++ [tree]) later
    saysOthers closes (by rw [List.length_append]; omega) all).mono (fun _ => id)
  rintro ⟨nodes, rest, last⟩ ⟨rfl, growsToo, all⟩
  refine ⟨rfl, grows.trans growsToo, ?_⟩
  rwa [List.append_assoc, List.singleton_append] at all

end

theorem Derives.accepted (grants : Nat → Bool) (read : Nat → Text) {symbol : Symbol}
    (derives : Derives true symbol lexemes)
    : Accepted grants read symbol lexemes := by
  induction derives with
  | command some => exact .command some
  | group members ih => exact .group members ih
  | expression operand chain ihOperand ihChain => exact .expression chain ihOperand ihChain
  | stop => exact .stop
  | pipe operand chain ihOperand ihChain => exact .pipe operand chain ihOperand ihChain
  | last expression ih => exact .last ih
  | lastSemi allowed expression ih => exact .lastSemi ih
  | more expression members ihExpression ihMembers =>
      exact .more members ihExpression ihMembers

end Panuti.Pur
