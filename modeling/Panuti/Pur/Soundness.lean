import Panuti.Pur.ParserSteps

/-! What the parser accepts is an expression of the grammar, and its turns are enough. -/

namespace Panuti.Pur

open Library

-- Tokens that are used up

/-- The tokens up to `rest` stand for lexemes that the symbol derives. -/
def Consumes (read : Nat → Text) (symbol : Symbol) (toks rest : List Token) : Prop :=
  ∃ used, toks = used ++ rest ∧ Derives true symbol (used.map (Token.standsFor read))

variable {tree : Tree (List Text)} {read : Nat → Text} {toks rest middle : List Token}
    {token : Token}

theorem Derives.operand_ne_nil {trailing : Bool} {lexemes : List Lexeme}
    (derives : Derives trailing (.operand tree) lexemes)
    : lexemes ≠ [] := by
  cases derives with
  | command some => simpa using some
  | group members => exact List.cons_ne_nil _ _

theorem Consumes.length_lt (consumes : Consumes read (.operand tree) toks rest)
    : rest.length < toks.length := by
  obtain ⟨used, rfl, derives⟩ := consumes
  have : used ≠ [] := by simpa using derives.operand_ne_nil
  have := List.length_pos_iff.mpr this
  rw [List.length_append]
  omega

theorem Consumes.length_le {symbol : Symbol} (consumes : Consumes read symbol toks rest)
    : rest.length ≤ toks.length := by
  obtain ⟨used, rfl, -⟩ := consumes
  rw [List.length_append]
  exact Nat.le_add_left _ _

theorem Consumes.expression {first : Tree (List Text)}
    (operand : Consumes read (.operand first) toks middle)
    (chain : Consumes read (.chain first tree) middle rest)
    : Consumes read (.expression tree) toks rest := by
  obtain ⟨used, rfl, derives⟩ := operand
  obtain ⟨more, rfl, derivesMore⟩ := chain
  refine ⟨used ++ more, (List.append_assoc ..).symm, ?_⟩
  rw [List.map_append]
  exact .expression derives derivesMore

theorem Consumes.pipe {left right : Tree (List Text)} (isGt : token.type = .gt)
    (operand : Consumes read (.operand right) toks middle)
    (chain : Consumes read (.chain (.pipe left right) tree) middle rest)
    : Consumes read (.chain left tree) (token :: toks) rest := by
  obtain ⟨used, rfl, derives⟩ := operand
  obtain ⟨more, rfl, derivesMore⟩ := chain
  refine ⟨token :: (used ++ more), by simp, ?_⟩
  rw [List.map_cons, List.map_append, Token.standsFor, isGt]
  exact .pipe derives derivesMore

theorem Consumes.group {read : Nat → Text} {trees : List (Tree (List Text))}
    {first last : Token} {toks rest : List Token} (isLparen : first.type = .lparen)
    (isRparen : last.type = .rparen)
    (members : Consumes read (.members trees) toks (last :: rest))
    : Consumes read (.operand (groupOf trees)) (first :: toks) rest := by
  obtain ⟨used, rfl, derives⟩ := members
  refine ⟨first :: (used ++ [last]), by simp, ?_⟩
  have opens : first.standsFor read = .lparen := by rw [Token.standsFor, isLparen]
  have closes : last.standsFor read = .rparen := by rw [Token.standsFor, isRparen]
  rw [List.map_cons, List.map_append, opens, List.map_singleton, closes]
  exact .group derives

theorem Consumes.lastSemi (isSemi : token.type = .semi)
    (expression : Consumes read (.expression tree) toks (token :: rest))
    : Consumes read (.members [tree]) toks rest := by
  obtain ⟨used, rfl, derives⟩ := expression
  refine ⟨used ++ [token], by simp, ?_⟩
  rw [List.map_append, List.map_singleton, Token.standsFor, isSemi]
  exact .lastSemi rfl derives

theorem Consumes.more {trees : List (Tree (List Text))} (isSemi : token.type = .semi)
    (expression : Consumes read (.expression tree) toks (token :: middle))
    (members : Consumes read (.members trees) middle rest)
    : Consumes read (.members (tree :: trees)) toks rest := by
  obtain ⟨used, rfl, derives⟩ := expression
  obtain ⟨more, rfl, derivesMore⟩ := members
  refine ⟨used ++ token :: more, by simp, ?_⟩
  rw [List.map_append, List.map_cons, Token.standsFor, isSemi]
  exact .more derives derivesMore

theorem words_split (toks : List Token)
    : ∃ words after, toks = words ++ after ∧ (∀ token ∈ words, token.type = .word)
        ∧ peek after ≠ some .word := by
  induction toks with
  | nil => exact ⟨[], [], rfl, nofun, nofun⟩
  | cons token toks ih =>
      by_cases isWord : token.type = .word
      · obtain ⟨words, after, rfl, all, stops⟩ := ih
        refine ⟨token :: words, after, rfl, ?_, stops⟩
        intro other member
        rcases List.mem_cons.mp member with rfl | member
        · exact isWord
        · exact all other member
      · exact ⟨[], token :: toks, rfl, nofun, fun same => isWord (Option.some.inj same)⟩

theorem says_words (read : Nat → Text) {words : List Token}
    (all : ∀ token ∈ words, token.type = .word)
    : words.map (Token.standsFor read) = (words.map (fun token => read token.off)).map .word := by
  rw [List.map_map]
  apply List.map_congr_left
  intro token member
  rw [Token.standsFor, all token member]
  rfl

-- One turn more

theorem Stop.Capacity.inFuel {stop : Stop} (capacity : stop.Capacity) : stop ≠ .outOfFuel := by
  obtain ⟨status, rfl, -⟩ := capacity
  exact nofun

/-- What is accepted with so many turns, where these are enough. -/
structure SoundAt (grants : Nat → Bool) (read : Nat → Text) (fuel : Nat) : Prop where
  expr : ∀ depth toks ast, 4 * toks.length + 2 ≤ fuel
    → Settles (· ≠ .outOfFuel)
        (fun made => ∃ tree, Consumes read (.expression tree) toks made.2.1)
        (parseExpr grants fuel depth toks ast)
  chain : ∀ depth node toks ast, 4 * toks.length + 1 ≤ fuel
    → Settles (· ≠ .outOfFuel)
        (fun made => ∀ left, ∃ tree, Consumes read (.chain left tree) toks made.2.1)
        (exprLoop grants fuel depth node toks ast)
  operand : ∀ depth toks ast, 4 * toks.length + 1 ≤ fuel
    → Settles (· ≠ .outOfFuel)
        (fun made => ∃ tree, Consumes read (.operand tree) toks made.2.1)
        (parseOperand grants fuel depth toks ast)
  group : ∀ depth toks ast, peek toks = some .lparen → 4 * toks.length ≤ fuel
    → Settles (· ≠ .outOfFuel)
        (fun made => ∃ tree, Consumes read (.operand tree) toks made.2.1)
        (parseGroup grants fuel depth toks ast)
  members : ∀ depth members toks ast, 4 * toks.length + 3 ≤ fuel
    → Settles (· ≠ .outOfFuel)
        (fun made => ∃ trees, Consumes read (.members trees) toks made.2.1)
        (membersLoop grants fuel depth members toks ast)

section

variable {grants : Nat → Bool} {read : Nat → Text} {fuel : Nat}

theorem SoundAt.exprSucc (sound : SoundAt grants read fuel) (depth : Nat) (toks : List Token)
    (ast : Ast) (enough : 4 * toks.length + 2 ≤ fuel + 1)
    : Settles (· ≠ .outOfFuel)
        (fun made => ∃ tree, Consumes read (.expression tree) toks made.2.1)
        (parseExpr grants (fuel + 1) depth toks ast) := by
  rw [parseExpr]
  apply (sound.operand depth toks ast (by omega)).bind
  rintro ⟨node, middle, ast⟩ ⟨first, operand⟩
  have shorter : middle.length < toks.length := operand.length_lt
  apply (sound.chain depth node middle ast (by omega)).mono (fun _ => id)
  rintro ⟨n, rest, ast⟩ chain
  obtain ⟨tree, chain⟩ := chain first
  exact ⟨tree, operand.expression chain⟩

theorem SoundAt.chainSucc (sound : SoundAt grants read fuel) (depth node : Nat)
    (toks : List Token) (ast : Ast) (enough : 4 * toks.length + 1 ≤ fuel + 1)
    : Settles (· ≠ .outOfFuel)
        (fun made => ∀ left, ∃ tree, Consumes read (.chain left tree) toks made.2.1)
        (exprLoop grants (fuel + 1) depth node toks ast) := by
  rw [exprLoop]
  split
  next isGt =>
    obtain ⟨token, more, rfl, type⟩ := peek_eq_some isGt
    simp only [List.length_cons] at enough
    split
    · exact nofun
    split
    · exact nofun
    apply (sound.operand (depth + 1) more ast (by omega)).bind
    rintro ⟨rhs, middle, ast⟩ ⟨right, operand⟩
    have shorter : middle.length < more.length := operand.length_lt
    apply ((purNodeNew_settles grants .expr ast).mono (fun _ => Stop.Capacity.inFuel)
      (fun _ => id)).bind
    rintro ⟨e, later⟩ -
    apply (sound.chain (depth + 1) e middle _ (by omega)).mono (fun _ => id)
    rintro ⟨n, rest, ast⟩ chain left
    obtain ⟨tree, chain⟩ := chain (.pipe left right)
    exact ⟨tree, operand.pipe type chain⟩
  next => exact fun left => ⟨left, [], rfl, .stop⟩

theorem SoundAt.operandSucc (sound : SoundAt grants read fuel) (depth : Nat) (toks : List Token)
    (ast : Ast) (enough : 4 * toks.length + 1 ≤ fuel + 1)
    : Settles (· ≠ .outOfFuel)
        (fun made => ∃ tree, Consumes read (.operand tree) toks made.2.1)
        (parseOperand grants (fuel + 1) depth toks ast) := by
  rw [parseOperand]
  split
  next isLparen => exact sound.group depth toks ast isLparen (by omega)
  split
  next isWord =>
    obtain ⟨words, after, rfl, all, stops⟩ := words_split toks
    apply (parseLeaf_settles grants all stops ast).mono (fun _ => Stop.Capacity.inFuel)
    rintro ⟨n, rest, later⟩ ⟨-, rfl, -⟩
    refine ⟨.leaf (words.map (fun token => read token.off)), words, rfl, ?_⟩
    rw [says_words read all]
    apply Derives.command
    rintro empty
    rw [List.map_eq_nil_iff] at empty
    subst empty
    exact stops isWord
  next => exact nofun

theorem SoundAt.groupSucc (sound : SoundAt grants read fuel) (depth : Nat) (toks : List Token)
    (ast : Ast) (opens : peek toks = some .lparen) (enough : 4 * toks.length ≤ fuel + 1)
    : Settles (· ≠ .outOfFuel)
        (fun made => ∃ tree, Consumes read (.operand tree) toks made.2.1)
        (parseGroup grants (fuel + 1) depth toks ast) := by
  rw [parseGroup, if_neg (not_not.mpr opens)]
  obtain ⟨first, more, rfl, isLparen⟩ := peek_eq_some opens
  simp only [List.length_cons] at enough
  split
  · exact nofun
  split
  · exact nofun
  apply (sound.members depth [] more ast (by omega)).bind
  rintro ⟨members, toks, ast⟩ ⟨trees, consumes⟩
  dsimp only at consumes ⊢
  split
  · exact nofun
  next closes =>
    obtain ⟨last, rest, rfl, isRparen⟩ := peek_eq_some (not_not.mp closes)
    apply ((purNodeNew_settles grants .group ast).mono (fun _ => Stop.Capacity.inFuel)
      (fun _ => id)).bind
    rintro ⟨g, later⟩ -
    apply ((purGroupSet_settles grants g members later).mono (fun _ => Stop.Capacity.inFuel)
      (fun _ => id)).bind
    rintro later -
    have operand := consumes.group isLparen isRparen
    split
    · exact ⟨_, operand⟩
    · exact ⟨_, operand⟩

theorem SoundAt.membersSucc (sound : SoundAt grants read fuel) (depth : Nat)
    (members : List Nat) (toks : List Token) (ast : Ast)
    (enough : 4 * toks.length + 3 ≤ fuel + 1)
    : Settles (· ≠ .outOfFuel)
        (fun made => ∃ trees, Consumes read (.members trees) toks made.2.1)
        (membersLoop grants (fuel + 1) depth members toks ast) := by
  rw [membersLoop]
  apply ((poolReserve_settles grants rfl ast).mono (fun _ => Stop.Capacity.inFuel)
    (fun _ => id)).bind
  rintro ast -
  apply (sound.expr (depth + 1) toks ast (by omega)).bind
  rintro ⟨member, middle, ast⟩ ⟨tree, expression⟩
  have shorter := expression.length_le
  dsimp only at expression shorter ⊢
  split
  · exact ⟨[tree], expression.choose, expression.choose_spec.1, .last expression.choose_spec.2⟩
  next isSemi =>
    obtain ⟨token, more, rfl, type⟩ := peek_eq_some (not_not.mp isSemi)
    simp only [List.length_cons] at shorter
    split
    · exact ⟨[tree], expression.lastSemi type⟩
    · apply (sound.members depth _ more ast (by omega)).mono (fun _ => id)
      rintro ⟨all, rest, ast⟩ ⟨trees, consumes⟩
      exact ⟨tree :: trees, expression.more type consumes⟩

end

theorem soundAt (grants : Nat → Bool) (read : Nat → Text) (fuel : Nat)
    : SoundAt grants read fuel := by
  induction fuel with
  | zero =>
      refine ⟨by omega, by omega, by omega, ?_, by omega⟩
      intro depth toks ast opens enough
      obtain ⟨first, more, rfl, -⟩ := peek_eq_some opens
      rw [List.length_cons] at enough
      omega
  | succ fuel sound =>
      exact ⟨sound.exprSucc, sound.chainSucc, sound.operandSucc, sound.groupSucc,
        sound.membersSucc⟩

end Panuti.Pur
