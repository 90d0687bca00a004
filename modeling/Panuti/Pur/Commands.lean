import Mathlib.Data.List.Forall2
import Panuti.Pur.Completeness
import Panuti.Pur.Lexing
import Panuti.Pur.Reloads

/-! The lines that pur accepts are those of its grammar, with a `;` allowed behind the last member
of a group, and every expression of such a line loads as its tree.
-/

namespace Panuti.Pur

open Library

-- The loop over the expressions

theorem startCheck_ok {exprs : List (List Token × Op)} {seen : Option TokType}
    (opens : seen = some .word ∨ seen = some .lparen)
    : startCheck exprs seen = .ok () := by
  rcases opens with rfl | rfl <;> rfl

theorem startCheck_settles (exprs : List (List Token × Op)) (seen : Option TokType)
    : Settles (· ≠ .outOfFuel) (fun _ => True) (startCheck exprs seen) := by
  unfold startCheck
  split
  · exact nofun
  · exact nofun
  · exact nofun
  · exact nofun
  · split <;> exact nofun
  · trivial

theorem opAfter_settles (read : Nat → Text) (after : List Token)
    : Settles (· ≠ .outOfFuel)
        (fun op => (op = .none ∧ after = []) ∨ ∃ token rest, after = token :: rest
          ∧ Joins (token.standsFor read) op)
        (opAfter (peek after)) := by
  cases after with
  | nil => exact Or.inl ⟨rfl, rfl⟩
  | cons token rest =>
      obtain ⟨type, off, len⟩ := token
      cases type with
      | and => exact Or.inr ⟨_, rest, rfl, .and⟩
      | or => exact Or.inr ⟨_, rest, rfl, .or⟩
      | bg => exact Or.inr ⟨_, rest, rfl, .bg⟩
      | _ => exact nofun

variable {exprs : List (Tree (List Text) × Op)} {op : Op} {grants : Nat → Bool}
    {tree : Tree (List Text)} {lexemes : List Lexeme} {line : List UInt8}

theorem Joins.ne_none {lexeme : Lexeme} (joins : Joins lexeme op) : op ≠ .none := by
  cases joins <;> exact nofun

theorem Joins.opAfter {lexeme : Lexeme} (joins : Joins lexeme op)
    : opAfter (some lexeme.type) = .ok op := by
  cases joins <;> rfl

theorem commandLoop_sound (grants : Nat → Bool) (read : Nat → Text) (turns : Nat)
    : ∀ (exprs : List (List Token × Op)) (toks : List Token) (ast : Ast), toks.length < turns
      → Settles (· ≠ .outOfFuel)
          (fun _ => ∃ trees, Commands true trees (toks.map (Token.standsFor read)))
          (commandLoop grants turns exprs toks ast) := by
  induction turns with
  | zero => intro exprs toks ast enough; omega
  | succ turns ih =>
      intro exprs toks ast enough
      rw [commandLoop]
      apply (startCheck_settles exprs _).bind
      intro _ _
      split
      · exact nofun
      apply ((soundAt grants read _).expr 0 toks _ (Nat.le_refl _)).bind
      rintro ⟨root, after, ast⟩ ⟨tree, used, rfl, derives⟩
      apply (opAfter_settles read after).bind
      rintro op (⟨rfl, rfl⟩ | ⟨token, rest, rfl, joins⟩)
      · rw [if_pos rfl, List.append_nil]
        exact ⟨[(tree, .none)], .last derives⟩
      · rw [if_neg joins.ne_none]
        rw [List.length_append, List.length_cons] at enough
        apply (ih _ rest ast (by omega)).mono (fun _ => id)
        rintro made ⟨trees, commands⟩
        refine ⟨(tree, op) :: trees, ?_⟩
        rw [List.map_append, List.map_cons]
        exact .joined derives joins commands

/-- An entry of `expr_start` and `expr_op` that goes with an expression. -/
structure Loads (grants : Nat → Bool) (read : Nat → Text) (entry : List Token × Op)
    (expr : Tree (List Text) × Op)
    : Prop where
  op : entry.2 = expr.2
  parsed : ∃ ast made, parseExpr grants (exprFuel entry.1) 0 entry.1 (purAstReset ast) = .ok made
    ∧ made.2.2.Reads read made.1 expr.1

theorem commandLoop_expression {read : Nat → Text} {turns : Nat} {before : List (List Token × Op)}
    {used : List Token} (after : List Token) {ast : Ast}
    {holds : List (List Token × Op) × Ast → Prop}
    (derives : Derives true (.expression tree) lexemes)
    (same : used.map (Token.standsFor read) = lexemes) (noWord : peek after ≠ some .word)
    (noGt : peek after ≠ some .gt) (behind : opAfter (peek after) = .ok op)
    (next : ∀ later, Loads grants read (used ++ after, op) (tree, op)
      → Settles Stop.Capacity holds
          (if op = .none then .ok (before ++ [(used ++ after, op)], later)
            else commandLoop grants turns (before ++ [(used ++ after, op)]) after.tail later))
    : Settles Stop.Capacity holds
        (commandLoop grants (turns + 1) before (used ++ after) ast) := by
  have accepted : Accepted grants read (.expression tree) lexemes := derives.accepted grants read
  rw [commandLoop, startCheck_ok (peek_opens (same ▸ derives.expression_opens) after)]
  change Settles _ _ (if maxExprs ≤ before.length then _ else _)
  split
  · exact ⟨.exprs, rfl, rfl⟩
  apply (accepted used after 0 (exprFuel (used ++ after)) (purAstReset ast) same noWord noGt
    (Nat.le_refl _)).bind_eq
  rintro ⟨root, rest, later⟩ ran ⟨rfl, grows, reads⟩
  dsimp only
  rw [behind]
  exact next later ⟨rfl, ast, _, ran, reads⟩

theorem Commands.accepted (grants : Nat → Bool) (read : Nat → Text)
    (commands : Commands true exprs lexemes)
    : ∀ (turns : Nat) (before : List (List Token × Op)) (toks : List Token) (ast : Ast),
      toks.map (Token.standsFor read) = lexemes → toks.length < turns
      → Settles Stop.Capacity
          (fun made => ∃ new, made.1 = before ++ new ∧ List.Forall₂ (Loads grants read) new exprs)
          (commandLoop grants turns before toks ast) := by
  induction commands with
  | @last tree lexemes expression =>
      intro turns before toks ast same enough
      obtain ⟨turns, rfl⟩ : ∃ more, turns = more + 1 := ⟨turns - 1, by omega⟩
      rw [← List.append_nil toks]
      apply commandLoop_expression [] expression same nofun nofun rfl
      intro later loads
      rw [if_pos rfl]
      exact ⟨_, rfl, .cons loads .nil⟩
  | @joined tree op lexeme lexemes rest exprs expression joins commands ih =>
      intro turns before toks ast same enough
      obtain ⟨turns, rfl⟩ : ∃ more, turns = more + 1 := ⟨turns - 1, by omega⟩
      obtain ⟨used, others, rfl, saysUsed, saysOthers⟩ := says_append same
      obtain ⟨token, others, rfl, type, saysOthers⟩ := says_cons saysOthers
      have seen : peek (token :: others) = some lexeme.type := congrArg some type
      have noWord : peek (token :: others) ≠ some .word := by
        rw [seen]
        cases joins <;> exact nofun
      have noGt : peek (token :: others) ≠ some .gt := by
        rw [seen]
        cases joins <;> exact nofun
      apply commandLoop_expression _ expression saysUsed noWord noGt (seen ▸ joins.opAfter)
      intro later loads
      rw [if_neg joins.ne_none]
      rw [List.length_append, List.length_cons] at enough
      apply (ih turns _ others later saysOthers (by omega)).mono (fun _ => id)
      rintro ⟨all, last⟩ ⟨new, same, loadsNew⟩
      refine ⟨_ :: new, ?_, .cons loads loadsNew⟩
      rw [same, List.append_assoc, List.singleton_append]

-- The whole line

theorem says_terminateWords {toks : List Token} (noNul : (0 : UInt8) ∉ line)
    (found : Found line line 0 toks)
    : toks.map (Token.standsFor (cstr (terminateWords line toks)))
      = toks.map (Token.lexeme line) := by
  apply List.map_congr_left
  intro token member
  obtain ⟨type, off, len⟩ := token
  cases type with
  | word =>
      have text := cstr_terminateWords noNul found.spaced found.words member rfl
      exact congrArg Lexeme.word text
  | _ => rfl

theorem commands_ne_nil {trailing : Bool} (commands : Commands trailing exprs lexemes)
    : lexemes ≠ [] := by
  cases commands with
  | last expression =>
      obtain ⟨first, rest, rfl, -⟩ := expression.expression_opens
      exact List.cons_ne_nil _ _
  | joined expression joins commands => simp

theorem purParseCommand_sound (grantsToks grants : Nat → Bool) (ast : Ast)
    (noNul : (0 : UInt8) ∉ line)
    : Settles (· ≠ .outOfFuel)
        (fun _ => ∃ lexemes exprs, Lexes line lexemes ∧ Commands true exprs lexemes)
        (purParseCommand grantsToks grants line ast) := by
  rw [purParseCommand]
  cases cut : tokenize grantsToks line with
  | error stop =>
      rcases tokenize_stop cut with rfl | rfl
      · exact nofun
      · exact nofun
  | ok toks =>
      have found := tokenize_found cut
      change Settles _ _ (if peek toks = Option.none then _ else _)
      split
      · exact nofun
      apply (commandLoop_sound grants (cstr (terminateWords line toks)) _ [] toks ast
        (Nat.lt_succ_self _)).bind
      rintro made ⟨exprs, commands⟩
      rw [says_terminateWords noNul found] at commands
      exact ⟨_, exprs, found.lexes, commands⟩

theorem purParseCommand_complete (grantsToks grants : Nat → Bool) (ast : Ast)
    (noNul : (0 : UInt8) ∉ line) (lexes : Lexes line lexemes)
    (commands : Commands true exprs lexemes)
    : Settles Stop.Capacity
        (fun parsed => List.Forall₂ (Loads grants (cstr parsed.line)) parsed.exprs exprs)
        (purParseCommand grantsToks grants line ast) := by
  rw [purParseCommand]
  rcases tokenize_lexes lexes with refused | ⟨toks, cut, same⟩
  · rw [refused]
    exact ⟨.memory, rfl, rfl⟩
  rw [cut]
  have found := tokenize_found cut
  change Settles _ _ (if peek toks = Option.none then _ else _)
  rw [if_neg]
  · apply (commands.accepted grants (cstr (terminateWords line toks)) _ [] toks ast
      ((says_terminateWords noNul found).trans same) (Nat.lt_succ_self _)).bind
    rintro ⟨all, later⟩ ⟨new, rfl, loads⟩
    exact loads
  · intro none
    obtain rfl := peek_eq_none none
    exact commands_ne_nil commands same.symm

theorem Ast.Same.extends {ast other : Ast} (same : ast.Same other) : ast.Extends other :=
  ⟨same.nodes ▸ List.prefix_rfl, same.leaves ▸ List.prefix_rfl, same.argvOff ▸ List.prefix_rfl,
    same.members ▸ List.prefix_rfl⟩

theorem Loads.load {later : Nat → Bool} {parsed : Parsed}
    (loads : List.Forall₂ (Loads grants (cstr parsed.line)) parsed.exprs exprs) {index : Nat}
    (expr : exprs[index]? = some (tree, op)) (granted : ∀ k, later k = true)
    : ∃ root ast, purParseLoad later parsed index = .ok (root, ast)
        ∧ ast.Yields (fun leaf words => purLeafArgv parsed.line ast leaf = some words) root
          tree := by
  obtain ⟨inside, isExpr⟩ := List.getElem?_eq_some_iff.mp expr
  have among : index < parsed.exprs.length := loads.length_eq ▸ inside
  have loaded := loads.get among inside
  simp only [List.get_eq_getElem, isExpr] at loaded
  generalize entryDef : parsed.exprs[index] = entry at loaded
  obtain ⟨toks, op⟩ := entry
  obtain ⟨-, before, made, ran, reads⟩ := loaded
  obtain ⟨⟨root, rest, ast⟩, ranAgain, sameRoot, -, same⟩ := (againAt granted _).expr 0 toks
    (Ast.same_reset before parsed.ast) made ran
  have found : parsed.exprs[index]? = some (toks, op) := by
    rw [List.getElem?_eq_getElem among, entryDef]
  refine ⟨root, ast, ?_, ?_⟩
  · rw [purParseLoad, found]
    simp only [ranAgain]
    rfl
  · have sameRoot : made.1 = root := sameRoot
    rw [← sameRoot]
    exact Ast.Yields.grow (Ast.Extends.refl ast) (fun _ _ held => held.argv)
      (reads.grow same.extends)

/-- With room for everything, pur accepts the lines of its grammar, with a `;` allowed behind the
last member of a group, and no others; each expression then loads as its tree, and the words of its
leaves are the texts of the line.
-/
theorem purParseCommand_grammar (grantsToks grants : Nat → Bool) {line : List UInt8} (ast : Ast)
    (noNul : (0 : UInt8) ∉ line)
    (room : ∀ stop, purParseCommand grantsToks grants line ast = .error stop → ¬ stop.Capacity)
    : ((∃ parsed, purParseCommand grantsToks grants line ast = .ok parsed)
        ↔ ∃ lexemes exprs, Lexes line lexemes ∧ Commands true exprs lexemes)
      ∧ purParseCommand grantsToks grants line ast ≠ .error .outOfFuel
      ∧ ∀ parsed, purParseCommand grantsToks grants line ast = .ok parsed
        → ∀ lexemes exprs, Lexes line lexemes → Commands true exprs lexemes
        → parsed.exprs.map Prod.snd = exprs.map Prod.snd
          ∧ ∀ index tree op, exprs[index]? = some (tree, op) → ∀ later, (∀ k, later k = true)
            → ∃ root ast, purParseLoad later parsed index = .ok (root, ast)
              ∧ ast.Yields (fun leaf words => purLeafArgv parsed.line ast leaf = some words) root
                tree := by
  have sound := purParseCommand_sound grantsToks grants ast noNul
  refine ⟨⟨?_, ?_⟩, ?_, ?_⟩
  · rintro ⟨parsed, ran⟩
    exact sound.value ran
  · rintro ⟨lexemes, exprs, lexes, commands⟩
    obtain ⟨parsed, ran, -⟩ := (purParseCommand_complete grantsToks grants ast noNul lexes
      commands).exists_value room
    exact ⟨parsed, ran⟩
  · intro ran
    rw [ran] at sound
    exact sound rfl
  · intro parsed ran lexemes exprs lexes commands
    have loads := (purParseCommand_complete grantsToks grants ast noNul lexes commands).value ran
    refine ⟨?_, fun index tree op expr later granted => Loads.load loads expr granted⟩
    have ops : List.Forall₂ (· = ·) (parsed.exprs.map Prod.snd) (exprs.map Prod.snd) :=
      List.forall₂_map_left_iff.mpr (List.forall₂_map_right_iff.mpr
        (loads.imp (fun _ _ loaded => loaded.op)))
    rwa [List.forall₂_eq_eq_eq] at ops

def grantAll : Nat → Bool := fun _ => true

def noPools : Ast := ⟨[], [], [], [], 0⟩

def letters (text : List Char) : List UInt8 := text.map ascii

theorem exists_ok {ε α : Type} {result : Except ε α} (isOk : result.isOk = true)
    : ∃ a, result = .ok a := by
  cases result with
  | error e => cases isOk
  | ok a => exact ⟨a, rfl⟩

/-- A pipe, in room for all that is asked. -/
theorem purParseCommand_grammar_small
    : ∃ lexemes exprs, Lexes (letters ['a', ' ', '>', 'b']) lexemes
        ∧ Commands true exprs lexemes := by
  have isOk : (purParseCommand grantAll grantAll (letters ['a', ' ', '>', 'b']) noPools).isOk
      = true := by
    decide
  obtain ⟨parsed, ran⟩ := exists_ok isOk
  refine (purParseCommand_grammar grantAll grantAll noPools (by decide) ?_).1.mp ⟨parsed, ran⟩
  intro stop stopped
  rw [ran] at stopped
  cases stopped

-- The separator behind the last member

def count (type : TokType) (lexemes : List Lexeme) : Nat :=
  lexemes.countP (fun lexeme => lexeme.type = type)

@[simp]
theorem count_nil (type : TokType) : count type [] = 0 := rfl

@[simp]
theorem count_cons (type : TokType) (lexeme : Lexeme) (lexemes : List Lexeme)
    : count type (lexeme :: lexemes)
      = count type lexemes + if lexeme.type = type then 1 else 0 := by
  simp [count, List.countP_cons]

@[simp]
theorem count_append (type : TokType) (lexemes more : List Lexeme)
    : count type (lexemes ++ more) = count type lexemes + count type more :=
  List.countP_append

theorem count_words (type : TokType) (words : List Text)
    : count type (words.map .word) = if type = .word then words.length else 0 := by
  induction words with
  | nil => simp
  | cons word words ih =>
      rw [List.map_cons, count_cons, ih, Lexeme.type]
      cases type <;> simp

/-- How many words there are at least besides one for each separator. -/
def Symbol.spare : Symbol → Nat
  | .chain _ _ => 0
  | _ => 1

theorem Derives.count_semi {symbol : Symbol} (derives : Derives false symbol lexemes)
    : count .semi lexemes + symbol.spare ≤ count .word lexemes := by
  induction derives with
  | @command words some =>
      have := List.length_pos_iff.mpr some
      simp only [count_words, Symbol.spare, reduceCtorEq, if_false, if_true]
      omega
  | group members ih => simpa [Lexeme.type, Symbol.spare] using ih
  | expression operand chain ihOperand ihChain =>
      simp only [count_append, Symbol.spare] at ihOperand ihChain ⊢
      omega
  | stop => exact Nat.le_refl _
  | pipe operand chain ihOperand ihChain =>
      simp only [count_cons, count_append, Symbol.spare, Lexeme.type, reduceCtorEq, if_false]
        at ihOperand ihChain ⊢
      omega
  | last expression ih => exact ih
  | lastSemi allowed expression ih => cases allowed
  | more expression members ihExpression ihMembers =>
      simp only [count_cons, count_append, Symbol.spare, Lexeme.type, reduceCtorEq, if_false,
        if_true] at ihExpression ihMembers ⊢
      omega

theorem Commands.count_semi (commands : Commands false exprs lexemes)
    : count .semi lexemes < count .word lexemes := by
  induction commands with
  | last expression => exact expression.count_semi
  | joined expression joins commands ih =>
      have := expression.count_semi
      simp only [count_cons, count_append, Symbol.spare] at this ⊢
      cases joins <;> simp only [Lexeme.type, reduceCtorEq, if_false] <;> omega

/-- `(a;)` is accepted, though the grammar as it is written has no such line. -/
theorem accepts_semi_at_end
    : (∃ parsed, purParseCommand grantAll grantAll (letters ['(', 'a', ';', ')']) noPools
        = .ok parsed)
      ∧ ¬ ∃ lexemes exprs, Lexes (letters ['(', 'a', ';', ')']) lexemes
        ∧ Commands false exprs lexemes := by
  constructor
  · exact exists_ok (by decide)
  rintro ⟨lexemes, exprs, lexes, commands⟩
  have cut : tokenize grantAll (letters ['(', 'a', ';', ')'])
      = .ok [⟨.lparen, 0, 1⟩, ⟨.word, 1, 1⟩, ⟨.semi, 2, 1⟩, ⟨.rparen, 3, 1⟩] := by
    rfl
  rcases @tokenize_lexes grantAll _ _ lexes with refused | ⟨toks, same, stands⟩
  · rw [cut] at refused
    cases refused
  · rw [cut] at same
    cases same
    have := commands.count_semi
    rw [← stands] at this
    simp [Token.lexeme, Lexeme.type] at this

end Panuti.Pur
