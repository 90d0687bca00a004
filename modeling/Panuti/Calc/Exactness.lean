import Panuti.Calc.Reading

/-! The evaluator reads every expression, and with that it is exact: it gives a value where the
grammar and the exact arithmetic give that value by results that fit, and only there.
-/

namespace Panuti.Calc

open Panuti.Library

/-- The text goes on with no operator of the kind. -/
def NoOperator (opOf : Char → Option Op) (text : Text) : Prop :=
  ∀ c ∈ (skipWs text).head?, opOf c = none

section

variable {blanks text : Text} {c : Char} {op : Op}

theorem termOp_some (sign : termOp c = some op)
    : isBlank c = false ∧ isDigit c = false ∧ exprOp c = none := by
  simp only [termOp] at sign
  split at sign
  · rename_i same
    subst same
    decide
  split at sign
  · rename_i same
    subst same
    decide
  split at sign
  · rename_i same
    subst same
    decide
  · cases sign

theorem exprOp_some (sign : exprOp c = some op)
    : isBlank c = false ∧ isDigit c = false ∧ termOp c = none := by
  simp only [exprOp] at sign
  split at sign
  · rename_i same
    subst same
    decide
  split at sign
  · rename_i same
    subst same
    decide
  · cases sign

theorem noDigit_blanks (skipped : Blanks blanks) (other : isDigit c = false)
    : NoDigit (blanks ++ c :: text) := by
  cases blanks with
  | nil =>
      intro d first
      obtain rfl := Option.some.inj first
      exact other
  | cons b blanks =>
      intro d first
      obtain rfl := Option.some.inj first
      have blank := skipped b (List.mem_cons_self ..)
      rw [Bool.eq_false_iff]
      intro shown
      rw [isBlank_of_isDigit shown] at blank
      cases blank

theorem skipWs_token (skipped : Blanks blanks) (shown : isBlank c = false)
    : skipWs (blanks ++ c :: text) = c :: text := by
  rw [skipWs_blanks skipped, skipWs_cons shown]

theorem noOperator_token {opOf : Char → Option Op} (skipped : Blanks blanks)
    (shown : isBlank c = false) (other : opOf c = none)
    : NoOperator opOf (blanks ++ c :: text) := by
  intro d first
  rw [skipWs_token skipped shown] at first
  obtain rfl := Option.some.inj first
  exact other

end

section

variable {opOf : Char → Option Op} {operand : Text → Except Stop (Int × Text)}

theorem chain_done {turns : Nat} {v : Int} {text : Text} (done : NoOperator opOf text)
    : chain opOf operand (turns + 1) v text = .ok (v, skipWs text) := by
  rw [chain]
  cases shown : skipWs text with
  | nil => rfl
  | cons c rest =>
      have last : opOf c = none := done c (by rw [shown]; rfl)
      simp only [last]

theorem chain_turn {turns : Nat} {v w r : Int} {blanks text rest : Text} {c : Char} {op : Op}
    (skipped : Blanks blanks) (shown : isBlank c = false) (sign : opOf c = some op)
    (second : operand text = .ok (w, rest)) (gives : op.Gives v w r)
    : chain opOf operand (turns + 1) v (blanks ++ c :: text)
      = chain opOf operand turns r rest := by
  rw [chain, skipWs_token skipped shown]
  simp only [sign, second, bind, Except.bind, gives.apply]

end

/-- A form of the symbol is read, with the value it has, in a text that does not go on with more
of it. For a chain, the turns it takes are no more than its characters.
-/
def IsRead (left : Nat) (used : Text) (v : Int) : Symbol → Prop
  | .factor => ∀ after, NoDigit after
      → parseFactor left (used ++ after) = .ok (v, after)
  | .term => ∃ spent ≤ used.length, ∀ turns after, NoDigit after
      → startChain termOp (parseFactor left) (spent + turns) (used ++ after)
        = chain termOp (parseFactor left) turns v after
  | .expr => ∃ spent ≤ used.length, ∀ turns after, NoDigit after → NoOperator termOp after
      → startChain exprOp (parseTerm (parseFactor left)) (spent + turns) (used ++ after)
        = chain exprOp (parseTerm (parseFactor left)) turns v after

section

variable {left : Nat} {used after : Text} {v : Int}

theorem IsRead.parseTerm_eq (isRead : IsRead left used v .term) (ends : NoDigit after)
    (done : NoOperator termOp after)
    : parseTerm (parseFactor left) (used ++ after) = .ok (v, skipWs after) := by
  obtain ⟨spent, few, reads⟩ := isRead
  obtain ⟨turns, same⟩ : ∃ turns, (used ++ after).length + 1 = spent + (turns + 1) := by
    refine ⟨(used ++ after).length - spent, ?_⟩
    rw [List.length_append]
    omega
  rw [parseTerm, same, reads _ after ends, chain_done done]

theorem IsRead.parseExpr_eq (isRead : IsRead left used v .expr) (ends : NoDigit after)
    (done : NoOperator termOp after) (doneToo : NoOperator exprOp after)
    : parseExpr (parseFactor left) (used ++ after) = .ok (v, skipWs after) := by
  obtain ⟨spent, few, reads⟩ := isRead
  obtain ⟨turns, same⟩ : ∃ turns, (used ++ after).length + 1 = spent + (turns + 1) := by
    refine ⟨(used ++ after).length - spent, ?_⟩
    rw [List.length_append]
    omega
  rw [parseExpr, same, reads _ after ends done, chain_done doneToo]

theorem parenthesis_token {blanks text : Text} (skipped : Blanks blanks)
    : NoDigit (blanks ++ ')' :: text) ∧ NoOperator termOp (blanks ++ ')' :: text)
      ∧ NoOperator exprOp (blanks ++ ')' :: text)
      ∧ skipWs (blanks ++ ')' :: text) = ')' :: text :=
  ⟨noDigit_blanks skipped rfl, noOperator_token skipped rfl rfl,
    noOperator_token skipped rfl rfl, skipWs_token skipped rfl⟩

end

/-- Every form whose results fit is read, by induction on its derivation. -/
theorem Derives.isRead {symbol : Symbol} {used : Text} {e : Expr} (derives : Derives symbol used e)
    {left : Nat} (shallow : e.nesting < left) {v : Int} (meets : e.Meets v)
    : IsRead left used v symbol := by
  induction derives generalizing left v with
  | @number blanks text skipped some all =>
      obtain ⟨left, rfl⟩ := Nat.exists_eq_succ_of_ne_zero (by omega : left ≠ 0)
      intro after ends
      obtain ⟨value, fits⟩ := Expr.meets_number.mp meets
      have reads := digits_eq all ends (Int.le_refl 0)
        (by rw [decimalFrom_decimal all, ← value]; exact fits.2)
      rw [decimalFrom_decimal all, ← value] at reads
      cases text with
      | nil => exact absurd rfl some
      | cons c rest =>
          have shown := all c (List.mem_cons_self ..)
          have code := isDigit_iff.mp shown
          have opens : c ≠ '(' := by
            rintro rfl
            exact absurd shown (by decide)
          have sign : ¬ (c = '-' ∨ c = '+') := by
            rintro (rfl | rfl)
            · exact absurd shown (by decide)
            · exact absurd shown (by decide)
          rw [parseFactor, List.append_assoc, List.cons_append,
            skipWs_token skipped (isBlank_of_isDigit shown)]
          simp only [if_neg opens, if_neg sign]
          rw [parseNumber, if_pos shown, ← List.cons_append]
          exact reads
  | @group blanks inner blanks' e skipped within skipped' ih =>
      obtain ⟨left, rfl⟩ := Nat.exists_eq_succ_of_ne_zero (by omega : left ≠ 0)
      intro after ends
      obtain ⟨noDigit, noTerm, noExpr, closes⟩ := @parenthesis_token _ after skipped'
      have reads := (ih (Nat.lt_of_succ_lt_succ shallow) (Expr.meets_group.mp meets)).parseExpr_eq
        noDigit noTerm noExpr
      have parts : (blanks ++ '(' :: (inner ++ (blanks' ++ [')']))) ++ after
          = blanks ++ '(' :: (inner ++ (blanks' ++ ')' :: after)) := by simp
      rw [parseFactor, parts, skipWs_token skipped rfl]
      simp only [if_pos, reads, bind, Except.bind, closes]
      rfl
  | @plus blanks inner e skipped within ih =>
      obtain ⟨left, rfl⟩ := Nat.exists_eq_succ_of_ne_zero (by omega : left ≠ 0)
      intro after ends
      have reads := ih (Nat.lt_of_succ_lt_succ shallow) (Expr.meets_plus.mp meets) after ends
      rw [parseFactor, List.append_assoc, List.cons_append, skipWs_token skipped rfl]
      simp only [reads, bind, Except.bind]
      rfl
  | @minus blanks inner e skipped within ih =>
      obtain ⟨left, rfl⟩ := Nat.exists_eq_succ_of_ne_zero (by omega : left ≠ 0)
      intro after ends
      obtain ⟨w, inside, rfl, fits⟩ := Expr.meets_minus.mp meets
      have reads := ih (Nat.lt_of_succ_lt_succ shallow) inside after ends
      have negated : guarded (0 - w) = .ok (0 - w) := if_pos fits
      rw [parseFactor, List.append_assoc, List.cons_append, skipWs_token skipped rfl]
      simp only [reads, bind, Except.bind, negated]
      rfl
  | @term text e single ih =>
      refine ⟨0, Nat.zero_le _, fun turns after ends => ?_⟩
      rw [startChain, ih shallow meets after ends, Nat.zero_add]
      rfl
  | @expr text e single ih =>
      refine ⟨0, Nat.zero_le _, fun turns after ends done => ?_⟩
      rw [startChain, (ih shallow meets).parseTerm_eq ends done, Nat.zero_add]
      exact chain_skipWs turns v skipWs_skipWs
  | @product before blanks after c op a b first skipped sign second ihFirst ihSecond =>
      obtain ⟨x, y, meetsA, meetsB, gives⟩ := Expr.meets_binary.mp meets
      obtain ⟨shallowA, shallowB⟩ := Nat.max_lt.mp shallow
      obtain ⟨blank, digit, other⟩ := termOp_some sign
      obtain ⟨spent, few, reads⟩ := ihFirst shallowA meetsA
      have operand := ihSecond shallowB meetsB
      refine ⟨spent + 1, ?_, fun turns rest ends => ?_⟩
      · simp only [List.length_append, List.length_cons]
        omega
      · have parts : (before ++ (blanks ++ c :: after)) ++ rest
            = before ++ (blanks ++ c :: (after ++ rest)) := by simp
        rw [parts, Nat.add_assoc, Nat.add_comm 1 turns, reads _ _ (noDigit_blanks skipped digit),
          chain_turn skipped blank sign (operand rest ends) gives]
  | @sum before blanks after c op a b first skipped sign second ihFirst ihSecond =>
      obtain ⟨x, y, meetsA, meetsB, gives⟩ := Expr.meets_binary.mp meets
      obtain ⟨shallowA, shallowB⟩ := Nat.max_lt.mp shallow
      obtain ⟨blank, digit, other⟩ := exprOp_some sign
      obtain ⟨spent, few, reads⟩ := ihFirst shallowA meetsA
      have operand := ihSecond shallowB meetsB
      refine ⟨spent + 1, ?_, fun turns rest ends done => ?_⟩
      · simp only [List.length_append, List.length_cons]
        omega
      · have parts : (before ++ (blanks ++ c :: after)) ++ rest
            = before ++ (blanks ++ c :: (after ++ rest)) := by simp
        rw [parts, Nat.add_assoc, Nat.add_comm 1 turns,
          reads _ _ (noDigit_blanks skipped digit) (noOperator_token skipped blank other),
          chain_turn skipped blank sign (operand.parseTerm_eq ends done) gives,
          chain_skipWs turns v skipWs_skipWs]

/-- The evaluator gives a value exactly where the text is an expression that is not nested too
deeply and whose value that is, by literals and results that all fit in a `long`, the quotient
that goes with a remainder included. It never overflows or traps.
-/
theorem calcEval_exact (text : Text)
    : (∀ v, calcEval (some text) = .ok v
        ↔ ∃ e, IsExpression text e ∧ e.nesting < CALC_MAX_DEPTH ∧ e.Fits ∧ e.QuotientsFit
          ∧ e.value = some v)
      ∧ ∀ stop, calcEval (some text) = .error stop → ∃ code, stop = .err code := by
  have whole := parseExpr_settles (parseFactor_settles CALC_MAX_DEPTH) text
  refine ⟨fun v => ⟨fun same => ?_, ?_⟩, fun stop same => ?_⟩
  · rw [calcEval] at same
    obtain ⟨⟨w, rest⟩, first, last⟩ := bind_eq_ok same
    obtain ⟨used, after, e, rfl, skipped, derives, shallow, meets⟩ := whole.value first
    simp only [] at skipped last
    cases ended : skipWs rest with
    | cons c rest =>
        rw [ended] at last
        cases last
    | nil =>
        rw [ended] at last skipped
        obtain rfl := Except.ok.inj last
        obtain ⟨blanks, blank, parts⟩ := exists_blanks after
        rw [skipped, List.append_nil] at parts
        exact ⟨e, ⟨used, after, rfl, parts ▸ blank, derives⟩, shallow, meets⟩
  · rintro ⟨e, ⟨used, blanks, rfl, skipped, derives⟩, shallow, meets⟩
    have ends : skipWs blanks = [] := by
      have none := @skipWs_blanks blanks [] skipped
      rwa [List.append_nil] at none
    have noOperator (opOf : Char → Option Op) : NoOperator opOf blanks := by
      intro c first
      rw [ends] at first
      cases first
    have noDigit : NoDigit blanks := by
      intro c first
      have blank := skipped c (List.mem_of_mem_head? first)
      rw [Bool.eq_false_iff]
      intro shown
      rw [isBlank_of_isDigit shown] at blank
      cases blank
    rw [calcEval, (derives.isRead shallow meets).parseExpr_eq noDigit (noOperator _)
      (noOperator _)]
    simp only [bind, Except.bind, ends]
    rfl
  · have settles : Settles IsCode (fun _ => True) (calcEval (some text)) := by
      rw [calcEval]
      apply whole.bind
      rintro ⟨w, rest⟩ _
      simp only []
      cases skipWs rest with
      | nil => trivial
      | cons c rest => exact isCode _
    rw [same] at settles
    exact settles

/-- A remainder that is zero is refused, where the quotient that goes with it does not fit. -/
theorem calcEval_remainder
    : ¬ ∀ v, calcEval (some "(-2147483647-1)%-1".toList) = .ok v
        ↔ ∃ e, IsExpression "(-2147483647-1)%-1".toList e ∧ e.nesting < CALC_MAX_DEPTH ∧ e.Fits
          ∧ e.value = some v := by
  intro claim
  have refused : (calcEval (some "(-2147483647-1)%-1".toList)).toOption = none := by
    decide +kernel
  have given := (claim 0).mpr
    ⟨.binary .mod (.group (.binary .sub (.minus (.number 2147483647)) (.number 1)))
      (.minus (.number 1)), ?_, by decide, ?_, by decide⟩
  · rw [given] at refused
    cases refused
  · have digits (text : Text) (some : text ≠ []) (all : text.all isDigit = true)
        : Derives .factor text (.number (decimal text)) :=
      .number (List.forall_mem_nil _) some (List.all_eq_true.mp all)
    have one := digits ['1'] nofun (by decide)
    have large := digits "2147483647".toList (by decide) (by decide)
    have blank : Blanks [] := List.forall_mem_nil _
    have least : Derives .expr "-2147483647-1".toList _ :=
      .sum (.expr (.term (.minus blank large))) blank (rfl : exprOp '-' = some .sub) (.term one)
    refine ⟨"(-2147483647-1)%-1".toList, [], rfl, blank, .expr ?_⟩
    exact .product (.term (.group blank least blank)) blank (rfl : termOp '%' = some .mod)
      (.minus blank one)
  · intro part member
    simp only [Expr.parts, List.mem_cons, List.cons_append, List.nil_append, List.not_mem_nil,
      or_false] at member
    rcases member with rfl | rfl | rfl | rfl | rfl | rfl | rfl | rfl
    all_goals exact ⟨_, rfl, by decide⟩

end Panuti.Calc
