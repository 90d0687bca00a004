import Mathlib.Data.Int.Order.Basic

/-! The evaluator of the calculator, `eval.c`: a descent over the text that computes as it reads,
next to the grammar it reads and the exact value an expression has.
-/

namespace Panuti.Calc

abbrev Text := List Char

/-- The codes `calc_eval` fails with. -/
inductive CalcErr where
  | errSyntax
  | errDivzero
  | errOverflow
  | errComplex
  | errTrailing
deriving Repr, DecidableEq

/-- Why the evaluator stops without a value: with a code, in an operation the machine has no
result for, or in a loop that was given too few turns.
-/
inductive Stop where
  | err (code : CalcErr)
  | trap
  | turns
deriving Repr, DecidableEq

def CALC_MAX_DEPTH : Nat := 64

def LONG_MAX : Int := 2147483647
def LONG_MIN : Int := -2147483648

/-- The values of a `long`. -/
def InLong (v : Int) : Prop :=
  LONG_MIN ≤ v ∧ v ≤ LONG_MAX

instance (v : Int) : Decidable (InLong v) :=
  inferInstanceAs (Decidable (LONG_MIN ≤ v ∧ v ≤ LONG_MAX))

/-- An operation on `long`s that is not guarded by the compiler. -/
def long (v : Int) : Except Stop Int :=
  if InLong v then .ok v else .error .trap

/-- An operation on `long`s by `__builtin_add_overflow` and the like, with the code that answers
an overflow.
-/
def guarded (v : Int) : Except Stop Int :=
  if InLong v then .ok v else .error (.err .errOverflow)

/-- The division of the machine: it traps where the quotient is none. -/
def divides (v rhs : Int) : Except Stop (Int × Int) :=
  if rhs = 0 ∨ ¬ InLong (v.tdiv rhs) then .error .trap else .ok (v.tdiv rhs, v.tmod rhs)

def isBlank (c : Char) : Bool :=
  c = ' ' ∨ c = '\t' ∨ c = '\n' ∨ c = '\r'

def skipWs (text : Text) : Text :=
  text.dropWhile isBlank

def isDigit (c : Char) : Bool :=
  '0' ≤ c ∧ c ≤ '9'

def digit (c : Char) : Int :=
  (c.toNat : Int) - ('0'.toNat : Int)

/-- The loop of `parse_number`. -/
def digits (v : Int) : Text → Except Stop (Int × Text)
  | [] => .ok (v, [])
  | c :: rest =>
      if isDigit c then do
        let room ← long (LONG_MAX - digit c)
        if room.tdiv 10 < v then .error (.err .errOverflow)
        else
          let tens ← long (v * 10)
          let v ← long (tens + digit c)
          digits v rest
      else .ok (v, c :: rest)

def parseNumber : Text → Except Stop (Int × Text)
  | [] => .error (.err .errSyntax)
  | c :: rest =>
      if isDigit c then digits 0 (c :: rest) else .error (.err .errSyntax)

inductive Op where
  | mul
  | div
  | mod
  | add
  | sub
deriving Repr, DecidableEq

/-- The operators of `parse_term`. -/
def termOp (c : Char) : Option Op :=
  if c = '*' then some .mul
  else if c = '/' then some .div
  else if c = '%' then some .mod
  else none

/-- The operators of `parse_expr`. -/
def exprOp (c : Char) : Option Op :=
  if c = '+' then some .add
  else if c = '-' then some .sub
  else none

/-- What both kinds of division check of their operands. -/
def checkedDivides (v rhs : Int) : Except Stop (Int × Int) :=
  if rhs = 0 then .error (.err .errDivzero)
  else if rhs = -1 ∧ v = LONG_MIN then .error (.err .errOverflow)
  else divides v rhs

def Op.apply (v rhs : Int) : Op → Except Stop Int
  | .mul => guarded (v * rhs)
  | .div => do return (← checkedDivides v rhs).1
  | .mod => do return (← checkedDivides v rhs).2
  | .add => guarded (v + rhs)
  | .sub => guarded (v - rhs)

section

variable (opOf : Char → Option Op) (operand : Text → Except Stop (Int × Text))

/-- The loop of `parse_term` and `parse_expr`. -/
def chain : (turns : Nat) → Int → Text → Except Stop (Int × Text)
  | 0, _, _ => .error .turns
  | turns + 1, v, text =>
      match skipWs text with
      | [] => .ok (v, [])
      | c :: rest =>
          match opOf c with
          | none => .ok (v, c :: rest)
          | some op => do
              let (rhs, rest) ← operand rest
              let v ← op.apply v rhs
              chain turns v rest

/-- An operand and the operators and operands after it. -/
def startChain (turns : Nat) (text : Text) : Except Stop (Int × Text) := do
  let (v, rest) ← operand text
  chain opOf operand turns v rest

end

/-- `parse_term`, by the `parse_factor` it calls. -/
def parseTerm (parseFactor : Text → Except Stop (Int × Text)) (text : Text)
    : Except Stop (Int × Text) :=
  startChain termOp parseFactor (text.length + 1) text

/-- `parse_expr`, by the `parse_factor` that is called below it. -/
def parseExpr (parseFactor : Text → Except Stop (Int × Text)) (text : Text)
    : Except Stop (Int × Text) :=
  startChain exprOp (parseTerm parseFactor) (text.length + 1) text

/-- `parse_factor`, by the levels that are left to go down: `CALC_MAX_DEPTH` less `depth`. -/
def parseFactor : (left : Nat) → Text → Except Stop (Int × Text)
  | 0, _ => .error (.err .errComplex)
  | left + 1, text =>
      match skipWs text with
      | [] => parseNumber []
      | c :: rest =>
          if c = '(' then do
            let (v, rest) ← parseExpr (parseFactor left) rest
            match skipWs rest with
            | [] => .error (.err .errSyntax)
            | close :: rest => if close ≠ ')' then .error (.err .errSyntax) else .ok (v, rest)
          else if c = '-' ∨ c = '+' then do
            let (v, rest) ← parseFactor left rest
            if c = '+' then .ok (v, rest)
            else
              let r ← guarded (0 - v)
              .ok (r, rest)
          else parseNumber (c :: rest)

/-- `calc_eval`; `none` is no string. -/
def calcEval : Option Text → Except Stop Int
  | none => .error (.err .errSyntax)
  | some text => do
      let (v, rest) ← parseExpr (parseFactor CALC_MAX_DEPTH) text
      match skipWs rest with
      | [] => .ok v
      | _ :: _ => .error (.err .errTrailing)

-- Expressions and what they are worth

/-- An expression, with its parentheses and signs. -/
inductive Expr where
  | number (n : Nat)
  | group (inner : Expr)
  | plus (inner : Expr)
  | minus (inner : Expr)
  | binary (op : Op) (left right : Expr)
deriving Repr, DecidableEq

/-- The exact result of an operator: division goes toward zero, and the remainder belongs to it. -/
def Op.exact (v w : Int) : Op → Option Int
  | .mul => some (v * w)
  | .div => if w = 0 then none else some (v.tdiv w)
  | .mod => if w = 0 then none else some (v.tmod w)
  | .add => some (v + w)
  | .sub => some (v - w)

namespace Expr

/-- The exact value; there is none where a divisor is zero. -/
def value : Expr → Option Int
  | number n => some n
  | group inner => inner.value
  | plus inner => inner.value
  | minus inner => inner.value.map (0 - ·)
  | binary op left right => do op.exact (← left.value) (← right.value)

def nesting : Expr → Nat
  | number _ => 0
  | group inner => inner.nesting + 1
  | plus inner => inner.nesting + 1
  | minus inner => inner.nesting + 1
  | binary _ left right => max left.nesting right.nesting

def parts : Expr → List Expr
  | number n => [number n]
  | group inner => group inner :: inner.parts
  | plus inner => plus inner :: inner.parts
  | minus inner => minus inner :: inner.parts
  | binary op left right => binary op left right :: (left.parts ++ right.parts)

/-- Every literal and every result there is on the way fits in a `long`. -/
def Fits (e : Expr) : Prop :=
  ∀ part ∈ e.parts, ∃ v, part.value = some v ∧ InLong v

/-- So does the quotient that goes with each remainder. -/
def QuotientsFit (e : Expr) : Prop :=
  ∀ left right, binary .mod left right ∈ e.parts
    → ∀ v w, left.value = some v → right.value = some w → InLong (v.tdiv w)

end Expr

def decimal (text : Text) : Nat :=
  text.foldl (fun n c => 10 * n + (c.toNat - '0'.toNat)) 0

inductive Symbol where
  | factor
  | term
  | expr
deriving Repr, DecidableEq

def Blanks (text : Text) : Prop :=
  ∀ c ∈ text, isBlank c = true

/-- The grammar: blanks may stand before every token, and the operators group to the left. -/
inductive Derives : Symbol → Text → Expr → Prop where
  | number {blanks text : Text} (skipped : Blanks blanks) (some : text ≠ [])
      (all : ∀ c ∈ text, isDigit c = true)
      : Derives .factor (blanks ++ text) (.number (decimal text))
  | group {blanks inner blanks' : Text} {e : Expr} (skipped : Blanks blanks)
      (within : Derives .expr inner e) (skipped' : Blanks blanks')
      : Derives .factor (blanks ++ '(' :: (inner ++ (blanks' ++ [')']))) (.group e)
  | plus {blanks inner : Text} {e : Expr} (skipped : Blanks blanks)
      (within : Derives .factor inner e)
      : Derives .factor (blanks ++ '+' :: inner) (.plus e)
  | minus {blanks inner : Text} {e : Expr} (skipped : Blanks blanks)
      (within : Derives .factor inner e)
      : Derives .factor (blanks ++ '-' :: inner) (.minus e)
  | term {text : Text} {e : Expr} (single : Derives .factor text e) : Derives .term text e
  | product {before blanks after : Text} {c : Char} {op : Op} {left right : Expr}
      (first : Derives .term before left) (skipped : Blanks blanks) (sign : termOp c = some op)
      (second : Derives .factor after right)
      : Derives .term (before ++ (blanks ++ c :: after)) (.binary op left right)
  | expr {text : Text} {e : Expr} (single : Derives .term text e) : Derives .expr text e
  | sum {before blanks after : Text} {c : Char} {op : Op} {left right : Expr}
      (first : Derives .expr before left) (skipped : Blanks blanks) (sign : exprOp c = some op)
      (second : Derives .term after right)
      : Derives .expr (before ++ (blanks ++ c :: after)) (.binary op left right)

/-- The text is an expression, with blanks after it or not. -/
def IsExpression (text : Text) (e : Expr) : Prop :=
  ∃ used blanks, text = used ++ blanks ∧ Blanks blanks ∧ Derives .expr used e

end Panuti.Calc
