import Mathlib.Data.List.Basic
import Mathlib.Tactic.Common

/-! The tokens of a pur statement: `tokenize` and `terminate_words` of `parse.c`, and what they
stand for. A line is the bytes before its terminator.
-/

namespace Panuti.Pur

-- Tokens

/-- `pur_tok_t`. The end of a list of tokens stands for `PUR_T_END`. -/
inductive TokType where
  | word
  | lparen
  | rparen
  | semi
  | gt
  | and
  | or
  | bg
  | pipe
deriving Repr, DecidableEq

/-- `pur_token_t`. -/
structure Token where
  type : TokType
  off : Nat
  len : Nat
deriving Repr, DecidableEq

/-- `pur_parse_status_t`, without its two first values. -/
inductive Status where
  | empty
  | syntaxError
  | emptyGroup
  | quote
  | nodes
  | leaves
  | argv
  | complex
  | memory
  | operator
  | trailingBg
  | reserved
  | exprs
deriving Repr, DecidableEq

/-- A capacity was hit: of a pool, of the allocator, or of the depth. -/
def Status.capacity : Status → Bool
  | .nodes | .leaves | .argv | .complex | .memory | .exprs => true
  | _ => false

/-- Why a function gives no result. A loop here makes at most as many turns as it is given. -/
inductive Stop where
  | status (status : Status)
  | outOfFuel
deriving Repr, DecidableEq

def ascii (letter : Char) : UInt8 := UInt8.ofNat letter.toNat

def quoteMark : UInt8 := 0x22

def isSpace (c : UInt8) : Bool :=
  c == ascii ' ' || c == ascii '\t' || c == ascii '\n' || c == ascii '\r'

def isDelim (c : UInt8) : Bool :=
  isSpace c || c == ascii '(' || c == ascii ')' || c == ascii ';' || c == ascii '>'
    || c == ascii '&' || c == ascii '|' || c == quoteMark

/-- One token from a place that is no space, and how many bytes it takes. -/
def scan (c : UInt8) (rest : List UInt8) (off : Nat) : Except Status (Token × Nat) :=
  if c = ascii '(' then .ok (⟨.lparen, off, 1⟩, 1)
  else if c = ascii ')' then .ok (⟨.rparen, off, 1⟩, 1)
  else if c = ascii ';' then .ok (⟨.semi, off, 1⟩, 1)
  else if c = ascii '>' then .ok (⟨.gt, off, 1⟩, 1)
  else if c = ascii '&' then
    if rest.head? = some (ascii '&') then .ok (⟨.and, off, 2⟩, 2) else .ok (⟨.bg, off, 1⟩, 1)
  else if c = ascii '|' then
    if rest.head? = some (ascii '|') then .ok (⟨.or, off, 2⟩, 2) else .ok (⟨.pipe, off, 1⟩, 1)
  else if c = quoteMark then
    let text := rest.takeWhile (· != quoteMark)
    if text.length = rest.length then .error .quote
    else .ok (⟨.word, off + 1, text.length⟩, text.length + 2)
  else
    let text := (c :: rest).takeWhile (fun c => !isDelim c)
    .ok (⟨.word, off, text.length⟩, text.length)

/-- The loop of `tokenize`, at a place of the line. `grants` says whether `toks_reserve` gets room
for so many tokens.
-/
def tokenizeLoop (grants : Nat → Bool)
    : Nat → List UInt8 → Nat → List Token → Except Stop (List Token)
  | 0, _, _, _ => .error .outOfFuel
  | _ + 1, [], _, toks =>
      if grants (toks.length + 1) then .ok toks else .error (.status .memory)
  | turns + 1, c :: rest, off, toks =>
      if isSpace c then tokenizeLoop grants turns rest (off + 1) toks
      else
        match scan c rest off with
        | .error status => .error (.status status)
        | .ok (token, used) =>
            if grants (toks.length + 1) then
              tokenizeLoop grants turns ((c :: rest).drop used) (off + used) (toks ++ [token])
            else .error (.status .memory)

def tokenize (grants : Nat → Bool) (line : List UInt8) : Except Stop (List Token) :=
  tokenizeLoop grants (line.length + 1) line 0 []

/-- `terminate_words`, on the line with its terminator. -/
def terminateWords (line : List UInt8) (toks : List Token) : List UInt8 :=
  toks.foldl (fun buf token =>
    if token.type = .word then buf.set (token.off + token.len) 0 else buf) (line ++ [0])

def cstr (buf : List UInt8) (off : Nat) : List UInt8 := (buf.drop off).takeWhile (· != 0)

-- What tokens stand for

inductive Lexeme where
  | word (text : List UInt8)
  | lparen
  | rparen
  | semi
  | gt
  | and
  | or
  | bg
  | pipe
deriving Repr, DecidableEq

/-- The symbols of one byte that begin no longer one. -/
inductive Single : UInt8 → Lexeme → Prop where
  | lparen : Single (ascii '(') .lparen
  | rparen : Single (ascii ')') .rparen
  | semi : Single (ascii ';') .semi
  | gt : Single (ascii '>') .gt

/-- The bytes that stand alone for one symbol and doubled for another. -/
inductive Double : UInt8 → Lexeme → Lexeme → Prop where
  | amp : Double (ascii '&') .bg .and
  | bar : Double (ascii '|') .pipe .or

/-- The lexemes of a line. Words end at a space, a symbol or a quote; the text of a quoted word has
no quote in it, and the quotes are not part of it.
-/
inductive Lexes : List UInt8 → List Lexeme → Prop where
  | nil : Lexes [] []
  | space {c : UInt8} {rest : List UInt8} {lexemes : List Lexeme} (isSpace : isSpace c = true)
      (lexes : Lexes rest lexemes)
      : Lexes (c :: rest) lexemes
  | single {c : UInt8} {lexeme : Lexeme} {rest : List UInt8} {lexemes : List Lexeme}
      (single : Single c lexeme) (lexes : Lexes rest lexemes)
      : Lexes (c :: rest) (lexeme :: lexemes)
  | alone {c : UInt8} {one two : Lexeme} {rest : List UInt8} {lexemes : List Lexeme}
      (double : Double c one two) (ends : rest.head? ≠ some c) (lexes : Lexes rest lexemes)
      : Lexes (c :: rest) (one :: lexemes)
  | doubled {c : UInt8} {one two : Lexeme} {rest : List UInt8} {lexemes : List Lexeme}
      (double : Double c one two) (lexes : Lexes rest lexemes)
      : Lexes (c :: c :: rest) (two :: lexemes)
  | quoted {text rest : List UInt8} {lexemes : List Lexeme} (inside : quoteMark ∉ text)
      (lexes : Lexes rest lexemes)
      : Lexes (quoteMark :: (text ++ quoteMark :: rest)) (.word text :: lexemes)
  | word {c : UInt8} {text rest : List UInt8} {lexemes : List Lexeme}
      (plain : ∀ letter ∈ c :: text, isDelim letter = false)
      (ends : ∀ letter ∈ rest.head?, isDelim letter = true) (lexes : Lexes rest lexemes)
      : Lexes (c :: text ++ rest) (.word (c :: text) :: lexemes)

def Token.lexeme (line : List UInt8) (token : Token) : Lexeme :=
  match token.type with
  | .word => .word ((line.drop token.off).take token.len)
  | .lparen => .lparen
  | .rparen => .rparen
  | .semi => .semi
  | .gt => .gt
  | .and => .and
  | .or => .or
  | .bg => .bg
  | .pipe => .pipe

end Panuti.Pur
