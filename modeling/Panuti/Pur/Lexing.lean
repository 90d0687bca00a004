import Panuti.Pur.Lexer

/-! `tokenize` finds the lexemes of a line, and once `terminate_words` has cut the line the string
at every word is its text.
-/

namespace Panuti.Pur

-- One token

variable {rest text line before : List UInt8} {c : UInt8} {lexeme one two : Lexeme} {off : Nat}
    {toks : List Token} {grants : Nat → Bool} {lexemes : List Lexeme}

theorem takeWhile_append_stop {letters : List UInt8} {keeps : UInt8 → Bool}
    (all : ∀ letter ∈ letters, keeps letter = true)
    (stops : ∀ letter ∈ rest.head?, keeps letter = false)
    : (letters ++ rest).takeWhile keeps = letters := by
  rw [List.takeWhile_append_of_pos all]
  cases rest with
  | nil => simp
  | cons letter more => simp [stops letter rfl]

theorem scan_single (single : Single c lexeme) (rest : List UInt8) (off : Nat)
    : ∃ token, scan c rest off = .ok (token, 1) ∧ token.off = off ∧ token.type ≠ .word
        ∧ ∀ line, token.lexeme line = lexeme := by
  cases single with
  | lparen => exact ⟨⟨.lparen, off, 1⟩, by simp [scan], rfl, nofun, fun _ => rfl⟩
  | rparen => exact ⟨⟨.rparen, off, 1⟩, by simp [scan, ascii], rfl, nofun, fun _ => rfl⟩
  | semi => exact ⟨⟨.semi, off, 1⟩, by simp [scan, ascii], rfl, nofun, fun _ => rfl⟩
  | gt => exact ⟨⟨.gt, off, 1⟩, by simp [scan, ascii], rfl, nofun, fun _ => rfl⟩

theorem scan_alone (double : Double c one two) (ends : rest.head? ≠ some c) (off : Nat)
    : ∃ token, scan c rest off = .ok (token, 1) ∧ token.off = off ∧ token.type ≠ .word
        ∧ ∀ line, token.lexeme line = one := by
  cases double with
  | amp =>
      refine ⟨⟨.bg, off, 1⟩, ?_, rfl, nofun, fun _ => rfl⟩
      have plain : scan (ascii '&') rest off
          = if rest.head? = some (ascii '&') then .ok (⟨.and, off, 2⟩, 2)
            else .ok (⟨.bg, off, 1⟩, 1) := by
        simp [scan, ascii]
      rw [plain, if_neg ends]
  | bar =>
      refine ⟨⟨.pipe, off, 1⟩, ?_, rfl, nofun, fun _ => rfl⟩
      have plain : scan (ascii '|') rest off
          = if rest.head? = some (ascii '|') then .ok (⟨.or, off, 2⟩, 2)
            else .ok (⟨.pipe, off, 1⟩, 1) := by
        simp [scan, ascii]
      rw [plain, if_neg ends]

theorem scan_doubled (double : Double c one two) (rest : List UInt8) (off : Nat)
    : ∃ token, scan c (c :: rest) off = .ok (token, 2) ∧ token.off = off ∧ token.type ≠ .word
        ∧ ∀ line, token.lexeme line = two := by
  cases double with
  | amp => exact ⟨⟨.and, off, 2⟩, by simp [scan, ascii], rfl, nofun, fun _ => rfl⟩
  | bar => exact ⟨⟨.or, off, 2⟩, by simp [scan, ascii], rfl, nofun, fun _ => rfl⟩

theorem scan_quoted (inside : quoteMark ∉ text) (rest : List UInt8) (off : Nat)
    : scan quoteMark (text ++ quoteMark :: rest) off
      = .ok (⟨.word, off + 1, text.length⟩, text.length + 2) := by
  have found : (text ++ quoteMark :: rest).takeWhile (· != quoteMark) = text := by
    apply takeWhile_append_stop
    · intro letter member
      rw [bne_iff_ne]
      rintro rfl
      exact inside member
    · simp
  have plain : scan quoteMark (text ++ quoteMark :: rest) off
      = if ((text ++ quoteMark :: rest).takeWhile (· != quoteMark)).length
            = (text ++ quoteMark :: rest).length then .error .quote
        else .ok (⟨.word, off + 1,
            ((text ++ quoteMark :: rest).takeWhile (· != quoteMark)).length⟩,
          ((text ++ quoteMark :: rest).takeWhile (· != quoteMark)).length + 2) := by
    simp [scan, ascii, quoteMark]
  rw [plain, found, if_neg (by simp)]

theorem scan_unquoted (unclosed : quoteMark ∉ rest) (off : Nat)
    : scan quoteMark rest off = .error .quote := by
  have all : (rest ++ []).takeWhile (· != quoteMark) = rest := by
    apply takeWhile_append_stop
    · intro letter member
      rw [bne_iff_ne]
      rintro rfl
      exact unclosed member
    · simp
  rw [List.append_nil] at all
  have plain : scan quoteMark rest off
      = if (rest.takeWhile (· != quoteMark)).length = rest.length then .error .quote
        else .ok (⟨.word, off + 1, (rest.takeWhile (· != quoteMark)).length⟩,
          (rest.takeWhile (· != quoteMark)).length + 2) := by
    simp [scan, ascii, quoteMark]
  rw [plain, all, if_pos rfl]

theorem scan_word (plain : ∀ letter ∈ c :: text, isDelim letter = false)
    (ends : ∀ letter ∈ rest.head?, isDelim letter = true) (off : Nat)
    : scan c (text ++ rest) off
      = .ok (⟨.word, off, text.length + 1⟩, text.length + 1) := by
  have first := plain c (by simp)
  have found : (c :: (text ++ rest)).takeWhile (fun c => !isDelim c) = c :: text := by
    rw [← List.cons_append]
    apply takeWhile_append_stop
    · intro letter member
      simp [plain letter member]
    · intro letter member
      simp [ends letter member]
  simp only [isDelim, Bool.or_eq_false_iff, beq_eq_false_iff_ne, ne_eq] at first
  obtain ⟨⟨⟨⟨⟨⟨⟨_, notLparen⟩, notRparen⟩, notSemi⟩, notGt⟩, notAmp⟩, notBar⟩, notQuote⟩ := first
  rw [scan, if_neg notLparen, if_neg notRparen, if_neg notSemi, if_neg notGt, if_neg notAmp,
    if_neg notBar, if_neg notQuote]
  simp only [found, List.length_cons]

theorem byte_cases (c : UInt8)
    : isSpace c = true ∨ (∃ lexeme, Single c lexeme) ∨ (∃ one two, Double c one two)
      ∨ c = quoteMark ∨ isDelim c = false := by
  by_cases delim : isDelim c = false
  · exact Or.inr (Or.inr (Or.inr (Or.inr delim)))
  simp only [isDelim, Bool.not_eq_false, Bool.or_eq_true, beq_iff_eq] at delim
  rcases delim with ((((((space | rfl) | rfl) | rfl) | rfl) | rfl) | rfl) | rfl
  · exact Or.inl space
  · exact Or.inr (Or.inl ⟨_, .lparen⟩)
  · exact Or.inr (Or.inl ⟨_, .rparen⟩)
  · exact Or.inr (Or.inl ⟨_, .semi⟩)
  · exact Or.inr (Or.inl ⟨_, .gt⟩)
  · exact Or.inr (Or.inr (Or.inl ⟨_, _, .amp⟩))
  · exact Or.inr (Or.inr (Or.inl ⟨_, _, .bar⟩))
  · exact Or.inr (Or.inr (Or.inr (Or.inl rfl)))

-- The whole line

/-- No word ends at or behind the place where a later one begins. -/
def Spaced (toks : List Token) : Prop :=
  toks.Pairwise (fun first second =>
    first.type = .word → second.type = .word → first.off + first.len < second.off)

/-- The words among some tokens lie in `line`, from `off` on. -/
def WordsFrom (line : List UInt8) (off : Nat) (toks : List Token) : Prop :=
  ∀ token ∈ toks, token.type = .word
    → off ≤ token.off ∧ token.off + token.len ≤ line.length

theorem WordsFrom.earlier {before : Nat} (words : WordsFrom line off toks) (earlier : before ≤ off)
    : WordsFrom line before toks :=
  fun token member isWord =>
    ⟨Nat.le_trans earlier (words token member isWord).1, (words token member isWord).2⟩

theorem Spaced.cons {line : List UInt8} {off : Nat} {token : Token} {toks : List Token}
    (spaced : Spaced toks) (words : WordsFrom line off toks)
    (ends : token.type = .word → token.off + token.len < off)
    : Spaced (token :: toks) := by
  apply List.pairwise_cons.mpr
  refine ⟨?_, spaced⟩
  intro second member isWord secondWord
  exact Nat.lt_of_lt_of_le (ends isWord) (words second member secondWord).1

/-- What the tokens found at a place of a line are: they stand for the lexemes there, and their
words are apart. At the end of a word, no word begins at the place itself.
-/
structure Found (line rest : List UInt8) (off : Nat) (toks : List Token) : Prop where
  lexes : Lexes rest (toks.map (Token.lexeme line))
  spaced : Spaced toks
  words : WordsFrom line off toks
  behind : (∀ c ∈ rest.head?, isDelim c = true) → WordsFrom line (off + 1) toks

theorem Found.nil (line : List UInt8) (off : Nat) : Found line [] off [] :=
  ⟨.nil, List.Pairwise.nil, nofun, fun _ => nofun⟩

theorem Found.space {line rest : List UInt8} {off : Nat} {toks : List Token} {c : UInt8}
    (found : Found line rest (off + 1) toks) (space : isSpace c = true)
    : Found line (c :: rest) off toks :=
  ⟨.space space found.lexes, found.spaced, found.words.earlier (Nat.le_succ off),
    fun _ => found.words⟩

theorem Found.symbol {token : Token} (text : List UInt8)
    (found : Found line rest (off + text.length) toks) (nonempty : 0 < text.length)
    (symbol : token.type ≠ .word)
    (lexes : Lexes (text ++ rest) ((token :: toks).map (Token.lexeme line)))
    : Found line (text ++ rest) off (token :: toks) := by
  have words (start : Nat) (early : start ≤ off + text.length)
      : WordsFrom line start (token :: toks) := by
    intro other member isWord
    rcases List.mem_cons.mp member with rfl | later
    · exact absurd isWord symbol
    · exact (found.words.earlier early) other later isWord
  refine ⟨lexes, ?_, words off (Nat.le_add_right _ _), fun _ => words (off + 1) (by omega)⟩
  exact found.spaced.cons found.words (fun isWord => absurd isWord symbol)

theorem Found.word {line text rest : List UInt8} {off stop : Nat} {token : Token}
    {toks : List Token} (found : Found line rest stop toks)
    (later : WordsFrom line (token.off + token.len + 1) toks) (first : off ≤ token.off)
    (inside : token.off + token.len ≤ line.length)
    (behind : (∀ c ∈ text.head?, isDelim c = true) → off < token.off)
    (lexes : Lexes text ((token :: toks).map (Token.lexeme line)))
    : Found line text off (token :: toks) := by
  have words (start : Nat) (early : start ≤ token.off) : WordsFrom line start (token :: toks) := by
    intro other member isWord
    rcases List.mem_cons.mp member with rfl | more
    · exact ⟨early, inside⟩
    · exact (later.earlier (by omega)) other more isWord
  refine ⟨lexes, ?_, words off first, fun delim => words (off + 1) (behind delim)⟩
  exact found.spaced.cons later (fun _ => Nat.lt_succ_self _)

theorem slice_append {before text rest : List UInt8}
    : ((before ++ (text ++ rest)).drop before.length).take text.length = text := by
  simp

theorem lexeme_quoted (before text rest : List UInt8)
    : (Token.mk .word (before.length + 1) text.length).lexeme
        (before ++ quoteMark :: (text ++ quoteMark :: rest)) = .word text := by
  have slice := @slice_append (before ++ [quoteMark]) text (quoteMark :: rest)
  rw [List.append_assoc, List.singleton_append, List.length_append] at slice
  exact congrArg Lexeme.word slice

theorem lexeme_plain (before rest : List UInt8) (c : UInt8) (text : List UInt8)
    : (Token.mk .word before.length (text.length + 1)).lexeme
        (before ++ c :: (text ++ rest)) = .word (c :: text) := by
  exact congrArg Lexeme.word (@slice_append before (c :: text) rest)

theorem Found.quoted {line before text rest : List UInt8} {toks : List Token}
    (found : Found line rest (before.length + (text.length + 2)) toks)
    (inside : quoteMark ∉ text) (split : line = before ++ quoteMark :: (text ++ quoteMark :: rest))
    : Found line (quoteMark :: (text ++ quoteMark :: rest)) before.length
        (⟨.word, before.length + 1, text.length⟩ :: toks) := by
  refine found.word ?_ (Nat.le_succ _) ?_ (fun _ => Nat.lt_succ_self _) ?_
  · have same : before.length + (text.length + 2) = before.length + 1 + text.length + 1 := by omega
    rw [← same]
    exact found.words
  · rw [split]
    simp only [List.length_append, List.length_cons]
    omega
  · rw [List.map_cons, split, lexeme_quoted, ← split]
    exact Lexes.quoted inside found.lexes

theorem Found.plain (found : Found line rest (before.length + (text.length + 1)) toks)
    (plain : ∀ letter ∈ c :: text, isDelim letter = false)
    (ends : ∀ letter ∈ rest.head?, isDelim letter = true)
    (split : line = before ++ c :: (text ++ rest))
    : Found line (c :: (text ++ rest)) before.length
        (⟨.word, before.length, text.length + 1⟩ :: toks) := by
  refine found.word ?_ (Nat.le_refl _) ?_ ?_ ?_
  · exact found.behind ends
  · rw [split]
    simp only [List.length_append, List.length_cons]
    omega
  · intro delim
    have := delim c rfl
    rw [plain c (List.mem_cons_self ..)] at this
    exact absurd this Bool.false_ne_true
  · rw [List.map_cons, split, lexeme_plain, ← split]
    exact Lexes.word plain ends found.lexes

theorem word_split (letter : isDelim c = false) (rest : List UInt8)
    : ∃ text more, rest = text ++ more ∧ (∀ letter ∈ c :: text, isDelim letter = false)
        ∧ ∀ letter ∈ more.head?, isDelim letter = true := by
  induction rest with
  | nil => exact ⟨[], [], rfl, by simpa using letter, nofun⟩
  | cons next rest ih =>
      by_cases delim : isDelim next = true
      · exact ⟨[], next :: rest, rfl, by simpa using letter, by simpa using delim⟩
      · obtain ⟨text, more, rfl, plain, ends⟩ := ih
        refine ⟨next :: text, more, rfl, ?_, ends⟩
        intro other member
        rcases List.mem_cons.mp member with rfl | member
        · exact letter
        rcases List.mem_cons.mp member with rfl | member
        · exact Bool.eq_false_iff.mpr delim
        · exact plain other (List.mem_cons_of_mem _ member)

def Tokenized (line rest : List UInt8) (off : Nat) (toks : List Token)
    : Except Stop (List Token) → Prop
  | .ok all => ∃ new, all = toks ++ new ∧ Found line rest off new
  | .error (.status status) => status = .memory ∨ status = .quote
  | .error .outOfFuel => False

theorem tokenizeLoop_token {more : List UInt8} {turns : Nat} {token : Token}
    (splits : c :: rest = text ++ more) (notSpace : isSpace c = false)
    (scanned : scan c rest before.length = .ok (token, text.length))
    (next : Tokenized line more (before ++ text).length (toks ++ [token])
      (tokenizeLoop grants turns more (before ++ text).length (toks ++ [token])))
    (grow : ∀ new, Found line more (before.length + text.length) new
      → Found line (c :: rest) before.length (token :: new))
    : Tokenized line (c :: rest) before.length toks
        (tokenizeLoop grants (turns + 1) (c :: rest) before.length toks) := by
  rw [tokenizeLoop]
  simp only [notSpace, scanned, Bool.false_eq_true, if_false]
  split
  · have left : (c :: rest).drop text.length = more := by rw [splits]; simp
    rw [left, ← List.length_append]
    generalize tokenizeLoop grants turns more (before ++ text).length (toks ++ [token])
      = result at next ⊢
    match result, next with
    | .ok _, ⟨new, same, found⟩ =>
        rw [List.length_append] at found
        exact ⟨token :: new, by simp [same], grow new found⟩
    | .error (.status _), either => exact either
  · exact Or.inl rfl

/-- The tokens that the loop finds stand for the lexemes of the line. -/
theorem tokenizeLoop_found (grants : Nat → Bool) (line : List UInt8) (turns : Nat)
    : ∀ (before rest : List UInt8) (toks : List Token), line = before ++ rest
      → rest.length < turns
      → Tokenized line rest before.length toks
          (tokenizeLoop grants turns rest before.length toks) := by
  induction turns with
  | zero => intro before rest toks _ enough; omega
  | succ turns ih =>
      intro before rest toks split enough
      cases rest with
      | nil =>
          rw [tokenizeLoop]
          split
          · exact ⟨[], by simp, Found.nil line _⟩
          · exact Or.inl rfl
      | cons c rest =>
          -- the rest of the loop, behind `text`
          have next (text more : List UInt8) (token : Token) (splits : c :: rest = text ++ more)
              (nonempty : 0 < text.length)
              : Tokenized line more (before ++ text).length (toks ++ [token])
                  (tokenizeLoop grants turns more (before ++ text).length (toks ++ [token])) := by
            apply ih (before ++ text) more _ (by rw [split, splits, List.append_assoc])
            have := congrArg List.length splits
            simp only [List.length_cons, List.length_append] at this enough
            omega
          by_cases space : isSpace c = true
          · rw [tokenizeLoop, if_pos space]
            have next := ih (before ++ [c]) rest toks (by simp [split])
              (by simp only [List.length_cons] at enough; omega)
            rw [List.length_append] at next
            generalize tokenizeLoop grants turns rest (before.length + 1) toks = result at next ⊢
            match result, next with
            | .ok _, ⟨new, same, found⟩ => exact ⟨new, same, found.space space⟩
            | .error (.status _), either => exact either
          have notSpace : isSpace c = false := Bool.eq_false_iff.mpr space
          rcases byte_cases c with isSpace | ⟨lexeme, single⟩ | ⟨one, two, double⟩ | quote | letter
          · exact absurd isSpace space
          · obtain ⟨token, scanned, -, symbol, stands⟩ := scan_single single rest before.length
            apply tokenizeLoop_token rfl notSpace scanned (next [c] rest token rfl (by simp))
            intro new found
            exact Found.symbol [c] found (by simp) symbol
              (by simpa [stands] using Lexes.single single found.lexes)
          · by_cases ends : rest.head? = some c
            · obtain ⟨more, rfl⟩ : ∃ more, rest = c :: more := by
                cases rest with
                | nil => simp at ends
                | cons letter more => exact ⟨more, by simpa using ends⟩
              obtain ⟨token, scanned, -, symbol, stands⟩ :=
                scan_doubled double more before.length
              apply tokenizeLoop_token rfl notSpace scanned (next [c, c] more token rfl (by simp))
              intro new found
              exact Found.symbol [c, c] found (by simp) symbol
                (by simpa [stands] using Lexes.doubled double found.lexes)
            · obtain ⟨token, scanned, -, symbol, stands⟩ :=
                scan_alone double ends before.length
              apply tokenizeLoop_token rfl notSpace scanned (next [c] rest token rfl (by simp))
              intro new found
              exact Found.symbol [c] found (by simp) symbol
                (by simpa [stands] using Lexes.alone double ends found.lexes)
          · subst quote
            by_cases closed : quoteMark ∈ rest
            · obtain ⟨text, more, rfl, inside⟩ := List.eq_append_cons_of_mem closed
              have splits : quoteMark :: (text ++ quoteMark :: more)
                  = (quoteMark :: (text ++ [quoteMark])) ++ more := by
                simp
              have scanned : scan quoteMark (text ++ quoteMark :: more) before.length
                  = .ok (⟨.word, before.length + 1, text.length⟩,
                    (quoteMark :: (text ++ [quoteMark])).length) := by
                rw [scan_quoted inside]
                simp
              apply tokenizeLoop_token splits notSpace scanned (next _ more _ splits (by simp))
              intro new found
              rw [List.length_cons, List.length_append] at found
              exact found.quoted inside split
            · rw [tokenizeLoop]
              simp [notSpace, scan_unquoted closed, Tokenized]
          · obtain ⟨text, more, rfl, plain, ends⟩ := word_split letter rest
            have splits : c :: (text ++ more) = (c :: text) ++ more := rfl
            apply tokenizeLoop_token splits notSpace (scan_word plain ends _)
              (next (c :: text) more _ splits (by simp))
            intro new found
            exact found.plain plain ends split

/-- The lexemes of the tokens found are those that the line has, unless room was refused. -/
def Agrees (line : List UInt8) (toks : List Token) (lexemes : List Lexeme)
    : Except Stop (List Token) → Prop
  | .ok all => all.map (Token.lexeme line) = toks.map (Token.lexeme line) ++ lexemes
  | .error stop => stop = .status .memory

theorem Agrees.token {turns used : Nat} {token : Token} (notSpace : isSpace c = false)
    (scanned : scan c rest off = .ok (token, used)) (stands : token.lexeme line = lexeme)
    (next : Agrees line (toks ++ [token]) lexemes
      (tokenizeLoop grants turns ((c :: rest).drop used) (off + used) (toks ++ [token])))
    : Agrees line toks (lexeme :: lexemes)
        (tokenizeLoop grants (turns + 1) (c :: rest) off toks) := by
  rw [tokenizeLoop]
  simp only [notSpace, scanned, Bool.false_eq_true, if_false]
  split
  · generalize tokenizeLoop grants turns _ _ _ = result at next ⊢
    cases result with
    | error stop => exact next
    | ok all => simpa [Agrees, stands] using next
  · rfl

theorem Single.notSpace (single : Single c lexeme) : isSpace c = false := by
  cases single <;> decide

theorem Double.notSpace (double : Double c one two) : isSpace c = false := by
  cases double <;> decide

theorem notSpace_of_letter (letter : isDelim c = false) : isSpace c = false := by
  cases space : isSpace c with
  | false => rfl
  | true => simp [isDelim, space] at letter

/-- The loop finds the lexemes that a line has. -/
theorem tokenizeLoop_lexes (grants : Nat → Bool) (lexes : Lexes rest lexemes)
    : ∀ (turns : Nat) (before : List UInt8) (toks : List Token), rest.length < turns
      → Agrees (before ++ rest) toks lexemes
          (tokenizeLoop grants turns rest before.length toks) := by
  induction lexes with
  | nil =>
      intro turns before toks enough
      obtain ⟨turns, rfl⟩ := Nat.exists_eq_add_of_lt enough
      rw [tokenizeLoop]
      split
      · simp [Agrees]
      · rfl
  | @space c rest lexemes space _ ih =>
      intro turns before toks enough
      obtain ⟨more, rfl⟩ := Nat.exists_eq_add_of_lt enough
      rw [tokenizeLoop, if_pos space]
      have next := ih ((c :: rest).length + more) (before ++ [c]) toks (by simp; omega)
      rwa [List.append_assoc, List.length_append] at next
  | @single c lexeme rest lexemes single _ ih =>
      intro turns before toks enough
      obtain ⟨more, rfl⟩ := Nat.exists_eq_add_of_lt enough
      obtain ⟨token, scanned, -, -, stands⟩ := scan_single single rest before.length
      apply Agrees.token single.notSpace scanned (stands _)
      have next := ih ((c :: rest).length + more) (before ++ [c]) (toks ++ [token])
        (by simp; omega)
      rwa [List.append_assoc, List.length_append] at next
  | @alone c one two rest lexemes double ends _ ih =>
      intro turns before toks enough
      obtain ⟨more, rfl⟩ := Nat.exists_eq_add_of_lt enough
      obtain ⟨token, scanned, -, -, stands⟩ := scan_alone double ends before.length
      apply Agrees.token double.notSpace scanned (stands _)
      have next := ih ((c :: rest).length + more) (before ++ [c]) (toks ++ [token])
        (by simp; omega)
      rwa [List.append_assoc, List.length_append] at next
  | @doubled c one two rest lexemes double _ ih =>
      intro turns before toks enough
      obtain ⟨more, rfl⟩ := Nat.exists_eq_add_of_lt enough
      obtain ⟨token, scanned, -, -, stands⟩ := scan_doubled double rest before.length
      apply Agrees.token double.notSpace scanned (stands _)
      have next := ih ((c :: c :: rest).length + more) (before ++ [c, c]) (toks ++ [token])
        (by simp; omega)
      rwa [List.append_assoc, List.length_append] at next
  | @quoted text rest lexemes inside _ ih =>
      intro turns before toks enough
      obtain ⟨more, rfl⟩ := Nat.exists_eq_add_of_lt enough
      apply Agrees.token (by decide) (scan_quoted inside rest _) (lexeme_quoted _ _ _)
      have next := ih ((quoteMark :: (text ++ quoteMark :: rest)).length + more)
        (before ++ (quoteMark :: (text ++ [quoteMark])))
        (toks ++ [⟨.word, before.length + 1, text.length⟩]) (by simp; omega)
      simpa [Nat.add_assoc] using next
  | @word c text rest lexemes plain ends _ ih =>
      intro turns before toks enough
      obtain ⟨more, rfl⟩ := Nat.exists_eq_add_of_lt enough
      apply Agrees.token (notSpace_of_letter (plain c (List.mem_cons_self ..)))
        (scan_word plain ends _) (lexeme_plain _ _ _ _)
      have next := ih ((c :: text ++ rest).length + more) (before ++ (c :: text))
        (toks ++ [⟨.word, before.length, text.length + 1⟩]) (by simp; omega)
      simpa using next

theorem tokenize_found (ran : tokenize grants line = .ok toks) : Found line line 0 toks := by
  have found := tokenizeLoop_found grants line (line.length + 1) [] line [] rfl
    (Nat.lt_succ_self _)
  rw [tokenize] at ran
  simp only [List.length_nil, ran, Tokenized, List.nil_append] at found
  obtain ⟨new, rfl, found⟩ := found
  exact found

theorem tokenize_stop {stop : Stop} (ran : tokenize grants line = .error stop)
    : stop = .status .memory ∨ stop = .status .quote := by
  have found := tokenizeLoop_found grants line (line.length + 1) [] line [] rfl
    (Nat.lt_succ_self _)
  rw [tokenize] at ran
  simp only [List.length_nil, ran] at found
  cases stop with
  | outOfFuel => exact absurd found id
  | status status =>
      rcases found with rfl | rfl
      · exact Or.inl rfl
      · exact Or.inr rfl

theorem tokenize_lexes {grants : Nat → Bool} {line : List UInt8} {lexemes : List Lexeme}
    (lexes : Lexes line lexemes)
    : tokenize grants line = .error (.status .memory)
      ∨ ∃ toks, tokenize grants line = .ok toks
          ∧ toks.map (Token.lexeme line) = lexemes := by
  have agrees := tokenizeLoop_lexes grants lexes (line.length + 1) [] [] (Nat.lt_succ_self _)
  rw [tokenize]
  simp only [List.length_nil, List.nil_append] at agrees
  generalize tokenizeLoop grants (line.length + 1) line 0 [] = result at agrees ⊢
  cases result with
  | error stop => exact Or.inl (congrArg Except.error agrees)
  | ok toks => exact Or.inr ⟨toks, rfl, by simpa [Agrees] using agrees⟩

-- The words, once the line is cut

theorem terminateWords_getElem (line : List UInt8) (toks : List Token) {i : Nat}
    (inside : i ≤ line.length)
    : (terminateWords line toks)[i]?
      = if ∃ token ∈ toks, token.type = .word ∧ token.off + token.len = i then some 0
        else (line ++ [0])[i]? := by
  rw [terminateWords]
  have room : i < (line ++ [0]).length := by simpa using Nat.lt_succ_of_le inside
  generalize line ++ [0] = buf at room
  induction toks generalizing buf with
  | nil => simp
  | cons token toks ih =>
      by_cases isWord : token.type = .word
      · rw [List.foldl_cons, if_pos isWord, ih _ (by rwa [List.length_set])]
        by_cases here : token.off + token.len = i
        · simp [isWord, here, room]
        · simp [here, List.getElem?_set_ne here]
      · rw [List.foldl_cons, if_neg isWord, ih _ room]
        simp [isWord]

/-- Once the line is cut, the string at a word is the text of the word. -/
theorem cstr_terminateWords {token : Token} (noNul : (0 : UInt8) ∉ line) (spaced : Spaced toks)
    (words : WordsFrom line 0 toks) (member : token ∈ toks) (isWord : token.type = .word)
    : cstr (terminateWords line toks) token.off = (line.drop token.off).take token.len := by
  have inside := (words token member isWord).2
  -- no word is cut inside this one
  have kept {j : Nat} (within : j < token.len) {other : Token} (among : other ∈ toks)
      (otherWord : other.type = .word)
      : other.off + other.len ≠ token.off + j := by
    obtain ⟨a, aLess, rfl⟩ := List.getElem_of_mem member
    obtain ⟨b, bLess, rfl⟩ := List.getElem_of_mem among
    rcases Nat.lt_trichotomy a b with first | rfl | first
    · have := List.pairwise_iff_getElem.mp spaced a b aLess bLess first isWord otherWord
      omega
    · omega
    · have := List.pairwise_iff_getElem.mp spaced b a bLess aLess first otherWord isWord
      omega
  have text : ∀ letter ∈ (line.drop token.off).take token.len, (letter != 0) = true := by
    intro letter within
    rw [bne_iff_ne]
    rintro rfl
    exact noNul (List.mem_of_mem_drop (List.mem_of_mem_take within))
  have same : ((terminateWords line toks).drop token.off).take token.len
      = (line.drop token.off).take token.len := by
    apply List.ext_getElem?
    intro j
    by_cases within : j < token.len
    · rw [List.getElem?_take_of_lt within, List.getElem?_take_of_lt within, List.getElem?_drop,
        List.getElem?_drop, terminateWords_getElem line toks (by omega), if_neg,
        List.getElem?_append_left (by omega)]
      rintro ⟨other, among, otherWord, ends⟩
      exact kept within among otherWord ends
    · rw [List.getElem?_eq_none (by simp; omega), List.getElem?_eq_none (by simp; omega)]
  have split : (terminateWords line toks).drop token.off
      = (line.drop token.off).take token.len
        ++ (terminateWords line toks).drop (token.off + token.len) := by
    rw [← same, ← List.drop_drop, List.take_append_drop]
  rw [cstr, split]
  apply takeWhile_append_stop text
  intro letter head
  rw [List.head?_drop, terminateWords_getElem line toks inside,
    if_pos ⟨token, member, isWord, rfl⟩] at head
  cases head
  rfl

end Panuti.Pur
