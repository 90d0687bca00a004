import Panuti.Library.Wildcard
import Panuti.Pcrutils.Text

/-! `pcr_glob_match`: one walk over a pattern and a name that goes back to the last star, against
the language of the pattern. A string is the list of its bytes before the zero.
-/

namespace Panuti.Pcrutils

open Library.Wildcard

def STAR : UInt8 := 42

def QUERY : UInt8 := 63

def OPEN : UInt8 := 91

def CLOSE : UInt8 := 93

def BANG : UInt8 := 33

def CARET : UInt8 := 94

def HYPHEN : UInt8 := 45

-- The matcher

/-- The loop of `pcr_glob_bracket`: `any`, `matched` and what is left of the pattern. -/
def bracketLoop (ch : UInt8) : Bytes → (any matched : Bool) → Bool × Bool × Bytes
  | [], any, matched => (any, matched, [])
  | [lo], any, matched =>
      if lo = CLOSE then (any, matched, [lo]) else (true, matched || ch == lo, [])
  | [lo, one], any, matched =>
      if lo = CLOSE then (any, matched, [lo, one])
      else bracketLoop ch [one] true (matched || ch == lo)
  | lo :: one :: hi :: pat, any, matched =>
      if lo = CLOSE then (any, matched, lo :: one :: hi :: pat)
      else if one = HYPHEN ∧ hi ≠ CLOSE then
        bracketLoop ch pat true (matched || (decide (lo ≤ ch) && decide (ch ≤ hi)))
      else bracketLoop ch (one :: hi :: pat) true (matched || ch == lo)

def isNegated (pat : Bytes) : Bool := pat.head? = some BANG || pat.head? = some CARET

def behindSign (pat : Bytes) : Bytes := if isNegated pat then pat.tail else pat

/-- `pcr_glob_bracket`, for a pattern at a bracket and a character of the string, which is one that
there is: the pattern behind a group that matches it.
-/
def globBracket (pat : Bytes) (ch : UInt8) : Option Bytes :=
  let pat := pat.tail
  let neg := isNegated pat
  let (any, matched, pat) := bracketLoop ch (behindSign pat) false false
  if any = false ∨ pat.head? ≠ some CLOSE then none
  else if (if neg then !matched else matched) then some pat.tail
  else none

/-- The variables of `pcr_glob_match`. Where there was a star, they are the pattern behind it and
`ss`, which is not behind `s`.
-/
structure GlobState where
  pat : Bytes
  s : Bytes
  star : Option (Bytes × Bytes)
  before : ∀ entry ∈ star, s.length ≤ entry.2.length

inductive GlobTurn where
  | on (next : GlobState)
  | stop (answer : Bool)

/-- `pat++` or the end of a group, with `s++`. -/
def GlobState.advance (st : GlobState) (pat : Bytes) : GlobTurn :=
  .on
    { pat
      s := st.s.tail
      star := st.star
      before := fun entry member =>
        Nat.le_trans (by rw [List.length_tail]; exact Nat.sub_le ..) (st.before entry member) }

def GlobState.retry (st : GlobState) : GlobTurn :=
  match st.star with
  | none => .stop false
  | some (pat, ss) =>
      .on
        { pat
          s := ss.tail
          star := some (pat, ss.tail)
          before := by
            rintro entry ⟨⟩
            exact Nat.le_refl _ }

def globTurn (st : GlobState) : GlobTurn :=
  match st.s, st.pat with
  | [], pat => .stop (pat.dropWhile (· = STAR) = [])
  | _ :: _, [] => st.retry
  | c :: _, p :: pat =>
      if p = STAR then
        .on
          { pat
            s := st.s
            star := some (pat, st.s)
            before := by
              rintro entry ⟨⟩
              exact Nat.le_refl _ }
      else if p = QUERY then st.advance pat
      else if p = OPEN then
        match globBracket (p :: pat) c with
        | some after => st.advance after
        | none => if p = c then st.advance pat else st.retry
      else if p = c then st.advance pat
      else st.retry

def roomOf (s : Bytes) : Option (Bytes × Bytes) → Nat
  | none => s.length + 1
  | some (_, ss) => ss.length

def GlobState.room (st : GlobState) : Nat := roomOf st.s st.star

/-- Less of the run is left: a star goes back less far, or less of the string or of the pattern is
to come.
-/
def GlobState.Less (next st : GlobState) : Prop :=
  next.room < st.room
    ∨ next.room = st.room
      ∧ (next.s.length < st.s.length
        ∨ next.s.length = st.s.length ∧ next.pat.length < st.pat.length)

variable {st next : GlobState} {pat s : Bytes}

theorem GlobState.advance_less (some' : st.s ≠ []) (goes : st.advance pat = .on next)
    : next.Less st := by
  have positive := List.length_pos_of_ne_nil some'
  cases goes
  have shorter : st.s.tail.length < st.s.length := by
    rw [List.length_tail]
    omega
  have room : roomOf st.s.tail st.star < roomOf st.s st.star
      ∨ roomOf st.s.tail st.star = roomOf st.s st.star := by
    cases st.star with
    | none => exact Or.inl (Nat.succ_lt_succ shorter)
    | some entry => exact Or.inr rfl
  exact room.imp id fun same => ⟨same, Or.inl shorter⟩

theorem GlobState.retry_less (some' : st.s ≠ []) (goes : st.retry = .on next) : next.Less st := by
  have positive := List.length_pos_of_ne_nil some'
  rw [GlobState.retry] at goes
  split at goes
  · cases goes
  next pat ss star =>
    cases goes
    have before := st.before (pat, ss) star
    refine Or.inl ?_
    simp only [GlobState.room, star, roomOf, List.length_tail]
    dsimp only at before
    omega

theorem globTurn_less (goes : globTurn st = .on next) : next.Less st := by
  rw [globTurn] at goes
  split at goes
  · cases goes
  next c rest isS _ => exact st.retry_less (isS ▸ List.cons_ne_nil c rest) goes
  next c rest p pat isS isPat =>
    have some' : st.s ≠ [] := isS ▸ List.cons_ne_nil c rest
    split at goes
    · cases goes
      have shorter : pat.length < st.pat.length := isPat ▸ Nat.lt_succ_self _
      have room : st.s.length < roomOf st.s st.star ∨ st.s.length = roomOf st.s st.star := by
        cases star : st.star with
        | none => exact Or.inl (Nat.lt_succ_self _)
        | some entry => exact Nat.lt_or_eq_of_le (st.before entry star)
      exact room.imp id fun same => ⟨same, Or.inr ⟨rfl, shorter⟩⟩
    split at goes
    · exact st.advance_less some' goes
    split at goes
    · split at goes
      · exact st.advance_less some' goes
      · split at goes
        · exact st.advance_less some' goes
        · exact st.retry_less some' goes
    · split at goes
      · exact st.advance_less some' goes
      · exact st.retry_less some' goes

/-- The loop of `pcr_glob_match`, with what is behind it. -/
def globLoop (st : GlobState) : Bool :=
  match _turn : globTurn st with
  | .stop answer => answer
  | .on next => globLoop next
termination_by (st.room, st.s.length, st.pat.length)
decreasing_by
  rcases globTurn_less _turn with room | ⟨room, s | ⟨s, pat⟩⟩
  · exact Prod.Lex.left _ _ room
  · rw [room]
    exact Prod.Lex.right _ (Prod.Lex.left _ _ s)
  · rw [room, s]
    exact Prod.Lex.right _ (Prod.Lex.right _ pat)

def globStart (pat s : Bytes) : GlobState := ⟨pat, s, none, nofun⟩

def pcrGlobMatch (pat s : Bytes) : Bool := globLoop (globStart pat s)

-- The language of a pattern

/-- The characters and ranges of a group, from the text inside of it. -/
def bracketRanges : Bytes → List (UInt8 × UInt8)
  | [] => []
  | [c] => [(c, c)]
  | [c, one] => (c, c) :: bracketRanges [one]
  | lo :: one :: hi :: rest =>
      if one = HYPHEN then (lo, hi) :: bracketRanges rest
      else (lo, lo) :: bracketRanges (one :: hi :: rest)

/-- A group that has a closing bracket and something inside. -/
structure Group where
  negated : Bool
  body : Bytes
  after : Bytes
deriving Repr, DecidableEq

/-- The group that begins behind an opening bracket, if there is one. -/
def group (pat : Bytes) : Option Group :=
  let body := (behindSign pat).takeWhile (· ≠ CLOSE)
  match (behindSign pat).dropWhile (· ≠ CLOSE) with
  | [] => none
  | _ :: after => if body = [] then none else some ⟨isNegated pat, body, after⟩

def inRange (ch : UInt8) (range : UInt8 × UInt8) : Bool :=
  decide (range.1 ≤ ch) && decide (ch ≤ range.2)

def Group.accepts (g : Group) (c : UInt8) : Bool :=
  g.negated != (bracketRanges g.body).any (inRange c)

theorem group_after {g : Group} (found : group pat = some g) : g.after.length < pat.length := by
  have tail : (behindSign pat).length ≤ pat.length := by
    rw [behindSign]
    split
    · rw [List.length_tail]
      exact Nat.sub_le ..
    · exact Nat.le_refl _
  rw [group] at found
  split at found
  · cases found
  next close after rest =>
    split at found
    · cases found
    · cases found
      have whole := List.length_dropWhile_le (· ≠ CLOSE) (behindSign pat)
      rw [rest, List.length_cons] at whole
      dsimp only
      omega

/-- The tokens of a pattern. A bracket that begins no group stands for itself. -/
def tokens : Bytes → List (Token UInt8)
  | [] => []
  | p :: pat =>
      if p = STAR then .star :: tokens pat
      else if p = QUERY then .one (fun _ => true) :: tokens pat
      else if p = OPEN then
        match _found : group pat with
        | some g => .one g.accepts :: tokens g.after
        | none => .one (fun c => p = c) :: tokens pat
      else .one (fun c => p = c) :: tokens pat
termination_by pat => pat.length
decreasing_by
  all_goals first
    | exact Nat.lt_succ_self _
    | exact Nat.lt_succ_of_lt (group_after _found)

def InLanguage (pat s : Bytes) : Prop := Matches (tokens pat) s

/-- What can still be matched: what is left of the pattern by what is left of the string, or, from
the last star on, by a later place of the string.
-/
def GlobState.Accepts (st : GlobState) : Prop :=
  InLanguage st.pat st.s ∨ ∃ entry ∈ st.star, Later (tokens entry.1) entry.2

/-- Behind the last star the pattern has gone on by as many tokens as the string by characters. -/
def GlobState.Aligned (st : GlobState) : Prop :=
  ∀ entry ∈ st.star, ∃ front taken, tokens entry.1 = front ++ tokens st.pat
    ∧ entry.2 = taken ++ st.s ∧ Starless front ∧ taken.length = front.length

/-- What a turn leads to accepts what the state does. -/
def GlobTurn.Sound (st : GlobState) : GlobTurn → Prop
  | .stop answer => answer = true ↔ st.Accepts
  | .on next => next.Aligned ∧ (next.Accepts ↔ st.Accepts)

/-- A run of the loop goes on from one state to another. -/
inductive GlobState.Reaches (start : GlobState) : GlobState → Prop where
  | start : start.Reaches start
  | turn {st next : GlobState} (before : start.Reaches st) (goes : globTurn st = .on next)
    : start.Reaches next

theorem GlobState.Reaches.head {later : GlobState} (goes : globTurn st = .on next)
    (rest : next.Reaches later)
    : st.Reaches later := by
  induction rest with
  | start => exact .turn .start goes
  | turn _ step ih => exact .turn ih step

/-- What is left of the string has no bracket, from its last star on. -/
def GlobState.Bare (st : GlobState) : Prop := OPEN ∉ st.s ∧ ∀ entry ∈ st.star, OPEN ∉ entry.2

theorem GlobState.Bare.advance (bare : st.Bare) (goes : st.advance pat = .on next) : next.Bare := by
  cases goes
  exact ⟨fun member => bare.1 (List.mem_of_mem_tail member), bare.2⟩

theorem GlobState.Bare.retry (bare : st.Bare) (goes : st.retry = .on next) : next.Bare := by
  rw [GlobState.retry] at goes
  split at goes
  · cases goes
  next pat ss isStar =>
    cases goes
    have left : OPEN ∉ ss.tail := fun member =>
      bare.2 (pat, ss) isStar (List.mem_of_mem_tail member)
    refine ⟨left, ?_⟩
    rintro entry ⟨⟩
    exact left

theorem GlobState.Bare.turn (bare : st.Bare) (goes : globTurn st = .on next) : next.Bare := by
  rw [globTurn] at goes
  split at goes
  · cases goes
  · exact bare.retry goes
  split at goes
  · cases goes
    refine ⟨bare.1, ?_⟩
    rintro entry ⟨⟩
    exact bare.1
  split at goes
  · exact bare.advance goes
  split at goes
  · split at goes
    · exact bare.advance goes
    · split at goes
      · exact bare.advance goes
      · exact bare.retry goes
  · split at goes
    · exact bare.advance goes
    · exact bare.retry goes

end Panuti.Pcrutils
