import Mathlib.Data.List.DropRight
import Panuti.Calc.Eval
import Panuti.Library.Outcome

/-! What the evaluator has read is an expression, with the value it computed on the way, and it
stops with a code where it stops.
-/

namespace Panuti.Calc

open Panuti.Library

def IsCode (stop : Stop) : Prop :=
  ∃ code, stop = .err code

theorem isCode (code : CalcErr) : IsCode (.err code) := ⟨code, rfl⟩

-- Blanks and digits

section

variable {blanks text : Text} {c : Char}

theorem skipWs_blanks (skipped : Blanks blanks) : skipWs (blanks ++ text) = skipWs text :=
  List.dropWhile_append_of_pos skipped

theorem skipWs_cons (shown : isBlank c = false) : skipWs (c :: text) = c :: text :=
  List.dropWhile_cons_of_neg (by simp [shown])

theorem skipWs_skipWs : skipWs (skipWs text) = skipWs text :=
  List.dropWhile_idempotent isBlank text

theorem exists_blanks (text : Text) : ∃ blanks, Blanks blanks ∧ text = blanks ++ skipWs text :=
  ⟨text.takeWhile isBlank, fun _ member => List.mem_takeWhile_imp member,
    List.takeWhile_append_dropWhile.symm⟩

theorem isDigit_iff : isDigit c = true ↔ 48 ≤ c.toNat ∧ c.toNat ≤ 57 := by
  rw [isDigit, decide_eq_true_eq, Char.le_def, Char.le_def, UInt32.le_iff_toNat_le,
    UInt32.le_iff_toNat_le]
  rfl

theorem isBlank_iff : isBlank c = true ↔ c = ' ' ∨ c = '\t' ∨ c = '\n' ∨ c = '\r' := by
  rw [isBlank, decide_eq_true_eq]

theorem isBlank_of_isDigit (shown : isDigit c = true) : isBlank c = false := by
  rw [Bool.eq_false_iff, Ne, isBlank_iff]
  rw [isDigit_iff] at shown
  intro blank
  rcases blank with rfl | rfl | rfl | rfl
  all_goals exact absurd shown (by decide)

theorem digit_range (shown : isDigit c = true) : 0 ≤ digit c ∧ digit c ≤ 9 := by
  rw [isDigit_iff] at shown
  have zero : '0'.toNat = 48 := rfl
  rw [digit, zero]
  omega

def decimalFrom (v : Int) (text : Text) : Int :=
  text.foldl (fun v c => v * 10 + digit c) v

theorem decimalFrom_cons (v : Int) (c : Char) (text : Text)
    : decimalFrom v (c :: text) = decimalFrom (v * 10 + digit c) text :=
  rfl

theorem decimalFrom_decimal (all : ∀ c ∈ text, isDigit c = true)
    : decimalFrom 0 text = decimal text := by
  suffices general : ∀ (text : Text) (n : Nat), (∀ c ∈ text, isDigit c = true)
      → decimalFrom n text = (text.foldl (fun n c => 10 * n + (c.toNat - '0'.toNat)) n : Nat) from
    general text 0 all
  intro text
  induction text with
  | nil => exact fun _ _ => rfl
  | cons c rest ih =>
      intro n all
      have here := isDigit_iff.mp (all c (List.mem_cons_self ..))
      have zero : '0'.toNat = 48 := rfl
      have next : (n : Int) * 10 + digit c = ((10 * n + (c.toNat - '0'.toNat) : Nat) : Int) := by
        rw [digit, zero]
        omega
      rw [decimalFrom_cons, next, ih _ fun d member => all d (List.mem_cons_of_mem _ member)]
      rfl

variable {v : Int}

theorem le_decimalFrom (all : ∀ c ∈ text, isDigit c = true) (positive : 0 ≤ v)
    : v ≤ decimalFrom v text := by
  induction text generalizing v with
  | nil => exact Int.le_refl v
  | cons c rest ih =>
      have here := digit_range (all c (List.mem_cons_self ..))
      have later := ih (fun d member => all d (List.mem_cons_of_mem _ member))
        (by omega : 0 ≤ v * 10 + digit c)
      rw [decimalFrom_cons]
      omega

theorem room_iff {d : Int} (low : 0 ≤ d) (high : d ≤ 9)
    : (LONG_MAX - d).tdiv 10 < v ↔ LONG_MAX < v * 10 + d := by
  have positive : 0 ≤ LONG_MAX - d := by
    simp only [LONG_MAX]
    omega
  rw [Int.tdiv_eq_ediv_of_nonneg positive]
  simp only [LONG_MAX]
  omega

theorem long_of (fits : InLong v) : long v = .ok v := if_pos fits

theorem digits_cons (shown : isDigit c = true) (positive : 0 ≤ v)
    : digits v (c :: text)
      = if LONG_MAX < v * 10 + digit c then .error (.err .errOverflow)
        else digits (v * 10 + digit c) text := by
  obtain ⟨low, high⟩ := digit_range shown
  have room : InLong (LONG_MAX - digit c) := by
    simp only [InLong, LONG_MAX, LONG_MIN]
    omega
  rw [digits, if_pos shown, long_of room]
  simp only [Except.bind, bind]
  by_cases full : LONG_MAX < v * 10 + digit c
  · rw [if_pos full, if_pos ((room_iff low high).mpr full)]
  · have tens : InLong (v * 10) := by
      simp only [InLong, LONG_MAX, LONG_MIN] at full ⊢
      omega
    have next : InLong (v * 10 + digit c) := by
      simp only [InLong, LONG_MAX, LONG_MIN] at full ⊢
      omega
    rw [if_neg full, if_neg (fun less => full ((room_iff low high).mp less)), long_of tens]
    simp only [long_of next]

theorem digits_settles (positive : 0 ≤ v) (fits : InLong v)
    : Settles IsCode
        (fun read => ∃ used, text = used ++ read.2 ∧ (∀ c ∈ used, isDigit c = true)
          ∧ read.1 = decimalFrom v used ∧ InLong read.1)
        (digits v text) := by
  induction text generalizing v with
  | nil => exact ⟨[], rfl, List.forall_mem_nil _, rfl, fits⟩
  | cons c rest ih =>
      by_cases shown : isDigit c = true
      · rw [digits_cons shown positive]
        have range := digit_range shown
        by_cases full : LONG_MAX < v * 10 + digit c
        · rw [if_pos full]
          exact isCode _
        · have next : InLong (v * 10 + digit c) := by
            simp only [InLong, LONG_MAX, LONG_MIN] at full ⊢
            omega
          rw [if_neg full]
          apply (ih (by omega) next).mono fun _ => id
          rintro read ⟨used, rfl, all, value, within⟩
          exact ⟨c :: used, rfl, List.forall_mem_cons.mpr ⟨shown, all⟩, value, within⟩
      · rw [digits, if_neg shown]
        exact ⟨[], rfl, List.forall_mem_nil _, rfl, fits⟩

end

def NoDigit (text : Text) : Prop :=
  ∀ c ∈ text.head?, isDigit c = false

theorem digits_eq {used after : Text} {v : Int} (all : ∀ c ∈ used, isDigit c = true)
    (ends : NoDigit after) (positive : 0 ≤ v) (fits : decimalFrom v used ≤ LONG_MAX)
    : digits v (used ++ after) = .ok (decimalFrom v used, after) := by
  induction used generalizing v with
  | nil =>
      cases after with
      | nil => rfl
      | cons c rest =>
          have last : isDigit c = false := ends c rfl
          rw [List.nil_append, digits, if_neg (by simp [last])]
          rfl
  | cons c rest ih =>
      have shown := all c (List.mem_cons_self ..)
      have others : ∀ d ∈ rest, isDigit d = true :=
        fun d member => all d (List.mem_cons_of_mem _ member)
      have range := digit_range shown
      rw [decimalFrom_cons] at fits ⊢
      have grows := le_decimalFrom others (by omega : 0 ≤ v * 10 + digit c)
      rw [List.cons_append, digits_cons shown positive,
        if_neg (by omega : ¬ LONG_MAX < v * 10 + digit c)]
      exact ih others (by omega) fits

-- Operators

section

variable {v w r : Int}

theorem guarded_settles (v : Int) : Settles IsCode (fun r => r = v ∧ InLong r) (guarded v) := by
  rw [guarded]
  split
  · rename_i fits
    exact ⟨rfl, fits⟩
  · exact isCode _

theorem inLong_tdiv (inV : InLong v) (some : w ≠ 0) (usual : ¬ (w = -1 ∧ v = LONG_MIN))
    : InLong (v.tdiv w) := by
  have size : (v.tdiv w).natAbs = v.natAbs / w.natAbs := Int.natAbs_tdiv v w
  simp only [InLong, LONG_MAX, LONG_MIN] at inV usual ⊢
  by_cases one : w = 1
  · rw [one, Int.tdiv_one]
    exact inV
  by_cases other : w = -1
  · rw [other, Int.tdiv_neg, Int.tdiv_one]
    omega
  · have half : v.natAbs / w.natAbs ≤ v.natAbs / 2 :=
      Nat.div_le_div_left (by omega) (by decide)
    omega

theorem not_inLong_tdiv (same : w = -1 ∧ v = LONG_MIN) : ¬ InLong (v.tdiv w) := by
  rw [same.1, same.2]
  decide

theorem inLong_tmod (inV : InLong v) : InLong (v.tmod w) := by
  have size : (v.tmod w).natAbs = v.natAbs % w.natAbs := Int.natAbs_tmod v w
  have least : v.natAbs % w.natAbs ≤ v.natAbs := Nat.mod_le ..
  simp only [InLong, LONG_MAX, LONG_MIN] at inV ⊢
  by_cases sign : 0 ≤ v
  · have positive := Int.tmod_nonneg w sign
    omega
  · have negative := Int.tmod_nonneg w (by omega : 0 ≤ -v)
    rw [Int.neg_tmod] at negative
    omega

/-- Two operands have the exact result, and it fits; for a remainder the quotient does as well. -/
def Op.Gives (op : Op) (v w r : Int) : Prop :=
  op.exact v w = some r ∧ InLong r ∧ (op = .mod → InLong (v.tdiv w))

theorem checkedDivides_settles (inV : InLong v)
    : Settles IsCode
        (fun both => w ≠ 0 ∧ both = (v.tdiv w, v.tmod w) ∧ InLong (v.tdiv w))
        (checkedDivides v w) := by
  rw [checkedDivides]
  by_cases zero : w = 0
  · rw [if_pos zero]
    exact isCode _
  by_cases least : w = -1 ∧ v = LONG_MIN
  · rw [if_neg zero, if_pos least]
    exact isCode _
  · have fits := inLong_tdiv inV zero least
    rw [if_neg zero, if_neg least, divides, if_neg (by simp [zero, fits])]
    exact ⟨zero, rfl, fits⟩

theorem Op.apply_settles (op : Op) (inV : InLong v)
    : Settles IsCode (fun r => op.Gives v w r) (op.apply v w) := by
  cases op with
  | mul => exact (guarded_settles _).mono (fun _ => id) fun r ⟨same, fits⟩ =>
      ⟨congrArg some same.symm, fits, nofun⟩
  | add => exact (guarded_settles _).mono (fun _ => id) fun r ⟨same, fits⟩ =>
      ⟨congrArg some same.symm, fits, nofun⟩
  | sub => exact (guarded_settles _).mono (fun _ => id) fun r ⟨same, fits⟩ =>
      ⟨congrArg some same.symm, fits, nofun⟩
  | div =>
      apply (checkedDivides_settles inV).bind
      rintro both ⟨zero, rfl, fits⟩
      exact ⟨if_neg zero, fits, nofun⟩
  | mod =>
      apply (checkedDivides_settles inV).bind
      rintro both ⟨zero, rfl, fits⟩
      exact ⟨if_neg zero, inLong_tmod inV, fun _ => fits⟩

theorem checkedDivides_eq (some : w ≠ 0) (fits : InLong (v.tdiv w))
    : checkedDivides v w = .ok (v.tdiv w, v.tmod w) := by
  rw [checkedDivides, if_neg some, if_neg fun same => not_inLong_tdiv same fits, divides,
    if_neg (by simp [some, fits])]

theorem Op.Gives.apply {op : Op} (gives : op.Gives v w r) : op.apply v w = .ok r := by
  obtain ⟨exact', fits, quotient⟩ := gives
  cases op with
  | mul =>
      obtain rfl := Option.some.inj exact'
      exact if_pos fits
  | add =>
      obtain rfl := Option.some.inj exact'
      exact if_pos fits
  | sub =>
      obtain rfl := Option.some.inj exact'
      exact if_pos fits
  | div =>
      rw [Op.exact] at exact'
      split at exact'
      · cases exact'
      · rename_i divisor
        obtain rfl := Option.some.inj exact'
        rw [Op.apply, checkedDivides_eq divisor fits]
        rfl
  | mod =>
      rw [Op.exact] at exact'
      split at exact'
      · cases exact'
      · rename_i divisor
        obtain rfl := Option.some.inj exact'
        rw [Op.apply, checkedDivides_eq divisor (quotient rfl)]
        rfl

end

-- What an expression must meet

/-- The expression has the value, by results that all fit. -/
def Expr.Meets (e : Expr) (v : Int) : Prop :=
  e.Fits ∧ e.QuotientsFit ∧ e.value = some v

namespace Expr

variable {e left right : Expr} {op : Op} {v r : Int}

theorem mem_parts (e : Expr) : e ∈ e.parts := by
  cases e <;> simp [parts]

theorem Meets.inLong (meets : e.Meets v) : InLong v := by
  obtain ⟨w, value, fits⟩ := meets.1 e e.mem_parts
  rw [meets.2.2] at value
  rwa [Option.some.inj value]

theorem meets_number {n : Nat} : (number n).Meets v ↔ v = n ∧ InLong v := by
  constructor
  · intro meets
    exact ⟨(Option.some.inj meets.2.2).symm, meets.inLong⟩
  · rintro ⟨rfl, fits⟩
    refine ⟨?_, ?_, rfl⟩
    · intro part member
      obtain rfl := List.mem_singleton.mp member
      exact ⟨n, rfl, fits⟩
    · intro left right member
      cases List.mem_singleton.mp member

theorem meets_unary {outer : Expr} (parts : outer.parts = outer :: e.parts)
    (unlike : ∀ left right, outer ≠ binary .mod left right)
    : outer.Meets r ↔ e.Fits ∧ e.QuotientsFit ∧ outer.value = some r ∧ InLong r := by
  constructor
  · intro meets
    refine ⟨fun part member => meets.1 part ?_, fun left right member => meets.2.1 left right ?_,
      meets.2.2, meets.inLong⟩
    · rw [parts]
      exact List.mem_cons_of_mem _ member
    · rw [parts]
      exact List.mem_cons_of_mem _ member
  · rintro ⟨fits, quotients, value, inside⟩
    refine ⟨?_, ?_, value⟩
    · intro part member
      rw [parts] at member
      rcases List.mem_cons.mp member with rfl | member
      · exact ⟨r, value, inside⟩
      · exact fits part member
    · intro left right member
      rw [parts] at member
      rcases List.mem_cons.mp member with same | member
      · exact absurd same.symm (unlike left right)
      · exact quotients left right member

theorem meets_group : (group e).Meets v ↔ e.Meets v := by
  rw [meets_unary rfl (fun _ _ same => Expr.noConfusion same)]
  exact ⟨fun ⟨fits, quotients, value, _⟩ => ⟨fits, quotients, value⟩,
    fun meets => ⟨meets.1, meets.2.1, meets.2.2, meets.inLong⟩⟩

theorem meets_plus : (plus e).Meets v ↔ e.Meets v := by
  rw [meets_unary rfl (fun _ _ same => Expr.noConfusion same)]
  exact ⟨fun ⟨fits, quotients, value, _⟩ => ⟨fits, quotients, value⟩,
    fun meets => ⟨meets.1, meets.2.1, meets.2.2, meets.inLong⟩⟩

theorem meets_minus : (minus e).Meets r ↔ ∃ v, e.Meets v ∧ r = 0 - v ∧ InLong r := by
  rw [meets_unary rfl (fun _ _ same => Expr.noConfusion same)]
  constructor
  · rintro ⟨fits, quotients, value, inside⟩
    obtain ⟨v, same, rfl⟩ := Option.map_eq_some_iff.mp value
    exact ⟨v, ⟨fits, quotients, same⟩, rfl, inside⟩
  · rintro ⟨v, meets, rfl, inside⟩
    exact ⟨meets.1, meets.2.1, Option.map_eq_some_iff.mpr ⟨v, meets.2.2, rfl⟩, inside⟩

theorem value_binary
    : (binary op left right).value = some r
      ↔ ∃ v w, left.value = some v ∧ right.value = some w ∧ op.exact v w = some r := by
  simp only [value, bind, Option.bind_eq_some_iff]
  constructor
  · rintro ⟨v, first, w, second, same⟩
    exact ⟨v, w, first, second, same⟩
  · rintro ⟨v, w, first, second, same⟩
    exact ⟨v, first, w, second, same⟩

theorem meets_binary
    : (binary op left right).Meets r
      ↔ ∃ v w, left.Meets v ∧ right.Meets w ∧ op.Gives v w r := by
  constructor
  · intro meets
    have inLeft : ∀ part ∈ left.parts, part ∈ (binary op left right).parts := fun part member =>
      List.mem_cons_of_mem _ (List.mem_append_left _ member)
    have inRight : ∀ part ∈ right.parts, part ∈ (binary op left right).parts := fun part member =>
      List.mem_cons_of_mem _ (List.mem_append_right _ member)
    obtain ⟨v, w, first, second, same⟩ := value_binary.mp meets.2.2
    refine ⟨v, w, ⟨fun part member => meets.1 part (inLeft part member),
      fun a b member => meets.2.1 a b (inLeft _ member), first⟩,
      ⟨fun part member => meets.1 part (inRight part member),
        fun a b member => meets.2.1 a b (inRight _ member), second⟩, same, meets.inLong, ?_⟩
    rintro rfl
    exact meets.2.1 left right (mem_parts _) v w first second
  · rintro ⟨v, w, first, second, gives⟩
    have value := value_binary.mpr ⟨v, w, first.2.2, second.2.2, gives.1⟩
    refine ⟨?_, ?_, value⟩
    · intro part member
      rcases List.mem_cons.mp member with rfl | member
      · exact ⟨r, value, gives.2.1⟩
      rcases List.mem_append.mp member with member | member
      · exact first.1 part member
      · exact second.1 part member
    · intro a b member
      rcases List.mem_cons.mp member with same | member
      · obtain ⟨rfl, rfl, rfl⟩ := Expr.binary.inj same
        intro x y isX isY
        rw [first.2.2] at isX
        rw [second.2.2] at isY
        obtain rfl := Option.some.inj isX
        obtain rfl := Option.some.inj isY
        exact gives.2.2 rfl
      rcases List.mem_append.mp member with member | member
      · exact first.2.1 a b member
      · exact second.2.1 a b member

end Expr

-- What was read

/-- The text that was used is a form of the symbol with the value that was computed; blanks may
have been skipped after it.
-/
def Reads (symbol : Symbol) (left : Nat) (text : Text) (read : Int × Text) : Prop :=
  ∃ used after e, text = used ++ after ∧ skipWs after = skipWs read.2
    ∧ Derives symbol used e ∧ e.nesting < left ∧ e.Meets read.1

section

variable {opOf : Char → Option Op} {operand : Text → Except Stop (Int × Text)}
  {symbol inner : Symbol} {left : Nat}

theorem chain_skipWs (turns : Nat) (v : Int) {text again : Text}
    (same : skipWs text = skipWs again)
    : chain opOf operand turns v text = chain opOf operand turns v again := by
  cases turns with
  | zero => rfl
  | succ turns => rw [chain, chain, same]

/-- What the symbol derives, and one operator and operand more. -/
def Grows (opOf : Char → Option Op) (symbol inner : Symbol) : Prop :=
  ∀ {before blanks after : Text} {c : Char} {op : Op} {a b : Expr},
    Derives symbol before a → Blanks blanks → opOf c = some op → Derives inner after b
    → Derives symbol (before ++ (blanks ++ c :: after)) (.binary op a b)

theorem chain_settles (grows : Grows opOf symbol inner)
    (settles : ∀ text, Settles IsCode (Reads inner left text) (operand text))
    (turns : Nat) {used text : Text} {e : Expr} {v : Int} (enough : text.length < turns)
    (derives : Derives symbol used e) (shallow : e.nesting < left) (meets : e.Meets v)
    : Settles IsCode (Reads symbol left (used ++ text)) (chain opOf operand turns v text) := by
  induction turns generalizing used text e v with
  | zero => exact absurd enough (Nat.not_lt_zero _)
  | succ turns ih =>
      obtain ⟨blanks, skipped, parts⟩ := exists_blanks text
      rw [chain]
      cases shown : skipWs text with
      | nil => exact ⟨used, text, e, rfl, shown, derives, shallow, meets⟩
      | cons c rest =>
          simp only []
          cases sign : opOf c with
          | none =>
              refine ⟨used, text, e, rfl, ?_, derives, shallow, meets⟩
              rw [← shown, skipWs_skipWs]
          | some op =>
              simp only []
              rw [shown] at parts
              subst parts
              apply (settles rest).bind
              rintro ⟨w, later⟩ ⟨more, after, b, rfl, same, second, depth, value⟩
              apply (op.apply_settles meets.inLong).bind
              intro r gives
              have both := grows derives skipped sign second
              have least : after.length < turns := by
                simp only [List.length_append, List.length_cons] at enough
                omega
              have whole := ih least both (Nat.max_lt.mpr ⟨shallow, depth⟩)
                (Expr.meets_binary.mpr ⟨v, w, meets, value, gives⟩)
              rw [← chain_skipWs turns r same]
              simpa only [List.append_assoc, List.cons_append] using whole

theorem startChain_settles (grows : Grows opOf symbol inner)
    (lifts : ∀ text e, Derives inner text e → Derives symbol text e)
    (settles : ∀ text, Settles IsCode (Reads inner left text) (operand text)) (text : Text)
    : Settles IsCode (Reads symbol left text)
        (startChain opOf operand (text.length + 1) text) := by
  apply (settles text).bind
  rintro ⟨v, rest⟩ ⟨used, after, e, rfl, same, derives, shallow, meets⟩
  simp only []
  rw [← chain_skipWs _ v same]
  apply chain_settles grows settles _ _ (lifts used e derives) shallow meets
  rw [List.length_append]
  omega

end

section

variable {left : Nat} {factor : Text → Except Stop (Int × Text)}

theorem parseTerm_settles
    (settles : ∀ text, Settles IsCode (Reads .factor left text) (factor text)) (text : Text)
    : Settles IsCode (Reads .term left text) (parseTerm factor text) :=
  startChain_settles Derives.product (fun _ _ => Derives.term) settles text

theorem parseExpr_settles
    (settles : ∀ text, Settles IsCode (Reads .factor left text) (factor text)) (text : Text)
    : Settles IsCode (Reads .expr left text) (parseExpr factor text) :=
  startChain_settles Derives.sum (fun _ _ => Derives.expr) (parseTerm_settles settles) text

end

/-- A number is digits. -/
theorem parseNumber_settles {left : Nat} {blanks text : Text} (skipped : Blanks blanks)
    : Settles IsCode (Reads .factor (left + 1) (blanks ++ text)) (parseNumber text) := by
  cases text with
  | nil => exact isCode _
  | cons c rest =>
      rw [parseNumber]
      by_cases shown : isDigit c = true
      · rw [if_pos shown, digits_cons shown (Int.le_refl 0)]
        have range := digit_range shown
        have fits : InLong (0 * 10 + digit c) := by
          simp only [InLong, LONG_MAX, LONG_MIN]
          omega
        rw [if_neg (Int.not_lt.mpr fits.2)]
        apply (digits_settles (by omega) fits).mono fun _ => id
        rintro ⟨v, later⟩ ⟨used, rfl, all, value, within⟩
        have whole : ∀ d ∈ c :: used, isDigit d = true := List.forall_mem_cons.mpr ⟨shown, all⟩
        refine ⟨blanks ++ c :: used, later, .number (decimal (c :: used)), ?_, rfl,
          .number skipped (List.cons_ne_nil c used) whole, Nat.succ_pos left, ?_⟩
        · simp
        · refine Expr.meets_number.mpr ⟨?_, within⟩
          rw [← decimalFrom_decimal whole]
          exact value
      · rw [if_neg shown]
        exact isCode _

/-- A factor that is read is one, by induction on the levels that are left. -/
theorem parseFactor_settles (left : Nat) (text : Text)
    : Settles IsCode (Reads .factor left text) (parseFactor left text) := by
  induction left generalizing text with
  | zero => exact isCode _
  | succ left ih =>
      obtain ⟨blanks, skipped, parts⟩ := exists_blanks text
      rw [parseFactor]
      cases shown : skipWs text with
      | nil => exact isCode _
      | cons c rest =>
          rw [shown] at parts
          subst parts
          simp only []
          by_cases opens : c = '('
          · subst opens
            rw [if_pos rfl]
            apply (parseExpr_settles ih rest).bind
            rintro ⟨v, later⟩ ⟨used, after, e, rfl, same, derives, shallow, meets⟩
            obtain ⟨blanks', skipped', parts'⟩ := exists_blanks after
            simp only [] at same ⊢
            rw [← same]
            cases closing : skipWs after with
            | nil => exact isCode _
            | cons close rest =>
                simp only []
                by_cases closes : close = ')'
                · subst closes
                  rw [if_neg (not_not.mpr rfl)]
                  refine ⟨blanks ++ '(' :: (used ++ (blanks' ++ [')'])), rest, .group e, ?_, rfl,
                    .group skipped derives skipped', Nat.succ_lt_succ shallow,
                    Expr.meets_group.mpr meets⟩
                  rw [closing] at parts'
                  rw [parts']
                  simp
                · rw [if_pos closes]
                  exact isCode _
          rw [if_neg opens]
          by_cases sign : c = '-' ∨ c = '+'
          · rw [if_pos sign]
            apply (ih rest).bind
            rintro ⟨v, later⟩ ⟨used, after, e, rfl, same, derives, shallow, meets⟩
            simp only []
            by_cases plus : c = '+'
            · subst plus
              rw [if_pos rfl]
              exact ⟨blanks ++ '+' :: used, after, .plus e, by simp, same,
                .plus skipped derives, Nat.succ_lt_succ shallow, Expr.meets_plus.mpr meets⟩
            · obtain rfl := sign.resolve_right plus
              rw [if_neg plus]
              apply (guarded_settles _).bind
              rintro r ⟨negated, fits⟩
              exact ⟨blanks ++ '-' :: used, after, .minus e, by simp, same,
                .minus skipped derives, Nat.succ_lt_succ shallow,
                Expr.meets_minus.mpr ⟨v, meets, negated, fits⟩⟩
          · rw [if_neg sign]
            exact parseNumber_settles skipped

end Panuti.Calc
