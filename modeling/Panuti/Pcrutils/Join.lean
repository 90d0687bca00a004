import Mathlib.Data.List.DropRight
import Mathlib.Data.List.Nodup
import Panuti.Library.MergeJoin
import Panuti.Pcrutils.Streams

/-! `join`: the lines of two in streams that have a first field in common. The newline of a line
belongs to its field where nothing else ends that.
-/

namespace Panuti.Pcrutils

open Library

-- The utility

def isBlank (c : UInt8) : Bool := c == 32 || c == 9

def isTrimmed (c : UInt8) : Bool := c == NEWLINE || isBlank c

def firstFieldEnd : Bytes → Nat
  | [] => 0
  | c :: s => if c = 0 ∨ isBlank c then 0 else firstFieldEnd s + 1

def fieldRest (s : Bytes) : Bytes :=
  (((cstr s).drop (firstFieldEnd s)).dropWhile isBlank).rdropWhile isTrimmed

/-- `strncmp`. Behind a string there is a zero. -/
def strncmp : Nat → Bytes → Bytes → Int
  | 0, _, _ => 0
  | n + 1, one, two =>
      let c1 := one.headD 0
      let c2 := two.headD 0
      if c1 ≠ c2 then c1.toNat - c2.toNat
      else if c1 = 0 then 0
      else strncmp n one.tail two.tail

def fieldsEqual (la : Bytes) (lla : Nat) (lb : Bytes) (llb : Nat) : Bool :=
  lla = llb && strncmp lla la lb = 0

/-- A part that is set off by a space, if there is something of it. -/
def setOff (part : Bytes) : Bytes := if part = [] then [] else 32 :: part

/-- `emit_join`: what it writes to every out stream. -/
def emitJoin (key ra rb : Bytes) : Bytes := key ++ setOff ra ++ setOff rb ++ [NEWLINE]

/-- How `main` of `join.c` orders two fields that are not the same. -/
def joinOrder (la : Bytes) (ka : Nat) (lb : Bytes) (kb : Nat) : Int :=
  let c := strncmp (if ka < kb then ka else kb) la lb
  if c = 0 then if ka < kb then -1 else 1 else c

/-- The loop of `main`: what it writes for the lines that are left. -/
def joinLoop : (a b : List Bytes) → Bytes
  | [], _ => []
  | _ :: _, [] => []
  | la :: a, lb :: b =>
      let ka := firstFieldEnd la
      let kb := firstFieldEnd lb
      if fieldsEqual la ka lb kb then
        emitJoin (la.take ka) (fieldRest la) (fieldRest lb) ++ joinLoop a b
      else if joinOrder la ka lb kb < 0 then joinLoop a (lb :: b)
      else joinLoop (la :: a) b
termination_by a b => a.length + b.length

/-- What `join` writes to every out stream, from what its reads hand over. -/
def join (in0 in1 : List Bytes) : Bytes := joinLoop (pcrStreamLines in0) (pcrStreamLines in1)

-- What is to be written

/-- The first field of a line: what is before its first space or tab, or its newline. -/
def fieldOf (line : Bytes) : Bytes := (cstr line).takeWhile fun c => !isTrimmed c

/-- The rest of a line behind its first field, without the spaces around it. -/
def restOf (line : Bytes) : Bytes :=
  (((cstr line).drop (fieldOf line).length).dropWhile isTrimmed).rdropWhile isTrimmed

/-- What orders the fields of lines: their bytes, as numbers. -/
def fieldOrder (line : Bytes) : List Nat := (fieldOf line).map UInt8.toNat

/-- Lines with fields that are all different, and sorted. -/
def FieldSorted (lines : List Bytes) : Prop :=
  lines.Pairwise fun one two => fieldOrder one < fieldOrder two

/-- The pairs of lines that have a field in common, in the order of the first lines. -/
def matching (a b : List Bytes) : List (Bytes × Bytes) :=
  a.filterMap fun la => (b.find? fun lb => fieldOf lb = fieldOf la).map fun lb => (la, lb)

def joined (entry : Bytes × Bytes) : Bytes :=
  fieldOf entry.1 ++ setOff (restOf entry.1) ++ setOff (restOf entry.2) ++ [NEWLINE]

/-- A line that a newline ends, with nothing else that ends its field. -/
def Bare (line : Bytes) : Prop :=
  (cstr line).getLast? = some NEWLINE ∧ ∀ c ∈ cstr line, isBlank c = false

-- Keys

/-- What the loop takes for the first field of a line. -/
def keyOf (line : Bytes) : Bytes := (cstr line).takeWhile fun c => !isBlank c

def keyOrder (line : Bytes) : List Nat := (keyOf line).map UInt8.toNat

theorem firstFieldEnd_eq (line : Bytes)
    : firstFieldEnd line = (keyOf line).length ∧ line.take (firstFieldEnd line) = keyOf line := by
  induction line with
  | nil => exact ⟨rfl, rfl⟩
  | cons c line ih =>
      rw [firstFieldEnd]
      by_cases zero : c = 0
      · subst zero
        exact ⟨rfl, rfl⟩
      · have text : cstr (c :: line) = c :: cstr line := cstr_cons zero line
        by_cases blank : isBlank c
        · rw [if_pos (Or.inr blank), keyOf, text, List.takeWhile_cons_of_neg (by simp [blank])]
          exact ⟨rfl, rfl⟩
        · rw [if_neg (by simp [zero, blank]), keyOf, text,
            List.takeWhile_cons_of_pos (by simp [blank])]
          exact ⟨by rw [List.length_cons, ih.1, keyOf], by rw [List.take_succ_cons, ih.2, keyOf]⟩

theorem keyOf_plain (line : Bytes) : 0 ∉ keyOf line :=
  fun member => cstr_plain line ((List.takeWhile_sublist _).subset member)

theorem keyOf_append (line : Bytes) : ∃ rest, line = keyOf line ++ rest :=
  ⟨line.drop (firstFieldEnd line), by rw [← (firstFieldEnd_eq line).2, List.take_append_drop]⟩

variable {one two line : Bytes} {p : UInt8 → Bool} {entry : Bytes × Bytes}
    {lines a b before after : List Bytes}

theorem keyOrder_inj : keyOrder one = keyOrder two ↔ keyOf one = keyOf two :=
  (List.map_injective_iff.mpr fun _ _ same => UInt8.toNat_inj.mp same).eq_iff

theorem fieldOrder_inj : fieldOrder one = fieldOrder two ↔ fieldOf one = fieldOf two :=
  (List.map_injective_iff.mpr fun _ _ same => UInt8.toNat_inj.mp same).eq_iff

theorem strncmp_keys (plain : 0 ∉ one) (plainToo : 0 ∉ two) (more moreToo : Bytes)
    : ((one.length = two.length
            ∧ strncmp (min one.length two.length) (one ++ more) (two ++ moreToo) = 0)
          ↔ one = two)
      ∧ ((strncmp (min one.length two.length) (one ++ more) (two ++ moreToo) < 0
            ∨ strncmp (min one.length two.length) (one ++ more) (two ++ moreToo) = 0
              ∧ one.length < two.length)
          ↔ one.map UInt8.toNat < two.map UInt8.toNat) := by
  induction one generalizing two with
  | nil =>
      rw [List.length_nil, Nat.zero_min, strncmp]
      cases two with
      | nil => simp
      | cons b two => simp
  | cons a one ih =>
      cases two with
      | nil => simp [strncmp]
      | cons b two =>
          have restPlain : 0 ∉ one := fun member => plain (List.mem_cons_of_mem _ member)
          have restPlainToo : 0 ∉ two := fun member => plainToo (List.mem_cons_of_mem _ member)
          rw [List.length_cons, List.length_cons, Nat.succ_min_succ, List.cons_append,
            List.cons_append, strncmp, List.headD_cons, List.headD_cons, List.tail_cons,
            List.tail_cons, List.map_cons, List.map_cons, List.cons_lt_cons_iff]
          by_cases same : a = b
          · subst same
            have notZero : a ≠ 0 := fun zero => plain (zero ▸ List.mem_cons_self)
            obtain ⟨equal, less⟩ := ih restPlain restPlainToo
            rw [if_neg (not_not.mpr rfl), if_neg notZero]
            constructor
            · rw [Nat.add_right_cancel_iff, equal, List.cons_eq_cons]
              exact (and_iff_right rfl).symm
            · rw [Nat.add_lt_add_iff_right, less]
              simp
          · have differ : a.toNat ≠ b.toNat := fun equal => same (UInt8.toNat_inj.mp equal)
            rw [if_pos same]
            constructor
            · refine iff_of_false ?_ fun equal => same (List.cons.inj equal).1
              rintro ⟨-, zero⟩
              omega
            · constructor
              · rintro (less | ⟨zero, -⟩)
                · exact Or.inl (by omega)
                · omega
              · rintro (less | ⟨equal, -⟩)
                · exact Or.inl (by omega)
                · exact absurd equal differ

theorem fieldsEqual_iff (la lb : Bytes)
    : fieldsEqual la (firstFieldEnd la) lb (firstFieldEnd lb) = true
      ↔ keyOrder la = keyOrder lb := by
  obtain ⟨more, isA⟩ := keyOf_append la
  obtain ⟨moreToo, isB⟩ := keyOf_append lb
  have keys := (strncmp_keys (keyOf_plain la) (keyOf_plain lb) more moreToo).1
  rw [← isA, ← isB] at keys
  rw [fieldsEqual, Bool.and_eq_true, decide_eq_true_eq, decide_eq_true_eq,
    (firstFieldEnd_eq la).1, (firstFieldEnd_eq lb).1, keyOrder_inj, ← keys]
  refine and_congr_right fun same => ?_
  rw [← same, Nat.min_self]

theorem joinOrder_neg_iff (la lb : Bytes)
    : joinOrder la (firstFieldEnd la) lb (firstFieldEnd lb) < 0 ↔ keyOrder la < keyOrder lb := by
  obtain ⟨more, isA⟩ := keyOf_append la
  obtain ⟨moreToo, isB⟩ := keyOf_append lb
  obtain ⟨-, less⟩ := strncmp_keys (keyOf_plain la) (keyOf_plain lb) more moreToo
  rw [← isA, ← isB] at less
  have common : (if (keyOf la).length < (keyOf lb).length then (keyOf la).length
      else (keyOf lb).length) = min (keyOf la).length (keyOf lb).length := by
    split <;> omega
  rw [joinOrder, (firstFieldEnd_eq la).1, (firstFieldEnd_eq lb).1, common, keyOrder, keyOrder,
    ← less]
  generalize strncmp (min (keyOf la).length (keyOf lb).length) la lb = c
  by_cases zero : c = 0
  · rw [if_pos zero]
    split
    next shorter => simp [zero, shorter]
    next notShorter => simp [zero, notShorter]
  · rw [if_neg zero]
    simp [zero]

theorem joinLoop_eq (a b : List Bytes)
    : joinLoop a b
      = (mergeJoin keyOrder keyOrder a b).flatMap fun entry =>
          emitJoin (keyOf entry.1) (fieldRest entry.1) (fieldRest entry.2) := by
  fun_induction joinLoop a b with
  | case1 b => rw [mergeJoin]; rfl
  | case2 la a => rw [mergeJoin]; rfl
  | case3 la a lb b ka kb same ih =>
      have keys := (fieldsEqual_iff la lb).mp same
      rw [mergeJoin_same keys, List.flatMap_cons, ih]
      dsimp only
      rw [(firstFieldEnd_eq la).2]
  | case4 la a lb b ka kb differ less ih =>
      rw [mergeJoin_less ((joinOrder_neg_iff la lb).mp less), ih]
  | case5 la a lb b ka kb differ notLess ih =>
      have keys : keyOrder la ≠ keyOrder lb := fun same => differ ((fieldsEqual_iff la lb).mpr same)
      have greater : keyOrder lb < keyOrder la :=
        lt_of_le_of_ne (not_lt.mp fun less => notLess ((joinOrder_neg_iff la lb).mpr less))
          keys.symm
      rw [mergeJoin_greater greater, ih]

-- Fields and rests of a line

theorem sublist_dropLast (part : one.Sublist two) : one.dropLast.Sublist two.dropLast := by
  induction part with
  | slnil => exact List.nil_sublist _
  | @cons one two c part ih =>
      cases two with
      | nil =>
          cases part
          exact List.nil_sublist _
      | cons d two =>
          rw [List.dropLast_cons_cons]
          exact ih.cons c
  | @cons_cons one two c part ih =>
      cases one with
      | nil => exact List.nil_sublist _
      | cons d one =>
          cases two with
          | nil => cases part
          | cons e two =>
              rw [List.dropLast_cons_cons, List.dropLast_cons_cons]
              exact ih.cons_cons c

def Whole (line : Bytes) : Prop := NEWLINE ∉ (cstr line).dropLast

theorem whole_of_mem {reads : List Bytes} (member : line ∈ pcrStreamLines reads) : Whole line := by
  intro inside
  have last := splitLines_dropLast List.not_mem_nil member
  obtain ⟨rest, goes⟩ : ∃ rest, line = cstr line ++ rest :=
    ⟨line.dropWhile (· != 0), (List.takeWhile_append_dropWhile).symm⟩
  have shorter : (cstr line).dropLast.Sublist line.dropLast := by
    conv_rhs => rw [goes]
    exact sublist_dropLast (List.sublist_append_left (cstr line) rest)
  exact last (shorter.subset inside)

theorem isTrimmed_newline : isTrimmed NEWLINE = true := rfl

theorem isTrimmed_of_ne {c : UInt8} (other : c ≠ NEWLINE) : isTrimmed c = isBlank c := by
  rw [isTrimmed, beq_eq_false_iff_ne.mpr other, Bool.false_or]

theorem Whole.text (whole : Whole line)
    : NEWLINE ∉ cstr line ∨ ∃ text, cstr line = text ++ [NEWLINE] ∧ NEWLINE ∉ text := by
  by_cases ended : (cstr line).getLast? = some NEWLINE
  · exact Or.inr (line_ended ended whole)
  · exact Or.inl (line_open ended whole)

theorem takeWhile_blank {text : Bytes} (inside : NEWLINE ∉ text)
    : text.takeWhile (fun c => !isBlank c) = text.takeWhile (fun c => !isTrimmed c) := by
  induction text with
  | nil => rfl
  | cons c text ih =>
      have other : c ≠ NEWLINE := fun same => inside (same ▸ List.mem_cons_self)
      rw [List.takeWhile_cons, List.takeWhile_cons, isTrimmed_of_ne other,
        ih fun member => inside (List.mem_cons_of_mem _ member)]

theorem takeWhile_stopped {text : Bytes} (stops : ∃ c ∈ text, p c = false) (rest : Bytes)
    : (text ++ rest).takeWhile p = text.takeWhile p := by
  rw [List.takeWhile_append, if_neg]
  intro long
  obtain ⟨c, member, stop⟩ := stops
  have all := (List.takeWhile_prefix p).eq_of_length long
  rw [← all] at member
  exact Bool.false_ne_true (stop.symm.trans (List.mem_takeWhile_imp member))

theorem takeWhile_stops {text rest : Bytes} (all : ∀ c ∈ text, p c = true)
    (stops : ∀ c ∈ rest.head?, p c = false)
    : (text ++ rest).takeWhile p = text := by
  rw [List.takeWhile_append_of_pos all]
  cases rest with
  | nil => rw [List.takeWhile_nil, List.append_nil]
  | cons c rest =>
      rw [List.takeWhile_cons_of_neg (by rw [stops c rfl]; exact Bool.false_ne_true),
        List.append_nil]

theorem Bare.text (bare : Bare line) (whole : Whole line)
    : cstr line = fieldOf line ++ [NEWLINE] ∧ keyOf line = cstr line := by
  obtain ⟨ended, plain⟩ := bare
  obtain ⟨text, goes, inside⟩ := line_ended ended whole
  constructor
  · have field : fieldOf line = text := by
      rw [fieldOf, goes]
      refine takeWhile_stops (fun c member => ?_) ?_
      · have other : c ≠ NEWLINE := fun same => inside (same ▸ member)
        rw [isTrimmed_of_ne other, plain c (goes ▸ List.mem_append_left _ member)]
        rfl
      · rintro c ⟨⟩
        rfl
    rw [field, goes]
  · refine List.takeWhile_eq_self_iff.mpr fun c member => ?_
    rw [plain c member]
    rfl

theorem Whole.key_eq (whole : Whole line) (notBare : ¬ Bare line) : keyOf line = fieldOf line := by
  rcases whole.text with inside | ⟨text, goes, inside⟩
  · exact takeWhile_blank inside
  · have stops : ∃ c ∈ text, isBlank c = true := by
      by_contra none'
      refine notBare ⟨by rw [goes, List.getLast?_concat], fun c member => ?_⟩
      rw [goes] at member
      rcases List.mem_append.mp member with member | last
      · exact Bool.eq_false_iff.mpr fun blank => none' ⟨c, member, blank⟩
      · rw [List.mem_singleton.mp last]
        rfl
    obtain ⟨c, member, blank⟩ := stops
    have space : isTrimmed c = true := by rw [isTrimmed, blank, Bool.or_true]
    rw [keyOf, fieldOf, goes, takeWhile_stopped ⟨c, member, by rw [blank]; rfl⟩,
      takeWhile_stopped ⟨c, member, by rw [space]; rfl⟩, takeWhile_blank inside]

theorem Bare.key_eq (bare : Bare line) (whole : Whole line)
    : keyOf line = fieldOf line ++ [NEWLINE] := by
  obtain ⟨text, key⟩ := bare.text whole
  rw [key, text]

theorem newline_not_mem_fieldOf (line : Bytes) : NEWLINE ∉ fieldOf line := by
  intro member
  have plain := List.mem_takeWhile_imp member
  rw [isTrimmed_newline] at plain
  cases plain

theorem field_of_key (whole : Whole one) (wholeToo : Whole two) (same : keyOf one = keyOf two)
    : fieldOf one = fieldOf two ∧ (Bare one ↔ Bare two) := by
  by_cases bare : Bare one
  · by_cases bareToo : Bare two
    · rw [bare.key_eq whole, bareToo.key_eq wholeToo] at same
      exact ⟨List.append_cancel_right same, iff_of_true bare bareToo⟩
    · rw [bare.key_eq whole, wholeToo.key_eq bareToo] at same
      refine absurd ?_ (newline_not_mem_fieldOf two)
      rw [← same]
      exact List.mem_append_right _ List.mem_cons_self
  · by_cases bareToo : Bare two
    · rw [whole.key_eq bare, bareToo.key_eq wholeToo] at same
      refine absurd ?_ (newline_not_mem_fieldOf one)
      rw [same]
      exact List.mem_append_right _ List.mem_cons_self
    · rw [whole.key_eq bare, wholeToo.key_eq bareToo] at same
      exact ⟨same, iff_of_false bare bareToo⟩

theorem trim_eq {text : Bytes} (inside : NEWLINE ∉ text.dropLast)
    : (text.dropWhile isBlank).rdropWhile isTrimmed
      = (text.dropWhile isTrimmed).rdropWhile isTrimmed := by
  induction text with
  | nil => rfl
  | cons c text ih =>
      by_cases newline : c = NEWLINE
      · subst newline
        cases text with
        | nil => rfl
        | cons d text =>
            rw [List.dropLast_cons_cons] at inside
            exact absurd List.mem_cons_self inside
      · rw [List.dropWhile_cons, List.dropWhile_cons, isTrimmed_of_ne newline]
        split
        next =>
          refine ih fun member => inside ?_
          cases text with
          | nil => cases member
          | cons d text =>
              rw [List.dropLast_cons_cons]
              exact List.mem_cons_of_mem _ member
        next => rfl

theorem dropLast_drop {text : Bytes} (inside : NEWLINE ∉ text.dropLast) (count : Nat)
    : NEWLINE ∉ (text.drop count).dropLast :=
  fun member => inside ((sublist_dropLast (List.drop_sublist count text)).subset member)

theorem Whole.rest_eq (whole : Whole line) : fieldRest line = restOf line := by
  rw [fieldRest, restOf, (firstFieldEnd_eq line).1]
  by_cases bare : Bare line
  · obtain ⟨text, key⟩ := bare.text whole
    rw [key, List.drop_length]
    conv_rhs => rw [text, List.drop_left]
    rfl
  · rw [whole.key_eq bare, trim_eq (dropLast_drop whole _)]

theorem Bare.rest_eq (bare : Bare line) (whole : Whole line) : restOf line = [] := by
  obtain ⟨text, -⟩ := bare.text whole
  rw [restOf, text, List.drop_left]
  rfl

theorem Whole.newline_not_mem_restOf (whole : Whole line) : NEWLINE ∉ restOf line := by
  rw [restOf]
  have inside : NEWLINE ∉ (((cstr line).drop (fieldOf line).length).dropWhile isTrimmed).dropLast :=
    fun member =>
      dropLast_drop whole _ ((sublist_dropLast (List.dropWhile_sublist _)).subset member)
  revert inside
  generalize ((cstr line).drop (fieldOf line).length).dropWhile isTrimmed = text
  intro inside member
  obtain rfl | ⟨init, last, rfl⟩ := List.eq_nil_or_concat' text
  · cases member
  · rw [List.dropLast_concat] at inside
    rw [List.rdropWhile_concat] at member
    split at member
    next => exact inside ((List.rdropWhile_prefix isTrimmed _).subset member)
    next solid =>
      rcases List.mem_append.mp member with before | here
      · exact inside before
      · rw [← List.mem_singleton.mp here] at solid
        exact solid isTrimmed_newline

-- What is written for a pair

theorem emitJoin_eq (whole : Whole entry.1) (wholeToo : Whole entry.2)
    (same : keyOf entry.1 = keyOf entry.2)
    : (¬ Bare entry.1
        → emitJoin (keyOf entry.1) (fieldRest entry.1) (fieldRest entry.2) = joined entry)
      ∧ (Bare entry.1
        → emitJoin (keyOf entry.1) (fieldRest entry.1) (fieldRest entry.2)
          = joined entry ++ [NEWLINE]) := by
  rw [emitJoin, joined, whole.rest_eq, wholeToo.rest_eq]
  constructor
  · intro notBare
    rw [whole.key_eq notBare]
  · intro bare
    have bareToo := (field_of_key whole wholeToo same).2.mp bare
    rw [bare.key_eq whole, bare.rest_eq whole, bareToo.rest_eq wholeToo]
    simp [setOff]

theorem joined_ended (whole : Whole entry.1) (wholeToo : Whole entry.2) : Ended (joined entry) := by
  have part {rest : Bytes} (inside : NEWLINE ∉ rest) : NEWLINE ∉ setOff rest := by
    rw [setOff]
    split
    · exact List.not_mem_nil
    · intro member
      rcases List.mem_cons.mp member with space | member
      · cases space
      · exact inside member
  refine ⟨fieldOf entry.1 ++ setOff (restOf entry.1) ++ setOff (restOf entry.2), rfl, ?_⟩
  intro member
  rcases List.mem_append.mp member with member | member
  · rcases List.mem_append.mp member with member | member
    · exact newline_not_mem_fieldOf _ member
    · exact part whole.newline_not_mem_restOf member
  · exact part wholeToo.newline_not_mem_restOf member

/-- The field of what is to be written is that of the pair. -/
theorem fieldOf_joined (entry : Bytes × Bytes) : fieldOf (joined entry) = fieldOf entry.1 := by
  have fieldPlain (line : Bytes) : 0 ∉ fieldOf line :=
    fun member => cstr_plain line ((List.takeWhile_sublist _).subset member)
  have restPlain (line : Bytes) : 0 ∉ setOff (restOf line) := by
    have rest : (restOf line).Sublist (cstr line) :=
      ((List.rdropWhile_prefix _ _).sublist.trans (List.dropWhile_sublist _)).trans
        (List.drop_sublist _ _)
    rw [setOff]
    split
    · exact List.not_mem_nil
    · intro member
      rcases List.mem_cons.mp member with space | member
      · cases space
      · exact cstr_plain line (rest.subset member)
  have plain : 0 ∉ joined entry := by
    rw [joined]
    intro member
    rcases List.mem_append.mp member with member | last
    · rcases List.mem_append.mp member with member | member
      · rcases List.mem_append.mp member with member | member
        · exact fieldPlain _ member
        · exact restPlain _ member
      · exact restPlain _ member
    · cases List.mem_singleton.mp last
  rw [fieldOf, cstr_eq_self plain, joined, List.append_assoc, List.append_assoc]
  refine takeWhile_stops
    (fun c member => List.mem_takeWhile_imp (p := fun c => !isTrimmed c) member) ?_
  intro c first
  rw [setOff, setOff] at first
  split at first
  · split at first
    · cases first
      rfl
    · cases first
      rfl
  · cases first
    rfl

-- Pairs of sorted lines

theorem FieldSorted.inj (sorted : FieldSorted lines) (memberOne : one ∈ lines)
    (memberTwo : two ∈ lines) (same : fieldOf one = fieldOf two)
    : one = two := by
  have nodup : (lines.map fieldOrder).Nodup :=
    List.pairwise_map.mpr (sorted.imp fun less => less.ne)
  exact List.inj_on_of_nodup_map nodup memberOne memberTwo (fieldOrder_inj.mpr same)

theorem mem_matching (sorted : FieldSorted b) (entry : Bytes × Bytes)
    : entry ∈ matching a b
      ↔ entry.1 ∈ a ∧ entry.2 ∈ b ∧ fieldOf entry.1 = fieldOf entry.2 := by
  rw [matching, List.mem_filterMap]
  constructor
  · rintro ⟨la, member, found⟩
    obtain ⟨lb, first, rfl⟩ := Option.map_eq_some_iff.mp found
    have same : fieldOf lb = fieldOf la := by simpa using List.find?_some first
    exact ⟨member, List.mem_of_find?_eq_some first, same.symm⟩
  · obtain ⟨la, lb⟩ := entry
    rintro ⟨member, memberToo, same⟩
    refine ⟨la, member, Option.map_eq_some_iff.mpr ⟨lb, ?_, rfl⟩⟩
    cases first : b.find? fun other => decide (fieldOf other = fieldOf la) with
    | none =>
        have none' := List.find?_eq_none.mp first lb memberToo
        exact absurd (decide_eq_true same.symm) none'
    | some other =>
        have equal : fieldOf other = fieldOf la := by simpa using List.find?_some first
        rw [sorted.inj (List.mem_of_find?_eq_some first) memberToo (equal.trans same)]

theorem matching_sublist (a b : List Bytes) : ((matching a b).map Prod.fst).Sublist a := by
  induction a with
  | nil => exact List.nil_sublist _
  | cons la a ih =>
      rw [matching, List.filterMap_cons]
      cases b.find? fun lb => decide (fieldOf lb = fieldOf la) with
      | none => exact ih.cons la
      | some lb => exact ih.cons_cons la

theorem FieldSorted.pairs (sorted : FieldSorted lines) {pairs : List (Bytes × Bytes)}
    (part : (pairs.map Prod.fst).Sublist lines)
    : pairs.Pairwise fun one two => fieldOrder one.1 < fieldOrder two.1 := by
  have along : (pairs.map Prod.fst).Pairwise fun one two => fieldOrder one < fieldOrder two :=
    List.Pairwise.sublist part sorted
  rwa [List.pairwise_map] at along

theorem FieldSorted.around (sorted : FieldSorted (before ++ line :: after))
    : (∀ u ∈ before, fieldOrder u < fieldOrder line)
      ∧ (∀ u ∈ after, fieldOrder line < fieldOrder u)
      ∧ line ∉ before ++ after := by
  obtain ⟨-, rest, across⟩ := List.pairwise_append.mp sorted
  have earlier (u : Bytes) (member : u ∈ before) : fieldOrder u < fieldOrder line :=
    across u member line List.mem_cons_self
  have later (u : Bytes) (member : u ∈ after) : fieldOrder line < fieldOrder u :=
    (List.pairwise_cons.mp rest).1 u member
  refine ⟨earlier, later, fun member => ?_⟩
  rcases List.mem_append.mp member with member | member
  · exact lt_irrefl _ (earlier line member)
  · exact lt_irrefl _ (later line member)

theorem FieldSorted.mem_before {other : Bytes} (sorted : FieldSorted (before ++ line :: after))
    (member : other ∈ before ++ line :: after) (less : fieldOrder other < fieldOrder line)
    : other ∈ before := by
  obtain ⟨-, later, -⟩ := sorted.around
  rcases List.mem_append.mp member with member | member
  · exact member
  · rcases List.mem_cons.mp member with rfl | member
    · exact absurd less (lt_irrefl _)
    · exact absurd less (later other member).not_gt

theorem pairs_ext {pairs other : List (Bytes × Bytes)}
    (ordered : pairs.Pairwise fun one two => fieldOrder one.1 < fieldOrder two.1)
    (orderedToo : other.Pairwise fun one two => fieldOrder one.1 < fieldOrder two.1)
    (same : ∀ entry, entry ∈ pairs ↔ entry ∈ other)
    : pairs = other := by
  have nodup {entries : List (Bytes × Bytes)}
      (sorted : entries.Pairwise fun one two => fieldOrder one.1 < fieldOrder two.1)
      : entries.Nodup :=
    sorted.imp fun less equal => less.ne (by rw [equal])
  have perm := (List.perm_ext_iff_of_nodup (nodup ordered) (nodup orderedToo)).mpr same
  exact perm.eq_of_pairwise (fun one two _ _ less greater => absurd greater less.not_gt) ordered
    orderedToo

-- Newlines in keys

theorem concat_lt {field key : Bytes} (inside : NEWLINE ∉ key)
    (less : field.map UInt8.toNat < key.map UInt8.toNat)
    : (field ++ [NEWLINE]).map UInt8.toNat < key.map UInt8.toNat
      ∨ ∃ c rest, key = field ++ c :: rest ∧ c < NEWLINE := by
  induction field generalizing key with
  | nil =>
      cases key with
      | nil => exact absurd less (lt_irrefl _)
      | cons c rest =>
          have other : c ≠ NEWLINE := fun same => inside (same ▸ List.mem_cons_self)
          rcases UInt8.lt_or_lt_of_ne other with below | above
          · exact Or.inr ⟨c, rest, rfl, below⟩
          · exact Or.inl (List.cons_lt_cons_iff.mpr (Or.inl (UInt8.lt_iff_toNat_lt.mp above)))
  | cons d field ih =>
      cases key with
      | nil => exact absurd less (List.not_lt_nil _)
      | cons c key =>
          rcases List.cons_lt_cons_iff.mp less with below | ⟨same, rest⟩
          · exact Or.inl (List.cons_lt_cons_iff.mpr (Or.inl below))
          · obtain rfl := UInt8.toNat_inj.mp same
            rcases ih (fun member => inside (List.mem_cons_of_mem _ member)) rest with
              less | ⟨e, more, goes, below⟩
            · exact Or.inl (List.cons_lt_cons_iff.mpr (Or.inr ⟨rfl, less⟩))
            · exact Or.inr ⟨e, more, by rw [goes, List.cons_append], below⟩

theorem lt_concat (field rest : Bytes) {c : UInt8} (below : c < NEWLINE)
    : (field ++ c :: rest).map UInt8.toNat < (field ++ [NEWLINE]).map UInt8.toNat := by
  induction field with
  | nil => exact List.cons_lt_cons_iff.mpr (Or.inl (UInt8.lt_iff_toNat_lt.mp below))
  | cons d field ih => exact List.cons_lt_cons_iff.mpr (Or.inr ⟨rfl, ih⟩)

theorem lt_append (field rest : Bytes) (c : UInt8)
    : field.map UInt8.toNat < (field ++ c :: rest).map UInt8.toNat := by
  induction field with
  | nil => exact List.nil_lt_cons _ _
  | cons d field ih => exact List.cons_lt_cons_iff.mpr (Or.inr ⟨rfl, ih⟩)

-- The pairs that are found

/-- The newline of a line keeps it from a field, or is compared with what that goes on with. -/
def InTheWay (line field : Bytes) : Prop :=
  Bare line
    ∧ (field = fieldOf line ∨ ∃ c rest, field = fieldOf line ++ c :: rest ∧ c < NEWLINE)

/-- No line of two inputs is in the way of a field that they have in common. -/
def Clear (a b : List Bytes) : Prop :=
  ∀ la ∈ a, ∀ lb ∈ b, fieldOf la = fieldOf lb
    → ∀ line, line ∈ a ∨ line ∈ b → ¬ InTheWay line (fieldOf la)

theorem keyOrder_lt {field : Bytes} (whole : Whole line) (inside : NEWLINE ∉ field)
    (less : fieldOrder line < field.map UInt8.toNat) (clear : ¬ InTheWay line field)
    : keyOrder line < field.map UInt8.toNat := by
  by_cases bare : Bare line
  · rw [keyOrder, bare.key_eq whole]
    rcases concat_lt inside less with less | goes
    · exact less
    · exact absurd ⟨bare, Or.inr goes⟩ clear
  · rw [keyOrder, whole.key_eq bare]
    exact less

theorem Clear.found (clear : Clear a b) (wholeA : ∀ line ∈ a, Whole line)
    (wholeB : ∀ line ∈ b, Whole line) (sortedA : FieldSorted a) (sortedB : FieldSorted b)
    {la lb : Bytes} (memberA : la ∈ a) (memberB : lb ∈ b) (same : fieldOf la = fieldOf lb)
    : (la, lb) ∈ mergeJoin keyOrder keyOrder a b := by
  have free (line : Bytes) (member : line ∈ a ∨ line ∈ b) : ¬ InTheWay line (fieldOf la) :=
    clear la memberA lb memberB same line member
  have keyA : keyOrder la = fieldOrder la := by
    rw [keyOrder, (wholeA la memberA).key_eq fun bare =>
      free la (Or.inl memberA) ⟨bare, Or.inl rfl⟩, fieldOrder]
  have keyB : keyOrder lb = fieldOrder la := by
    rw [keyOrder, (wholeB lb memberB).key_eq fun bare =>
      free lb (Or.inr memberB) ⟨bare, Or.inl same⟩, fieldOrder, same]
  obtain ⟨before, after, rfl⟩ := List.append_of_mem memberA
  obtain ⟨beforeToo, afterToo, rfl⟩ := List.append_of_mem memberB
  refine mem_mergeJoin_of_below (keyA.trans keyB.symm) (fun u among => ?_) (fun v among => ?_)
  · have member : u ∈ before ++ la :: after := List.mem_append_left _ among
    rw [keyA]
    exact keyOrder_lt (wholeA u member) (newline_not_mem_fieldOf la)
      ((List.pairwise_append.mp sortedA).2.2 u among la List.mem_cons_self) (free u (Or.inl member))
  · have member : v ∈ beforeToo ++ lb :: afterToo := List.mem_append_left _ among
    have less := (List.pairwise_append.mp sortedB).2.2 v among lb List.mem_cons_self
    rw [fieldOrder_inj.mpr same.symm] at less
    rw [keyA]
    exact keyOrder_lt (wholeB v member) (newline_not_mem_fieldOf la) less (free v (Or.inr member))

theorem lost_of_inTheWay (wholeA : ∀ line ∈ a, Whole line) (wholeB : ∀ line ∈ b, Whole line)
    (sortedA : FieldSorted a) (sortedB : FieldSorted b)
    (plain : ∀ u ∈ a, ∀ v ∈ b, fieldOf u = fieldOf v → ¬ Bare u ∧ ¬ Bare v) {la lb : Bytes}
    (memberA : la ∈ a) (memberB : lb ∈ b) (same : fieldOf la = fieldOf lb)
    (member : line ∈ a ∨ line ∈ b) (way : InTheWay line (fieldOf la))
    : (la, lb) ∉ mergeJoin keyOrder keyOrder a b := by
  obtain ⟨bare, here | ⟨c, rest, goes, below⟩⟩ := way
  · -- the line has the field itself, so it is one of the pair
    rcases member with member | member
    · have isLa : la = line := sortedA.inj memberA member here
      exact absurd (isLa ▸ bare) (plain la memberA lb memberB same).1
    · have isLb : lb = line := sortedB.inj memberB member (same.symm.trans here)
      exact absurd (isLb ▸ bare) (plain la memberA lb memberB same).2
  · obtain ⟨plainA, plainB⟩ := plain la memberA lb memberB same
    have keyA : keyOrder la = fieldOrder la := by
      rw [keyOrder, (wholeA la memberA).key_eq plainA, fieldOrder]
    have keyB : keyOrder lb = keyOrder la := by
      rw [keyA, keyOrder, (wholeB lb memberB).key_eq plainB, ← same, fieldOrder]
    have less : fieldOrder line < fieldOrder la := by
      rw [fieldOrder, fieldOrder, goes]
      exact lt_append _ rest c
    have above (whole : Whole line) : keyOrder la < keyOrder line := by
      rw [keyA, fieldOrder, goes, keyOrder, bare.key_eq whole]
      exact lt_concat _ rest below
    obtain ⟨before, after, rfl⟩ := List.append_of_mem memberA
    obtain ⟨beforeToo, afterToo, rfl⟩ := List.append_of_mem memberB
    obtain ⟨earlierA, -, onceA⟩ := sortedA.around
    obtain ⟨earlierB, -, onceB⟩ := sortedB.around
    have inA (u : Bytes) (among : u ∈ before) : u ∈ before ++ la :: after :=
      List.mem_append_left _ among
    have inB (v : Bytes) (among : v ∈ beforeToo) : v ∈ beforeToo ++ lb :: afterToo :=
      List.mem_append_left _ among
    refine not_mem_mergeJoin_of_above keyB.symm onceA onceB (fun u among equal => ?_)
      (fun v among equal => ?_) (fun u among v amongToo equal => ?_) ?_
    · have fields := (field_of_key (wholeA u (inA u among)) (wholeA la memberA)
        (keyOrder_inj.mp equal)).1
      exact (earlierA u among).ne (fieldOrder_inj.mpr fields)
    · have fields := (field_of_key (wholeB v (inB v among)) (wholeB lb memberB)
        (keyOrder_inj.mp (equal.trans keyB.symm))).1
      exact (earlierB v among).ne (fieldOrder_inj.mpr fields)
    · have fields := (field_of_key (wholeA u (inA u among)) (wholeB v (inB v amongToo))
        (keyOrder_inj.mp equal)).1
      have plainU := (plain u (inA u among) v (inB v amongToo) fields).1
      rw [keyA, keyOrder, (wholeA u (inA u among)).key_eq plainU]
      exact earlierA u among
    · rcases member with member | member
      · exact Or.inl ⟨line, sortedA.mem_before member less, above (wholeA line member)⟩
      · rw [fieldOrder_inj.mpr same] at less
        exact Or.inr ⟨line, sortedB.mem_before member less, above (wholeB line member)⟩

instance (line : Bytes) : Decidable (Bare line) :=
  inferInstanceAs
    (Decidable ((cstr line).getLast? = some NEWLINE ∧ ∀ c ∈ cstr line, isBlank c = false))

def emitted (entry : Bytes × Bytes) : List Bytes :=
  joined entry :: if Bare entry.1 then [[NEWLINE]] else []

theorem found_of_written (wholeA : ∀ line ∈ a, Whole line) (wholeB : ∀ line ∈ b, Whole line)
    (sortedA : FieldSorted a) (sortedB : FieldSorted b)
    (same : ((mergeJoin keyOrder keyOrder a b).flatMap fun entry =>
        emitJoin (keyOf entry.1) (fieldRest entry.1) (fieldRest entry.2))
      = (matching a b).flatMap joined)
    : (∀ entry ∈ mergeJoin keyOrder keyOrder a b, ¬ Bare entry.1)
      ∧ ∀ la ∈ a, ∀ lb ∈ b, fieldOf la = fieldOf lb
        → (la, lb) ∈ mergeJoin keyOrder keyOrder a b := by
  have matched := mem_matching sortedB (a := a)
  have ended (entry : Bytes × Bytes) (memberA : entry.1 ∈ a) (memberB : entry.2 ∈ b)
      : Ended (joined entry) :=
    joined_ended (wholeA _ memberA) (wholeB _ memberB)
  have lines (rows : List Bytes) (all : ∀ row ∈ rows, Ended row)
      : splitLines [] rows.flatten = rows := by
    have split := splitLines_rows all []
    rwa [List.append_nil, splitLines, if_pos rfl, List.append_nil] at split
  have key (entry : Bytes × Bytes) (member : entry ∈ mergeJoin keyOrder keyOrder a b)
      : keyOf entry.1 = keyOf entry.2 :=
    keyOrder_inj.mp (mergeJoin_key member)
  -- both sides are rows of lines, which are the same rows
  have rows : (mergeJoin keyOrder keyOrder a b).flatMap emitted = (matching a b).map joined := by
    have left : ((mergeJoin keyOrder keyOrder a b).flatMap emitted).flatten
        = (mergeJoin keyOrder keyOrder a b).flatMap fun entry =>
            emitJoin (keyOf entry.1) (fieldRest entry.1) (fieldRest entry.2) := by
      rw [List.flatMap_def, List.flatten_flatten, List.map_map, List.flatMap_def]
      refine congrArg List.flatten (List.map_congr_left fun entry member => ?_)
      obtain ⟨memberA, memberB⟩ := mergeJoin_mem member
      obtain ⟨plain, doubled⟩ :=
        emitJoin_eq (wholeA _ memberA) (wholeB _ memberB) (key entry member)
      rw [Function.comp_apply, emitted]
      split
      next bare => rw [doubled bare, List.flatten_cons, List.flatten_singleton]
      next notBare => rw [plain notBare, List.flatten_singleton]
    have right : (matching a b).flatMap joined = ((matching a b).map joined).flatten :=
      List.flatMap_def
    rw [← left, right] at same
    have again := congrArg (splitLines []) same
    rw [lines _ ?_, lines _ ?_] at again
    · exact again
    · intro row member
      obtain ⟨entry, among, rfl⟩ := List.mem_map.mp member
      obtain ⟨memberA, memberB, -⟩ := (matched entry).mp among
      exact ended entry memberA memberB
    · intro row member
      obtain ⟨entry, among, inside⟩ := List.mem_flatMap.mp member
      obtain ⟨memberA, memberB⟩ := mergeJoin_mem among
      rw [emitted] at inside
      rcases List.mem_cons.mp inside with rfl | inside
      · exact ended entry memberA memberB
      · split at inside
        · rw [List.mem_singleton.mp inside]
          exact ⟨[], rfl, List.not_mem_nil⟩
        · cases inside
  have sorted : FieldSorted ((matching a b).map joined) := by
    rw [FieldSorted, List.pairwise_map]
    refine (sortedA.pairs (matching_sublist a b)).imp fun {one two} less => ?_
    rw [fieldOrder, fieldOf_joined, fieldOrder, fieldOf_joined]
    exact less
  have plain (entry : Bytes × Bytes) (member : entry ∈ mergeJoin keyOrder keyOrder a b)
      : ¬ Bare entry.1 := by
    intro bare
    obtain ⟨front, back, goes⟩ := List.append_of_mem member
    have part : List.Sublist [joined entry, [NEWLINE]] ((matching a b).map joined) := by
      have here : emitted entry = [joined entry, [NEWLINE]] := by rw [emitted, if_pos bare]
      rw [← rows, goes, List.flatMap_append, List.flatMap_cons, here]
      exact (List.sublist_append_left _ _).trans (List.sublist_append_right _ _)
    have less := List.Pairwise.sublist part sorted
    rw [List.pairwise_pair] at less
    exact absurd less (List.not_lt_nil _)
  refine ⟨plain, ?_⟩
  have all : (mergeJoin keyOrder keyOrder a b).map joined = (matching a b).map joined := by
    rw [← rows, List.map_eq_flatMap]
    rw [List.flatMap_def, List.flatMap_def]
    refine congrArg List.flatten (List.map_congr_left fun entry member => ?_)
    rw [emitted, if_neg (plain entry member)]
  intro la memberA lb memberB fields
  have there : joined (la, lb) ∈ (mergeJoin keyOrder keyOrder a b).map joined := by
    rw [all]
    exact List.mem_map_of_mem ((matched (la, lb)).mpr ⟨memberA, memberB, fields⟩)
  obtain ⟨entry, member, equal⟩ := List.mem_map.mp there
  obtain ⟨inA, inB⟩ := mergeJoin_mem member
  have first : fieldOf entry.1 = fieldOf la := by
    rw [← fieldOf_joined, equal, fieldOf_joined]
  have second : fieldOf entry.2 = fieldOf lb := by
    rw [← (field_of_key (wholeA _ inA) (wholeB _ inB) (key entry member)).1, first, fields]
  have isA := sortedA.inj inA memberA first
  have isB := sortedB.inj inB memberB second
  rw [← isA, ← isB]
  exact member

/-- Two inputs with sorted fields are joined as they are to be just when no line that a newline ends
is in the way of a field that they have in common.
-/
theorem join_matches_iff {in0 in1 : List Bytes} (sortedA : FieldSorted (pcrStreamLines in0))
    (sortedB : FieldSorted (pcrStreamLines in1))
    : join in0 in1 = (matching (pcrStreamLines in0) (pcrStreamLines in1)).flatMap joined
      ↔ Clear (pcrStreamLines in0) (pcrStreamLines in1) := by
  have wholeA (line : Bytes) (member : line ∈ pcrStreamLines in0) : Whole line :=
    whole_of_mem member
  have wholeB (line : Bytes) (member : line ∈ pcrStreamLines in1) : Whole line :=
    whole_of_mem member
  rw [join, joinLoop_eq]
  generalize pcrStreamLines in0 = a at *
  generalize pcrStreamLines in1 = b at *
  constructor
  · intro same
    obtain ⟨plain, found⟩ := found_of_written wholeA wholeB sortedA sortedB same
    intro la memberA lb memberB fields line member way
    refine lost_of_inTheWay wholeA wholeB sortedA sortedB ?_ memberA memberB fields member way
      (found la memberA lb memberB fields)
    intro u memberU v memberV fieldsToo
    have pair := found u memberU v memberV fieldsToo
    have bares := (field_of_key (wholeA u memberU) (wholeB v memberV)
      (keyOrder_inj.mp (mergeJoin_key pair))).2
    exact ⟨plain (u, v) pair, fun bare => plain (u, v) pair (bares.mpr bare)⟩
  · intro clear
    have pairs : mergeJoin keyOrder keyOrder a b = matching a b := by
      refine pairs_ext (sortedA.pairs (mergeJoin_sublist a b).1)
        (sortedA.pairs (matching_sublist a b)) fun entry => ?_
      rw [mem_matching sortedB]
      constructor
      · intro member
        obtain ⟨memberA, memberB⟩ := mergeJoin_mem member
        exact ⟨memberA, memberB, (field_of_key (wholeA _ memberA) (wholeB _ memberB)
          (keyOrder_inj.mp (mergeJoin_key member))).1⟩
      · rintro ⟨memberA, memberB, fields⟩
        exact clear.found wholeA wholeB sortedA sortedB memberA memberB fields
    rw [pairs, List.flatMap_def, List.flatMap_def]
    refine congrArg List.flatten (List.map_congr_left fun entry member => ?_)
    obtain ⟨memberA, memberB, fields⟩ := (mem_matching sortedB entry).mp member
    rw [← pairs] at member
    exact (emitJoin_eq (wholeA _ memberA) (wholeB _ memberB)
      (keyOrder_inj.mp (mergeJoin_key member))).1 fun bare =>
        clear _ memberA _ memberB fields _ (Or.inl memberA) ⟨bare, Or.inl rfl⟩

theorem fieldSorted_single (line : Bytes) : FieldSorted [line] := List.pairwise_singleton _ line

/-- The lines `k 1` and `k 2` are joined. -/
example : join [[107, 32, 49, 10]] [[107, 32, 50, 10]] = [107, 32, 49, 32, 50, 10] := by
  decide +kernel

theorem join_matches_small
    : FieldSorted (pcrStreamLines [[107, 32, 49, 10]])
      ∧ FieldSorted (pcrStreamLines [[107, 32, 50, 10]])
      ∧ (join [[107, 32, 49, 10]] [[107, 32, 50, 10]]
            = (matching (pcrStreamLines [[107, 32, 49, 10]])
                (pcrStreamLines [[107, 32, 50, 10]])).flatMap joined
          ↔ Clear (pcrStreamLines [[107, 32, 49, 10]]) (pcrStreamLines [[107, 32, 50, 10]])) :=
  have sortedA : FieldSorted (pcrStreamLines [[107, 32, 49, 10]]) := fieldSorted_single _
  have sortedB : FieldSorted (pcrStreamLines [[107, 32, 50, 10]]) := fieldSorted_single _
  ⟨sortedA, sortedB, join_matches_iff sortedA sortedB⟩

/-- The line `k` of one input is not joined with `k x` of the other. -/
theorem join_loses_bare
    : join [[107, 10]] [[107, 32, 120, 10]] = []
      ∧ (matching (pcrStreamLines [[107, 10]]) (pcrStreamLines [[107, 32, 120, 10]])).flatMap joined
        = [107, 32, 120, 10]
      ∧ ¬ ∀ in0 in1 : List Bytes,
          FieldSorted (pcrStreamLines in0) → FieldSorted (pcrStreamLines in1)
          → join in0 in1
            = (matching (pcrStreamLines in0) (pcrStreamLines in1)).flatMap joined := by
  have written : join [[107, 10]] [[107, 32, 120, 10]] = [] := by decide +kernel
  have meant : (matching (pcrStreamLines [[107, 10]])
      (pcrStreamLines [[107, 32, 120, 10]])).flatMap joined = [107, 32, 120, 10] := by
    decide +kernel
  refine ⟨written, meant, fun all => ?_⟩
  have same := all [[107, 10]] [[107, 32, 120, 10]] (fieldSorted_single _) (fieldSorted_single _)
  rw [written, meant] at same
  cases same

end Panuti.Pcrutils
