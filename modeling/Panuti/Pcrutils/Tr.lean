import Mathlib.Algebra.Ring.Nat
import Panuti.Pcrutils.Text

/-! `tr`: the expansion of a set. The upper end of a range is read where the dash is, and what a set
may hold is not always checked.
-/

namespace Panuti.Pcrutils

def TR_MAXSET : Nat := 256

def DASH : UInt8 := 45

/-- The character that a backslash and another one stand for. -/
def escaped (c : UInt8) : UInt8 :=
  if c = 110 then 10
  else if c = 116 then 9
  else if c = 114 then 13
  else if c = 118 then 11
  else if c = 102 then 12
  else c

/-- `set_char`: a character of a set, and what is behind it. -/
def setChar : Bytes → Option (UInt8 × Bytes)
  | [] => none
  -- a backslash at the end of the set is one, too
  | [p] => some (p, [])
  | p :: c :: rest => if p = 92 then some (escaped c, rest) else some (p, c :: rest)

/-- What is behind the dash of a range: a dash stands for one where something follows it. -/
def behindDash : Bytes → Option Bytes
  | dash :: c :: rest => if dash = DASH then some (c :: rest) else none
  | _ => none

def charRange (lo hi : UInt8) : Bytes :=
  (List.range' lo.toNat (hi.toNat + 1 - lo.toNat)).map UInt8.ofNat

variable {cur rest next into : Bytes} {lo hi : UInt8} {mark : Mark} {some' : Nat}

theorem setChar_length {c : UInt8} (read : setChar cur = some (c, rest))
    : rest.length < cur.length := by
  obtain _ | ⟨p, _ | ⟨d, more⟩⟩ := cur
  · cases read
  · cases read
    simp
  · rw [setChar] at read
    split at read
    next =>
      cases read
      simp only [List.length_cons]
      omega
    next =>
      cases read
      simp

theorem behindDash_eq (behind : behindDash cur = some rest) : cur = DASH :: rest ∧ rest ≠ [] := by
  obtain _ | ⟨dash, _ | ⟨c, more⟩⟩ := cur
  · cases behind
  · cases behind
  · rw [behindDash] at behind
    split at behind
    next same =>
      obtain rfl := Option.some.inj behind
      exact ⟨by rw [same], List.cons_ne_nil _ _⟩
    next => cases behind

/-- The loop of `set_expand`: all that it writes, in the order of the places it writes to, and what
it returns. What is behind the first `TR_MAXSET` of them is written outside of the set.
-/
def setExpandLoop (into cur : Bytes) : Bytes × Option Nat :=
  match _read : setChar cur with
  | none => (into, some into.length)
  | some (lo, rest) =>
      match behindDash rest with
      | some _ =>
          match _high : setChar rest with
          | none => (into, none)
          | some (hi, next) =>
              if hi < lo then (into, none)
              else if TR_MAXSET < (hi.toNat - lo.toNat) + into.length then (into, none)
              else setExpandLoop (into ++ charRange lo hi) next
      | none => setExpandLoop (into ++ [lo]) rest
termination_by cur.length
decreasing_by
  · exact Nat.lt_trans (setChar_length _high) (setChar_length _read)
  · exact setChar_length _read

def setExpand (spec : Bytes) : Bytes × Option Nat := setExpandLoop [] (cstr spec)

-- What a set is

/-- What a set is made of: characters, and ranges from one character to another. -/
inductive Item where
  | single (c : UInt8)
  | range (lo hi : UInt8)
deriving Repr, DecidableEq

def itemsFrom (cur : Bytes) : List Item :=
  match _read : setChar cur with
  | none => []
  | some (lo, rest) =>
      match _behind : behindDash rest with
      | some upper =>
          match _high : setChar upper with
          | none => []
          | some (hi, next) => .range lo hi :: itemsFrom next
      | none => .single lo :: itemsFrom rest
termination_by cur.length
decreasing_by
  · have one := setChar_length _read
    have two := setChar_length _high
    rw [(behindDash_eq _behind).1, List.length_cons] at one
    omega
  · exact setChar_length _read

def items (spec : Bytes) : List Item := itemsFrom (cstr spec)

/-- The characters of an item: a range that runs down has none. -/
def Item.chars : Item → Option Bytes
  | .single c => some [c]
  | .range lo hi => if hi < lo then none else some (charRange lo hi)

/-- The characters that items denote, in their order. -/
def denoted : List Item → Option Bytes
  | [] => some []
  | item :: rest =>
      match item.chars, denoted rest with
      | some front, some behind => some (front ++ behind)
      | _, _ => none

def Item.upper : Item → Option UInt8
  | .single _ => none
  | .range _ hi => some hi

/-- An expansion that is exact and bounded: nothing is written outside of the set, and either a
failure is reported or what is written is what the set denotes.
-/
def Exact (spec : Bytes) (expansion : Bytes × Option Nat) : Prop :=
  expansion.1.length ≤ TR_MAXSET
  ∧ (expansion.2 = none
    ∨ expansion.2 = some expansion.1.length ∧ denoted (items spec) = some expansion.1)

-- What the loop reads

/-- A character that the loop reads, and whether it takes it for the lower end of a range. -/
structure Mark where
  lo : UInt8
  range : Bool
deriving Repr, DecidableEq

/-- What the loop reads of a set, whatever it writes. -/
def marksFrom (cur : Bytes) : List Mark :=
  match _read : setChar cur with
  | none => []
  | some (lo, rest) =>
      match _behind : behindDash rest with
      | some next => ⟨lo, true⟩ :: marksFrom next
      | none => ⟨lo, false⟩ :: marksFrom rest
termination_by cur.length
decreasing_by
  · have one := setChar_length _read
    rw [(behindDash_eq _behind).1, List.length_cons] at one
    omega
  · exact setChar_length _read

def marks (spec : Bytes) : List Mark := marksFrom (cstr spec)

/-- A range from below runs up to the dash itself. -/
def Mark.Below (mark : Mark) : Prop := mark.range = true → mark.lo ≤ DASH

def Mark.size (mark : Mark) : Nat :=
  if mark.range then DASH.toNat + 1 - mark.lo.toNat else 1

def total (read : List Mark) : Nat := (read.map Mark.size).sum

def Mark.chars (mark : Mark) : Bytes :=
  if mark.range then charRange mark.lo DASH else [mark.lo]

/-- A set that is refused in time: at a range from above the dash, or one that is seen to be too
much, with no more than the set may hold before it.
-/
def Refused (some' : Nat) (read : List Mark) : Prop :=
  ∃ before lo after, read = before ++ ⟨lo, true⟩ :: after
    ∧ (∀ mark ∈ before, mark.Below)
    ∧ some' + total before ≤ TR_MAXSET
    ∧ (DASH < lo ∨ TR_MAXSET < (DASH.toNat - lo.toNat) + (some' + total before))

/-- A set that the loop expands within its bounds. -/
def Fits (some' : Nat) (read : List Mark) : Prop :=
  (∀ mark ∈ read, mark.Below) ∧ some' + total read ≤ TR_MAXSET

theorem charRange_length (lo hi : UInt8) : (charRange lo hi).length = hi.toNat + 1 - lo.toNat := by
  rw [charRange, List.length_map, List.length_range']

theorem Mark.chars_length (mark : Mark) : mark.chars.length = mark.size := by
  rw [Mark.chars, Mark.size]
  split
  next => exact charRange_length mark.lo DASH
  next => rfl

-- The loop

theorem setChar_behind (behind : behindDash cur = some next) : setChar cur = some (DASH, next) := by
  obtain ⟨rfl, some'⟩ := behindDash_eq behind
  obtain ⟨c, rest, rfl⟩ := List.exists_cons_of_ne_nil some'
  rfl

def runMarks (into : Bytes) : List Mark → Bytes × Option Nat
  | [] => (into, some into.length)
  | mark :: read =>
      if mark.range = true then
        if DASH < mark.lo then (into, none)
        else if TR_MAXSET < (DASH.toNat - mark.lo.toNat) + into.length then (into, none)
        else runMarks (into ++ mark.chars) read
      else runMarks (into ++ mark.chars) read

theorem marksFrom_none (none' : setChar cur = none) : marksFrom cur = [] := by
  rw [marksFrom]
  split
  next => rfl
  next read => cases none'.symm.trans read

theorem marksFrom_range (read : setChar cur = some (lo, rest))
    (behind : behindDash rest = some next)
    : marksFrom cur = ⟨lo, true⟩ :: marksFrom next := by
  rw [marksFrom]
  split
  next none' => cases none'.symm.trans read
  next again =>
    cases again.symm.trans read
    split
    next found => cases found.symm.trans behind; rfl
    next alone => cases alone.symm.trans behind

theorem marksFrom_single (read : setChar cur = some (lo, rest)) (alone : behindDash rest = none)
    : marksFrom cur = ⟨lo, false⟩ :: marksFrom rest := by
  rw [marksFrom]
  split
  next none' => cases none'.symm.trans read
  next again =>
    cases again.symm.trans read
    split
    next behind => cases alone.symm.trans behind
    next => rfl

theorem setExpandLoop_eq (into cur : Bytes)
    : setExpandLoop into cur = runMarks into (marksFrom cur) := by
  fun_induction setExpandLoop into cur with
  | case1 into cur none' => rw [marksFrom_none none', runMarks]
  | case2 into cur lo rest read next behind none' =>
      cases (setChar_behind behind).symm.trans none'
  | case3 into cur lo rest read next behind hi more high below =>
      cases (setChar_behind behind).symm.trans high
      rw [marksFrom_range read behind, runMarks, if_pos rfl, if_pos below]
  | case4 into cur lo rest read next behind hi more high below much =>
      cases (setChar_behind behind).symm.trans high
      rw [marksFrom_range read behind, runMarks, if_pos rfl, if_neg below, if_pos much]
  | case5 into cur lo rest read next behind hi more high below much ih =>
      cases (setChar_behind behind).symm.trans high
      rw [marksFrom_range read behind, runMarks, if_pos rfl, if_neg below, if_neg much, ih]
      rfl
  | case6 into cur lo rest read alone ih =>
      rw [marksFrom_single read alone, runMarks, if_neg Bool.false_ne_true, ih]
      rfl

-- Refusals

theorem total_cons (mark : Mark) (read : List Mark)
    : total (mark :: read) = mark.size + total read :=
  rfl

/-- The loop goes on from a mark that it does not refuse. -/
def Mark.Passes (some' : Nat) (mark : Mark) : Prop :=
  mark.range = true → mark.lo ≤ DASH ∧ (DASH.toNat - mark.lo.toNat) + some' ≤ TR_MAXSET

theorem runMarks_passes (read : List Mark) (passes : mark.Passes into.length)
    : runMarks into (mark :: read) = runMarks (into ++ mark.chars) read := by
  rw [runMarks]
  split
  next range =>
    obtain ⟨below, fits⟩ := passes range
    rw [if_neg (UInt8.not_lt.mpr below), if_neg (Nat.not_lt.mpr fits)]
  next => rfl

theorem runMarks_refuses (read : List Mark) (refuses : ¬mark.Passes into.length)
    : runMarks into (mark :: read) = (into, none) := by
  rw [runMarks]
  by_cases range : mark.range = true
  · by_cases below : DASH < mark.lo
    · rw [if_pos range, if_pos below]
    · have much : TR_MAXSET < (DASH.toNat - mark.lo.toNat) + into.length := by
        by_contra fits
        exact refuses fun _ => ⟨UInt8.not_lt.mp below, Nat.not_lt.mp fits⟩
      rw [if_pos range, if_neg below, if_pos much]
  · exact absurd (fun given => absurd given range) refuses

theorem refused_cons (read : List Mark) (passes : mark.Passes some')
    : Refused some' (mark :: read) ↔ Refused (some' + mark.size) read := by
  constructor
  · rintro ⟨before, lo, after, split', below, fits, refused⟩
    cases before with
    | nil =>
        obtain ⟨rfl, rfl⟩ := List.cons.inj split'
        obtain ⟨low, enough⟩ := passes rfl
        obtain above | much := refused
        · exact absurd low (UInt8.not_le.mpr above)
        · exact absurd enough (Nat.not_le.mpr much)
    | cons first before =>
        obtain ⟨rfl, rfl⟩ := List.cons.inj split'
        rw [total_cons, ← Nat.add_assoc some'] at fits refused
        have rest : ∀ other ∈ before, other.Below :=
          fun other member => below other (List.mem_cons_of_mem _ member)
        exact ⟨before, lo, after, rfl, rest, fits, refused⟩
  · rintro ⟨before, lo, after, rfl, below, fits, refused⟩
    refine ⟨mark :: before, lo, after, rfl, ?_, ?_, ?_⟩
    · intro other member
      obtain rfl | later := List.mem_cons.mp member
      · exact fun range => (passes range).1
      · exact below other later
    · rwa [total_cons, ← Nat.add_assoc]
    · rwa [total_cons, ← Nat.add_assoc some']

theorem refused_first (read : List Mark) (refuses : ¬mark.Passes some')
    : Refused some' (mark :: read) ↔ some' ≤ TR_MAXSET := by
  constructor
  · rintro ⟨before, _, _, _, _, fits, _⟩
    exact le_trans (Nat.le_add_right _ _) fits
  · intro fits
    have range : mark.range = true := by
      by_contra single
      exact refuses fun given => absurd given single
    refine ⟨[], mark.lo, read, ?_, nofun, fits, ?_⟩
    · rw [← range]
      rfl
    · by_contra neither
      rw [not_or] at neither
      exact refuses fun _ => ⟨UInt8.not_lt.mp neither.1, Nat.not_lt.mp neither.2⟩

theorem length_chars (into : Bytes) (mark : Mark)
    : (into ++ mark.chars).length = into.length + mark.size := by
  rw [List.length_append, mark.chars_length]

theorem runMarks_refused (into : Bytes) (read : List Mark)
    : (runMarks into read).1.length ≤ TR_MAXSET ∧ (runMarks into read).2 = none
      ↔ Refused into.length read := by
  induction read generalizing into with
  | nil =>
      refine iff_of_false (fun both => nomatch both.2) ?_
      rintro ⟨before, _, _, split', _⟩
      exact List.append_ne_nil_of_right_ne_nil before (List.cons_ne_nil _ _) split'.symm
  | cons mark read ih =>
      by_cases passes : mark.Passes into.length
      · rw [runMarks_passes read passes, ih, length_chars, refused_cons read passes]
      · rw [runMarks_refuses read passes, refused_first read passes]
        exact and_iff_left rfl

-- Expansions

theorem Mark.Below.passes (below : mark.Below) (fits : some' + mark.size ≤ TR_MAXSET)
    : mark.Passes some' := by
  intro range
  have low := below range
  rw [Mark.size, if_pos range] at fits
  have less : mark.lo.toNat ≤ DASH.toNat := UInt8.le_iff_toNat_le.mp low
  exact ⟨low, by omega⟩

theorem runMarks_fits {into : Bytes} {read : List Mark} (fits : Fits into.length read)
    : runMarks into read
      = (into ++ read.flatMap Mark.chars, some (into ++ read.flatMap Mark.chars).length) := by
  induction read generalizing into with
  | nil => rw [runMarks, List.flatMap_nil, List.append_nil]
  | cons mark read ih =>
      obtain ⟨below, enough⟩ := fits
      rw [total_cons, ← Nat.add_assoc] at enough
      have passes := (below mark List.mem_cons_self).passes
        (le_trans (Nat.le_add_right _ _) enough)
      have rest : Fits (into ++ mark.chars).length read :=
        ⟨fun other member => below other (List.mem_cons_of_mem _ member),
          by rwa [length_chars]⟩
      rw [runMarks_passes read passes, ih rest, List.flatMap_cons, List.append_assoc]

theorem fits_of_runMarks {read : List Mark} (bound : (runMarks into read).1.length ≤ TR_MAXSET)
    (done : (runMarks into read).2 ≠ none)
    : Fits into.length read := by
  induction read generalizing into with
  | nil => exact ⟨nofun, bound⟩
  | cons mark read ih =>
      by_cases passes : mark.Passes into.length
      · rw [runMarks_passes read passes] at bound done
        obtain ⟨below, enough⟩ := ih bound done
        rw [length_chars, Nat.add_assoc, ← total_cons] at enough
        refine ⟨fun other member => ?_, enough⟩
        obtain rfl | later := List.mem_cons.mp member
        · exact fun range => (passes range).1
        · exact below other later
      · rw [runMarks_refuses read passes] at done
        exact absurd rfl done

theorem exact_iff (spec : Bytes)
    : Exact spec (setExpand spec)
      ↔ Refused 0 (marks spec)
        ∨ Fits 0 (marks spec) ∧ denoted (items spec) = some ((marks spec).flatMap Mark.chars) := by
  rw [Exact, setExpand, setExpandLoop_eq, ← marks]
  have refused := runMarks_refused [] (marks spec)
  constructor
  · rintro ⟨bound, none' | ⟨done, same⟩⟩
    · exact .inl (refused.mp ⟨bound, none'⟩)
    · have fits := fits_of_runMarks bound (by rw [done]; nofun)
      rw [runMarks_fits fits] at same
      exact .inr ⟨fits, same⟩
  · rintro (early | ⟨fits, same⟩)
    · obtain ⟨bound, none'⟩ := refused.mpr early
      exact ⟨bound, .inl none'⟩
    · have written := @runMarks_fits [] _ fits
      rw [written]
      refine ⟨?_, .inr ⟨rfl, same⟩⟩
      have sizes (read : List Mark) : (read.flatMap Mark.chars).length = total read := by
        induction read with
        | nil => rfl
        | cons mark read ih =>
            rw [List.flatMap_cons, List.length_append, mark.chars_length, ih, total_cons]
      rw [List.nil_append, sizes]
      exact (Nat.zero_add _).symm.trans_le fits.2

-- Ranges

def DOT : UInt8 := 46

theorem charRange_head (up : lo ≤ hi) : ∃ rest, charRange lo hi = lo :: rest := by
  have size : hi.toNat + 1 - lo.toNat = (hi.toNat - lo.toNat) + 1 := by
    have order := UInt8.le_iff_toNat_le.mp up
    omega
  rw [charRange, size, List.range'_succ, List.map_cons, UInt8.ofNat_toNat]
  exact ⟨_, rfl⟩

theorem charRange_dash (below : lo ≤ DASH) (above : DASH < hi)
    : charRange lo hi = charRange lo DASH ++ charRange DOT hi := by
  have low : lo.toNat ≤ 45 := UInt8.le_iff_toNat_le.mp below
  have high : 45 < hi.toNat := UInt8.lt_iff_toNat_lt.mp above
  have size : hi.toNat + 1 - lo.toNat = (45 + 1 - lo.toNat) + (hi.toNat + 1 - 46) := by omega
  have start : lo.toNat + (45 + 1 - lo.toNat) = 46 := by omega
  have split' : List.range' lo.toNat (45 + 1 - lo.toNat) ++ List.range' 46 (hi.toNat + 1 - 46)
      = List.range' lo.toNat ((45 + 1 - lo.toNat) + (hi.toNat + 1 - 46)) := by
    rw [← List.range'_append_1, start]
  rw [charRange, size, ← split', List.map_append]
  rfl

theorem setChar_upper {upper : Bytes} (behind : behindDash cur = some upper)
    : setChar upper ≠ none := by
  obtain ⟨_, some'⟩ := behindDash_eq behind
  obtain _ | ⟨p, _ | ⟨c, rest⟩⟩ := upper
  · exact absurd rfl some'
  · exact nofun
  · rw [setChar]
    split <;> exact nofun

theorem marksFrom_above (read : setChar cur = some (hi, next)) (above : DASH < hi)
    (below : ∀ mark ∈ marksFrom cur, mark.Below)
    : marksFrom cur = ⟨hi, false⟩ :: marksFrom next := by
  cases behind : behindDash next with
  | none => exact marksFrom_single read behind
  | some more =>
      rw [marksFrom_range read behind] at below
      exact absurd (below ⟨hi, true⟩ List.mem_cons_self rfl) (UInt8.not_le.mpr above)

theorem denoted_single (c : UInt8) (rest : List Item)
    : denoted (.single c :: rest) = (denoted rest).map (c :: ·) := by
  rw [denoted, Item.chars]
  cases denoted rest <;> rfl

theorem denoted_range (up : lo ≤ hi) (rest : List Item)
    : denoted (.range lo hi :: rest) = (denoted rest).map (charRange lo hi ++ ·) := by
  rw [denoted, Item.chars, if_neg (UInt8.not_lt.mpr up)]
  cases denoted rest <;> rfl

theorem denoted_iff_dots (below : ∀ mark ∈ marksFrom cur, mark.Below)
    (above : ∀ hi ∈ (itemsFrom cur).filterMap Item.upper, DASH < hi)
    : denoted (itemsFrom cur) = some ((marksFrom cur).flatMap Mark.chars)
      ↔ ∀ hi ∈ (itemsFrom cur).filterMap Item.upper, hi = DOT := by
  fun_induction itemsFrom cur with
  | case1 cur none' =>
      rw [marksFrom_none none']
      exact iff_of_true rfl nofun
  | case2 cur lo rest read upper behind none' => exact absurd none' (setChar_upper behind)
  | case3 cur lo rest read upper behind hi next high ih =>
      rw [marksFrom_range read behind] at below
      have upward : DASH < hi := above hi List.mem_cons_self
      have low : lo ≤ DASH := below ⟨lo, true⟩ List.mem_cons_self rfl
      have up : lo ≤ hi := UInt8.le_trans low (UInt8.le_of_lt upward)
      have seen := marksFrom_above high upward
        fun mark member => below mark (List.mem_cons_of_mem _ member)
      rw [seen] at below
      have rest := ih
        (fun mark member => below mark (List.mem_cons_of_mem _ (List.mem_cons_of_mem _ member)))
        fun other member => above other (List.mem_cons_of_mem _ member)
      have marked : (marksFrom cur).flatMap Mark.chars
          = charRange lo DASH ++ (hi :: (marksFrom next).flatMap Mark.chars) := by
        rw [marksFrom_range read behind, seen]
        rfl
      have upToDot : DOT ≤ hi := UInt8.le_iff_toNat_le.mpr (UInt8.lt_iff_toNat_lt.mp upward)
      obtain ⟨tail, starts⟩ := charRange_head upToDot
      have single : charRange DOT DOT = [DOT] := rfl
      have uppers : (Item.range lo hi :: itemsFrom next).filterMap Item.upper
          = hi :: (itemsFrom next).filterMap Item.upper := rfl
      rw [marked, denoted_range up, charRange_dash low upward, uppers, List.forall_mem_cons, ← rest,
        Option.map_eq_some_iff]
      constructor
      · rintro ⟨chars, denotes, same⟩
        rw [List.append_assoc, List.append_cancel_left_eq, starts] at same
        obtain ⟨rfl, left⟩ := List.cons.inj same
        obtain rfl : tail = [] := (List.cons.inj (starts.symm.trans single)).2
        exact ⟨rfl, denotes.trans (congrArg some left)⟩
      · rintro ⟨rfl, denotes⟩
        refine ⟨_, denotes, ?_⟩
        rw [single, List.append_assoc]
        rfl
  | case4 cur lo rest read alone ih =>
      rw [marksFrom_single read alone] at below ⊢
      have rest := ih (fun mark member => below mark (List.mem_cons_of_mem _ member)) above
      rw [denoted_single, List.flatMap_cons, List.filterMap_cons_none rfl, ← rest,
        Option.map_eq_some_iff]
      constructor
      · rintro ⟨chars, denotes, same⟩
        exact denotes.trans (congrArg some (List.cons.inj same).2)
      · exact fun denotes => ⟨_, denotes, rfl⟩

/-- A set that `set_expand` treats as it should: one that it refuses in time, or one that fits and
whose ranges all run to the character behind the dash.
-/
def Treated (spec : Bytes) : Prop :=
  Refused 0 (marks spec)
  ∨ Fits 0 (marks spec) ∧ ∀ hi ∈ (items spec).filterMap Item.upper, hi = DOT

/-- The expansion is exact and bounded for every set that is treated as it should be, and for no
other set whose ranges all end above the dash.
-/
theorem set_expand_exact (spec : Bytes)
    : (Treated spec → Exact spec (setExpand spec))
      ∧ ((∀ hi ∈ (items spec).filterMap Item.upper, DASH < hi)
        → (Exact spec (setExpand spec) ↔ Treated spec)) := by
  have decides (above : ∀ hi ∈ (items spec).filterMap Item.upper, DASH < hi)
      : Exact spec (setExpand spec) ↔ Treated spec := by
    rw [exact_iff, Treated]
    exact or_congr_right (and_congr_right fun fits => denoted_iff_dots fits.1 above)
  refine ⟨fun treated => ?_, decides⟩
  obtain early | ⟨fits, dots⟩ := treated
  · exact (exact_iff spec).mpr (.inl early)
  · refine (decides fun hi among => ?_).mpr (.inr ⟨fits, dots⟩)
    rw [dots hi among]
    decide

/-- The range from the plus sign to the dot. -/
theorem set_expand_plus_range : Exact [43, 45, 46] (setExpand [43, 45, 46]) := by
  refine (set_expand_exact _).1 (.inr ⟨⟨?_, ?_⟩, ?_⟩)
  · unfold Mark.Below
    decide +kernel
  · decide +kernel
  · decide +kernel

/-- The range from the blank to a zero is wrong: the set has the characters from the blank to the
dash, and the digit alone.
-/
theorem set_expand_blank_range : ¬Exact [32, 45, 48] (setExpand [32, 45, 48]) := by
  unfold Exact
  decide +kernel

end Panuti.Pcrutils
