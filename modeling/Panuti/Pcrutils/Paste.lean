import Panuti.Pcrutils.Outputs

/-! `paste`: the lines of two in streams side by side. The newline of the first side is not taken
off, so it stands in front of the tab.
-/

namespace Panuti.Pcrutils

open Panuti.Pcrutils.Seq

def TAB : UInt8 := 9

-- The utility

/-- What a turn of the loop of `paste` writes. A side that is done has no bytes. -/
def pasteRow (a b : Bytes) : Bytes :=
  let left := cstr a
  let right := cstr b
  left ++ (if left ≠ [] ∧ right ≠ [] then [TAB] else []) ++ right

/-- The rows of the loop, for the lines that are left. -/
def pasteRows : (a b : List Bytes) → List Bytes
  | [], [] => []
  | [], right :: b => pasteRow [] right :: pasteRows [] b
  | left :: a, [] => pasteRow left [] :: pasteRows a []
  | left :: a, right :: b => pasteRow left right :: pasteRows a b

/-- `paste`, from what the reads of its in streams hand over. There need not be a second one. -/
def paste (onlyOut0 : Bool) (in0 : List Bytes) (in1 : Option (List Bytes)) (sinks : List Sink)
    : List Sink × Bool :=
  outputEach sinks onlyOut0 (pasteRows (pcrStreamLines in0) ((in1.map pcrStreamLines).getD []))

-- Joined lines

/-- The lines of both sides without their newlines, joined with a tab where both have one. -/
def joinedLines : (a b : List Bytes) → List Bytes
  | [], b => b.map body
  | a, [] => a.map body
  | left :: a, right :: b => (body left ++ TAB :: body right) :: joinedLines a b

/-- The lines of a text are these, with or without a newline at the very end. -/
def HasLines (lines : List Bytes) (text : Bytes) : Prop := (splitLines [] text).map body = lines

/-- `paste` gives the streams a text that has a property. -/
def PasteGives (property : Bytes → Prop) (onlyOut0 : Bool) (outs : List OutStream)
    (in0 in1 : List Bytes)
    : Prop :=
  ∃ text later, paste onlyOut0 in0 (some in1) (outs.map Sink.fresh) = (later, true)
    ∧ Wrote onlyOut0 text outs later ∧ property text

/-- The lines are joined. -/
def Pastes (onlyOut0 : Bool) (outs : List OutStream) (in0 in1 : List Bytes) : Prop :=
  PasteGives (HasLines (joinedLines (splitLines [] in0.flatten) (splitLines [] in1.flatten)))
    onlyOut0 outs in0 in1

/-- The lines are joined, and each has a newline at its end. -/
def PastesEnded (onlyOut0 : Bool) (outs : List OutStream) (in0 in1 : List Bytes) : Prop :=
  PasteGives (· = (joinedLines (splitLines [] in0.flatten) (splitLines [] in1.flatten)).flatMap
    (· ++ [NEWLINE])) onlyOut0 outs in0 in1

theorem splitLines_front {line more input first : Bytes} {rest : List Bytes}
    (lines : splitLines more input = first :: rest)
    : splitLines (line ++ more) input = (line ++ first) :: rest := by
  induction input generalizing more with
  | nil =>
      rw [splitLines] at lines ⊢
      split at lines
      next => cases lines
      next some' =>
          obtain ⟨rfl, rfl⟩ := List.cons.inj lines
          rw [if_neg (List.append_ne_nil_of_right_ne_nil line some')]
  | cons c input ih =>
      rw [splitLines] at lines ⊢
      split at lines
      next newline =>
          obtain ⟨rfl, rfl⟩ := List.cons.inj lines
          rw [if_pos newline, List.append_assoc]
      next other =>
          rw [if_neg other, List.append_assoc]
          exact ih lines

theorem pasteRow_plain {a b : Bytes} (plain : 0 ∉ a) (plainToo : 0 ∉ b)
    : pasteRow a b = a ++ (if a ≠ [] ∧ b ≠ [] then [TAB] else []) ++ b := by
  rw [pasteRow, cstr_eq_self plain, cstr_eq_self plainToo]

theorem pasteRows_left {a : List Bytes} (plain : ∀ line ∈ a, 0 ∉ line) : pasteRows a [] = a := by
  induction a with
  | nil => rw [pasteRows]
  | cons left a ih =>
      rw [pasteRows, ih fun line among => plain line (List.mem_cons_of_mem left among),
        pasteRow_plain (plain left List.mem_cons_self) List.not_mem_nil]
      simp

theorem pasteRows_right {b : List Bytes} (plain : ∀ line ∈ b, 0 ∉ line) : pasteRows [] b = b := by
  induction b with
  | nil => rw [pasteRows]
  | cons right b ih =>
      rw [pasteRows, ih fun line among => plain line (List.mem_cons_of_mem right among),
        pasteRow_plain List.not_mem_nil (plain right List.mem_cons_self)]
      simp

theorem pasteGives_iff {property : Bytes → Prop} {onlyOut0 : Bool} {out : OutStream}
    {outs : List OutStream} {in0 in1 : List Bytes}
    : PasteGives property onlyOut0 (out :: outs) in0 in1
      ↔ property (pasteRows (splitLines [] in0.flatten) (splitLines [] in1.flatten)).flatten := by
  obtain ⟨later, done, wrote⟩ := (wrote_fresh onlyOut0 (out :: outs)).outputEach
    (pasteRows (splitLines [] in0.flatten) (splitLines [] in1.flatten))
  rw [List.nil_append] at wrote
  constructor
  · rintro ⟨text, other, doneToo, wroteToo, holds⟩
    obtain rfl : later = other := congrArg Prod.fst (done.symm.trans doneToo)
    rwa [← wroteToo.bytes_eq wrote]
  · intro holds
    exact ⟨_, later, done, wrote, holds⟩

-- What comes of it

theorem joinedLines_left (a : List Bytes) : joinedLines a [] = a.map body := by
  cases a <;> rw [joinedLines]
  exact nofun

theorem body_append (front : Bytes) {line : Bytes} (some' : line ≠ [])
    : body (front ++ line) = front ++ body line := by
  rw [body, body, List.getLast?_append_of_ne_nil _ some', List.dropLast_append_of_ne_nil some']
  split <;> rfl

theorem paste_joins {in0 in1 : Bytes} (none' : in0 = [] ∨ in1 = [] ∨ NEWLINE ∉ in0)
    (plain : 0 ∉ in0) (plainToo : 0 ∉ in1)
    : (pasteRows (splitLines [] in0) (splitLines [] in1)).flatten = pasteRow in0 in1
      ∧ HasLines (joinedLines (splitLines [] in0) (splitLines [] in1)) (pasteRow in0 in1) := by
  have lines0 := lines_plain plain
  have lines1 := lines_plain plainToo
  have whole (input : Bytes) : (splitLines [] input).flatten = input := splitLines_flatten [] input
  rw [pasteRow_plain plain plainToo, HasLines]
  by_cases empty : in0 = []
  · subst empty
    rw [show splitLines [] [] = [] from rfl, pasteRows_right lines1, whole, joinedLines]
    exact ⟨rfl, rfl⟩
  by_cases emptyToo : in1 = []
  · subst emptyToo
    rw [show splitLines [] [] = [] from rfl, pasteRows_left lines0, whole, joinedLines_left,
      if_neg fun both => both.2 rfl, List.append_nil, List.append_nil]
    exact ⟨rfl, rfl⟩
  have inside := (none'.resolve_left empty).resolve_left emptyToo
  have single : splitLines [] in0 = [in0] := by
    rw [splitLines_open inside, List.nil_append, if_neg empty]
  obtain ⟨right, b, first⟩ := List.exists_cons_of_ne_nil (mt splitLines_eq_nil_iff.mp emptyToo)
  have among : right ∈ splitLines [] in1 := first ▸ List.mem_cons_self
  have some' := line_ne_nil among
  have rest : pasteRows [] b = b :=
    pasteRows_right fun line later => lines1 line (first ▸ List.mem_cons_of_mem right later)
  have start : NEWLINE ∉ in0 ++ [TAB] := by
    rw [List.mem_append, not_or]
    exact ⟨inside, by decide⟩
  have all : in1 = right ++ b.flatten := by
    rw [← whole in1, first, List.flatten_cons]
  rw [single, first, pasteRows, rest, pasteRow_plain plain (lines1 right among), joinedLines,
    if_pos ⟨empty, some'⟩, if_pos ⟨empty, emptyToo⟩, splitLines_through start, List.nil_append]
  refine ⟨by rw [all, List.flatten_cons, List.append_assoc], ?_⟩
  rw [← List.append_nil (in0 ++ [TAB]), splitLines_front first, List.map_cons,
    body_append _ some', body_open inside, joinedLines, List.append_assoc, List.singleton_append]

theorem paste_splits {in0 in1 : Bytes} (plain : 0 ∉ in0) (plainToo : 0 ∉ in1)
    (lines : HasLines (joinedLines (splitLines [] in0) (splitLines [] in1))
      (pasteRows (splitLines [] in0) (splitLines [] in1)).flatten)
    : in0 = [] ∨ in1 = [] ∨ NEWLINE ∉ in0 := by
  have whole : (splitLines [] in0).flatten = in0 := splitLines_flatten [] in0
  cases first : splitLines [] in0 with
  | nil => exact .inl (splitLines_eq_nil_iff.mp first)
  | cons left a =>
      cases firstToo : splitLines [] in1 with
      | nil => exact .inr (.inl (splitLines_eq_nil_iff.mp firstToo))
      | cons right b =>
          have among : left ∈ splitLines [] in0 := first ▸ List.mem_cons_self
          have amongToo : right ∈ splitLines [] in1 := firstToo ▸ List.mem_cons_self
          rcases line_cases among with ⟨text, rfl, inside⟩ | inside
          · rw [first, firstToo, pasteRows, joinedLines, HasLines,
              pasteRow_plain (lines_plain plain _ among) (lines_plain plainToo _ amongToo),
              if_pos ⟨line_ne_nil among, line_ne_nil amongToo⟩, List.flatten_cons,
              List.append_assoc, List.append_assoc, List.append_assoc, List.singleton_append,
              splitLines_line inside, List.map_cons, List.nil_append, body_concat] at lines
            have same := congrArg List.length (List.cons.inj lines).1
            rw [List.length_append, List.length_cons] at same
            omega
          · refine .inr (.inr ?_)
            cases a with
            | nil => rwa [← whole, first, List.flatten_singleton]
            | cons second a =>
                have before : left ∈ (splitLines [] in0).dropLast := by
                  rw [first, List.dropLast_cons_cons]
                  exact List.mem_cons_self
                exact absurd (List.mem_of_getLast? (splitLines_ended before)) inside

theorem newline_not_mem_joinedLines {a b : List Bytes} (inA : ∀ line ∈ a, NEWLINE ∉ body line)
    (inB : ∀ line ∈ b, NEWLINE ∉ body line)
    : ∀ line ∈ joinedLines a b, NEWLINE ∉ line := by
  induction a, b using joinedLines.induct with
  | case1 b =>
      rw [joinedLines]
      exact List.forall_mem_map.mpr inB
  | case2 a some' =>
      rw [joinedLines_left]
      exact List.forall_mem_map.mpr inA
  | case3 left a right b ih =>
      obtain ⟨here, later⟩ := List.forall_mem_cons.mp inA
      obtain ⟨hereToo, laterToo⟩ := List.forall_mem_cons.mp inB
      rw [joinedLines]
      refine List.forall_mem_cons.mpr ⟨fun member => ?_, ih later laterToo⟩
      rcases List.mem_append.mp member with before | behind
      · exact here before
      · exact hereToo ((List.mem_cons.mp behind).resolve_left (by decide))

theorem hasLines_ended_iff {lines : List Bytes} (inside : ∀ line ∈ lines, NEWLINE ∉ line)
    (text : Bytes)
    : text = lines.flatMap (· ++ [NEWLINE])
      ↔ HasLines lines text ∧ ∀ c ∈ text.getLast?, c = NEWLINE := by
  have parts : splitLines [] (lines.flatMap (· ++ [NEWLINE])) = lines.map (· ++ [NEWLINE]) := by
    have ended : ∀ row ∈ lines.map (· ++ [NEWLINE]), Ended row :=
      List.forall_mem_map.mpr fun line among => ⟨line, rfl, inside line among⟩
    have rows := splitLines_parts ended (List.not_mem_nil (a := NEWLINE))
    rwa [List.append_nil, if_pos rfl, List.append_nil] at rows
  constructor
  · rintro rfl
    constructor
    · rw [HasLines, parts, List.map_map]
      exact (List.map_congr_left fun line _ => body_concat line).trans (List.map_id lines)
    · intro c last
      rcases List.eq_nil_or_concat' lines with rfl | ⟨front, line, rfl⟩
      · cases last
      · rw [List.flatMap_append, List.flatMap_singleton, ← List.append_assoc,
          List.getLast?_concat] at last
        exact (Option.some.inj last).symm
  · rintro ⟨rfl, last⟩
    obtain ⟨rows, part, rfl, ended, open'⟩ := exists_rows text
    have none' : part = [] := by
      rcases List.eq_nil_or_concat' part with none' | ⟨front, c, rfl⟩
      · exact none'
      · rw [← List.append_assoc, List.getLast?_concat] at last
        exact absurd (List.mem_append_right front (List.mem_singleton.mpr (last c rfl).symm)) open'
    rw [splitLines_parts ended open', none', if_pos rfl, List.append_nil, List.append_nil,
      List.flatMap_map]
    have rowsSame : rows.flatMap (fun row => body row ++ [NEWLINE]) = rows.flatMap id := by
      refine List.flatMap_congr fun row among => ?_
      obtain ⟨text, rfl, _⟩ := ended row among
      rw [body_concat, id]
    rw [rowsSame, List.flatMap_id]

theorem pasteRow_getLast? (a b : Bytes) (plain : 0 ∉ a) (plainToo : 0 ∉ b)
    : (pasteRow a b).getLast? = (if b = [] then a else b).getLast? := by
  rw [pasteRow_plain plain plainToo]
  by_cases none' : b = []
  · rw [if_pos none', none', if_neg fun both => both.2 rfl, List.append_nil, List.append_nil]
  · rw [if_neg none', List.getLast?_append_of_ne_nil _ none']

/-- `paste` joins the lines just where one side is empty, or the first side has no newline, and each
of them ends with a newline just if the last side that there is does so, too.
-/
theorem paste_joins_iff (onlyOut0 : Bool) (out : OutStream) (outs : List OutStream)
    {in0 in1 : List Bytes} (plain : 0 ∉ in0.flatten) (plainToo : 0 ∉ in1.flatten)
    : (Pastes onlyOut0 (out :: outs) in0 in1
        ↔ in0.flatten = [] ∨ in1.flatten = [] ∨ NEWLINE ∉ in0.flatten)
      ∧ (PastesEnded onlyOut0 (out :: outs) in0 in1
        ↔ (in0.flatten = [] ∨ in1.flatten = [] ∨ NEWLINE ∉ in0.flatten)
          ∧ ∀ c ∈ (if in1.flatten = [] then in0.flatten else in1.flatten).getLast?,
            c = NEWLINE) := by
  have inside (input line : Bytes) (among : line ∈ splitLines [] input) : NEWLINE ∉ body line :=
    newline_not_mem_body (splitLines_dropLast List.not_mem_nil among)
  have lines : Pastes onlyOut0 (out :: outs) in0 in1
      ↔ in0.flatten = [] ∨ in1.flatten = [] ∨ NEWLINE ∉ in0.flatten := by
    rw [Pastes, pasteGives_iff]
    refine ⟨paste_splits plain plainToo, fun none' => ?_⟩
    obtain ⟨text, joins⟩ := paste_joins none' plain plainToo
    rwa [text]
  refine ⟨lines, ?_⟩
  rw [Pastes, pasteGives_iff] at lines
  rw [PastesEnded, pasteGives_iff, hasLines_ended_iff
    (newline_not_mem_joinedLines (inside _) (inside _)), lines]
  refine and_congr_right fun none' => ?_
  rw [(paste_joins none' plain plainToo).1, pasteRow_getLast? _ _ plain plainToo]

theorem paste_single_line
    : Pastes false [wholeWrites] [[97]] [[98, NEWLINE], [99, NEWLINE]]
      ∧ PastesEnded false [wholeWrites] [[97]] [[98, NEWLINE], [99, NEWLINE]] := by
  have plain : (0 : UInt8) ∉ [[97]].flatten := by decide
  have plainToo : (0 : UInt8) ∉ [[98, NEWLINE], [99, NEWLINE]].flatten := by decide
  obtain ⟨lines, ended⟩ := paste_joins_iff false wholeWrites [] plain plainToo
  exact ⟨lines.mpr (.inr (.inr (by decide))),
    ended.mpr ⟨.inr (.inr (by decide)), fun c last => (Option.some.inj last).symm⟩⟩

/-- Two lines with their newlines come out as two lines, the second with the tab in front. -/
theorem paste_two_lines
    : ¬ ∀ (onlyOut0 : Bool) (outs : List OutStream) (in0 in1 : List Bytes),
        0 ∉ in0.flatten → 0 ∉ in1.flatten → Pastes onlyOut0 outs in0 in1 := by
  intro always
  have pastes := always false [wholeWrites] [[97, NEWLINE]] [[98, NEWLINE]] (by decide) (by decide)
  rw [Pastes, pasteGives_iff] at pastes
  exact absurd (paste_splits (by decide) (by decide) pastes) (by decide)

end Panuti.Pcrutils
