import Panuti.Pcrutils.Head

/-! `tail`: a window over the last lines of the in stream, and the line that is being read. Like
`head`, it takes a stream that takes less than it is offered for one that takes it all.
-/

namespace Panuti.Pcrutils

/-- The window: the bytes up to `win_len`, the live ones of which start at the head, and how many
newlines are live.
-/
structure Window where
  win : Bytes
  cap : Nat
  head : Nat
  lines : Nat
deriving Repr, DecidableEq

/-- The loop of `win_reserve`. -/
def winGrow (need cap : Nat) : Nat :=
  if 0 < cap ∧ cap < need then winGrow need (cap * 2) else cap
termination_by need - cap

/-- `win_reserve`, where there is memory. -/
def winReserve (need : Nat) (w : Window) : Window :=
  if need ≤ w.cap then w
  else { w with cap := winGrow need (if w.cap = 0 then BUFSZ else w.cap) }

def winCompact (w : Window) : Window :=
  if w.head = 0 then w else { w with win := w.win.drop w.head, head := 0 }

def winAppend (w : Window) (src : Bytes) : Window :=
  let w := if 0 < w.head ∧ w.cap < w.win.length + src.length then winCompact w else w
  let w := winReserve (w.win.length + src.length) w
  { w with win := w.win ++ src, lines := w.lines + src.count NEWLINE }

/-- The loop of `win_trim_to`: how many bytes it passes over, and the newlines live then. -/
def winSkip : (drop lines : Nat) → Bytes → Nat × Nat
  | 0, lines, _ => (0, lines)
  | _ + 1, lines, [] => (0, lines)
  | drop + 1, lines, c :: rest =>
      let skipped := if c = NEWLINE then winSkip drop (lines - 1) rest
        else winSkip (drop + 1) lines rest
      (skipped.1 + 1, skipped.2)

def winTrimTo (target : Nat) (w : Window) : Window :=
  if w.lines ≤ target then w
  else
    let skipped := winSkip (w.lines - target) w.lines (w.win.drop w.head)
    let w := { w with head := w.head + skipped.1, lines := skipped.2 }
    if 0 < w.head ∧ w.win.length ≤ w.head * 2 then winCompact w else w

/-- What `tail` keeps of its in stream. -/
structure TailState where
  window : Window
  part : Bytes
deriving Repr, DecidableEq

def partPush (want : Nat) (s : TailState) (c : UInt8) : TailState :=
  let part := s.part ++ [c]
  if c = NEWLINE then ⟨winTrimTo want (winAppend s.window part), []⟩ else { s with part := part }

/-- What `tail` keeps of all that its reads hand over. -/
def tailRead (want : Nat) (chunks : List Bytes) : TailState :=
  chunks.foldl (fun s chunk => chunk.foldl (partPush want) s) ⟨⟨[], 0, 0, 0⟩, []⟩

/-- What `tail` offers to each of its out streams. -/
def tailOffers (want : Nat) (chunks : List Bytes) : List Bytes :=
  if want = 0 then []
  else
    let s := tailRead want chunks
    let w := winTrimTo (if 0 < s.part.length then want - 1 else want) s.window
    (if w.head < w.win.length then pieces (w.win.drop w.head) else [])
      ++ if 0 < s.part.length then pieces s.part else []

/-- `tail`: what each of the out streams that it writes to ends up with. -/
def tail (want : Nat) (onlyOut0 : Bool) (outs : List OutStream) (in0 : Reads) : List Bytes :=
  (written onlyOut0 outs).map fun out => out.delivered 0 (tailOffers want in0.chunks)

-- The window

structure Window.Holds (w : Window) (rows : List Bytes) : Prop where
  inside : w.head ≤ w.win.length
  live : w.win.drop w.head = rows.flatten
  counts : w.lines = rows.length
  ended : ∀ row ∈ rows, Ended row

theorem Ended.count {row : Bytes} (ended : Ended row) : row.count NEWLINE = 1 := by
  obtain ⟨text, rfl, inside⟩ := ended
  rw [List.count_append, List.count_eq_zero.mpr inside, List.count_singleton_self]

variable {w : Window} {rows : List Bytes}

theorem Window.Holds.compact (holds : w.Holds rows) : (winCompact w).Holds rows := by
  rw [winCompact]
  split
  next => exact holds
  next => exact ⟨Nat.zero_le _, holds.live, holds.counts, holds.ended⟩

theorem Window.Holds.reserve (holds : w.Holds rows) (need : Nat)
    : (winReserve need w).Holds rows := by
  rw [winReserve]
  split
  next => exact holds
  next => exact ⟨holds.inside, holds.live, holds.counts, holds.ended⟩

theorem Window.Holds.append {row : Bytes} (holds : w.Holds rows) (ended : Ended row)
    : (winAppend w row).Holds (rows ++ [row]) := by
  have more (w : Window) (holds : w.Holds rows)
      : Holds { w with win := w.win ++ row, lines := w.lines + row.count NEWLINE }
          (rows ++ [row]) := by
    refine ⟨?_, ?_, ?_, ?_⟩
    · exact le_trans holds.inside (by simp)
    · change (w.win ++ row).drop w.head = _
      rw [List.drop_append_of_le_length holds.inside, holds.live, List.flatten_append,
        List.flatten_singleton]
    · change w.lines + row.count NEWLINE = _
      rw [holds.counts, ended.count, List.length_append, List.length_singleton]
    · intro other member
      obtain before | here := List.mem_append.mp member
      · exact holds.ended other before
      · rw [List.mem_singleton.mp here]
        exact ended
  rw [winAppend]
  refine more _ (Holds.reserve ?_ _)
  split
  next => exact holds.compact
  next => exact holds

theorem winSkip_eq (drop lines : Nat) (bytes : Bytes)
    : winSkip drop lines bytes
      = ((upTo drop bytes).length, lines - (upTo drop bytes).count NEWLINE) := by
  induction bytes generalizing drop lines with
  | nil =>
      cases drop with
      | zero => rw [winSkip, upTo]; rfl
      | succ drop => rfl
  | cons c rest ih =>
      cases drop with
      | zero => rw [winSkip, upTo]; rfl
      | succ drop =>
          rw [winSkip, upTo]
          by_cases newline : c = NEWLINE
          · simp only [if_pos newline, ih, List.length_cons]
            rw [newline, List.count_cons_self, Nat.sub_sub, Nat.add_comm 1]
          · simp only [if_neg newline, ih, List.length_cons]
            rw [List.count_cons_of_ne newline]

theorem count_rows (ended : ∀ row ∈ rows, Ended row)
    : rows.flatten.count NEWLINE = rows.length := by
  induction rows with
  | nil => rfl
  | cons row rows ih =>
      rw [List.flatten_cons, List.count_append, (ended row List.mem_cons_self).count,
        ih fun other member => ended other (List.mem_cons_of_mem _ member), List.length_cons,
        Nat.add_comm]

/-- Trimming keeps the last lines of the window. -/
theorem Window.Holds.trimTo (holds : w.Holds rows) (target : Nat)
    : (winTrimTo target w).Holds (lastOf target rows) := by
  have slides (w : Window) (holds : w.Holds (lastOf target rows))
      : (if 0 < w.head ∧ w.win.length ≤ w.head * 2 then winCompact w else w).Holds
          (lastOf target rows) := by
    split
    next => exact holds.compact
    next => exact holds
  have counts := holds.counts
  rw [winTrimTo]
  split
  next few => rwa [lastOf_of_le (counts ▸ few)]
  next many =>
    refine slides _ ?_
    have both : rows.flatten = (rows.take (w.lines - target)).flatten
        ++ (rows.drop (w.lines - target)).flatten := by
      rw [← List.flatten_append, List.take_append_drop]
    have size : w.win.length - w.head = rows.flatten.length := by
      rw [← holds.live, List.length_drop]
    have dropped : (rows.take (w.lines - target)).flatten.count NEWLINE = w.lines - target := by
      rw [count_rows fun row member => holds.ended row (List.mem_of_mem_take member),
        List.length_take]
      omega
    rw [winSkip_eq, holds.live, upTo_rows holds.ended]
    refine ⟨?_, ?_, ?_, fun row member => holds.ended row (mem_of_mem_lastOf member)⟩
    · change w.head + (rows.take (w.lines - target)).flatten.length ≤ w.win.length
      rw [both, List.length_append] at size
      have inside := holds.inside
      omega
    · change w.win.drop (w.head + (rows.take (w.lines - target)).flatten.length) = _
      rw [← List.drop_drop, holds.live, both, List.drop_left, lastOf, counts]
    · change w.lines - (rows.take (w.lines - target)).flatten.count NEWLINE = _
      rw [dropped, lastOf_length]
      omega

-- The loop

/-- What `tail` keeps of the bytes that it has read: the last lines among the complete ones, and the
line that is not complete yet.
-/
structure TailState.Sound (want : Nat) (s : TailState) (all : Bytes) : Prop where
  rows : ∃ rows, s.window.Holds (lastOf want rows) ∧ (∀ row ∈ rows, Ended row)
    ∧ all = rows.flatten ++ s.part
  inside : NEWLINE ∉ s.part

theorem partPush_sound {want : Nat} {s : TailState} {all : Bytes} (sound : s.Sound want all)
    (c : UInt8)
    : (partPush want s c).Sound want (all ++ [c]) := by
  obtain ⟨⟨rows, holds, ended, same⟩, inside⟩ := sound
  rw [partPush]
  split
  next newline =>
    have row : Ended (s.part ++ [c]) := ⟨s.part, by rw [newline], inside⟩
    refine ⟨⟨rows ++ [s.part ++ [c]], ?_, ?_, ?_⟩, List.not_mem_nil⟩
    · have kept := (holds.append row).trimTo want
      rwa [lastOf_lastOf_concat] at kept
    · intro other member
      obtain before | here := List.mem_append.mp member
      · exact ended other before
      · rw [List.mem_singleton.mp here]
        exact row
    · rw [same, List.flatten_append, List.flatten_singleton, List.append_nil, List.append_assoc]
  next other =>
    refine ⟨⟨rows, holds, ended, ?_⟩, fun member => ?_⟩
    · rw [same, List.append_assoc]
    · obtain before | here := List.mem_append.mp member
      · exact inside before
      · exact other (List.mem_singleton.mp here).symm

theorem foldl_partPush_sound {want : Nat} {s : TailState} {all : Bytes}
    (sound : s.Sound want all) (bytes : Bytes)
    : (bytes.foldl (partPush want) s).Sound want (all ++ bytes) := by
  induction bytes generalizing s all with
  | nil => rwa [List.append_nil]
  | cons c bytes ih =>
      have rest := ih (partPush_sound sound c)
      rwa [List.append_assoc, List.singleton_append] at rest

theorem tailRead_sound (want : Nat) (chunks : List Bytes)
    : (tailRead want chunks).Sound want chunks.flatten := by
  have empty : TailState.Sound want ⟨⟨[], 0, 0, 0⟩, []⟩ [] := by
    refine ⟨⟨[], ?_, List.forall_mem_nil _, rfl⟩, List.not_mem_nil⟩
    rw [lastOf_of_le (Nat.zero_le want)]
    exact ⟨le_refl 0, rfl, rfl, List.forall_mem_nil _⟩
  rw [tailRead, ← List.foldl_flatten]
  exact foldl_partPush_sound empty chunks.flatten

-- What is offered

/-- The lines that end with a newline, and the one that does not. -/
def endedLines (rows : List Bytes) : List Bytes :=
  rows.filter fun row => row.getLast? == some NEWLINE

def openLines (rows : List Bytes) : List Bytes :=
  rows.filter fun row => row.getLast? != some NEWLINE

/-- The last lines of an input in pieces, the one without a newline on its own. -/
def lastPieces (want : Nat) (input : Bytes) : List Bytes :=
  let rows := lastOf want (splitLines [] input)
  pieces (endedLines rows).flatten ++ pieces (openLines rows).flatten

theorem endedLines_eq {rows : List Bytes} (ended : ∀ row ∈ rows, Ended row)
    : endedLines rows = rows ∧ openLines rows = [] := by
  have last (row : Bytes) (member : row ∈ rows) : row.getLast? = some NEWLINE := by
    obtain ⟨text, rfl, _⟩ := ended row member
    exact List.getLast?_concat
  constructor
  · exact List.filter_eq_self.mpr fun row member => beq_iff_eq.mpr (last row member)
  · refine List.filter_eq_nil_iff.mpr fun row member => ?_
    rw [last row member]
    decide

theorem endedLines_concat {rows : List Bytes} {part : Bytes} (ended : ∀ row ∈ rows, Ended row)
    (inside : NEWLINE ∉ part)
    : endedLines (rows ++ [part]) = rows ∧ openLines (rows ++ [part]) = [part] := by
  obtain ⟨all, none'⟩ := endedLines_eq ended
  have last : part.getLast? ≠ some NEWLINE := fun same => inside (List.mem_of_getLast? same)
  rw [endedLines] at all
  rw [openLines] at none'
  rw [endedLines, openLines, List.filter_append, List.filter_append, all, none']
  constructor
  · rw [List.filter_singleton, beq_eq_false_iff_ne.mpr last]
    exact List.append_nil rows
  · rw [List.filter_singleton, bne_iff_ne.mpr last]
    rfl

theorem pieces_nil : pieces [] = [] := by
  rw [pieces, if_pos rfl]

theorem tail_offers (want : Nat) (chunks : List Bytes)
    : tailOffers want chunks = lastPieces want chunks.flatten := by
  rw [tailOffers]
  split
  next none' =>
    rw [lastPieces, none', lastOf_zero]
    change [] = pieces [] ++ pieces []
    rw [pieces_nil, List.append_nil]
  next some' =>
    obtain ⟨⟨rows, holds, ended, same⟩, inside⟩ := tailRead_sound want chunks
    generalize tailRead want chunks = s at holds same inside
    have front (w : Window) (rows : List Bytes) (holds : w.Holds rows)
        : (if w.head < w.win.length then pieces (w.win.drop w.head) else [])
          = pieces rows.flatten := by
      split
      next => rw [holds.live]
      next none' =>
        rw [← holds.live, List.drop_eq_nil_of_le (Nat.not_lt.mp none'), pieces_nil]
    have lines : splitLines [] chunks.flatten = rows ++ if s.part = [] then [] else [s.part] := by
      rw [same, splitLines_rows ended, splitLines_open inside, List.nil_append]
    have kept (count : Nat) (row : Bytes) (member : row ∈ lastOf count rows) : Ended row :=
      ended row (mem_of_mem_lastOf member)
    simp only [lastPieces, lines]
    by_cases empty : s.part = []
    · obtain ⟨all, none'⟩ := endedLines_eq (kept want)
      have short : ¬0 < s.part.length := by
        rw [empty]
        exact Nat.lt_irrefl 0
      rw [if_neg short, if_neg short, front _ _ (holds.trimTo want), lastOf_lastOf (le_refl want),
        if_pos empty, List.append_nil rows, all, none', List.flatten_nil, pieces_nil]
    · have long := List.length_pos_of_ne_nil empty
      obtain ⟨all, none'⟩ := endedLines_concat (kept (want - 1)) inside
      have rows' : lastOf want (rows ++ [s.part]) = lastOf (want - 1) rows ++ [s.part] := by
        rw [← lastOf_concat, Nat.sub_add_cancel (Nat.pos_of_ne_zero some')]
      rw [if_pos long, if_pos long, front _ _ (holds.trimTo (want - 1)),
        lastOf_lastOf (Nat.sub_le want 1), if_neg empty, rows', all, none', List.flatten_singleton]

theorem lastPieces_flatten (want : Nat) (input : Bytes)
    : (lastPieces want input).flatten = lastLines want input := by
  obtain ⟨rows, part, rfl, ended, inside⟩ := exists_rows input
  have lines : splitLines [] (rows.flatten ++ part) = rows ++ if part = [] then [] else [part] := by
    rw [splitLines_rows ended, splitLines_open inside, List.nil_append]
  rw [lastPieces, lastLines, lines, List.flatten_append, pieces_flatten, pieces_flatten]
  by_cases empty : part = []
  · obtain ⟨all, none'⟩ := @endedLines_eq (lastOf want rows)
      fun row member => ended row (mem_of_mem_lastOf member)
    rw [if_pos empty, List.append_nil rows, all, none', List.flatten_nil, List.append_nil]
  · rw [if_neg empty]
    cases want with
    | zero =>
        rw [lastOf_zero]
        rfl
    | succ want =>
        obtain ⟨all, none'⟩ := @endedLines_concat (lastOf want rows) _
          (fun row member => ended row (mem_of_mem_lastOf member)) inside
        rw [lastOf_concat, all, none', List.flatten_append]

/-- An out stream of `head` or `tail` ends up with the lines exactly if it takes all of every write
to it: of the chunks up to the end of the first lines, and of the pieces of the last lines.
-/
theorem head_tail_deliver_iff (count : Nat) (onlyOut0 : Bool) (outs : List OutStream) (in0 : Reads)
    : ((∀ bytes ∈ head count onlyOut0 outs in0, bytes = firstLines count in0.input)
        ↔ ∀ out ∈ written onlyOut0 outs,
          out.TakesAll 0 (cutOff (firstLines count in0.input).length in0.chunks))
      ∧ ((∀ bytes ∈ tail count onlyOut0 outs in0, bytes = lastLines count in0.input)
        ↔ ∀ out ∈ written onlyOut0 outs, out.TakesAll 0 (lastPieces count in0.input)) := by
  have front : (cutOff (firstLines count in0.input).length in0.chunks).flatten
      = firstLines count in0.input := by
    rw [cutOff_flatten]
    exact (List.prefix_iff_eq_take.mp (firstLines_take count in0.input)).symm
  constructor
  · rw [head, List.forall_mem_map]
    refine forall₂_congr fun out _ => ?_
    rw [head_offers, ← out.delivered_eq_iff, front]
  · rw [tail, List.forall_mem_map]
    refine forall₂_congr fun out _ => ?_
    rw [tail_offers, ← out.delivered_eq_iff, lastPieces_flatten]
    rfl

/-- Neither `head` nor `tail` writes the rest of a line that a stream takes the first byte of. -/
theorem head_tail_lose_rest
    : ¬((∀ bytes ∈ head 1 false [oneByte] ⟨[[97, 10]], by decide, by decide⟩,
          bytes = firstLines 1 [97, 10])
        ∧ ∀ bytes ∈ tail 1 false [oneByte] ⟨[[97, 10]], by decide, by decide⟩,
          bytes = lastLines 1 [97, 10]) := by
  decide +kernel

end Panuti.Pcrutils
