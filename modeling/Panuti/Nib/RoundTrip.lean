import Mathlib.Data.List.Forall2
import Panuti.Nib.Editing

/-! What nib saves of a file that it has just loaded. A buffer stands for the lines of the file and
whether the last one is ended, and saving puts the file together again. The size of the file,
however, is what `stat` reports of it, in 32 bits.
-/

namespace Panuti.Nib

open Library

-- Loading

/-- What the reads of a file answer: an error, or how many they read of what is wanted and is left
in the file.
-/
structure Reader where
  answer : (turn wanted : Nat) → Option Nat
  bounded : ∀ turn wanted, ∀ n ∈ answer turn wanted, n ≤ wanted

/-- The loop of `load` that reads the file, with nothing where it gives up. -/
def readLoop (reader : Reader) (contents : List UInt8) (size turn : Nat) (data : List UInt8)
    : Option (List UInt8) :=
  if data.length < size then
    match _read : reader.answer turn
        (min (size - data.length) (contents.length - data.length)) with
    | none => none
    | some 0 => none
    | some (n + 1) =>
        readLoop reader contents size (turn + 1)
          (data ++ (contents.drop data.length).take (n + 1))
  else some data
termination_by size - data.length
decreasing_by
  have few := reader.bounded _ _ _ _read
  rw [List.length_append, List.length_take, List.length_drop]
  omega

/-- `load` of a file that is there: the size that `stat` reports is the length of the file in 32
bits, and the largest of them leaves no room for a terminator.
-/
def loadFile (heap : Heap) (reader : Reader) (contents : List UInt8) (e : Editor)
    : Except Fault (Bool × Editor) :=
  let size := contents.length % 2 ^ 32
  if size = 2 ^ 32 - 1 then .ok (false, e.ask)
  else
    match readLoop reader contents size 0 [] with
    | none => .ok (false, e.ask.ask)
    | some data => load heap (some data) e

-- Saving

/-- The bytes that the loop of `save` hands to `write_all`, one after the other. -/
def savedBytes (trailingNl : Bool) : List Line → Except Fault (List UInt8)
  | [] => .ok []
  | l :: rest => do
      let text ← (if 0 < l.len then l.bytes 0 l.len else .ok [])
      let newline := if rest ≠ [] ∨ trailingNl then [0x0A] else []
      let more ← savedBytes trailingNl rest
      return text ++ newline ++ more

-- Lines of a text

/-- The lines of a text, with what came of the first one before. -/
def linesOf (current : List UInt8) : List UInt8 → List (List UInt8)
  | [] => if current = [] then [] else [current]
  | c :: data =>
      if c = 0x0A then current :: linesOf [] data else linesOf (current ++ [c]) data

/-- Lines with newlines between them, and behind the last one if it is ended. -/
def joined (trailingNl : Bool) : List (List UInt8) → List UInt8
  | [] => []
  | text :: rest =>
      text ++ (if rest ≠ [] ∨ trailingNl then [0x0A] else []) ++ joined trailingNl rest

variable {current data block written values : List UInt8} {later : Editor} {heap : Heap}

theorem linesOf_ne_nil (some' : current ≠ [] ∨ data ≠ []) : linesOf current data ≠ [] := by
  induction data generalizing current with
  | nil =>
      rw [linesOf, if_neg (some'.resolve_right fun other => other rfl)]
      exact List.cons_ne_nil _ _
  | cons c data ih =>
      rw [linesOf]
      split
      · exact List.cons_ne_nil _ _
      · exact ih (.inl (by simp))

theorem joined_linesOf (current data : List UInt8)
    : joined (data.getLast? = some 0x0A) (linesOf current data) = current ++ data := by
  induction data generalizing current with
  | nil =>
      rw [linesOf, List.append_nil]
      split
      next none' => rw [joined, none']
      next => simp [joined]
  | cons c data ih =>
      have last (some' : data ≠ []) : (c :: data).getLast? = data.getLast? :=
        List.getLast?_cons_of_ne_nil some'
      rw [linesOf]
      by_cases newline : c = 0x0A
      · subst newline
        rw [if_pos rfl, joined]
        by_cases none' : data = []
        · subst none'
          simp [linesOf, joined]
        · rw [if_pos (.inl (linesOf_ne_nil (.inr none'))), last none', ih [], List.nil_append,
            List.append_assoc, List.singleton_append]
      · rw [if_neg newline]
        by_cases none' : data = []
        · subst none'
          have plain : ((c :: ([] : List UInt8)).getLast? = some 0x0A) = False := by simp [newline]
          simp [linesOf, joined, newline]
        · rw [last none', ih, List.append_assoc, List.singleton_append]

-- What a line reads

def Line.Reads (l : Line) (text : List UInt8) : Prop :=
  l.len = text.length ∧ l.bytes 0 l.len = .ok text

theorem take_writeAt {start : Int} {count : Nat} (ran : writeAt block start values = some written)
    (before : (count : Int) ≤ start)
    : written.take count = block.take count := by
  rw [writeAt] at ran
  split at ran
  next inside =>
    cases ran
    have short : count ≤ (block.take start.toNat).length := by
      rw [List.length_take]
      omega
    rw [List.take_append_of_le_length short, List.take_take, Nat.min_eq_left (by omega)]
  next => cases ran

theorem writeAt_take (ran : writeAt block 0 values = some written)
    : written.take values.length = values := by
  rw [writeAt] at ran
  split at ran
  next =>
    cases ran
    simp
  next => cases ran

/-- A line that is set reads what it was set to. -/
theorem lineSet_reads {grant : Grant} {l later : Line} {str : List UInt8}
    (ran : lineSet grant l str = .ok (true, later))
    : later.Reads str := by
  rw [lineSet] at ran
  split at ran
  · cases ran
  split at ran
  · cases ran
  next grown reserved =>
    obtain ⟨one, stored, ran⟩ := bind_eq_ok ran
    obtain ⟨two, ended, ran⟩ := bind_eq_ok ran
    obtain rfl : two = later := by cases ran; rfl
    rw [Line.terminate] at ended
    obtain ⟨three, terminated, ran⟩ := bind_eq_ok ended
    obtain rfl : { three with len := (str.length : Int) } = two := by cases ran; rfl
    refine ⟨rfl, ?_⟩
    rw [Line.bytes]
    split
    next none' => rw [List.length_eq_zero_iff.mp (Int.natCast_eq_zero.mp none')]
    next some' =>
      have positive : str ≠ [] := by
        rintro rfl
        exact some' rfl
      rw [Line.store, if_neg positive] at stored
      rw [Line.store, if_neg (List.cons_ne_nil _ _)] at terminated
      split at stored
      · cases stored
      split at stored
      · cases stored
      next block written =>
        cases stored
        dsimp only at terminated
        split at terminated
        · cases terminated
        next ended' =>
          cases terminated
          dsimp only
          have text := (take_writeAt ended' (Int.le_refl _)).trans (writeAt_take written)
          have short := congrArg List.length text
          rw [List.length_take] at short
          rw [readAt, if_pos (by omega)]
          dsimp only
          rw [Int.toNat_zero, List.drop_zero, Int.toNat_natCast, text]

/-- A line is added behind the others. -/
theorem addLine_reads {e : Editor} (tidy : e.Tidy) {str : List UInt8}
    (ran : addLine heap str e = .ok (true, later))
    : ∃ l, later.lines = e.lines ++ [l] ∧ l.Reads str := by
  rw [addLine] at ran
  rcases lineNewAt_cases heap e.nlines tidy with ⟨asked, made⟩ | ⟨place, capl, asked, made, at', -⟩
  · rw [made] at ran
    cases ran
  · obtain rfl : place = e.nlines := by
      have count : 0 ≤ e.nlines := Int.natCast_nonneg _
      omega
    rw [made] at ran
    have place : e.nlines.toNat = e.lines.length := Int.toNat_natCast _
    have behind : e.lines.insertIdx e.lines.length lineInit = e.lines ++ [lineInit] := by
      rw [List.insertIdx_length_self]
    dsimp only at ran
    rw [place, behind] at ran
    obtain ⟨l, -, ran⟩ := bind_eq_ok ran
    obtain ⟨⟨done, set⟩, wrote, ran⟩ := bind_eq_ok ran
    cases done with
    | false => cases ran
    | true =>
        cases ran
        refine ⟨set, ?_, lineSet_reads wrote⟩
        rw [Editor.ask, Editor.setLine]
        dsimp only
        rw [place]
        simp

/-- The loop of `load` adds the lines of the data. -/
theorem loadLoop_reads {e : Editor} (tidy : e.Tidy)
    (ran : loadLoop heap data current e = .ok (true, later))
    : ∃ added, later.lines = e.lines ++ added
        ∧ List.Forall₂ Line.Reads added (linesOf current data) := by
  induction data generalizing current e with
  | nil =>
      rw [loadLoop] at ran
      rw [linesOf]
      split at ran
      next none' =>
        cases ran
        rw [if_pos none']
        exact ⟨[], (List.append_nil _).symm, .nil⟩
      next some' =>
        rw [if_neg some']
        split at ran
        · cases ran
        · obtain ⟨l, lines, reads⟩ := addLine_reads tidy ran
          exact ⟨[l], lines, .cons reads .nil⟩
  | cons c data ih =>
      rw [loadLoop] at ran
      rw [linesOf]
      split at ran
      next newline =>
        rw [if_pos newline]
        split at ran
        · cases ran
        obtain ⟨⟨done, middle⟩, added, ran⟩ := bind_eq_ok ran
        cases done with
        | false => cases ran
        | true =>
            have tidyLater := ((tidy.addLine heap current).value added).1
            obtain ⟨l, lines, reads⟩ := addLine_reads tidy added
            obtain ⟨more, all, readsToo⟩ := ih tidyLater ran
            refine ⟨l :: more, ?_, .cons reads readsToo⟩
            rw [all, lines, List.append_assoc, List.singleton_append]
      next other =>
        rw [if_neg other]
        exact ih tidy ran

theorem savedBytes_eq {lines : List Line} {texts : List (List UInt8)}
    (reads : List.Forall₂ Line.Reads lines texts) (trailingNl : Bool)
    : savedBytes trailingNl lines = .ok (joined trailingNl texts) := by
  induction reads with
  | nil => rfl
  | @cons l text lines texts one rest ih =>
      have same : (if 0 < l.len then l.bytes 0 l.len else .ok []) = .ok text := by
        obtain ⟨len, bytes⟩ := one
        split
        · exact bytes
        · have none' : text = [] := List.length_eq_zero_iff.mp (by omega)
          rw [none']
      have more : lines ≠ [] ↔ texts ≠ [] := by
        cases rest with
        | nil => simp
        | cons => simp
      rw [savedBytes, same, ih, joined]
      simp only [more]
      rfl

theorem Editor.Tidy.start : Editor.start.Tidy :=
  ⟨nofun, Int.le_refl 0, Line.Ok.init, Line.Ok.init⟩

theorem load_savedBytes (ran : load heap (some data) Editor.start = .ok (true, later))
    : savedBytes later.trailingNl later.lines = .ok data := by
  rw [load] at ran
  dsimp only at ran
  split at ran
  · cases ran
  obtain ⟨⟨done, middle⟩, looped, ran⟩ := bind_eq_ok ran
  cases done with
  | false => cases ran
  | true =>
      have tidy := ((loadLoop_tidy heap data [] _ Editor.Tidy.start.ask.ask).value looped).1
      obtain ⟨added, lines, reads⟩ := loadLoop_reads Editor.Tidy.start.ask.ask looped
      obtain rfl : middle.lines = added := lines
      obtain ⟨⟨done, last⟩, ended, ran⟩ := bind_eq_ok ran
      obtain ⟨rfl, rfl⟩ : done = true
          ∧ { last with trailingNl := decide (data.getLast? = some 0x0A) } = later := by
        cases ran
        exact ⟨rfl, rfl⟩
      dsimp only
      have whole := joined_linesOf [] data
      rw [List.nil_append] at whole
      split at ended
      next none' =>
        -- a file without lines is a single line without bytes
        rw [none'] at reads
        have empty : data = [] := by
          by_contra some'
          exact linesOf_ne_nil (.inr some') (List.forall₂_nil_left_iff.mp reads)
        obtain ⟨l, all, one⟩ := addLine_reads tidy ended
        rw [all, none', List.nil_append, savedBytes_eq (.cons one .nil), empty]
        rfl
      next =>
        cases ended
        rw [savedBytes_eq reads, whole]

-- Files

theorem readLoop_eq {reader : Reader} {contents : List UInt8} {size turn : Nat} {later : List UInt8}
    (inside : size ≤ contents.length) (soFar : data = contents.take data.length)
    (small : data.length ≤ size) (ran : readLoop reader contents size turn data = some later)
    : later = contents.take size := by
  fun_induction readLoop reader contents size turn data with
  | case1 => cases ran
  | case2 => cases ran
  | case3 turn data more n read ih =>
      have few := reader.bounded _ _ _ read
      have length : (data ++ (contents.drop data.length).take (n + 1)).length
          = data.length + (n + 1) := by
        rw [List.length_append, List.length_take, List.length_drop]
        omega
      refine ih ?_ (by omega) ran
      rw [length, List.take_add (i := data.length), ← soFar]
  | case4 turn data more =>
      cases ran
      rw [soFar, (by omega : later.length = size)]

/-- A file that is loaded is saved as it was just if its length fits 32 bits. -/
theorem saved_eq_iff {heap : Heap} {reader : Reader} {contents : List UInt8} {later : Editor}
    (loaded : loadFile heap reader contents Editor.start = .ok (true, later))
    : savedBytes later.trailingNl later.lines = .ok contents ↔ contents.length < 2 ^ 32 := by
  have inside : contents.length % 2 ^ 32 ≤ contents.length := Nat.mod_le ..
  rw [loadFile] at loaded
  split at loaded
  · cases loaded
  split at loaded
  · cases loaded
  next data read =>
    obtain rfl := readLoop_eq inside rfl (Nat.zero_le _) read
    rw [load_savedBytes loaded]
    constructor
    · intro same
      have length := congrArg List.length (Except.ok.inj same)
      rw [List.length_take] at length
      omega
    · intro fits
      rw [Nat.mod_eq_of_lt fits, List.take_length]

/-- What has room for everything, and reads that read all that is wanted. -/
def ample : Heap := fun _ => some fun _ => 0

def wholeReads : Reader := ⟨fun _ wanted => some wanted, by simp⟩

/-- A file of a newline and a zero is saved as it was. -/
theorem saved_eq_two
    : ∃ later, loadFile ample wholeReads [0x0A, 0] Editor.start = .ok (true, later)
        ∧ savedBytes later.trailingNl later.lines = .ok [0x0A, 0] := by
  have read : readLoop wholeReads [0x0A, 0] 2 0 [] = some [0x0A, 0] := by
    rw [readLoop, if_pos (by decide)]
    change readLoop wholeReads [0x0A, 0] 2 1 [0x0A, 0] = _
    rw [readLoop, if_neg (by decide)]
  have loaded : ∃ later, loadFile ample wholeReads [0x0A, 0] Editor.start = .ok (true, later) := by
    have same : loadFile ample wholeReads [0x0A, 0] Editor.start
        = load ample (some [0x0A, 0]) Editor.start := by
      rw [loadFile, if_neg (by decide)]
      change (match readLoop wholeReads [0x0A, 0] 2 0 [] with | none => _ | some data => _) = _
      rw [read]
    rw [same]
    exact ⟨_, rfl⟩
  obtain ⟨later, loaded⟩ := loaded
  exact ⟨later, loaded, (saved_eq_iff loaded).mpr (by decide)⟩

/-- A file of which the length is 0 in 32 bits is loaded as an empty one. -/
theorem saved_empty
    : ¬ ∀ (heap : Heap) (reader : Reader) (contents : List UInt8) (later : Editor),
        loadFile heap reader contents Editor.start = .ok (true, later)
        → savedBytes later.trailingNl later.lines = .ok contents := by
  intro always
  have size : (List.replicate (2 ^ 32) (0 : UInt8)).length % 2 ^ 32 = 0 := by
    rw [List.length_replicate, Nat.mod_self]
  have loaded : ∃ later, loadFile ample wholeReads (List.replicate (2 ^ 32) 0) Editor.start
      = .ok (true, later) := by
    rw [loadFile, size, if_neg (by decide), readLoop, if_neg (by decide)]
    exact ⟨_, rfl⟩
  obtain ⟨later, loaded⟩ := loaded
  have fits := (saved_eq_iff loaded).mp (always _ _ _ _ loaded)
  rw [List.length_replicate] at fits
  exact Nat.lt_irrefl _ fits

end Panuti.Nib
