import Panuti.Nib.Editor

/-! What the operations on the buffer keep: every line in order, and room for the lines. -/

namespace Panuti.Nib

open Library

-- The buffer

/-- The lines are in order, and there is room for them. -/
structure Editor.Tidy (e : Editor) : Prop where
  lines : ∀ l ∈ e.lines, l.Ok
  capl : e.nlines ≤ e.capl
  errormsg : e.errormsg.Ok
  command : e.command.Ok

variable {e : Editor}

theorem Editor.Tidy.line (tidy : e.Tidy) {y : Int} (positive : 0 ≤ y) (less : y < e.nlines)
    : Safe (fun l => l.Ok ∧ e.lines[y.toNat]? = some l) (e.line y) := by
  have inside : y.toNat < e.lines.length := by
    rw [Editor.nlines] at less
    omega
  rw [Editor.line, if_neg (by omega), List.getElem?_eq_getElem inside]
  exact ⟨tidy.lines _ (List.getElem_mem inside), rfl⟩

theorem Editor.Tidy.setLine (tidy : e.Tidy) (y : Int) {l : Line} (ok : l.Ok)
    : (e.setLine y l).Tidy := by
  refine ⟨?_, ?_, tidy.errormsg, tidy.command⟩
  · intro other member
    rcases List.mem_or_eq_of_mem_set member with member | rfl
    · exact tidy.lines other member
    · exact ok
  · have := tidy.capl
    simpa [Editor.setLine, Editor.nlines] using this

@[simp]
theorem Editor.nlines_setLine (e : Editor) (y : Int) (l : Line)
    : (e.setLine y l).nlines = e.nlines := by
  simp [Editor.setLine, Editor.nlines]

@[simp]
theorem Editor.nlines_ask (e : Editor) : e.ask.nlines = e.nlines := rfl

theorem Editor.Tidy.ask (tidy : e.Tidy) : e.ask.Tidy :=
  ⟨tidy.lines, tidy.capl, tidy.errormsg, tidy.command⟩

theorem Editor.Tidy.sub (tidy : e.Tidy) {lines : List Line} (among : ∀ l ∈ lines, l ∈ e.lines)
    (fewer : lines.length ≤ e.lines.length)
    : ({ e with lines := lines } : Editor).Tidy := by
  refine ⟨fun l member => tidy.lines l (among l member), ?_, tidy.errormsg, tidy.command⟩
  have := tidy.capl
  simp only [Editor.nlines] at this ⊢
  omega

-- New lines and deleted ones

theorem growCapl_lt {capl ncap : Int} (positive : 0 ≤ capl) (grown : growCapl capl = some ncap)
    : capl < ncap := by
  rw [growCapl] at grown
  obtain ⟨asked, small⟩ := Option.filter_eq_some_iff.mp grown
  have small : ncap ≤ intMax / 12 := of_decide_eq_true small
  split at asked
  next zero =>
    cases asked
    omega
  split at asked
  next large =>
    split at asked
    · cases asked
    · cases asked
      exact absurd small (by decide)
  next =>
    cases asked
    omega

theorem lineNewAt_cases (heap : Heap) (place : Int) (tidy : e.Tidy)
    : (∃ asked, lineNewAt heap place e = (none, { e with asked := asked }))
      ∨ ∃ made capl asked, lineNewAt heap place e
          = (some made, { e with
              lines := e.lines.insertIdx made.toNat lineInit, capl := capl, asked := asked })
        ∧ made = min (max place 0) e.nlines ∧ e.nlines + 1 ≤ capl := by
  have count : 0 ≤ e.nlines := Int.natCast_nonneg _
  have clamped (n : Int) (positive : 0 ≤ n)
      : (if n < (if place < 0 then 0 else place) then n else if place < 0 then 0 else place)
        = min (max place 0) n := by
    split <;> split <;> omega
  have grown : (∃ asked, growLines heap e = (false, { e with asked := asked }))
      ∨ ∃ capl asked, growLines heap e = (true, { e with capl := capl, asked := asked })
        ∧ e.nlines + 1 ≤ capl := by
    have fits := tidy.capl
    rw [growLines]
    split
    next room => exact Or.inr ⟨e.capl, e.asked, rfl, by omega⟩
    next full =>
      split
      · exact Or.inl ⟨e.asked, rfl⟩
      next ncap more =>
        have := growCapl_lt (by omega) more
        split
        · exact Or.inl ⟨e.asked + 1, rfl⟩
        · exact Or.inr ⟨ncap, e.asked + 1, rfl, by omega⟩
  rw [lineNewAt]
  rcases grown with ⟨asked, grown⟩ | ⟨capl, asked, grown, room⟩
  · rw [grown]
    exact Or.inl ⟨asked, rfl⟩
  · rw [grown]
    refine Or.inr ⟨_, capl, asked, rfl, ?_, room⟩
    exact clamped e.nlines count

/-- The buffer with a new line. -/
theorem Editor.Tidy.insert {e : Editor} (tidy : e.Tidy) {made capl : Int} {asked : Nat}
    (low : 0 ≤ made) (high : made ≤ e.nlines) (room : e.nlines + 1 ≤ capl)
    : ({ e with
          lines := e.lines.insertIdx made.toNat lineInit, capl := capl, asked := asked }
        : Editor).Tidy
      ∧ (({ e with
          lines := e.lines.insertIdx made.toNat lineInit, capl := capl, asked := asked }
        : Editor).nlines = e.nlines + 1) := by
  have inside : made.toNat ≤ e.lines.length := by
    rw [Editor.nlines] at high
    omega
  have count : ((e.lines.insertIdx made.toNat lineInit).length : Int) = e.nlines + 1 := by
    rw [List.length_insertIdx_of_le_length inside, Editor.nlines]
    omega
  refine ⟨⟨?_, ?_, tidy.errormsg, tidy.command⟩, count⟩
  · intro l member
    rcases (List.mem_insertIdx inside).mp member with rfl | member
    · exact Line.Ok.init
    · exact tidy.lines l member
  · change ((e.lines.insertIdx made.toNat lineInit).length : Int) ≤ capl
    omega

theorem lineDeleteAt_of_mem {place : Int} (low : 0 ≤ place) (high : place < e.nlines)
    : lineDeleteAt place e = { e with lines := e.lines.eraseIdx place.toNat } := by
  rw [lineDeleteAt, if_neg (by omega)]

theorem Editor.Tidy.addLine (tidy : e.Tidy) (heap : Heap) (str : List UInt8)
    : Safe (fun made => made.2.Tidy ∧ (made.1 = true → made.2.nlines = e.nlines + 1)
        ∧ ∃ lines capl asked, made.2
          = { e with lines := lines, capl := capl, asked := asked })
        (addLine heap str e) := by
  rw [Nib.addLine]
  rcases lineNewAt_cases heap e.nlines tidy with ⟨asked, made⟩ | ⟨place, capl, asked, made, at', room⟩
  · rw [made]
    exact ⟨⟨tidy.lines, tidy.capl, tidy.errormsg, tidy.command⟩, nofun, e.lines, e.capl, asked, rfl⟩
  · rw [made]
    have count : 0 ≤ e.nlines := Int.natCast_nonneg _
    obtain ⟨tidyMore, more⟩ := @Editor.Tidy.insert e tidy place capl asked (by omega) (by omega) room
    generalize added : ({ e with
      lines := e.lines.insertIdx place.toNat lineInit, capl := capl, asked := asked } : Editor) = later
      at tidyMore more
    dsimp only
    apply (tidyMore.line (y := place) (by omega) (by omega)).bind
    rintro l ⟨ok, -⟩
    apply (ok.set (heap later.asked) str).bind
    rintro ⟨done, l⟩ ⟨ok, -⟩
    have tidySet := (tidyMore.setLine place ok).ask
    cases done with
    | true =>
        refine ⟨tidySet, fun _ => by simpa using more, ?_⟩
        subst added
        exact ⟨_, _, _, rfl⟩
    | false =>
        dsimp only
        have some : ((later.setLine place l).ask.nlines : Int) = e.nlines + 1 := by
          simpa using more
        rw [if_neg (by simp), lineDeleteAt_of_mem (by omega) (by omega)]
        refine ⟨tidySet.sub (fun _ => List.mem_of_mem_eraseIdx) (List.length_eraseIdx_le _ _),
          nofun, ?_⟩
        subst added
        exact ⟨_, _, _, rfl⟩

-- Loading and saving

/-- Only the lines, their room and the count of requests differ. -/
def SameBut (e later : Editor) : Prop :=
  ∃ lines capl asked, later = { e with lines := lines, capl := capl, asked := asked }

theorem SameBut.trans {middle later : Editor} (one : SameBut e middle) (two : SameBut middle later)
    : SameBut e later := by
  obtain ⟨_, _, _, rfl⟩ := one
  obtain ⟨_, _, _, rfl⟩ := two
  exact ⟨_, _, _, rfl⟩

theorem loadLoop_tidy (heap : Heap) (data : List UInt8)
    : ∀ (current : List UInt8) (e : Editor), e.Tidy
      → Safe (fun made => made.2.Tidy ∧ SameBut e made.2) (loadLoop heap data current e) := by
  induction data with
  | nil =>
      intro current e tidy
      rw [loadLoop]
      split
      · exact ⟨tidy, _, _, _, rfl⟩
      split
      · exact ⟨tidy, _, _, _, rfl⟩
      · exact (tidy.addLine heap current).mono (fun _ => id) (fun _ made => ⟨made.1, made.2.2⟩)
  | cons c data ih =>
      intro current e tidy
      rw [loadLoop]
      split
      · split
        · exact ⟨tidy, _, _, _, rfl⟩
        apply (tidy.addLine heap current).bind
        rintro ⟨done, later⟩ ⟨tidyLater, -, same⟩
        dsimp only
        split
        · apply (ih [] later tidyLater).mono (fun _ => id)
          rintro made ⟨tidyMade, sameMade⟩
          exact ⟨tidyMade, SameBut.trans same sameMade⟩
        · exact ⟨tidyLater, same⟩
      · exact ih _ e tidy

end Panuti.Nib
