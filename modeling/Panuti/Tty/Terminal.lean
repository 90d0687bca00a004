import Mathlib.Data.UInt
import Panuti.Library.Outcome

/-! The terminal on the text screen. Bytes move a cursor and store cells. Every store, and every
read of a scroll, is checked here against the size of the screen buffer, so that a run without a
fault is one in which each of them hit a cell.
-/

namespace Panuti.Tty

open Library

abbrev Bytes := List UInt8

def VGA_WIDTH : Nat := 80

def VGA_HEIGHT : Nat := 25

def ESC_BYTE : UInt8 := 0x1B

def VGA_COLOR_BLACK : UInt8 := 0

def VGA_COLOR_LIGHT_GREY : UInt8 := 7

/-- `esc_state_t`: how far an escape sequence has come. -/
inductive EscState where
  | idle
  | escPrefix
  | mColumn
  | mRow
  | aAttr
  | vArg
  | wArg
deriving Repr, DecidableEq

/-- The terminal, the cells of its screen buffer and the registers of the display controller. -/
structure Terminal where
  row : Nat
  column : Nat
  color : UInt8
  buffer : Nat → UInt16
  escState : EscState
  escColumn : UInt8
  scrollWrap : Bool
  crt : UInt8 → UInt8

inductive Fault where
  | outside (index : Nat)
deriving Repr, DecidableEq

def vgaEntryColor (fg bg : UInt8) : UInt8 := fg ||| bg <<< 4

def vgaEntry (uc color : UInt8) : UInt16 := uc.toUInt16 ||| color.toUInt16 <<< 8

def Terminal.load (t : Terminal) (index : Nat) : Except Fault UInt16 :=
  if index < VGA_WIDTH * VGA_HEIGHT then .ok (t.buffer index) else .error (.outside index)

def Terminal.store (t : Terminal) (index : Nat) (entry : UInt16) : Except Fault Terminal :=
  if index < VGA_WIDTH * VGA_HEIGHT then
    .ok { t with buffer := Function.update t.buffer index entry }
  else .error (.outside index)

/-- The two `outb`s that write a register of the display controller. -/
def Terminal.outb (t : Terminal) (index data : UInt8) : Terminal :=
  { t with crt := Function.update t.crt index data }

-- The functions of the terminal

def terminalUpdateCursor (t : Terminal) : Terminal :=
  let pos := t.row * VGA_WIDTH + t.column
  (t.outb 0x0E (UInt8.ofNat ((pos >>> 8) &&& 0xFF))).outb 0x0F (UInt8.ofNat (pos &&& 0xFF))

/-- The loop that stores blanks, in `terminal_initialize` and `terminal_clear`. -/
def clearCells (t : Terminal) : Except Fault Terminal :=
  (List.range VGA_HEIGHT).foldlM (fun t y =>
    (List.range VGA_WIDTH).foldlM (fun t x =>
      t.store (y * VGA_WIDTH + x) (vgaEntry 32 t.color)) t) t

def terminalInitialize (t : Terminal) : Except Fault Terminal := do
  let t ← clearCells { t with
    row := 0
    column := 0
    color := vgaEntryColor VGA_COLOR_LIGHT_GREY VGA_COLOR_BLACK
    scrollWrap := true
    escState := .idle }
  return terminalUpdateCursor ((t.outb 0x0A 0x00).outb 0x0B 0x0F)

def terminalPutentryat (t : Terminal) (c color : UInt8) (x y : Nat) : Except Fault Terminal :=
  t.store (y * VGA_WIDTH + x) (vgaEntry c color)

def terminalScroll (t : Terminal) : Except Fault Terminal := do
  let t ← (List.range' 1 (VGA_HEIGHT - 1)).foldlM (fun t y =>
    (List.range VGA_WIDTH).foldlM (fun t x => do
      let entry ← t.load (y * VGA_WIDTH + x)
      t.store ((y - 1) * VGA_WIDTH + x) entry) t) t
  let t ← (List.range VGA_WIDTH).foldlM (fun t x =>
    t.store ((VGA_HEIGHT - 1) * VGA_WIDTH + x) (vgaEntry 32 t.color)) t
  return { t with row := VGA_HEIGHT - 1 }

def terminalClear (t : Terminal) : Except Fault Terminal := do
  let t ← clearCells t
  return terminalUpdateCursor { t with row := 0, column := 0 }

def terminalAdvanceRow (t : Terminal) : Except Fault Terminal :=
  let t := { t with row := t.row + 1 }
  if t.row = VGA_HEIGHT then do
    let t ← if t.scrollWrap then terminalScroll t else .ok t
    return { t with row := VGA_HEIGHT - 1 }
  else .ok t

def terminalWrapOrStick (t : Terminal) : Except Fault Terminal :=
  if t.scrollWrap then terminalAdvanceRow { t with column := 0 }
  else .ok { t with column := VGA_WIDTH - 1 }

/-- Storing a character at the cursor and moving on: what the branches for tabs and for printable
bytes of `terminal_putchar` do with a character.
-/
def putAtCursor (t : Terminal) (c : UInt8) : Except Fault Terminal := do
  let t ← terminalPutentryat t c t.color t.column t.row
  let t := { t with column := t.column + 1 }
  if t.column = VGA_WIDTH then terminalWrapOrStick t else return t

def terminalCursorSetvisible (t : Terminal) (visible : Bool) : Terminal :=
  let t := t.outb 0x0A (if visible then 0x00 else 0x20)
  terminalUpdateCursor (if visible then t.outb 0x0B 0x0F else t)

def terminalEscape (t : Terminal) (byte : UInt8) : Terminal :=
  match t.escState with
  | .escPrefix =>
      if byte = 77 then { t with escState := .mColumn }
      else if byte = 65 then { t with escState := .aAttr }
      else if byte = 86 then { t with escState := .vArg }
      else if byte = 87 then { t with escState := .wArg }
      else if byte = 82 then
        let t := { t with
          color := vgaEntryColor VGA_COLOR_LIGHT_GREY VGA_COLOR_BLACK
          scrollWrap := true }
        { terminalCursorSetvisible t true with escState := .idle }
      else if byte = ESC_BYTE then t
      else { t with escState := .idle }
  | .mColumn => { t with escColumn := byte, escState := .mRow }
  | .mRow =>
      let x := if VGA_WIDTH ≤ t.escColumn.toNat then VGA_WIDTH - 1 else t.escColumn.toNat
      let y := if VGA_HEIGHT ≤ byte.toNat then VGA_HEIGHT - 1 else byte.toNat
      terminalUpdateCursor { t with column := x, row := y, escState := .idle }
  | .aAttr => { t with color := byte, escState := .idle }
  | .vArg =>
      { terminalCursorSetvisible t (byte ≠ 48 ∧ byte ≠ 0) with escState := .idle }
  | .wArg => { t with scrollWrap := byte ≠ 48 ∧ byte ≠ 0, escState := .idle }
  | .idle => t

/-- The branches of `terminal_putchar` for a byte that is no part of an escape sequence, in front of
the update of the cursor. A bell sounds and leaves the terminal alone.
-/
def putPlain (t : Terminal) (c : UInt8) : Except Fault Terminal :=
  if c = 10 then terminalAdvanceRow { t with column := 0 }
  else if c = 12 then terminalClear t
  else if c = 13 then .ok { t with column := 0 }
  else if c = 9 then
    (List.range (4 - t.column % 4)).foldlM (fun t _ => putAtCursor t 32) t
  else if c = 8 then
    if 0 < t.column then .ok { t with column := t.column - 1 }
    else if 0 < t.row then .ok { t with row := t.row - 1, column := VGA_WIDTH - 1 }
    else .ok t
  else if c = 7 then .ok t
  else if c < 0x20 ∨ c = 0x7F then .ok t
  else putAtCursor t c

def terminalPutchar (t : Terminal) (c : UInt8) : Except Fault Terminal :=
  if t.escState ≠ .idle then .ok (terminalEscape t c)
  else if c = ESC_BYTE then .ok { t with escState := .escPrefix }
  else do
    let t ← putPlain t c
    return terminalUpdateCursor t

def terminalWrite (t : Terminal) (data : Bytes) : Except Fault Terminal :=
  data.foldlM terminalPutchar t

-- On the screen

/-- The place the display controller shows the cursor at. -/
def Terminal.shown (t : Terminal) : Nat := 2 ^ 8 * (t.crt 0x0E).toNat + (t.crt 0x0F).toNat

def OnScreen (t : Terminal) : Prop := t.row < VGA_HEIGHT ∧ t.column < VGA_WIDTH

/-- The cursor is on the screen, and shown where it is. -/
structure Inside (t : Terminal) : Prop where
  onScreen : OnScreen t
  shown : t.shown = t.row * VGA_WIDTH + t.column

/-- A computation has no fault, and its terminal satisfies a condition. -/
abbrev Safe (holds : Terminal → Prop) (result : Except Fault Terminal) : Prop :=
  Settles (fun _ => False) holds result

def SameBut (t u : Terminal) : Prop := u = { t with buffer := u.buffer }

variable {t : Terminal}

theorem store_safe {index : Nat} (inside : index < VGA_WIDTH * VGA_HEIGHT) (entry : UInt16)
    : Safe (SameBut t) (t.store index entry) := by
  rw [Terminal.store, if_pos inside]
  exact rfl

theorem SameBut.refl (t : Terminal) : SameBut t t := rfl

theorem SameBut.trans {u v : Terminal} (one : SameBut t u) (two : SameBut u v) : SameBut t v := by
  rw [SameBut] at one two ⊢
  rw [two, one]

theorem cell_lt {x y : Nat} (column : x < VGA_WIDTH) (row : y < VGA_HEIGHT)
    : y * VGA_WIDTH + x < VGA_WIDTH * VGA_HEIGHT := by
  rw [VGA_WIDTH] at column ⊢
  rw [VGA_HEIGHT] at row ⊢
  omega

theorem left_lt : 0 < VGA_WIDTH := by decide

theorem right_lt : VGA_WIDTH - 1 < VGA_WIDTH := by decide

theorem top_lt : 0 < VGA_HEIGHT := by decide

theorem bottom_lt : VGA_HEIGHT - 1 < VGA_HEIGHT := by decide

theorem fold_safe {turn : Terminal → Nat → Except Fault Terminal} {places : List Nat}
    (safe : ∀ t, ∀ place ∈ places, Safe (SameBut t) (turn t place)) (t : Terminal)
    : Safe (SameBut t) (places.foldlM turn t) := by
  refine Settles.foldlM (fun _ u => SameBut t u) (.refl t) fun _ place u among same => ?_
  exact (safe u place among).mono (fun _ => id) fun v other => same.trans other

theorem clearCells_safe (t : Terminal) : Safe (SameBut t) (clearCells t) := by
  refine fold_safe (fun t y row => fold_safe (fun t x column => ?_) t) t
  exact store_safe (cell_lt (List.mem_range.mp column) (List.mem_range.mp row)) _

theorem terminalScroll_safe (t : Terminal)
    : Safe (fun u => u.row = VGA_HEIGHT - 1 ∧ u.column = t.column) (terminalScroll t) := by
  refine (fold_safe (fun t y row => fold_safe (fun t x column => ?_) t) t).bind fun u same => ?_
  · obtain ⟨first, last⟩ := List.mem_range'_1.mp row
    have below : y < VGA_HEIGHT := by
      rw [VGA_HEIGHT] at last ⊢
      omega
    have inside := cell_lt (List.mem_range.mp column) below
    rw [Terminal.load, if_pos inside]
    exact store_safe (cell_lt (List.mem_range.mp column) (by omega)) _
  · refine (fold_safe (fun t x column => ?_) u).bind fun v sameToo => ?_
    · exact store_safe (cell_lt (List.mem_range.mp column) (by decide)) _
    · refine ⟨rfl, ?_⟩
      have all := same.trans sameToo
      rw [SameBut] at all
      rw [all]

theorem terminalAdvanceRow_safe (inside : OnScreen t) : Safe OnScreen (terminalAdvanceRow t) := by
  obtain ⟨row, column⟩ := inside
  rw [terminalAdvanceRow]
  dsimp only
  split
  next last =>
      split
      next =>
          refine (terminalScroll_safe _).bind fun u same => ?_
          exact ⟨bottom_lt, same.2.trans_lt column⟩
      next => exact ⟨bottom_lt, column⟩
  next more => exact ⟨Nat.lt_of_le_of_ne row more, column⟩

theorem terminalWrapOrStick_safe (row : t.row < VGA_HEIGHT)
    : Safe OnScreen (terminalWrapOrStick t) := by
  rw [terminalWrapOrStick]
  split
  next => exact terminalAdvanceRow_safe ⟨row, left_lt⟩
  next => exact ⟨row, right_lt⟩

theorem putAtCursor_safe (inside : OnScreen t) (c : UInt8) : Safe OnScreen (putAtCursor t c) := by
  refine (store_safe (cell_lt inside.2 inside.1) _).bind fun u same => ?_
  have row : u.row = t.row := by rw [same]
  have column : u.column = t.column := by rw [same]
  dsimp only
  split
  next => exact terminalWrapOrStick_safe (row ▸ inside.1)
  next more =>
      rw [column] at more
      exact ⟨row ▸ inside.1, column ▸ Nat.lt_of_le_of_ne inside.2 more⟩

theorem terminalUpdateCursor_inside (onScreen : OnScreen t) : Inside (terminalUpdateCursor t) := by
  refine ⟨onScreen, ?_⟩
  have small := cell_lt onScreen.2 onScreen.1
  have high : (terminalUpdateCursor t).crt 0x0E
      = UInt8.ofNat (((t.row * VGA_WIDTH + t.column) >>> 8) &&& 0xFF) := rfl
  have low : (terminalUpdateCursor t).crt 0x0F
      = UInt8.ofNat ((t.row * VGA_WIDTH + t.column) &&& 0xFF) := rfl
  have place : (terminalUpdateCursor t).row * VGA_WIDTH + (terminalUpdateCursor t).column
      = t.row * VGA_WIDTH + t.column := rfl
  rw [Terminal.shown, high, low, place]
  generalize t.row * VGA_WIDTH + t.column = pos at small ⊢
  rw [UInt8.toNat_ofNat', UInt8.toNat_ofNat', (by decide : (0xFF : Nat) = 2 ^ 8 - 1),
    Nat.and_two_pow_sub_one_eq_mod, Nat.and_two_pow_sub_one_eq_mod, Nat.shiftRight_eq_div_pow]
  rw [VGA_WIDTH, VGA_HEIGHT] at small
  omega

theorem terminalClear_safe (t : Terminal) : Safe OnScreen (terminalClear t) :=
  (clearCells_safe t).bind fun _ _ =>
    (terminalUpdateCursor_inside ⟨top_lt, left_lt⟩).onScreen

theorem putPlain_safe (inside : OnScreen t) (c : UInt8) : Safe OnScreen (putPlain t c) := by
  rw [putPlain]
  split
  next => exact terminalAdvanceRow_safe ⟨inside.1, left_lt⟩
  split
  next => exact terminalClear_safe t
  split
  next => exact ⟨inside.1, left_lt⟩
  split
  next =>
      exact Settles.foldlM (fun _ u => OnScreen u) inside fun _ u _ _ on => putAtCursor_safe on 32
  split
  next =>
      split
      next => exact ⟨inside.1, Nat.lt_of_le_of_lt (Nat.sub_le ..) inside.2⟩
      next =>
          split
          next => exact ⟨Nat.lt_of_le_of_lt (Nat.sub_le ..) inside.1, right_lt⟩
          next => exact inside
  split
  next => exact inside
  split
  next => exact inside
  next => exact putAtCursor_safe inside c

theorem terminalCursorSetvisible_inside (onScreen : OnScreen t) (visible : Bool)
    : Inside (terminalCursorSetvisible t visible) := by
  cases visible
  · exact terminalUpdateCursor_inside onScreen
  · exact terminalUpdateCursor_inside onScreen

theorem terminalEscape_inside (inside : Inside t) (byte : UInt8)
    : Inside (terminalEscape t byte) := by
  have kept {u : Terminal} (row : u.row = t.row) (column : u.column = t.column)
      (crt : u.crt = t.crt) : Inside u := by
    refine ⟨⟨row ▸ inside.onScreen.1, column ▸ inside.onScreen.2⟩, ?_⟩
    rw [Terminal.shown, crt, row, column]
    exact inside.shown
  rw [terminalEscape]
  cases t.escState with
  | idle => exact inside
  | escPrefix =>
      dsimp only
      split
      next => exact kept rfl rfl rfl
      split
      next => exact kept rfl rfl rfl
      split
      next => exact kept rfl rfl rfl
      split
      next => exact kept rfl rfl rfl
      split
      next =>
          obtain ⟨onScreen, shown⟩ := terminalCursorSetvisible_inside inside.onScreen true
          exact ⟨onScreen, shown⟩
      split
      next => exact inside
      next => exact kept rfl rfl rfl
  | mColumn => exact kept rfl rfl rfl
  | mRow =>
      refine terminalUpdateCursor_inside ⟨?_, ?_⟩
      · dsimp only
        split
        next => exact bottom_lt
        next small => exact Nat.lt_of_not_le small
      · dsimp only
        split
        next => exact right_lt
        next small => exact Nat.lt_of_not_le small
  | aAttr => exact kept rfl rfl rfl
  | vArg =>
      obtain ⟨onScreen, shown⟩ := terminalCursorSetvisible_inside inside.onScreen
        (byte ≠ 48 ∧ byte ≠ 0)
      exact ⟨onScreen, shown⟩
  | wArg => exact kept rfl rfl rfl

theorem terminalPutchar_safe (inside : Inside t) (c : UInt8)
    : Safe Inside (terminalPutchar t c) := by
  rw [terminalPutchar]
  split
  next => exact terminalEscape_inside inside c
  split
  next => exact ⟨inside.onScreen, inside.shown⟩
  next =>
      exact (putPlain_safe inside.onScreen c).bind fun u onScreen =>
        terminalUpdateCursor_inside onScreen

theorem terminalInitialize_safe (t : Terminal) : Safe Inside (terminalInitialize t) := by
  refine (clearCells_safe _).bind fun u same => ?_
  rw [SameBut] at same
  rw [same]
  exact terminalUpdateCursor_inside ⟨top_lt, left_lt⟩

theorem terminalWrite_safe (inside : Inside t) (data : Bytes)
    : Safe Inside (terminalWrite t data) :=
  Settles.foldlM (fun _ u => Inside u) inside fun _ c _ _ now => terminalPutchar_safe now c

/-- Whatever is written behind the initialisation, and wherever it is stopped: every access to the
screen buffer hits a cell, and the cursor is on the screen, and shown where it is.
-/
theorem terminal_stays_on_screen (old : Terminal) (data : Bytes)
    : ∃ start t, terminalInitialize old = .ok start
        ∧ terminalWrite start data = .ok t
        ∧ t.row < VGA_HEIGHT ∧ t.column < VGA_WIDTH
        ∧ t.shown = t.row * VGA_WIDTH + t.column := by
  obtain ⟨start, begun, inside⟩ := (terminalInitialize_safe old).exists_value fun _ _ => id
  obtain ⟨t, written, ⟨row, column⟩, shown⟩ :=
    (terminalWrite_safe inside data).exists_value fun _ _ => id
  exact ⟨start, t, begun, written, row, column, shown⟩

end Panuti.Tty
