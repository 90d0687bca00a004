import Mathlib.Algebra.Group.Prod
import Mathlib.Data.ZMod.Basic

/-! `conway`: its boards, the game on them, and how they are read and written. -/

namespace Panuti.Conway

def LIFE_W : Nat := 80
def LIFE_H : Nat := 24
def LIFE_CELLS : Nat := LIFE_W * LIFE_H

abbrev Board := Nat → UInt8

/-- The characters that stand for a live cell: `#`, `*`, `O`, `o`, `X`, `x` and `1`. -/
def lifeIsAlive (c : UInt8) : Bool := c ∈ [35, 42, 79, 111, 88, 120, 49]

def lifeCount (board : Board) : Nat :=
  (List.range LIFE_CELLS).countP fun i => board i != 0

/-- `dy` and `dx`, without the cell itself. -/
def AROUND : List (Int × Int) :=
  [(-1, -1), (-1, 0), (-1, 1), (0, -1), (0, 1), (1, -1), (1, 0), (1, 1)]

def neighbours (board : Board) (x y : Nat) : Nat :=
  AROUND.countP fun d =>
    let nx := ((x : Int) + d.2 + LIFE_W) % LIFE_W
    let ny := ((y : Int) + d.1 + LIFE_H) % LIFE_H
    board (ny * LIFE_W + nx).toNat != 0

/-- The cell that `life_step` writes. -/
def lifeCell (board : Board) (x y : Nat) : UInt8 :=
  let n := neighbours board x y
  let live := if board (y * LIFE_W + x) != 0 then n == 2 || n == 3 else n == 3
  if live then 1 else 0

/-- `life_step`: the next board, and how many cells of it are alive. -/
def lifeStep (board next : Board) : Board × Nat :=
  (List.range LIFE_H).foldl (fun state y =>
    (List.range LIFE_W).foldl (fun state x =>
      (Function.update state.1 (y * LIFE_W + x) (lifeCell board x y),
        state.2 + (lifeCell board x y).toNat)) state) (next, 0)

/-- The loop of `life_parse`. -/
def parseLoop (board : Board) (x y : Nat) : List UInt8 → Board
  | [] => board
  | c :: data =>
      if c = 13 then parseLoop board x y data
      else if c = 10 then
        if LIFE_H ≤ y + 1 then board else parseLoop board 0 (y + 1) data
      else
        let board :=
          if y < LIFE_H ∧ x < LIFE_W then
            Function.update board (y * LIFE_W + x) (if lifeIsAlive c then 1 else 0)
          else board
        parseLoop board (x + 1) y data

def lifeParse (data : List UInt8) : Board := parseLoop (fun _ => 0) 0 0 data

def lifeFormat (board : Board) : List UInt8 :=
  (List.range LIFE_H).flatMap fun y =>
    (List.range LIFE_W).map (fun x => if board (y * LIFE_W + x) ≠ 0 then 35 else 46) ++ [10]

/-- The loop of `main` after some turns: `cur`, `next` and `alive`. -/
def generations (cur next : Board) : Nat → Board × Board × Nat
  | 0 => (cur, next, lifeCount cur)
  | turns + 1 =>
      let before := generations cur next turns
      let step := lifeStep before.1 before.2.1
      (step.1, step.1, step.2)

-- The game, on any cells that can be added

section Game

variable {Cell : Type} [AddCommGroup Cell]

/-- A generation: a cell is born with three live neighbours and stays alive with two or three. -/
def evolve (around : List Cell) (alive : Cell → Bool) (cell : Cell) : Bool :=
  let n := around.countP fun d => alive (cell + d)
  if alive cell then n == 2 || n == 3 else n == 3

def shifted (by' : Cell) (alive : Cell → Bool) (cell : Cell) : Bool := alive (cell + by')

/-- What is shifted goes on as it would, shifted. -/
theorem evolve_shifted (around : List Cell) (by' : Cell) (turns : Nat) (alive : Cell → Bool)
    : (evolve around)^[turns] (shifted by' alive)
      = shifted by' ((evolve around)^[turns] alive) := by
  induction turns generalizing alive with
  | zero => rfl
  | succ turns ih =>
      rw [Function.iterate_succ_apply, Function.iterate_succ_apply, ← ih]
      congr 1
      funext cell
      simp only [evolve, shifted, add_right_comm]

end Game

-- The board is a torus

abbrev Torus := ZMod 24 × ZMod 80

def around : List Torus := AROUND.map fun d => (d.1, d.2)

/-- Whether the cell of a row and a column is alive. -/
def view (board : Board) (cell : Torus) : Bool := board (cell.1.val * LIFE_W + cell.2.val) != 0

variable {board next : Board} {x y : Nat}

/-- A place is reached from another one by going around, where the board ends. -/
theorem wrap_eq {n : Nat} [NeZero n] (place : ZMod n) (d : Int)
    : ((place.val : Int) + d + n) % n = (place + d : ZMod n).val := by
  rw [← ZMod.val_intCast]
  push_cast
  rw [ZMod.natCast_zmod_val, ZMod.natCast_self, add_zero]

/-- The neighbours of a cell are those on the torus. -/
theorem neighbours_eq (board : Board) (cell : Torus)
    : neighbours board cell.2.val cell.1.val = around.countP fun d => view board (cell + d) := by
  rw [neighbours, around, List.countP_map]
  refine List.countP_congr fun d _ => ?_
  have column := wrap_eq cell.2 d.2
  have row := wrap_eq cell.1 d.1
  simp only [LIFE_W, LIFE_H, Function.comp, view, Prod.fst_add, Prod.snd_add] at column row ⊢
  rw [column, row]
  norm_cast

theorem lifeCell_eq (board : Board) (cell : Torus)
    : (lifeCell board cell.2.val cell.1.val != 0) = evolve around (view board) cell := by
  have bit (live : Bool) : ((if live then 1 else 0 : UInt8) != 0) = live := by cases live <;> rfl
  simp only [lifeCell, bit, neighbours_eq]
  rfl

-- A step

/-- The cell of a place of the array. -/
def cellAt (board : Board) (i : Nat) : UInt8 := lifeCell board (i % LIFE_W) (i / LIFE_W)

/-- What the loops of `life_step` have come to before this place. -/
def stepped (board next : Board) (k : Nat) : Board × Nat :=
  (fun i => if i < k then cellAt board i else next i,
    (List.range k).countP fun i => cellAt board i != 0)

theorem stepped_succ (board next : Board) (inRow : x < LIFE_W)
    : (Function.update (stepped board next (y * LIFE_W + x)).1 (y * LIFE_W + x)
          (lifeCell board x y),
        (stepped board next (y * LIFE_W + x)).2 + (lifeCell board x y).toNat)
      = stepped board next (y * LIFE_W + x + 1) := by
  have here : cellAt board (y * LIFE_W + x) = lifeCell board x y := by
    rw [cellAt, Nat.mul_add_mod_self_right, Nat.mod_eq_of_lt inRow, Nat.mul_comm,
      Nat.mul_add_div (Nat.zero_lt_of_lt inRow), Nat.div_eq_of_lt inRow, Nat.add_zero]
  have bit : (lifeCell board x y).toNat = if lifeCell board x y != 0 then 1 else 0 := by
    obtain ⟨live, same⟩ : ∃ live : Bool, lifeCell board x y = if live then 1 else 0 := ⟨_, rfl⟩
    rw [same]
    cases live <;> rfl
  refine Prod.ext (funext fun i => ?_) ?_
  · dsimp only
    by_cases same : i = y * LIFE_W + x
    · rw [same, Function.update_self, ← here]
      exact (if_pos (Nat.lt_succ_self _)).symm
    · have before : i < y * LIFE_W + x + 1 ↔ i < y * LIFE_W + x := by omega
      rw [Function.update_of_ne same]
      simp only [stepped, before]
  · dsimp only [stepped]
    rw [List.range_succ, List.countP_append, List.countP_singleton, here, bit]

theorem lifeStep_eq (board next : Board) : lifeStep board next = stepped board next LIFE_CELLS := by
  have row (y x : Nat) (inRow : x ≤ LIFE_W)
      : (List.range x).foldl (fun state x =>
          (Function.update state.1 (y * LIFE_W + x) (lifeCell board x y),
            state.2 + (lifeCell board x y).toNat)) (stepped board next (y * LIFE_W))
        = stepped board next (y * LIFE_W + x) := by
    induction x with
    | zero => rfl
    | succ x ih =>
        rw [List.range_succ, List.foldl_append, ih (Nat.le_of_succ_le inRow), List.foldl_cons,
          List.foldl_nil, stepped_succ board next inRow, Nat.add_assoc]
  have rows (y : Nat)
      : (List.range y).foldl (fun state y =>
          (List.range LIFE_W).foldl (fun state x =>
            (Function.update state.1 (y * LIFE_W + x) (lifeCell board x y),
              state.2 + (lifeCell board x y).toNat)) state) (next, 0)
        = stepped board next (y * LIFE_W) := by
    induction y with
    | zero =>
        have start : stepped board next 0 = (next, 0) := by simp [stepped]
        rw [Nat.zero_mul, start]
        rfl
    | succ y ih =>
        rw [List.range_succ, List.foldl_append, ih, List.foldl_cons, List.foldl_nil,
          row y LIFE_W (Nat.le_refl _), Nat.succ_mul]
  rw [lifeStep, rows, LIFE_CELLS, Nat.mul_comm]

theorem view_step (board next : Board)
    : view (lifeStep board next).1 = evolve around (view board) := by
  funext cell
  have inRow : cell.2.val < LIFE_W := ZMod.val_lt cell.2
  have inBoard : cell.1.val < LIFE_H := ZMod.val_lt cell.1
  have inside : cell.1.val * LIFE_W + cell.2.val < LIFE_CELLS := by
    simp only [LIFE_W, LIFE_H, LIFE_CELLS] at *
    omega
  rw [← lifeCell_eq, view, lifeStep_eq, stepped]
  dsimp only
  rw [if_pos inside, cellAt, Nat.mul_add_mod_self_right, Nat.mod_eq_of_lt inRow, Nat.mul_comm,
    Nat.mul_add_div (Nat.zero_lt_of_lt inRow), Nat.div_eq_of_lt inRow, Nat.add_zero]

theorem stepped_count (board next : Board) (k : Nat)
    : (stepped board next k).2
      = (List.range k).countP fun i => (stepped board next k).1 i != 0 := by
  refine List.countP_congr fun i inside => ?_
  simp only [stepped, if_pos (List.mem_range.mp inside)]

theorem count_step (board next : Board)
    : (lifeStep board next).2 = lifeCount (lifeStep board next).1 := by
  rw [lifeStep_eq, lifeCount, stepped_count]

/-- The loop of `main` plays the game on the torus, and says how many cells are alive. -/
theorem generations_eq (cur next : Board) (turns : Nat)
    : view (generations cur next turns).1 = (evolve around)^[turns] (view cur)
      ∧ (generations cur next turns).2.2 = lifeCount (generations cur next turns).1 := by
  induction turns with
  | zero =>
      rw [generations]
      dsimp only
      exact ⟨rfl, rfl⟩
  | succ turns ih =>
      rw [Function.iterate_succ_apply', ← ih.1, generations]
      dsimp only
      exact ⟨view_step _ _, by rw [count_step]⟩

-- The text of a board

/-- What the loop of `life_parse` has read of a text up to this place. -/
def readUpTo (board : Board) (k : Nat) : Board := fun i => if i < k ∧ board i ≠ 0 then 1 else 0

theorem readUpTo_succ (board : Board) (k : Nat)
    : Function.update (readUpTo board k) k (if board k ≠ 0 then 1 else 0)
      = readUpTo board (k + 1) := by
  funext i
  by_cases same : i = k
  · simp [readUpTo, same]
  · have before : i < k + 1 ↔ i < k := by omega
    rw [Function.update_of_ne same]
    simp only [readUpTo, before]

theorem parseLoop_row (board : Board) (inBoard : y < LIFE_H) (rest : List UInt8) {n : Nat}
    (whole : x + n = LIFE_W)
    : parseLoop (readUpTo board (y * LIFE_W + x)) x y
        ((List.range' x n).map (fun x => if board (y * LIFE_W + x) ≠ 0 then 35 else 46) ++ rest)
      = parseLoop (readUpTo board ((y + 1) * LIFE_W)) LIFE_W y rest := by
  induction n generalizing x with
  | zero =>
      obtain rfl : x = LIFE_W := whole
      rw [List.range'_zero, List.map_nil, List.nil_append, Nat.succ_mul]
  | succ n ih =>
      have inRow : x < LIFE_W := by omega
      rw [← ih (show x + 1 + n = LIFE_W by omega), ← Nat.add_assoc, ← readUpTo_succ,
        List.range'_succ, List.map_cons, List.cons_append]
      by_cases alive : board (y * LIFE_W + x) = 0
      · rw [if_neg (not_not.mpr alive), if_neg (not_not.mpr alive), parseLoop, if_neg (by decide),
          if_neg (by decide), if_pos ⟨inBoard, inRow⟩]
        rfl
      · rw [if_pos alive, if_pos alive, parseLoop, if_neg (by decide), if_neg (by decide),
          if_pos ⟨inBoard, inRow⟩]
        rfl

/-- What was written of a board reads as the board. -/
theorem lifeParse_format (board : Board)
    : lifeParse (lifeFormat board) = readUpTo board LIFE_CELLS := by
  have rows (n y : Nat) (whole : y + n = LIFE_H)
      : parseLoop (readUpTo board (y * LIFE_W)) 0 y ((List.range' y n).flatMap fun y =>
          (List.range LIFE_W).map (fun x => if board (y * LIFE_W + x) ≠ 0 then 35 else 46) ++ [10])
        = readUpTo board LIFE_CELLS := by
    induction n generalizing y with
    | zero =>
        obtain rfl : y = LIFE_H := whole
        rw [LIFE_CELLS, Nat.mul_comm LIFE_W]
        rfl
    | succ n ih =>
        have row := fun rest => @parseLoop_row 0 y board (by omega) rest LIFE_W (Nat.zero_add _)
        rw [Nat.add_zero, ← List.range_eq_range'] at row
        rw [List.range'_succ, List.flatMap_cons, List.append_assoc, row, List.singleton_append,
          parseLoop, if_neg (by decide), if_pos rfl]
        split
        next last =>
          have ends : y + 1 = LIFE_H := by omega
          rw [ends, LIFE_CELLS, Nat.mul_comm LIFE_W]
        next => exact ih (y + 1) (by omega)
  rw [lifeParse, lifeFormat, List.range_eq_range', ← rows LIFE_H 0 (Nat.zero_add _), Nat.zero_mul]
  congr 1

theorem view_parse_format (board : Board) : view (lifeParse (lifeFormat board)) = view board := by
  funext cell
  have inside : cell.1.val * LIFE_W + cell.2.val < LIFE_CELLS := by
    have inRow := ZMod.val_lt cell.2
    have inBoard := ZMod.val_lt cell.1
    simp only [LIFE_W, LIFE_H, LIFE_CELLS] at *
    omega
  rw [lifeParse_format, view, view, readUpTo]
  by_cases dead : board (cell.1.val * LIFE_W + cell.2.val) = 0
  · simp [dead]
  · simp [dead, inside]

/-- The turns of `main` are generations of the game on a torus, and `alive` is the number of live
cells. A board that is saved after any of them and read again goes on as it would have, and one that
is another one shifted stays so.
-/
theorem conway_plays (cur next : Board) (turns : Nat)
    : view (generations cur next turns).1 = (evolve around)^[turns] (view cur)
      ∧ (generations cur next turns).2.2 = lifeCount (generations cur next turns).1
      ∧ (∀ (more : Nat) (again : Board),
          view (generations (lifeParse (lifeFormat (generations cur next turns).1)) again more).1
            = view (generations cur next (turns + more)).1)
      ∧ ∀ (other again : Board) (by' : Torus), view other = shifted by' (view cur)
          → view (generations other again turns).1
            = shifted by' (view (generations cur next turns).1) := by
  obtain ⟨plays, counts⟩ := generations_eq cur next turns
  refine ⟨plays, counts, fun more again => ?_, fun other again by' same => ?_⟩
  · rw [(generations_eq _ again more).1, view_parse_format, plays,
      (generations_eq cur next (turns + more)).1, Nat.add_comm, Function.iterate_add_apply]
  · rw [(generations_eq other again turns).1, same, evolve_shifted, plays]

end Panuti.Conway
