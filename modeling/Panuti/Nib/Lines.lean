import Panuti.Library.Blocks
import Panuti.Library.Outcome

/-! The lines of nib: `line_t` and the functions on one line. An `int` is an integer, since no
length of a line that is kept goes beyond `LINE_LEN_MAX`.
-/

namespace Panuti.Nib

open Library

-- Memory

/-- What goes wrong in an access: there is no string, or no such byte or line. -/
inductive Fault where
  | null
  | outside
deriving Repr, DecidableEq

/-- What `realloc` and `malloc` answer to a request, with what the new room has in it. -/
abbrev Grant := Option (Nat → UInt8)

/-- `line_t`. The string is its whole block. -/
structure Line where
  string : Option (List UInt8)
  len : Int
  cap : Int
deriving Repr, DecidableEq

def intMax : Int := 2147483647

def lineLenMax : Int := intMax - 8

/-- The bytes of a string from an offset on, as `memcpy` and `memmove` read them. -/
def Line.bytes (l : Line) (start count : Int) : Except Fault (List UInt8) :=
  if count = 0 then .ok []
  else
    match l.string with
    | none => .error .null
    | some block =>
        match readAt block start count with
        | none => .error .outside
        | some bytes => .ok bytes

/-- Bytes are written into a string from an offset on. -/
def Line.store (l : Line) (start : Int) (bytes : List UInt8) : Except Fault Line :=
  if bytes = [] then .ok l
  else
    match l.string with
    | none => .error .null
    | some block =>
        match writeAt block start bytes with
        | none => .error .outside
        | some written => .ok { l with string := some written }

-- One line

def lineInit : Line := ⟨none, 0, 0⟩

/-- The loop of `line_reserve`, where doubling passes `INT_MAX / 2` in fewer turns than these. -/
def growCap (cap : Int) : Nat → Int → Int
  | 0, _ => cap
  | turns + 1, ncap =>
      if ncap < cap then
        if intMax / 2 < ncap then cap else growCap cap turns (ncap * 2)
      else ncap

/-- `line_reserve`, with nothing for `false`. -/
def lineReserve (grant : Grant) (l : Line) (cap : Int) : Option Line :=
  if cap < 0 then none
  else if cap ≤ l.cap then some l
  else
    let ncap := growCap cap 32 (if l.cap = 0 then 16 else l.cap)
    grant.map (fun fresh =>
      { l with
        string := some ((l.string.getD [] ++ (List.range ncap.toNat).map fresh).take ncap.toNat)
        cap := ncap })

def Line.terminate (l : Line) (len : Int) : Except Fault Line := do
  let l ← l.store len [0]
  return { l with len := len }

/-- `line_set`, with whether it was done. -/
def lineSet (grant : Grant) (l : Line) (str : List UInt8) : Except Fault (Bool × Line) :=
  if lineLenMax < str.length then .ok (false, l)
  else
    match lineReserve grant l (str.length + 1) with
    | none => .ok (false, l)
    | some l => do
        let l ← l.store 0 str
        let l ← l.terminate str.length
        return (true, l)

-- Lines that are in order

/-- A line has no string and no length, or a block as large as its capacity in which its bytes and
the terminator behind them are.
-/
structure Line.Ok (l : Line) : Prop where
  len : 0 ≤ l.len ∧ l.len ≤ lineLenMax
  block : (l.string = none ∧ l.len = 0 ∧ l.cap = 0)
    ∨ ∃ block, l.string = some block ∧ (block.length : Int) = l.cap ∧ l.len < l.cap
      ∧ block[l.len.toNat]? = some 0

def Line.Room (l : Line) (room : Int) : Prop :=
  ∃ block, l.string = some block ∧ (block.length : Int) = l.cap ∧ room ≤ l.cap

/-- A computation has a value, and it satisfies a condition. -/
abbrev Safe {α : Type} (holds : α → Prop) (result : Except Fault α) : Prop :=
  Settles (fun _ => False) holds result

theorem Line.Ok.init : lineInit.Ok :=
  ⟨by decide, Or.inl ⟨rfl, rfl, rfl⟩⟩

variable {l : Line}

theorem Line.Room.store {room start : Int} (has : l.Room room) (bytes : List UInt8)
    (positive : 0 ≤ start) (inside : start + bytes.length ≤ room)
    : Safe (fun later => later.Room room ∧ later.len = l.len ∧ later.cap = l.cap)
        (l.store start bytes) := by
  obtain ⟨block, string, length, le⟩ := has
  rw [Line.store]
  split
  · exact ⟨⟨block, string, length, le⟩, rfl, rfl⟩
  · obtain ⟨written, ran, same⟩ := exists_writeAt block bytes positive (by omega)
    rw [string]
    simp only [ran]
    exact ⟨⟨written, rfl, by rw [same]; exact length, le⟩, rfl, rfl⟩

theorem Line.Room.terminate (len : Int) (has : l.Room (len + 1)) (positive : 0 ≤ len)
    (short : len ≤ lineLenMax)
    : Safe (fun later => later.Ok ∧ later.len = len ∧ later.cap = l.cap
        ∧ later.string ≠ none) (l.terminate len) := by
  obtain ⟨block, string, length, le⟩ := has
  obtain ⟨written, ran, same⟩ := exists_writeAt block [0] positive
    (by simp only [List.length_singleton]; omega)
  rw [Line.terminate, Line.store, if_neg (by simp), string]
  simp only [ran]
  refine ⟨⟨⟨positive, short⟩, Or.inr ⟨written, rfl, ?_, ?_, getElem?_writeAt_single ran⟩⟩, rfl,
    rfl, by simp⟩
  · rw [same]
    exact length
  · change len < l.cap
    omega

-- What the functions on a line leave

theorem le_growCap (cap : Int) (turns : Nat) (ncap : Int) : cap ≤ growCap cap turns ncap := by
  induction turns generalizing ncap with
  | zero => exact Int.le_refl _
  | succ turns ih =>
      rw [growCap]
      split
      · split
        · exact Int.le_refl _
        · exact ih _
      · omega

theorem Line.Ok.reserve {later : Line} (ok : l.Ok) {grant : Grant} {cap : Int} (positive : 0 < cap)
    (ran : lineReserve grant l cap = some later)
    : later.Room cap ∧ later.len = l.len := by
  rw [lineReserve, if_neg (by omega)] at ran
  split at ran
  next large =>
    cases ran
    rcases ok.block with ⟨-, -, none⟩ | ⟨block, string, length, -⟩
    · omega
    · exact ⟨⟨block, string, length, large⟩, rfl⟩
  next =>
    obtain ⟨fresh, -, rfl⟩ := Option.map_eq_some_iff.mp ran
    have large := le_growCap cap 32 (if l.cap = 0 then 16 else l.cap)
    generalize growCap cap 32 (if l.cap = 0 then 16 else l.cap) = ncap at large
    refine ⟨⟨_, rfl, ?_, large⟩, rfl⟩
    rw [List.length_take, List.length_append, List.length_map, List.length_range]
    change ((min ncap.toNat (_ + ncap.toNat) : Nat) : Int) = ncap
    omega

theorem Line.Ok.set (ok : l.Ok) (grant : Grant) (str : List UInt8)
    : Safe (fun made => made.2.Ok ∧ (made.1 = true → made.2.len = (str.length : Int)
          ∧ made.2.string ≠ none) ∧ (made.1 = false → made.2 = l))
        (lineSet grant l str) := by
  rw [lineSet]
  split
  · exact ⟨ok, nofun, fun _ => rfl⟩
  next short =>
    split
    · exact ⟨ok, nofun, fun _ => rfl⟩
    next grown reserved =>
      obtain ⟨room, -⟩ := ok.reserve (by omega) reserved
      apply (room.store str (Int.le_refl 0) (by omega)).bind
      rintro one ⟨room, -⟩
      apply (Line.Room.terminate _ room (Int.natCast_nonneg _) (by omega)).bind
      rintro two ⟨okLater, len, -, string⟩
      exact ⟨okLater, fun _ => ⟨len, string⟩, nofun⟩

end Panuti.Nib
