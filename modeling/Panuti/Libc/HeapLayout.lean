import Panuti.Libc.Malloc

/-! The block layout of a region: the sequence of blocks its headers describe, where each
block lies, and what it means for headers and free list to describe one layout.
-/

namespace Panuti.Libc

open ByteMemory
open IntrusiveList (Segment)

-- Chunks and their places

structure Chunk where
  size : Nat
  used : Bool
deriving Repr, DecidableEq

/-- A well-formed block holds its header and a link, and keeps every block 8-aligned. -/
def Chunk.Fits (chunk : Chunk) : Prop := HEAP_MIN_BLOCK ≤ chunk.size ∧ chunk.size % 8 = 0

/-- The value of the header's `size` field. -/
def Chunk.header (chunk : Chunk) : Nat := if chunk.used then chunk.size + 1 else chunk.size

def span (chunks : List Chunk) : Nat := (chunks.map Chunk.size).sum

/-- The blocks of a sequence with their addresses, the first one lying at `address`. -/
def placed (address : Nat) : List Chunk → List (Nat × Chunk)
  | [] => []
  | chunk :: rest => (address, chunk) :: placed (address + chunk.size) rest

/-- The addresses of the free blocks, in address order. -/
def freeStarts (address : Nat) (chunks : List Chunk) : List Nat :=
  ((placed address chunks).filter (fun entry => !entry.2.used)).map Prod.fst

/-- The size of the last block, or `previous` when there is none. -/
def lastSize (previous : Nat) : List Chunk → Nat
  | [] => previous
  | chunk :: rest => lastSize chunk.size rest

@[simp] theorem span_nil : span [] = 0 := rfl

@[simp] theorem span_cons (chunk : Chunk) (rest : List Chunk)
    : span (chunk :: rest) = chunk.size + span rest := by
  simp [span]

@[simp] theorem span_append (front back : List Chunk)
    : span (front ++ back) = span front + span back := by
  simp [span]

@[simp] theorem placed_nil (address : Nat) : placed address [] = [] := rfl

@[simp] theorem placed_cons (address : Nat) (chunk : Chunk) (rest : List Chunk)
    : placed address (chunk :: rest)
      = (address, chunk) :: placed (address + chunk.size) rest := rfl

@[simp] theorem placed_append (address : Nat) (front back : List Chunk)
    : placed address (front ++ back)
      = placed address front ++ placed (address + span front) back := by
  induction front generalizing address with
  | nil => simp
  | cons chunk rest ih => simp [ih, Nat.add_assoc]

@[simp] theorem freeStarts_nil (address : Nat) : freeStarts address [] = [] := rfl

theorem freeStarts_cons (address : Nat) (chunk : Chunk) (rest : List Chunk)
    : freeStarts address (chunk :: rest)
      = (if chunk.used then [] else [address])
        ++ freeStarts (address + chunk.size) rest := by
  cases used : chunk.used <;> simp [freeStarts, used]

theorem freeStarts_append (address : Nat) (front back : List Chunk)
    : freeStarts address (front ++ back)
      = freeStarts address front ++ freeStarts (address + span front) back := by
  simp [freeStarts]

@[simp] theorem lastSize_nil (previous : Nat) : lastSize previous [] = previous := rfl

@[simp] theorem lastSize_cons (previous : Nat) (chunk : Chunk) (rest : List Chunk)
    : lastSize previous (chunk :: rest) = lastSize chunk.size rest := rfl

theorem lastSize_append (previous : Nat) (front back : List Chunk)
    : lastSize previous (front ++ back) = lastSize (lastSize previous front) back := by
  induction front generalizing previous with
  | nil => rfl
  | cons chunk rest ih => exact ih chunk.size

variable {address start previous : Nat} {chunks : List Chunk} {chunk : Chunk} {memory : Memory}

theorem mem_freeStarts
    : start ∈ freeStarts address chunks
      ↔ ∃ chunk, (start, chunk) ∈ placed address chunks ∧ chunk.used = false := by
  simp [freeStarts]

-- Separation of the blocks

theorem placed_bounds (member : (start, chunk) ∈ placed address chunks)
    : address ≤ start ∧ start + chunk.size ≤ address + span chunks := by
  induction chunks generalizing address with
  | nil => simp at member
  | cons head rest ih =>
      simp only [placed_cons, List.mem_cons, Prod.mk.injEq] at member
      rcases member with ⟨rfl, rfl⟩ | later
      · simp
      · have bounds := ih later
        simp only [span_cons]
        omega

theorem placed_ends (fits : chunk.Fits) (member : (start, chunk) ∈ placed address chunks)
    : start + 16 ≤ address + span chunks := by
  have bounds := placed_bounds member
  have least := fits.1
  simp only [HEAP_MIN_BLOCK] at least
  omega

theorem mem_of_placed (member : (start, chunk) ∈ placed address chunks) : chunk ∈ chunks := by
  induction chunks generalizing address with
  | nil => simp at member
  | cons head rest ih =>
      simp only [placed_cons, List.mem_cons, Prod.mk.injEq] at member ⊢
      rcases member with ⟨_, same⟩ | later
      · exact Or.inl same
      · exact Or.inr (ih later)

theorem placed_apart {first second : Nat} {one other : Chunk}
    (left : (first, one) ∈ placed address chunks) (right : (second, other) ∈ placed address chunks)
    : (first = second ∧ one = other)
      ∨ first + one.size ≤ second
      ∨ second + other.size ≤ first := by
  induction chunks generalizing address with
  | nil => simp at left
  | cons head rest ih =>
      simp only [placed_cons, List.mem_cons, Prod.mk.injEq] at left right
      rcases left with ⟨rfl, rfl⟩ | left
      · rcases right with ⟨rfl, rfl⟩ | right
        · exact Or.inl ⟨rfl, rfl⟩
        · exact Or.inr (Or.inl (placed_bounds right).1)
      · rcases right with ⟨rfl, rfl⟩ | right
        · exact Or.inr (Or.inr (placed_bounds left).1)
        · exact ih left right

theorem placed_aligned (fits : ∀ chunk ∈ chunks, chunk.Fits) (aligned : address % 8 = 0)
    (member : (start, chunk) ∈ placed address chunks)
    : start % 8 = 0 := by
  induction chunks generalizing address with
  | nil => simp at member
  | cons head rest ih =>
      simp only [placed_cons, List.mem_cons, Prod.mk.injEq] at member
      rcases member with ⟨rfl, _⟩ | later
      · exact aligned
      · have size := (fits head (by simp)).2
        exact ih (fun chunk inside => fits chunk (by simp [inside])) (by omega) later

theorem placed_split (member : (start, chunk) ∈ placed address chunks)
    : ∃ front back, chunks = front ++ chunk :: back ∧ start = address + span front := by
  induction chunks generalizing address with
  | nil => simp at member
  | cons head rest ih =>
      simp only [placed_cons, List.mem_cons, Prod.mk.injEq] at member
      rcases member with ⟨rfl, rfl⟩ | later
      · exact ⟨[], rest, rfl, rfl⟩
      · obtain ⟨front, back, same, place⟩ := ih later
        exact ⟨head :: front, back, by simp [same], by simp only [place, span_cons]; omega⟩

-- Headers in memory

/-- From `address` on, memory holds the headers of exactly these blocks; `previous` is the
size of the block in front of the first one.
-/
def Laid (memory : Memory) : Nat → Nat → List Chunk → Prop
  | _, _, [] => True
  | address, previous, chunk :: rest =>
      memory.word address = chunk.header
      ∧ memory.word (address + 4) = previous
      ∧ Laid memory (address + chunk.size) chunk.size rest

theorem laid_append {front back : List Chunk}
    : Laid memory address previous (front ++ back)
      ↔ Laid memory address previous front
        ∧ Laid memory (address + span front) (lastSize previous front) back := by
  induction front generalizing address previous with
  | nil => simp [Laid]
  | cons chunk rest ih =>
      simp only [List.cons_append, Laid, ih, span_cons, lastSize_cons, Nat.add_assoc,
        and_assoc]

theorem Laid.congr {changed : Memory} (laid : Laid memory address previous chunks)
    (same : ∀ start chunk, (start, chunk) ∈ placed address chunks
      → changed.word start = memory.word start
        ∧ changed.word (start + 4) = memory.word (start + 4))
    : Laid changed address previous chunks := by
  induction chunks generalizing address previous with
  | nil => trivial
  | cons chunk rest ih =>
      obtain ⟨size, back, later⟩ := laid
      obtain ⟨sameSize, sameBack⟩ := same address chunk (by simp)
      refine ⟨sameSize.trans size, sameBack.trans back, ih later ?_⟩
      intro start other member
      exact same start other (by simp [member])

theorem Laid.header (laid : Laid memory address previous chunks)
    (member : (start, chunk) ∈ placed address chunks)
    : memory.word start = chunk.header := by
  obtain ⟨front, back, rfl, rfl⟩ := placed_split member
  exact (laid_append.mp laid).2.1

theorem blockSize_of_header (fits : chunk.Fits) (header : memory.word start = chunk.header)
    : blockSize memory start = chunk.size := by
  have even := fits.2
  simp only [blockSize, header, Chunk.header]
  cases chunk.used <;> simp <;> omega

theorem blockUsed_of_header (fits : chunk.Fits) (header : memory.word start = chunk.header)
    : blockUsed memory start = chunk.used := by
  have even := fits.2
  simp only [blockUsed, header, Chunk.header]
  cases chunk.used <;> simp <;> omega

-- The layout a region's memory describes

def Coalesced : List Chunk → Prop
  | first :: second :: rest =>
      (first.used = true ∨ second.used = true) ∧ Coalesced (second :: rest)
  | _ => True

/-- The region's headers and free list describe exactly the blocks `chunks`. -/
structure Describes (memory : Memory) (region : Region) (chunks : List Chunk) : Prop where
  fits : ∀ chunk ∈ chunks, chunk.Fits
  laid : Laid memory region.base 0 chunks
  carved : region.brk = span chunks
  room : region.brk ≤ region.size
  listed : Segment (flistNext memory) region.flist (freeStarts region.base chunks) 0
  coalesced : Coalesced chunks
  aligned : region.base % 8 = 0
  positive : 0 < region.base
  bounded : region.base + region.size ≤ 0xC0000000

/-- The blocks from `address` up to `limit`, as their headers describe them. -/
def walkBlocks (memory : Memory) (limit : Nat) : Nat → Nat → List Chunk
  | 0, _ => []
  | fuel + 1, address =>
      if address < limit then
        ⟨blockSize memory address, blockUsed memory address⟩
          :: walkBlocks memory limit fuel (address + blockSize memory address)
      else []

def layout (memory : Memory) (region : Region) : List Chunk :=
  walkBlocks memory (region.base + region.brk) region.brk region.base

theorem walkBlocks_eq {fuel : Nat} (fits : ∀ chunk ∈ chunks, chunk.Fits)
    (laid : Laid memory address previous chunks) (enough : span chunks ≤ fuel)
    : walkBlocks memory (address + span chunks) fuel address = chunks := by
  induction chunks generalizing address previous fuel with
  | nil => cases fuel <;> simp [walkBlocks]
  | cons chunk rest ih =>
      have first := fits chunk (by simp)
      have size := blockSize_of_header first laid.1
      have used := blockUsed_of_header first laid.1
      have least := first.1
      simp only [span_cons, HEAP_MIN_BLOCK] at enough least
      cases fuel with
      | zero => omega
      | succ fuel =>
          have later : walkBlocks memory (address + chunk.size + span rest) fuel
              (address + chunk.size) = rest :=
            ih (fun other member => fits other (by simp [member])) laid.2.2 (by omega)
          have below : address < address + (chunk.size + span rest) := by omega
          simp only [walkBlocks, span_cons, if_pos below, size, used]
          rw [← Nat.add_assoc, later]

theorem Describes.layout_eq {region : Region} (described : Describes memory region chunks)
    : layout memory region = chunks := by
  rw [layout, described.carved]
  exact walkBlocks_eq described.fits described.laid (Nat.le_refl _)

end Panuti.Libc
