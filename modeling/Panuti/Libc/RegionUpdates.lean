import Panuti.Libc.HeapLayout
import Panuti.Libc.FreeList

/-! What carving, taking and releasing a block do to the layout of one region.
Taking a whole block and releasing one both pass through an opened layout, in which one
block is off the free list; the steps in between merge it with its free neighbours.
-/

namespace Panuti.Libc

open ByteMemory
open IntrusiveList (Segment segment_append)

-- 32-bit sums that stay inside a region

theorem add32_eq {left right : Nat} (fits : left + right < WORD)
    : add32 left right = left + right :=
  Nat.mod_eq_of_lt fits

theorem sub32_eq {left right : Nat} (le : right ≤ left) (fits : left < WORD)
    : sub32 left right = left - right := by
  simp only [sub32, WORD] at *
  omega

variable {size address location back : Nat} {chunks front rear : List Chunk} {memory : Memory}
    {region : Region} {chunk : Chunk} {nodes : List Nat}

theorem inUse_eq (even : size % 8 = 0) : inUse size = size + 1 := by
  have half : size = 2 ^ 1 * (size / 2) := by omega
  rw [inUse, half]
  exact (Nat.two_pow_add_eq_or_of_lt (by decide : BLOCK_INUSE < 2 ^ 1) (size / 2)).symm

-- The free list of a described region

theorem freeStarts_spaced (fits : ∀ chunk ∈ chunks, chunk.Fits)
    : Spaced (freeStarts address chunks) := by
  induction chunks generalizing address with
  | nil => exact List.Pairwise.nil
  | cons chunk rest ih =>
      have later : Spaced (freeStarts (address + chunk.size) rest) :=
        ih (fun other member => fits other (by simp [member]))
      rw [freeStarts_cons]
      cases chunk.used with
      | true => simpa using later
      | false =>
          refine List.pairwise_cons.mpr ⟨?_, later⟩
          intro start member
          obtain ⟨other, place, _⟩ := mem_freeStarts.mp member
          have low := (placed_bounds place).1
          have least := (fits chunk (by simp)).1
          omega

theorem freeStarts_length_le (address : Nat) (fits : ∀ chunk ∈ chunks, chunk.Fits)
    : (freeStarts address chunks).length ≤ span chunks := by
  induction chunks generalizing address with
  | nil => simp
  | cons chunk rest ih =>
      have later := ih (address + chunk.size)
        (fun other member => fits other (by simp [member]))
      have least := (fits chunk (by simp)).1
      simp only [HEAP_MIN_BLOCK] at least
      rw [freeStarts_cons, List.length_append, span_cons]
      cases chunk.used <;> simp <;> omega

theorem Describes.list (described : Describes memory region chunks)
    : Listed memory region (freeStarts region.base chunks) := by
  refine ⟨described.listed, freeStarts_spaced described.fits, ?_, ?_⟩
  · intro node member
    obtain ⟨chunk, place, _⟩ := mem_freeStarts.mp member
    have bounds := placed_bounds place
    have least := (described.fits chunk (mem_of_placed place)).1
    have positive := described.positive
    have bounded := described.bounded
    have carved := described.carved
    have room := described.room
    simp only [HEAP_MIN_BLOCK, WORD] at *
    omega
  · have short := freeStarts_length_le region.base described.fits
    have carved := described.carved
    have room := described.room
    omega

-- Bytes an update leaves alone

/-- The address lies in the payload of a block in use. -/
def Payload (address : Nat) (chunks : List Chunk) (location : Nat) : Prop :=
  ∃ start chunk, (start, chunk) ∈ placed address chunks
    ∧ chunk.used = true
    ∧ start + BLOCK_HDR ≤ location
    ∧ location < start + chunk.size

/-- The address lies outside the carved part of the region, or in a payload in use. -/
def Untouched (region : Region) (chunks : List Chunk) (location : Nat) : Prop :=
  location < region.base
  ∨ region.base + region.brk ≤ location
  ∨ Payload region.base chunks location

theorem Untouched.apart {region : Region} {chunks : List Chunk} {location : Nat}
    {chunk : Chunk}
    (untouched : Untouched region chunks location) (start : Nat)
    (carved : region.brk = span chunks) (fits : chunk.Fits)
    (place : (start, chunk) ∈ placed region.base chunks)
    : (location < start ∨ start + BLOCK_HDR ≤ location)
      ∧ (chunk.used = false → location < start ∨ start + chunk.size ≤ location) := by
  have bounds := placed_bounds place
  have least := fits.1
  simp only [HEAP_MIN_BLOCK, BLOCK_HDR] at *
  rcases untouched with below | above | ⟨other, owner, ownerPlace, used, low, high⟩
  · omega
  · omega
  · simp only [BLOCK_HDR] at low
    rcases placed_apart place ownerPlace with ⟨same, sameChunk⟩ | before | after
    · subst same sameChunk
      exact ⟨Or.inr low, fun free => absurd used (by simp [free])⟩
    · omega
    · have := (placed_bounds ownerPlace).1
      omega

theorem Untouched.not_linkByte (untouched : Untouched region chunks location) (nodes : List Nat)
    (carved : region.brk = span chunks) (fits : ∀ chunk ∈ chunks, chunk.Fits)
    (free : ∀ node ∈ nodes, node ∈ freeStarts region.base chunks)
    : ¬LinkByte nodes location := by
  rintro ⟨node, member, low, high⟩
  obtain ⟨chunk, place, notUsed⟩ := mem_freeStarts.mp (free node member)
  have chunkFits := fits chunk (mem_of_placed place)
  have apart := (untouched.apart node carved chunkFits place).2 notUsed
  have least := chunkFits.1
  simp only [HEAP_MIN_BLOCK, BLOCK_HDR] at *
  omega

theorem headers_of_links {changed : Memory} {start : Nat}
    (frame
      : ∀ location, ¬LinkByte nodes location → changed location = memory location)
    (fits : ∀ chunk ∈ chunks, chunk.Fits)
    (nodesPlaced : ∀ node ∈ nodes, ∃ other, (node, other) ∈ placed address chunks)
    (place : (start, chunk) ∈ placed address chunks)
    : changed.word start = memory.word start
      ∧ changed.word (start + 4) = memory.word (start + 4) := by
  have apart : ∀ node ∈ nodes, start + 8 ≤ node + BLOCK_HDR
      ∨ node + BLOCK_HDR + 4 ≤ start := by
    intro node member
    obtain ⟨other, otherPlace⟩ := nodesPlaced node member
    have least := (fits chunk (mem_of_placed place)).1
    have otherLeast := (fits other (mem_of_placed otherPlace)).1
    simp only [HEAP_MIN_BLOCK, BLOCK_HDR] at *
    rcases placed_apart place otherPlace with ⟨same, _⟩ | before | after <;> omega
  constructor <;>
  · apply word_of_links frame
    intro node member
    have := apart node member
    omega

-- Opened layouts: one block is off the free list

/-- The region's blocks are `front`, a block of `size` bytes that is on no list, and
`rear`. The block behind it still records `back` as the size of its predecessor.
-/
structure Opened (memory : Memory) (region : Region) (front : List Chunk) (size back : Nat)
    (rear : List Chunk) : Prop where
  frontFits : ∀ chunk ∈ front, chunk.Fits
  blockFits : Chunk.Fits ⟨size, false⟩
  rearFits : ∀ chunk ∈ rear, chunk.Fits
  frontLaid : Laid memory region.base 0 front
  header : memory.word (region.base + span front) = size
  previous : memory.word (region.base + span front + 4) = lastSize 0 front
  rearLaid : Laid memory (region.base + span front + size) back rear
  carved : region.brk = span front + size + span rear
  room : region.brk ≤ region.size
  listed
    : Listed memory region
        (freeStarts region.base front
        ++ freeStarts (region.base + span front + size) rear)
  frontCoalesced : Coalesced front
  rearCoalesced : Coalesced rear
  aligned : region.base % 8 = 0
  positive : 0 < region.base
  bounded : region.base + region.size ≤ 0xC0000000

theorem Coalesced.tail {rest : List Chunk} (coalesced : Coalesced (chunk :: rest))
    : Coalesced rest := by
  cases rest with
  | nil => trivial
  | cons next later => exact coalesced.2

theorem coalesced_append {back : List Chunk} (coalesced : Coalesced (front ++ back))
    : Coalesced front ∧ Coalesced back := by
  induction front with
  | nil => exact ⟨trivial, coalesced⟩
  | cons first rest ih =>
      cases rest with
      | nil =>
          refine ⟨trivial, ?_⟩
          cases back with
          | nil => trivial
          | cons second later => exact coalesced.2
      | cons second later =>
          obtain ⟨pair, tail⟩ := coalesced
          exact ⟨⟨pair, (ih tail).1⟩, (ih tail).2⟩

theorem coalesced_join (frontCoalesced : Coalesced front) (rearCoalesced : Coalesced rear)
    (before : chunk.used = true ∨ ∀ last, front.getLast? = some last → last.used = true)
    (after : chunk.used = true ∨ ∀ next, rear.head? = some next → next.used = true)
    : Coalesced (front ++ chunk :: rear) := by
  induction front with
  | nil =>
      cases rear with
      | nil => trivial
      | cons next later => exact ⟨after.imp_right (fun used => used next rfl), rearCoalesced⟩
  | cons first rest ih =>
      cases rest with
      | nil =>
          refine ⟨?_, ih trivial (Or.inr (by simp))⟩
          exact (before.imp_right (fun used => used first rfl)).symm
      | cons second later =>
          refine ⟨frontCoalesced.1, ih frontCoalesced.2 ?_⟩
          exact before.imp_right (fun used last isLast => used last (by simpa using isLast))

theorem payload_append {back : List Chunk}
    : Payload address (front ++ back) location
      ↔ Payload address front location ∨ Payload (address + span front) back location := by
  simp only [Payload, placed_append, List.mem_append, or_and_right, exists_or]

theorem payload_cons {rest : List Chunk}
    : Payload address (chunk :: rest) location
      ↔ (chunk.used = true
          ∧ address + BLOCK_HDR ≤ location
          ∧ location < address + chunk.size)
        ∨ Payload (address + chunk.size) rest location := by
  simp only [Payload, placed_cons, List.mem_cons, Prod.mk.injEq, or_and_right, exists_or]
  constructor
  · rintro (⟨_, _, ⟨rfl, rfl⟩, inside⟩ | later)
    · exact Or.inl inside
    · exact Or.inr later
  · rintro (inside | later)
    · exact Or.inl ⟨_, _, ⟨rfl, rfl⟩, inside⟩
    · exact Or.inr later

theorem Listed.setWord (address value : Nat) (listed : Listed memory region nodes)
    (apart
      : ∀ node ∈ nodes,
          node + BLOCK_HDR + 4 ≤ address ∨ address + 4 ≤ node + BLOCK_HDR)
    : Listed (memory.setWord address value) region nodes :=
  { listed with
    segment := listed.segment.congr (fun node member =>
      Memory.word_setWord_other memory (apart node member)) }

theorem Opened.fits (opened : Opened memory region front size back rear)
    : ∀ chunk ∈ front ++ ⟨size, false⟩ :: rear, chunk.Fits := by
  intro chunk member
  rcases List.mem_append.mp member with inFront | member
  · exact opened.frontFits chunk inFront
  · rcases List.mem_cons.mp member with rfl | inRear
    · exact opened.blockFits
    · exact opened.rearFits chunk inRear

theorem Opened.carved_span (opened : Opened memory region front size back rear)
    : region.brk = span (front ++ ⟨size, false⟩ :: rear) := by
  rw [opened.carved, span_append, span_cons, Nat.add_assoc]

theorem Opened.laid_of_links {changed : Memory} (opened : Opened memory region front size back rear)
    (frame
      : ∀ location, ¬LinkByte nodes location → changed location = memory location)
    (free
      : ∀ node ∈ nodes,
          node ∈ freeStarts region.base (front ++ ⟨size, false⟩ :: rear))
    : Laid changed region.base 0 front
      ∧ changed.word (region.base + span front) = size
      ∧ changed.word (region.base + span front + 4) = lastSize 0 front
      ∧ Laid changed (region.base + span front + size) back rear := by
  have headers (start : Nat) (chunk : Chunk)
      (place : (start, chunk) ∈ placed region.base (front ++ ⟨size, false⟩ :: rear)) :=
    headers_of_links frame opened.fits
      (fun node member =>
        let ⟨other, otherPlace, _⟩ := mem_freeStarts.mp (free node member)
        ⟨other, otherPlace⟩) place
  rw [placed_append, placed_cons] at headers
  have block := headers (region.base + span front) ⟨size, false⟩ (by simp)
  refine ⟨opened.frontLaid.congr ?_, block.1.trans opened.header,
    block.2.trans opened.previous, opened.rearLaid.congr ?_⟩
  · intro start chunk place
    exact headers start chunk (List.mem_append_left _ place)
  · intro start chunk place
    exact headers start chunk
      (List.mem_append_right _ (List.mem_cons_of_mem _ place))

theorem Opened.front_apart {start : Nat} (opened : Opened memory region front size back rear)
    (place : (start, chunk) ∈ placed region.base front)
    : start + 16 ≤ region.base + span front :=
  placed_ends (opened.frontFits chunk (mem_of_placed place)) place

theorem Opened.front_apart_of_mem {node : Nat} (opened : Opened memory region front size back rear)
    (member : node ∈ freeStarts region.base front)
    : node + 16 ≤ region.base + span front := by
  obtain ⟨chunk, place, _⟩ := mem_freeStarts.mp member
  exact opened.front_apart place

-- Opening a block

/-- Clearing the in-use bit of a block opens it: it is then free and on no list. -/
theorem Describes.open_used (described : Describes memory region (front ++ ⟨size, true⟩ :: rear))
    : Opened (setSize memory (region.base + span front) size) region front size size
        rear := by
  obtain ⟨frontLaid, header, previous, rearLaid⟩ := laid_append.mp described.laid
  have fits := described.fits ⟨size, true⟩ (by simp)
  have carved := described.carved
  have bounded := described.bounded
  have room := described.room
  simp only [span_append, span_cons] at carved
  have least := fits.1
  simp only [HEAP_MIN_BLOCK] at least
  have frontApart {start chunk} (place : (start, chunk) ∈ placed region.base front)
      : start + 16 ≤ region.base + span front :=
    placed_ends (described.fits chunk (by simp [mem_of_placed place])) place
  refine {
    frontFits := fun chunk member => described.fits chunk (by simp [member])
    blockFits := fits
    rearFits := fun chunk member => described.fits chunk (by simp [member])
    frontLaid := frontLaid.congr ?_
    header := Memory.word_setWord_self memory _ (by omega)
    previous := ?_
    rearLaid := rearLaid.congr ?_
    carved := by omega
    room := room
    listed := ?_
    frontCoalesced := (coalesced_append described.coalesced).1
    rearCoalesced :=
      (coalesced_append described.coalesced).2.tail
    aligned := described.aligned
    positive := described.positive
    bounded := bounded
  }
  · intro start chunk place
    have := frontApart place
    exact ⟨Memory.word_setWord_other memory (by omega),
      Memory.word_setWord_other memory (by omega)⟩
  · rw [setSize, Memory.word_setWord_other memory (by omega), previous]
  · intro start chunk place
    have : region.base + span front + size ≤ start := (placed_bounds place).1
    exact ⟨Memory.word_setWord_other memory (by omega),
      Memory.word_setWord_other memory (by omega)⟩
  · have listed := described.list
    rw [freeStarts_append, freeStarts_cons] at listed
    simp only [if_true, List.nil_append] at listed
    apply listed.setWord _ _
    intro node member
    rcases List.mem_append.mp member with inFront | inRear
    · obtain ⟨chunk, place, _⟩ := mem_freeStarts.mp inFront
      have := frontApart place
      simp only [BLOCK_HDR]
      omega
    · obtain ⟨chunk, place, _⟩ := mem_freeStarts.mp inRear
      have : region.base + span front + size ≤ node := (placed_bounds place).1
      simp only [BLOCK_HDR]
      omega

/-- Taking a free block off the list opens it. -/
theorem Describes.open_free (described : Describes memory region (front ++ ⟨size, false⟩ :: rear))
    : let after := flistRemove memory region (region.base + span front)
      Opened after.1 after.2 front size size rear
      ∧ region.SameRun after.2
      ∧ ∀ location,
          Untouched region (front ++ ⟨size, false⟩ :: rear) location
          → after.1 location = memory location := by
  have listed := described.list
  have carved := described.carved
  rw [freeStarts_append, freeStarts_cons] at listed
  simp only [Bool.false_eq_true, if_false, List.singleton_append] at listed
  obtain ⟨removed, sameRun, frame⟩ := flistRemove_spec listed
  have nodesFree : ∀ node ∈ freeStarts region.base front ++ [region.base + span front],
      node ∈ freeStarts region.base (front ++ ⟨size, false⟩ :: rear) := by
    intro node member
    rw [freeStarts_append, freeStarts_cons]
    simp at member ⊢
    tauto
  have headers {start chunk}
      (place : (start, chunk) ∈ placed region.base (front ++ ⟨size, false⟩ :: rear)) :=
    headers_of_links frame described.fits
      (fun node member =>
        let ⟨other, otherPlace, _⟩ := mem_freeStarts.mp (nodesFree node member)
        ⟨other, otherPlace⟩) place
  generalize flistRemove memory region (region.base + span front) = after
    at removed sameRun frame headers ⊢
  obtain ⟨laid, coalesced⟩ := And.intro
    (described.laid.congr (fun start chunk place => headers place)) described.coalesced
  obtain ⟨frontLaid, header, previous, rearLaid⟩ := laid_append.mp laid
  simp only [span_append, span_cons] at carved
  refine ⟨{
    frontFits := fun chunk member => described.fits chunk (by simp [member])
    blockFits := described.fits ⟨size, false⟩ (by simp)
    rearFits := fun chunk member => described.fits chunk (by simp [member])
    frontLaid := sameRun.1 ▸ frontLaid
    header := sameRun.1 ▸ header
    previous := sameRun.1 ▸ previous
    rearLaid := sameRun.1 ▸ rearLaid
    carved := by rw [← sameRun.2.2]; omega
    room := by rw [← sameRun.2.1, ← sameRun.2.2]; exact described.room
    listed := sameRun.1 ▸ removed
    frontCoalesced := (coalesced_append coalesced).1
    rearCoalesced := (coalesced_append coalesced).2.tail
    aligned := sameRun.1 ▸ described.aligned
    positive := sameRun.1 ▸ described.positive
    bounded := by rw [← sameRun.1, ← sameRun.2.1]; exact described.bounded
  }, sameRun, ?_⟩
  intro location untouched
  exact frame location
    (untouched.not_linkByte _ described.carved described.fits nodesFree)

-- Merging the opened block with its free neighbours

/-- A free block in front of the opened one comes off the list and absorbs it. -/
theorem Opened.merge_previous {previous : Nat}
    (opened : Opened memory region (front ++ [⟨previous, false⟩]) size back rear)
    : let place := region.base + span front
      let step := flistRemove memory region place
      blockSize step.1 place = previous
      ∧ Opened (setSize step.1 place (previous + size)) step.2 front (previous + size) back
          rear
      ∧ region.SameRun step.2
      ∧ ∀ location,
          Untouched region (front ++ ⟨previous + size, false⟩ :: rear) location
          → setSize step.1 place (previous + size) location = memory location := by
  dsimp only
  have carved := opened.carved
  have bounded := opened.bounded
  have room := opened.room
  have previousFits := opened.frontFits ⟨previous, false⟩ (by simp)
  have sizeFits := opened.blockFits
  have listed := opened.listed
  rw [freeStarts_append, freeStarts_cons] at listed
  simp only [Bool.false_eq_true, if_false, freeStarts_nil, List.append_nil,
    List.append_assoc, List.singleton_append] at listed
  obtain ⟨removed, sameRun, frame⟩ := flistRemove_spec listed
  have nodesFree : ∀ node ∈ freeStarts region.base front ++ [region.base + span front],
      node ∈ freeStarts region.base
        ((front ++ [⟨previous, false⟩]) ++ ⟨size, false⟩ :: rear) := by
    intro node member
    simp only [freeStarts_append, freeStarts_cons]
    simp at member ⊢
    tauto
  obtain ⟨laid, _, _, rearLaid⟩ := opened.laid_of_links frame nodesFree
  generalize flistRemove memory region (region.base + span front) = step
    at removed sameRun frame laid rearLaid ⊢
  obtain ⟨frontLaid, header, previousBack, _⟩ := laid_append.mp laid
  simp only [span_append, span_cons, span_nil, Nat.add_zero] at carved rearLaid removed
  have least := previousFits.1
  simp only [HEAP_MIN_BLOCK] at least
  have frontApart {start chunk} (place : (start, chunk) ∈ placed region.base front)
      : start + 16 ≤ region.base + span front :=
    placed_ends (opened.frontFits chunk (by simp [mem_of_placed place])) place
  have rearApart {start chunk}
      (place : (start, chunk)
        ∈ placed (region.base + (span front + previous) + size) rear)
      : region.base + span front + previous + size ≤ start := by
    have := (placed_bounds place).1
    omega
  have samePlace : region.base + (span front + previous) + size
      = region.base + span front + (previous + size) := by omega
  refine ⟨blockSize_of_header previousFits header, {
    frontFits := fun chunk member => opened.frontFits chunk (by simp [member])
    blockFits := ?_
    rearFits := opened.rearFits
    frontLaid := sameRun.1 ▸ frontLaid.congr ?_
    header := by
      rw [← sameRun.1]
      exact Memory.word_setWord_self step.1 _ (by omega)
    previous := ?_
    rearLaid := ?_
    carved := by rw [← sameRun.2.2]; omega
    room := by rw [← sameRun.2.1, ← sameRun.2.2]; exact room
    listed := ?_
    frontCoalesced := (coalesced_append opened.frontCoalesced).1
    rearCoalesced := opened.rearCoalesced
    aligned := sameRun.1 ▸ opened.aligned
    positive := sameRun.1 ▸ opened.positive
    bounded := by rw [← sameRun.1, ← sameRun.2.1]; exact bounded
  }, sameRun, ?_⟩
  · simp only [Chunk.Fits, HEAP_MIN_BLOCK] at previousFits sizeFits ⊢
    omega
  · intro start chunk place
    have := frontApart place
    exact ⟨Memory.word_setWord_other step.1 (by omega),
      Memory.word_setWord_other step.1 (by omega)⟩
  · rw [← sameRun.1, setSize, Memory.word_setWord_other step.1 (by omega), previousBack]
  · rw [← sameRun.1, ← samePlace]
    refine rearLaid.congr ?_
    intro start chunk place
    have := rearApart place
    exact ⟨Memory.word_setWord_other step.1 (by omega),
      Memory.word_setWord_other step.1 (by omega)⟩
  · rw [← sameRun.1, ← samePlace]
    apply removed.setWord _ _
    intro node member
    simp only [BLOCK_HDR]
    rcases List.mem_append.mp member with inFront | inRear
    · obtain ⟨chunk, place, _⟩ := mem_freeStarts.mp inFront
      have := frontApart place
      omega
    · obtain ⟨chunk, place, _⟩ := mem_freeStarts.mp inRear
      have := rearApart place
      omega
  · intro location untouched
    have wider : Untouched region
        ((front ++ [⟨previous, false⟩]) ++ ⟨size, false⟩ :: rear) location := by
      simp only [Untouched, payload_append, payload_cons, span_append, span_cons, span_nil,
        Bool.false_eq_true, false_and, false_or] at untouched ⊢
      simpa [← Nat.add_assoc, Payload] using untouched
    have outside := (wider.apart (region.base + span front) opened.carved_span previousFits
      (by simp)).1
    simp only [BLOCK_HDR] at outside
    rw [setSize, Memory.setWord_other step.1 (by omega)]
    exact frame location
      (wider.not_linkByte _ opened.carved_span opened.fits nodesFree)

/-- A free block behind the opened one comes off the list and is absorbed. -/
theorem Opened.merge_next {next : Nat}
    (opened : Opened memory region front size back (⟨next, false⟩ :: rear))
    : let place := region.base + span front
      let step := flistRemove memory region (place + size)
      blockSize step.1 (place + size) = next
      ∧ Opened (setSize step.1 place (size + next)) step.2 front (size + next) next rear
      ∧ region.SameRun step.2
      ∧ ∀ location,
          Untouched region (front ++ ⟨size + next, false⟩ :: rear) location
          → setSize step.1 place (size + next) location = memory location := by
  dsimp only
  have carved := opened.carved
  have bounded := opened.bounded
  have room := opened.room
  have nextFits := opened.rearFits ⟨next, false⟩ (by simp)
  have sizeFits := opened.blockFits
  have listed := opened.listed
  rw [freeStarts_cons] at listed
  simp only [Bool.false_eq_true, if_false, List.singleton_append] at listed
  obtain ⟨removed, sameRun, frame⟩ := flistRemove_spec listed
  have nodesFree
      : ∀ node ∈ freeStarts region.base front ++ [region.base + span front + size],
        node ∈ freeStarts region.base
          (front ++ ⟨size, false⟩ :: ⟨next, false⟩ :: rear) := by
    intro node member
    simp only [freeStarts_append, freeStarts_cons]
    simp at member ⊢
    tauto
  obtain ⟨frontLaid, header, previous, nextHeader, _, rearLaid⟩ :=
    opened.laid_of_links frame nodesFree
  generalize flistRemove memory region (region.base + span front + size) = step
    at removed sameRun frame frontLaid header previous nextHeader rearLaid ⊢
  simp only [span_cons] at carved
  have least := sizeFits.1
  simp only [HEAP_MIN_BLOCK] at least
  have rearApart {start chunk}
      (place : (start, chunk) ∈ placed (region.base + span front + size + next) rear)
      : region.base + span front + size + next ≤ start :=
    (placed_bounds place).1
  refine ⟨blockSize_of_header nextFits nextHeader, {
    frontFits := opened.frontFits
    blockFits := ?_
    rearFits := fun chunk member => opened.rearFits chunk (by simp [member])
    frontLaid := sameRun.1 ▸ frontLaid.congr ?_
    header := by
      rw [← sameRun.1]
      exact Memory.word_setWord_self step.1 _ (by omega)
    previous := ?_
    rearLaid := ?_
    carved := by rw [← sameRun.2.2]; omega
    room := by rw [← sameRun.2.1, ← sameRun.2.2]; exact room
    listed := ?_
    frontCoalesced := opened.frontCoalesced
    rearCoalesced := opened.rearCoalesced.tail
    aligned := sameRun.1 ▸ opened.aligned
    positive := sameRun.1 ▸ opened.positive
    bounded := by rw [← sameRun.1, ← sameRun.2.1]; exact bounded
  }, sameRun, ?_⟩
  · simp only [Chunk.Fits, HEAP_MIN_BLOCK] at nextFits sizeFits ⊢
    omega
  · intro start chunk place
    have := opened.front_apart place
    exact ⟨Memory.word_setWord_other step.1 (by omega),
      Memory.word_setWord_other step.1 (by omega)⟩
  · rw [← sameRun.1, setSize, Memory.word_setWord_other step.1 (by omega), previous]
  · rw [← sameRun.1, ← Nat.add_assoc]
    refine rearLaid.congr ?_
    intro start chunk place
    have := rearApart place
    exact ⟨Memory.word_setWord_other step.1 (by omega),
      Memory.word_setWord_other step.1 (by omega)⟩
  · rw [← sameRun.1, ← Nat.add_assoc]
    apply removed.setWord _ _
    intro node member
    simp only [BLOCK_HDR]
    rcases List.mem_append.mp member with inFront | inRear
    · have := opened.front_apart_of_mem inFront
      omega
    · obtain ⟨chunk, place, _⟩ := mem_freeStarts.mp inRear
      have := rearApart place
      omega
  · intro location untouched
    have wider : Untouched region (front ++ ⟨size, false⟩ :: ⟨next, false⟩ :: rear)
        location := by
      simp only [Untouched, payload_append, payload_cons, Bool.false_eq_true, false_and,
        false_or] at untouched ⊢
      simpa only [← Nat.add_assoc] using untouched
    have outside := (wider.apart (region.base + span front) opened.carved_span sizeFits
      (by simp)).1
    simp only [BLOCK_HDR] at outside
    rw [setSize, Memory.setWord_other step.1 (by omega)]
    exact frame location
      (wider.not_linkByte _ opened.carved_span opened.fits nodesFree)

-- Closing a block

theorem Opened.close_used (opened : Opened memory region front size size rear)
    : Describes (setSize memory (region.base + span front) (inUse size)) region
        (front ++ ⟨size, true⟩ :: rear) := by
  have carved := opened.carved
  have bounded := opened.bounded
  have room := opened.room
  have fits := opened.blockFits
  have least := fits.1
  simp only [HEAP_MIN_BLOCK] at least
  rw [inUse_eq fits.2]
  refine {
    fits := ?_
    laid := laid_append.mpr ⟨opened.frontLaid.congr ?_, ?_, ?_, opened.rearLaid.congr ?_⟩
    carved := by simp only [span_append, span_cons]; omega
    room := room
    listed := ?_
    coalesced := coalesced_join opened.frontCoalesced opened.rearCoalesced (Or.inl rfl)
      (Or.inl rfl)
    aligned := opened.aligned
    positive := opened.positive
    bounded := bounded
  }
  · intro chunk member
    rcases List.mem_append.mp member with inFront | member
    · exact opened.frontFits chunk inFront
    · rcases List.mem_cons.mp member with rfl | inRear
      · exact fits
      · exact opened.rearFits chunk inRear
  · intro start chunk place
    have := opened.front_apart place
    exact ⟨Memory.word_setWord_other memory (by omega),
      Memory.word_setWord_other memory (by omega)⟩
  · exact Memory.word_setWord_self memory _ (show size + 1 < 4294967296 by omega)
  · rw [setSize, Memory.word_setWord_other memory (by omega), opened.previous]
  · intro start chunk place
    have : region.base + span front + size ≤ start := (placed_bounds place).1
    exact ⟨Memory.word_setWord_other memory (by omega),
      Memory.word_setWord_other memory (by omega)⟩
  · rw [freeStarts_append, freeStarts_cons]
    simp only [if_true, List.nil_append]
    apply (opened.listed.setWord _ _ _).segment
    intro node member
    simp only [BLOCK_HDR]
    rcases List.mem_append.mp member with inFront | inRear
    · have := opened.front_apart_of_mem inFront
      omega
    · obtain ⟨chunk, place, _⟩ := mem_freeStarts.mp inRear
      have := (placed_bounds place).1
      omega

theorem recordSize_laid (region : Region) {block : Nat}
    (laid : Laid memory (block + size) back rear) (fits : ∀ chunk ∈ rear, chunk.Fits)
    (reach : block + size + span rear = region.base + region.brk)
    (bounded : region.base + region.brk < WORD)
    : Laid (recordSize memory region block size) (block + size) size rear
      ∧ ∀ location,
          (rear = [] ∨ location < block + size + 4 ∨ block + size + 8 ≤ location)
          → recordSize memory region block size location = memory location := by
  have noWrap : add32 block size = block + size := add32_eq (by omega)
  have limit : add32 region.base region.brk = region.base + region.brk := add32_eq bounded
  simp only [recordSize, noWrap, limit]
  cases rear with
  | nil =>
      simp only [span_nil, Nat.add_zero] at reach
      simp [Laid, reach]
  | cons next later =>
      have least := (fits next (by simp)).1
      simp only [HEAP_MIN_BLOCK, span_cons] at least reach
      have behind : block + size < region.base + region.brk := by omega
      obtain ⟨header, _, rest⟩ := laid
      simp only [if_pos behind]
      refine ⟨⟨?_, Memory.word_setWord_self memory _ (by simp only [WORD] at bounded; omega),
        rest.congr ?_⟩, ?_⟩
      · rw [setPrevSize, Memory.word_setWord_other memory (by omega), header]
      · intro start chunk place
        have := (placed_bounds place).1
        exact ⟨Memory.word_setWord_other memory (by omega),
          Memory.word_setWord_other memory (by omega)⟩
      · rintro location (impossible | outside)
        · cases impossible
        · exact Memory.setWord_other memory (by omega)

/-- Putting the opened block back on the list closes it, when neither neighbour is free. -/
theorem Opened.close_free (opened : Opened memory region front size back rear)
    (before : ∀ last, front.getLast? = some last → last.used = true)
    (after : ∀ next, rear.head? = some next → next.used = true)
    : let place := region.base + span front
      let closed := flistInsert (recordSize memory region place size) region place
      Describes closed.1 closed.2 (front ++ ⟨size, false⟩ :: rear)
      ∧ region.SameRun closed.2
      ∧ ∀ location,
          Untouched region (front ++ ⟨size, false⟩ :: rear) location
          → closed.1 location = memory location := by
  dsimp only
  have carved := opened.carved
  have bounded := opened.bounded
  have room := opened.room
  have positive := opened.positive
  have least := opened.blockFits.1
  simp only [HEAP_MIN_BLOCK] at least
  obtain ⟨recorded, recordFrame⟩ := recordSize_laid region opened.rearLaid
    opened.rearFits (by omega) (by simp only [WORD]; omega)
  have recordWord {address : Nat}
      (outside : rear = [] ∨ address + 4 ≤ region.base + span front + size + 4
        ∨ region.base + span front + size + 8 ≤ address)
      : (recordSize memory region (region.base + span front) size).word address
        = memory.word address := by
    apply Memory.word_congr
    intro location low high
    apply recordFrame
    exact outside.imp_right (fun apart => by omega)
  generalize recordSize memory region (region.base + span front) size = noted
    at recorded recordFrame recordWord ⊢
  have rearNodes {node} (member : node ∈ freeStarts (region.base + span front + size) rear)
      : rear ≠ [] ∧ region.base + span front + size ≤ node := by
    obtain ⟨chunk, place, _⟩ := mem_freeStarts.mp member
    exact ⟨by rintro rfl; simp at place, (placed_bounds place).1⟩
  have listed : Listed noted region (freeStarts region.base front
      ++ freeStarts (region.base + span front + size) rear) := {
    opened.listed with
    segment := opened.listed.segment.congr (by
      intro node member
      apply recordWord
      simp only [BLOCK_HDR]
      rcases List.mem_append.mp member with inFront | inRear
      · have := opened.front_apart_of_mem inFront
        omega
      · have := rearNodes inRear
        omega)
  }
  have frontLength := freeStarts_length_le region.base opened.frontFits
  have rearLength := freeStarts_length_le (region.base + span front + size)
    opened.rearFits
  obtain ⟨inserted, sameRun, frame⟩ := flistInsert_spec (region.base + span front)
    listed (fun node member => opened.front_apart_of_mem member)
    (fun node member => by
      have := (rearNodes member).2
      simp only [HEAP_MIN_BLOCK]
      omega)
    ⟨by omega, by simp only [WORD]; omega⟩ (by omega)
  have nodesFree : ∀ node ∈ freeStarts region.base front ++ [region.base + span front],
      node ∈ freeStarts region.base (front ++ ⟨size, false⟩ :: rear) := by
    intro node member
    rw [freeStarts_append, freeStarts_cons]
    simp at member ⊢
    tauto
  have laid : Laid noted region.base 0 (front ++ ⟨size, false⟩ :: rear) := by
    refine laid_append.mpr ⟨opened.frontLaid.congr ?_, ?_, ?_, recorded⟩
    · intro start chunk place
      have := opened.front_apart place
      exact ⟨recordWord (by omega), recordWord (by omega)⟩
    · rw [recordWord (by omega), opened.header]
      rfl
    · rw [recordWord (by omega), opened.previous]
  refine ⟨{
    fits := opened.fits
    laid := ?_
    carved := by rw [← sameRun.2.2]; exact opened.carved_span
    room := by rw [← sameRun.2.1, ← sameRun.2.2]; exact room
    listed := ?_
    coalesced := coalesced_join opened.frontCoalesced opened.rearCoalesced (Or.inr before)
      (Or.inr after)
    aligned := sameRun.1 ▸ opened.aligned
    positive := sameRun.1 ▸ opened.positive
    bounded := by rw [← sameRun.1, ← sameRun.2.1]; exact bounded
  }, sameRun, ?_⟩
  · rw [← sameRun.1]
    exact laid.congr (fun start chunk place =>
      headers_of_links frame opened.fits
        (fun node member =>
          (mem_freeStarts.mp (nodesFree node member)).imp fun _ => And.left) place)
  · rw [← sameRun.1, freeStarts_append, freeStarts_cons]
    simpa using inserted.segment
  · intro location untouched
    rw [frame location
      (untouched.not_linkByte _ opened.carved_span opened.fits nodesFree)]
    apply recordFrame
    cases rear with
    | nil => exact Or.inl rfl
    | cons next later =>
        have := (untouched.apart (region.base + span front + size) opened.carved_span
          (opened.rearFits next (by simp)) (by simp)).1
        simp only [BLOCK_HDR] at this
        omega

end Panuti.Libc
