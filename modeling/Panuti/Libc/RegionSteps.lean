import Panuti.Libc.RegionUpdates

/-! One region under the three ways to change it: taking a free block, carving a new one,
and releasing a block in use. Each keeps the region described and says which blocks are in
use afterwards and which bytes it leaves alone.
-/

namespace Panuti.Libc

open ByteMemory
open IntrusiveList (Segment segment_append)

-- Blocks in use

/-- A block of `size` bytes in use starts at `start`. -/
def UsedAt (address : Nat) (chunks : List Chunk) (start size : Nat) : Prop :=
  (start, ⟨size, true⟩) ∈ placed address chunks

variable {address start size total need : Nat} {front chunks rear : List Chunk} {memory : Memory}
    {region : Region} {outcome : Nat × Memory × Region}

theorem usedAt_append {back : List Chunk}
    : UsedAt address (front ++ back) start size
      ↔ UsedAt address front start size
        ∨ UsedAt (address + span front) back start size := by
  simp [UsedAt]

theorem usedAt_cons {chunk : Chunk} {rest : List Chunk}
    : UsedAt address (chunk :: rest) start size
      ↔ (start = address ∧ chunk = ⟨size, true⟩)
        ∨ UsedAt (address + chunk.size) rest start size := by
  simp [UsedAt, eq_comm]

theorem usedAt_nil : ¬UsedAt address [] start size := by
  simp [UsedAt]

theorem payload_iff {location : Nat}
    : Payload address chunks location
      ↔ ∃ start size, UsedAt address chunks start size
          ∧ start + BLOCK_HDR ≤ location
          ∧ location < start + size := by
  constructor
  · rintro ⟨start, ⟨size, _⟩, place, rfl, low, high⟩
    exact ⟨start, size, place, low, high⟩
  · rintro ⟨start, size, place, low, high⟩
    exact ⟨start, ⟨size, true⟩, place, rfl, low, high⟩

/-- The outcome of handing out a block of `total` bytes at `start`. -/
structure Allocated (memory : Memory) (region : Region) (chunks : List Chunk) (need : Nat)
    (after : Memory) (changed : Region) (result : List Chunk) (start total : Nat)
    : Prop where
  described : Describes after changed result
  sameBase : changed.base = region.base
  sameSize : changed.size = region.size
  enough : need ≤ total
  used
    : ∀ other size,
        UsedAt region.base result other size
        ↔ UsedAt region.base chunks other size ∨ (other = start ∧ size = total)
  fresh : ∀ size, ¬UsedAt region.base chunks start size
  frame
    : ∀ location,
        location < region.base
          ∨ region.base + region.size ≤ location
          ∨ Payload region.base chunks location
        → after location = memory location

/-- The outcome of releasing the block at `start`. -/
structure Released (memory : Memory) (region : Region) (chunks : List Chunk)
    (after : Memory) (changed : Region) (result : List Chunk) (start : Nat) : Prop where
  described : Describes after changed result
  sameRun : region.SameRun changed
  used
    : ∀ other size,
        UsedAt region.base result other size
        ↔ UsedAt region.base chunks other size ∧ other ≠ start
  frame
    : ∀ location,
        Untouched region result location → after location = memory location

-- Taking a free block

theorem not_usedAt_free (start : Nat) (fits : ∀ chunk ∈ front ++ ⟨size, false⟩ :: rear, chunk.Fits)
    (inside : start < size)
    : ∀ other,
        ¬UsedAt address (front ++ ⟨size, false⟩ :: rear) (address + span front + start)
          other := by
  intro other used
  have free : (address + span front, (⟨size, false⟩ : Chunk))
      ∈ placed address (front ++ ⟨size, false⟩ :: rear) := by
    simp
  have least := (fits _ (mem_of_placed used)).1
  simp only [HEAP_MIN_BLOCK] at least
  rcases placed_apart free used with ⟨_, impossible⟩ | before | after
  · simp at impossible
  · simp only at before
    omega
  · simp only at after
    omega

theorem take_whole (described : Describes memory region (front ++ ⟨total, false⟩ :: rear))
    (enough : need ≤ total)
    : let block := region.base + span front
      let step := flistRemove memory region block
      Allocated memory region (front ++ ⟨total, false⟩ :: rear) need
        (setSize step.1 block (inUse total)) step.2 (front ++ ⟨total, true⟩ :: rear)
        block total := by
  dsimp only
  have carved := described.carved
  have room := described.room
  obtain ⟨opened, sameRun, frame⟩ := described.open_free
  generalize flistRemove memory region (region.base + span front) = step
    at opened sameRun frame ⊢
  have closed := opened.close_used
  rw [← sameRun.1] at closed
  have least := (described.fits ⟨total, false⟩ (by simp)).1
  simp only [HEAP_MIN_BLOCK] at least
  refine {
    described := closed
    sameBase := sameRun.1.symm
    sameSize := sameRun.2.1.symm
    enough := enough
    used := ?_
    fresh := by simpa using not_usedAt_free 0 described.fits (by omega)
    frame := ?_
  }
  · intro other size
    simp only [usedAt_append, usedAt_cons, Chunk.mk.injEq, Bool.false_eq_true, and_false,
      false_or, and_true, eq_comm (a := total)]
    tauto
  · intro location outside
    have untouched : Untouched region (front ++ ⟨total, false⟩ :: rear) location := by
      rcases outside with below | above | payload
      · exact Or.inl below
      · exact Or.inr (Or.inl (by omega))
      · exact Or.inr (Or.inr payload)
    have apart := (untouched.apart (region.base + span front) carved
      (described.fits ⟨total, false⟩ (by simp)) (by simp)).1
    simp only [BLOCK_HDR] at apart
    rw [setSize, Memory.setWord_other step.1 (by omega), frame location untouched]

/-- Cutting the tail off a free block writes the tail's header and link and the record of
its size behind it, and nothing else.
-/
theorem splitTail_spec (described : Describes memory region (front ++ ⟨total, false⟩ :: rear))
    (least : 16 ≤ need) (room : need + 16 ≤ total)
    : let block := region.base + span front
      let after := splitTail memory region block total need
      after.word (block + need) = total - need
      ∧ after.word (block + need + 4) = need
      ∧ flistNext after (block + need) = flistNext memory block
      ∧ Laid after (block + total) (total - need) rear
      ∧ ∀ location,
          (location < block + need ∨ block + need + 12 ≤ location)
          → (rear = [] ∨ location < block + total + 4 ∨ block + total + 8 ≤ location)
          → after location = memory location := by
  dsimp only
  obtain ⟨_, _, _, rearLaid⟩ := laid_append.mp described.laid
  have carved := described.carved
  have inside := described.room
  have bounded := described.bounded
  simp only [span_append, span_cons] at carved
  simp only at rearLaid
  generalize place : region.base + span front = block at *
  have noWrap : add32 block need = block + need := add32_eq (by simp only [WORD]; omega)
  simp only [splitTail, noWrap]
  have linkKept : flistNext (setPrevSize (setSize memory (block + need) (total - need))
      (block + need) need) block = flistNext memory block := by
    rw [flistNext, setPrevSize, Memory.word_setWord_other _ (by simp only [BLOCK_HDR]; omega),
      setSize, Memory.word_setWord_other _ (by simp only [BLOCK_HDR]; omega)]
    rfl
  rw [linkKept]
  generalize written : flistSetNext (setPrevSize (setSize memory (block + need)
    (total - need)) (block + need) need) (block + need) (flistNext memory block) = linked
  have header : linked.word (block + need) = total - need := by
    rw [← written, flistSetNext, Memory.word_setWord_other _ (by simp only [BLOCK_HDR]; omega),
      setPrevSize, Memory.word_setWord_other _ (by omega), setSize,
      Memory.word_setWord_self memory _ (by omega)]
  have previous : linked.word (block + need + 4) = need := by
    rw [← written, flistSetNext, Memory.word_setWord_other _ (by simp only [BLOCK_HDR]; omega),
      setPrevSize, Memory.word_setWord_self _ _ (by omega)]
  have link : flistNext linked (block + need) = flistNext memory block := by
    rw [← written]
    exact flistNext_setNext_self (flistNext_lt memory block)
  have frame (location : Nat)
      (outside : location < block + need ∨ block + need + 12 ≤ location)
      : linked location = memory location := by
    rw [← written, flistSetNext, Memory.setWord_other _ (by simp only [BLOCK_HDR]; omega),
      setPrevSize, Memory.setWord_other _ (by omega), setSize,
      Memory.setWord_other _ (by omega)]
  clear written
  have wordFrame {address : Nat} (behind : block + need + 12 ≤ address)
      : linked.word address = memory.word address :=
    Memory.word_congr (fun location low _ => frame location (by omega))
  have rearLaid : Laid linked (block + need + (total - need)) total rear := by
    have same : block + need + (total - need) = block + total := by omega
    rw [same]
    refine rearLaid.congr (fun start chunk member => ?_)
    have := (placed_bounds member).1
    exact ⟨wordFrame (by omega), wordFrame (by omega)⟩
  obtain ⟨recorded, recordFrame⟩ := recordSize_laid region rearLaid
    (fun chunk member => described.fits chunk (by simp [member])) (by omega)
    (by simp only [WORD]; omega)
  have recordedWord {address : Nat} (low : address + 4 ≤ block + total + 4)
      : (recordSize linked region (block + need) (total - need)).word address
        = linked.word address :=
    Memory.word_congr (fun location _ _ => recordFrame location (by omega))
  refine ⟨?_, ?_, ?_, ?_, ?_⟩
  · rw [recordedWord (by omega), header]
  · rw [recordedWord (by omega), previous]
  · rw [flistNext, recordedWord (by simp only [BLOCK_HDR]; omega)]
    exact link
  · have same : block + need + (total - need) = block + total := by omega
    rw [← same]
    exact recorded
  · intro location outsideTail outsideRecord
    rw [recordFrame location, frame location outsideTail]
    exact outsideRecord.imp_right (fun apart => by omega)

/-- The free block split: its first `need` bytes are handed out and the tail takes its
place on the list.
-/
theorem take_split (described : Describes memory region (front ++ ⟨total, false⟩ :: rear))
    (needFits : Chunk.Fits ⟨need, true⟩) (room : need + 16 ≤ total)
    : let block := region.base + span front
      let step := flistReplace (splitTail memory region block total need) region block
        (block + need)
      Allocated memory region (front ++ ⟨total, false⟩ :: rear) need
        (setSize step.1 block (inUse need)) step.2
        (front ++ ⟨need, true⟩ :: ⟨total - need, false⟩ :: rear) block need := by
  dsimp only
  have carved := described.carved
  have inside := described.room
  have bounded := described.bounded
  have least := needFits.1
  simp only [HEAP_MIN_BLOCK] at least
  simp only [span_append, span_cons] at carved
  obtain ⟨frontLaid, _, previous, _⟩ := laid_append.mp described.laid
  obtain ⟨header, back, link, rearLaid, splitFrame⟩ := splitTail_spec described least room
  have listed := described.list
  rw [freeStarts_append, freeStarts_cons] at listed
  simp only [Bool.false_eq_true, if_false, List.singleton_append] at listed
  have frontApart {start chunk} (place : (start, chunk) ∈ placed region.base front)
      : start + 16 ≤ region.base + span front :=
    placed_ends (described.fits chunk (by simp [mem_of_placed place])) place
  have rearApart {start chunk}
      (place : (start, chunk) ∈ placed (region.base + span front + total) rear)
      : rear ≠ [] ∧ region.base + span front + total ≤ start :=
    ⟨by rintro rfl; simp at place, (placed_bounds place).1⟩
  have resultFits : ∀ chunk ∈ front ++ ⟨need, true⟩ :: ⟨total - need, false⟩ :: rear,
      chunk.Fits := by
    have whole := (described.fits ⟨total, false⟩ (by simp)).2
    have even := needFits.2
    simp only at whole even
    intro chunk member
    simp only [List.mem_append, List.mem_cons] at member
    rcases member with inFront | rfl | rfl | inRear
    · exact described.fits chunk (by simp [inFront])
    · exact needFits
    · exact ⟨by simp only [HEAP_MIN_BLOCK]; omega, by simp only; omega⟩
    · exact described.fits chunk (by simp [inRear])
  generalize splitTail memory region (region.base + span front) total need = cut
    at header back link rearLaid splitFrame ⊢
  have cutWord {address : Nat}
      (apart : address + 4 ≤ region.base + span front + need)
      : cut.word address = memory.word address :=
    Memory.word_congr (fun location _ _ => splitFrame location (by omega) (by omega))
  have cutLink {node : Nat}
      (apart
        : node + 16 ≤ region.base + span front + need
          ∨ rear ≠ [] ∧ region.base + span front + total ≤ node)
      : flistNext cut node = flistNext memory node := by
    simp only [flistNext, BLOCK_HDR]
    apply Memory.word_congr
    intro location low high
    apply splitFrame
    · omega
    · rcases apart with before | ⟨_, behind⟩
      · exact Or.inr (Or.inl (by omega))
      · exact Or.inr (Or.inr (by omega))
  have cutListed : Listed cut region (freeStarts region.base front
      ++ (region.base + span front)
      :: freeStarts (region.base + span front + total) rear) := {
    listed with
    segment := listed.segment.congr (by
      intro node member
      apply cutLink
      simp only [List.mem_append, List.mem_cons] at member
      rcases member with inFront | rfl | inRear
      · obtain ⟨chunk, place, _⟩ := mem_freeStarts.mp inFront
        have := frontApart place
        omega
      · omega
      · obtain ⟨chunk, place, _⟩ := mem_freeStarts.mp inRear
        exact Or.inr (rearApart place))
  }
  obtain ⟨replaced, sameRun, frame⟩ := flistReplace_spec
    (region.base + span front + need) cutListed
    (by simp only [HEAP_MIN_BLOCK]; omega) (by simp only [WORD]; omega)
    (fun node member => by
      obtain ⟨chunk, place, _⟩ := mem_freeStarts.mp member
      have := (rearApart place).2
      simp only [HEAP_MIN_BLOCK]
      omega)
    (link.trans (cutLink (by omega)).symm)
  have nodesPlaced : ∀ node ∈ freeStarts region.base front ++ [region.base + span front],
      ∃ other, (node, other) ∈ placed region.base
        (front ++ ⟨need, true⟩ :: ⟨total - need, false⟩ :: rear) := by
    intro node member
    simp only [List.mem_append, List.mem_singleton] at member
    rcases member with inFront | rfl
    · obtain ⟨chunk, place, _⟩ := mem_freeStarts.mp inFront
      exact ⟨chunk, by simp [place]⟩
    · exact ⟨⟨need, true⟩, by simp⟩
  have headers (start : Nat) (chunk : Chunk) (place : (start, chunk) ∈ placed region.base
      (front ++ ⟨need, true⟩ :: ⟨total - need, false⟩ :: rear)) :=
    headers_of_links frame resultFits nodesPlaced place
  generalize flistReplace cut region (region.base + span front)
    (region.base + span front + need) = step at replaced sameRun frame headers ⊢
  have tailPlace : region.base + span front + need + (total - need)
      = region.base + span front + total := by omega
  have blockHeaders := headers (region.base + span front) ⟨need, true⟩ (by simp)
  have tailHeaders := headers (region.base + span front + need) ⟨total - need, false⟩
    (by simp)
  rw [inUse_eq needFits.2]
  refine {
    described := {
      fits := resultFits
      laid := sameRun.1 ▸ laid_append.mpr ⟨frontLaid.congr ?_, ?_, ?_, ?_, ?_, ?_⟩
      carved := by
        rw [← sameRun.2.2]
        simp only [span_append, span_cons]
        omega
      room := by rw [← sameRun.2.1, ← sameRun.2.2]; exact inside
      listed := ?_
      coalesced := ?_
      aligned := sameRun.1 ▸ described.aligned
      positive := sameRun.1 ▸ described.positive
      bounded := by rw [← sameRun.1, ← sameRun.2.1]; exact bounded
    }
    sameBase := sameRun.1.symm
    sameSize := sameRun.2.1.symm
    enough := Nat.le_refl need
    used := ?_
    fresh := by simpa using not_usedAt_free 0 described.fits (by omega)
    frame := ?_
  }
  · intro start chunk place
    have apart := frontApart place
    have same := headers start chunk (by simp [place])
    refine ⟨?_, ?_⟩
    · rw [setSize, Memory.word_setWord_other step.1 (by omega), same.1,
        cutWord (by omega)]
    · rw [setSize, Memory.word_setWord_other step.1 (by omega), same.2,
        cutWord (by omega)]
  · exact Memory.word_setWord_self step.1 _ (show need + 1 < 4294967296 by omega)
  · rw [setSize, Memory.word_setWord_other step.1 (by omega), blockHeaders.2,
      cutWord (by omega), previous]
  · rw [setSize, Memory.word_setWord_other step.1 (by simp only; omega), tailHeaders.1,
      header]
    rfl
  · rw [setSize, Memory.word_setWord_other step.1 (by simp only; omega), tailHeaders.2,
      back]
  · simp only [tailPlace]
    refine rearLaid.congr (fun start chunk place => ?_)
    have apart := (rearApart place).2
    have same := headers start chunk
      (by simp [tailPlace, place])
    exact ⟨by rw [setSize, Memory.word_setWord_other step.1 (by omega), same.1],
      by rw [setSize, Memory.word_setWord_other step.1 (by omega), same.2]⟩
  · have segment := (replaced.setWord (region.base + span front) (need + 1) ?_).segment
    · rw [← sameRun.1, freeStarts_append, freeStarts_cons, freeStarts_cons]
      simpa [tailPlace, setSize] using segment
    · intro node member
      simp only [BLOCK_HDR]
      simp only [List.mem_append, List.mem_cons] at member
      rcases member with inFront | rfl | inRear
      · obtain ⟨chunk, place, _⟩ := mem_freeStarts.mp inFront
        have := frontApart place
        omega
      · omega
      · obtain ⟨chunk, place, _⟩ := mem_freeStarts.mp inRear
        have := (rearApart place).2
        omega
  · obtain ⟨frontCoalesced, blockCoalesced⟩ := coalesced_append described.coalesced
    have rearCoalesced := blockCoalesced.tail
    refine coalesced_join frontCoalesced ?_ (Or.inl rfl) (Or.inl rfl)
    cases rear with
    | nil => trivial
    | cons next later => exact ⟨by simpa using blockCoalesced.1, rearCoalesced⟩
  · intro other size
    simp only [usedAt_append, usedAt_cons, Chunk.mk.injEq, Bool.false_eq_true, and_false,
      false_or, and_true, tailPlace, eq_comm (a := need)]
    tauto
  · intro location outside
    have untouched : Untouched region (front ++ ⟨total, false⟩ :: rear) location := by
      rcases outside with below | above | payload
      · exact Or.inl below
      · exact Or.inr (Or.inl (by omega))
      · exact Or.inr (Or.inr payload)
    have apart := (untouched.apart (region.base + span front) described.carved
      (described.fits ⟨total, false⟩ (by simp)) (by simp)).2 rfl
    simp only at apart
    rw [setSize, Memory.setWord_other step.1 (by omega), frame, splitFrame]
    · omega
    · cases rear with
      | nil => exact Or.inl rfl
      | cons next later =>
          have := (untouched.apart (region.base + span front + total)
            described.carved (described.fits next (by simp)) (by simp)).1
          simp only [BLOCK_HDR] at this
          omega
    · apply untouched.not_linkByte _ described.carved described.fits
      intro node member
      rw [freeStarts_append, freeStarts_cons]
      simp at member ⊢
      tauto

theorem takeFree_spec (described : Describes memory region (front ++ ⟨total, false⟩ :: rear))
    (needFits : Chunk.Fits ⟨need, true⟩) (enough : need ≤ total)
    : let block := region.base + span front
      let outcome := takeFree memory region block total need
      outcome.1 = block + BLOCK_HDR
      ∧ ∃ result size,
          Allocated memory region (front ++ ⟨total, false⟩ :: rear) need outcome.2.1
            outcome.2.2 result block size := by
  dsimp only
  have carved := described.carved
  have inside := described.room
  have bounded := described.bounded
  simp only [span_append, span_cons] at carved
  have payload : blockPayload (region.base + span front)
      = region.base + span front + BLOCK_HDR :=
    add32_eq (by simp only [WORD, BLOCK_HDR]; omega)
  have tail : add32 (region.base + span front) need = region.base + span front + need :=
    add32_eq (by simp only [WORD]; omega)
  simp only [takeFree, tail]
  split
  · rename_i splits
    simp only [HEAP_MIN_BLOCK] at splits
    have least := needFits.1
    simp only [HEAP_MIN_BLOCK] at least
    exact ⟨payload, _, _, take_split described needFits (by omega)⟩
  · exact ⟨payload, _, _, take_whole described enough⟩

theorem Describes.free_block {block : Nat} (described : Describes memory region chunks)
    (free : block ∈ freeStarts region.base chunks)
    : ∃ front rear size, chunks = front ++ ⟨size, false⟩ :: rear
        ∧ block = region.base + span front
        ∧ blockSize memory block = size := by
  obtain ⟨⟨size, _⟩, place, rfl⟩ := mem_freeStarts.mp free
  obtain ⟨front, rear, split, address⟩ := placed_split place
  exact ⟨front, rear, size, split, address,
    blockSize_of_header (described.fits _ (mem_of_placed place))
      (described.laid.header place)⟩

theorem fitFree_spec {fuel block : Nat} {nodes : List Nat}
    (described : Describes memory region chunks) (needFits : Chunk.Fits ⟨need, true⟩)
    (walk : Segment (flistNext memory) block nodes 0)
    (free : ∀ node ∈ nodes, node ∈ freeStarts region.base chunks)
    (found : fitFree memory region need fuel block = some outcome)
    : ∃ start result size, outcome.1 = start + BLOCK_HDR
        ∧ Allocated memory region chunks need outcome.2.1 outcome.2.2 result start size := by
  induction fuel generalizing block nodes with
  | zero => cases found
  | succ fuel ih =>
      cases nodes with
      | nil =>
          rw [IntrusiveList.segment_nil] at walk
          simp [fitFree, walk] at found
      | cons node rest =>
          obtain ⟨rfl, later⟩ := walk
          obtain ⟨front, rear, size, split, place, header⟩ :=
            described.free_block (free block (by simp))
          have positive := described.positive
          have present : block ≠ 0 := by omega
          simp only [fitFree, present, if_false, header] at found
          split at found
          · rename_i enough
            obtain rfl := Option.some.inj found
            subst split place
            obtain ⟨pointer, result, total, allocated⟩ :=
              takeFree_spec described needFits enough
            exact ⟨_, result, total, pointer, allocated⟩
          · exact ih later (fun other member => free other (by simp [member])) found

-- Carving a new block

theorem lastBlock_size {previous fuel : Nat} (laid : Laid memory address previous chunks)
    (fits : ∀ chunk ∈ chunks, chunk.Fits) (some_carved : chunks ≠ [])
    (bounded : address + span chunks < WORD) (enough : span chunks ≤ fuel)
    : blockSize memory (lastBlock memory (address + span chunks) fuel address)
      = lastSize previous chunks := by
  induction chunks generalizing address previous fuel with
  | nil => exact absurd rfl some_carved
  | cons chunk rest ih =>
      have first := fits chunk (by simp)
      have size := blockSize_of_header first laid.1
      have least := first.1
      simp only [HEAP_MIN_BLOCK, span_cons] at least bounded enough ⊢
      have step : add32 address (blockSize memory address) = address + chunk.size := by
        rw [size]
        exact add32_eq (by omega)
      cases fuel with
      | zero => omega
      | succ fuel =>
          simp only [lastBlock, step, lastSize_cons]
          cases rest with
          | nil => simp [size]
          | cons next later =>
              have nextLeast := (fits next (by simp)).1
              simp only [HEAP_MIN_BLOCK] at nextLeast
              have below : address + chunk.size
                  < address + (chunk.size + span (next :: later)) := by
                simp only [span_cons]
                omega
              rw [if_pos below, ← Nat.add_assoc]
              exact ih laid.2.2 (fun other member => fits other (by simp [member]))
                (by simp) (by omega) (by omega)

/-- Carving off the end of a region whose `brk + need` does not wrap hands out a new last
block.
-/
theorem heapRegionBump_spec (described : Describes memory region chunks)
    (needFits : Chunk.Fits ⟨need, true⟩) (noWrap : region.brk + need < WORD)
    (carved : heapRegionBump memory region need = some outcome)
    : outcome.1 = region.base + region.brk + BLOCK_HDR
      ∧ Allocated memory region chunks need outcome.2.1 outcome.2.2
          (chunks ++ [⟨need, true⟩]) (region.base + region.brk) need := by
  have span_eq := described.carved
  have bounded := described.bounded
  have room := described.room
  have least := needFits.1
  simp only [HEAP_MIN_BLOCK] at least
  have limit : add32 region.base region.brk = region.base + region.brk :=
    add32_eq (by simp only [WORD]; omega)
  simp only [heapRegionBump, add32_eq noWrap, limit] at carved
  split at carved
  · cases carved
  rename_i fitsRoom
  have previous
      : (if region.brk ≠ 0 then
            blockSize memory
              (lastBlock memory (region.base + region.brk) region.size region.base)
          else 0)
        = lastSize 0 chunks := by
    rcases List.eq_nil_or_concat chunks with rfl | ⟨init, last, rfl⟩
    · simp [span_eq]
    · rw [List.concat_eq_append] at *
      have lastLeast := (described.fits last (by simp)).1
      simp only [HEAP_MIN_BLOCK] at lastLeast
      have present : region.brk ≠ 0 := by
        rw [span_eq, span_append, span_cons]
        omega
      rw [if_pos present, span_eq]
      exact lastBlock_size described.laid described.fits (by simp)
        (by simp only [WORD]; omega) (by omega)
  rw [previous, inUse_eq needFits.2] at carved
  obtain rfl := Option.some.inj carved
  have lastFits : lastSize 0 chunks < WORD := by
    rcases List.eq_nil_or_concat chunks with rfl | ⟨init, last, rfl⟩
    · simp [WORD]
    · rw [List.concat_eq_append, span_append, span_cons] at span_eq
      rw [List.concat_eq_append, lastSize_append]
      simp only [lastSize_cons, lastSize_nil, WORD]
      omega
  have below {start chunk} (place : (start, chunk) ∈ placed region.base chunks)
      : start + 16 ≤ region.base + region.brk := by
    have bounds := placed_bounds place
    have := (described.fits chunk (mem_of_placed place)).1
    simp only [HEAP_MIN_BLOCK] at this
    omega
  refine ⟨?_, {
    described := {
      fits := ?_
      laid := laid_append.mpr ⟨described.laid.congr ?_, ?_, ?_, trivial⟩
      carved := by simp [span_eq]
      room := by simp only; omega
      listed := ?_
      coalesced := ?_
      aligned := described.aligned
      positive := described.positive
      bounded := bounded
    }
    sameBase := rfl
    sameSize := rfl
    enough := Nat.le_refl need
    used := ?_
    fresh := ?_
    frame := ?_
  }⟩
  · exact add32_eq (by simp only [WORD, BLOCK_HDR]; omega)
  · intro chunk member
    rcases List.mem_append.mp member with old | new
    · exact described.fits chunk old
    · rw [List.mem_singleton.mp new]
      exact needFits
  · intro start chunk place
    have := below place
    refine ⟨?_, ?_⟩ <;>
    rw [setPrevSize, Memory.word_setWord_other _ (by omega), setSize,
      Memory.word_setWord_other _ (by omega)]
  · show Memory.word _ (region.base + span chunks) = need + 1
    rw [← span_eq, setPrevSize, Memory.word_setWord_other _ (by omega)]
    exact Memory.word_setWord_self memory _ (show need + 1 < 4294967296 by omega)
  · show Memory.word _ (region.base + span chunks + 4) = lastSize 0 chunks
    rw [← span_eq]
    exact Memory.word_setWord_self _ _ lastFits
  · rw [freeStarts_append, freeStarts_cons]
    simp only [if_true, freeStarts_nil, List.append_nil]
    refine described.listed.congr (fun node member => ?_)
    obtain ⟨chunk, place, _⟩ := mem_freeStarts.mp member
    have := below place
    simp only [flistNext, BLOCK_HDR]
    rw [setPrevSize, Memory.word_setWord_other _ (by omega), setSize,
      Memory.word_setWord_other _ (by omega)]
  · rcases List.eq_nil_or_concat chunks with rfl | ⟨init, last, rfl⟩
    · trivial
    · exact coalesced_join described.coalesced trivial (Or.inl rfl) (Or.inl rfl)
  · intro other size
    simp only [usedAt_append, usedAt_cons, usedAt_nil, Chunk.mk.injEq, and_true, or_false,
      span_eq, eq_comm (a := need)]
  · intro size used
    have := below used
    omega
  · intro location outside
    have apart : location < region.base + region.brk
        ∨ region.base + region.brk + 16 ≤ location := by
      rcases outside with before | behind | ⟨start, chunk, place, _, _, high⟩
      · omega
      · omega
      · have := (placed_bounds place).2
        omega
    simp only
    rw [setPrevSize, Memory.setWord_other _ (by omega), setSize,
      Memory.setWord_other _ (by omega)]

-- Releasing a block

theorem Untouched.congr {changed : Region} {others : List Chunk} {location : Nat}
    (untouched : Untouched region chunks location) (sameRun : region.SameRun changed)
    (same
      : ∀ start size,
          UsedAt region.base others start size ↔ UsedAt region.base chunks start size)
    : Untouched changed others location := by
  simp only [Untouched, payload_iff, ← sameRun.1, ← sameRun.2.2, same] at untouched ⊢
  exact untouched

theorem usedAt_clear (fits : ∀ chunk ∈ front ++ ⟨size, false⟩ :: rear, chunk.Fits)
    (positive : 0 < size) {length : Nat}
    : UsedAt address (front ++ ⟨size, false⟩ :: rear) start length
      ↔ UsedAt address (front ++ ⟨size, true⟩ :: rear) start length
        ∧ start ≠ address + span front := by
  constructor
  · intro used
    refine ⟨?_, ?_⟩
    · simp only [usedAt_append, usedAt_cons, Chunk.mk.injEq, Bool.false_eq_true, and_false,
        false_or] at used ⊢
      tauto
    · rintro rfl
      exact not_usedAt_free 0 fits positive length (by simpa using used)
  · rintro ⟨used, other⟩
    simp only [usedAt_append, usedAt_cons, Chunk.mk.injEq, Bool.false_eq_true, and_false,
      false_or] at used ⊢
    tauto

theorem usedAt_merge {first second : Nat}
    : UsedAt address (front ++ ⟨first + second, false⟩ :: rear) start size
      ↔ UsedAt address (front ++ ⟨first, false⟩ :: ⟨second, false⟩ :: rear) start size := by
  simp [usedAt_append, usedAt_cons, Nat.add_assoc]

theorem coalesced_before_free (coalesced : Coalesced (front ++ [⟨size, false⟩]))
    : ∀ last, front.getLast? = some last → last.used = true := by
  induction front with
  | nil => simp
  | cons first rest ih =>
      cases rest with
      | nil =>
          intro last isLast
          obtain rfl : first = last := by simpa using isLast
          simpa using coalesced.1
      | cons second later =>
          intro last isLast
          exact ih coalesced.2 last (by simpa using isLast)

/-- `free`'s first merge leaves an opened block behind a block in use or at the start. -/
theorem mergePrevious_spec {back : Nat} (opened : Opened memory region front size back rear)
    : let outcome := mergePrevious memory region (region.base + span front) size
      ∃ merged total,
        outcome.2.2 = (region.base + span merged, total)
        ∧ Opened outcome.1 outcome.2.1 merged total back rear
        ∧ region.SameRun outcome.2.1
        ∧ (∀ last, merged.getLast? = some last → last.used = true)
        ∧ (∀ start length,
            UsedAt region.base (merged ++ ⟨total, false⟩ :: rear) start length
            ↔ UsedAt region.base (front ++ ⟨size, false⟩ :: rear) start length)
        ∧ ∀ location,
            Untouched region (merged ++ ⟨total, false⟩ :: rear) location
            → outcome.1 location = memory location := by
  dsimp only
  have carved := opened.carved
  have bounded := opened.bounded
  have room := opened.room
  simp only [mergePrevious, blockPrevSize, opened.previous]
  rcases List.eq_nil_or_concat front with rfl | ⟨init, ⟨last, used⟩, rfl⟩
  · simp only [lastSize_nil, ne_eq, not_true_eq_false, false_and, if_false]
    exact ⟨[], size, rfl, opened, Region.SameRun.refl region, by simp,
      fun _ _ => Iff.rfl, fun _ _ => trivial⟩
  · rw [List.concat_eq_append] at *
    simp only [span_append, span_cons, span_nil, Nat.add_zero] at carved
    have lastFits := opened.frontFits ⟨last, used⟩ (by simp)
    have least := lastFits.1
    simp only [HEAP_MIN_BLOCK] at least
    have positive := opened.positive
    have place : sub32 (region.base + span (init ++ [⟨last, used⟩]))
        (lastSize 0 (init ++ [⟨last, used⟩])) = region.base + span init := by
      simp only [lastSize_append, lastSize_cons, lastSize_nil, span_append, span_cons,
        span_nil]
      rw [sub32_eq (by omega) (by simp only [WORD]; omega)]
      omega
    have header := opened.frontLaid.header
      (show (region.base + span init, ⟨last, used⟩) ∈ _ by simp)
    have present : lastSize 0 (init ++ [⟨last, used⟩]) ≠ 0 := by
      simp only [lastSize_append, lastSize_cons, lastSize_nil]
      omega
    simp only [place, blockUsed_of_header lastFits header, ne_eq, present,
      not_false_eq_true, Nat.le_add_right, true_and]
    cases used with
    | true =>
        simp only [Bool.true_eq_false, if_false]
        exact ⟨init ++ [⟨last, true⟩], size, rfl, opened, Region.SameRun.refl region,
          by simp, fun _ _ => Iff.rfl, fun _ _ => trivial⟩
    | false =>
        obtain ⟨found, merged, sameRun, frame⟩ := opened.merge_previous
        have sum : add32 last size = last + size :=
          add32_eq (by simp only [WORD]; omega)
        simp only [if_true, found, sum]
        refine ⟨init, last + size, rfl, merged, sameRun,
          coalesced_before_free opened.frontCoalesced, ?_, frame⟩
        intro start length
        rw [usedAt_merge, List.append_assoc, List.singleton_append]

theorem mergeNext_spec {back : Nat} (opened : Opened memory region front size back rear)
    : let outcome := mergeNext memory region (region.base + span front) size
      ∃ merged total later,
        outcome.2.2 = total
        ∧ Opened outcome.1 outcome.2.1 front total later merged
        ∧ region.SameRun outcome.2.1
        ∧ (∀ next, merged.head? = some next → next.used = true)
        ∧ (∀ start length,
            UsedAt region.base (front ++ ⟨total, false⟩ :: merged) start length
            ↔ UsedAt region.base (front ++ ⟨size, false⟩ :: rear) start length)
        ∧ ∀ location,
            Untouched region (front ++ ⟨total, false⟩ :: merged) location
            → outcome.1 location = memory location := by
  dsimp only
  have carved := opened.carved
  have bounded := opened.bounded
  have room := opened.room
  have place : add32 (region.base + span front) size = region.base + span front + size :=
    add32_eq (by simp only [WORD]; omega)
  have limit : add32 region.base region.brk = region.base + region.brk :=
    add32_eq (by simp only [WORD]; omega)
  simp only [mergeNext, place, limit]
  cases rear with
  | nil =>
      have ended : ¬region.base + span front + size < region.base + region.brk := by
        simp only [span_nil] at carved
        omega
      simp only [ended, false_and, if_false]
      exact ⟨[], size, back, rfl, opened, Region.SameRun.refl region, by simp,
        fun _ _ => Iff.rfl, fun _ _ => trivial⟩
  | cons next rest =>
      obtain ⟨length, used⟩ := next
      have nextFits := opened.rearFits ⟨length, used⟩ (by simp)
      have least := nextFits.1
      simp only [HEAP_MIN_BLOCK] at least
      simp only [span_cons] at carved
      have behind : region.base + span front + size < region.base + region.brk := by omega
      simp only [behind, blockUsed_of_header nextFits opened.rearLaid.1, true_and]
      cases used with
      | true =>
          simp only [Bool.true_eq_false, if_false]
          exact ⟨⟨length, true⟩ :: rest, size, back, rfl, opened,
            Region.SameRun.refl region, by simp, fun _ _ => Iff.rfl, fun _ _ => trivial⟩
      | false =>
          obtain ⟨found, merged, sameRun, frame⟩ := opened.merge_next
          have sum : add32 size length = size + length :=
            add32_eq (by simp only [WORD]; omega)
          simp only [if_true, found, sum]
          refine ⟨rest, size + length, length, rfl, merged, sameRun, ?_, ?_, frame⟩
          · intro next isNext
            have pair := opened.rearCoalesced
            cases rest with
            | nil => cases isNext
            | cons second others =>
                obtain rfl : second = next := by simpa using isNext
                simpa using pair.1
          · intro start other
            exact usedAt_merge

theorem releaseBlock_spec (described : Describes memory region chunks)
    (used : UsedAt region.base chunks start size)
    : let outcome := releaseBlock memory region start
      ∃ result, Released memory region chunks outcome.1 outcome.2 result start := by
  dsimp only
  obtain ⟨front, rear, rfl, rfl⟩ := placed_split used
  have fits := described.fits ⟨size, true⟩ (by simp)
  have least := fits.1
  simp only [HEAP_MIN_BLOCK] at least
  have header : blockSize memory (region.base + span front) = size :=
    blockSize_of_header fits (described.laid.header used)
  simp only [releaseBlock, header]
  have opened := described.open_used
  have cleared (location : Nat)
      (untouched : Untouched region (front ++ ⟨size, false⟩ :: rear) location)
      : setSize memory (region.base + span front) size location = memory location := by
    have apart := (untouched.apart (region.base + span front) opened.carved_span
      opened.blockFits (by simp)).1
    simp only [BLOCK_HDR] at apart
    exact Memory.setWord_other memory (by omega)
  obtain ⟨init, total, block, openedInit, runInit, lastUsed, usedInit, frameInit⟩ :=
    mergePrevious_spec opened
  generalize mergePrevious (setSize memory (region.base + span front) size) region
    (region.base + span front) size = first at block openedInit runInit frameInit
  obtain ⟨memory₁, region₁, block₁, total₁⟩ := first
  simp only [Prod.mk.injEq] at block
  obtain ⟨rfl, rfl⟩ := block
  simp only at openedInit runInit frameInit ⊢
  obtain ⟨tail, whole, later, same, openedTail, runTail, nextUsed, usedTail, frameTail⟩ :=
    mergeNext_spec openedInit
  rw [runInit.1]
  generalize mergeNext memory₁ region₁ (region₁.base + span init) total₁ = second
    at same openedTail runTail frameTail
  obtain ⟨memory₂, region₂, total₂⟩ := second
  simp only at same openedTail runTail frameTail ⊢
  subst same
  obtain ⟨closed, runClosed, frameClosed⟩ :=
    openedTail.close_free lastUsed nextUsed
  have whole := runInit.trans runTail
  rw [← runInit.1] at usedTail
  rw [runTail.1]
  refine ⟨_, {
    described := closed
    sameRun := whole.trans runClosed
    used := ?_
    frame := ?_
  }⟩
  · intro other length
    rw [usedTail, usedInit, usedAt_clear opened.fits (by omega), whole.1]
  · intro location untouched
    have atTail := untouched.congr runInit (fun _ _ => Iff.rfl)
    have atInit := untouched.congr (Region.SameRun.refl region)
      (fun start length => (usedTail start length).symm)
    have atStart := atInit.congr (Region.SameRun.refl region)
      (fun start length => (usedInit start length).symm)
    rw [frameClosed location (untouched.congr whole (fun _ _ => Iff.rfl)),
      frameTail location atTail, frameInit location atInit, cleared location atStart]

end Panuti.Libc
