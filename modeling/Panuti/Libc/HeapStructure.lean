import Panuti.Libc.HeapSafety

/-! The structure of the heap over whole runs. As long as no request is larger than a run the
kernel would give, the headers of every region tile its committed part and the free list threads
exactly the free blocks.
-/

namespace Panuti.Libc

open ByteMemory
open IntrusiveList (Segment)

-- Tidy regions

/-- The blocks `layout` reads off the headers of a region tile its committed part, each knows the
size of the one before it, the free list consists of the free ones in address order, and no two
neighbours are both free.
-/
structure Tidy (memory : Memory) (region : Region) : Prop where
  tiles : span (layout memory region) = region.brk
  fits : ∀ chunk ∈ layout memory region, chunk.Fits
  headers
    : ∀ start chunk, (start, chunk) ∈ placed region.base (layout memory region)
      → blockSize memory start = chunk.size ∧ blockUsed memory start = chunk.used
  previous
    : ∀ front chunk back, layout memory region = front ++ chunk :: back
      → blockPrevSize memory (region.base + span front) = lastSize 0 front
  listed
    : Segment (flistNext memory) region.flist
        (freeStarts region.base (layout memory region)) 0
  ordered : (freeStarts region.base (layout memory region)).Pairwise (fun one two => one < two)
  merged
    : ∀ front first second back, layout memory region = front ++ first :: second :: back
      → first.used = true ∨ second.used = true

theorem Coalesced.neighbours {front back : List Chunk} {first second : Chunk}
    (coalesced : Coalesced (front ++ first :: second :: back))
    : first.used = true ∨ second.used = true := by
  induction front with
  | nil => exact coalesced.1
  | cons chunk rest ih =>
      apply ih
      cases rest with
      | nil => exact coalesced.2
      | cons next more => exact coalesced.2

theorem Describes.tidy {memory : Memory} {region : Region}
    (described : Describes memory region (layout memory region))
    : Tidy memory region where
  tiles := described.carved.symm
  fits := described.fits
  headers start chunk place := by
    have fits := described.fits chunk (mem_of_placed place)
    have header := described.laid.header place
    exact ⟨blockSize_of_header fits header, blockUsed_of_header fits header⟩
  previous front chunk back split := by
    have laid := described.laid
    rw [split] at laid
    exact (laid_append.mp laid).2.2.1
  listed := described.listed
  ordered := (freeStarts_spaced described.fits).imp (fun {one two} apart => by
    simp only [HEAP_MIN_BLOCK] at apart
    omega)
  merged front first second back split := by
    have coalesced := described.coalesced
    rw [split] at coalesced
    exact coalesced.neighbours

-- Requests that wrap no region

def Call.Moderate (call : Call) : Prop :=
  ∀ size, call.request = some size → size ≤ 16 * 1024 * 1024

theorem Heap.Sound.unwrapped {heap : Heap} {call : Call} (sound : heap.Sound)
    (moderate : call.Moderate)
    : call.Unwrapped heap := by
  intro size asked guarded region member
  have small := moderate size asked
  have described := sound.described region member
  have room := described.room
  have bounded := described.bounded
  have positive := described.positive
  have need : blockNeed size ≤ size + 16 := by
    have header : add32 size BLOCK_HDR = size + 8 :=
      add32_eq (by simp only [WORD, BLOCK_HDR]; omega)
    have padded : add32 (size + 8) 7 = size + 8 + 7 :=
      add32_eq (by simp only [WORD]; omega)
    simp only [blockNeed, heapAlignUp, header, HEAP_ALIGN, HEAP_MIN_BLOCK, padded]
    split <;> omega
  simp only [WORD]
  omega

theorem Run.owned_of_moderate {heapStart : Nat} {process : Process}
    (run : Run (fun _ call => call.Moderate) heapStart process)
    : process.Owned := by
  induction run with
  | start memory => exact ⟨⟨by simp, List.Pairwise.nil⟩, by simp, List.Pairwise.nil⟩
  | call _ kernel admissible moderate ih =>
      exact ih.call kernel admissible (ih.sound.unwrapped moderate)

/-- In every process reached by requests of at most 16 MiB, every region of the heap is tidy. -/
theorem Run.heap_tidy {heapStart : Nat} {process : Process}
    (run : Run (fun _ call => call.Moderate) heapStart process)
    : ∀ region ∈ process.heap.regions, Tidy process.heap.memory region :=
  fun region member => (run.owned_of_moderate.sound.described region member).tidy

/-- The one region of the small process is tidy. -/
theorem heap_tidy_small : Tidy smallProcess.heap.memory ⟨0x08050000, 0x100000, 24, 0⟩ := by
  have moderate : Call.Moderate (.malloc 16) := by
    intro size asked
    obtain rfl : 16 = size := Option.some.inj asked
    decide
  exact Run.heap_tidy (smallProcess_run _ moderate) _ (by decide)

end Panuti.Libc
