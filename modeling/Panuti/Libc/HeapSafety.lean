import Panuti.Libc.HeapCalls

/-! Heap safety over whole runs. A process calls the heap and writes its own allocations in
any order; as long as no call makes a region's `brk + need` wrap, every live allocation is a
payload of its own inside the committed part of one region.
-/

namespace Panuti.Libc

open ByteMemory

-- Processes and their calls

/-- A live result of the heap and the number of bytes it was asked for. -/
structure Allocation where
  pointer : Nat
  size : Nat
deriving Repr, DecidableEq

/-- The heap together with the allocations its caller still holds. -/
structure Process where
  heap : Heap
  live : List Allocation

/-- What a process does: the four calls, and writing a byte of its own. -/
inductive Call where
  | malloc (size : Nat)
  | calloc (nmemb size : Nat)
  | realloc (pointer size : Nat)
  | free (pointer : Nat)
  | store (address : Nat) (value : UInt8)

/-- The caller no longer holds `pointer`. -/
def Process.drop (process : Process) (pointer : Nat) : List Allocation :=
  process.live.filter (fun allocation => allocation.pointer ≠ pointer)

/-- The caller holds a result of `size` bytes unless it is `NULL`. -/
def grant (live : List Allocation) (pointer size : Nat) : List Allocation :=
  if pointer = 0 then live else ⟨pointer, size⟩ :: live

def Process.call (mmapan : Mmapan) (heapStart : Nat) (process : Process) : Call → Process
  | .malloc size =>
      let (pointer, heap) := malloc mmapan heapStart process.heap size
      ⟨heap, grant process.live pointer size⟩
  | .calloc nmemb size =>
      let (pointer, heap) := calloc mmapan heapStart process.heap nmemb size
      ⟨heap, grant process.live pointer (nmemb * size)⟩
  | .realloc old size =>
      let (pointer, heap) := realloc mmapan heapStart process.heap old size
      if old ≠ 0 ∧ size = 0 then ⟨heap, process.drop old⟩
      else if pointer = 0 then ⟨heap, process.live⟩
      else ⟨heap, ⟨pointer, size⟩ :: process.drop old⟩
  | .free pointer => ⟨free process.heap pointer, process.drop pointer⟩
  | .store address value =>
      ⟨{ process.heap with memory := process.heap.memory.fill address 1 value },
        process.live⟩

/-- The pointer is `NULL` or live. -/
def Process.Holds (process : Process) (pointer : Nat) : Prop :=
  pointer = 0 ∨ ∃ allocation ∈ process.live, allocation.pointer = pointer

/-- Sizes are `size_t` values, pointers passed back are live or `NULL`, and the process
writes its own allocations only.
-/
def Call.Admissible (process : Process) : Call → Prop
  | .malloc size => size < WORD
  | .calloc nmemb size => nmemb < WORD ∧ size < WORD
  | .realloc pointer size => size < WORD ∧ process.Holds pointer
  | .free pointer => process.Holds pointer
  | .store address _ =>
      ∃ allocation ∈ process.live,
        allocation.pointer ≤ address ∧ address < allocation.pointer + allocation.size

/-- The size a call passes on to `malloc`, if it does. -/
def Call.request : Call → Option Nat
  | .malloc size => some size
  | .calloc nmemb size => if nmemb * size < WORD then some (nmemb * size) else none
  | .realloc pointer size => if pointer ≠ 0 ∧ size = 0 then none else some size
  | .free _ => none
  | .store _ _ => none

/-- The call makes no region's `brk + need` wrap. -/
def Call.Unwrapped (heap : Heap) (call : Call) : Prop :=
  ∀ size, call.request = some size → NoWrap heap size

/-- The processes reached from an empty heap by calls that `allowed` admits, the kernel
answering each as it likes with fresh runs.
-/
inductive Run (allowed : Heap → Call → Prop) (heapStart : Nat) : Process → Prop where
  | start (memory : Memory) : Run allowed heapStart ⟨⟨memory, []⟩, []⟩
  | call {process : Process} {call : Call} {mmapan : Mmapan}
      (reached : Run allowed heapStart process)
      (kernel : MmapanOk mmapan process.heap)
      (admissible : call.Admissible process)
      (fine : allowed process.heap call)
      : Run allowed heapStart (process.call mmapan heapStart call)

-- What a caller may expect

/-- Every live allocation is aligned, holds what it was asked for inside the committed part
of one region, and shares no byte with another one or with a block header.
-/
structure Process.Safe (process : Process) : Prop where
  aligned : ∀ allocation ∈ process.live, allocation.pointer % HEAP_ALIGN = 0
  holds
    : ∀ allocation ∈ process.live,
        allocation.size + BLOCK_HDR
          ≤ blockSize process.heap.memory (allocation.pointer - BLOCK_HDR)
  committed
    : ∀ allocation ∈ process.live, ∃ region ∈ process.heap.regions,
        region.base ≤ allocation.pointer
        ∧ allocation.pointer + allocation.size ≤ region.base + region.brk
  apart
    : process.live.Pairwise (fun left right =>
        left.pointer ≠ right.pointer
        ∧ (left.pointer + left.size ≤ right.pointer
          ∨ right.pointer + right.size ≤ left.pointer))
  headers
    : ∀ allocation ∈ process.live, ∀ region ∈ process.heap.regions, ∀ start chunk,
        (start, chunk) ∈ placed region.base (layout process.heap.memory region)
        → allocation.pointer + allocation.size ≤ start
          ∨ start + BLOCK_HDR ≤ allocation.pointer

/-- The invariant of a run: live allocations are distinct blocks in use of a sound heap. -/
structure Process.Owned (process : Process) : Prop where
  sound : process.heap.Sound
  backed
    : ∀ allocation ∈ process.live, ∃ start total,
        allocation.pointer = start + BLOCK_HDR
        ∧ process.heap.Used start total
        ∧ allocation.size + BLOCK_HDR ≤ total
  distinct : process.live.Pairwise (fun left right => left.pointer ≠ right.pointer)

variable {heap : Heap} {start : Nat} {process : Process}

theorem Heap.Sound.used_committed {total : Nat} (sound : heap.Sound) (used : heap.Used start total)
    : blockSize heap.memory start = total
      ∧ (∃ region ∈ heap.regions,
          region.base ≤ start ∧ start + total ≤ region.base + region.brk)
      ∧ ∀ region ∈ heap.regions, ∀ other chunk,
          (other, chunk) ∈ placed region.base (layout heap.memory region)
          → other = start ∨ start + total ≤ other ∨ other + BLOCK_HDR ≤ start := by
  obtain ⟨owner, present, usedHere⟩ := used
  have described := sound.described owner present
  have inside := described.used_inside usedHere
  refine ⟨?_, ⟨owner, present, inside.1, inside.2.1⟩, ?_⟩
  · exact blockSize_of_header (described.fits _ (mem_of_placed usedHere))
      (described.laid.header usedHere)
  · intro region member other chunk place
    have least := ((sound.described region member).fits chunk (mem_of_placed place)).1
    simp only [HEAP_MIN_BLOCK] at least
    by_cases same : region = owner
    · subst same
      rcases placed_apart usedHere place with ⟨here, _⟩ | before | after
      · exact Or.inl here.symm
      · exact Or.inr (Or.inl before)
      · exact Or.inr (Or.inr (by simp only [BLOCK_HDR]; omega))
    · have apart : region.Apart owner := sound.apart.forall member present same
      have bounds := placed_bounds place
      have carved := (sound.described region member).carved
      have room := (sound.described region member).room
      have ownerRoom := described.room
      simp only [Region.Apart] at apart
      simp only [BLOCK_HDR]
      omega

theorem Process.Owned.safe (owned : process.Owned) : process.Safe := by
  have sound := owned.sound
  refine ⟨?_, ?_, ?_, ?_, ?_⟩
  · intro allocation member
    obtain ⟨start, total, place, used, _⟩ := owned.backed allocation member
    have bounds := sound.used_bounds used
    simp only [BLOCK_HDR, HEAP_ALIGN] at place ⊢
    omega
  · intro allocation member
    obtain ⟨start, total, place, used, enough⟩ := owned.backed allocation member
    have size := (sound.used_committed used).1
    rw [place, Nat.add_sub_cancel, size]
    exact enough
  · intro allocation member
    obtain ⟨start, total, place, used, enough⟩ := owned.backed allocation member
    obtain ⟨region, present, low, high⟩ := (sound.used_committed used).2.1
    exact ⟨region, present, by omega, by omega⟩
  · apply owned.distinct.imp_of_mem
    intro left right leftMember rightMember different
    obtain ⟨start, total, place, used, enough⟩ := owned.backed left leftMember
    obtain ⟨other, size, placeToo, usedToo, enoughToo⟩ := owned.backed right rightMember
    refine ⟨different, ?_⟩
    have apart := sound.used_apart used usedToo
    omega
  · intro allocation member region present other chunk header
    obtain ⟨start, total, place, used, enough⟩ := owned.backed allocation member
    have apart := (sound.used_committed used).2.2 region present other chunk header
    simp only [BLOCK_HDR] at *
    omega

-- One call keeps the invariant

theorem Process.Owned.keep (owned : process.Owned) (keeps : process.heap.Keeps heap)
    : Process.Owned ⟨heap, process.live⟩ := by
  refine ⟨keeps.sound, ?_, owned.distinct⟩
  intro allocation member
  obtain ⟨start, total, place, used, enough⟩ := owned.backed allocation member
  exact ⟨start, total, place, (keeps.used start total).mpr used, enough⟩

theorem Process.Owned.allocate {size : Nat} {outcome : Nat × Heap} (owned : process.Owned)
    (allocates : AllocatesFor process.heap size outcome)
    : Process.Owned ⟨outcome.2, grant process.live outcome.1 size⟩ := by
  obtain ⟨pointer, heap⟩ := outcome
  rcases allocates with ⟨null, keeps⟩ | ⟨start, total, place, gains⟩
  · simp only at null keeps
    simp only [grant, null, if_true]
    exact owned.keep keeps
  · simp only at place gains
    have present : pointer ≠ 0 := by simp [place, BLOCK_HDR]
    simp only [grant, present, if_false]
    refine ⟨gains.sound, ?_, List.pairwise_cons.mpr ⟨?_, owned.distinct⟩⟩
    · intro allocation member
      rcases List.mem_cons.mp member with rfl | old
      · exact ⟨start, total, place, (gains.used start total).mpr (Or.inr ⟨rfl, rfl⟩),
          gains.enough⟩
      · obtain ⟨other, length, otherPlace, used, enough⟩ := owned.backed allocation old
        exact ⟨other, length, otherPlace, (gains.used other length).mpr (Or.inl used),
          enough⟩
    · intro allocation old same
      obtain ⟨other, length, otherPlace, used, _⟩ := owned.backed allocation old
      have : start = other := by simp only at same; omega
      subst this
      exact gains.fresh length used

theorem Process.Owned.release (owned : process.Owned) (loses : process.heap.Loses heap start)
    : Process.Owned ⟨heap, process.drop (start + BLOCK_HDR)⟩ := by
  refine ⟨loses.sound, ?_, owned.distinct.filter _⟩
  intro allocation member
  obtain ⟨old, different⟩ := List.mem_filter.mp member
  obtain ⟨other, total, place, used, enough⟩ := owned.backed allocation old
  refine ⟨other, total, place, (loses.used other total).mpr ⟨used, ?_⟩, enough⟩
  rintro rfl
  simp [place] at different

theorem Process.Owned.move {size old count total : Nat} (owned : process.Owned)
    (moves : process.heap.Moves heap (size + BLOCK_HDR) old count start total)
    (held : ∃ length, process.heap.Used old length)
    : Process.Owned
        ⟨heap, ⟨start + BLOCK_HDR, size⟩ :: process.drop (old + BLOCK_HDR)⟩ := by
  have different : start ≠ old := by
    rintro rfl
    obtain ⟨length, used⟩ := held
    exact moves.fresh length used
  refine ⟨moves.sound, ?_, List.pairwise_cons.mpr ⟨?_, owned.distinct.filter _⟩⟩
  · intro allocation member
    rcases List.mem_cons.mp member with rfl | kept
    · exact ⟨start, total, rfl,
        (moves.used start total).mpr ⟨Or.inr ⟨rfl, rfl⟩, different⟩, moves.enough⟩
    · obtain ⟨present, other⟩ := List.mem_filter.mp kept
      obtain ⟨place, length, address, used, enough⟩ := owned.backed allocation present
      refine ⟨place, length, address, (moves.used place length).mpr ⟨Or.inl used, ?_⟩,
        enough⟩
      rintro rfl
      simp [address] at other
  · intro allocation kept same
    obtain ⟨present, _⟩ := List.mem_filter.mp kept
    obtain ⟨place, length, address, used, _⟩ := owned.backed allocation present
    have : start = place := by simp only at same; omega
    subst this
    exact moves.fresh length used

theorem Process.Owned.held {process : Process} {pointer : Nat} (owned : process.Owned)
    (holds : process.Holds pointer) (present : pointer ≠ 0)
    : ∃ start total, pointer = start + BLOCK_HDR ∧ process.heap.Used start total := by
  rcases holds with null | ⟨allocation, member, rfl⟩
  · exact absurd null present
  · obtain ⟨start, total, place, used, _⟩ := owned.backed allocation member
    exact ⟨start, total, place, used⟩

theorem Process.Owned.drop_null (owned : process.Owned) : process.drop 0 = process.live := by
  apply List.filter_eq_self.mpr
  intro allocation member
  obtain ⟨start, total, place, _, _⟩ := owned.backed allocation member
  simp [place, BLOCK_HDR]

theorem Process.Owned.call {mmapan : Mmapan} {heapStart : Nat} {call : Call} (owned : process.Owned)
    (kernel : MmapanOk mmapan process.heap) (admissible : call.Admissible process)
    (unwrapped : call.Unwrapped process.heap)
    : (process.call mmapan heapStart call).Owned := by
  cases call with
  | malloc size =>
      exact owned.allocate (malloc_spec heapStart owned.sound kernel (unwrapped size rfl))
  | calloc nmemb size =>
      apply owned.allocate
      apply calloc_spec heapStart owned.sound kernel
      intro product
      exact unwrapped _ (by simp [Call.request, product])
  | free pointer =>
      by_cases null : pointer = 0
      · subst null
        simp only [Process.call, free, if_true, owned.drop_null]
        exact owned
      · obtain ⟨start, total, rfl, used⟩ := owned.held admissible null
        exact owned.release (free_spec owned.sound used)
  | realloc old size =>
      by_cases null : old = 0
      · subst null
        have allocated := owned.allocate (malloc_spec heapStart owned.sound
          kernel (unwrapped size (by simp [Call.request])))
        simp only [Process.call, realloc, ne_eq, not_true_eq_false, false_and, if_true,
          if_false, owned.drop_null]
        by_cases failed : (malloc mmapan heapStart process.heap size).1 = 0
        · simpa [grant, failed] using allocated
        · simpa [grant, failed] using allocated
      · obtain ⟨start, length, rfl, used⟩ := owned.held admissible.2 null
        by_cases zero : size = 0
        · subst zero
          simp only [Process.call, realloc, null, ne_eq, not_false_eq_true, and_self,
            if_true, if_false]
          exact owned.release (free_spec owned.sound used)
        · have outcome := realloc_spec heapStart owned.sound kernel
            (unwrapped size (by simp [Call.request, zero])) used (Nat.pos_of_ne_zero zero)
          simp only [Process.call, zero, and_false, if_false]
          rcases outcome with ⟨failed, keeps⟩ | ⟨place, total, result, moves⟩
          · simp only [failed, if_true]
            exact owned.keep keeps
          · have present : place + BLOCK_HDR ≠ 0 := by simp [BLOCK_HDR]
            simp only [result, present, if_false]
            exact owned.move moves ⟨length, used⟩
  | store address value =>
      obtain ⟨allocation, member, low, high⟩ := admissible
      obtain ⟨start, total, place, used, enough⟩ := owned.backed allocation member
      obtain ⟨sound, same⟩ := owned.sound.write
        (process.heap.memory.fill address 1 value) (by
          intro location outside
          apply Memory.fill_other
          by_contra inside
          exact outside ⟨start, total, used, by omega, by omega⟩)
      refine ⟨sound, ?_, owned.distinct⟩
      intro held present
      obtain ⟨other, length, otherPlace, otherUsed, holds⟩ := owned.backed held present
      exact ⟨other, length, otherPlace, (same other length).mpr otherUsed, holds⟩

theorem Run.owned {heapStart : Nat}
    (run : Run (fun heap call => call.Unwrapped heap) heapStart process)
    : process.Owned := by
  induction run with
  | start memory => exact ⟨⟨by simp, List.Pairwise.nil⟩, by simp, List.Pairwise.nil⟩
  | call _ kernel admissible fine ih => exact ih.call kernel admissible fine

-- Heap safety

/-- While no call makes a region's `brk + need` wrap, every live allocation is aligned,
committed, large enough and disjoint from all others and from all headers, and a `realloc`
that succeeds keeps the bytes both sizes share.
-/
theorem Run.heap_safe {heapStart : Nat} {process : Process}
    (run : Run (fun heap call => call.Unwrapped heap) heapStart process)
    : process.Safe
      ∧ ∀ mmapan size, ∀ allocation ∈ process.live,
          MmapanOk mmapan process.heap
          → NoWrap process.heap size
          → let outcome := realloc mmapan heapStart process.heap allocation.pointer size
            outcome.1 ≠ 0
            → ∀ index < min allocation.size size,
                outcome.2.memory (outcome.1 + index)
                = process.heap.memory (allocation.pointer + index) := by
  refine ⟨run.owned.safe, ?_⟩
  intro mmapan size allocation member kernel noWrap outcome succeeds index below
  obtain ⟨start, total, place, used, enough⟩ := run.owned.backed allocation member
  have moved := realloc_spec heapStart run.owned.sound kernel noWrap used
    (by omega)
  simp only [← place] at moved
  rcases moved with ⟨failed, _⟩ | ⟨fresh, length, result, moves⟩
  · exact absurd failed succeeds
  · have kept := moves.moved index (by omega)
    rw [← result, ← place] at kept
    exact kept

/-- A kernel that has one run of user space to give. -/
def oneRun : Mmapan := fun length _ =>
  if length ≤ MMAPAN_MAX then some 0x08050000 else none

def noRun : Mmapan := fun _ _ => none

def freshProcess : Process := ⟨⟨fun _ => 0, []⟩, []⟩

/-- A process that asked for 16 bytes, out of its first region. -/
def smallProcess : Process := freshProcess.call oneRun 0x08050000 (.malloc 16)

theorem smallProcess_run (allowed : Heap → Call → Prop)
    (fine : allowed freshProcess.heap (.malloc 16))
    : Run allowed 0x08050000 smallProcess := by
  have kernel : MmapanOk oneRun freshProcess.heap := by
    intro length hint base answer
    simp only [oneRun] at answer
    split at answer
    · rename_i fits
      simp only [MMAPAN_MAX] at fits
      obtain rfl := Option.some.inj answer
      exact ⟨by decide, by decide, by omega, by simp [freshProcess]⟩
    · cases answer
  exact Run.call (Run.start _) kernel (show 16 < WORD by decide) fine

theorem noRun_ok (heap : Heap) : MmapanOk noRun heap := by
  intro length hint base answer
  cases answer

/-- The 16 bytes of the small process are safe, and enlarging them keeps them. -/
theorem heap_safe_small
    : smallProcess.Safe
      ∧ let outcome := realloc noRun 0x08050000 smallProcess.heap 0x08050008 32
        outcome.1 ≠ 0
        ∧ ∀ index < 16,
            outcome.2.memory (outcome.1 + index)
            = smallProcess.heap.memory (0x08050008 + index) := by
  have unwrapped : Call.Unwrapped freshProcess.heap (.malloc 16) := by
    intro size _ _ region member
    simp [freshProcess] at member
  obtain ⟨safe, kept⟩ := (smallProcess_run (fun heap call => call.Unwrapped heap)
    unwrapped).heap_safe
  have noWrap : NoWrap smallProcess.heap 32 := by
    intro _ region member
    have only : smallProcess.heap.regions = [⟨0x08050000, 0x100000, 24, 0⟩] := by decide
    rw [only, List.mem_singleton] at member
    subst member
    decide
  refine ⟨safe, by decide, ?_⟩
  exact kept noRun 32 ⟨0x08050008, 16⟩ (by decide) (noRun_ok _) noWrap (by decide)

/-- With no condition on the calls, a run reaches a process whose live allocation is not
committed: `brk + need` wraps in the second call and passes for a small sum.
-/
theorem heap_unsafe_wrap
    : ¬∀ heapStart process,
        Run (fun _ _ => True) heapStart process → process.Safe := by
  intro safe
  have run : Run (fun _ _ => True) 0x08050000
      (smallProcess.call noRun 0x08050000 (.malloc 0xFFFFFFF0)) :=
    Run.call (smallProcess_run _ trivial) (noRun_ok _) (show 0xFFFFFFF0 < WORD by decide)
      trivial
  obtain ⟨region, present, _, high⟩ :=
    (safe _ _ run).committed ⟨0x08050020, 0xFFFFFFF0⟩ (by decide)
  have only : (smallProcess.call noRun 0x08050000 (.malloc 0xFFFFFFF0)).heap.regions
      = [⟨0x08050000, 0x100000, 16, 0⟩] := by decide
  rw [only, List.mem_singleton] at present
  subst present
  simp only at high
  omega

end Panuti.Libc
