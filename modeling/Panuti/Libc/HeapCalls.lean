import Panuti.Libc.HeapSteps

/-! The four calls of the heap on a sound heap: what `malloc`, `calloc`, `free` and `realloc`
add to and take from the blocks in use.
-/

namespace Panuti.Libc

open ByteMemory
open IntrusiveList (Segment)

-- What the calls rely on

/-- Answers of `mmapan` are fresh page-aligned runs of user space. -/
def MmapanOk (mmapan : Mmapan) (heap : Heap) : Prop :=
  ∀ length hint base,
    mmapan length hint = some base
    → base % HEAP_PAGE_SIZE = 0
      ∧ 0x08048000 ≤ base
      ∧ base + length ≤ 0xC0000000
      ∧ ∀ region ∈ heap.regions,
          region.base + region.size ≤ base ∨ base + length ≤ region.base

/-- A request that passes `malloc`'s own guard wraps no region's `brk + need`. -/
def NoWrap (heap : Heap) (size : Nat) : Prop :=
  size ≤ WORD - 1 - BLOCK_HDR - (HEAP_ALIGN - 1)
  → ∀ region ∈ heap.regions, region.brk + blockNeed size < WORD

variable {size need start : Nat} {carve : Region → Option (Nat × Memory × Region)}
    {regions : List Region} {memory : Memory} {heap : Heap} {mmapan : Mmapan} {region : Region}

theorem blockNeed_fits (guarded : size ≤ WORD - 1 - BLOCK_HDR - (HEAP_ALIGN - 1))
    : Chunk.Fits ⟨blockNeed size, true⟩
      ∧ size + BLOCK_HDR ≤ blockNeed size
      ∧ blockNeed size < WORD := by
  simp only [WORD, BLOCK_HDR, HEAP_ALIGN] at guarded
  have header : add32 size BLOCK_HDR = size + 8 :=
    add32_eq (by simp only [WORD, BLOCK_HDR]; omega)
  have padded : add32 (size + 8) (HEAP_ALIGN - 1) = size + 8 + 7 :=
    add32_eq (by simp only [WORD, HEAP_ALIGN]; omega)
  have aligned : heapAlignUp (add32 size BLOCK_HDR) = (size + 15) / 8 * 8 := by
    rw [heapAlignUp, header, padded]
    rfl
  have need_eq : blockNeed size = max 16 ((size + 15) / 8 * 8) := by
    simp only [blockNeed, aligned, HEAP_MIN_BLOCK]
    split <;> omega
  simp only [need_eq, Chunk.Fits, HEAP_MIN_BLOCK, BLOCK_HDR, WORD]
  omega

-- Searching the regions

theorem firstRegion_some {pointer : Nat} {changed : List Region}
    (found : firstRegion carve regions = some (pointer, memory, changed))
    : ∃ front region back after,
        regions = front ++ region :: back
        ∧ carve region = some (pointer, memory, after)
        ∧ changed = front ++ after :: back := by
  induction regions generalizing changed with
  | nil => cases found
  | cons region rest ih =>
      simp only [firstRegion] at found
      cases carved : carve region with
      | some outcome =>
          simp only [carved, Option.some.injEq, Prod.mk.injEq] at found
          obtain ⟨rfl, rfl, rfl⟩ := found
          exact ⟨[], region, rest, outcome.2.2, rfl, carved, rfl⟩
      | none =>
          simp only [carved] at found
          cases later : firstRegion carve rest with
          | none => simp [later] at found
          | some outcome =>
              simp only [later, Option.some.injEq, Prod.mk.injEq] at found
              obtain ⟨rfl, rfl, rfl⟩ := found
              obtain ⟨front, inside, back, after, split, carvedInside, same⟩ := ih later
              exact ⟨region :: front, inside, back, after, by simp [split], carvedInside,
                by simp [same]⟩

theorem firstRegion_gains {pointer : Nat} (sound : heap.Sound)
    (carves
      : ∀ region ∈ heap.regions, ∀ outcome, carve region = some outcome
        → ∃ start result total,
            outcome.1 = start + BLOCK_HDR
            ∧ Allocated heap.memory region (layout heap.memory region) need outcome.2.1
                outcome.2.2 result start total)
    (found : firstRegion carve heap.regions = some (pointer, memory, regions))
    : ∃ start total,
        pointer = start + BLOCK_HDR ∧ heap.Gains ⟨memory, regions⟩ need start total := by
  obtain ⟨front, region, back, after, split, carved, rfl⟩ := firstRegion_some found
  obtain ⟨start, result, total, rfl, allocated⟩ :=
    carves region (by simp [split]) _ carved
  obtain ⟨heapMemory, heapRegions⟩ := heap
  obtain rfl := split
  exact ⟨start, total, rfl, sound.allocate allocated⟩

-- Growing

theorem heapGrow_some {heapStart : Nat}
    (grown : heapGrow mmapan heapStart heap need = some (memory, region))
    : ∃ length hint base,
        mmapan length hint = some base
        ∧ memory = heap.memory.fill base length 0
        ∧ region = ⟨base, length, 0, 0⟩ := by
  simp only [heapGrow] at grown
  split_ifs at grown
  cases answer : askKernel mmapan heapStart heap.regions (growLength need) with
  | none => simp [answer] at grown
  | some base =>
      simp only [answer, Option.some.injEq, Prod.mk.injEq] at grown
      obtain ⟨rfl, rfl⟩ := grown
      have asked : ∃ hint, mmapan (growLength need) hint = some base := by
        simp only [askKernel] at answer
        split at answer
        · exact ⟨_, answer⟩
        · split at answer
          · rename_i found
            exact ⟨_, found.trans answer⟩
          · exact ⟨_, answer⟩
      obtain ⟨hint, asked⟩ := asked
      exact ⟨_, hint, base, asked, rfl, rfl⟩

/-- A grown heap is the old one with one more region, in which nothing is carved. -/
theorem heapGrow_spec {heapStart : Nat} (sound : heap.Sound) (kernel : MmapanOk mmapan heap)
    (grown : heapGrow mmapan heapStart heap need = some (memory, region))
    : heap.Keeps ⟨memory, heap.regions ++ [region]⟩
      ∧ Describes memory region []
      ∧ region.brk = 0 := by
  obtain ⟨length, hint, base, answer, rfl, rfl⟩ := heapGrow_some grown
  obtain ⟨page, low, high, apart⟩ := kernel length hint base answer
  simp only [HEAP_PAGE_SIZE] at page
  have fresh : Describes (heap.memory.fill base length 0) ⟨base, length, 0, 0⟩ [] := {
    fits := by simp
    laid := trivial
    carved := rfl
    room := Nat.zero_le _
    listed := rfl
    coalesced := trivial
    aligned := by simp only; omega
    positive := by simp only; omega
    bounded := high
  }
  have kept : ∀ region ∈ heap.regions,
      Describes (heap.memory.fill base length 0) region (layout heap.memory region) := by
    intro region member
    refine (sound.described region member).congr_apart (Or.symm (apart region member)) ?_
    intro location outside
    exact Memory.fill_other heap.memory (by omega)
  refine ⟨⟨⟨?_, ?_⟩, ?_, ?_⟩, fresh, rfl⟩
  · intro region member
    rcases List.mem_append.mp member with old | new
    · rw [(kept region old).layout_eq]
      exact kept region old
    · rw [List.mem_singleton.mp new, fresh.layout_eq]
      exact fresh
  · refine List.pairwise_append.mpr ⟨sound.apart, List.pairwise_singleton _ _, ?_⟩
    intro region member new isNew
    rw [List.mem_singleton.mp isNew]
    exact apart region member
  · intro start size
    simp only [Heap.Used, List.mem_append, List.mem_singleton]
    constructor
    · rintro ⟨region, old | rfl, used⟩
      · exact ⟨region, old, by rwa [(kept region old).layout_eq] at used⟩
      · rw [fresh.layout_eq] at used
        exact absurd used usedAt_nil
    · rintro ⟨region, old, used⟩
      exact ⟨region, Or.inl old, by rwa [(kept region old).layout_eq]⟩
  · rintro location ⟨start, size, ⟨region, member, used⟩, lowInside, highInside⟩
    have inside := (sound.described region member).used_inside used
    have room := (sound.described region member).room
    have := apart region member
    exact Memory.fill_other heap.memory (by omega)

-- malloc

/-- The outcome of an allocation: `NULL` and nothing changed, or one new block that holds
the request.
-/
def AllocatesFor (heap : Heap) (size : Nat) (outcome : Nat × Heap) : Prop :=
  (outcome.1 = 0 ∧ heap.Keeps outcome.2)
  ∨ ∃ start total,
      outcome.1 = start + BLOCK_HDR
      ∧ heap.Gains outcome.2 (size + BLOCK_HDR) start total

theorem Heap.Gains.weaken {after : Heap} {less total : Nat}
    (gains : heap.Gains after need start total) (le : less ≤ need)
    : heap.Gains after less start total :=
  { gains with enough := Nat.le_trans le gains.enough }

theorem malloc_spec (heapStart : Nat) (sound : heap.Sound) (kernel : MmapanOk mmapan heap)
    (noWrap : NoWrap heap size)
    : AllocatesFor heap size (malloc mmapan heapStart heap size) := by
  by_cases tooLarge : size > WORD - 1 - BLOCK_HDR - (HEAP_ALIGN - 1)
  · rw [malloc, if_pos tooLarge]
    exact Or.inl ⟨rfl, sound.keeps⟩
  have guarded := Nat.le_of_not_lt tooLarge
  obtain ⟨needFits, holds, needBounded⟩ := blockNeed_fits guarded
  have noWrap := noWrap guarded
  simp only [malloc, if_neg tooLarge]
  generalize blockNeed size = need at needFits holds needBounded noWrap ⊢
  cases fit : firstRegion (fun region =>
      fitFree heap.memory region need (flistFuel region) region.flist) heap.regions with
  | some outcome =>
      obtain ⟨pointer, memory, regions⟩ := outcome
      obtain ⟨start, total, place, gains⟩ := firstRegion_gains sound (by
        intro region member outcome carved
        have described := sound.described region member
        exact fitFree_spec described needFits described.listed (fun node free => free)
          carved) fit
      exact Or.inr ⟨start, total, place, gains.weaken holds⟩
  | none =>
      cases bump : firstRegion (fun region => heapRegionBump heap.memory region need)
          heap.regions with
      | some outcome =>
          obtain ⟨pointer, memory, regions⟩ := outcome
          obtain ⟨start, total, place, gains⟩ := firstRegion_gains sound (by
            intro region member outcome carved
            obtain ⟨place, allocated⟩ := heapRegionBump_spec
              (sound.described region member) needFits (noWrap region member) carved
            exact ⟨_, _, _, place, allocated⟩) bump
          exact Or.inr ⟨start, total, place, gains.weaken holds⟩
      | none =>
          cases grow : heapGrow mmapan heapStart heap need with
          | none => exact Or.inl ⟨rfl, sound.keeps⟩
          | some grown =>
              obtain ⟨memory, region⟩ := grown
              obtain ⟨keeps, described, empty⟩ := heapGrow_spec sound kernel grow
              simp only
              cases carve : heapRegionBump memory region need with
              | none => exact Or.inl ⟨rfl, keeps⟩
              | some outcome =>
                  obtain ⟨pointer, after, changed⟩ := outcome
                  obtain ⟨place, allocated⟩ := heapRegionBump_spec described needFits
                    (by omega) carve
                  rw [← described.layout_eq] at allocated
                  have gains := keeps.sound.allocate allocated
                  exact Or.inr ⟨_, _, place, (keeps.gains gains).weaken holds⟩

-- free

theorem Heap.Sound.used_apart {first second other : Nat} (sound : heap.Sound)
    (left : heap.Used first size) (right : heap.Used second other)
    : (first = second ∧ size = other)
      ∨ first + size ≤ second
      ∨ second + other ≤ first := by
  obtain ⟨region, member, used⟩ := left
  obtain ⟨owner, present, usedToo⟩ := right
  by_cases same : region = owner
  · subst same
    simpa [Chunk.mk.injEq] using placed_apart used usedToo
  · have apart : region.Apart owner := sound.apart.forall member present same
    have inside := (sound.described region member).used_inside used
    have room := (sound.described region member).room
    have insideToo := (sound.described owner present).used_inside usedToo
    have roomToo := (sound.described owner present).room
    simp only [Region.Apart] at apart
    omega

theorem Heap.Sound.used_bounds (sound : heap.Sound) (used : heap.Used start size)
    : HEAP_MIN_BLOCK ≤ size ∧ start % 8 = 0 ∧ 0 < start ∧ start + size < WORD := by
  obtain ⟨region, member, used⟩ := used
  have described := sound.described region member
  have inside := described.used_inside used
  have room := described.room
  have positive := described.positive
  have bounded := described.bounded
  simp only [WORD]
  omega

theorem releaseIn_eq {block : Nat} {front back : List Region}
    (outside : ∀ other ∈ front, inRegion other block = false)
    (inside : inRegion region block = true)
    : releaseIn memory block (front ++ region :: back)
      = ((releaseBlock memory region block).1,
          front ++ (releaseBlock memory region block).2 :: back) := by
  induction front with
  | nil => simp [releaseIn, inside]
  | cons other rest ih =>
      have missed := outside other (by simp)
      have later := ih (fun next member => outside next (by simp [member]))
      simp [releaseIn, missed, later]

theorem free_spec (sound : heap.Sound) (used : heap.Used start size)
    : heap.Loses (free heap (start + BLOCK_HDR)) start := by
  have bounds := sound.used_bounds used
  simp only [HEAP_MIN_BLOCK] at bounds
  have present : start + BLOCK_HDR ≠ 0 := by omega
  have block : sub32 (start + BLOCK_HDR) BLOCK_HDR = start := by
    rw [sub32_eq (by omega) (by simp only [BLOCK_HDR]; omega)]
    omega
  obtain ⟨region, member, usedHere⟩ := used
  obtain ⟨memory, regions⟩ := heap
  obtain ⟨front, back, rfl⟩ := List.append_of_mem member
  have described := sound.described region (by simp)
  have room := described.room
  have bounded := described.bounded
  have within := described.used_inside usedHere
  have inside : inRegion region start = true := by
    have limit : add32 region.base region.size = region.base + region.size :=
      add32_eq (by simp only [WORD]; omega)
    simp only [inRegion, limit, Bool.and_eq_true, decide_eq_true_eq]
    omega
  have outside : ∀ other ∈ front, inRegion other start = false := by
    intro other before
    have apart := pairwise_middle sound.apart other (by simp [before])
    have otherBounded := (sound.described other (by simp [before])).bounded
    have limit : add32 other.base other.size = other.base + other.size :=
      add32_eq (by simp only [WORD]; omega)
    simp only [Region.Apart] at apart
    simp only [inRegion, limit, Bool.and_eq_false_iff, decide_eq_false_iff_not]
    omega
  obtain ⟨result, released⟩ := releaseBlock_spec described usedHere
  simp only [free, present, if_false, block, releaseIn_eq outside inside]
  exact sound.release (by omega) released

-- Writing the new block

theorem Heap.Gains.write {after : Heap} {total : Nat} (memory : Memory)
    (gains : heap.Gains after need start total)
    (frame
      : ∀ location,
          location < start + BLOCK_HDR ∨ start + total ≤ location
          → memory location = after.memory location)
    : heap.Gains ⟨memory, after.regions⟩ need start total := by
  have gained : after.Used start total := (gains.used start total).mpr (Or.inr ⟨rfl, rfl⟩)
  obtain ⟨sound, used⟩ := gains.sound.write memory (by
    intro location outside
    apply frame
    by_contra inside
    exact outside ⟨start, total, gained, by omega, by omega⟩)
  refine ⟨sound, gains.enough, ?_, gains.fresh, ?_⟩
  · intro other size
    rw [used, gains.used]
  · intro location payload
    show memory location = heap.memory location
    rw [frame, gains.frame location payload]
    obtain ⟨other, size, already, low, high⟩ := payload
    have kept := (gains.used other size).mpr (Or.inl already)
    have apart := gains.sound.used_apart kept gained
    have different : other ≠ start := by
      rintro rfl
      exact gains.fresh size already
    omega

theorem calloc_spec (heapStart : Nat) {nmemb : Nat} (sound : heap.Sound)
    (kernel : MmapanOk mmapan heap) (noWrap : nmemb * size < WORD → NoWrap heap (nmemb * size))
    : AllocatesFor heap (nmemb * size) (calloc mmapan heapStart heap nmemb size) := by
  by_cases wraps : nmemb ≠ 0 ∧ size > (WORD - 1) / nmemb
  · rw [calloc, if_pos wraps]
    exact Or.inl ⟨rfl, sound.keeps⟩
  have product : nmemb * size < WORD := by
    by_cases none : nmemb = 0
    · simp [none, WORD]
    · have le : size ≤ (WORD - 1) / nmemb := Nat.le_of_not_lt (fun lt => wraps ⟨none, lt⟩)
      have := (Nat.le_div_iff_mul_le (Nat.pos_of_ne_zero none)).mp le
      rw [Nat.mul_comm]
      simp only [WORD] at this ⊢
      omega
  have outcome := malloc_spec heapStart sound kernel (noWrap product)
  simp only [calloc, if_neg wraps, Nat.mod_eq_of_lt product]
  generalize malloc mmapan heapStart heap (nmemb * size) = result at outcome ⊢
  obtain ⟨pointer, after⟩ := result
  rcases outcome with ⟨rfl, keeps⟩ | ⟨start, total, rfl, gains⟩
  · exact Or.inl ⟨rfl, keeps⟩
  · have present : start + BLOCK_HDR ≠ 0 := by simp [BLOCK_HDR]
    simp only [present, if_false]
    refine Or.inr ⟨start, total, rfl, gains.write _ ?_⟩
    intro location outside
    have enough := gains.enough
    exact Memory.fill_other after.memory (by omega)

-- realloc

/-- The block at `old` made way for a block of `total ≥ need` bytes at `start`, and the
first `count` bytes of its payload moved there.
-/
structure Heap.Moves (heap after : Heap) (need old count start total : Nat) : Prop where
  sound : after.Sound
  enough : need ≤ total
  used
    : ∀ other size,
        after.Used other size
        ↔ (heap.Used other size ∨ (other = start ∧ size = total)) ∧ other ≠ old
  fresh : ∀ size, ¬heap.Used start size
  moved
    : ∀ index < count,
        after.memory (start + BLOCK_HDR + index) = heap.memory (old + BLOCK_HDR + index)

/-- `realloc` of a block in use to a positive size moves its payload or changes nothing. -/
theorem realloc_spec (heapStart : Nat) {old length : Nat} (sound : heap.Sound)
    (kernel : MmapanOk mmapan heap) (noWrap : NoWrap heap size) (used : heap.Used old length)
    (positive : 0 < size)
    : let outcome := realloc mmapan heapStart heap (old + BLOCK_HDR) size
      (outcome.1 = 0 ∧ heap.Keeps outcome.2)
      ∨ ∃ start total,
          outcome.1 = start + BLOCK_HDR
          ∧ heap.Moves outcome.2 (size + BLOCK_HDR) old (min (length - BLOCK_HDR) size)
              start total := by
  dsimp only
  have bounds := sound.used_bounds used
  simp only [HEAP_MIN_BLOCK] at bounds
  have present : old + BLOCK_HDR ≠ 0 := by omega
  have some_size : size ≠ 0 := by omega
  have block : sub32 (old + BLOCK_HDR) BLOCK_HDR = old := by
    rw [sub32_eq (by omega) (by simp only [BLOCK_HDR]; omega)]
    omega
  have header : blockSize heap.memory old = length := by
    obtain ⟨region, member, here⟩ := used
    have described := sound.described region member
    exact blockSize_of_header (described.fits _ (mem_of_placed here))
      (described.laid.header here)
  have payload : sub32 length BLOCK_HDR = length - BLOCK_HDR :=
    sub32_eq (by simp only [BLOCK_HDR]; omega) (by omega)
  have outcome := malloc_spec heapStart sound kernel noWrap
  simp only [realloc, present, some_size, if_false, block, header, payload]
  generalize malloc mmapan heapStart heap size = result at outcome ⊢
  obtain ⟨pointer, after⟩ := result
  rcases outcome with ⟨rfl, keeps⟩ | ⟨start, total, rfl, gains⟩
  · exact Or.inl ⟨rfl, keeps⟩
  · have fresh : start + BLOCK_HDR ≠ 0 := by simp [BLOCK_HDR]
    have count : (if length - BLOCK_HDR < size then length - BLOCK_HDR else size)
        = min (length - BLOCK_HDR) size := by
      split <;> omega
    simp only [fresh, if_false, count]
    have enough := gains.enough
    have copied := gains.write
      (after.memory.copy (start + BLOCK_HDR) (old + BLOCK_HDR)
        (min (length - BLOCK_HDR) size))
      (fun location outside => Memory.copy_other after.memory (by omega))
    have stillUsed := (copied.used old length).mpr (Or.inl used)
    have loses := free_spec copied.sound stillUsed
    have different : start ≠ old := by
      rintro rfl
      exact gains.fresh length used
    have gained : Heap.Used (free ⟨after.memory.copy (start + BLOCK_HDR) (old + BLOCK_HDR)
        (min (length - BLOCK_HDR) size), after.regions⟩ (old + BLOCK_HDR)) start total :=
      (loses.used start total).mpr
        ⟨(copied.used start total).mpr (Or.inr ⟨rfl, rfl⟩), different⟩
    refine Or.inr ⟨start, total, rfl, loses.sound, enough, ?_, gains.fresh, ?_⟩
    · intro other size
      rw [loses.used, copied.used]
    · intro index below
      rw [loses.frame _ ⟨start, total, gained, by omega, by omega⟩]
      simp only
      rw [Memory.copy_inside after.memory below]
      exact gains.frame _ ⟨old, length, used, by omega, by omega⟩

end Panuti.Libc
