import Panuti.Library.ByteMemory
import Panuti.Library.IntrusiveList

/-! The libc heap of `libc/stdlib`: the region table, the per-region free lists, the bump
carver, and `malloc`, `calloc`, `realloc` and `free` over one byte-addressed memory.
Sizes and addresses are 32-bit: every sum the C code forms in `size_t`, `uint32_t` or a
pointer goes through `add32`.
-/

namespace Panuti.Libc

open ByteMemory
open IntrusiveList (seek)

-- Constants and 32-bit arithmetic

/-- The number of values of `size_t`, `uint32_t` and of a pointer. -/
def WORD : Nat := 4294967296

def add32 (left right : Nat) : Nat := (left + right) % WORD

/-- Unsigned 32-bit subtraction of a 32-bit number, which wraps. -/
def sub32 (left right : Nat) : Nat := (left + (WORD - right)) % WORD

def HEAP_ALIGN : Nat := 8
def HEAP_MIN_BLOCK : Nat := 16
def HEAP_REGION_SIZE : Nat := 1024 * 1024
def HEAP_MAX_REGIONS : Nat := 128
def HEAP_MAX_TOTAL : Nat := 128 * 1024 * 1024
def HEAP_PAGE_SIZE : Nat := 4096
def MMAPAN_MAX : Nat := 16 * 1024 * 1024
def BLOCK_INUSE : Nat := 1

/-- `sizeof(struct block)`: the words `size` and `prev_size` in front of every payload. -/
def BLOCK_HDR : Nat := 8

-- Data: block headers in memory, regions, and the heap

/-- One run obtained from the kernel. `brk` is the offset of the first byte not yet
carved and `flist` the address of the first free block, `0` when there is none.
-/
structure Region where
  base : Nat
  size : Nat
  brk : Nat
  flist : Nat
deriving Repr, DecidableEq

/-- The allocator's state: the address space of the process and `heap_regions`, whose
length is `heap_region_count`.
-/
structure Heap where
  memory : Memory
  regions : List Region

/-- `mmapan(len, prot, hint)`: the base of a fresh run, or `none` for a negative return. -/
abbrev Mmapan := Nat → Nat → Option Nat

def blockSize (memory : Memory) (block : Nat) : Nat := memory.word block / 2 * 2
def blockUsed (memory : Memory) (block : Nat) : Bool := memory.word block % 2 == 1
def blockPrevSize (memory : Memory) (block : Nat) : Nat := memory.word (block + 4)
def blockPayload (block : Nat) : Nat := add32 block BLOCK_HDR

def setSize (memory : Memory) (block size : Nat) : Memory := memory.setWord block size

def setPrevSize (memory : Memory) (block size : Nat) : Memory :=
  memory.setWord (block + 4) size

/-- The low bit of a size field marks the block as in use. -/
def inUse (size : Nat) : Nat := size ||| BLOCK_INUSE

def heapAlignUp (size : Nat) : Nat := add32 size (HEAP_ALIGN - 1) / HEAP_ALIGN * HEAP_ALIGN

-- Free lists, threaded through the payloads of free blocks

/-- `heap_flist_next`: the link is the first word of the payload. -/
def flistNext (memory : Memory) (block : Nat) : Nat := memory.word (block + BLOCK_HDR)

def flistSetNext (memory : Memory) (block next : Nat) : Memory :=
  memory.setWord (block + BLOCK_HDR) next

/-- Steps that suffice for any walk over a region's free list: one for each byte. -/
def flistFuel (region : Region) : Nat := region.size

/-- Point the link that used to reach a node, in `previous` or in the list head, at
`target`.
-/
def flistLink (memory : Memory) (region : Region) (previous target : Nat)
    : Memory × Region :=
  if previous ≠ 0 then (flistSetNext memory previous target, region)
  else (memory, { region with flist := target })

def flistRemove (memory : Memory) (region : Region) (block : Nat) : Memory × Region :=
  let (previous, current) :=
    seek (flistNext memory) (fun node => node == block) (flistFuel region) 0 region.flist
  if current ≠ block then (memory, region)
  else
    let (memory, region) := flistLink memory region previous (flistNext memory current)
    (flistSetNext memory current 0, region)

def flistReplace (memory : Memory) (region : Region) (old new : Nat) : Memory × Region :=
  let (previous, current) :=
    seek (flistNext memory) (fun node => node == old) (flistFuel region) 0 region.flist
  if current ≠ old then (memory, region)
  else
    let (memory, region) := flistLink memory region previous new
    (flistSetNext memory old 0, region)

/-- `heap_flist_insert` keeps the list in address order. -/
def flistInsert (memory : Memory) (region : Region) (block : Nat) : Memory × Region :=
  let (previous, current) :=
    seek (flistNext memory) (fun node => decide (block ≤ node)) (flistFuel region) 0
      region.flist
  flistLink (flistSetNext memory block current) region previous block

-- Carving blocks

/-- The last block before `limit`, found by walking the block sizes from `block` on. -/
def lastBlock (memory : Memory) (limit : Nat) : Nat → Nat → Nat
  | 0, block => block
  | fuel + 1, block =>
      if add32 block (blockSize memory block) < limit then
        lastBlock memory limit fuel (add32 block (blockSize memory block))
      else block

/-- `heap_region_bump`: carve `need` bytes off the end of the region. -/
def heapRegionBump (memory : Memory) (region : Region) (need : Nat)
    : Option (Nat × Memory × Region) :=
  if region.size < add32 region.brk need then none
  else
    let previous :=
      if region.brk ≠ 0 then
        blockSize memory
          (lastBlock memory (add32 region.base region.brk) region.size region.base)
      else 0
    let block := add32 region.base region.brk
    let memory := setSize memory block (inUse need)
    let memory := setPrevSize memory block previous
    some (blockPayload block, memory, { region with brk := add32 region.brk need })

/-- The block behind `block`, if carved, now follows a block of `total` bytes. -/
def recordSize (memory : Memory) (region : Region) (block total : Nat) : Memory :=
  let after := add32 block total
  if after < add32 region.base region.brk then setPrevSize memory after total else memory

/-- The tail of a block split after `need` bytes becomes a free block, which carries the
link of the block it was cut from.
-/
def splitTail (memory : Memory) (region : Region) (block total need : Nat) : Memory :=
  let rest := add32 block need
  let memory := setSize memory rest (total - need)
  let memory := setPrevSize memory rest need
  let memory := flistSetNext memory rest (flistNext memory block)
  recordSize memory region rest (total - need)

/-- Take `need` bytes from the free block `block` of `total` bytes. A block big enough to
split leaves its tail on the list; otherwise it is taken whole.
-/
def takeFree (memory : Memory) (region : Region) (block total need : Nat)
    : Nat × Memory × Region :=
  if HEAP_MIN_BLOCK ≤ total - need then
    let memory := splitTail memory region block total need
    let (memory, region) := flistReplace memory region block (add32 block need)
    (blockPayload block, setSize memory block (inUse need), region)
  else
    let (memory, region) := flistRemove memory region block
    (blockPayload block, setSize memory block (inUse total), region)

/-- First fit over one free list, from `block` on. -/
def fitFree (memory : Memory) (region : Region) (need : Nat)
    : Nat → Nat → Option (Nat × Memory × Region)
  | 0, _ => none
  | fuel + 1, block =>
      if block = 0 then none
      else if need ≤ blockSize memory block then
        some (takeFree memory region block (blockSize memory block) need)
      else fitFree memory region need fuel (flistNext memory block)

/-- The first region for which `carve` succeeds, updated in place. -/
def firstRegion (carve : Region → Option (Nat × Memory × Region))
    : List Region → Option (Nat × Memory × List Region)
  | [] => none
  | region :: rest =>
      match carve region with
      | some (pointer, memory, changed) => some (pointer, memory, changed :: rest)
      | none =>
          match firstRegion carve rest with
          | some (pointer, memory, changed) => some (pointer, memory, region :: changed)
          | none => none

-- Growing the heap

/-- The length `heap_grow` asks for: whole pages, at least `HEAP_REGION_SIZE`. -/
def growLength (minSize : Nat) : Nat :=
  let want := if minSize > HEAP_REGION_SIZE then minSize else HEAP_REGION_SIZE
  add32 want (HEAP_PAGE_SIZE - 1) / HEAP_PAGE_SIZE * HEAP_PAGE_SIZE

/-- The hint asks for the run right after the last region; a refused one is retried with
no hint.
-/
def askKernel (mmapan : Mmapan) (heapStart : Nat) (regions : List Region) (want : Nat)
    : Option Nat :=
  match regions.getLast? with
  | none => mmapan want heapStart
  | some last =>
      match mmapan want (add32 last.base last.size) with
      | some base => some base
      | none => mmapan want 0

/-- `heap_grow`: ask the kernel for a region of at least `minSize` bytes. Fresh pages
arrive zeroed.
-/
def heapGrow (mmapan : Mmapan) (heapStart : Nat) (heap : Heap) (minSize : Nat)
    : Option (Memory × Region) :=
  if heap.regions.length ≥ HEAP_MAX_REGIONS then none
  else
    let want := growLength minSize
    if want > MMAPAN_MAX then none
    else
      let total := heap.regions.foldl (fun sum region => add32 sum region.size) 0
      if add32 total want > HEAP_MAX_TOTAL then none
      else
        match askKernel mmapan heapStart heap.regions want with
        | none => none
        | some base =>
            some (heap.memory.fill base want 0,
              { base := base, size := want, brk := 0, flist := 0 })

-- malloc, calloc, free and realloc

/-- The block size `malloc` asks for: header included, aligned, at least one minimum
block.
-/
def blockNeed (size : Nat) : Nat :=
  let need := heapAlignUp (add32 size BLOCK_HDR)
  if need < HEAP_MIN_BLOCK then HEAP_MIN_BLOCK else need

/-- `malloc`; the result is `0` for `NULL`. -/
def malloc (mmapan : Mmapan) (heapStart : Nat) (heap : Heap) (size : Nat) : Nat × Heap :=
  -- sizes that would wrap once the header and the padding are added are rejected
  if size > WORD - 1 - BLOCK_HDR - (HEAP_ALIGN - 1) then (0, heap)
  else
    let need := blockNeed size
    let fit := fun region =>
      fitFree heap.memory region need (flistFuel region) region.flist
    match firstRegion fit heap.regions with
    | some (pointer, memory, regions) => (pointer, { memory, regions })
    | none =>
        match firstRegion (fun region => heapRegionBump heap.memory region need)
            heap.regions with
        | some (pointer, memory, regions) => (pointer, { memory, regions })
        | none =>
            match heapGrow mmapan heapStart heap need with
            | none => (0, heap)
            | some (memory, region) =>
                match heapRegionBump memory region need with
                | none => (0, { memory, regions := heap.regions ++ [region] })
                | some (pointer, memory, region) =>
                    (pointer, { memory, regions := heap.regions ++ [region] })

/-- `calloc`, guarded against a product that wraps. -/
def calloc (mmapan : Mmapan) (heapStart : Nat) (heap : Heap) (nmemb size : Nat)
    : Nat × Heap :=
  if nmemb ≠ 0 ∧ size > (WORD - 1) / nmemb then (0, heap)
  else
    let total := nmemb * size % WORD
    let (pointer, heap) := malloc mmapan heapStart heap total
    if pointer = 0 then (0, heap)
    else (pointer, { heap with memory := heap.memory.fill pointer total 0 })

/-- `heap_region_of`'s test: the block header lies inside the region. -/
def inRegion (region : Region) (block : Nat) : Bool :=
  decide (region.base ≤ block) && decide (block < add32 region.base region.size)

/-- `free`: merge the block of `total` bytes with the previous physical block if that is
free. Returns the block and its size after the merge.
-/
def mergePrevious (memory : Memory) (region : Region) (block total : Nat)
    : Memory × Region × Nat × Nat :=
  let previousSize := blockPrevSize memory block
  let previous := sub32 block previousSize
  if previousSize ≠ 0 ∧ region.base ≤ previous ∧ blockUsed memory previous = false then
    let (memory, region) := flistRemove memory region previous
    let merged := add32 (blockSize memory previous) total
    (setSize memory previous merged, region, previous, merged)
  else (memory, region, block, total)

/-- `free`: merge the block with the next physical block if that is carved and free. -/
def mergeNext (memory : Memory) (region : Region) (block total : Nat)
    : Memory × Region × Nat :=
  let next := add32 block total
  if next < add32 region.base region.brk ∧ blockUsed memory next = false then
    let (memory, region) := flistRemove memory region next
    let merged := add32 total (blockSize memory next)
    (setSize memory block merged, region, merged)
  else (memory, region, total)

/-- Return a block of the region to its free list, merged with its free neighbours. -/
def releaseBlock (memory : Memory) (region : Region) (block : Nat) : Memory × Region :=
  let total := blockSize memory block
  let memory := setSize memory block total -- clear the in-use bit
  let (memory, region, block, total) := mergePrevious memory region block total
  let (memory, region, total) := mergeNext memory region block total
  flistInsert (recordSize memory region block total) region block

/-- Release `block` in the first region that holds it; other pointers are ignored. -/
def releaseIn (memory : Memory) (block : Nat) : List Region → Memory × List Region
  | [] => (memory, [])
  | region :: rest =>
      if inRegion region block then
        let (memory, changed) := releaseBlock memory region block
        (memory, changed :: rest)
      else
        let (memory, changed) := releaseIn memory block rest
        (memory, region :: changed)

def free (heap : Heap) (pointer : Nat) : Heap :=
  if pointer = 0 then heap
  else
    let (memory, regions) := releaseIn heap.memory (sub32 pointer BLOCK_HDR) heap.regions
    { memory, regions }

def realloc (mmapan : Mmapan) (heapStart : Nat) (heap : Heap) (pointer size : Nat)
    : Nat × Heap :=
  if pointer = 0 then malloc mmapan heapStart heap size
  else if size = 0 then (0, free heap pointer)
  else
    let oldPayload := sub32 (blockSize heap.memory (sub32 pointer BLOCK_HDR)) BLOCK_HDR
    let (fresh, heap) := malloc mmapan heapStart heap size
    if fresh = 0 then (0, heap)
    else
      let count := if oldPayload < size then oldPayload else size
      let memory := heap.memory.copy fresh pointer count
      (fresh, free { heap with memory } pointer)

end Panuti.Libc
