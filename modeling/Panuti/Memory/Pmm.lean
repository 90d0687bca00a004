import Panuti.Library.Bitmap
import Panuti.Memory.MapFrames

/-! The bitmap of physical frames, `pmm.c` byte by byte: its start from the map of the firmware,
and the cursor that allocation moves and frees lower. No free frame ever lies below the cursor,
so the frame handed out is the lowest free one.
-/

namespace Panuti.Pmm

open ByteMemory Bitmap

-- Frames and their bits

def PMM_PAGE_SIZE : Nat := 4096
def PMM_PAGE_MASK : Nat := 4095

/-- The static variables of `pmm.c`. A set bit is a free frame. -/
structure PhysMem where
  bitmap : Memory
  bitmapFrames : Nat
  nextFreePage : Nat
  rejectedOps : Nat

def PhysMem.isFree (pmm : PhysMem) (page : Nat) : Bool := bit pmm.bitmap page

def pmmReject (pmm : PhysMem) : PhysMem :=
  { pmm with rejectedOps := (pmm.rejectedOps + 1) % 2 ^ 32 }

/-- `pmm_clrp`: mark a page free. -/
def pmmClrp (pmm : PhysMem) (page : Nat) : PhysMem :=
  if page < pmm.bitmapFrames then { pmm with bitmap := setBit pmm.bitmap page }
  else pmmReject pmm

/-- `pmm_setp`: mark a page used. -/
def pmmSetp (pmm : PhysMem) (page : Nat) : PhysMem :=
  if page < pmm.bitmapFrames then { pmm with bitmap := clearBit pmm.bitmap page }
  else pmmReject pmm

/-- One pass of `pmm_allocp` from the cursor on. -/
def allocPass (pmm : PhysMem) : Nat × PhysMem :=
  let pages := List.range' pmm.nextFreePage (pmm.bitmapFrames - pmm.nextFreePage)
  match pages.find? pmm.isFree with
  | some page =>
      let pmm := pmmSetp { pmm with nextFreePage := page + 1 } page
      let result := page * PMM_PAGE_SIZE
      (result, if result = 0 then { pmm with nextFreePage := 0 } else pmm)
  | none => (0, { pmm with nextFreePage := 0 })

def pmmAllocp (pmm : PhysMem) : Nat × PhysMem :=
  let (result, pmm) := allocPass pmm
  if result = 0 then allocPass pmm else (result, pmm)

def pmmFreep (pmm : PhysMem) (address : Nat) : PhysMem :=
  if address = 0 then pmm
  else
    let page := address / PMM_PAGE_SIZE
    if pmm.bitmapFrames ≤ page then pmmReject pmm
    else
      pmmClrp { pmm with nextFreePage := if page < pmm.nextFreePage then page else pmm.nextFreePage }
        page

-- The start

def LOWMEM_END : Nat := 0x100000
def KERNEL_START : Nat := 0x100000
def PMM_PHYS_LIMIT : Nat := 0x100000000
def PMM_IDENTITY_LIMIT : Nat := 0x400000
def MULTIBOOT_MEMORY_AVAILABLE : Nat := 1

/-- `multiboot_memory_map_t`. -/
structure MmapEntry where
  addr : Nat
  len : Nat
  type : Nat
deriving Repr, DecidableEq

/-- `multiboot_module_t`. -/
structure BootModule where
  modStart : Nat
  modEnd : Nat
deriving Repr, DecidableEq

/-- `multiboot_info_t`, with the entries of its map in order. -/
structure MultibootInfo where
  flags : Nat
  mmap : List MmapEntry
  mods : List BootModule
deriving Repr, DecidableEq

/-- The entries that every walk over the map looks at. -/
def MmapEntry.counts (entry : MmapEntry) : Bool :=
  decide (entry.type = MULTIBOOT_MEMORY_AVAILABLE ∧ entry.addr < PMM_PHYS_LIMIT)

/-- `mmap_clamped_end`; the sum is one of 64 bits. -/
def mmapClampedEnd (entry : MmapEntry) : Nat :=
  min ((entry.addr + entry.len) % 2 ^ 64) PMM_PHYS_LIMIT

def pageUp (address : Nat) : Nat :=
  (address + PMM_PAGE_MASK) % 2 ^ 32 / PMM_PAGE_SIZE * PMM_PAGE_SIZE

def carveSkip (start limit skipStart skipEnd : Nat) : Nat :=
  if skipStart ≤ start ∧ start < skipEnd ∧ skipEnd ≤ limit then min (pageUp skipEnd) limit
  else start

/-- What `carve_place` makes of one entry. -/
def carveIn (nbytes modStart modEnd kernelEnd : Nat) (entry : MmapEntry) : Option Nat :=
  if entry.counts = false then none
  else if mmapClampedEnd entry ≤ LOWMEM_END then none
  else
    let limit := min (mmapClampedEnd entry % 2 ^ 32) PMM_IDENTITY_LIMIT
    let start := carveSkip LOWMEM_END limit KERNEL_START kernelEnd
    let start := carveSkip start limit modStart modEnd
    let start := pageUp start
    if start < limit ∧ nbytes ≤ limit - start then some start else none

def carvePlace (nbytes : Nat) (mbi : MultibootInfo) (modStart modEnd kernelEnd : Nat)
    : Option Nat :=
  if nbytes = 0 then none
  else mbi.mmap.findSome? (carveIn nbytes modStart modEnd kernelEnd)

/-- The pages from `start` on below `stop`. -/
def pages (start stop : Nat) : List Nat := List.range' start (stop - start)

/-- The pages a range of 32-bit addresses touches. -/
def pagesOf (start stop : Nat) : List Nat :=
  pages (start / PMM_PAGE_SIZE) ((stop + PMM_PAGE_MASK) % 2 ^ 32 / PMM_PAGE_SIZE)

/-- The first pass of `pmm_init`: the end of the memory there is. -/
def maxEnd (mbi : MultibootInfo) : Nat :=
  (mbi.mmap.filter MmapEntry.counts).foldl (fun most entry => max most (mmapClampedEnd entry)) 0

def firstModule (mbi : MultibootInfo) : Nat × Nat :=
  match mbi.mods with
  | first :: _ => if mbi.flags.testBit 3 then (first.modStart, first.modEnd) else (0, 0)
  | [] => (0, 0)

/-- The second pass of `pmm_init`: mark every available region free. -/
def markFree (mbi : MultibootInfo) (pmm : PhysMem) : PhysMem :=
  (mbi.mmap.filter MmapEntry.counts).foldl
    (fun pmm entry =>
      (pages (entry.addr / PMM_PAGE_SIZE)
        ((mmapClampedEnd entry + PMM_PAGE_MASK) / PMM_PAGE_SIZE)).foldl pmmClrp pmm)
    pmm

/-- What `pmm_init` keeps out of the allocator: low memory, the kernel, the modules and the
bitmap itself.
-/
def reserve (mbi : MultibootInfo) (kernelEnd bitmapPhys bitmapBytes : Nat) (pmm : PhysMem) : PhysMem :=
  let pmm := (pages 0 (LOWMEM_END / PMM_PAGE_SIZE)).foldl pmmSetp pmm
  let pmm := (pagesOf KERNEL_START kernelEnd).foldl pmmSetp pmm
  let pmm :=
    if (firstModule mbi).1 < (firstModule mbi).2 then
      mbi.mods.foldl
        (fun pmm module => (pagesOf module.modStart module.modEnd).foldl pmmSetp pmm) pmm
    else pmm
  (pagesOf bitmapPhys (bitmapPhys + bitmapBytes)).foldl pmmSetp pmm

/-- `pmm_init` up to `map_bitmap_home`; a panic has no result. `boot` is what the frames of the
bitmap held before.
-/
def pmmReserved (mbi : MultibootInfo) (kernelEnd : Nat) (boot : Memory) : Option PhysMem :=
  if mbi.flags.testBit 6 = false then none
  else if maxEnd mbi = 0 then none
  else
    let frames := (maxEnd mbi + PMM_PAGE_MASK) / PMM_PAGE_SIZE
    let bytes := (frames + 7) / 8
    match carvePlace bytes mbi (firstModule mbi).1 (firstModule mbi).2 kernelEnd with
    | none => none
    | some bitmapPhys =>
        let pmm := markFree mbi ⟨boot.fill 0 bytes 0, frames, 0, 0⟩
        some { reserve mbi kernelEnd bitmapPhys bytes pmm with nextFreePage := 0 }

/-- `pmm_init`: the frame of the bitmap's own page table is the first one handed out. -/
def pmmInit (mbi : MultibootInfo) (kernelEnd : Nat) (boot : Memory) : Option (Nat × PhysMem) :=
  match pmmReserved mbi kernelEnd boot with
  | none => none
  | some pmm =>
      let (tablePhys, pmm) := pmmAllocp pmm
      if tablePhys = 0 then none else some (tablePhys, pmm)

-- One bit

@[simp] theorem pmmClrp_frames (pmm : PhysMem) (page : Nat)
    : (pmmClrp pmm page).bitmapFrames = pmm.bitmapFrames := by
  unfold pmmClrp
  split <;> rfl

@[simp] theorem pmmSetp_frames (pmm : PhysMem) (page : Nat)
    : (pmmSetp pmm page).bitmapFrames = pmm.bitmapFrames := by
  unfold pmmSetp
  split <;> rfl

@[simp] theorem pmmSetp_cursor (pmm : PhysMem) (page : Nat)
    : (pmmSetp pmm page).nextFreePage = pmm.nextFreePage := by
  unfold pmmSetp
  split <;> rfl

@[simp] theorem pmmClrp_cursor (pmm : PhysMem) (page : Nat)
    : (pmmClrp pmm page).nextFreePage = pmm.nextFreePage := by
  unfold pmmClrp
  split <;> rfl

theorem isFree_pmmSetp (pmm : PhysMem) (page other : Nat)
    : (pmmSetp pmm page).isFree other
      = (!decide (page = other ∧ page < pmm.bitmapFrames) && pmm.isFree other) := by
  unfold pmmSetp
  split
  · rename_i below
    simp only [PhysMem.isFree, bit_clearBit]
    by_cases same : page = other
    · subst same
      simp [below]
    · simp [same]
  · rename_i beyond
    simp [PhysMem.isFree, pmmReject, beyond]

theorem isFree_pmmClrp (pmm : PhysMem) (page other : Nat)
    : (pmmClrp pmm page).isFree other
      = (decide (page = other ∧ page < pmm.bitmapFrames) || pmm.isFree other) := by
  unfold pmmClrp
  split
  · rename_i below
    simp only [PhysMem.isFree, bit_setBit]
    by_cases same : page = other
    · subst same
      simp [below]
    · simp [same]
  · rename_i beyond
    simp [PhysMem.isFree, pmmReject, beyond]

-- After the start

theorem setPages_used (list : List Nat) (pmm : PhysMem) (page : Nat)
    : (list.foldl pmmSetp pmm).bitmapFrames = pmm.bitmapFrames
      ∧ (pmm.isFree page = false → (list.foldl pmmSetp pmm).isFree page = false)
      ∧ (page ∈ list → page < pmm.bitmapFrames
        → (list.foldl pmmSetp pmm).isFree page = false) := by
  induction list generalizing pmm with
  | nil => exact ⟨rfl, fun used => used, fun member => by cases member⟩
  | cons first rest ih =>
      obtain ⟨frames, stays, marked⟩ := ih (pmmSetp pmm first)
      rw [List.foldl_cons]
      refine ⟨frames.trans (pmmSetp_frames pmm first), fun used => stays ?_, ?_⟩
      · rw [isFree_pmmSetp, used, Bool.and_false]
      · intro member below
        rcases List.mem_cons.mp member with rfl | inRest
        · apply stays
          simp [isFree_pmmSetp, below]
        · exact marked inRest (by rw [pmmSetp_frames]; exact below)

/-- No reservation gives a page back. -/
theorem reserve_used (mbi : MultibootInfo) (kernelEnd bitmapPhys bitmapBytes page : Nat)
    (pmm : PhysMem)
    : (reserve mbi kernelEnd bitmapPhys bitmapBytes pmm).bitmapFrames = pmm.bitmapFrames
      ∧ (page < LOWMEM_END / PMM_PAGE_SIZE → page < pmm.bitmapFrames
        → (reserve mbi kernelEnd bitmapPhys bitmapBytes pmm).isFree page = false) := by
  have modules (list : List BootModule) (start : PhysMem)
      : (list.foldl
          (fun pmm module => (pagesOf module.modStart module.modEnd).foldl pmmSetp pmm)
          start).bitmapFrames = start.bitmapFrames
        ∧ (start.isFree page = false
          → (list.foldl
            (fun pmm module => (pagesOf module.modStart module.modEnd).foldl pmmSetp pmm)
            start).isFree page = false) := by
    induction list generalizing start with
    | nil => exact ⟨rfl, fun used => used⟩
    | cons first rest ih =>
        obtain ⟨frames, stays, _⟩ := setPages_used (pagesOf first.modStart first.modEnd) start page
        obtain ⟨framesRest, staysRest⟩ :=
          ih ((pagesOf first.modStart first.modEnd).foldl pmmSetp start)
        rw [List.foldl_cons]
        exact ⟨framesRest.trans frames, fun used => staysRest (stays used)⟩
  simp only [reserve]
  have low := setPages_used (pages 0 (LOWMEM_END / PMM_PAGE_SIZE)) pmm page
  generalize (pages 0 (LOWMEM_END / PMM_PAGE_SIZE)).foldl pmmSetp pmm = afterLow at low ⊢
  have kernel := setPages_used (pagesOf KERNEL_START kernelEnd) afterLow page
  generalize (pagesOf KERNEL_START kernelEnd).foldl pmmSetp afterLow = afterKernel at kernel ⊢
  have mods
      : (if (firstModule mbi).1 < (firstModule mbi).2 then
          mbi.mods.foldl
            (fun pmm module => (pagesOf module.modStart module.modEnd).foldl pmmSetp pmm)
            afterKernel
        else afterKernel).bitmapFrames = afterKernel.bitmapFrames
        ∧ (afterKernel.isFree page = false
          → (if (firstModule mbi).1 < (firstModule mbi).2 then
              mbi.mods.foldl
                (fun pmm module => (pagesOf module.modStart module.modEnd).foldl pmmSetp pmm)
                afterKernel
            else afterKernel).isFree page = false) := by
    split
    · exact modules mbi.mods afterKernel
    · exact ⟨rfl, fun used => used⟩
  generalize (if (firstModule mbi).1 < (firstModule mbi).2 then
      mbi.mods.foldl
        (fun pmm module => (pagesOf module.modStart module.modEnd).foldl pmmSetp pmm)
        afterKernel
    else afterKernel) = afterMods at mods ⊢
  have self := setPages_used (pagesOf bitmapPhys (bitmapPhys + bitmapBytes)) afterMods page
  refine ⟨self.1.trans (mods.1.trans (kernel.1.trans low.1)), fun inLow below => ?_⟩
  have member : page ∈ pages 0 (LOWMEM_END / PMM_PAGE_SIZE) :=
    List.mem_range'_1.mpr ⟨Nat.zero_le _, by omega⟩
  exact self.2.1 (mods.2 (kernel.2.1 (low.2.2 member below)))

theorem maxEnd_le (mbi : MultibootInfo) : maxEnd mbi ≤ PMM_PHYS_LIMIT := by
  have bounded (list : List MmapEntry) (most : Nat) (small : most ≤ PMM_PHYS_LIMIT)
      : list.foldl (fun most entry => max most (mmapClampedEnd entry)) most ≤ PMM_PHYS_LIMIT := by
    induction list generalizing most with
    | nil => exact small
    | cons first rest ih =>
        rw [List.foldl_cons]
        exact ih _ (Nat.max_le.mpr ⟨small, Nat.min_le_right _ _⟩)
  exact bounded _ 0 (Nat.zero_le _)

theorem markFree_frames (mbi : MultibootInfo) (pmm : PhysMem)
    : (markFree mbi pmm).bitmapFrames = pmm.bitmapFrames := by
  have clears (list : List Nat) (start : PhysMem)
      : (list.foldl pmmClrp start).bitmapFrames = start.bitmapFrames := by
    induction list generalizing start with
    | nil => rfl
    | cons first rest ih =>
        rw [List.foldl_cons, ih, pmmClrp_frames]
  unfold markFree
  induction mbi.mmap.filter MmapEntry.counts generalizing pmm with
  | nil => rfl
  | cons first rest ih =>
      rw [List.foldl_cons, ih, clears]

/-- Between calls: frame 0 is used, and no free frame lies below the cursor. -/
structure PhysMem.Settled (pmm : PhysMem) : Prop where
  capacity : pmm.bitmapFrames ≤ 2 ^ 20
  zero : 0 < pmm.bitmapFrames → pmm.isFree 0 = false
  below : ∀ page < pmm.nextFreePage, page < pmm.bitmapFrames → pmm.isFree page = false

theorem pmmReserved_settled {mbi : MultibootInfo} {kernelEnd : Nat} {boot : Memory} {pmm : PhysMem}
    (started : pmmReserved mbi kernelEnd boot = some pmm)
    : pmm.Settled := by
  simp only [pmmReserved] at started
  split at started
  · cases started
  split at started
  · cases started
  split at started
  · cases started
  rename_i bitmapPhys carved
  obtain rfl := Option.some.inj started
  have reserved := reserve_used mbi kernelEnd bitmapPhys
    (((maxEnd mbi + PMM_PAGE_MASK) / PMM_PAGE_SIZE + 7) / 8) 0
    (markFree mbi ⟨boot.fill 0 (((maxEnd mbi + PMM_PAGE_MASK) / PMM_PAGE_SIZE + 7) / 8) 0,
      (maxEnd mbi + PMM_PAGE_MASK) / PMM_PAGE_SIZE, 0, 0⟩)
  rw [markFree_frames] at reserved
  have limit := maxEnd_le mbi
  refine ⟨?_, fun inside => ?_, fun page low => ?_⟩
  · simp only [reserved.1]
    simp only [PMM_PHYS_LIMIT] at limit
    simp only [PMM_PAGE_MASK, PMM_PAGE_SIZE]
    omega
  · rw [reserved.1] at inside
    exact reserved.2 (by decide) inside
  · exact absurd low (Nat.not_lt_zero page)

end Panuti.Pmm
