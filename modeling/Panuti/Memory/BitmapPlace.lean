import Panuti.Memory.PmmRuns

/-! Where `pmm_init` puts the bitmap of frames, and which frames it leaves free. The place is a
matter of the map, the kernel and the first module alone, so what the start owes is decided by
them: the entry chosen has to hold the kernel and the place, and the other modules have to lie
elsewhere.
-/

namespace Panuti.Pmm

open ByteMemory Bitmap

-- What the start owes

def MultibootInfo.modules (mbi : MultibootInfo) : List BootModule :=
  if mbi.flags.testBit 3 then mbi.mods else []

/-- `pmm_bitmap_bytes`, for the memory of the map. -/
def bitmapBytes (mbi : MultibootInfo) : Nat :=
  ((maxEnd mbi + PMM_PAGE_MASK) / PMM_PAGE_SIZE + 7) / 8

def bitmapSize (mbi : MultibootInfo) : Nat :=
  (bitmapBytes mbi + PMM_PAGE_MASK) / PMM_PAGE_SIZE * PMM_PAGE_SIZE

def Touches (page start stop : Nat) : Prop :=
  ∃ address, start ≤ address ∧ address < stop ∧ address / PMM_PAGE_SIZE = page

/-- What a boot loader can pass, and where the linker script puts the kernel: its physical end is
a 32-bit address less 3 GiB.
-/
structure Booted (mbi : MultibootInfo) (kernelEnd : Nat) : Prop where
  entry : ∀ entry ∈ mbi.mmap, entry.addr < 2 ^ 64 ∧ entry.len < 2 ^ 64
  module : ∀ module ∈ mbi.mods, module.modStart < 2 ^ 32 ∧ module.modEnd < 2 ^ 32
  kernel : KERNEL_START ≤ kernelEnd ∧ kernelEnd ≤ 0x40000000

/-- What the start owes for a bitmap at `place`. -/
structure StartsWell (mbi : MultibootInfo) (kernelEnd place : Nat) (pmm : PhysMem) : Prop where
  region : ∃ entry ∈ mbi.mmap, entry.type = MULTIBOOT_MEMORY_AVAILABLE ∧ entry.addr ≤ place
    ∧ place + bitmapSize mbi ≤ entry.addr + entry.len
  apart : ∀ address, place ≤ address → address < place + bitmapSize mbi
    → LOWMEM_END ≤ address ∧ ¬(KERNEL_START ≤ address ∧ address < kernelEnd)
      ∧ ∀ module ∈ mbi.modules, ¬(module.modStart ≤ address ∧ address < module.modEnd)
  used : ∀ page < pmm.bitmapFrames,
    (Touches page 0 LOWMEM_END ∨ Touches page KERNEL_START kernelEnd
      ∨ (∃ module ∈ mbi.modules, Touches page module.modStart module.modEnd)
      ∨ Touches page place (place + bitmapBytes mbi))
    → pmm.isFree page = false

-- The place, from the inputs

/-- The end of what an entry has below 4 MiB. The code keeps the low 32 bits of the end, so an
entry that reaches 4 GiB has nothing.
-/
def MmapEntry.top (entry : MmapEntry) : Nat :=
  if PMM_PHYS_LIMIT ≤ (entry.addr + entry.len) % 2 ^ 64 then 0
  else min ((entry.addr + entry.len) % 2 ^ 64) PMM_IDENTITY_LIMIT

/-- The first page boundary behind a range that covers `start` and ends by `top`. -/
def past (start top skipStart skipEnd : Nat) : Nat :=
  if skipStart ≤ start ∧ start < skipEnd ∧ skipEnd ≤ top then
    (skipEnd + PMM_PAGE_MASK) / PMM_PAGE_SIZE * PMM_PAGE_SIZE
  else start

/-- The place an entry offers: 1 MiB, or the page behind the kernel, or the page behind the first
module.
-/
def MmapEntry.spot (mbi : MultibootInfo) (kernelEnd : Nat) (entry : MmapEntry) : Nat :=
  past (past LOWMEM_END entry.top KERNEL_START kernelEnd) entry.top
    (firstModule mbi).1 (firstModule mbi).2

/-- The entry has room for the bitmap at the place it offers. -/
def MmapEntry.Offers (mbi : MultibootInfo) (kernelEnd : Nat) (entry : MmapEntry) : Prop :=
  entry.type = MULTIBOOT_MEMORY_AVAILABLE ∧ entry.addr < PMM_PHYS_LIMIT
    ∧ LOWMEM_END < entry.top ∧ entry.spot mbi kernelEnd + bitmapBytes mbi ≤ entry.top

instance (mbi : MultibootInfo) (kernelEnd : Nat) (entry : MmapEntry)
    : Decidable (entry.Offers mbi kernelEnd) :=
  inferInstanceAs (Decidable (_ ∧ _ ∧ _ ∧ _))

/-- An entry of the map describes the frame as available. -/
def Covered (mbi : MultibootInfo) (page : Nat) : Prop :=
  ∃ entry ∈ mbi.mmap, entry.counts = true
    ∧ page ∈ pages (entry.addr / PMM_PAGE_SIZE)
      ((mmapClampedEnd entry + PMM_PAGE_MASK) / PMM_PAGE_SIZE)

/-- The frames that are marked used again. The modules count only when the first one is not
empty, and the end of one is rounded up in 32 bits.
-/
def Kept (mbi : MultibootInfo) (kernelEnd place page : Nat) : Prop :=
  page ∈ pages 0 (LOWMEM_END / PMM_PAGE_SIZE) ∨ page ∈ pagesOf KERNEL_START kernelEnd
    ∨ ((firstModule mbi).1 < (firstModule mbi).2
      ∧ ∃ module ∈ mbi.mods, page ∈ pagesOf module.modStart module.modEnd)
    ∨ page ∈ pagesOf place (place + bitmapBytes mbi)

/-- When the first entry with room is one the start can use: the kernel ends in it, an available
region holds the place it offers, and every module lies elsewhere and in frames that are kept.
The lowest free frame may be a module's: it becomes the bitmap's page table.
-/
structure Suits (mbi : MultibootInfo) (kernelEnd : Nat) (entry : MmapEntry) : Prop where
  kernel : kernelEnd ≤ entry.top
  region : ∃ region ∈ mbi.mmap, region.type = MULTIBOOT_MEMORY_AVAILABLE
    ∧ region.addr ≤ entry.spot mbi kernelEnd
    ∧ entry.spot mbi kernelEnd + bitmapSize mbi ≤ region.addr + region.len
  modules : ∀ module ∈ mbi.modules, module.modStart < module.modEnd
    → module.modEnd ≤ entry.spot mbi kernelEnd
      ∨ entry.spot mbi kernelEnd + bitmapSize mbi ≤ module.modStart
  marked : ∀ module ∈ mbi.modules, ∀ page, Touches page module.modStart module.modEnd
    → Covered mbi page
    → Kept mbi kernelEnd (entry.spot mbi kernelEnd) page
      ∨ ∀ lower < page, Covered mbi lower
        → Kept mbi kernelEnd (entry.spot mbi kernelEnd) lower

-- The place the code finds

section

variable {mbi : MultibootInfo} {kernelEnd : Nat} {entry : MmapEntry}

theorem past_le (start top skipStart skipEnd : Nat) : start ≤ past start top skipStart skipEnd := by
  simp only [past, PMM_PAGE_MASK, PMM_PAGE_SIZE]
  split <;> omega

variable {start : Nat}

theorem past_aligned (aligned : start % PMM_PAGE_SIZE = 0) (top skipStart skipEnd : Nat)
    : past start top skipStart skipEnd % PMM_PAGE_SIZE = 0 := by
  rw [past]
  split
  · exact Nat.mul_mod_left _ _
  · exact aligned

theorem carveSkip_eq {start top : Nat} (small : top ≤ PMM_IDENTITY_LIMIT) (skipStart skipEnd : Nat)
    : carveSkip start top skipStart skipEnd = past start top skipStart skipEnd
      ∨ (carveSkip start top skipStart skipEnd = top
        ∧ top < past start top skipStart skipEnd) := by
  simp only [carveSkip, past]
  by_cases inside : skipStart ≤ start ∧ start < skipEnd ∧ skipEnd ≤ top
  · rw [if_pos inside, if_pos inside]
    simp only [pageUp, PMM_PAGE_MASK, PMM_PAGE_SIZE, PMM_IDENTITY_LIMIT] at small ⊢
    omega
  · rw [if_neg inside, if_neg inside]
    exact Or.inl rfl

theorem carveSkip_stays {top : Nat} (full : top ≤ start) (skipStart skipEnd : Nat)
    : carveSkip start top skipStart skipEnd = start := by
  rw [carveSkip, if_neg]
  omega

theorem past_stays {top : Nat} (full : top ≤ start) (skipStart skipEnd : Nat)
    : past start top skipStart skipEnd = start := by
  rw [past, if_neg]
  omega

theorem top_le (entry : MmapEntry) : entry.top ≤ PMM_IDENTITY_LIMIT := by
  rw [MmapEntry.top]
  split
  · exact Nat.zero_le _
  · exact Nat.min_le_right _ _

theorem spot_le (mbi : MultibootInfo) (kernelEnd : Nat) (entry : MmapEntry)
    : LOWMEM_END ≤ entry.spot mbi kernelEnd :=
  Nat.le_trans (past_le _ _ _ _) (past_le _ _ _ _)

theorem past_small {top : Nat} (within : start ≤ PMM_IDENTITY_LIMIT)
    (small : top ≤ PMM_IDENTITY_LIMIT) (skipStart skipEnd : Nat)
    : past start top skipStart skipEnd ≤ PMM_IDENTITY_LIMIT := by
  simp only [past, PMM_PAGE_MASK, PMM_PAGE_SIZE, PMM_IDENTITY_LIMIT] at within small ⊢
  split <;> omega

theorem spot_small (mbi : MultibootInfo) (kernelEnd : Nat) (entry : MmapEntry)
    : entry.spot mbi kernelEnd ≤ PMM_IDENTITY_LIMIT :=
  past_small (past_small (by decide) (top_le entry) _ _) (top_le entry) _ _

theorem spot_aligned (mbi : MultibootInfo) (kernelEnd : Nat) (entry : MmapEntry)
    : entry.spot mbi kernelEnd % PMM_PAGE_SIZE = 0 :=
  past_aligned (past_aligned (by decide) _ _ _) _ _ _

theorem carveSkips_eq (entry : MmapEntry)
    : let skipped := carveSkip (carveSkip LOWMEM_END entry.top KERNEL_START kernelEnd) entry.top
        (firstModule mbi).1 (firstModule mbi).2
      skipped = entry.spot mbi kernelEnd
        ∨ skipped = entry.top ∧ entry.top ≤ entry.spot mbi kernelEnd := by
  intro skipped
  have small := top_le entry
  rcases @carveSkip_eq LOWMEM_END _ small KERNEL_START kernelEnd with same | ⟨stops, beyond⟩
  · simp only [skipped, same, MmapEntry.spot]
    rcases @carveSkip_eq (past LOWMEM_END entry.top KERNEL_START kernelEnd) _ small
      (firstModule mbi).1 (firstModule mbi).2 with again | ⟨stops, beyond⟩
    · exact Or.inl again
    · exact Or.inr ⟨stops, Nat.le_of_lt beyond⟩
  · have stays := carveSkip_stays (Nat.le_refl entry.top) (firstModule mbi).1 (firstModule mbi).2
    have staysToo := past_stays (Nat.le_of_lt beyond) (firstModule mbi).1 (firstModule mbi).2
    simp only [skipped, stops, stays, MmapEntry.spot, staysToo]
    exact Or.inr ⟨trivial, Nat.le_of_lt beyond⟩

/-- `carve_place` takes from an entry what the entry offers. -/
theorem carveIn_eq (roomy : 0 < bitmapBytes mbi)
    : carveIn (bitmapBytes mbi) (firstModule mbi).1 (firstModule mbi).2 kernelEnd entry
      = if entry.Offers mbi kernelEnd then some (entry.spot mbi kernelEnd) else none := by
  have limit : min (mmapClampedEnd entry % 2 ^ 32) PMM_IDENTITY_LIMIT = entry.top := by
    rw [mmapClampedEnd, MmapEntry.top]
    generalize (entry.addr + entry.len) % 2 ^ 64 = sum
    by_cases beyond : PMM_PHYS_LIMIT ≤ sum
    · rw [if_pos beyond, Nat.min_eq_right beyond]
      decide
    · rw [if_neg beyond]
      simp only [PMM_PHYS_LIMIT, PMM_IDENTITY_LIMIT] at beyond ⊢
      omega
  rw [carveIn, limit]
  by_cases counts : entry.counts = false
  · rw [if_pos counts, if_neg]
    rintro ⟨available, low, -⟩
    simp [MmapEntry.counts, available, low] at counts
  rw [if_neg counts]
  have available : entry.type = MULTIBOOT_MEMORY_AVAILABLE ∧ entry.addr < PMM_PHYS_LIMIT := by
    simpa [MmapEntry.counts] using counts
  by_cases low : mmapClampedEnd entry ≤ LOWMEM_END
  · rw [if_pos low, if_neg]
    rintro ⟨-, -, above, -⟩
    rw [← limit] at above
    simp only [LOWMEM_END] at low above
    omega
  rw [if_neg low]
  have small := top_le entry
  have aligned := spot_aligned mbi kernelEnd entry
  have skips := @carveSkips_eq mbi kernelEnd entry
  have start := spot_le mbi kernelEnd entry
  have spotSmall := spot_small mbi kernelEnd entry
  simp only [MmapEntry.Offers, available, true_and]
  simp only [] at skips
  generalize entry.spot mbi kernelEnd = spot at *
  generalize carveSkip (carveSkip LOWMEM_END entry.top KERNEL_START kernelEnd) entry.top
    (firstModule mbi).1 (firstModule mbi).2 = skipped at *
  have within : skipped ≤ PMM_IDENTITY_LIMIT := by
    rcases skips with same | ⟨stops, -⟩
    · exact same ▸ spotSmall
    · exact stops ▸ small
  have whole : skipped ≤ pageUp skipped ∧ (skipped = spot → pageUp skipped = spot) := by
    simp only [pageUp, PMM_PAGE_MASK, PMM_PAGE_SIZE, PMM_IDENTITY_LIMIT] at aligned within ⊢
    omega
  rcases skips with same | ⟨stops, beyond⟩
  · rw [whole.2 same]
    exact ite_congr (propext (by omega)) (fun _ => rfl) (fun _ => rfl)
  · rw [if_neg (by omega), if_neg (by omega)]

theorem carvePlace_eq_some {place : Nat} (roomy : 0 < bitmapBytes mbi)
    : carvePlace (bitmapBytes mbi) mbi (firstModule mbi).1 (firstModule mbi).2 kernelEnd = some place
      ↔ ∃ before entry after, mbi.mmap = before ++ entry :: after
        ∧ (∀ other ∈ before, ¬other.Offers mbi kernelEnd) ∧ entry.Offers mbi kernelEnd
        ∧ entry.spot mbi kernelEnd = place := by
  rw [carvePlace, if_neg (Nat.ne_of_gt roomy), List.findSome?_eq_some_iff]
  simp only [carveIn_eq roomy]
  constructor
  · rintro ⟨before, entry, after, split, found, none⟩
    split at found
    · rename_i offers
      refine ⟨before, entry, after, split, fun other member offersToo => ?_, offers,
        Option.some.inj found⟩
      have := none other member
      rw [if_pos offersToo] at this
      cases this
    · cases found
  · rintro ⟨before, entry, after, split, none, offers, rfl⟩
    exact ⟨before, entry, after, split, if_pos offers, fun other member => if_neg (none other member)⟩

end

-- The frames that stay free

theorem clearPages_frames (list : List Nat) (pmm : PhysMem)
    : (list.foldl pmmClrp pmm).bitmapFrames = pmm.bitmapFrames := by
  induction list generalizing pmm with
  | nil => rfl
  | cons first rest ih => rw [List.foldl_cons, ih, pmmClrp_frames]

variable {page : Nat}

theorem isFree_clearPages (list : List Nat) (pmm : PhysMem) (below : page < pmm.bitmapFrames)
    : (list.foldl pmmClrp pmm).isFree page = true ↔ page ∈ list ∨ pmm.isFree page = true := by
  induction list generalizing pmm with
  | nil => simp
  | cons first rest ih =>
      rw [List.foldl_cons, ih _ ((pmmClrp_frames pmm first).symm ▸ below), isFree_pmmClrp,
        List.mem_cons, Bool.or_eq_true, decide_eq_true_eq]
      constructor
      · rintro (inRest | ⟨rfl, -⟩ | was)
        · exact Or.inl (Or.inr inRest)
        · exact Or.inl (Or.inl rfl)
        · exact Or.inr was
      · rintro ((rfl | inRest) | was)
        · exact Or.inr (Or.inl ⟨rfl, below⟩)
        · exact Or.inl inRest
        · exact Or.inr (Or.inr was)

theorem isFree_setPages (list : List Nat) (pmm : PhysMem) (below : page < pmm.bitmapFrames)
    : (list.foldl pmmSetp pmm).isFree page = true ↔ page ∉ list ∧ pmm.isFree page = true := by
  induction list generalizing pmm with
  | nil => simp
  | cons first rest ih =>
      rw [List.foldl_cons, ih _ ((pmmSetp_frames pmm first).symm ▸ below), isFree_pmmSetp,
        List.mem_cons, Bool.and_eq_true, Bool.not_eq_true', decide_eq_false_iff_not]
      constructor
      · rintro ⟨notInRest, notFirst, was⟩
        refine ⟨?_, was⟩
        rintro (rfl | inRest)
        · exact notFirst ⟨rfl, below⟩
        · exact notInRest inRest
      · rintro ⟨notIn, was⟩
        exact ⟨fun inRest => notIn (Or.inr inRest), fun same => notIn (Or.inl same.1.symm), was⟩

theorem isFree_markFree (mbi : MultibootInfo) (pmm : PhysMem) (below : page < pmm.bitmapFrames)
    : (markFree mbi pmm).isFree page = true ↔ Covered mbi page ∨ pmm.isFree page = true := by
  have covered : Covered mbi page ↔ ∃ entry ∈ mbi.mmap.filter MmapEntry.counts,
      page ∈ pages (entry.addr / PMM_PAGE_SIZE)
        ((mmapClampedEnd entry + PMM_PAGE_MASK) / PMM_PAGE_SIZE) := by
    simp only [Covered, List.mem_filter, and_assoc]
  rw [covered, markFree]
  generalize mbi.mmap.filter MmapEntry.counts = entries
  induction entries generalizing pmm with
  | nil => simp
  | cons first rest ih =>
      have behind := ih ((pages (first.addr / PMM_PAGE_SIZE)
        ((mmapClampedEnd first + PMM_PAGE_MASK) / PMM_PAGE_SIZE)).foldl pmmClrp pmm)
        (by rw [clearPages_frames]; exact below)
      rw [isFree_clearPages _ _ below] at behind
      rw [List.foldl_cons, List.exists_mem_cons_iff]
      exact behind.trans (or_left_comm.trans or_assoc.symm)

theorem isFree_setModules (list : List BootModule) (pmm : PhysMem) (below : page < pmm.bitmapFrames)
    : (list.foldl (fun pmm module =>
          (pagesOf module.modStart module.modEnd).foldl pmmSetp pmm) pmm).bitmapFrames
        = pmm.bitmapFrames
      ∧ ((list.foldl (fun pmm module =>
            (pagesOf module.modStart module.modEnd).foldl pmmSetp pmm) pmm).isFree page = true
        ↔ (¬∃ module ∈ list, page ∈ pagesOf module.modStart module.modEnd)
          ∧ pmm.isFree page = true) := by
  induction list generalizing pmm with
  | nil => simp
  | cons first rest ih =>
      have frames := (setPages_used (pagesOf first.modStart first.modEnd) pmm page).1
      obtain ⟨framesRest, free⟩ := ih ((pagesOf first.modStart first.modEnd).foldl pmmSetp pmm)
        (by rw [frames]; exact below)
      rw [List.foldl_cons]
      refine ⟨framesRest.trans frames, free.trans ?_⟩
      rw [isFree_setPages _ _ below, List.exists_mem_cons_iff, not_or]
      exact and_left_comm.trans and_assoc.symm

/-- The reservations leave free what is not kept. -/
theorem isFree_reserve (mbi : MultibootInfo) (kernelEnd place : Nat) (pmm : PhysMem)
    (below : page < pmm.bitmapFrames)
    : (reserve mbi kernelEnd place (bitmapBytes mbi) pmm).isFree page = true
      ↔ ¬Kept mbi kernelEnd place page ∧ pmm.isFree page = true := by
  simp only [reserve]
  have low := isFree_setPages (pages 0 (LOWMEM_END / PMM_PAGE_SIZE)) pmm below
  have frames := (setPages_used (pages 0 (LOWMEM_END / PMM_PAGE_SIZE)) pmm page).1
  generalize (pages 0 (LOWMEM_END / PMM_PAGE_SIZE)).foldl pmmSetp pmm = afterLow at low frames ⊢
  rw [← frames] at below
  have kernel := isFree_setPages (pagesOf KERNEL_START kernelEnd) afterLow below
  have framesKernel := (setPages_used (pagesOf KERNEL_START kernelEnd) afterLow page).1
  generalize (pagesOf KERNEL_START kernelEnd).foldl pmmSetp afterLow = afterKernel
    at kernel framesKernel ⊢
  rw [← framesKernel] at below
  obtain ⟨framesMods, mods⟩ := isFree_setModules mbi.mods afterKernel below
  by_cases listed : (firstModule mbi).1 < (firstModule mbi).2
  · have self := isFree_setPages (pagesOf place (place + bitmapBytes mbi)) _
      (by rw [framesMods]; exact below)
    rw [if_pos listed, self, mods, kernel, low]
    constructor
    · rintro ⟨notSelf, notMods, notKernel, notLow, was⟩
      refine ⟨?_, was⟩
      rintro (isLow | isKernel | ⟨-, isModule⟩ | isSelf)
      · exact notLow isLow
      · exact notKernel isKernel
      · exact notMods isModule
      · exact notSelf isSelf
    · rintro ⟨notKept, was⟩
      exact ⟨fun isSelf => notKept (Or.inr (Or.inr (Or.inr isSelf))),
        fun isModule => notKept (Or.inr (Or.inr (Or.inl ⟨listed, isModule⟩))),
        fun isKernel => notKept (Or.inr (Or.inl isKernel)), fun isLow => notKept (Or.inl isLow), was⟩
  · rw [if_neg listed, isFree_setPages _ _ below, kernel, low]
    constructor
    · rintro ⟨notSelf, notKernel, notLow, was⟩
      refine ⟨?_, was⟩
      rintro (isLow | isKernel | ⟨isListed, -⟩ | isSelf)
      · exact notLow isLow
      · exact notKernel isKernel
      · exact listed isListed
      · exact notSelf isSelf
    · rintro ⟨notKept, was⟩
      exact ⟨fun isSelf => notKept (Or.inr (Or.inr (Or.inr isSelf))),
        fun isKernel => notKept (Or.inr (Or.inl isKernel)), fun isLow => notKept (Or.inl isLow), was⟩

-- The state the start leaves

variable {mbi : MultibootInfo} {kernelEnd : Nat} {boot : Memory}

theorem pmmReserved_spec {pmm : PhysMem} (started : pmmReserved mbi kernelEnd boot = some pmm)
    : ∃ place,
        carvePlace (bitmapBytes mbi) mbi (firstModule mbi).1 (firstModule mbi).2 kernelEnd
          = some place
        ∧ pmm.bitmapFrames = (maxEnd mbi + PMM_PAGE_MASK) / PMM_PAGE_SIZE
        ∧ ∀ page < pmm.bitmapFrames,
            pmm.isFree page = true ↔ ¬Kept mbi kernelEnd place page ∧ Covered mbi page := by
  simp only [pmmReserved] at started
  split at started
  · cases started
  split at started
  · cases started
  split at started
  · cases started
  rename_i place carved
  obtain rfl := Option.some.inj started
  have frames := (reserve_used mbi kernelEnd place (bitmapBytes mbi) 0
    (markFree mbi ⟨boot.fill 0 (bitmapBytes mbi) 0,
      (maxEnd mbi + PMM_PAGE_MASK) / PMM_PAGE_SIZE, 0, 0⟩)).1
  rw [markFree_frames] at frames
  refine ⟨place, carved, frames, fun page below => ?_⟩
  have inside : page < (maxEnd mbi + PMM_PAGE_MASK) / PMM_PAGE_SIZE :=
    Nat.lt_of_lt_of_eq below frames
  refine (isFree_reserve mbi kernelEnd place _ (by rw [markFree_frames]; exact inside)).trans ?_
  refine and_congr_right fun _ => (isFree_markFree mbi _ inside).trans ?_
  -- the bitmap is cleared before anything is marked
  have cleared : PhysMem.isFree ⟨boot.fill 0 (bitmapBytes mbi) 0,
      (maxEnd mbi + PMM_PAGE_MASK) / PMM_PAGE_SIZE, 0, 0⟩ page = false := by
    have byte : boot.fill 0 (bitmapBytes mbi) 0 (page / 8) = 0 :=
      Memory.fill_inside _ (Nat.zero_le _) (by rw [bitmapBytes]; omega)
    simp only [PhysMem.isFree, bit, byte]
    exact Nat.zero_testBit _
  exact or_iff_left (fun isFree => Bool.noConfusion (cleared.symm.trans isFree))

theorem clampedEnd_le {entry : MmapEntry} (member : entry ∈ mbi.mmap) (counts : entry.counts = true)
    : mmapClampedEnd entry ≤ maxEnd mbi := by
  have bounded (list : List MmapEntry) (most : Nat)
      : most ≤ list.foldl (fun most entry => max most (mmapClampedEnd entry)) most
        ∧ ∀ entry ∈ list, mmapClampedEnd entry
            ≤ list.foldl (fun most entry => max most (mmapClampedEnd entry)) most := by
    induction list generalizing most with
    | nil => exact ⟨Nat.le_refl _, fun _ member => by cases member⟩
    | cons first rest ih =>
        obtain ⟨grows, above⟩ := ih (max most (mmapClampedEnd first))
        rw [List.foldl_cons]
        refine ⟨Nat.le_trans (Nat.le_max_left _ _) grows, ?_⟩
        rintro other (_ | ⟨_, inRest⟩)
        · exact Nat.le_trans (Nat.le_max_right _ _) grows
        · exact above other inRest
  exact (bounded _ 0).2 entry (List.mem_filter.mpr ⟨member, counts⟩)

theorem covered_below (covered : Covered mbi page)
    : page < (maxEnd mbi + PMM_PAGE_MASK) / PMM_PAGE_SIZE := by
  obtain ⟨entry, member, counts, inPages⟩ := covered
  have most := clampedEnd_le member counts
  obtain ⟨above, behind⟩ := List.mem_range'_1.mp inPages
  simp only [PMM_PAGE_MASK, PMM_PAGE_SIZE] at above behind ⊢
  omega

/-- The start takes the lowest free frame for the bitmap's page table. -/
theorem pmmInit_spec {tablePhys : Nat} {pmm : PhysMem}
    (started : pmmInit mbi kernelEnd boot = some (tablePhys, pmm))
    : ∃ place,
        carvePlace (bitmapBytes mbi) mbi (firstModule mbi).1 (firstModule mbi).2 kernelEnd
          = some place
        ∧ pmm.bitmapFrames = (maxEnd mbi + PMM_PAGE_MASK) / PMM_PAGE_SIZE
        ∧ ∀ page < pmm.bitmapFrames,
            pmm.isFree page = true
              ↔ (¬Kept mbi kernelEnd place page ∧ Covered mbi page)
                ∧ ∃ lower < page, ¬Kept mbi kernelEnd place lower ∧ Covered mbi lower := by
  rw [pmmInit] at started
  cases reserved : pmmReserved mbi kernelEnd boot with
  | none =>
      rw [reserved] at started
      cases started
  | some before =>
      rw [reserved] at started
      obtain ⟨place, carved, frames, free⟩ := pmmReserved_spec reserved
      have settled := pmmReserved_settled reserved
      rcases settled.allocp with ⟨-, failed⟩ | ⟨taken, below, isFree, lowest, allocated⟩
      · simp only [failed, if_true] at started
        cases started
      simp only [allocated] at started
      split at started
      · cases started
      obtain ⟨-, rfl⟩ := Prod.mk.inj (Option.some.inj started)
      obtain ⟨-, bits⟩ := settled.take below lowest
      have framesAfter : (before.take taken).bitmapFrames = before.bitmapFrames := by
        rw [PhysMem.take, pmmSetp_frames]
      refine ⟨place, carved, framesAfter.trans frames, fun page inside => ?_⟩
      rw [framesAfter] at inside
      rw [bits, Bool.and_eq_true, Bool.not_eq_true', decide_eq_false_iff_not, free page inside]
      constructor
      · rintro ⟨other, free'⟩
        refine ⟨free', taken, ?_, (free taken below).mp isFree⟩
        by_contra notBelow
        have := lowest page (by omega)
        rw [(free page inside).mpr free'] at this
        cases this
      · rintro ⟨free', lower, isLower, freeLower⟩
        refine ⟨?_, free'⟩
        rintro rfl
        have := lowest lower isLower
        rw [(free lower (Nat.lt_trans isLower below)).mpr freeLower] at this
        cases this

-- When the start does what it owes

theorem touches_pagesOf {start stop : Nat} (touches : Touches page start stop)
    (fits : stop + PMM_PAGE_MASK < 2 ^ 32)
    : page ∈ pagesOf start stop := by
  obtain ⟨address, above, below, rfl⟩ := touches
  refine List.mem_range'_1.mpr ?_
  simp only [PMM_PAGE_MASK, PMM_PAGE_SIZE] at fits ⊢
  omega

theorem touches_low (touches : Touches page 0 LOWMEM_END)
    : page ∈ pages 0 (LOWMEM_END / PMM_PAGE_SIZE) := by
  obtain ⟨address, -, below, rfl⟩ := touches
  refine List.mem_range'_1.mpr ?_
  simp only [LOWMEM_END, PMM_PAGE_SIZE] at below ⊢
  omega

theorem bitmapSize_pos (roomy : 0 < bitmapBytes mbi) : 0 < bitmapSize mbi := by
  simp only [bitmapSize, PMM_PAGE_MASK, PMM_PAGE_SIZE]
  omega

variable {entry : MmapEntry} {pmm : PhysMem}

theorem kernel_below_spot (booted : Booted mbi kernelEnd) (ends : kernelEnd ≤ entry.top)
    : kernelEnd ≤ entry.spot mbi kernelEnd := by
  refine Nat.le_trans ?_ (past_le _ _ _ _)
  have start := booted.kernel.1
  rw [past]
  by_cases empty : kernelEnd = KERNEL_START
  · rw [if_neg (fun covers => Nat.lt_irrefl LOWMEM_END (Nat.lt_of_lt_of_eq covers.2.1 empty)), empty]
    exact Nat.le_refl _
  · rw [if_pos ⟨by decide, by
      simp only [LOWMEM_END, KERNEL_START] at start empty ⊢
      omega, ends⟩]
    simp only [PMM_PAGE_MASK, PMM_PAGE_SIZE]
    omega

/-- The start does what it owes exactly when the first entry with room suits. -/
theorem StartsWell.iff_suits (booted : Booted mbi kernelEnd) (roomy : 0 < bitmapBytes mbi)
    (offers : entry.Offers mbi kernelEnd)
    (frames : pmm.bitmapFrames = (maxEnd mbi + PMM_PAGE_MASK) / PMM_PAGE_SIZE)
    (free : ∀ page < pmm.bitmapFrames,
      pmm.isFree page = true
        ↔ (¬Kept mbi kernelEnd (entry.spot mbi kernelEnd) page ∧ Covered mbi page)
          ∧ ∃ lower < page,
              ¬Kept mbi kernelEnd (entry.spot mbi kernelEnd) lower ∧ Covered mbi lower)
    : StartsWell mbi kernelEnd (entry.spot mbi kernelEnd) pmm ↔ Suits mbi kernelEnd entry := by
  have size := bitmapSize_pos roomy
  have start := spot_le mbi kernelEnd entry
  have small := top_le entry
  have room := offers.2.2.2
  constructor
  · intro well
    refine ⟨?_, well.region, ?_, ?_⟩
    · have outside := (well.apart _ (Nat.le_refl _) (by omega)).2.1
      simp only [LOWMEM_END, KERNEL_START] at start outside
      omega
    · intro module member nonempty
      by_contra crossed
      refine (well.apart (max (entry.spot mbi kernelEnd) module.modStart) ?_ ?_).2.2 module member ?_
      · omega
      · omega
      · omega
    · intro module member page touches covered
      by_contra neither
      rw [not_or] at neither
      obtain ⟨notKept, notLowest⟩ := neither
      have below := frames ▸ covered_below covered
      have used := well.used page below (Or.inr (Or.inr (Or.inl ⟨module, member, touches⟩)))
      refine notLowest fun lower isLower coveredToo => ?_
      by_contra notKeptToo
      rw [(free page below).mpr ⟨⟨notKept, covered⟩, lower, isLower, notKeptToo, coveredToo⟩] at used
      cases used
  · intro suits
    have kernel := kernel_below_spot booted suits.kernel
    refine ⟨suits.region, fun address above below => ⟨?_, ?_, ?_⟩, fun page below reserved => ?_⟩
    · omega
    · omega
    · intro module member inModule
      have := suits.modules module member (by omega)
      omega
    · rw [Bool.eq_false_iff]
      intro isFree
      obtain ⟨⟨notKept, covered⟩, lower, isLower, notKeptToo, coveredToo⟩ := (free page below).mp isFree
      rcases reserved with low | isKernel | ⟨module, member, touches⟩ | self
      · exact notKept (Or.inl (touches_low low))
      · have fits := booted.kernel.2
        exact notKept (Or.inr (Or.inl (touches_pagesOf isKernel (by
          simp only [PMM_PAGE_MASK]
          omega))))
      · rcases suits.marked module member page touches covered with kept | lowest
        · exact notKept kept
        · exact notKeptToo (lowest lower isLower coveredToo)
      · exact notKept (Or.inr (Or.inr (Or.inr (touches_pagesOf self (by
          simp only [PMM_PAGE_MASK, PMM_IDENTITY_LIMIT] at small ⊢
          omega)))))

/-- When `pmm_init` returns, the bitmap lies in one available region and apart from low memory,
the kernel and the modules, and none of their frames is free, exactly when the first entry of the
map with room for it suits.
-/
theorem pmmInit_startsWell_iff {tablePhys : Nat} (booted : Booted mbi kernelEnd)
    (started : pmmInit mbi kernelEnd boot = some (tablePhys, pmm))
    : (∃ place,
        carvePlace (bitmapBytes mbi) mbi (firstModule mbi).1 (firstModule mbi).2 kernelEnd
          = some place
        ∧ StartsWell mbi kernelEnd place pmm)
      ↔ ∃ before entry after, mbi.mmap = before ++ entry :: after
        ∧ (∀ other ∈ before, ¬other.Offers mbi kernelEnd) ∧ entry.Offers mbi kernelEnd
        ∧ Suits mbi kernelEnd entry := by
  obtain ⟨place, carved, frames, free⟩ := pmmInit_spec started
  have roomy : 0 < bitmapBytes mbi := by
    rw [Nat.pos_iff_ne_zero]
    intro none
    rw [carvePlace, if_pos none] at carved
    cases carved
  constructor
  · rintro ⟨found, carvedToo, well⟩
    obtain rfl := Option.some.inj (carved.symm.trans carvedToo)
    obtain ⟨before, entry, after, split, none, offers, rfl⟩ := (carvePlace_eq_some roomy).mp carved
    exact ⟨before, entry, after, split, none, offers,
      (StartsWell.iff_suits booted roomy offers frames free).mp well⟩
  · rintro ⟨before, entry, after, split, none, offers, suits⟩
    have found := (carvePlace_eq_some roomy).mpr ⟨before, entry, after, split, none, offers, rfl⟩
    obtain rfl := Option.some.inj (carved.symm.trans found)
    exact ⟨_, carved, (StartsWell.iff_suits booted roomy offers frames free).mpr suits⟩

theorem smallMap_booted : Booted smallMap 0x101000 :=
  ⟨by decide, by decide, by decide⟩

/-- On a machine without modules the start does what it owes. -/
theorem pmmInit_startsWell_small
    : ∃ tablePhys pmm, pmmInit smallMap 0x101000 (fun _ => 0) = some (tablePhys, pmm)
      ∧ ∃ place,
        carvePlace (bitmapBytes smallMap) smallMap (firstModule smallMap).1 (firstModule smallMap).2
          0x101000 = some place
        ∧ StartsWell smallMap 0x101000 place pmm := by
  obtain ⟨⟨tablePhys, pmm⟩, started⟩ := Option.isSome_iff_exists.mp smallMap_starts
  refine ⟨tablePhys, pmm, started, (pmmInit_startsWell_iff smallMap_booted started).mpr
    ⟨[], ⟨0x100000, 0x3000, 1⟩, [], rfl, List.forall_mem_nil _, by decide, ?_⟩⟩
  exact ⟨by decide, ⟨_, List.mem_singleton_self _, by decide⟩, List.forall_mem_nil _,
    List.forall_mem_nil _⟩

/-- One region from 1 MiB on, the kernel in its first page, and a module in each of the next two. -/
def twoModules : MultibootInfo :=
  ⟨72, [⟨0x100000, 0x10000, 1⟩], [⟨0x101000, 0x102000⟩, ⟨0x102000, 0x103000⟩]⟩

/-- The bitmap is carved behind the first module, on top of the second. -/
theorem twoModules_overlap
    : Booted twoModules 0x101000
      ∧ ∃ tablePhys pmm, pmmInit twoModules 0x101000 (fun _ => 0) = some (tablePhys, pmm)
        ∧ ¬∃ place,
          carvePlace (bitmapBytes twoModules) twoModules (firstModule twoModules).1
            (firstModule twoModules).2 0x101000 = some place
          ∧ StartsWell twoModules 0x101000 place pmm := by
  have starts : (pmmInit twoModules 0x101000 (fun _ => 0)).isSome = true := by decide +kernel
  have carved : carvePlace (bitmapBytes twoModules) twoModules (firstModule twoModules).1
      (firstModule twoModules).2 0x101000 = some 0x102000 := by
    decide +kernel
  obtain ⟨⟨tablePhys, pmm⟩, started⟩ := Option.isSome_iff_exists.mp starts
  refine ⟨⟨by decide, by decide, by decide⟩, tablePhys, pmm, started, ?_⟩
  rintro ⟨place, carvedToo, well⟩
  obtain rfl := Option.some.inj (carved.symm.trans carvedToo)
  exact (well.apart 0x102000 (Nat.le_refl _) (by decide)).2.2 ⟨0x102000, 0x103000⟩ (by decide)
    (by decide)

end Panuti.Pmm
