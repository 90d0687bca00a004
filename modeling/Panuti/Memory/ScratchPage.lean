import Panuti.Memory.UserSteps

/-! The scratch pages, through which the kernel writes to a frame that no page of its own maps: one
is mapped, written through and unmapped, and no other page of any address space has changed.
-/

namespace Panuti.Vmm

open ByteMemory PageTable

-- Storing in a table that directories share

section

variable {dirs data : List Nat} {machine middle after : Machine} {free : Nat → Bool}

/-- Data is not part of the tables. -/
theorem Paged.writes {memory changed : Memory} {place : Nat} (paged : Paged memory free dirs data)
    (held : place ∈ data)
    (outside : ∀ other, other / 4096 * 4096 ≠ place → changed other = memory other)
    : Paged changed free dirs data
      ∧ Changes dirs (fun _ _ => False) (fun _ _ => False) memory changed := by
  obtain ⟨placeAligned, _, _, notDir⟩ := paged.filled place held
  have word {base offset : Nat} (aligned : base % 4096 = 0) (apart : base ≠ place)
      (within : offset < 1024)
      : changed.word (base + 4 * offset) = memory.word (base + 4 * offset) :=
    Memory.word_congr (fun other _ _ => outside other (by omega))
  have same : ∀ dir ∈ dirs, ∀ index < 1024,
      dirEntry changed dir index = dirEntry memory dir index := by
    intro dir member index inside
    refine word (paged.rooted dir member).1 ?_ inside
    rintro rfl
    exact notDir member
  refine ⟨paged.congr same, fun dir member index inside _ => same dir member index inside, ?_⟩
  intro dir member page inside _
  rw [pageEntry, same dir member _ (by omega), pageEntry]
  by_cases isPresent : present (dirEntry memory dir (page / 1024)) = true
  · simp only [isPresent, if_pos]
    obtain ⟨_, _, notData⟩ := paged.tables dir member _ inside isPresent
    refine word (frame_aligned _) ?_ (by omega)
    intro is
    rw [is] at notData
    exact notData held
  · simp only [isPresent, if_neg, Bool.false_eq_true, not_false_eq_true]

theorem Paged.store_shared {memory : Memory} {dir other index offset value : Nat}
    (paged : Paged memory free dirs data) (member : dir ∈ dirs) (memberToo : other ∈ dirs)
    (inside : index < 1023) (within : offset < 1024)
    (isPresent : present (dirEntry memory dir index) = true)
    (isPresentToo : present (dirEntry memory other index) = true) (small : value < 2 ^ 32)
    : pageEntry (memory.setWord (frame (dirEntry memory dir index) + 4 * offset) value) other
        (index * 1024 + offset)
      = if frame (dirEntry memory other index) = frame (dirEntry memory dir index) then value
        else pageEntry memory other (index * 1024 + offset) := by
  have high : (index * 1024 + offset) / 1024 = index := by omega
  have low : (index * 1024 + offset) % 1024 = offset := by omega
  obtain ⟨_, changes, _⟩ := paged.store value member inside within isPresent
  have same := changes.directory other memberToo index (by omega) id
  have aligned := frame_aligned (dirEntry memory dir index)
  have alignedToo := frame_aligned (dirEntry memory other index)
  rw [pageEntry, pageEntry, high, low, same]
  simp only [isPresentToo, if_pos]
  by_cases shared : frame (dirEntry memory other index) = frame (dirEntry memory dir index)
  · rw [if_pos shared, shared]
    exact memory.word_setWord_self _ small
  · rw [if_neg shared]
    exact word_setWord_aligned (by omega) (by omega) (by omega)

theorem Machine.Sound.map_stored (sound : machine.Sound dirs data) {virt flags : Nat}
    (inside : virt / 2 ^ 22 < 1023)
    (isPresent : present (dirEntry machine.memory machine.cr3 (virt / 2 ^ 22)) = true)
    (kernel : flags &&& PAGE_USER = 0) (phys : Nat)
    : vmmMap machine virt phys flags
      = some { machine with
          mapped := machine.mapped ++ [(machine.cr3, virt)]
          memory := machine.memory.setWord
            (frame (dirEntry machine.memory machine.cr3 (virt / 2 ^ 22))
              + 4 * (virt / 2 ^ 12 % 1024))
            (phys ||| flags ||| PAGE_PRESENT) } := by
  have logged : ({ machine with mapped := machine.mapped ++ [(machine.cr3, virt)] }
      : Machine).Sound dirs data := ⟨sound.paged, sound.small, sound.current⟩
  have there : ¬present (dirEntry machine.memory machine.cr3 (virt / 2 ^ 22)) = false := by
    rw [isPresent]
    decide
  have provides : Vmm.provideTable { machine with mapped := machine.mapped ++ [(machine.cr3, virt)] }
      (virt / 2 ^ 22) flags
      = some (true, { machine with mapped := machine.mapped ++ [(machine.cr3, virt)] }) := by
    rw [Vmm.provideTable, logged.readsEntry (by omega)]
    simp only [if_neg there, kernel, ne_eq, not_true_eq_false, if_false]
  rw [vmmMap]
  simp only [provides]
  rw [Machine.writeWord, logged.table (by omega) (by omega) isPresent]
  rfl

theorem Machine.Sound.unmap_stored (sound : machine.Sound dirs data) {virt : Nat}
    (inside : virt / 2 ^ 22 < 1023)
    (isPresent : present (dirEntry machine.memory machine.cr3 (virt / 2 ^ 22)) = true)
    : vmmUnmap machine virt
      = some { machine with
          memory := machine.memory.setWord
            (frame (dirEntry machine.memory machine.cr3 (virt / 2 ^ 22))
              + 4 * (virt / 2 ^ 12 % 1024)) 0 } := by
  have there : ¬present (dirEntry machine.memory machine.cr3 (virt / 2 ^ 22)) = false := by
    rw [isPresent]
    decide
  rw [vmmUnmap, sound.readsEntry (by omega)]
  simp only [if_neg there]
  rw [Machine.writeWord, sound.table (by omega) (by omega) isPresent]
  rfl

end

-- A scratch page is opened and closed

def scratchEntry (phys : Nat) : Nat := phys ||| PAGE_RW ||| PAGE_PRESENT

def scratchAddress (slot : Nat) : Nat := PAGE_DIR_TEMP_MAP + slot * 4096

/-- The table with the entries of the scratch pages. -/
def Machine.scratchTable (machine : Machine) : Nat :=
  frame (dirEntry machine.memory machine.cr3 770)

/-- A scratch page is mapped to a frame, and maybe the frame was written to since. -/
structure Opened (dirs data : List Nat) (machine middle : Machine) (slot phys : Nat) : Prop where
  isSlot : slot ∈ SCRATCH_SLOTS
  spaces : Spaces machine dirs data
  held : phys ∈ data
  cr3 : middle.cr3 = machine.cr3
  frames : middle.frames = machine.frames
  free : middle.free = machine.free
  memory
    : ∀ place, place / 4096 * 4096 ≠ phys
      → middle.memory place
        = machine.memory.setWord (machine.scratchTable + 4 * slot) (scratchEntry phys) place

structure Closed (dirs data : List Nat) (machine middle after : Machine) (phys : Nat) : Prop where
  spaces : Spaces after dirs data
  frames : after.frames = machine.frames
  free : after.free = machine.free
  cr3 : after.cr3 = machine.cr3
  view : SameView dirs machine after
  directory
    : ∀ dir ∈ dirs, ∀ index < 1024,
        dirEntry after.memory dir index = dirEntry machine.memory dir index
  inside : ∀ place, place / 4096 * 4096 = phys → after.memory place = middle.memory place
  bytes
    : ∀ place, place / 4096 * 4096 ∈ data → place / 4096 * 4096 ≠ phys
      → after.memory place = machine.memory place

section

variable {dirs data : List Nat} {machine middle after : Machine} {slot phys : Nat}

theorem scratch_index : PAGE_DIR_TEMP_MAP / 2 ^ 22 = 770 := by decide

theorem temp_address : scratchAddress 0 = PAGE_DIR_TEMP_MAP := by decide

theorem scratch_place (isSlot : slot ∈ SCRATCH_SLOTS)
    : slot < 1024 ∧ scratchAddress slot / 2 ^ 22 = 770
      ∧ scratchAddress slot / 2 ^ 12 % 1024 = slot
      ∧ scratchAddress slot / 2 ^ 12 = scratchPage slot := by
  revert slot
  decide

theorem scratch_page (slot : Nat) : scratchPage slot = 770 * 1024 + slot := by
  have base : PAGE_DIR_TEMP_MAP / 2 ^ 12 = 770 * 1024 := by decide
  rw [scratchPage, base]

theorem Spaces.scratchPresent (spaces : Spaces machine dirs data) {dir : Nat} (member : dir ∈ dirs)
    : present (dirEntry machine.memory dir 770) = true := by
  rw [← scratch_index]
  exact spaces.scratch dir member

theorem Spaces.scratchTable_apart (spaces : Spaces machine dirs data)
    : machine.scratchTable % 4096 = 0 ∧ machine.scratchTable ∉ data := by
  obtain ⟨_, _, notData⟩ := spaces.sound.paged.tables _ spaces.sound.current 770 (by decide)
    (spaces.scratchPresent spaces.sound.current)
  exact ⟨frame_aligned _, notData⟩

theorem scratchEntry_spec (aligned : phys % 4096 = 0) (small : phys < 2 ^ 32)
    : scratchEntry phys < 2 ^ 32 ∧ frame (scratchEntry phys) = phys
      ∧ present (scratchEntry phys) = true := by
  rw [scratchEntry, Nat.or_assoc]
  refine ⟨Nat.or_lt_two_pow small (by decide), (frame_or aligned (by decide)).1, ?_⟩
  rw [present_or aligned (by decide)]
  decide

theorem Spaces.openScratch (spaces : Spaces machine dirs data) (isSlot : slot ∈ SCRATCH_SLOTS)
    (held : phys ∈ data) {flags : Nat} (kernel : flags &&& PAGE_USER = 0)
    (entry : phys ||| flags ||| PAGE_PRESENT = scratchEntry phys)
    : ∃ middle, vmmMap machine (scratchAddress slot) phys flags = some middle
      ∧ Opened dirs data machine middle slot phys := by
  obtain ⟨-, index, offset, -⟩ := scratch_place isSlot
  have isPresent := spaces.scratchPresent spaces.sound.current
  have first := spaces.sound.map_stored (by omega : scratchAddress slot / 2 ^ 22 < 1023)
    (by rw [index]; exact isPresent) kernel phys
  rw [index, offset, entry] at first
  exact ⟨_, first, ⟨isSlot, spaces, held, rfl, rfl, rfl, fun _ _ => rfl⟩⟩

theorem Spaces.openTemp (spaces : Spaces machine dirs data) (held : phys ∈ data)
    : ∃ middle, vmmMap machine PAGE_DIR_TEMP_MAP phys PAGE_RW = some middle
      ∧ Opened dirs data machine middle 0 phys := by
  rw [← temp_address]
  exact spaces.openScratch (by decide) held (by decide) rfl

theorem Opened.write (opened : Opened dirs data machine middle slot phys) (changed : Memory)
    (outside : ∀ place, place / 4096 * 4096 ≠ phys → changed place = middle.memory place)
    : Opened dirs data machine { middle with memory := changed } slot phys :=
  ⟨opened.isSlot, opened.spaces, opened.held, opened.cr3, opened.frames, opened.free,
    fun place apart => (outside place apart).trans (opened.memory place apart)⟩

theorem Opened.paged (opened : Opened dirs data machine middle slot phys)
    : Paged middle.memory middle.free dirs data
      ∧ (∀ dir ∈ dirs, ∀ index < 1024,
          dirEntry middle.memory dir index = dirEntry machine.memory dir index)
      ∧ (∀ dir ∈ dirs, ∀ other, other / 1024 < 1023 → other ≠ scratchPage slot
          → pageEntry middle.memory dir other = pageEntry machine.memory dir other)
      ∧ (∀ dir ∈ dirs, pageEntry middle.memory dir (scratchPage slot)
          = if frame (dirEntry machine.memory dir 770) = machine.scratchTable
            then scratchEntry phys
            else pageEntry machine.memory dir (scratchPage slot)) := by
  have sound := opened.spaces.sound
  have isPresent := opened.spaces.scratchPresent sound.current
  obtain ⟨aligned, small, _, _⟩ := sound.paged.filled phys opened.held
  obtain ⟨fits, -, -⟩ := scratchEntry_spec aligned small
  obtain ⟨within, -⟩ := scratch_place opened.isSlot
  obtain ⟨paged, changes, -⟩ := sound.paged.store (scratchEntry phys) sound.current
    (by decide : 770 < 1023) within isPresent
  obtain ⟨pagedToo, changesToo⟩ := paged.writes opened.held opened.memory
  refine ⟨?_, ?_, ?_, ?_⟩
  · rw [opened.free]
    exact pagedToo
  · intro dir member index inside
    rw [changesToo.directory dir member index inside id,
      changes.directory dir member index inside id]
  · intro dir member other inside apart
    rw [scratch_page] at apart
    rw [changesToo.page dir member other inside id,
      changes.page dir member other inside (fun is => apart is.1)]
  · intro dir member
    have shared := sound.paged.store_shared sound.current member (by decide : 770 < 1023)
      within isPresent (opened.spaces.scratchPresent member) fits
    rw [scratch_page, changesToo.page dir member _ (by omega) id]
    exact shared

theorem Opened.reached (opened : Opened dirs data machine middle slot phys) {offset : Nat}
    (within : offset < 4096)
    : translate middle.memory middle.cr3 (scratchAddress slot + offset) = some (phys + offset) := by
  have sound := opened.spaces.sound
  obtain ⟨aligned, small, _, _⟩ := sound.paged.filled phys opened.held
  obtain ⟨-, isFrame, isPresent⟩ := scratchEntry_spec aligned small
  have seen := opened.paged.2.2.2 _ sound.current
  rw [← opened.cr3] at seen
  have own : frame (dirEntry machine.memory middle.cr3 770) = machine.scratchTable := by
    rw [opened.cr3, Machine.scratchTable]
  rw [if_pos own] at seen
  have base : scratchAddress slot = scratchPage slot * 4096 := by
    simp only [scratchAddress, scratchPage, PAGE_DIR_TEMP_MAP]
    omega
  have page : (scratchAddress slot + offset) / 4096 = scratchPage slot := by omega
  have low : (scratchAddress slot + offset) % 4096 = offset := by omega
  rw [PageTable.translate, page, seen, low]
  simp only [isPresent, if_pos, isFrame]

theorem Opened.found (opened : Opened dirs data machine middle slot phys)
    : vmmGetPhys middle (scratchAddress slot) = some phys := by
  have sound := opened.spaces.sound
  obtain ⟨aligned, small, _, _⟩ := sound.paged.filled phys opened.held
  obtain ⟨-, isFrame, isPresent⟩ := scratchEntry_spec aligned small
  have recursive := (opened.paged.1.rooted _ (opened.cr3 ▸ sound.current)).2.2.2
  have seen := opened.paged.2.2.2 _ sound.current
  rw [← opened.cr3] at seen
  have own : frame (dirEntry machine.memory middle.cr3 770) = machine.scratchTable := by
    rw [opened.cr3, Machine.scratchTable]
  rw [if_pos own] at seen
  obtain ⟨-, index, -, page⟩ := scratch_place opened.isSlot
  rw [vmmGetPhys_eq recursive (by omega), page, Machine.view, seen, if_pos isPresent]
  simp only [isFrame]

/-- `vmm_unmap` of the scratch page leaves the tables as they were, also those that share it. -/
theorem Opened.close (opened : Opened dirs data machine middle slot phys)
    : ∃ after, vmmUnmap middle (scratchAddress slot) = some after
      ∧ Closed dirs data machine middle after phys := by
  have spaces := opened.spaces
  have sound := spaces.sound
  obtain ⟨paged, kept, entries, scratch⟩ := opened.paged
  have current : middle.cr3 ∈ dirs := by
    rw [opened.cr3]
    exact sound.current
  have table : frame (dirEntry middle.memory middle.cr3 770) = machine.scratchTable := by
    rw [kept _ current 770 (by decide), opened.cr3, Machine.scratchTable]
  have present₂ : ∀ dir ∈ dirs, present (dirEntry middle.memory dir 770) = true := by
    intro dir member
    rw [kept dir member 770 (by decide)]
    exact spaces.scratchPresent member
  have soundMiddle : middle.Sound dirs data := by
    refine ⟨paged, ?_, current⟩
    rw [opened.frames]
    exact sound.small
  obtain ⟨within, index, offset, -⟩ := scratch_place opened.isSlot
  have ran := soundMiddle.unmap_stored (by omega : scratchAddress slot / 2 ^ 22 < 1023)
    (by rw [index]; exact present₂ _ current)
  obtain ⟨pagedAfter, changes, -⟩ := paged.store 0 current (by decide : 770 < 1023)
    within (present₂ _ current)
  have shared := fun dir member => paged.store_shared current member
    (by decide : 770 < 1023) within (present₂ _ current) (present₂ dir member)
    (by decide : 0 < 2 ^ 32)
  rw [index, offset, table] at ran
  rw [table] at pagedAfter changes
  refine ⟨_, ran, ?_⟩
  have directory : ∀ dir ∈ dirs, ∀ index < 1024,
      dirEntry (middle.memory.setWord (machine.scratchTable + 4 * slot) 0) dir index
      = dirEntry machine.memory dir index := by
    intro dir member index inside
    rw [changes.directory dir member index inside id, kept dir member index inside]
  have clear : ∀ dir ∈ dirs, present
      (pageEntry (middle.memory.setWord (machine.scratchTable + 4 * slot) 0) dir (scratchPage slot))
      = false := by
    intro dir member
    have stored := shared dir member
    rw [table, ← scratch_page, kept dir member 770 (by decide)] at stored
    rw [stored]
    by_cases shares : frame (dirEntry machine.memory dir 770) = machine.scratchTable
    · rw [if_pos shares, present_zero]
    · have was := spaces.clear dir member slot opened.isSlot
      rw [if_neg shares, scratch dir member, if_neg shares]
      rw [Machine.view] at was
      cases absent : present (pageEntry machine.memory dir (scratchPage slot)) with
      | false => rfl
      | true =>
          rw [absent, if_pos rfl] at was
          cases was
  have view : ∀ dir ∈ dirs, ∀ other, other / 1024 < 1023
      → ({ middle with memory := middle.memory.setWord (machine.scratchTable + 4 * slot) 0 }
          : Machine).view dir other
        = machine.view dir other := by
    intro dir member other inside
    by_cases isScratch : other = scratchPage slot
    · subst isScratch
      rw [spaces.clear dir member slot opened.isSlot, Machine.view]
      simp only [clear dir member, Bool.false_eq_true, if_false]
    · have notStored : ¬(other = 770 * 1024 + slot ∧ (dir = middle.cr3 ∨ KERNEL_PDE_START ≤ 770)) := by
        rw [← scratch_page]
        exact fun is => isScratch is.1
      rw [Machine.view, changes.page dir member other inside notStored,
        entries dir member other inside isScratch, Machine.view]
  obtain ⟨tableAligned, notData⟩ := spaces.scratchTable_apart
  have apart {place : Nat} (inData : place / 4096 * 4096 ∈ data)
      : place / 4096 * 4096 ≠ machine.scratchTable := by
    intro is
    rw [is] at inData
    exact notData inData
  refine ⟨⟨⟨pagedAfter, soundMiddle.small, current⟩, ?_, ?_, ?_, ?_, ?_, ?_⟩, opened.frames,
    opened.free, opened.cr3, view, directory, ?_, ?_⟩
  · intro dir member
    exact (congrArg present (directory dir member _ (by decide))).trans (spaces.scratch dir member)
  · intro dir member other isSlot
    have inside : ∀ slot ∈ SCRATCH_SLOTS, scratchPage slot / 1024 < 1023 := by decide
    rw [view dir member _ (inside other isSlot)]
    exact spaces.clear dir member other isSlot
  · intro dir member other inside
    have kept := directory dir member other (Nat.lt_trans inside (by decide))
    intro there
    exact (congrArg (fun entry => entry.testBit 1) kept).trans
      (spaces.writable dir member other inside ((congrArg present kept).symm.trans there))
  · intro place member
    obtain ⟨below, notZero⟩ := spaces.known place member
    exact ⟨opened.frames.symm ▸ below, notZero⟩
  · intro dir member other user entry seen
    rw [view dir member other (user_inside user)] at seen
    exact spaces.backed dir member other user entry seen
  · intro dir member other memberToo onePage user otherPage userToo entry otherEntry seen seenToo
    rw [view dir member _ (user_inside user)] at seen
    rw [view other memberToo _ (user_inside userToo)] at seenToo
    exact spaces.single dir member other memberToo _ user _ userToo entry otherEntry seen seenToo
  · intro place isPhys
    have notTable := @apart place (isPhys ▸ opened.held)
    exact Memory.setWord_other _ (by omega)
  · intro place inData other
    have notTable := apart inData
    have stored : (middle.memory.setWord (machine.scratchTable + 4 * slot) 0) place
        = middle.memory place := Memory.setWord_other _ (by omega)
    exact stored.trans ((opened.memory place other).trans (Memory.setWord_other _ (by omega)))

theorem Spaces.zeroFrame (spaces : Spaces machine dirs data) (held : phys ∈ data)
    : ∃ middle after, vmmZeroFrame machine phys = some after
      ∧ Closed dirs data machine middle after phys
      ∧ ∀ offset < 4096, after.memory (phys + offset) = 0 := by
  obtain ⟨opened, maps, isOpen⟩ := spaces.openTemp held
  have aligned := (spaces.sound.paged.filled phys held).1
  have reached := isOpen.reached (by decide : 0 < 4096)
  have found := isOpen.found
  rw [temp_address] at found
  rw [temp_address, Nat.add_zero, Nat.add_zero] at reached
  have cleared := isOpen.write (opened.memory.fill phys PAGE_SIZE 0) (by
    intro place apart
    refine Memory.fill_other _ ?_
    simp only [PAGE_SIZE]
    omega)
  obtain ⟨after, unmaps, closed⟩ := cleared.close
  rw [temp_address] at unmaps
  refine ⟨_, after, ?_, closed, ?_⟩
  · rw [vmmZeroFrame, maps]
    simp only [Option.bind_eq_bind, Option.bind_some, found, if_pos, Machine.zeroPage,
      reached, Option.map_some]
    exact unmaps
  · intro offset inside
    rw [closed.inside _ (by omega)]
    exact Memory.fill_inside _ (by omega) (by simp only [PAGE_SIZE]; omega)

end

end Panuti.Vmm
