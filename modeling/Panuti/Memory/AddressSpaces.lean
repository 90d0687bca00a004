import Panuti.Memory.ScratchPage

/-! New address spaces: `vmm_create_page_dir` fills a directory through the scratch page. It shares
the kernel half with the current directory, and none of its user pages are mapped.
-/

namespace Panuti.Vmm

open ByteMemory PageTable

/-- The loop that copies the entries of the kernel half. -/
def copyKernelEntries (machine : Machine) : (steps index : Nat) → Option Machine
  | 0, _ => some machine
  | steps + 1, index => do
      let entry ← machine.readWord (currentPageDir + 4 * index)
      let machine ← machine.writeWord (PAGE_DIR_TEMP_MAP + 4 * index) entry
      copyKernelEntries machine steps (index + 1)

/-- `vmm_create_page_dir`: the new directory, or 0. -/
def vmmCreatePageDir (machine : Machine) : Option (Nat × Machine) :=
  let (pageDirPhys, machine) := pmmAllocp machine
  if pageDirPhys = 0 then some (0, machine)
  else do
    let machine ← vmmMap machine PAGE_DIR_TEMP_MAP pageDirPhys PAGE_RW
    let machine ← machine.zeroPage PAGE_DIR_TEMP_MAP
    let machine ← copyKernelEntries machine (RECURSIVE_PDE_INDEX - KERNEL_PDE_START)
      KERNEL_PDE_START
    let machine ← machine.writeWord (PAGE_DIR_TEMP_MAP + 4 * RECURSIVE_PDE_INDEX)
      (pageDirPhys ||| PAGE_PRESENT ||| PAGE_RW)
    let machine ← vmmUnmap machine PAGE_DIR_TEMP_MAP
    some (pageDirPhys, machine)

section

variable {dirs data : List Nat} {machine middle after : Machine} {phys : Nat} {index : Nat}

theorem Opened.writeWord (opened : Opened dirs data machine middle 0 phys) (inside : index < 1024)
    (value : Nat)
    : ∃ after, middle.writeWord (PAGE_DIR_TEMP_MAP + 4 * index) value = some after
      ∧ Opened dirs data machine after 0 phys
      ∧ after.memory = middle.memory.setWord (phys + 4 * index) value := by
  have aligned := (opened.spaces.sound.paged.filled phys opened.held).1
  have reached := opened.reached (by omega : 4 * index < 4096)
  rw [temp_address] at reached
  refine ⟨{ middle with memory := middle.memory.setWord (phys + 4 * index) value }, ?_, ?_, rfl⟩
  · rw [Machine.writeWord, reached, Option.map_some]
  · exact opened.write _ (fun place apart => Memory.setWord_other _ (by omega))

theorem Opened.readsDir (opened : Opened dirs data machine middle 0 phys) (inside : index < 1024)
    : middle.readWord (currentPageDir + 4 * index)
      = some (dirEntry machine.memory machine.cr3 index) := by
  obtain ⟨paged, kept, -⟩ := opened.paged
  have current := opened.spaces.sound.current
  rw [← opened.cr3] at current
  rw [Machine.reads_dir (paged.rooted _ current).2.2.2 inside, kept _ current index inside,
    opened.cr3]

theorem Opened.copyKernelEntries (opened : Opened dirs data machine middle 0 phys) {steps : Nat}
    (inside : index + steps ≤ 1024)
    : ∃ after, Vmm.copyKernelEntries middle steps index = some after
      ∧ Opened dirs data machine after 0 phys
      ∧ ∀ other < 1024, after.memory.word (phys + 4 * other)
          = if index ≤ other ∧ other < index + steps then dirEntry machine.memory machine.cr3 other
            else middle.memory.word (phys + 4 * other) := by
  induction steps generalizing middle index with
  | zero =>
      refine ⟨middle, rfl, opened, fun other _ => ?_⟩
      rw [if_neg (by omega)]
  | succ steps ih =>
      have aligned := (opened.spaces.sound.paged.filled phys opened.held).1
      obtain ⟨written, writes, isOpen, memory⟩ := opened.writeWord (by omega : index < 1024)
        (dirEntry machine.memory machine.cr3 index)
      obtain ⟨after, copies, isOpenToo, words⟩ := ih isOpen (by omega : index + 1 + steps ≤ 1024)
      refine ⟨after, ?_, isOpenToo, ?_⟩
      · rw [Vmm.copyKernelEntries, opened.readsDir (by omega)]
        simp only [Option.bind_eq_bind, Option.bind_some, writes]
        exact copies
      · intro other otherInside
        rw [words other otherInside]
        by_cases later : index + 1 ≤ other ∧ other < index + 1 + steps
        · rw [if_pos later, if_pos (by omega)]
        · rw [if_neg later, memory]
          by_cases here : other = index
          · rw [here, if_pos (by omega)]
            exact Memory.word_setWord_self _ _ (machine.memory.word_lt _)
          · rw [if_neg (by omega)]
            exact word_setWord_aligned (by omega) (by omega) (by omega)

structure NewDir (memory : Memory) (cr3 dir : Nat) : Prop where
  user : ∀ index < KERNEL_PDE_START, dirEntry memory dir index = 0
  kernel
    : ∀ index, KERNEL_PDE_START ≤ index → index < 1023
      → dirEntry memory dir index = dirEntry memory cr3 index
  recursive : Recursive memory dir

theorem NewDir.view {dir : Nat} (new : NewDir machine.memory machine.cr3 dir) {page : Nat}
    (inside : page / 1024 < 1023)
    : machine.view dir page
      = if page < USER_LAST then none else machine.view machine.cr3 page := by
  by_cases user : page < USER_LAST
  · rw [if_pos user, Machine.view, pageEntry, new.user _ (user_table user)]
    simp only [present_zero, Bool.false_eq_true, if_false]
  · have kernel : KERNEL_PDE_START ≤ page / 1024 := by
      simp only [USER_LAST] at user
      simp only [KERNEL_PDE_START]
      omega
    rw [if_neg user, Machine.view, pageEntry, new.kernel _ kernel inside, Machine.view, pageEntry]

/-- A frame that was filled as a directory becomes one. -/
theorem Spaces.addDir (spaces : Spaces machine dirs (phys :: data)) (fresh : phys ∉ data)
    (notZero : phys ≠ 0) (new : NewDir machine.memory machine.cr3 phys)
    (unmapped : machine.Unmapped dirs phys)
    : Spaces machine (phys :: dirs) data := by
  have paged := spaces.sound.paged
  obtain ⟨aligned, _, isTaken, notDir⟩ := paged.filled phys (List.mem_cons_self ..)
  have entries : ∀ index < 1023, present (dirEntry machine.memory phys index) = true
      → KERNEL_PDE_START ≤ index
        ∧ dirEntry machine.memory phys index = dirEntry machine.memory machine.cr3 index := by
    intro index inside isPresent
    by_cases user : index < KERNEL_PDE_START
    · rw [new.user index user] at isPresent
      cases isPresent
    · exact ⟨Nat.le_of_not_lt user, new.kernel index (Nat.le_of_not_lt user) inside⟩
  have noView : ∀ page < USER_LAST, machine.view phys page = none := by
    intro page user
    rw [new.view (user_inside user), if_pos user]
  have current := spaces.sound.current
  refine ⟨⟨⟨paged.zero, ?_, ?_, ?_, ?_⟩, spaces.sound.small, List.mem_cons_of_mem _ current⟩,
    ?_, ?_, ?_, ?_, ?_, ?_⟩
  · intro dir member
    rcases List.mem_cons.mp member with rfl | member
    · exact ⟨aligned, notZero, isTaken, new.recursive⟩
    · exact paged.rooted dir member
  · intro dir member index inside isPresent
    have apart {table : Nat} (notOld : table ∉ dirs) (notData : table ∉ phys :: data)
        : table ∉ phys :: dirs ∧ table ∉ data := by
      obtain ⟨notPhys, notInData⟩ := not_or.mp (List.mem_cons.not.mp notData)
      refine ⟨fun is => ?_, notInData⟩
      rcases List.mem_cons.mp is with is | is
      · exact notPhys is
      · exact notOld is
    rcases List.mem_cons.mp member with rfl | inDirs
    · obtain ⟨-, isShared⟩ := entries index inside isPresent
      rw [isShared] at isPresent ⊢
      obtain ⟨taken, notOld, notData⟩ := paged.tables _ current index inside isPresent
      exact ⟨taken, apart notOld notData⟩
    · obtain ⟨taken, notOld, notData⟩ := paged.tables dir inDirs index inside isPresent
      exact ⟨taken, apart notOld notData⟩
  · intro dir member other memberToo index inside otherIndex insideToo isPresent isPresentToo same
    rcases List.mem_cons.mp member with isNew | inDirs
    · subst isNew
      obtain ⟨kernel, isShared⟩ := entries index inside isPresent
      rw [isShared] at isPresent same
      rcases List.mem_cons.mp memberToo with isNew | inDirsToo
      · subst isNew
        obtain ⟨-, isSharedToo⟩ := entries otherIndex insideToo isPresentToo
        rw [isSharedToo] at isPresentToo same
        obtain ⟨sameIndex, -⟩ := paged.separate _ current _ current index inside otherIndex
          insideToo isPresent isPresentToo same
        exact ⟨sameIndex, Or.inr kernel⟩
      · obtain ⟨sameIndex, -⟩ := paged.separate _ current other inDirsToo index inside otherIndex
          insideToo isPresent isPresentToo same
        exact ⟨sameIndex, Or.inr kernel⟩
    · rcases List.mem_cons.mp memberToo with isNew | inDirsToo
      · subst isNew
        obtain ⟨kernel, isShared⟩ := entries otherIndex insideToo isPresentToo
        rw [isShared] at isPresentToo same
        obtain ⟨sameIndex, -⟩ := paged.separate dir inDirs _ current index inside otherIndex
          insideToo isPresent isPresentToo same
        exact ⟨sameIndex, Or.inr (sameIndex ▸ kernel)⟩
      · exact paged.separate dir inDirs other inDirsToo index inside otherIndex insideToo isPresent
          isPresentToo same
  · intro place inData
    obtain ⟨placeAligned, small, taken, placeNotDir⟩ :=
      paged.filled place (List.mem_cons_of_mem _ inData)
    refine ⟨placeAligned, small, taken, fun is => ?_⟩
    rcases List.mem_cons.mp is with rfl | is
    · exact fresh inData
    · exact placeNotDir is
  · intro dir member
    rcases List.mem_cons.mp member with rfl | member
    · rw [new.kernel _ (by decide) (by decide)]
      exact spaces.scratch _ current
    · exact spaces.scratch dir member
  · intro dir member slot isSlot
    have kernel : ∀ slot ∈ SCRATCH_SLOTS, scratchPage slot / 1024 < 1023
        ∧ ¬scratchPage slot < USER_LAST := by decide
    obtain ⟨inside, notUser⟩ := kernel slot isSlot
    rcases List.mem_cons.mp member with rfl | member
    · rw [new.view inside, if_neg notUser]
      exact spaces.clear _ current slot isSlot
    · exact spaces.clear dir member slot isSlot
  · intro dir member index user isPresent
    rcases List.mem_cons.mp member with rfl | member
    · rw [new.user index user] at isPresent
      cases isPresent
    · exact spaces.writable dir member index user isPresent
  · exact fun place inData => spaces.known place (List.mem_cons_of_mem _ inData)
  · intro dir member page user entry seen
    rcases List.mem_cons.mp member with rfl | member
    · rw [noView page user] at seen
      cases seen
    · rcases List.mem_cons.mp (spaces.backed dir member page user entry seen) with is | inData
      · exact absurd is (unmapped dir member page user entry seen)
      · exact inData
  · intro dir member other memberToo page user otherPage userToo entry otherEntry seen seenToo same
    rcases List.mem_cons.mp member with rfl | inDirs
    · rw [noView page user] at seen
      cases seen
    · rcases List.mem_cons.mp memberToo with rfl | inDirsToo
      · rw [noView otherPage userToo] at seenToo
        cases seenToo
      · exact spaces.single dir inDirs other inDirsToo page user otherPage userToo entry otherEntry
          seen seenToo same

/-- What making an address space leaves: the pages of the others as they were. -/
structure Created (dirs data : List Nat) (machine after : Machine) (addrSpace : Nat) : Prop where
  spaces : Spaces after (addrSpace :: dirs) data
  cr3 : after.cr3 = machine.cr3
  view : SameView dirs machine after
  directory
    : ∀ dir ∈ dirs, ∀ index < 1024,
        dirEntry after.memory dir index = dirEntry machine.memory dir index
  empty : ∀ page < USER_LAST, after.view addrSpace page = none

/-- `vmm_create_page_dir` makes an address space without user pages, or there is no frame. -/
theorem Spaces.vmmCreatePageDir (spaces : Spaces machine dirs data)
    : ∃ addrSpace after, Vmm.vmmCreatePageDir machine = some (addrSpace, after)
      ∧ (addrSpace = 0 ∧ after = { machine with cursor := 0 } ∧ Spaces after dirs data
        ∨ addrSpace ≠ 0 ∧ Created dirs data machine after addrSpace) := by
  rcases spaces.allocp with ⟨-, failed, same⟩ | ⟨page, below, isFree, notZero, allocated, taken⟩
  · refine ⟨0, _, ?_, Or.inl ⟨rfl, rfl, same⟩⟩
    simp only [Vmm.vmmCreatePageDir, failed, if_pos]
  · have isSome : page * PAGE_SIZE ≠ 0 := by
      simp only [PAGE_SIZE]
      omega
    have aligned : page * PAGE_SIZE % 4096 = 0 := by
      simp only [PAGE_SIZE]
      omega
    have isFresh : page * PAGE_SIZE ∉ data := by
      have fresh := (spaces.sound.paged.fresh isFree).2.1
      exact fresh
    have inUse : page * PAGE_SIZE ∈ page * PAGE_SIZE :: data := List.mem_cons_self ..
    have small := (taken.sound.paged.filled _ inUse).2.1
    have takenView (dir other : Nat) : (machine.take page).view dir other = machine.view dir other :=
      rfl
    generalize isPhys : page * PAGE_SIZE = phys at *
    obtain ⟨opened, maps, isOpen⟩ := taken.openTemp inUse
    have reached := isOpen.reached (by decide : 0 < 4096)
    rw [temp_address, Nat.add_zero, Nat.add_zero] at reached
    have zeroed := isOpen.write (opened.memory.fill phys PAGE_SIZE 0) (by
      intro place apart
      refine Memory.fill_other _ ?_
      simp only [PAGE_SIZE]
      omega)
    obtain ⟨copied, copies, isOpenCopied, words⟩ := zeroed.copyKernelEntries
      (by decide : KERNEL_PDE_START + (RECURSIVE_PDE_INDEX - KERNEL_PDE_START) ≤ 1024)
    obtain ⟨written, writes, isOpenWritten, memory⟩ := isOpenCopied.writeWord
      (by decide : RECURSIVE_PDE_INDEX < 1024) (phys ||| PAGE_PRESENT ||| PAGE_RW)
    obtain ⟨after, unmaps, closed⟩ := isOpenWritten.close
    rw [temp_address] at unmaps
    have fits : phys ||| PAGE_PRESENT ||| PAGE_RW < 2 ^ 32 := by
      rw [Nat.or_assoc]
      exact Nat.or_lt_two_pow small (by decide)
    have current := taken.sound.current
    have afterCr3 : after.cr3 = machine.cr3 := closed.cr3
    have dirWords : ∀ index < 1024, dirEntry after.memory phys index
        = if index = 1023 then phys ||| PAGE_PRESENT ||| PAGE_RW
          else if KERNEL_PDE_START ≤ index then dirEntry machine.memory machine.cr3 index
          else 0 := by
      intro index inside
      have same : dirEntry after.memory phys index = written.memory.word (phys + 4 * index) := by
        refine Memory.word_congr (fun place _ _ => closed.inside place ?_)
        omega
      rw [same, memory]
      by_cases last : index = 1023
      · rw [if_pos last, last]
        exact Memory.word_setWord_self _ _ fits
      · rw [if_neg last, word_setWord_aligned (by omega) (by omega)
          (by simp only [RECURSIVE_PDE_INDEX]; omega), words index inside]
        by_cases kernel : KERNEL_PDE_START ≤ index
        · rw [if_pos ⟨kernel, by simp only [KERNEL_PDE_START, RECURSIVE_PDE_INDEX]; omega⟩,
            if_pos kernel]
          rfl
        · rw [if_neg (fun is => kernel is.1), if_neg kernel]
          exact word_fill_zero (by omega) (by simp only [PAGE_SIZE]; omega)
    have new : NewDir after.memory after.cr3 phys := by
      refine ⟨?_, ?_, ?_, ?_⟩
      · intro index user
        have notKernel : ¬KERNEL_PDE_START ≤ index := Nat.not_le.mpr user
        simp only [KERNEL_PDE_START] at user
        rw [dirWords index (by omega), if_neg (by omega), if_neg notKernel]
      · intro index kernel inside
        rw [dirWords index (by omega), if_neg (by omega), if_pos kernel, afterCr3]
        exact (closed.directory _ current index (by omega)).symm
      · rw [dirWords 1023 (by decide), if_pos rfl, Nat.or_assoc, present_or aligned (by decide)]
        decide
      · rw [dirWords 1023 (by decide), if_pos rfl, Nat.or_assoc]
        exact (frame_or aligned (by decide)).1
    have alone : after.Unmapped dirs phys := by
      rintro dir member other user entry seen rfl
      rw [closed.view dir member other (user_inside user), takenView] at seen
      exact isFresh (spaces.backed dir member other user entry seen)
    refine ⟨phys, after, ?_, Or.inr ⟨isSome, ?_⟩⟩
    · have zeroes : opened.zeroPage PAGE_DIR_TEMP_MAP
          = some { opened with memory := opened.memory.fill phys PAGE_SIZE 0 } := by
        rw [Machine.zeroPage, reached, Option.map_some]
      simp only [Vmm.vmmCreatePageDir, allocated, if_neg isSome, Option.bind_eq_bind, maps,
        Option.bind_some, zeroes, copies, writes, unmaps]
    · refine ⟨closed.spaces.addDir isFresh isSome new alone, afterCr3, ?_, ?_, ?_⟩
      · intro dir member other inside
        rw [closed.view dir member other inside, takenView]
      · intro dir member index inside
        rw [closed.directory dir member index inside]
        rfl
      · intro other user
        rw [new.view (user_inside user), if_pos user]

end

end Panuti.Vmm
