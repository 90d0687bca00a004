import Panuti.Memory.Vmm

/-! What mapping a page changes. Directories and tables lie in frames of their own that the
allocator does not hand out, and only the tables of the kernel half are shared; then `vmm_map`
changes the entry of one page, and at most one entry of one directory.
-/

namespace Panuti.Vmm

open ByteMemory PageTable

-- Directories and tables in their frames

def KERNEL_PDE_START : Nat := 768

/-- `dirs` are the address spaces and `data` frames that are neither directories nor tables. -/
structure Paged (memory : Memory) (free : Nat → Bool) (dirs data : List Nat) : Prop where
  zero : free 0 = false
  rooted
    : ∀ dir ∈ dirs, dir % 4096 = 0 ∧ dir ≠ 0 ∧ free (dir / 4096) = false
      ∧ Recursive memory dir
  tables
    : ∀ dir ∈ dirs, ∀ index < 1023, present (dirEntry memory dir index) = true
      → free (frame (dirEntry memory dir index) / 4096) = false
        ∧ frame (dirEntry memory dir index) ∉ dirs
        ∧ frame (dirEntry memory dir index) ∉ data
  separate
    : ∀ dir ∈ dirs, ∀ other ∈ dirs, ∀ index < 1023, ∀ otherIndex < 1023,
        present (dirEntry memory dir index) = true
      → present (dirEntry memory other otherIndex) = true
      → frame (dirEntry memory dir index) = frame (dirEntry memory other otherIndex)
      → index = otherIndex ∧ (dir = other ∨ KERNEL_PDE_START ≤ index)
  filled
    : ∀ place ∈ data, place % 4096 = 0 ∧ place < 2 ^ 32 ∧ free (place / 4096) = false
      ∧ place ∉ dirs

/-- From `memory` to `after`, the entries of directories change where `dirsChange` says, and the
entries of pages where `pagesChange` says.
-/
structure Changes (dirs : List Nat) (dirsChange pagesChange : Nat → Nat → Prop)
    (memory after : Memory) : Prop where
  directory
    : ∀ dir ∈ dirs, ∀ index < 1024, ¬dirsChange dir index
      → dirEntry after dir index = dirEntry memory dir index
  page
    : ∀ dir ∈ dirs, ∀ page, page / 1024 < 1023 → ¬pagesChange dir page
      → pageEntry after dir page = pageEntry memory dir page

section Changes

variable {dirs data : List Nat} {memory middle after : Memory} {free : Nat → Bool}
  {dirsChange pagesChange : Nat → Nat → Prop}

theorem Changes.refl (memory : Memory) : Changes dirs dirsChange pagesChange memory memory :=
  ⟨fun _ _ _ _ _ => rfl, fun _ _ _ _ _ => rfl⟩

theorem Changes.trans (first : Changes dirs dirsChange pagesChange memory middle)
    (second : Changes dirs dirsChange pagesChange middle after)
    : Changes dirs dirsChange pagesChange memory after where
  directory dir member index inside not :=
    (second.directory dir member index inside not).trans
      (first.directory dir member index inside not)
  page dir member page inside not :=
    (second.page dir member page inside not).trans (first.page dir member page inside not)

theorem Changes.mono {dirsChange' pagesChange' : Nat → Nat → Prop}
    (changes : Changes dirs dirsChange pagesChange memory after)
    (dirsMore : ∀ dir ∈ dirs, ∀ index < 1024, dirsChange dir index → dirsChange' dir index)
    (pagesMore : ∀ dir ∈ dirs, ∀ page, pagesChange dir page → pagesChange' dir page)
    : Changes dirs dirsChange' pagesChange' memory after where
  directory dir member index inside not :=
    changes.directory dir member index inside (fun was => not (dirsMore dir member index inside was))
  page dir member page inside not :=
    changes.page dir member page inside (fun was => not (pagesMore dir member page was))

theorem Paged.congr (paged : Paged memory free dirs data)
    (same : ∀ dir ∈ dirs, ∀ index < 1024, dirEntry after dir index = dirEntry memory dir index)
    : Paged after free dirs data where
  zero := paged.zero
  rooted dir member := by
    obtain ⟨aligned, notZero, taken, recursive⟩ := paged.rooted dir member
    refine ⟨aligned, notZero, taken, ?_⟩
    rw [Recursive, same dir member 1023 (by omega)]
    exact recursive
  tables dir member index inside := by
    rw [same dir member index (by omega)]
    exact paged.tables dir member index inside
  separate dir member other memberToo index inside otherIndex insideToo := by
    rw [same dir member index (by omega), same other memberToo otherIndex (by omega)]
    exact paged.separate dir member other memberToo index inside otherIndex insideToo
  filled := paged.filled

theorem Paged.dir_apart (paged : Paged memory free dirs data) {dir index place offset : Nat}
    (member : dir ∈ dirs) (inside : index < 1024) (aligned : place % 4096 = 0)
    (apart : place ≠ dir) (within : offset < 1024)
    : dir + 4 * index ≠ place + 4 * offset := by
  have dirAligned := (paged.rooted dir member).1
  omega

theorem Paged.store (paged : Paged memory free dirs data) {dir index offset : Nat}
    (value : Nat) (member : dir ∈ dirs) (inside : index < 1023) (within : offset < 1024)
    (isPresent : present (dirEntry memory dir index) = true)
    : Paged (memory.setWord (frame (dirEntry memory dir index) + 4 * offset) value) free dirs data
      ∧ Changes dirs (fun _ _ => False)
        (fun other page => page = index * 1024 + offset ∧ (other = dir ∨ KERNEL_PDE_START ≤ index))
        memory (memory.setWord (frame (dirEntry memory dir index) + 4 * offset) value)
      ∧ (value < 2 ^ 32
        → pageEntry (memory.setWord (frame (dirEntry memory dir index) + 4 * offset) value) dir
          (index * 1024 + offset) = value) := by
  obtain ⟨_, notDir, _⟩ := paged.tables dir member index inside isPresent
  have tableAligned := frame_aligned (dirEntry memory dir index)
  have same : ∀ other ∈ dirs, ∀ otherIndex < 1024,
      dirEntry (memory.setWord (frame (dirEntry memory dir index) + 4 * offset) value) other
        otherIndex = dirEntry memory other otherIndex := by
    intro other memberToo otherIndex insideToo
    have otherAligned := (paged.rooted other memberToo).1
    have apart : frame (dirEntry memory dir index) ≠ other := by
      rintro same
      rw [same] at notDir
      exact notDir memberToo
    exact word_setWord_aligned (by omega) (by omega)
      (paged.dir_apart memberToo insideToo tableAligned apart within)
  refine ⟨paged.congr same, ⟨fun other memberToo otherIndex insideToo _ =>
    same other memberToo otherIndex insideToo, ?_⟩, ?_⟩
  · intro other memberToo page insideToo notChanged
    rw [pageEntry, same other memberToo (page / 1024) (by omega), pageEntry]
    by_cases isPresentToo : present (dirEntry memory other (page / 1024)) = true
    · simp only [isPresentToo, if_pos]
      have otherAligned := frame_aligned (dirEntry memory other (page / 1024))
      apply word_setWord_aligned (by omega) (by omega)
      intro sameWord
      have sameFrame : frame (dirEntry memory dir index)
          = frame (dirEntry memory other (page / 1024)) := by omega
      obtain ⟨sameIndex, orKernel⟩ := paged.separate dir member other memberToo index inside
        (page / 1024) insideToo isPresent isPresentToo sameFrame
      apply notChanged
      refine ⟨by omega, ?_⟩
      rcases orKernel with isDir | kernel
      · exact Or.inl isDir.symm
      · exact Or.inr kernel
    · simp only [isPresentToo, if_neg, Bool.false_eq_true, not_false_eq_true]
  · intro small
    have high : (index * 1024 + offset) / 1024 = index := by omega
    have low : (index * 1024 + offset) % 1024 = offset := by omega
    rw [pageEntry, high, low, same dir member index (by omega)]
    simp only [isPresent, if_pos]
    exact memory.word_setWord_self _ small

end Changes

-- A new table

section NewTable

variable {dirs data : List Nat} {memory : Memory} {free : Nat → Bool} {dir index page : Nat}

theorem Paged.fresh (paged : Paged memory free dirs data) (isFree : free page = true)
    : page * 4096 ∉ dirs ∧ page * 4096 ∉ data
      ∧ ∀ dir ∈ dirs, ∀ index < 1023, present (dirEntry memory dir index) = true
        → frame (dirEntry memory dir index) ≠ page * 4096 := by
  have whole : page * 4096 / 4096 = page := by omega
  refine ⟨?_, ?_, ?_⟩
  · intro member
    have taken := (paged.rooted _ member).2.2.1
    rw [whole, isFree] at taken
    cases taken
  · intro member
    have taken := (paged.filled _ member).2.2.1
    rw [whole, isFree] at taken
    cases taken
  · intro dir member index inside isPresent same
    have taken := (paged.tables dir member index inside isPresent).1
    rw [same, whole, isFree] at taken
    cases taken

theorem Paged.take (paged : Paged memory free dirs data)
    : Paged memory (Function.update free page false) dirs data := by
  have still {other : Nat} (taken : free other = false)
      : Function.update free page false other = false := by
    by_cases same : other = page
    · rw [same, Function.update_self]
    · rw [Function.update_of_ne same, taken]
  refine ⟨still paged.zero, ?_, ?_, paged.separate, ?_⟩
  · intro dir member
    obtain ⟨aligned, notZero, taken, recursive⟩ := paged.rooted dir member
    exact ⟨aligned, notZero, still taken, recursive⟩
  · intro dir member index inside isPresent
    obtain ⟨taken, rest⟩ := paged.tables dir member index inside isPresent
    exact ⟨still taken, rest⟩
  · intro place member
    obtain ⟨aligned, small, taken, notDir⟩ := paged.filled place member
    exact ⟨aligned, small, still taken, notDir⟩

theorem Paged.addData (paged : Paged memory free dirs data) (isFree : free page = true)
    (below : page < 2 ^ 20)
    : Paged memory (Function.update free page false) dirs (page * 4096 :: data) := by
  obtain ⟨notDir, _, notTable⟩ := paged.fresh isFree
  have taken := @Paged.take _ _ _ _ page paged
  refine ⟨taken.zero, taken.rooted, ?_, taken.separate, ?_⟩
  · intro dir member index inside isPresent
    obtain ⟨isTaken, notDirToo, notData⟩ := taken.tables dir member index inside isPresent
    refine ⟨isTaken, notDirToo, ?_⟩
    intro inData
    rcases List.mem_cons.mp inData with isPage | inOld
    · exact notTable dir member index inside isPresent isPage
    · exact notData inOld
  · intro place member
    rcases List.mem_cons.mp member with rfl | inOld
    · have whole : page * 4096 / 4096 = page := by omega
      refine ⟨by omega, by omega, ?_, notDir⟩
      rw [whole, Function.update_self]
    · exact taken.filled place inOld

theorem Paged.dirEntry_set (paged : Paged memory free dirs data) (member : dir ∈ dirs)
    (inside : index < 1024) {value : Nat} (small : value < 2 ^ 32) {other otherIndex : Nat}
    (memberToo : other ∈ dirs) (insideToo : otherIndex < 1024)
    : dirEntry (memory.setWord (dir + 4 * index) value) other otherIndex
      = if other = dir ∧ otherIndex = index then value else dirEntry memory other otherIndex := by
  have aligned := (paged.rooted dir member).1
  have alignedToo := (paged.rooted other memberToo).1
  split
  · rename_i both
    rw [both.1, both.2]
    exact memory.word_setWord_self _ small
  · rename_i apart
    exact word_setWord_aligned (by omega) (by omega) (by omega)

def withTable (memory : Memory) (dir index table flags : Nat) : Memory :=
  (memory.setWord (dir + 4 * index) (table ||| flags)).fill table 4096 0

/-- A free frame becomes the table of an entry that had none. -/
theorem Paged.addTable {flags : Nat} (paged : Paged memory free dirs data) (member : dir ∈ dirs)
    (inside : index < 1023) (absent : present (dirEntry memory dir index) = false)
    (isFree : free page = true) (below : page < 2 ^ 20) (small : flags < 4096)
    (isPresent : present flags = true)
    : Paged (withTable memory dir index (page * 4096) flags) (Function.update free page false)
        dirs data
      ∧ Changes dirs (fun other otherIndex => other = dir ∧ otherIndex = index) (fun _ _ => False)
        memory (withTable memory dir index (page * 4096) flags)
      ∧ dirEntry (withTable memory dir index (page * 4096) flags) dir index
        = page * 4096 ||| flags := by
  obtain ⟨notDir, notData, notTable⟩ := paged.fresh isFree
  obtain ⟨isFrame, _⟩ := frame_or (by omega : page * 4096 % 4096 = 0) small
  have isPresentToo := present_or (by omega : page * 4096 % 4096 = 0) small
  rw [isPresent] at isPresentToo
  have fits : page * 4096 ||| flags < 2 ^ 32 := Nat.or_lt_two_pow (by omega) (by omega)
  have entries {other otherIndex : Nat} (memberToo : other ∈ dirs) (insideToo : otherIndex < 1024)
      : dirEntry (withTable memory dir index (page * 4096) flags) other otherIndex
        = if other = dir ∧ otherIndex = index then page * 4096 ||| flags
          else dirEntry memory other otherIndex := by
    rw [← paged.dirEntry_set member (by omega) fits memberToo insideToo]
    have aligned := (paged.rooted other memberToo).1
    have apart : page * 4096 ≠ other := by
      rintro rfl
      exact notDir memberToo
    exact word_fill_other (by omega)
  have others {other otherIndex : Nat} (memberToo : other ∈ dirs) (insideToo : otherIndex < 1023)
      (there
        : present (dirEntry (withTable memory dir index (page * 4096) flags) other otherIndex)
          = true)
      : (other = dir ∧ otherIndex = index
          ∧ frame (dirEntry (withTable memory dir index (page * 4096) flags) other otherIndex)
            = page * 4096)
        ∨ ¬(other = dir ∧ otherIndex = index)
          ∧ dirEntry (withTable memory dir index (page * 4096) flags) other otherIndex
            = dirEntry memory other otherIndex
          ∧ present (dirEntry memory other otherIndex) = true := by
    rw [entries memberToo (by omega)] at there ⊢
    split
    · rename_i both
      exact Or.inl ⟨both.1, both.2, isFrame⟩
    · rename_i apart
      rw [if_neg apart] at there
      exact Or.inr ⟨apart, rfl, there⟩
  have taken := @Paged.take _ _ _ _ page paged
  have whole : page * 4096 / 4096 = page := by omega
  refine ⟨⟨taken.zero, ?_, ?_, ?_, taken.filled⟩, ⟨?_, ?_⟩, ?_⟩
  · intro other memberToo
    obtain ⟨aligned, notZero, isTaken, recursive⟩ := taken.rooted other memberToo
    refine ⟨aligned, notZero, isTaken, ?_⟩
    rw [Recursive, entries memberToo (by omega), if_neg (by omega)]
    exact recursive
  · intro other memberToo otherIndex insideToo there
    rcases others memberToo insideToo there with ⟨_, _, isNew⟩ | ⟨_, same, was⟩
    · rw [isNew, whole, Function.update_self]
      exact ⟨rfl, notDir, notData⟩
    · rw [same]
      exact taken.tables other memberToo otherIndex insideToo was
  · intro first memberFirst second memberSecond firstIndex insideFirst secondIndex insideSecond
      thereFirst thereSecond sameFrame
    rcases others memberFirst insideFirst thereFirst with
      ⟨isDir, isIndex, isNew⟩ | ⟨_, sameFirst, wasFirst⟩
    · rcases others memberSecond insideSecond thereSecond with
        ⟨isDirToo, isIndexToo, _⟩ | ⟨_, sameSecond, wasSecond⟩
      · exact ⟨isIndex.trans isIndexToo.symm, Or.inl (isDir.trans isDirToo.symm)⟩
      · rw [isNew, sameSecond] at sameFrame
        exact absurd sameFrame.symm
          (notTable second memberSecond secondIndex insideSecond wasSecond)
    · rcases others memberSecond insideSecond thereSecond with
        ⟨_, _, isNew⟩ | ⟨_, sameSecond, wasSecond⟩
      · rw [isNew, sameFirst] at sameFrame
        exact absurd sameFrame (notTable first memberFirst firstIndex insideFirst wasFirst)
      · rw [sameFirst, sameSecond] at sameFrame
        exact paged.separate first memberFirst second memberSecond firstIndex insideFirst
          secondIndex insideSecond wasFirst wasSecond sameFrame
  · intro other memberToo otherIndex insideToo notChanged
    rw [entries memberToo insideToo, if_neg notChanged]
  · intro other memberToo pageToo insideToo _
    rw [pageEntry, entries memberToo (by omega), pageEntry]
    split
    · rename_i both
      rw [both.1, both.2, absent, isFrame]
      simp only [Bool.false_eq_true, if_neg, not_false_eq_true]
      exact word_fill_zero (by omega) (by omega)
    · by_cases was : present (dirEntry memory other (pageToo / 1024)) = true
      · simp only [was, if_pos]
        obtain ⟨_, notDirToo, _⟩ := paged.tables other memberToo _ insideToo was
        have notNew := notTable other memberToo _ insideToo was
        have aligned := frame_aligned (dirEntry memory other (pageToo / 1024))
        have dirAligned := (paged.rooted dir member).1
        have apart : frame (dirEntry memory other (pageToo / 1024)) ≠ dir := by
          intro same
          rw [same] at notDirToo
          exact notDirToo member
        rw [withTable, word_fill_other (by omega)]
        exact word_setWord_aligned (by omega) (by omega) (by omega)
      · simp only [was, if_neg, Bool.false_eq_true, not_false_eq_true]
  · rw [entries member (by omega), if_pos ⟨rfl, rfl⟩]

theorem Paged.entered {flags : Nat} (paged : Paged memory free dirs data) (member : dir ∈ dirs)
    (inside : index < 1023) (below : page < 2 ^ 20) (small : flags < 4096)
    (isPresent : present flags = true)
    : translate (memory.setWord (dir + 4 * index) (page * 4096 ||| flags)) dir (window index)
      = some (page * 4096) := by
  have aligned : page * 4096 % 4096 = 0 := by omega
  have fits : page * 4096 ||| flags < 2 ^ 32 := Nat.or_lt_two_pow (by omega) (by omega)
  have recursive : Recursive (memory.setWord (dir + 4 * index) (page * 4096 ||| flags)) dir := by
    rw [Recursive, paged.dirEntry_set member (by omega) fits member (by omega), if_neg (by omega)]
    exact (paged.rooted dir member).2.2.2
  have entry : dirEntry (memory.setWord (dir + 4 * index) (page * 4096 ||| flags)) dir index
      = page * 4096 ||| flags := by
    rw [paged.dirEntry_set member (by omega) fits member (by omega), if_pos ⟨rfl, rfl⟩]
  have there : present (dirEntry (memory.setWord (dir + 4 * index) (page * 4096 ||| flags)) dir
      index) = true := by
    rw [entry, present_or aligned small, isPresent]
  have reached := recursive.table (by omega : index < 1024) (by omega : 0 < 4096) there
  rw [entry, (frame_or aligned small).1] at reached
  simpa only [Nat.add_zero] using reached

/-- Flags are added to an entry of a directory. -/
theorem Paged.permit {value : Nat} (paged : Paged memory free dirs data) (member : dir ∈ dirs)
    (inside : index < 1023) (small : value < 2 ^ 32)
    (sameFrame : frame value = frame (dirEntry memory dir index))
    (samePresent : present value = present (dirEntry memory dir index))
    : Paged (memory.setWord (dir + 4 * index) value) free dirs data
      ∧ Changes dirs (fun other otherIndex => other = dir ∧ otherIndex = index) (fun _ _ => False)
        memory (memory.setWord (dir + 4 * index) value)
      ∧ dirEntry (memory.setWord (dir + 4 * index) value) dir index = value := by
  have alike {other otherIndex : Nat} (memberToo : other ∈ dirs) (insideToo : otherIndex < 1024)
      : present (dirEntry (memory.setWord (dir + 4 * index) value) other otherIndex)
          = present (dirEntry memory other otherIndex)
        ∧ frame (dirEntry (memory.setWord (dir + 4 * index) value) other otherIndex)
          = frame (dirEntry memory other otherIndex) := by
    rw [paged.dirEntry_set member (by omega) small memberToo insideToo]
    split
    · rename_i both
      rw [both.1, both.2]
      exact ⟨samePresent, sameFrame⟩
    · exact ⟨rfl, rfl⟩
  refine ⟨⟨paged.zero, ?_, ?_, ?_, paged.filled⟩, ⟨?_, ?_⟩, ?_⟩
  · intro other memberToo
    obtain ⟨aligned, notZero, taken, recursive⟩ := paged.rooted other memberToo
    refine ⟨aligned, notZero, taken, ?_⟩
    rw [Recursive, (alike memberToo (by omega)).1, (alike memberToo (by omega)).2]
    exact recursive
  · intro other memberToo otherIndex insideToo
    rw [(alike memberToo (by omega)).1, (alike memberToo (by omega)).2]
    exact paged.tables other memberToo otherIndex insideToo
  · intro first memberFirst second memberSecond firstIndex insideFirst secondIndex insideSecond
    rw [(alike memberFirst (by omega)).1, (alike memberFirst (by omega)).2,
      (alike memberSecond (by omega)).1, (alike memberSecond (by omega)).2]
    exact paged.separate first memberFirst second memberSecond firstIndex insideFirst secondIndex
      insideSecond
  · intro other memberToo otherIndex insideToo notChanged
    rw [paged.dirEntry_set member (by omega) small memberToo insideToo, if_neg notChanged]
  · intro other memberToo page insideToo _
    obtain ⟨samePresentToo, sameFrameToo⟩ := alike memberToo (by omega : page / 1024 < 1024)
    rw [pageEntry, samePresentToo, sameFrameToo, pageEntry]
    by_cases was : present (dirEntry memory other (page / 1024)) = true
    · simp only [was, if_pos]
      obtain ⟨_, notDir, _⟩ := paged.tables other memberToo _ insideToo was
      have aligned := frame_aligned (dirEntry memory other (page / 1024))
      have dirAligned := (paged.rooted dir member).1
      have apart : frame (dirEntry memory other (page / 1024)) ≠ dir := by
        intro same
        rw [same] at notDir
        exact notDir member
      exact word_setWord_aligned (by omega) (by omega) (by omega)
    · simp only [was, if_neg, Bool.false_eq_true, not_false_eq_true]
  · rw [paged.dirEntry_set member (by omega) small member (by omega), if_pos ⟨rfl, rfl⟩]

end NewTable

-- vmm_map and vmm_unmap

/-- Between the steps of the kernel: the current directory is one of the address spaces. -/
structure Machine.Sound (machine : Machine) (dirs data : List Nat) : Prop where
  paged : Paged machine.memory machine.free dirs data
  small : machine.frames ≤ 2 ^ 20
  current : machine.cr3 ∈ dirs

theorem pmmAllocp_cases (machine : Machine)
    : pmmAllocp machine = (0, { machine with cursor := 0 })
      ∨ ∃ page < machine.frames, machine.free page = true
        ∧ pmmAllocp machine = (page * PAGE_SIZE, machine.take page) := by
  have found {start page : Nat} (first : machine.firstFree start = some page)
      : page < machine.frames ∧ machine.free page = true := by
    have inside := List.mem_range'_1.mp (List.mem_of_find?_eq_some first)
    exact ⟨by omega, List.find?_some first⟩
  unfold pmmAllocp
  split
  · rename_i page first
    exact Or.inr ⟨page, (found first).1, (found first).2, rfl⟩
  · split
    · rename_i page first
      exact Or.inr ⟨page, (found first).1, (found first).2, rfl⟩
    · exact Or.inl rfl

theorem frame_or_low (entry : Nat) {flags : Nat} (small : flags < 4096)
    : frame (entry ||| flags) = frame entry := by
  have high : (entry ||| flags) / 2 ^ 12 = entry / 2 ^ 12 ||| flags / 2 ^ 12 :=
    Nat.or_div_two_pow ..
  have zero : flags / 2 ^ 12 = 0 := by omega
  rw [zero, Nat.or_zero] at high
  rw [frame, frame]
  omega

theorem present_or_user (entry : Nat) : present (entry ||| PAGE_USER) = present entry := by
  have low : (entry ||| PAGE_USER) % 2 ^ 1 = entry % 2 ^ 1 ||| PAGE_USER % 2 ^ 1 :=
    Nat.or_mod_two_pow ..
  have zero : PAGE_USER % 2 ^ 1 = 0 := by decide
  rw [zero, Nat.or_zero] at low
  rw [present, present]
  simp only [Nat.pow_one] at low
  rw [low]

section Mapping

variable {dirs data : List Nat} {machine after : Machine} {index flags : Nat}

theorem Machine.Sound.directory (sound : machine.Sound dirs data) (inside : index < 1024)
    : translate machine.memory machine.cr3 (currentPageDir + 4 * index)
      = some (machine.cr3 + 4 * index) :=
  (sound.paged.rooted _ sound.current).2.2.2.directory (by omega)

theorem Machine.Sound.table (sound : machine.Sound dirs data) {offset : Nat} (inside : index < 1024)
    (within : offset < 4096)
    (isPresent : present (dirEntry machine.memory machine.cr3 index) = true)
    : translate machine.memory machine.cr3 (pteGetTable index + offset)
      = some (frame (dirEntry machine.memory machine.cr3 index) + offset) :=
  (sound.paged.rooted _ sound.current).2.2.2.table inside within isPresent

/-- What a step of the kernel may change of the entries of the current directory. -/
abbrev Machine.OwnEntry (machine : Machine) (index : Nat) : Nat → Nat → Prop :=
  fun other otherIndex => other = machine.cr3 ∧ otherIndex = index

abbrev Machine.OwnPage (machine : Machine) (page : Nat) : Nat → Nat → Prop :=
  fun other otherPage => otherPage = page
    ∧ (other = machine.cr3 ∨ KERNEL_PDE_START ≤ page / 1024)

theorem tableFlags (flags : Nat)
    : PAGE_PRESENT ||| PAGE_RW ||| (flags &&& PAGE_USER) < 4096
      ∧ present (PAGE_PRESENT ||| PAGE_RW ||| (flags &&& PAGE_USER)) = true := by
  constructor
  · apply Nat.or_lt_two_pow (n := 12) (by decide)
    exact Nat.lt_of_le_of_lt Nat.and_le_right (by decide)
  · have low : (PAGE_PRESENT ||| PAGE_RW ||| (flags &&& PAGE_USER)) % 2 ^ 1
        = (PAGE_PRESENT ||| PAGE_RW) % 2 ^ 1 ||| (flags &&& PAGE_USER) % 2 ^ 1 :=
      Nat.or_mod_two_pow ..
    have even : (flags &&& PAGE_USER) % 2 ^ 1 = flags % 2 ^ 1 &&& PAGE_USER % 2 ^ 1 :=
      Nat.and_mod_two_pow ..
    have zero : PAGE_USER % 2 ^ 1 = 0 := by decide
    rw [even, zero, Nat.and_zero] at low
    have odd : (PAGE_PRESENT ||| PAGE_RW ||| (flags &&& PAGE_USER)) % 2 = 1 := low
    rw [present, odd]
    rfl

theorem Machine.Sound.readsEntry (sound : machine.Sound dirs data) (inside : index < 1024)
    : machine.readWord (currentPageDir + 4 * index)
      = some (dirEntry machine.memory machine.cr3 index) := by
  rw [Machine.readWord, sound.directory inside]
  rfl

/-- Where the directory has no table, a frame that can be had becomes one. -/
theorem Machine.Sound.provideTable_new {page : Nat} (sound : machine.Sound dirs data)
    (inside : index < 1023) (below : page < machine.frames) (isFree : machine.free page = true)
    (absent : present (dirEntry machine.memory machine.cr3 index) = false)
    (allocated : pmmAllocp machine = (page * PAGE_SIZE, machine.take page))
    : Vmm.provideTable machine index flags
      = some (true, { machine.take page with
          memory := withTable machine.memory machine.cr3 index (page * 4096)
            (PAGE_PRESENT ||| PAGE_RW ||| (flags &&& PAGE_USER)) }) := by
  have notZero : page * PAGE_SIZE ≠ 0 := by
    intro isZero
    have zero := sound.paged.zero
    obtain rfl : page = 0 := by
      simp only [PAGE_SIZE] at isZero
      omega
    rw [zero] at isFree
    cases isFree
  have small := sound.small
  obtain ⟨flagsSmall, flagsPresent⟩ := tableFlags flags
  -- the new table is reached through the entry just written
  have reached := sound.paged.entered sound.current inside (by omega : page < 2 ^ 20)
    flagsSmall flagsPresent
  have assoc : page * PAGE_SIZE ||| PAGE_PRESENT ||| PAGE_RW ||| (flags &&& PAGE_USER)
      = page * 4096 ||| (PAGE_PRESENT ||| PAGE_RW ||| (flags &&& PAGE_USER)) := by
    rw [PAGE_SIZE, Nat.or_assoc, Nat.or_assoc, Nat.or_assoc]
  have writes : (machine.take page).writeWord (currentPageDir + 4 * index)
      (page * 4096 ||| (PAGE_PRESENT ||| PAGE_RW ||| (flags &&& PAGE_USER)))
      = some { machine.take page with
          memory := machine.memory.setWord (machine.cr3 + 4 * index)
            (page * 4096 ||| (PAGE_PRESENT ||| PAGE_RW ||| (flags &&& PAGE_USER))) } := by
    have here : translate (machine.take page).memory (machine.take page).cr3
        (currentPageDir + 4 * index) = some (machine.cr3 + 4 * index) :=
      sound.directory (by omega)
    rw [Machine.writeWord, here]
    rfl
  rw [Vmm.provideTable, sound.readsEntry (by omega)]
  simp only [absent, if_pos, allocated, if_neg notZero]
  rw [assoc, writes]
  simp only [Machine.zeroPage, Option.map_map]
  have here : translate
      (machine.memory.setWord (machine.cr3 + 4 * index)
        (page * 4096 ||| (PAGE_PRESENT ||| PAGE_RW ||| (flags &&& PAGE_USER))))
      (machine.take page).cr3 (pteGetTable index) = some (page * 4096) := reached
  rw [here]
  rfl

theorem Machine.Sound.provideTable {provided : Bool} (sound : machine.Sound dirs data)
    (inside : index < 1023) (provides : provideTable machine index flags = some (provided, after))
    : after.Sound dirs data ∧ after.cr3 = machine.cr3 ∧ after.mapped = machine.mapped
      ∧ Changes dirs (machine.OwnEntry index) (fun _ _ => False) machine.memory after.memory
      ∧ present (dirEntry after.memory after.cr3 index) = provided := by
  by_cases absent : present (dirEntry machine.memory machine.cr3 index) = false
  · rcases pmmAllocp_cases machine with failed | ⟨page, below, isFree, allocated⟩
    · rw [Vmm.provideTable, sound.readsEntry (by omega)] at provides
      simp only [absent, if_pos, failed] at provides
      obtain ⟨rfl, rfl⟩ : false = provided ∧ { machine with cursor := 0 } = after := by
        simpa using provides
      exact ⟨⟨sound.paged, sound.small, sound.current⟩, rfl, rfl, Changes.refl _, absent⟩
    · rw [sound.provideTable_new inside below isFree absent allocated] at provides
      obtain ⟨rfl, rfl⟩ := Prod.mk.inj (Option.some.inj provides)
      have small := sound.small
      obtain ⟨flagsSmall, flagsPresent⟩ := tableFlags flags
      obtain ⟨paged, changes, entry⟩ := sound.paged.addTable sound.current inside absent isFree
        (by omega) flagsSmall flagsPresent
      have isThere := present_or (by omega : page * 4096 % 4096 = 0) flagsSmall
      rw [← entry, flagsPresent] at isThere
      exact ⟨⟨paged, sound.small, sound.current⟩, rfl, rfl, changes, isThere⟩
  · rw [Vmm.provideTable, sound.readsEntry (by omega)] at provides
    simp only [if_neg absent] at provides
    have isPresent : present (dirEntry machine.memory machine.cr3 index) = true := by
      simpa using absent
    split at provides
    · have small : dirEntry machine.memory machine.cr3 index ||| PAGE_USER < 2 ^ 32 :=
        Nat.or_lt_two_pow (machine.memory.word_lt _) (by decide)
      obtain ⟨paged, changes, entry⟩ := sound.paged.permit sound.current inside small
        (frame_or_low _ (by decide)) (present_or_user _)
      rw [Machine.writeWord, sound.directory (by omega)] at provides
      obtain ⟨rfl, rfl⟩ : true = provided ∧ { machine with
          memory := machine.memory.setWord (machine.cr3 + 4 * index)
            (dirEntry machine.memory machine.cr3 index ||| PAGE_USER) } = after := by
        simpa using provides
      refine ⟨⟨paged, sound.small, sound.current⟩, rfl, rfl, changes, ?_⟩
      rw [entry, present_or_user, isPresent]
    · obtain ⟨rfl, rfl⟩ : true = provided ∧ machine = after := by
        simpa using provides
      exact ⟨sound, rfl, rfl, Changes.refl _, isPresent⟩

theorem Machine.Sound.map {virt phys : Nat} (sound : machine.Sound dirs data)
    (inside : virt / 2 ^ 22 < 1023) (maps : vmmMap machine virt phys flags = some after)
    : after.Sound dirs data ∧ after.cr3 = machine.cr3
      ∧ after.mapped = machine.mapped ++ [(machine.cr3, virt)]
      ∧ Changes dirs (machine.OwnEntry (virt / 2 ^ 22)) (machine.OwnPage (virt / 2 ^ 12))
        machine.memory after.memory
      ∧ (present (dirEntry after.memory after.cr3 (virt / 2 ^ 22)) = true
        → phys ||| flags ||| PAGE_PRESENT < 2 ^ 32
        → pageEntry after.memory after.cr3 (virt / 2 ^ 12) = phys ||| flags ||| PAGE_PRESENT) := by
  have logged : ({ machine with mapped := machine.mapped ++ [(machine.cr3, virt)] }
      : Machine).Sound dirs data := ⟨sound.paged, sound.small, sound.current⟩
  simp only [vmmMap] at maps
  split at maps
  · cases maps
  · rename_i middle provides
    obtain rfl := Option.some.inj maps
    obtain ⟨soundAfter, sameCr3, sameMapped, changes, absent⟩ := logged.provideTable inside provides
    refine ⟨soundAfter, sameCr3, sameMapped, changes.mono (fun _ _ _ _ was => was)
      (fun _ _ _ was => was.elim), ?_⟩
    intro isPresent
    rw [absent] at isPresent
    cases isPresent
  · rename_i middle provides
    obtain ⟨soundMiddle, sameCr3, sameMapped, changes, isPresent⟩ :=
      logged.provideTable inside provides
    have stores := soundMiddle.paged.store (phys ||| flags ||| PAGE_PRESENT)
      soundMiddle.current inside (by omega : virt / 2 ^ 12 % 1024 < 1024) isPresent
    have whole : virt / 2 ^ 22 * 1024 + virt / 2 ^ 12 % 1024 = virt / 2 ^ 12 := by omega
    rw [whole] at stores
    obtain ⟨paged, changesToo, entry⟩ := stores
    rw [Machine.writeWord, soundMiddle.table (by omega) (by omega) isPresent] at maps
    obtain rfl : { middle with
        memory := middle.memory.setWord
          (frame (dirEntry middle.memory middle.cr3 (virt / 2 ^ 22))
            + 4 * (virt / 2 ^ 12 % 1024))
          (phys ||| flags ||| PAGE_PRESENT) } = after := by
      simpa using maps
    refine ⟨⟨paged, soundMiddle.small, soundMiddle.current⟩, sameCr3, sameMapped, ?_, ?_⟩
    · refine (changes.mono (fun _ _ _ _ was => was) (fun _ _ _ was => was.elim)).trans
        (changesToo.mono (fun _ _ _ _ was => was.elim) ?_)
      intro other _ page was
      refine ⟨was.1, ?_⟩
      rw [sameCr3] at was
      rcases was.2 with isCurrent | kernel
      · exact Or.inl isCurrent
      · right
        omega
    · intro _ small
      exact entry small

/-- `vmm_unmap` changes the entry of the page. -/
theorem Machine.Sound.unmap {virt : Nat} (sound : machine.Sound dirs data)
    (inside : virt / 2 ^ 22 < 1023) (unmaps : vmmUnmap machine virt = some after)
    : after.Sound dirs data ∧ after.cr3 = machine.cr3 ∧ after.mapped = machine.mapped
      ∧ Changes dirs (fun _ _ => False) (machine.OwnPage (virt / 2 ^ 12)) machine.memory
        after.memory := by
  rw [vmmUnmap, sound.readsEntry (by omega)] at unmaps
  simp only [] at unmaps
  split at unmaps
  · obtain rfl := Option.some.inj unmaps
    exact ⟨sound, rfl, rfl, Changes.refl _⟩
  · rename_i isPresent
    have isPresent : present (dirEntry machine.memory machine.cr3 (virt / 2 ^ 22)) = true := by
      simpa using isPresent
    have stores := sound.paged.store 0 sound.current inside
      (by omega : virt / 2 ^ 12 % 1024 < 1024) isPresent
    have whole : virt / 2 ^ 22 * 1024 + virt / 2 ^ 12 % 1024 = virt / 2 ^ 12 := by omega
    rw [whole] at stores
    obtain ⟨paged, changes, _⟩ := stores
    rw [Machine.writeWord, sound.table (by omega) (by omega) isPresent] at unmaps
    obtain rfl : { machine with
        memory := machine.memory.setWord
          (frame (dirEntry machine.memory machine.cr3 (virt / 2 ^ 22))
            + 4 * (virt / 2 ^ 12 % 1024)) 0 } = after := by
      simpa using unmaps
    refine ⟨⟨paged, sound.small, sound.current⟩, rfl, rfl, changes.mono (fun _ _ _ _ was => was) ?_⟩
    intro other _ page was
    refine ⟨was.1, ?_⟩
    rcases was.2 with isCurrent | kernel
    · exact Or.inl isCurrent
    · right
      omega

end Mapping

end Panuti.Vmm
