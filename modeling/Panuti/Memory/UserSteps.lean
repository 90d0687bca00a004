import Panuti.Memory.UserPages

/-! The single steps of the calls for user memory: frames are taken and given back, and a user page
is mapped and unmapped. Each keeps what holds of the address spaces.
-/

namespace Panuti.Vmm

open ByteMemory PageTable

-- Frames that come into use and that are given back

theorem Paged.release {memory : Memory} {free : Nat → Bool} {dirs data : List Nat} {place : Nat}
    (paged : Paged memory free dirs data) (member : place ∈ data) (notZero : place ≠ 0)
    : Paged memory (Function.update free (place / 4096) true) dirs
        (data.filter (fun other => other ≠ place)) := by
  obtain ⟨placeAligned, _, _, notDir⟩ := paged.filled place member
  have still {other : Nat} (aligned : other % 4096 = 0) (apart : other ≠ place)
      (taken : free (other / 4096) = false)
      : Function.update free (place / 4096) true (other / 4096) = false := by
    rw [Function.update_of_ne (by omega), taken]
  refine ⟨?_, ?_, ?_, paged.separate, ?_⟩
  · rw [Function.update_of_ne (by omega), paged.zero]
  · intro dir memberToo
    obtain ⟨aligned, dirNotZero, taken, recursive⟩ := paged.rooted dir memberToo
    refine ⟨aligned, dirNotZero, still aligned ?_ taken, recursive⟩
    rintro rfl
    exact notDir memberToo
  · intro dir memberToo index inside isPresent
    obtain ⟨taken, tableNotDir, notData⟩ := paged.tables dir memberToo index inside isPresent
    refine ⟨still (frame_aligned _) ?_ taken, tableNotDir, ?_⟩
    · intro same
      rw [same] at notData
      exact notData member
    · intro inData
      exact notData (List.mem_of_mem_filter inData)
  · intro other memberToo
    obtain ⟨inData, apart⟩ := List.mem_filter.mp memberToo
    obtain ⟨aligned, small, taken, otherNotDir⟩ := paged.filled other inData
    exact ⟨aligned, small, still aligned (by simpa using apart) taken, otherNotDir⟩

section

variable {dirs data : List Nat} {machine after : Machine}

theorem Spaces.ofMem {other : List Nat} (spaces : Spaces machine dirs data)
    (same : ∀ place, place ∈ other ↔ place ∈ data)
    : Spaces machine dirs other where
  sound := by
    obtain ⟨paged, small, current⟩ := spaces.sound
    refine ⟨⟨paged.zero, paged.rooted, ?_, paged.separate, ?_⟩, small, current⟩
    · intro dir member index inside isPresent
      rw [same]
      exact paged.tables dir member index inside isPresent
    · intro place member
      exact paged.filled place ((same place).mp member)
  scratch := spaces.scratch
  clear := spaces.clear
  writable := spaces.writable
  known place member := spaces.known place ((same place).mp member)
  backed dir member page user entry seen :=
    (same _).mpr (spaces.backed dir member page user entry seen)
  single := spaces.single

/-- The tables are not looked at by the allocator. -/
structure SameTables (machine after : Machine) : Prop where
  memory : after.memory = machine.memory
  cr3 : after.cr3 = machine.cr3
  frames : after.frames = machine.frames

theorem SameTables.view (same : SameTables machine after) (dir page : Nat)
    : after.view dir page = machine.view dir page := by
  rw [Machine.view, same.memory, Machine.view]

theorem SameTables.trans {middle : Machine} (first : SameTables machine middle)
    (second : SameTables middle after)
    : SameTables machine after :=
  ⟨second.memory.trans first.memory, second.cr3.trans first.cr3,
    second.frames.trans first.frames⟩

/-- The address spaces after a step of the allocator. -/
theorem Spaces.sameTables {other : List Nat} (spaces : Spaces machine dirs data)
    (same : SameTables machine after)
    (paged : Paged machine.memory after.free dirs other)
    (known : ∀ place ∈ other, place / 4096 < machine.frames ∧ place ≠ 0)
    (backed
      : ∀ dir ∈ dirs, ∀ page < USER_LAST, ∀ entry, machine.view dir page = some entry
        → frame entry ∈ other)
    : Spaces after dirs other where
  sound := by
    refine ⟨?_, ?_, ?_⟩
    · rw [same.memory]
      exact paged
    · rw [same.frames]
      exact spaces.sound.small
    · rw [same.cr3]
      exact spaces.sound.current
  scratch := by
    rw [same.memory]
    exact spaces.scratch
  clear dir member slot isSlot := by
    rw [same.view]
    exact spaces.clear dir member slot isSlot
  writable := by
    rw [same.memory]
    exact spaces.writable
  known := by
    rw [same.frames]
    exact known
  backed dir member page user entry seen := by
    rw [same.view] at seen
    exact backed dir member page user entry seen
  single dir member other memberToo page user otherPage userToo entry otherEntry seen seenToo := by
    rw [same.view] at seen seenToo
    exact spaces.single dir member other memberToo page user otherPage userToo entry otherEntry
      seen seenToo

theorem Spaces.allocp (spaces : Spaces machine dirs data)
    : ((∀ page < machine.frames, machine.free page = false)
        ∧ pmmAllocp machine = (0, { machine with cursor := 0 })
        ∧ Spaces { machine with cursor := 0 } dirs data)
      ∨ ∃ page < machine.frames, machine.free page = true ∧ page ≠ 0
        ∧ pmmAllocp machine = (page * PAGE_SIZE, machine.take page)
        ∧ Spaces (machine.take page) dirs (page * PAGE_SIZE :: data) := by
  rcases pmmAllocp_spec spaces.sound.paged.zero with
    ⟨none, failed⟩ | ⟨page, below, isFree, notZero, allocated⟩
  · exact Or.inl ⟨none, failed, spaces.sameTables ⟨rfl, rfl, rfl⟩ spaces.sound.paged spaces.known
      spaces.backed⟩
  · have small := spaces.sound.small
    refine Or.inr ⟨page, below, isFree, notZero, allocated, ?_⟩
    refine spaces.sameTables ⟨rfl, rfl, rfl⟩
      (spaces.sound.paged.addData isFree (by omega)) ?_ ?_
    · intro place member
      simp only [PAGE_SIZE] at member
      rcases List.mem_cons.mp member with rfl | inData
      · omega
      · exact spaces.known place inData
    · intro dir member userPage user entry seen
      exact List.mem_cons_of_mem _ (spaces.backed dir member userPage user entry seen)

theorem Spaces.freep (spaces : Spaces machine dirs data) {place : Nat} (held : place ∈ data)
    (unmapped : machine.Unmapped dirs place)
    : Spaces (pmmFreep machine place) dirs (data.filter (fun other => other ≠ place))
      ∧ SameTables machine (pmmFreep machine place)
      ∧ (pmmFreep machine place).free = Function.update machine.free (place / 4096) true := by
  obtain ⟨below, notZero⟩ := spaces.known place held
  have freed : pmmFreep machine place
      = { machine with
          cursor := if place / PAGE_SIZE < machine.cursor then place / PAGE_SIZE
            else machine.cursor
          free := Function.update machine.free (place / PAGE_SIZE) true } := by
    have inside : ¬machine.frames ≤ place / PAGE_SIZE := by
      simp only [PAGE_SIZE]
      omega
    rw [pmmFreep, if_neg notZero]
    simp only [if_neg inside]
  rw [freed]
  refine ⟨?_, ⟨rfl, rfl, rfl⟩, rfl⟩
  refine spaces.sameTables ⟨rfl, rfl, rfl⟩ (spaces.sound.paged.release held notZero) ?_ ?_
  · intro other member
    exact spaces.known other (List.mem_of_mem_filter member)
  · intro dir member page user entry seen
    refine List.mem_filter.mpr ⟨spaces.backed dir member page user entry seen, ?_⟩
    simpa using unmapped dir member page user entry seen

/-- What collecting frames leaves: each was free, and they differ. -/
structure Takes (machine after : Machine) (got : List Nat) : Prop where
  tables : SameTables machine after
  nodup : got.Nodup
  fresh
    : ∀ place ∈ got, place % 4096 = 0 ∧ place / 4096 < machine.frames
      ∧ machine.free (place / 4096) = true
  free
    : ∀ page, after.free page = true ↔ machine.free page = true ∧ page * PAGE_SIZE ∉ got

/-- The loop that collects frames gets as many as there are. -/
theorem Spaces.takeFrames (spaces : Spaces machine dirs data) (left : Nat)
    : Takes machine (Vmm.takeFrames machine left).2 (Vmm.takeFrames machine left).1
      ∧ Spaces (Vmm.takeFrames machine left).2 dirs ((Vmm.takeFrames machine left).1 ++ data)
      ∧ (Vmm.takeFrames machine left).1.length = min left machine.freeFrames := by
  induction left generalizing machine data with
  | zero =>
      refine ⟨⟨⟨rfl, rfl, rfl⟩, List.nodup_nil, by simp [Vmm.takeFrames], ?_⟩, spaces, ?_⟩
      · simp [Vmm.takeFrames]
      · simp [Vmm.takeFrames]
  | succ left ih =>
      rcases spaces.allocp with
        ⟨none, failed, spaces'⟩ | ⟨page, below, isFree, notZero, allocated, spaces'⟩
      · have empty : machine.freeFrames = 0 := by
          rw [Machine.freeFrames, List.countP_eq_zero]
          intro page member
          simp [none page (List.mem_range.mp member)]
        have ran : Vmm.takeFrames machine (left + 1) = ([], { machine with cursor := 0 }) := by
          simp only [Vmm.takeFrames, failed, if_pos]
        rw [ran]
        refine ⟨⟨⟨rfl, rfl, rfl⟩, List.nodup_nil, by simp, by simp⟩, spaces', ?_⟩
        simp [empty]
      · have isSome : page * PAGE_SIZE ≠ 0 := by
          simp only [PAGE_SIZE]
          omega
        have ran : Vmm.takeFrames machine (left + 1)
            = (page * PAGE_SIZE :: (Vmm.takeFrames (machine.take page) left).1,
              (Vmm.takeFrames (machine.take page) left).2) := by
          simp only [Vmm.takeFrames, allocated, if_neg isSome]
        have fewer : (machine.take page).freeFrames + 1 = machine.freeFrames :=
          countP_update below isFree
        obtain ⟨takes, spaces'', length⟩ := ih spaces'
        rw [ran]
        have whole : page * PAGE_SIZE / 4096 = page := by
          simp only [PAGE_SIZE]
          omega
        refine ⟨⟨⟨takes.tables.memory, takes.tables.cr3, takes.tables.frames⟩, ?_, ?_, ?_⟩,
          ?_, ?_⟩
        · refine List.nodup_cons.mpr ⟨?_, takes.nodup⟩
          intro member
          have again := (takes.fresh _ member).2.2
          rw [whole] at again
          simp [Machine.take] at again
        · intro place member
          rcases List.mem_cons.mp member with rfl | member
          · rw [whole]
            exact ⟨by simp only [PAGE_SIZE]; omega, below, isFree⟩
          · obtain ⟨aligned, within, was⟩ := takes.fresh place member
            refine ⟨aligned, within, ?_⟩
            by_cases same : place / 4096 = page
            · rw [same]
              exact isFree
            · have kept : (machine.take page).free (place / 4096) = machine.free (place / 4096) :=
                Function.update_of_ne same _ _
              rw [← kept]
              exact was
        · intro other
          rw [takes.free, List.mem_cons, not_or]
          by_cases same : other = page
          · subst same
            simp [Machine.take]
          · have kept : (machine.take page).free other = machine.free other :=
              Function.update_of_ne same _ _
            have apart : other * PAGE_SIZE ≠ page * PAGE_SIZE := by
              simp only [PAGE_SIZE]
              omega
            rw [kept]
            exact and_congr_right (fun _ => (and_iff_right apart).symm)
        · refine spaces''.ofMem ?_
          intro place
          simp only [List.cons_append, List.mem_cons, List.mem_append]
          exact or_left_comm
        · simp only [List.length_cons, length]
          omega

end

section

variable {dirs data : List Nat} {machine middle after : Machine}

/-- Frames that no user page has are given back. -/
theorem Spaces.giveBack (spaces : Spaces machine dirs data) {got : List Nat} (nodup : got.Nodup)
    (held : ∀ place ∈ got, place ∈ data) (unmapped : ∀ place ∈ got, machine.Unmapped dirs place)
    : Spaces (got.foldl pmmFreep machine) dirs (data.filter (fun place => place ∉ got))
      ∧ SameTables machine (got.foldl pmmFreep machine)
      ∧ ∀ page, (got.foldl pmmFreep machine).free page = true
          ↔ machine.free page = true ∨ page * PAGE_SIZE ∈ got := by
  induction got generalizing machine data with
  | nil =>
      refine ⟨spaces.ofMem ?_, ⟨rfl, rfl, rfl⟩, ?_⟩
      · simp
      · simp
  | cons place got ih =>
      obtain ⟨notIn, nodup⟩ := List.nodup_cons.mp nodup
      have here : place ∈ data := held place (List.mem_cons_self ..)
      obtain ⟨spaces', same, free⟩ := spaces.freep here (unmapped place (List.mem_cons_self ..))
      have heldToo : ∀ other ∈ got, other ∈ data.filter (fun other => other ≠ place) := by
        intro other member
        refine List.mem_filter.mpr ⟨held other (List.mem_cons_of_mem _ member), ?_⟩
        have apart : other ≠ place := by
          rintro rfl
          exact notIn member
        simpa using apart
      have unmappedToo : ∀ other ∈ got, (pmmFreep machine place).Unmapped dirs other := by
        intro other member dir memberToo page user entry seen
        rw [same.view] at seen
        exact unmapped other (List.mem_cons_of_mem _ member) dir memberToo page user entry seen
      obtain ⟨rest, sameToo, freeToo⟩ := ih spaces' nodup heldToo unmappedToo
      rw [List.foldl_cons]
      refine ⟨rest.ofMem ?_, same.trans sameToo, ?_⟩
      · intro other
        simp only [List.mem_filter, List.mem_cons, not_or, decide_eq_true_eq]
        exact and_assoc.symm
      · intro page
        have aligned := (spaces.sound.paged.filled place here).1
        rw [freeToo, free, List.mem_cons]
        by_cases isPlace : page = place / 4096
        · subst isPlace
          have whole : place / 4096 * PAGE_SIZE = place := by
            simp only [PAGE_SIZE]
            omega
          simp [whole]
        · have apart : page * PAGE_SIZE ≠ place := by
            simp only [PAGE_SIZE]
            omega
          rw [Function.update_of_ne isPlace]
          simp [apart]

end

-- Mapping and unmapping one user page

/-- A step on some pages of the current directory leaves all other pages and the data. -/
structure PageStep (dirs data : List Nat) (machine after : Machine) (pages : Nat → Prop) : Prop where
  spaces : Spaces after dirs data
  cr3 : after.cr3 = machine.cr3
  keeps : Keeps data machine after
  others
    : ∀ dir ∈ dirs, ∀ other, other / 1024 < 1023 → ¬(dir = machine.cr3 ∧ pages other)
      → after.view dir other = machine.view dir other

def runPages (page count other : Nat) : Prop := page ≤ other ∧ other < page + count

section

variable {dirs data : List Nat} {machine middle after : Machine}

/-- `vmm_map` does not fault. -/
theorem Machine.Sound.map_runs (sound : machine.Sound dirs data) {virt : Nat}
    (inside : virt / 2 ^ 22 < 1023) (phys flags : Nat)
    : ∃ after, vmmMap machine virt phys flags = some after := by
  have logged : ({ machine with mapped := machine.mapped ++ [(machine.cr3, virt)] }
      : Machine).Sound dirs data := ⟨sound.paged, sound.small, sound.current⟩
  have provides : ∃ provided middle,
      Vmm.provideTable { machine with mapped := machine.mapped ++ [(machine.cr3, virt)] }
        (virt / 2 ^ 22) flags = some (provided, middle) := by
    by_cases absent : present (dirEntry machine.memory machine.cr3 (virt / 2 ^ 22)) = false
    · rcases pmmAllocp_cases
        { machine with mapped := machine.mapped ++ [(machine.cr3, virt)] } with
        failed | ⟨page, below, isFree, allocated⟩
      · rw [Vmm.provideTable, logged.readsEntry (by omega)]
        simp only [absent, if_pos, failed]
        exact ⟨_, _, rfl⟩
      · rw [logged.provideTable_new inside below isFree absent allocated]
        exact ⟨_, _, rfl⟩
    · rw [Vmm.provideTable, logged.readsEntry (by omega)]
      simp only [if_neg absent, Machine.writeWord, logged.directory (by omega : virt / 2 ^ 22 < 1024)]
      split
      · exact ⟨_, _, rfl⟩
      · exact ⟨_, _, rfl⟩
  obtain ⟨provided, middle, ran⟩ := provides
  rw [vmmMap]
  simp only [ran]
  cases provided with
  | false => exact ⟨_, rfl⟩
  | true =>
      obtain ⟨soundMiddle, _, _, _, isPresent⟩ := logged.provideTable inside ran
      simp only [Machine.writeWord, soundMiddle.table (by omega)
        (by omega : 4 * (virt / 2 ^ 12 % 1024) < 4096) isPresent]
      exact ⟨_, rfl⟩

theorem Machine.Sound.unmap_runs (sound : machine.Sound dirs data) {virt : Nat}
    (inside : virt / 2 ^ 22 < 1023)
    : ∃ after, vmmUnmap machine virt = some after
      ∧ after.view machine.cr3 (virt / 2 ^ 12) = none := by
  have whole : virt / 2 ^ 22 * 1024 + virt / 2 ^ 12 % 1024 = virt / 2 ^ 12 := by omega
  have high : virt / 2 ^ 12 / 1024 = virt / 2 ^ 22 := by omega
  rw [vmmUnmap, sound.readsEntry (by omega)]
  simp only []
  by_cases absent : present (dirEntry machine.memory machine.cr3 (virt / 2 ^ 22)) = false
  · rw [if_pos absent]
    refine ⟨_, rfl, ?_⟩
    rw [Machine.view, pageEntry, high]
    simp only [absent, Bool.false_eq_true, if_false, present_zero]
  · have isPresent : present (dirEntry machine.memory machine.cr3 (virt / 2 ^ 22)) = true := by
      simpa using absent
    obtain ⟨_, _, entry⟩ := sound.paged.store 0 sound.current inside
      (by omega : virt / 2 ^ 12 % 1024 < 1024) isPresent
    rw [whole] at entry
    rw [if_neg absent, Machine.writeWord, sound.table (by omega) (by omega) isPresent]
    refine ⟨_, rfl, ?_⟩
    rw [Machine.view, entry (by decide)]
    rfl

theorem user_page {page : Nat} : page * PAGE_SIZE / 2 ^ 22 = page / 1024
    ∧ page * PAGE_SIZE / 2 ^ 12 = page := by
  simp only [PAGE_SIZE]
  omega

theorem testBit_or_user {entry : Nat} (writable : entry.testBit 1 = true)
    : (entry ||| PAGE_USER).testBit 1 = true := by
  rw [Nat.testBit_or, writable, Bool.true_or]

theorem newTable_writable {page flags : Nat} : (newTable page flags).testBit 1 = true := by
  have bit : PAGE_RW.testBit 1 = true := by decide
  rw [newTable, Nat.testBit_or, Nat.testBit_or, Nat.testBit_or, bit]
  simp

theorem TableStep.writable {index flags : Nat} (step : TableStep machine after index flags)
    (was
      : present (dirEntry machine.memory machine.cr3 index) = true
        → (dirEntry machine.memory machine.cr3 index).testBit 1 = true)
    (isPresent : present (dirEntry after.memory machine.cr3 index) = true)
    : (dirEntry after.memory machine.cr3 index).testBit 1 = true := by
  rcases step with ⟨there, entry, -⟩ | ⟨absent, -, entry, -⟩ | ⟨-, page, -, -, -, entry, -⟩
  · rw [entry]
    split
    · exact testBit_or_user (was there)
    · exact was there
  · rw [entry, absent] at isPresent
    cases isPresent
  · rw [entry]
    exact newTable_writable

end

section

variable {dirs data : List Nat} {machine middle after : Machine} {page : Nat}

/-- After a step on one page: the entries of the directories and what is mapped at the page. -/
theorem Spaces.pageStep (spaces : Spaces machine dirs data) (user : page < USER_LAST)
    (sound : after.Sound dirs data) (cr3 : after.cr3 = machine.cr3)
    (keeps : Keeps data machine after)
    (changes
      : Changes dirs (machine.OwnEntry (page / 1024)) (machine.OwnPage page) machine.memory
        after.memory)
    (writable
      : present (dirEntry after.memory machine.cr3 (page / 1024)) = true
        → (dirEntry after.memory machine.cr3 (page / 1024)).testBit 1 = true)
    (held
      : ∀ entry, after.view machine.cr3 page = some entry
        → frame entry ∈ data ∧ (machine.view machine.cr3 page ≠ some entry →
            machine.Unmapped dirs (frame entry)))
    : PageStep dirs data machine after (fun other => other = page) := by
  have userPage : page < 786432 := user
  have others : ∀ dir ∈ dirs, ∀ other, other / 1024 < 1023 → ¬(dir = machine.cr3 ∧ other = page)
      → after.view dir other = machine.view dir other := by
    intro dir member other inside apart
    refine changes.view member inside ?_
    rintro ⟨samePage, isCurrent | kernel⟩
    · exact apart ⟨isCurrent, samePage⟩
    · simp only [KERNEL_PDE_START] at kernel
      omega
  have kept : ∀ dir ∈ dirs, ∀ index < 1024, ¬(dir = machine.cr3 ∧ index = page / 1024)
      → dirEntry after.memory dir index = dirEntry machine.memory dir index :=
    fun dir member index inside apart => changes.directory dir member index inside apart
  have scratchIndex : PAGE_DIR_TEMP_MAP / 2 ^ 22 = 770 := by decide
  have scratchPages : ∀ slot ∈ SCRATCH_SLOTS, 786432 ≤ scratchPage slot
      ∧ scratchPage slot / 1024 < 1023 := by decide
  refine ⟨⟨sound, ?_, ?_, ?_, ?_, ?_, ?_⟩, cr3, keeps, others⟩
  · intro dir member
    rw [kept dir member _ (by omega) (by omega)]
    exact spaces.scratch dir member
  · intro dir member slot isSlot
    obtain ⟨kernel, inside⟩ := scratchPages slot isSlot
    rw [others dir member _ inside (by omega)]
    exact spaces.clear dir member slot isSlot
  · intro dir member index inside isPresent
    simp only [KERNEL_PDE_START] at inside
    by_cases here : dir = machine.cr3 ∧ index = page / 1024
    · obtain ⟨rfl, rfl⟩ := here
      exact writable isPresent
    · rw [kept dir member index (by omega) here] at isPresent ⊢
      exact spaces.writable dir member index inside isPresent
  · rw [keeps.frames]
    exact spaces.known
  · intro dir member other otherUser entry seen
    by_cases here : dir = machine.cr3 ∧ other = page
    · obtain ⟨rfl, rfl⟩ := here
      exact (held entry seen).1
    · rw [others dir member other (user_inside otherUser) here] at seen
      exact spaces.backed dir member other otherUser entry seen
  · intro first memberFirst second memberSecond firstPage firstUser secondPage secondUser
      firstEntry secondEntry seenFirst seenSecond same
    by_cases hereFirst : first = machine.cr3 ∧ firstPage = page
    · by_cases hereSecond : second = machine.cr3 ∧ secondPage = page
      · exact ⟨hereFirst.1.trans hereSecond.1.symm, hereFirst.2.trans hereSecond.2.symm⟩
      · obtain ⟨rfl, rfl⟩ := hereFirst
        rw [others second memberSecond secondPage (user_inside secondUser) hereSecond] at seenSecond
        by_cases was : machine.view machine.cr3 firstPage = some firstEntry
        · exact spaces.single _ memberFirst second memberSecond _ firstUser _ secondUser _ _ was
            seenSecond same
        · exact absurd same.symm
            ((held firstEntry seenFirst).2 was second memberSecond _ secondUser _ seenSecond)
    · rw [others first memberFirst firstPage (user_inside firstUser) hereFirst] at seenFirst
      by_cases hereSecond : second = machine.cr3 ∧ secondPage = page
      · obtain ⟨rfl, rfl⟩ := hereSecond
        by_cases was : machine.view machine.cr3 secondPage = some secondEntry
        · exact spaces.single first memberFirst _ memberSecond _ firstUser _ secondUser _ _
            seenFirst was same
        · exact absurd same
            ((held secondEntry seenSecond).2 was first memberFirst _ firstUser _ seenFirst)
      · rw [others second memberSecond secondPage (user_inside secondUser) hereSecond] at seenSecond
        exact spaces.single first memberFirst second memberSecond _ firstUser _ secondUser _ _
          seenFirst seenSecond same

/-- `vmm_map` of a user page to a frame that no user page has. -/
theorem Spaces.mapPage (spaces : Spaces machine dirs data) {phys flags : Nat}
    (user : page < USER_LAST) (held : phys ∈ data) (alone : machine.Unmapped dirs phys)
    (small : flags < 4096)
    : ∃ after, vmmMap machine (page * PAGE_SIZE) phys flags = some after
      ∧ PageStep dirs data machine after (fun other => other = page)
      ∧ TableStep machine after (page / 1024) flags
      ∧ (∀ dir ∈ dirs, ∀ index < 1024, ¬(dir = machine.cr3 ∧ index = page / 1024)
          → dirEntry after.memory dir index = dirEntry machine.memory dir index)
      ∧ after.view machine.cr3 page
        = if present (dirEntry after.memory machine.cr3 (page / 1024)) then
            some (phys ||| (flags ||| PAGE_PRESENT))
          else none := by
  have userPage : page < 786432 := user
  obtain ⟨high, whole⟩ := @user_page page
  have inside : page * PAGE_SIZE / 2 ^ 22 < 1023 := by omega
  obtain ⟨after, maps⟩ := spaces.sound.map_runs inside phys flags
  obtain ⟨sound, cr3, _, changes, entry⟩ := spaces.sound.map inside maps
  obtain ⟨keeps, _, _⟩ := spaces.sound.map_frames inside maps
  have table := spaces.sound.map_table inside maps
  obtain ⟨aligned, physSmall, _, _⟩ := spaces.sound.paged.filled phys held
  rw [high, whole] at changes
  rw [high] at table
  rw [high, whole, cr3, Nat.or_assoc] at entry
  have flagsSmall : flags ||| PAGE_PRESENT < 4096 :=
    Nat.or_lt_two_pow (n := 12) small (by decide)
  obtain ⟨isFrame, _⟩ := frame_or aligned flagsSmall
  have isPresent : present (phys ||| (flags ||| PAGE_PRESENT)) = true := by
    rw [present_or aligned flagsSmall, present]
    have low : (flags ||| PAGE_PRESENT) % 2 ^ 1 = flags % 2 ^ 1 ||| PAGE_PRESENT % 2 ^ 1 :=
      Nat.or_mod_two_pow ..
    have one : PAGE_PRESENT % 2 ^ 1 = 1 := by decide
    rcases Nat.mod_two_eq_zero_or_one flags with even | odd
    · rw [one, Nat.pow_one, even] at low
      rw [low]
      rfl
    · rw [one, Nat.pow_one, odd] at low
      rw [low]
      rfl
  have fits : phys ||| (flags ||| PAGE_PRESENT) < 2 ^ 32 :=
    Nat.or_lt_two_pow physSmall (by omega)
  have seen : after.view machine.cr3 page
      = if present (dirEntry after.memory machine.cr3 (page / 1024)) then
          some (phys ||| (flags ||| PAGE_PRESENT))
        else none := by
    by_cases there : present (dirEntry after.memory machine.cr3 (page / 1024)) = true
    · rw [Machine.view, if_pos there, entry there fits, if_pos isPresent]
    · have absent : present (dirEntry after.memory machine.cr3 (page / 1024)) = false := by
        simpa using there
      rw [Machine.view, if_neg there, pageEntry]
      simp only [absent, Bool.false_eq_true, if_false, present_zero]
  refine ⟨after, maps, ?_, table, ?_, seen⟩
  · refine spaces.pageStep user sound cr3 keeps changes (table.writable ?_) ?_
    · refine spaces.writable _ spaces.sound.current _ ?_
      simp only [KERNEL_PDE_START]
      omega
    · intro entry' seen'
      rw [seen] at seen'
      split at seen'
      · obtain rfl := Option.some.inj seen'
        rw [isFrame]
        exact ⟨held, fun _ => alone⟩
      · cases seen'
  · intro dir member index inside' apart
    exact changes.directory dir member index inside' apart

/-- `vmm_unmap` of a user page. -/
theorem Spaces.unmapPage (spaces : Spaces machine dirs data) (user : page < USER_LAST)
    : ∃ after, vmmUnmap machine (page * PAGE_SIZE) = some after
      ∧ PageStep dirs data machine after (fun other => other = page)
      ∧ after.free = machine.free
      ∧ (∀ dir ∈ dirs, ∀ index < 1024,
          dirEntry after.memory dir index = dirEntry machine.memory dir index)
      ∧ after.view machine.cr3 page = none := by
  have userPage : page < 786432 := user
  obtain ⟨high, whole⟩ := @user_page page
  have inside : page * PAGE_SIZE / 2 ^ 22 < 1023 := by omega
  obtain ⟨after, unmaps, none⟩ := spaces.sound.unmap_runs inside
  obtain ⟨sound, cr3, _, changes⟩ := spaces.sound.unmap inside unmaps
  obtain ⟨keeps, same⟩ := spaces.sound.unmap_frames inside unmaps
  rw [whole] at changes none
  have directory : ∀ dir ∈ dirs, ∀ index < 1024,
      dirEntry after.memory dir index = dirEntry machine.memory dir index :=
    fun dir member index inside' => changes.directory dir member index inside' id
  refine ⟨after, unmaps, ?_, same.free, directory, none⟩
  refine spaces.pageStep user sound cr3 keeps
    (changes.mono (fun _ _ _ _ was => was.elim) (fun _ _ _ was => was)) ?_ ?_
  · rw [directory _ spaces.sound.current _ (by omega)]
    refine spaces.writable _ spaces.sound.current _ ?_
    simp only [KERNEL_PDE_START]
    omega
  · intro entry seen
    rw [none] at seen
    cases seen

end

end Panuti.Vmm
