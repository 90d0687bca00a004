import Panuti.Elf.Loader
import Panuti.Memory.Maps

/-! What loading a program changes in the page tables of the system. The loader checks no
address of a segment, so the kernel half stays as it is exactly for the images whose segments
lie in user space.
-/

namespace Panuti.Elf

open ByteMemory PageTable Panuti.Vmm

-- User space

def UserPage (virt : Nat) : Prop := USER_SPACE_BASE ≤ virt ∧ virt + PAGE_SIZE ≤ USER_SPACE_END

def Segment.InUserSpace (seg : Segment) : Prop :=
  seg.numPages = 0
  ∨ USER_SPACE_BASE ≤ seg.pageStart ∧ seg.pageStart + seg.numPages * PAGE_SIZE ≤ USER_SPACE_END

/-- Directory entries the loader may change: those above user pages of the address space it
fills, and the one above the scratch page in the directory it runs in.
-/
def LoaderEntry (current addrSpace dir index : Nat) : Prop :=
  dir = addrSpace ∧ USER_SPACE_BASE / 2 ^ 22 ≤ index ∧ index < KERNEL_PDE_START
  ∨ dir = current ∧ index = ELF_LOAD_SCRATCH / 2 ^ 22

def LoaderPage (addrSpace dir page : Nat) : Prop :=
  dir = addrSpace ∧ UserPage (page * PAGE_SIZE) ∨ page = ELF_LOAD_SCRATCH / 2 ^ 12

/-- Every page the loader calls `vmm_map` for is a user page of the address space or its scratch
page, and no other entry of any address space has changed.
-/
structure LeavesKernelAlone (dirs : List Nat) (addrSpace : Nat) (before after : Machine)
    : Prop where
  mapped
    : ∀ entry ∈ after.mapped.drop before.mapped.length,
        entry.1 = before.cr3 ∧ entry.2 = ELF_LOAD_SCRATCH
        ∨ entry.1 = addrSpace ∧ UserPage entry.2
  directories
    : ∀ dir ∈ dirs, ∀ index < 1024, ¬LoaderEntry before.cr3 addrSpace dir index
      → dirEntry after.memory dir index = dirEntry before.memory dir index
  pages
    : ∀ dir ∈ dirs, ∀ page, page / 1024 < 1023 → ¬LoaderPage addrSpace dir page
      → pageEntry after.memory dir page = pageEntry before.memory dir page

-- Filling frames

section Loading

variable {dirs data : List Nat} {machine after : Machine} {image : List UInt8} {seg : Segment}
  {addrSpace : Nat}

/-- What a step of the loader keeps and adds, in the directory `current`. -/
structure Loads (dirs : List Nat) (current addrSpace : Nat) (machine after : Machine) : Prop where
  cr3 : after.cr3 = machine.cr3
  mapped
    : ∃ log, after.mapped = machine.mapped ++ log
      ∧ ∀ entry ∈ log, entry.1 = current ∧ entry.2 = ELF_LOAD_SCRATCH
        ∨ entry.1 = addrSpace ∧ UserPage entry.2
  changes
    : Changes dirs (LoaderEntry current addrSpace) (LoaderPage addrSpace) machine.memory
        after.memory

theorem Loads.refl (current : Nat) (machine : Machine)
    : Loads dirs current addrSpace machine machine :=
  ⟨rfl, ⟨[], by simp, by simp⟩, Changes.refl _⟩

theorem Loads.trans {current : Nat} {middle : Machine}
    (first : Loads dirs current addrSpace machine middle)
    (second : Loads dirs current addrSpace middle after)
    : Loads dirs current addrSpace machine after := by
  obtain ⟨log, isLog, fine⟩ := first.mapped
  obtain ⟨more, isMore, fineToo⟩ := second.mapped
  refine ⟨second.cr3.trans first.cr3, ⟨log ++ more, ?_, ?_⟩, first.changes.trans second.changes⟩
  · rw [isMore, isLog, List.append_assoc]
  · intro entry member
    rcases List.mem_append.mp member with inFirst | inSecond
    · exact fine entry inFirst
    · exact fineToo entry inSecond

theorem sound_update {place offset : Nat} (sound : machine.Sound dirs data) (byte : UInt8)
    (member : place ∈ data) (within : offset < 4096)
    : ({ machine with memory := Function.update machine.memory (place + offset) byte }
        : Machine).Sound dirs data
      ∧ Changes dirs (fun _ _ => False) (fun _ _ => False) machine.memory
        (Function.update machine.memory (place + offset) byte) := by
  obtain ⟨aligned, _, _, notDir⟩ := sound.paged.filled place member
  have same : ∀ dir ∈ dirs, ∀ index < 1024,
      dirEntry (Function.update machine.memory (place + offset) byte) dir index
        = dirEntry machine.memory dir index := by
    intro dir memberToo index inside
    have dirAligned := (sound.paged.rooted dir memberToo).1
    have apart : place ≠ dir := by
      rintro rfl
      exact notDir memberToo
    exact word_update_other (by omega)
  refine ⟨⟨sound.paged.congr same, sound.small, sound.current⟩,
    ⟨fun dir memberToo index inside _ => same dir memberToo index inside, ?_⟩⟩
  intro dir memberToo page inside _
  rw [pageEntry, same dir memberToo (page / 1024) (by omega), pageEntry]
  by_cases was : present (dirEntry machine.memory dir (page / 1024)) = true
  · simp only [was, if_pos]
    have notData := (sound.paged.tables dir memberToo _ inside was).2.2
    have tableAligned := frame_aligned (dirEntry machine.memory dir (page / 1024))
    have apart : place ≠ frame (dirEntry machine.memory dir (page / 1024)) := by
      rintro rfl
      exact notData member
    exact word_update_other (by omega)
  · simp only [was, if_neg, Bool.false_eq_true, not_false_eq_true]

/-- If the scratch page is mapped, it is the frame being filled. -/
def Scratch (machine : Machine) (phys : Nat) : Prop :=
  present (dirEntry machine.memory machine.cr3 (ELF_LOAD_SCRATCH / 2 ^ 22)) = true
  → pageEntry machine.memory machine.cr3 (ELF_LOAD_SCRATCH / 2 ^ 12)
    = phys ||| (PAGE_PRESENT ||| PAGE_RW) ||| PAGE_PRESENT

variable {phys : Nat} {frames : List Nat}

theorem Scratch.reached {off physical : Nat} (scratch : Scratch machine phys)
    (aligned : phys % 4096 = 0) (within : off < 4096)
    (reached : PageTable.translate machine.memory machine.cr3 (ELF_LOAD_SCRATCH + off) = some physical)
    : physical = phys + off := by
  have page : (ELF_LOAD_SCRATCH + off) / 4096 = ELF_LOAD_SCRATCH / 2 ^ 12 := by
    simp only [ELF_LOAD_SCRATCH]
    omega
  have isPresent : present (dirEntry machine.memory machine.cr3 (ELF_LOAD_SCRATCH / 2 ^ 22))
      = true := by
    by_contra absent
    have noEntry : pageEntry machine.memory machine.cr3 ((ELF_LOAD_SCRATCH + off) / 4096) = 0 := by
      have high : ELF_LOAD_SCRATCH / 2 ^ 12 / 1024 = ELF_LOAD_SCRATCH / 2 ^ 22 := by decide
      rw [page, pageEntry, high]
      simp only [absent, if_neg, not_false_eq_true]
    rw [PageTable.translate, noEntry] at reached
    simp at reached
  have entry := scratch isPresent
  have isFrame : frame (phys ||| (PAGE_PRESENT ||| PAGE_RW) ||| PAGE_PRESENT) = phys := by
    rw [Nat.or_assoc]
    exact (frame_or aligned (by decide)).1
  have offset : (ELF_LOAD_SCRATCH + off) % 4096 = off := by
    simp only [ELF_LOAD_SCRATCH]
    omega
  simp only [PageTable.translate, page, entry, isFrame, offset] at reached
  split at reached
  · exact (Option.some.inj reached).symm
  · cases reached

theorem copyBytes_spec {p left off : Nat} (sound : machine.Sound dirs data)
    (scratch : Scratch machine phys) (member : phys ∈ data) (within : off + left ≤ 4096)
    (copies : copyBytes image seg p machine left off = some after)
    : after.Sound dirs data ∧ after.mapped = machine.mapped ∧ after.cr3 = machine.cr3
      ∧ Changes dirs (fun _ _ => False) (fun _ _ => False) machine.memory after.memory := by
  induction left generalizing machine off with
  | zero =>
      obtain rfl := Option.some.inj copies
      exact ⟨sound, rfl, rfl, Changes.refl _⟩
  | succ left ih =>
      simp only [copyBytes] at copies
      split at copies
      · obtain rfl := Option.some.inj copies
        exact ⟨sound, rfl, rfl, Changes.refl _⟩
      · split at copies
        · cases copies
        · rename_i middle writes
          obtain ⟨physical, reached, rfl⟩ := Option.map_eq_some_iff.mp writes
          obtain rfl := scratch.reached (sound.paged.filled phys member).1 (by omega) reached
          generalize (if p * PAGE_SIZE + off - seg.inPageOff < seg.filesz then
            image.getD ((seg.offset + (p * PAGE_SIZE + off - seg.inPageOff)) % 2 ^ 32) 0
            else 0) = byte at copies
          obtain ⟨soundMiddle, changes⟩ := sound_update sound byte member (by omega : off < 4096)
          have scratchMiddle : Scratch { machine with
              memory := Function.update machine.memory (phys + off) byte } phys := by
            intro isPresent
            have current := sound.current
            rw [changes.page _ current _ (by decide) (fun no => no)]
            rw [changes.directory _ current _ (by decide) (fun no => no)] at isPresent
            exact scratch isPresent
          obtain ⟨soundAfter, sameMapped, sameCr3, changesAfter⟩ :=
            ih soundMiddle scratchMiddle (by omega) copies
          exact ⟨soundAfter, sameMapped, sameCr3, changes.trans changesAfter⟩

/-- The loader fills a frame through its scratch page. -/
theorem fillFrame_spec {p : Nat} (addrSpace : Nat) (sound : machine.Sound dirs data)
    (member : phys ∈ data) (fills : fillFrame image seg machine p phys = some after)
    : after.Sound dirs data ∧ Loads dirs machine.cr3 addrSpace machine after := by
  obtain ⟨aligned, small, _⟩ := sound.paged.filled phys member
  simp only [fillFrame] at fills
  split at fills
  · cases fills
  · rename_i scratched maps
    split at fills
    · cases fills
    · rename_i copied copies
      obtain ⟨soundScratched, cr3Scratched, mappedScratched, changesScratched, entry⟩ :=
        sound.map (by decide) maps
      have fits : phys ||| (PAGE_PRESENT ||| PAGE_RW) ||| PAGE_PRESENT < 2 ^ 32 :=
        Nat.or_lt_two_pow (Nat.or_lt_two_pow small (by decide)) (by decide)
      have within : (if p = 0 then seg.inPageOff else 0)
          + (PAGE_SIZE - if p = 0 then seg.inPageOff else 0) ≤ 4096 := by
        have offset : seg.inPageOff < 4096 := by
          simp only [Segment.inPageOff, Segment.pageStart, PAGE_SIZE]
          omega
        simp only [PAGE_SIZE]
        split <;> omega
      obtain ⟨soundCopied, mappedCopied, cr3Copied, changesCopied⟩ :=
        copyBytes_spec soundScratched (fun isPresent => entry isPresent fits) member within copies
      obtain ⟨soundAfter, cr3After, mappedAfter, changesAfter⟩ :=
        soundCopied.unmap (by decide) fills
      refine ⟨soundAfter, ⟨cr3After.trans (cr3Copied.trans cr3Scratched),
        ⟨[(machine.cr3, ELF_LOAD_SCRATCH)], ?_, ?_⟩, ?_⟩⟩
      · rw [mappedAfter, mappedCopied, mappedScratched]
      · intro loaded inLog
        rw [List.mem_singleton.mp inLog]
        exact Or.inl ⟨rfl, rfl⟩
      · refine (changesScratched.mono ?_ ?_).trans
          ((changesCopied.mono (fun _ _ _ _ no => no.elim) (fun _ _ _ no => no.elim)).trans
            (changesAfter.mono (fun _ _ _ _ no => no.elim) ?_))
        · intro dir _ index _ was
          exact Or.inr was
        · intro dir _ page was
          exact Or.inr was.1
        · intro dir _ page was
          exact Or.inr was.1

theorem fillFrames_spec {p : Nat} (addrSpace : Nat) (sound : machine.Sound dirs data)
    (members : ∀ phys ∈ frames, phys ∈ data)
    (fills : fillFrames image seg machine p frames = some after)
    : after.Sound dirs data ∧ Loads dirs machine.cr3 addrSpace machine after := by
  induction frames generalizing machine p with
  | nil =>
      obtain rfl := Option.some.inj fills
      exact ⟨sound, Loads.refl _ _⟩
  | cons phys rest ih =>
      simp only [fillFrames] at fills
      split at fills
      · cases fills
      · rename_i middle first
        obtain ⟨soundMiddle, loads⟩ := fillFrame_spec addrSpace sound (members phys (by simp))
          first
        obtain ⟨soundAfter, loadsRest⟩ := ih soundMiddle
          (fun other member => members other (by simp [member])) fills
        rw [loads.cr3] at loadsRest
        exact ⟨soundAfter, loads.trans loadsRest⟩

-- Loading segments that lie in user space

/-- The frames of a segment hold data from then on. -/
theorem allocFrames_spec {taken : List Nat} {left : Nat} (sound : machine.Sound dirs data)
    (members : ∀ phys ∈ frames, phys ∈ data)
    (allocates : allocFrames machine frames left = (true, taken, after))
    : ∃ data', after.Sound dirs data' ∧ (∀ phys ∈ taken, phys ∈ data')
      ∧ after.memory = machine.memory ∧ after.cr3 = machine.cr3
      ∧ after.mapped = machine.mapped ∧ taken.length = frames.length + left := by
  induction left generalizing machine data frames with
  | zero =>
      simp only [allocFrames, Prod.mk.injEq, true_and] at allocates
      obtain ⟨rfl, rfl⟩ := allocates
      exact ⟨data, sound, members, rfl, rfl, rfl, rfl⟩
  | succ left ih =>
      simp only [allocFrames] at allocates
      rcases pmmAllocp_cases machine with failed | ⟨page, below, isFree, allocated⟩
      · rw [failed] at allocates
        simp at allocates
      · rw [allocated] at allocates
        split at allocates
        · simp at allocates
        · have small := sound.small
          have soundTaken : (machine.take page).Sound dirs (page * PAGE_SIZE :: data) :=
            ⟨sound.paged.addData isFree (by omega), small, sound.current⟩
          have membersTaken : ∀ phys ∈ frames ++ [page * PAGE_SIZE],
              phys ∈ page * PAGE_SIZE :: data := by
            intro phys member
            rcases List.mem_append.mp member with inOld | isNew
            · exact List.mem_cons_of_mem _ (members phys inOld)
            · rw [List.mem_singleton.mp isNew]
              exact List.mem_cons_self
          obtain ⟨data', soundAfter, membersAfter, memory, cr3, mapped, length⟩ :=
            ih soundTaken membersTaken allocates
          refine ⟨data', soundAfter, membersAfter, memory, cr3, mapped, ?_⟩
          rw [length, List.length_append, List.length_singleton]
          omega

/-- Pages of user space are mapped into the address space that is current. -/
theorem vmmMapRun_spec {virt flags : Nat} (current : Nat) (sound : machine.Sound dirs data)
    (isCurrent : machine.cr3 = addrSpace) (aligned : virt % PAGE_SIZE = 0)
    (user
      : frames = [] ∨ USER_SPACE_BASE ≤ virt
        ∧ virt + frames.length * PAGE_SIZE ≤ USER_SPACE_END)
    (maps : vmmMapRun machine virt flags frames = some after)
    : after.Sound dirs data ∧ Loads dirs current addrSpace machine after := by
  induction frames generalizing machine virt with
  | nil =>
      obtain rfl := Option.some.inj maps
      exact ⟨sound, Loads.refl _ _⟩
  | cons phys rest ih =>
      obtain ⟨low, high⟩ := user.resolve_left (by simp)
      simp only [List.length_cons, PAGE_SIZE, USER_SPACE_BASE, USER_SPACE_END] at low high aligned
      simp only [vmmMapRun] at maps
      split at maps
      · cases maps
      · rename_i middle first
        obtain ⟨soundMiddle, sameCr3, mapped, changes, _⟩ := sound.map (by omega) first
        have userPage : UserPage virt := by
          simp only [UserPage, PAGE_SIZE, USER_SPACE_BASE, USER_SPACE_END]
          omega
        have loads : Loads dirs current addrSpace machine middle := by
          refine ⟨sameCr3, ⟨_, mapped, ?_⟩, changes.mono ?_ ?_⟩
          · intro entry inLog
            rw [List.mem_singleton.mp inLog]
            exact Or.inr ⟨isCurrent, userPage⟩
          · intro dir _ index _ was
            refine Or.inl ⟨was.1.trans isCurrent, ?_⟩
            simp only [USER_SPACE_BASE, KERNEL_PDE_START]
            omega
          · intro dir _ page was
            left
            refine ⟨?_, ?_⟩
            · rcases was.2 with isDir | kernel
              · exact isDir.trans isCurrent
              · simp only [KERNEL_PDE_START] at kernel
                omega
            · have isPage : page * PAGE_SIZE = virt := by
                simp only [PAGE_SIZE]
                omega
              rw [isPage]
              exact userPage
        have restUser : rest = [] ∨ USER_SPACE_BASE ≤ (virt + PAGE_SIZE) % 2 ^ 32
            ∧ (virt + PAGE_SIZE) % 2 ^ 32 + rest.length * PAGE_SIZE ≤ USER_SPACE_END := by
          cases rest with
          | nil => exact Or.inl rfl
          | cons next more =>
              right
              simp only [List.length_cons, PAGE_SIZE, USER_SPACE_BASE, USER_SPACE_END] at high ⊢
              omega
        obtain ⟨soundAfter, loadsRest⟩ := ih soundMiddle (sameCr3.trans isCurrent)
          (by simp only [PAGE_SIZE]; omega) restUser maps
        exact ⟨soundAfter, loads.trans loadsRest⟩

/-- A segment in user space is loaded. -/
theorem loadSegment_spec (sound : machine.Sound dirs data) (member : addrSpace ∈ dirs)
    (user : seg.InUserSpace) (loads : loadSegment machine addrSpace image seg = some (true, after))
    : ∃ data', after.Sound dirs data' ∧ Loads dirs machine.cr3 addrSpace machine after := by
  simp only [loadSegment] at loads
  split at loads
  · simp at loads
  · split at loads
    · simp at loads
    · rename_i frames allocated allocates
      obtain ⟨data', soundAllocated, members, memory, cr3, mapped, length⟩ :=
        allocFrames_spec sound (by simp) allocates
      split at loads
      · cases loads
      · rename_i run maps
        have allocating : Loads dirs machine.cr3 addrSpace machine allocated :=
          ⟨cr3, ⟨[], by rw [mapped, List.append_nil], by simp⟩,
            by rw [memory]; exact Changes.refl _⟩
        have mapping : run.Sound dirs data' ∧ Loads dirs machine.cr3 addrSpace allocated run := by
          simp only [vmmMapInRun] at maps
          split at maps
          · obtain rfl := Option.some.inj maps
            exact ⟨soundAllocated, Loads.refl _ _⟩
          · rename_i some
            obtain ⟨mappedRun, runs, rfl⟩ := Option.map_eq_some_iff.mp maps
            have switched : ({ allocated with cr3 := addrSpace } : Machine).Sound dirs data' :=
              ⟨soundAllocated.paged, soundAllocated.small, member⟩
            have inUser : frames = [] ∨ USER_SPACE_BASE ≤ seg.pageStart
                ∧ seg.pageStart + frames.length * PAGE_SIZE ≤ USER_SPACE_END := by
              rw [length, List.length_nil, Nat.zero_add]
              rcases user with nothing | bounds
              · left
                rw [nothing] at length
                exact List.length_eq_zero_iff.mp length
              · exact Or.inr bounds
            obtain ⟨soundRun, loadsRun⟩ := vmmMapRun_spec machine.cr3 switched rfl
              (by simp [Segment.pageStart]) inUser runs
            exact ⟨⟨soundRun.paged, soundRun.small, soundAllocated.current⟩,
              ⟨rfl, loadsRun.mapped, loadsRun.changes⟩⟩
        obtain ⟨filled, fills, isAfter⟩ := Option.map_eq_some_iff.mp loads
        obtain rfl : filled = after := (Prod.mk.inj isAfter).2
        obtain ⟨soundFilled, filling⟩ := fillFrames_spec addrSpace mapping.1 members
          fills
        rw [mapping.2.cr3, cr3] at filling
        exact ⟨data', soundFilled, allocating.trans (mapping.2.trans filling)⟩

theorem elfLoadSegments_spec {segs : List Segment} (sound : machine.Sound dirs data)
    (member : addrSpace ∈ dirs) (user : ∀ seg ∈ segs, seg.InUserSpace)
    (loads : elfLoadSegments machine addrSpace image segs = some (true, after))
    : Loads dirs machine.cr3 addrSpace machine after := by
  induction segs generalizing machine data with
  | nil =>
      obtain rfl : machine = after := by simpa [elfLoadSegments] using loads
      exact Loads.refl _ _
  | cons seg rest ih =>
      simp only [elfLoadSegments] at loads
      split at loads
      · cases loads
      · simp at loads
      · rename_i middle first
        obtain ⟨data', soundMiddle, loadsFirst⟩ := loadSegment_spec sound member
          (user seg (by simp)) first
        have loadsRest := ih soundMiddle (fun other inRest => user other (by simp [inRest])) loads
        rw [loadsFirst.cr3] at loadsRest
        exact loadsFirst.trans loadsRest

end Loading

-- What a successful load has mapped

section Mapped

variable {machine after : Machine} {image : List UInt8} {seg : Segment} {addrSpace : Nat}

/-- The pages `vmm_map` was called for are recorded, and the current directory is kept. -/
structure Grows (machine after : Machine) (log : List (Nat × Nat)) : Prop where
  cr3 : after.cr3 = machine.cr3
  mapped : after.mapped = machine.mapped ++ log

theorem Grows.refl (machine : Machine) : Grows machine machine [] := ⟨rfl, by simp⟩

theorem Grows.trans {middle : Machine} {log more : List (Nat × Nat)}
    (first : Grows machine middle log) (second : Grows middle after more)
    : Grows machine after (log ++ more) :=
  ⟨second.cr3.trans first.cr3, by rw [second.mapped, first.mapped, List.append_assoc]⟩

theorem Grows.kept (cr3 : after.cr3 = machine.cr3) (mapped : after.mapped = machine.mapped)
    : Grows machine after [] :=
  ⟨cr3, by rw [mapped, List.append_nil]⟩

theorem grows_pmmAllocp (machine : Machine) : Grows machine (pmmAllocp machine).2 [] := by
  rcases pmmAllocp_cases machine with failed | ⟨page, _, _, allocated⟩
  · rw [failed]
    exact Grows.kept rfl rfl
  · rw [allocated]
    exact Grows.kept rfl rfl

theorem grows_writeWord {address value : Nat}
    (writes : machine.writeWord address value = some after)
    : Grows machine after [] := by
  obtain ⟨_, _, rfl⟩ := Option.map_eq_some_iff.mp writes
  exact Grows.kept rfl rfl

variable {flags virt : Nat} {frames : List Nat}

theorem grows_provideTable {index : Nat} {provided : Bool}
    (provides : provideTable machine index flags = some (provided, after))
    : Grows machine after [] := by
  rw [provideTable] at provides
  split at provides
  · cases provides
  · split at provides
    · have allocates := grows_pmmAllocp machine
      split at provides
      rename_i table allocated isAllocated
      rw [isAllocated] at allocates
      split at provides
      · obtain ⟨_, rfl⟩ := Prod.mk.inj (Option.some.inj provides)
        exact allocates
      · split at provides
        · cases provides
        · rename_i written writes
          obtain ⟨zeroed, zeroes, isAfter⟩ := Option.map_eq_some_iff.mp provides
          obtain ⟨_, rfl⟩ := Prod.mk.inj isAfter
          obtain ⟨_, _, rfl⟩ := Option.map_eq_some_iff.mp zeroes
          have writing := grows_writeWord writes
          exact allocates.trans ⟨writing.cr3, writing.mapped⟩
    · split at provides
      · obtain ⟨written, writes, isAfter⟩ := Option.map_eq_some_iff.mp provides
        obtain ⟨_, rfl⟩ := Prod.mk.inj isAfter
        exact grows_writeWord writes
      · obtain ⟨_, rfl⟩ := Prod.mk.inj (Option.some.inj provides)
        exact Grows.refl machine

theorem grows_map {phys : Nat} (maps : vmmMap machine virt phys flags = some after)
    : Grows machine after [(machine.cr3, virt)] := by
  have logged : Grows machine
      { machine with mapped := machine.mapped ++ [(machine.cr3, virt)] } [(machine.cr3, virt)] :=
    ⟨rfl, rfl⟩
  simp only [vmmMap] at maps
  split at maps
  · cases maps
  · rename_i middle provides
    obtain rfl := Option.some.inj maps
    exact logged.trans (grows_provideTable provides)
  · rename_i middle provides
    exact logged.trans ((grows_provideTable provides).trans (grows_writeWord maps))

theorem grows_mapRun (small : virt < 2 ^ 32)
    (maps : vmmMapRun machine virt flags frames = some after)
    : ∃ log, Grows machine after log
      ∧ ∀ place < frames.length, (machine.cr3, (virt + place * PAGE_SIZE) % 2 ^ 32) ∈ log := by
  induction frames generalizing machine virt with
  | nil =>
      obtain rfl := Option.some.inj maps
      exact ⟨[], Grows.refl _, by simp⟩
  | cons phys rest ih =>
      simp only [vmmMapRun] at maps
      split at maps
      · cases maps
      · rename_i middle first
        have grows := grows_map first
        obtain ⟨log, growsRest, pages⟩ := ih (Nat.mod_lt _ (by decide)) maps
        refine ⟨_, grows.trans growsRest, ?_⟩
        intro place inside
        cases place with
        | zero =>
            rw [Nat.zero_mul, Nat.add_zero, Nat.mod_eq_of_lt small]
            exact List.mem_append_left _ (List.mem_singleton_self _)
        | succ place =>
            have later := pages place (by simpa using inside)
            have sum : ((virt + PAGE_SIZE) % 2 ^ 32 + place * PAGE_SIZE) % 2 ^ 32
                = (virt + (place + 1) * PAGE_SIZE) % 2 ^ 32 := by
              rw [Nat.mod_add_mod, Nat.add_mul, Nat.one_mul, Nat.add_comm (place * PAGE_SIZE),
                ← Nat.add_assoc]
            rw [grows.cr3, sum] at later
            exact List.mem_append_right _ later

theorem grows_copyBytes {p left off : Nat}
    (copies : copyBytes image seg p machine left off = some after)
    : Grows machine after [] := by
  induction left generalizing machine off with
  | zero =>
      obtain rfl := Option.some.inj copies
      exact Grows.refl _
  | succ left ih =>
      simp only [copyBytes] at copies
      split at copies
      · obtain rfl := Option.some.inj copies
        exact Grows.refl _
      · split at copies
        · cases copies
        · rename_i middle writes
          obtain ⟨_, _, rfl⟩ := Option.map_eq_some_iff.mp writes
          have rest := ih copies
          exact ⟨rest.cr3, rest.mapped⟩

theorem grows_unmap (unmaps : vmmUnmap machine virt = some after) : Grows machine after [] := by
  rw [vmmUnmap] at unmaps
  split at unmaps
  · cases unmaps
  · split at unmaps
    · obtain rfl := Option.some.inj unmaps
      exact Grows.refl _
    · exact grows_writeWord unmaps

theorem grows_fillFrames {p : Nat} (fills : fillFrames image seg machine p frames = some after)
    : ∃ log, Grows machine after log := by
  induction frames generalizing machine p with
  | nil =>
      obtain rfl := Option.some.inj fills
      exact ⟨[], Grows.refl _⟩
  | cons phys rest ih =>
      simp only [fillFrames] at fills
      split at fills
      · cases fills
      · rename_i middle first
        simp only [fillFrame] at first
        split at first
        · cases first
        · rename_i scratched maps
          split at first
          · cases first
          · rename_i copied copies
            obtain ⟨log, grows⟩ := ih fills
            exact ⟨_, (grows_map maps).trans ((grows_copyBytes copies).trans
              ((grows_unmap first).trans grows))⟩

theorem grows_allocFrames {taken : List Nat} {left : Nat}
    (allocates : allocFrames machine frames left = (true, taken, after))
    : Grows machine after [] ∧ taken.length = frames.length + left := by
  induction left generalizing machine frames with
  | zero =>
      simp only [allocFrames, Prod.mk.injEq, true_and] at allocates
      obtain ⟨rfl, rfl⟩ := allocates
      exact ⟨Grows.refl _, rfl⟩
  | succ left ih =>
      simp only [allocFrames] at allocates
      split at allocates
      · simp at allocates
      · obtain ⟨grows, length⟩ := ih allocates
        refine ⟨(grows_pmmAllocp machine).trans grows, ?_⟩
        rw [length, List.length_append, List.length_singleton]
        omega

/-- A loaded segment was mapped page by page, wherever its pages lie. -/
theorem grows_loadSegment (notZero : addrSpace ≠ 0)
    (loads : loadSegment machine addrSpace image seg = some (true, after))
    : ∃ log, Grows machine after log
      ∧ ∀ place < seg.numPages, (addrSpace, (seg.pageStart + place * PAGE_SIZE) % 2 ^ 32) ∈ log := by
  simp only [loadSegment] at loads
  split at loads
  · simp at loads
  · split at loads
    · simp at loads
    · rename_i frames allocated allocates
      obtain ⟨allocating, length⟩ := grows_allocFrames allocates
      rw [List.length_nil, Nat.zero_add] at length
      split at loads
      · cases loads
      · rename_i run maps
        have mapping : ∃ log, Grows allocated run log
            ∧ ∀ place < seg.numPages,
              (addrSpace, (seg.pageStart + place * PAGE_SIZE) % 2 ^ 32) ∈ log := by
          simp only [vmmMapInRun] at maps
          split at maps
          · rename_i nothing
            obtain rfl := Option.some.inj maps
            refine ⟨[], Grows.refl _, ?_⟩
            intro place inside
            rw [← length, nothing.resolve_left notZero] at inside
            cases inside
          · obtain ⟨mappedRun, runs, rfl⟩ := Option.map_eq_some_iff.mp maps
            have small : seg.pageStart < 2 ^ 32 := by
              simp only [Segment.pageStart, PAGE_SIZE]
              omega
            obtain ⟨log, grows, pages⟩ := grows_mapRun small runs
            rw [length] at pages
            exact ⟨log, ⟨rfl, grows.mapped⟩, pages⟩
        obtain ⟨log, growsRun, pages⟩ := mapping
        obtain ⟨filled, fills, isAfter⟩ := Option.map_eq_some_iff.mp loads
        obtain rfl : filled = after := (Prod.mk.inj isAfter).2
        obtain ⟨more, growsFilled⟩ := grows_fillFrames fills
        refine ⟨_, allocating.trans (growsRun.trans growsFilled), ?_⟩
        intro place inside
        rw [List.nil_append]
        exact List.mem_append_left _ (pages place inside)

theorem grows_elfLoadSegments {segs : List Segment} (notZero : addrSpace ≠ 0)
    (loads : elfLoadSegments machine addrSpace image segs = some (true, after))
    : ∃ log, Grows machine after log
      ∧ ∀ seg ∈ segs, ∀ place < seg.numPages,
        (addrSpace, (seg.pageStart + place * PAGE_SIZE) % 2 ^ 32) ∈ log := by
  induction segs generalizing machine with
  | nil =>
      obtain rfl : machine = after := by simpa [elfLoadSegments] using loads
      exact ⟨[], Grows.refl _, by simp⟩
  | cons seg rest ih =>
      simp only [elfLoadSegments] at loads
      split at loads
      · cases loads
      · simp at loads
      · rename_i middle first
        obtain ⟨log, growsFirst, pages⟩ := grows_loadSegment notZero first
        obtain ⟨more, growsRest, pagesRest⟩ := ih loads
        refine ⟨_, growsFirst.trans growsRest, ?_⟩
        intro other member place inside
        rcases List.mem_cons.mp member with rfl | inRest
        · exact List.mem_append_left _ (pages place inside)
        · exact List.mem_append_right _ (pagesRest other inRest place inside)

theorem Segment.inUserSpace_of_pages
    (pages
      : ∀ place < seg.numPages, UserPage ((seg.pageStart + place * PAGE_SIZE) % 2 ^ 32))
    (short : seg.numPages ≤ MAX_SEG_PAGES)
    : seg.InUserSpace := by
  by_cases nothing : seg.numPages = 0
  · exact Or.inl nothing
  · right
    have small : seg.pageStart < 2 ^ 32 := by
      simp only [Segment.pageStart, PAGE_SIZE]
      omega
    have first := pages 0 (by omega)
    have last := pages (seg.numPages - 1) (by omega)
    simp only [UserPage, PAGE_SIZE, USER_SPACE_BASE, USER_SPACE_END, MAX_SEG_PAGES] at *
    omega

end Mapped

-- The kernel half

/-- The loadable segments of an image lie in user space. -/
def ImageInUserSpace (image : List UInt8) : Prop :=
  ∀ segs entry, elf32Parse image 16 = .ok (segs, entry) → ∀ seg ∈ segs, seg.InUserSpace

theorem short_of_loads {machine after : Machine} {addrSpace : Nat} {image : List UInt8}
    {segs : List Segment}
    (loads : elfLoadSegments machine addrSpace image segs = some (true, after))
    : ∀ seg ∈ segs, seg.numPages ≤ MAX_SEG_PAGES := by
  induction segs generalizing machine with
  | nil => simp
  | cons seg rest ih =>
      simp only [elfLoadSegments] at loads
      split at loads
      · cases loads
      · simp at loads
      · rename_i middle first
        intro other member
        rcases List.mem_cons.mp member with rfl | inRest
        · simp only [loadSegment] at first
          split at first
          · simp at first
          · rename_i fits
            simp only [Segment.numPages, MAX_SEG_PAGES, PAGE_SIZE] at fits ⊢
            omega
        · exact ih loads other inRest

/-- A program that is loaded leaves the kernel half alone if and only if its segments lie in
user space.
-/
theorem load_leaves_kernel_iff {dirs data : List Nat} {machine after : Machine} {addrSpace : Nat}
    {image : List UInt8} (sound : machine.Sound dirs data) (member : addrSpace ∈ dirs)
    (apart : addrSpace ≠ machine.cr3)
    (loads : loadImage machine addrSpace image = some (true, after))
    : LeavesKernelAlone dirs addrSpace machine after ↔ ImageInUserSpace image := by
  simp only [loadImage] at loads
  split at loads
  · simp at loads
  · rename_i segs entry parsed
    constructor
    · intro alone segs' entry' parsedToo seg inSegs
      obtain ⟨rfl, _⟩ := Prod.mk.inj (Except.ok.inj (parsed.symm.trans parsedToo))
      obtain ⟨log, grows, pages⟩ :=
        grows_elfLoadSegments (sound.paged.rooted _ member).2.1 loads
      apply Segment.inUserSpace_of_pages
      · intro place inside
        have inLog := pages seg inSegs place inside
        have mapped := alone.mapped
        rw [grows.mapped, List.drop_left] at mapped
        rcases mapped _ inLog with ⟨isCurrent, _⟩ | ⟨_, user⟩
        · exact absurd isCurrent apart
        · exact user
      · exact short_of_loads loads seg inSegs
    · intro user
      have spec := elfLoadSegments_spec sound member (user segs entry parsed) loads
      obtain ⟨log, isLog, fine⟩ := spec.mapped
      refine ⟨?_, spec.changes.directory, spec.changes.page⟩
      rw [isLog, List.drop_left]
      exact fine

/-- Two address spaces without user pages, and the frames behind them. -/
def bareMachine : Machine where
  memory := Memory.setWord (Memory.setWord (fun _ => 0) (0x1000 + 4 * 1023) 0x1003)
    (0x2000 + 4 * 1023) 0x2003
  cr3 := 0x1000
  frames := 16
  free page := decide (3 ≤ page)
  cursor := 0
  mapped := []

theorem bareMachine_entry {dir index : Nat} (isDir : dir = 0x1000 ∨ dir = 0x2000)
    (inside : index < 1024)
    : dirEntry bareMachine.memory dir index = if index = 1023 then dir + 3 else 0 := by
  have zero (place : Nat) : Memory.word (fun _ => 0) place = 0 := rfl
  rw [dirEntry, bareMachine]
  by_cases isLast : index = 1023
  · rw [if_pos isLast, isLast]
    rcases isDir with rfl | rfl
    · rw [word_setWord_aligned (by decide) (by decide) (by decide),
        Memory.word_setWord_self _ _ (by decide)]
    · rw [Memory.word_setWord_self _ _ (by decide)]
  · rw [if_neg isLast, word_setWord_aligned (by decide) (by omega) (by omega),
      word_setWord_aligned (by decide) (by omega) (by omega), zero]

theorem bareMachine_sound : bareMachine.Sound [0x1000, 0x2000] [] := by
  have absent {dir index : Nat} (member : dir ∈ [0x1000, 0x2000]) (inside : index < 1023)
      : present (dirEntry bareMachine.memory dir index) = false := by
    rw [bareMachine_entry (by simpa using member) (by omega), if_neg (by omega)]
    rfl
  refine ⟨⟨rfl, ?_, ?_, ?_, ?_⟩, by decide, by decide⟩
  · intro dir member
    have entry := bareMachine_entry (by simpa using member) (by decide : 1023 < 1024)
    rw [if_pos rfl] at entry
    rw [Recursive, entry]
    have isDir : dir = 0x1000 ∨ dir = 0x2000 := by simpa using member
    rcases isDir with rfl | rfl
    · exact ⟨rfl, by decide, rfl, rfl, rfl⟩
    · exact ⟨rfl, by decide, rfl, rfl, rfl⟩
  · intro dir member index inside isPresent
    rw [absent member inside] at isPresent
    cases isPresent
  · intro dir member other _ index inside _ _ isPresent
    rw [absent member inside] at isPresent
    cases isPresent
  · intro place member
    cases member

/-- An executable with one segment, of no bytes, behind a page boundary. -/
def emptySegment (page : UInt8) : List UInt8 :=
  [0x7F, 0x45, 0x4C, 0x46, 1, 1, 1, 0, 0, 0, 0, 0, 0, 0, 0, 0, 2, 0, 3, 0, 1, 0, 0, 0,
    1, 0x80, 4, page, 52, 0, 0, 0, 0, 0, 0, 0, 0, 0, 0, 0, 52, 0, 32, 0, 1, 0, 0, 0, 0, 0, 0, 0,
    1, 0, 0, 0, 0, 0, 0, 0, 1, 0x80, 4, page, 1, 0x80, 4, page, 0, 0, 0, 0, 0, 0, 0, 0,
    6, 0, 0, 0, 0, 0x10, 0, 0]

/-- A segment at the beginning of user space. -/
theorem load_leaves_kernel_user
    : ∃ after, loadImage bareMachine 0x2000 (emptySegment 8) = some (true, after)
      ∧ LeavesKernelAlone [0x1000, 0x2000] 0x2000 bareMachine after := by
  have fine : (loadImage bareMachine 0x2000 (emptySegment 8)).map Prod.fst = some true := by
    decide +kernel
  obtain ⟨⟨_, after⟩, loads, rfl⟩ := Option.map_eq_some_iff.mp fine
  refine ⟨after, loads, (load_leaves_kernel_iff bareMachine_sound (by decide) (by decide)
    loads).mpr ?_⟩
  intro segs entry parsed seg member
  have isParsed : elf32Parse (emptySegment 8) 16
      = .ok ([⟨0x08048001, 0, 0, 0, 6⟩], 0x08048001) := rfl
  obtain ⟨rfl, _⟩ := Prod.mk.inj (Except.ok.inj (isParsed.symm.trans parsed))
  obtain rfl := List.mem_singleton.mp member
  right
  decide

/-- A segment in the kernel half is loaded there. -/
theorem load_reaches_kernel
    : ¬∀ dirs data machine after addrSpace image, Machine.Sound machine dirs data
      → addrSpace ∈ dirs
      → addrSpace ≠ machine.cr3
      → loadImage machine addrSpace image = some (true, after)
      → LeavesKernelAlone dirs addrSpace machine after := by
  intro alone
  have loaded : (loadImage bareMachine 0x2000 (emptySegment 0xC0)).map
      (fun result => (result.1, result.2.mapped))
      = some (true, [(0x2000, 0xC0048000), (0x1000, ELF_LOAD_SCRATCH)]) := by
    decide +kernel
  obtain ⟨⟨fine, after⟩, loads, same⟩ := Option.map_eq_some_iff.mp loaded
  obtain ⟨rfl, mapped⟩ := Prod.mk.inj same
  have inside := (alone [0x1000, 0x2000] [] bareMachine after 0x2000 (emptySegment 0xC0)
    bareMachine_sound (by decide) (by decide) loads).mapped (0x2000, 0xC0048000)
  simp only at mapped
  rw [mapped] at inside
  rcases inside (by decide) with ⟨isCurrent, _⟩ | ⟨_, user⟩
  · exact absurd isCurrent (by decide)
  · exact absurd user.2 (by decide)

end Panuti.Elf
