import Panuti.Elf.UserHalf
import Panuti.Memory.OpenPages

/-! The page tables of a task: the segments of its program, loaded through the loader's scratch
page, and its user stack. All of it is mapped open, in frames that no other page has.
-/

namespace Panuti.Elf

open ByteMemory PageTable Panuti.Vmm

-- The user stack

def TASK_USER_STACK_PAGES : Nat := 4
def TASK_USER_STACK_SIZE : Nat := TASK_USER_STACK_PAGES * 4096
def USER_STACK_VIRT_TOP : Nat := 0xB0000000

/-- `user_stack_t`: the initial stack pointer, and the frames from the top one down. -/
structure UserStack where
  esp : Nat
  pages : List Nat
deriving Repr, DecidableEq

/-- `user_stack_setup`: no stack where frames run out. -/
def userStackSetup (machine : Machine) (addrSpace : Nat) : Option (Option UserStack × Machine) :=
  let base := USER_STACK_VIRT_TOP - TASK_USER_STACK_SIZE
  let (phys, machine) := takeFrames machine TASK_USER_STACK_PAGES
  if phys.length ≠ TASK_USER_STACK_PAGES then some (none, phys.foldl pmmFreep machine)
  else do
    let machine ← vmmMapInRun machine addrSpace base phys (PAGE_PRESENT ||| PAGE_RW ||| PAGE_USER)
    some (some ⟨USER_STACK_VIRT_TOP - 4, phys.reverse⟩, machine)

-- Frames for a run of pages

section

variable {dirs data : List Nat} {machine middle after : Machine} {addrSpace : Nat}

theorem allocFrames_eq (machine : Machine) (frames : List Nat) (left : Nat)
    : allocFrames machine frames left
      = if (takeFrames machine left).1.length = left then
          (true, frames ++ (takeFrames machine left).1, (takeFrames machine left).2)
        else
          (false, frames ++ (takeFrames machine left).1,
            (frames ++ (takeFrames machine left).1).foldl pmmFreep (takeFrames machine left).2) := by
  induction left generalizing machine frames with
  | zero => simp [allocFrames, takeFrames]
  | succ left ih =>
      simp only [allocFrames, takeFrames]
      by_cases failed : (pmmAllocp machine).1 = 0
      · simp only [if_pos failed, List.length_nil, List.append_nil]
        rw [if_neg (by omega)]
      · simp only [if_neg failed, List.length_cons, Nat.add_right_cancel_iff]
        rw [ih]
        simp only [List.append_assoc, List.singleton_append]

theorem userStackSetup_open (spaces : Spaces machine dirs data) (member : addrSpace ∈ dirs)
    : ∃ stack after data', userStackSetup machine addrSpace = some (stack, after)
      ∧ Spaces after dirs data' ∧ Advances dirs machine after := by
  obtain ⟨takes, held, -⟩ := spaces.takeFrames TASK_USER_STACK_PAGES
  rw [userStackSetup]
  cases taking : takeFrames machine TASK_USER_STACK_PAGES with
  | mk phys taken =>
  rw [taking] at takes held
  simp only [] at takes held ⊢
  by_cases few : phys.length ≠ TASK_USER_STACK_PAGES
  · obtain ⟨given, advances⟩ := spaces.abandon takes held
    exact ⟨none, _, data, by rw [if_pos few], given, advances⟩
  · have base : USER_STACK_VIRT_TOP - TASK_USER_STACK_SIZE = 720892 * PAGE_SIZE := by decide
    have full : phys.length = 4 := not_not.mp few
    obtain ⟨after, maps, spacesAfter, advances⟩ := spaces.mapInRun takes held member
      (Or.inr (by rw [full]; decide : 720892 + phys.length ≤ USER_LAST))
      (by decide : PAGE_PRESENT ||| PAGE_RW ||| PAGE_USER < 4096) (by decide)
    refine ⟨some ⟨USER_STACK_VIRT_TOP - 4, phys.reverse⟩, after, phys ++ data, ?_, spacesAfter,
      advances⟩
    rw [if_neg few, base, maps]
    rfl

-- The segments of a program

theorem copyBytes_opened (image : List UInt8) (seg : Segment) (p : Nat) {phys left off : Nat}
    (isOpen : Opened dirs data machine middle 512 phys) (inside : off + left ≤ 4096)
    : ∃ after, copyBytes image seg p middle left off = some after
      ∧ Opened dirs data machine after 512 phys := by
  induction left generalizing middle off with
  | zero => exact ⟨middle, rfl, isOpen⟩
  | succ left ih =>
      rw [copyBytes]
      simp only []
      by_cases ends : seg.memsz ≤ p * PAGE_SIZE + off - seg.inPageOff
      · rw [if_pos ends]
        exact ⟨middle, rfl, isOpen⟩
      · rw [if_neg ends]
        generalize (if p * PAGE_SIZE + off - seg.inPageOff < seg.filesz then
          image.getD ((seg.offset + (p * PAGE_SIZE + off - seg.inPageOff)) % 2 ^ 32) 0
          else 0) = byte
        have aligned := (isOpen.spaces.sound.paged.filled phys isOpen.held).1
        have reached := isOpen.reached (by omega : off < 4096)
        have address : scratchAddress 512 = ELF_LOAD_SCRATCH := by decide
        rw [address] at reached
        have writes : middle.writeByte (ELF_LOAD_SCRATCH + off) byte
            = some { middle with
                memory := Function.update middle.memory (phys + off) byte } := by
          rw [Machine.writeByte, reached, Option.map_some]
        rw [writes]
        refine ih (isOpen.write _ ?_) (by omega)
        intro place apart
        exact Function.update_of_ne (by omega) _ _

theorem fillFrame_open (image : List UInt8) (seg : Segment) (p : Nat) {phys : Nat}
    (spaces : Spaces machine dirs data) (held : phys ∈ data)
    : ∃ after, fillFrame image seg machine p phys = some after
      ∧ Spaces after dirs data ∧ Advances dirs machine after := by
  have address : scratchAddress 512 = ELF_LOAD_SCRATCH := by decide
  have flags : PAGE_PRESENT ||| PAGE_RW ||| PAGE_PRESENT = PAGE_RW ||| PAGE_PRESENT := by decide
  obtain ⟨opened, maps, isOpen⟩ := spaces.openScratch (by decide : 512 ∈ SCRATCH_SLOTS) held
    (by decide : (PAGE_PRESENT ||| PAGE_RW) &&& PAGE_USER = 0)
    (by rw [scratchEntry, Nat.or_assoc phys, flags, Nat.or_assoc])
  have offset : seg.inPageOff ≤ 4096 := by
    simp only [Segment.inPageOff, Segment.pageStart, PAGE_SIZE]
    omega
  obtain ⟨copied, copies, isOpenToo⟩ := copyBytes_opened image seg p
    isOpen (by
      simp only [PAGE_SIZE]
      split <;> omega
      : (if p = 0 then seg.inPageOff else 0)
        + (PAGE_SIZE - if p = 0 then seg.inPageOff else 0) ≤ 4096)
  obtain ⟨after, unmaps, closed⟩ := isOpenToo.close
  rw [address] at maps unmaps
  refine ⟨after, ?_, closed.spaces, closed.advances⟩
  simp only [fillFrame, maps, copies, unmaps]

theorem fillFrames_open (image : List UInt8) (seg : Segment) (p : Nat) {frames : List Nat}
    (spaces : Spaces machine dirs data) (held : ∀ phys ∈ frames, phys ∈ data)
    : ∃ after, fillFrames image seg machine p frames = some after
      ∧ Spaces after dirs data ∧ Advances dirs machine after := by
  induction frames generalizing machine p with
  | nil => exact ⟨machine, rfl, spaces, Advances.refl machine⟩
  | cons phys rest ih =>
      obtain ⟨middle, fills, spacesMiddle, first⟩ :=
        fillFrame_open image seg p spaces (held phys (List.mem_cons_self ..))
      obtain ⟨after, fillsRest, spacesAfter, others⟩ := ih (p + 1) spacesMiddle
        (fun other member => held other (List.mem_cons_of_mem _ member))
      refine ⟨after, ?_, spacesAfter, first.trans others⟩
      rw [fillFrames, fills]
      exact fillsRest

theorem loadSegment_open (image : List UInt8) {seg : Segment}
    (spaces : Spaces machine dirs data) (member : addrSpace ∈ dirs) (user : seg.InUserSpace)
    : ∃ loaded after data', loadSegment machine addrSpace image seg = some (loaded, after)
      ∧ Spaces after dirs data' ∧ Advances dirs machine after := by
  rw [loadSegment]
  by_cases long : MAX_SEG_PAGES * PAGE_SIZE < seg.span
  · rw [if_pos long]
    exact ⟨false, machine, data, rfl, spaces, Advances.refl machine⟩
  rw [if_neg long, allocFrames_eq]
  obtain ⟨takes, held, -⟩ := spaces.takeFrames seg.numPages
  generalize (takeFrames machine seg.numPages).1 = phys at *
  generalize (takeFrames machine seg.numPages).2 = taken at *
  by_cases enough : phys.length = seg.numPages
  · simp only [if_pos enough, List.nil_append]
    have start : seg.pageStart = seg.pageStart / PAGE_SIZE * PAGE_SIZE := by
      simp only [Segment.pageStart, PAGE_SIZE]
      omega
    have inUser : phys = [] ∨ seg.pageStart / PAGE_SIZE + phys.length ≤ USER_LAST := by
      rcases user with none | ⟨low, high⟩
      · exact Or.inl (List.length_eq_zero_iff.mp (enough.trans none))
      · right
        simp only [USER_SPACE_END, PAGE_SIZE] at high
        simp only [USER_LAST, PAGE_SIZE]
        omega
    have flags : seg.mapFlags < 4096 ∧ seg.mapFlags.testBit 2 = true := by
      unfold Segment.mapFlags
      split <;> decide
    obtain ⟨mapped, maps, spacesMapped, advances⟩ := spaces.mapInRun takes held member inUser
      flags.1 flags.2
    rw [← start] at maps
    obtain ⟨after, fills, spacesAfter, filling⟩ := fillFrames_open image seg 0 spacesMapped
      (fun phys inPhys => List.mem_append_left _ inPhys)
    refine ⟨true, after, phys ++ data, ?_, spacesAfter, advances.trans filling⟩
    simp only [maps, fills, Option.map_some]
  · simp only [if_neg enough, List.nil_append]
    obtain ⟨given, advances⟩ := spaces.abandon takes held
    exact ⟨false, _, data, rfl, given, advances⟩

variable {image : List UInt8}

theorem elfLoadSegments_open {segs : List Segment} (spaces : Spaces machine dirs data)
    (member : addrSpace ∈ dirs) (user : ∀ seg ∈ segs, seg.InUserSpace)
    : ∃ loaded after data', elfLoadSegments machine addrSpace image segs = some (loaded, after)
      ∧ Spaces after dirs data' ∧ Advances dirs machine after := by
  induction segs generalizing machine data with
  | nil => exact ⟨true, machine, data, rfl, spaces, Advances.refl machine⟩
  | cons seg rest ih =>
      obtain ⟨loaded, middle, data', loads, spacesMiddle, first⟩ :=
        loadSegment_open image spaces member (user seg (List.mem_cons_self ..))
      rw [elfLoadSegments, loads]
      cases loaded with
      | false => exact ⟨false, middle, data', rfl, spacesMiddle, first⟩
      | true =>
          obtain ⟨loaded, after, data'', loadsRest, spacesAfter, others⟩ :=
            ih spacesMiddle (fun other inRest => user other (List.mem_cons_of_mem _ inRest))
          exact ⟨loaded, after, data'', loadsRest, spacesAfter, first.trans others⟩

theorem loadImage_open (spaces : Spaces machine dirs data) (member : addrSpace ∈ dirs)
    (user : ImageInUserSpace image)
    : ∃ loaded after data', loadImage machine addrSpace image = some (loaded, after)
      ∧ Spaces after dirs data' ∧ Advances dirs machine after := by
  rw [loadImage]
  cases parsed : elf32Parse image 16 with
  | error code => exact ⟨false, machine, data, rfl, spaces, Advances.refl machine⟩
  | ok found =>
      obtain ⟨segs, entry⟩ := found
      exact elfLoadSegments_open spaces member (user segs entry parsed)

end

end Panuti.Elf
