import Panuti.Elf.TaskPages
import Panuti.Memory.UserPointers

/-! Runs of what changes the page tables of tasks: address spaces are made, programs are loaded,
stacks are set up, and tasks map and unmap memory. As long as all memory is asked for to be read or
written, the kernel accepts no pointer that ring 3 may not use.
-/

namespace Panuti.Elf

open ByteMemory PageTable Panuti.Vmm

inductive SpaceEvent where
  | create
  | load (addrSpace : Nat) (image : List UInt8)
  | stack (addrSpace : Nat)
  | switch (addrSpace : Nat)
  | mmapan (len prot hint : Nat)
  | munmap (addr len : Nat)
deriving Repr, DecidableEq

/-- The machine and the address spaces after an event. -/
def perform (machine : Machine) (dirs : List Nat) : SpaceEvent → Option (Machine × List Nat)
  | .create => (vmmCreatePageDir machine).map (fun (addrSpace, machine) =>
      (machine, if addrSpace = 0 then dirs else addrSpace :: dirs))
  | .load addrSpace image => (loadImage machine addrSpace image).map (fun done => (done.2, dirs))
  | .stack addrSpace => (userStackSetup machine addrSpace).map (fun done => (done.2, dirs))
  | .switch addrSpace => some (machine.switch addrSpace, dirs)
  | .mmapan len prot hint =>
      (syshandlerMmapan machine len prot hint).map (fun done => (done.2, dirs))
  | .munmap addr len => (syshandlerMunmap machine addr len).map (fun done => (done.2, dirs))

/-- Events are about address spaces that there are, and their arguments are words. -/
def SpaceEvent.Knows (dirs : List Nat) : SpaceEvent → Prop
  | .create => True
  | .load addrSpace _ => addrSpace ∈ dirs
  | .stack addrSpace => addrSpace ∈ dirs
  | .switch addrSpace => addrSpace ∈ dirs
  | .mmapan len prot hint => len < 2 ^ 32 ∧ prot < 2 ^ 32 ∧ hint < 2 ^ 32
  | .munmap addr len => addr < 2 ^ 32 ∧ len < 2 ^ 32

def SpaceEvent.InUserSpace : SpaceEvent → Prop
  | .load _ image => ImageInUserSpace image
  | _ => True

def SpaceEvent.AsksOpen : SpaceEvent → Prop
  | .mmapan _ prot _ => prot &&& (MMAPAN_PROT_READ ||| MMAPAN_PROT_WRITE) ≠ 0
  | event => event.InUserSpace

/-- The states of the runs whose events are all allowed. -/
inductive Reaches (allowed : SpaceEvent → Prop) (start : Machine) (startDirs : List Nat)
    : Machine → List Nat → Prop
  | start : Reaches allowed start startDirs start startDirs
  | step {machine after : Machine} {dirs dirsAfter : List Nat} {event : SpaceEvent}
    (before : Reaches allowed start startDirs machine dirs) (known : event.Knows dirs)
    (isAllowed : allowed event) (ran : perform machine dirs event = some (after, dirsAfter))
    : Reaches allowed start startDirs after dirsAfter

section

variable {dirs dirsAfter data : List Nat} {machine after start : Machine}

theorem Reaches.mono {fewer allowed : SpaceEvent → Prop} (more : ∀ event, fewer event → allowed event)
    (reaches : Reaches fewer start dirs machine dirsAfter)
    : Reaches allowed start dirs machine dirsAfter := by
  induction reaches with
  | start => exact Reaches.start
  | step _ known isAllowed ran ih => exact Reaches.step ih known (more _ isAllowed) ran

theorem mmapan_keeps (spaces : Spaces machine dirs data) (len prot hint : Nat)
    : ∃ result after data', syshandlerMmapan machine len prot hint = some (result, after)
      ∧ Spaces after dirs data'
      ∧ (prot &&& (MMAPAN_PROT_READ ||| MMAPAN_PROT_WRITE) ≠ 0 → Advances dirs machine after) := by
  obtain ⟨result, after, ran, outcome⟩ := syshandlerMmapan_spec spaces len prot hint
  rcases outcome with ⟨-, -, rfl⟩ | ⟨-, -, -, rfl⟩ | ⟨page, -, -, outcome, -⟩
  · exact ⟨result, after, data, ran, spaces, fun _ => Advances.refl after⟩
  · exact ⟨result, after, data, ran, spaces, fun _ => Advances.refl after⟩
  · rcases outcome with ⟨-, got, tables, -, built⟩ | ⟨-, -, tables, undone⟩
    · refine ⟨result, after, got ++ data, ran, built.spaces, fun asks => ?_⟩
      have forUser : (mmapanFlags prot).testBit 2 = true := by
        rw [(mmapanFlags_bits prot).1]
        exact decide_eq_true asks
      exact ⟨built.spends.cr3, fun isOpen => isOpen.step (built.opens forUser)⟩
    · exact ⟨result, after, data, ran, undone.spaces,
        fun _ => ⟨undone.spends.cr3, fun isOpen => isOpen.step undone.opens⟩⟩

/-- MUNMAP keeps the address spaces. -/
theorem munmap_keeps (spaces : Spaces machine dirs data) (addr len : Nat)
    : ∃ code after data', syshandlerMunmap machine addr len = some (code, after)
      ∧ Spaces after dirs data' ∧ Advances dirs machine after := by
  rw [syshandlerMunmap]
  by_cases nothing : len = 0
  · rw [if_pos nothing]
    exact ⟨_, machine, data, rfl, spaces, Advances.refl machine⟩
  rw [if_neg nothing]
  by_cases midPage : addr % 4096 ≠ 0
  · rw [if_pos midPage]
    exact ⟨_, machine, data, rfl, spaces, Advances.refl machine⟩
  rw [if_neg midPage]
  by_cases outside : kernelIsUserRange addr len = false
  · rw [if_pos outside]
    exact ⟨_, machine, data, rfl, spaces, Advances.refl machine⟩
  rw [if_neg outside]
  have inside : kernelIsUserRange addr len = true := by simpa using outside
  rw [kernelIsUserRange, if_neg nothing] at inside
  simp only [Bool.and_eq_true, decide_eq_true_eq] at inside
  obtain ⟨⟨low, order⟩, high⟩ := inside
  simp only [USER_SPACE_BASE, USER_SPACE_END] at low high
  have aligned : addr % 4096 = 0 := not_not.mp midPage
  have start : addr = addr / PAGE_SIZE * PAGE_SIZE := by
    simp only [PAGE_SIZE]
    omega
  have user : addr / PAGE_SIZE + pagesFor len ≤ USER_LAST := by
    simp only [pagesFor, PAGE_SIZE, USER_LAST]
    omega
  obtain ⟨after, ran, released⟩ := spaces.vmmUnmapRunFree user
  rw [← start] at ran
  refine ⟨0, after, _, ?_, released.spaces, released.cr3,
    fun isOpen => isOpen.step released.opens⟩
  rw [ran]
  rfl

variable {event : SpaceEvent} {startData : List Nat}

theorem perform_keeps (spaces : Spaces machine dirs data) (known : event.Knows dirs)
    (user : event.InUserSpace) (ran : perform machine dirs event = some (after, dirsAfter))
    : ∃ data', Spaces after dirsAfter data'
      ∧ (event.AsksOpen → machine.AllOpen dirs → after.AllOpen dirsAfter) := by
  cases event with
  | create =>
      obtain ⟨addrSpace, made, makes, outcome⟩ := spaces.vmmCreatePageDir
      simp only [perform, makes, Option.map_some, Option.some.injEq, Prod.mk.injEq] at ran
      obtain ⟨rfl, rfl⟩ := ran
      rcases outcome with ⟨rfl, rfl, same⟩ | ⟨notZero, created⟩
      · exact ⟨data, same, fun _ isOpen => isOpen⟩
      · rw [if_neg notZero]
        exact ⟨data, created.spaces, fun _ isOpen => created.allOpen isOpen⟩
  | load addrSpace image =>
      obtain ⟨loaded, made, data', loads, same, advances⟩ := loadImage_open spaces known user
      simp only [perform, loads, Option.map_some, Option.some.injEq, Prod.mk.injEq] at ran
      obtain ⟨rfl, rfl⟩ := ran
      exact ⟨data', same, fun _ => advances.isOpen⟩
  | stack addrSpace =>
      obtain ⟨stack, made, data', setsUp, same, advances⟩ := userStackSetup_open spaces known
      simp only [perform, setsUp, Option.map_some, Option.some.injEq, Prod.mk.injEq] at ran
      obtain ⟨rfl, rfl⟩ := ran
      exact ⟨data', same, fun _ => advances.isOpen⟩
  | switch addrSpace =>
      simp only [perform, Option.some.injEq, Prod.mk.injEq] at ran
      obtain ⟨rfl, rfl⟩ := ran
      exact ⟨data, spaces.switch known, fun _ isOpen => isOpen⟩
  | mmapan len prot hint =>
      obtain ⟨result, made, data', calls, same, advances⟩ := mmapan_keeps spaces len prot hint
      simp only [perform, calls, Option.map_some, Option.some.injEq, Prod.mk.injEq] at ran
      obtain ⟨rfl, rfl⟩ := ran
      exact ⟨data', same, fun asks => (advances asks).isOpen⟩
  | munmap addr len =>
      obtain ⟨code, made, data', calls, same, advances⟩ := munmap_keeps spaces addr len
      simp only [perform, calls, Option.map_some, Option.some.injEq, Prod.mk.injEq] at ran
      obtain ⟨rfl, rfl⟩ := ran
      exact ⟨data', same, fun _ => advances.isOpen⟩

theorem Reaches.spaces (spaces : Spaces start dirs startData)
    (reaches : Reaches SpaceEvent.InUserSpace start dirs machine dirsAfter)
    : ∃ data, Spaces machine dirsAfter data := by
  induction reaches with
  | start => exact ⟨startData, spaces⟩
  | step _ known user ran ih =>
      obtain ⟨data, before⟩ := ih
      obtain ⟨data', after, -⟩ := perform_keeps before known user ran
      exact ⟨data', after⟩

theorem SpaceEvent.AsksOpen.inUserSpace (asks : event.AsksOpen) : event.InUserSpace := by
  cases event with
  | mmapan => trivial
  | _ => exact asks

theorem Reaches.allOpen (spaces : Spaces start dirs startData) (isOpen : start.AllOpen dirs)
    (reaches : Reaches SpaceEvent.AsksOpen start dirs machine dirsAfter)
    : machine.AllOpen dirsAfter := by
  induction reaches with
  | start => exact isOpen
  | step before known asks ran ih =>
      obtain ⟨data, was⟩ :=
        (before.mono (fun _ asks => SpaceEvent.AsksOpen.inUserSpace asks)).spaces spaces
      obtain ⟨-, -, keeps⟩ := perform_keeps was known asks.inUserSpace ran
      exact keeps asks ih

/-- In every state that is reached, a pointer is accepted wrongly if and only if its pages are all
present and ring 3 may not use one of them; and in the runs that only ask for memory to be read or
written, no pointer ever is.
-/
theorem usrptr_verify_runs {startData : List Nat} (spaces : Spaces start dirs startData)
    (isOpen : start.AllOpen dirs)
    : (∀ machine dirsAfter, Reaches SpaceEvent.InUserSpace start dirs machine dirsAfter
        → ∀ ptr len, ptr < 2 ^ 32 → len < 2 ^ 32 → 0 < len
        → (machine.VerifiesWell ptr len ↔ ¬machine.HidesIn ptr len))
      ∧ ∀ machine dirsAfter, Reaches SpaceEvent.AsksOpen start dirs machine dirsAfter
        → ∀ ptr len, ptr < 2 ^ 32 → len < 2 ^ 32 → 0 < len → machine.VerifiesWell ptr len := by
  constructor
  · intro machine dirsAfter reaches ptr len ptrSmall lenSmall some
    obtain ⟨data, reached⟩ := reaches.spaces spaces
    exact reached.verifiesWell_iff ptrSmall lenSmall some
  · intro machine dirsAfter reaches ptr len ptrSmall lenSmall some
    obtain ⟨data, reached⟩ :=
      (reaches.mono (fun _ asks => SpaceEvent.AsksOpen.inUserSpace asks)).spaces spaces
    have opened := reaches.allOpen spaces isOpen
    exact (reached.verifiesWell_iff ptrSmall lenSmall some).mpr
      (opened.hidesNone reached.sound.current)

end

-- From a new address space on

theorem fresh_allOpen : fresh.AllOpen [0x1000] := by
  intro dir member page user mapped
  obtain rfl := List.mem_singleton.mp member
  exact absurd (fresh_view (user_inside user)) mapped

theorem usrptr_verify_fresh
    : (∀ machine dirsAfter, Reaches SpaceEvent.InUserSpace fresh [0x1000] machine dirsAfter
        → ∀ ptr len, ptr < 2 ^ 32 → len < 2 ^ 32 → 0 < len
        → (machine.VerifiesWell ptr len ↔ ¬machine.HidesIn ptr len))
      ∧ ∀ machine dirsAfter, Reaches SpaceEvent.AsksOpen fresh [0x1000] machine dirsAfter
        → ∀ ptr len, ptr < 2 ^ 32 → len < 2 ^ 32 → 0 < len → machine.VerifiesWell ptr len :=
  usrptr_verify_runs fresh_spaces fresh_allOpen

/-- Memory that was asked for with no protection at all is accepted, though ring 3 may not use it. -/
theorem fresh_hidden
    : ∃ machine dirs, Reaches SpaceEvent.InUserSpace fresh [0x1000] machine dirs
      ∧ ¬machine.VerifiesWell 0x08048000 1 := by
  have asks : (syshandlerMmapan fresh 4096 0 0).bind (fun done =>
      (kernelUsrptrVerify done.2 0x08048000 1).map (fun answer =>
        (answer, done.2.permits done.2.cr3 0x8048 2)))
      = some (true, false) := by
    decide +kernel
  cases ran : syshandlerMmapan fresh 4096 0 0 with
  | none =>
      rw [ran] at asks
      cases asks
  | some done =>
      rw [ran, Option.bind_some] at asks
      obtain ⟨answer, accepts, isAnswer⟩ := Option.map_eq_some_iff.mp asks
      obtain ⟨rfl, hidden⟩ := Prod.mk.inj isAnswer
      refine ⟨done.2, [0x1000], ?_, ?_⟩
      · have known : (SpaceEvent.mmapan 4096 0 0).Knows [0x1000] :=
          ⟨by decide, by decide, by decide⟩
        refine Reaches.step Reaches.start known trivial ?_
        rw [perform, ran]
        rfl
      · rintro ⟨answer', again, well⟩
        rw [accepts] at again
        obtain rfl := Option.some.inj again
        have permitted := (well rfl).2.2.2 0x8048 ⟨by decide, by decide⟩
        rw [hidden] at permitted
        cases permitted

end Panuti.Elf
