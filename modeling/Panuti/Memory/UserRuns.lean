import Panuti.Memory.UserSteps

/-! The loops over user pages: a run is mapped to cleared frames, unmapped, or unmapped with its
frames given back. What a run spends is counted, page by page, so that the outcome of a call can be
told from the frames that are free.
-/

namespace Panuti.Vmm

open ByteMemory PageTable

-- What a page spends

/-- A page of the run lies under this entry of the directory. -/
def touches (page count index : Nat) : Bool :=
  (List.range' page count).any (fun other => other / 1024 == index)

def Machine.missing (machine : Machine) (page count : Nat) : Nat :=
  (List.range KERNEL_PDE_START).countP (fun index =>
    touches page count index && !present (dirEntry machine.memory machine.cr3 index))

section

variable {dirs data : List Nat} {machine middle after : Machine}

theorem touches_succ (page count index : Nat)
    : touches page (count + 1) index
      = (page / 1024 == index || touches (page + 1) count index) := by
  rw [touches, List.range'_succ, List.any_cons, touches]

variable {page : Nat}

theorem countP_update_self {free : Nat → Bool} {frames : Nat} (taken : free page = false)
    : (List.range frames).countP (Function.update free page false)
      = (List.range frames).countP free := by
  refine List.countP_congr ?_
  intro other _
  by_cases same : other = page
  · rw [same, Function.update_self, taken]
  · rw [Function.update_of_ne same]

theorem Machine.missing_succ {count : Nat} (user : page / 1024 < KERNEL_PDE_START)
    (cr3 : after.cr3 = machine.cr3)
    (others
      : ∀ index < 1023, index ≠ page / 1024
        → present (dirEntry after.memory machine.cr3 index)
          = present (dirEntry machine.memory machine.cr3 index))
    (there : present (dirEntry after.memory machine.cr3 (page / 1024)) = true)
    : machine.missing page (count + 1)
      = (if present (dirEntry machine.memory machine.cr3 (page / 1024)) then 0 else 1)
        + after.missing (page + 1) count := by
  generalize needs : (fun index => touches page (count + 1) index
    && !present (dirEntry machine.memory machine.cr3 index)) = need
  have needEq (index : Nat)
      : need index = ((page / 1024 == index || touches (page + 1) count index)
          && !present (dirEntry machine.memory machine.cr3 index)) := by
    rw [← touches_succ, ← needs]
  have rest : (List.range KERNEL_PDE_START).countP (fun index => touches (page + 1) count index
        && !present (dirEntry after.memory after.cr3 index))
      = (List.range KERNEL_PDE_START).countP (Function.update need (page / 1024) false) := by
    refine List.countP_congr ?_
    intro index member
    have inside := List.mem_range.mp member
    simp only [KERNEL_PDE_START] at inside
    rw [cr3]
    by_cases same : index = page / 1024
    · subst same
      simp [there]
    · have apart : (page / 1024 == index) = false := by
        simpa using fun is : page / 1024 = index => same is.symm
      rw [Function.update_of_ne same, needEq, apart, others index (by omega) same]
      rfl
  rw [Machine.missing, Machine.missing, needs, rest]
  have here : need (page / 1024)
      = !present (dirEntry machine.memory machine.cr3 (page / 1024)) := by
    rw [needEq]
    simp
  cases was : present (dirEntry machine.memory machine.cr3 (page / 1024)) with
  | true =>
      rw [was] at here
      rw [countP_update_self here, if_pos rfl, Nat.zero_add]
  | false =>
      rw [was] at here
      have fewer := countP_update user here
      rw [if_neg (by decide)]
      omega

theorem Machine.missing_pos {count : Nat} (user : page / 1024 < KERNEL_PDE_START)
    (absent : present (dirEntry machine.memory machine.cr3 (page / 1024)) = false)
    : 0 < machine.missing page (count + 1) := by
  refine List.countP_pos_iff.mpr ⟨page / 1024, List.mem_range.mpr user, ?_⟩
  rw [touches_succ, absent]
  simp

theorem Machine.freeFrames_eq_zero (none : ∀ page < machine.frames, machine.free page = false)
    : machine.freeFrames = 0 := by
  rw [Machine.freeFrames, List.countP_eq_zero]
  intro page member
  simp [none page (List.mem_range.mp member)]

theorem Takes.spends {got : List Nat} (takes : Takes machine after got)
    : Spends machine after [] got where
  frames := takes.tables.frames
  cr3 := takes.tables.cr3
  nodup := takes.nodup
  fresh place member := by
    exact takes.fresh place member
  free page := takes.free page
  stays index _ isPresent := by
    rw [takes.tables.memory]
    exact ⟨isPresent, rfl, id⟩
  tables := by simp

theorem TableStep.spends {index flags : Nat} (step : TableStep machine after index flags)
    (user : index < KERNEL_PDE_START) (cr3 : after.cr3 = machine.cr3)
    (others
      : ∀ other < 1023, other ≠ index
        → dirEntry after.memory machine.cr3 other = dirEntry machine.memory machine.cr3 other)
    : (∃ tables, Spends machine after tables []
        ∧ present (dirEntry after.memory machine.cr3 index) = true
        ∧ tables.length
          = (if present (dirEntry machine.memory machine.cr3 index) then 0 else 1))
      ∨ (Spends machine after [] [] ∧ machine.freeFrames = 0
        ∧ present (dirEntry machine.memory machine.cr3 index) = false
        ∧ present (dirEntry after.memory machine.cr3 index) = false) := by
  rcases step with ⟨there, entry, frames, free⟩ | ⟨absent, none, entry, frames, free⟩
    | ⟨absent, page, below, isFree, notZero, entry, frames, free⟩
  · have isPresent : present (dirEntry after.memory machine.cr3 index) = true := by
      rw [entry]
      split
      · rw [present_or_user, there]
      · exact there
    refine Or.inl ⟨[], ⟨frames, cr3, List.nodup_nil, by simp, by simp [free], ?_, by simp⟩,
      isPresent, ?_⟩
    · intro other inside was
      by_cases same : other = index
      · subst same
        rw [entry]
        split
        · refine ⟨(present_or_user _).trans was, frame_or_low _ (by decide), fun permitted => ?_⟩
          rw [Nat.testBit_or, permitted, Bool.true_or]
        · exact ⟨was, rfl, id⟩
      · rw [others other inside same]
        exact ⟨was, rfl, id⟩
    · rw [there]
      rfl
  · refine Or.inr ⟨Spends.none frames cr3 free ?_, Machine.freeFrames_eq_zero none, absent, ?_⟩
    · intro other inside
      by_cases same : other = index
      · rw [same, entry]
      · exact others other inside same
    · rw [entry, absent]
  · have isPresent : present (dirEntry after.memory machine.cr3 index) = true := by
      rw [entry]
      exact newTable_present
    refine Or.inl ⟨[page * PAGE_SIZE], ⟨frames, cr3, by simp, ?_, ?_, ?_, ?_⟩, isPresent, ?_⟩
    · intro place member
      have isPlace : place = page * PAGE_SIZE := by simpa using member
      subst isPlace
      have whole : page * PAGE_SIZE / PAGE_SIZE = page := by
        simp only [PAGE_SIZE]
        omega
      rw [whole]
      exact ⟨by simp only [PAGE_SIZE]; omega, below, isFree⟩
    · intro other
      rw [free]
      by_cases same : other = page
      · subst same
        simp
      · have apart : other * PAGE_SIZE ≠ page * PAGE_SIZE := by
          simp only [PAGE_SIZE]
          omega
        rw [Function.update_of_ne same]
        simp [apart]
    · intro other inside was
      have apart : other ≠ index := by
        rintro rfl
        rw [absent] at was
        cases was
      rw [others other inside apart]
      exact ⟨was, rfl, id⟩
    · intro table member
      have isTable : table = page * PAGE_SIZE := by simpa using member
      refine ⟨index, user, absent, isPresent, ?_⟩
      rw [isTable, entry, newTable_frame]
      rfl
    · rw [absent]
      rfl

theorem TableStep.permits {index flags : Nat} (step : TableStep machine after index flags)
    (forUser : flags &&& PAGE_USER ≠ 0)
    (isPresent : present (dirEntry after.memory machine.cr3 index) = true)
    : (dirEntry after.memory machine.cr3 index).testBit 2 = true := by
  have bit : PAGE_USER.testBit 2 = true := by decide
  rcases step with ⟨-, entry, -⟩ | ⟨absent, -, entry, -⟩ | ⟨-, page, -, -, -, entry, -⟩
  · rw [entry, if_pos forUser, Nat.testBit_or, bit, Bool.or_true]
  · rw [entry, absent] at isPresent
    cases isPresent
  · have asked : (flags &&& PAGE_USER).testBit 2 = true := by
      by_contra not
      apply forUser
      have pow : PAGE_USER = 2 ^ 2 := by decide
      rw [pow, Nat.and_two_pow] at not ⊢
      have off : flags.testBit 2 = false := by
        by_contra on
        have on : flags.testBit 2 = true := by simpa using on
        rw [on] at not
        exact not (by decide)
      rw [off]
      rfl
    rw [entry, newTable, Nat.testBit_or, Nat.testBit_or, asked]
    simp

end

-- Unmapping a run

/-- The frames of the pages of a run that are mapped. -/
def Machine.framesIn (machine : Machine) (page count : Nat) : List Nat :=
  (List.range' page count).filterMap (fun other => (machine.view machine.cr3 other).map frame)

structure Released (dirs data : List Nat) (machine after : Machine) (page count : Nat)
    (freed : List Nat) : Prop where
  spaces : Spaces after dirs (data.filter (fun place => place ∉ freed))
  cr3 : after.cr3 = machine.cr3
  frames : after.frames = machine.frames
  free : ∀ other, after.free other = true ↔ machine.free other = true ∨ other * PAGE_SIZE ∈ freed
  directory
    : ∀ dir ∈ dirs, ∀ index < 1024,
        dirEntry after.memory dir index = dirEntry machine.memory dir index
  bytes
    : ∀ place, place / 4096 * 4096 ∈ data → place / 4096 * 4096 ∉ freed
      → after.memory place = machine.memory place
  unmapped : ∀ other, runPages page count other → after.view machine.cr3 other = none
  others
    : ∀ dir ∈ dirs, ∀ other, other / 1024 < 1023
      → ¬(dir = machine.cr3 ∧ runPages page count other)
      → after.view dir other = machine.view dir other

section

variable {dirs data : List Nat} {machine middle after : Machine} {page count : Nat}

theorem runPages_succ {other : Nat}
    : runPages page (count + 1) other ↔ other = page ∨ runPages (page + 1) count other := by
  simp only [runPages]
  omega

theorem runPages_user {other : Nat} (user : page + count ≤ USER_LAST)
    (inside : runPages page count other)
    : other < USER_LAST :=
  Nat.lt_of_lt_of_le inside.2 user

theorem next_page (user : page < USER_LAST)
    : (page * PAGE_SIZE + PAGE_SIZE) % 2 ^ 32 = (page + 1) * PAGE_SIZE := by
  simp only [USER_LAST] at user
  simp only [PAGE_SIZE]
  omega

theorem PageStep.refl (spaces : Spaces machine dirs data) (pages : Nat → Prop)
    : PageStep dirs data machine machine pages :=
  ⟨spaces, rfl, Keeps.refl _, fun _ _ _ _ _ => rfl⟩

theorem PageStep.trans {first second pages : Nat → Prop}
    (one : PageStep dirs data machine middle first)
    (two : PageStep dirs data middle after second)
    (inFirst : ∀ page, first page → pages page) (inSecond : ∀ page, second page → pages page)
    : PageStep dirs data machine after pages where
  spaces := two.spaces
  cr3 := two.cr3.trans one.cr3
  keeps := one.keeps.trans two.keeps
  others dir member other inside apart := by
    have apartSecond : ¬(dir = middle.cr3 ∧ second other) := by
      rw [one.cr3]
      exact fun is => apart ⟨is.1, inSecond other is.2⟩
    rw [two.others dir member other inside apartSecond]
    exact one.others dir member other inside (fun is => apart ⟨is.1, inFirst other is.2⟩)

/-- The loop that unmaps a run whose mapping failed. -/
theorem Spaces.unmapRun (spaces : Spaces machine dirs data) (user : page + count ≤ USER_LAST)
    : ∃ after, Vmm.unmapRun machine (page * PAGE_SIZE) count = some after
      ∧ PageStep dirs data machine after (runPages page count)
      ∧ after.free = machine.free
      ∧ (∀ dir ∈ dirs, ∀ index < 1024,
          dirEntry after.memory dir index = dirEntry machine.memory dir index)
      ∧ ∀ other, runPages page count other → after.view machine.cr3 other = none := by
  induction count generalizing machine page with
  | zero =>
      refine ⟨machine, rfl, PageStep.refl spaces _, rfl, fun _ _ _ _ => rfl, ?_⟩
      intro other inside
      have below := inside.2
      have above := inside.1
      omega
  | succ count ih =>
      have userPage : page < USER_LAST := by omega
      obtain ⟨middle, unmaps, step, free, directory, none⟩ := spaces.unmapPage userPage
      obtain ⟨after, unmapsRest, stepRest, freeRest, directoryRest, noneRest⟩ :=
        ih step.spaces (by omega : page + 1 + count ≤ USER_LAST)
      refine ⟨after, ?_, ?_, freeRest.trans free, ?_, ?_⟩
      · rw [Vmm.unmapRun, unmaps]
        simp only [Option.bind_eq_bind, Option.bind_some, next_page userPage]
        exact unmapsRest
      · refine step.trans stepRest ?_ ?_
        · exact fun other is => runPages_succ.mpr (Or.inl is)
        · exact fun other is => runPages_succ.mpr (Or.inr is)
      · intro dir member index inside
        rw [directoryRest dir member index inside, directory dir member index inside]
      · intro other inside
        rw [← step.cr3]
        rcases runPages_succ.mp inside with rfl | inRest
        · have notAgain : ¬(middle.cr3 = middle.cr3 ∧ runPages (other + 1) count other) := by
            simp only [runPages]
            omega
          rw [stepRest.others _ step.spaces.sound.current _ (user_inside userPage) notAgain,
            step.cr3]
          exact none
        · exact noneRest other inRest

theorem Released.refl (spaces : Spaces machine dirs data) (page : Nat)
    : Released dirs data machine machine page 0 [] where
  spaces := spaces.ofMem (by simp)
  cr3 := rfl
  frames := rfl
  free := by simp
  directory _ _ _ _ := rfl
  bytes _ _ _ := rfl
  unmapped other inside := by
    have below := inside.2
    have above := inside.1
    omega
  others _ _ _ _ _ := rfl

/-- One turn of `vmm_unmap_run_free`. -/
theorem Spaces.unmapPageFree (spaces : Spaces machine dirs data) (user : page < USER_LAST)
    : ∃ after freed,
        (do
          let frame ← vmmGetPhys machine (page * PAGE_SIZE)
          if frame ≠ 0 then do
            let machine ← vmmUnmap machine (page * PAGE_SIZE)
            some (pmmFreep machine frame)
          else some machine) = some after
        ∧ Released dirs data machine after page 1 freed
        ∧ freed = ((machine.view machine.cr3 page).map frame).toList := by
  obtain ⟨high, whole⟩ := @user_page page
  have recursive := (spaces.sound.paged.rooted _ spaces.sound.current).2.2.2
  have inside := user_inside user
  have found := vmmGetPhys_eq recursive
    (by omega : page * PAGE_SIZE / 2 ^ 22 < 1024)
  rw [whole] at found
  rw [found]
  simp only [Option.bind_eq_bind, Option.bind_some]
  cases seen : machine.view machine.cr3 page with
  | none =>
      have same := Released.refl spaces page
      refine ⟨machine, [], by simp, ⟨same.spaces, same.cr3, same.frames, same.free, same.directory,
        same.bytes, ?_, fun _ _ _ _ _ => rfl⟩, rfl⟩
      intro other inRun
      have isPage : other = page := by
        have below := inRun.2
        have above := inRun.1
        omega
      rw [isPage, seen]
  | some entry =>
      have held := spaces.backed _ spaces.sound.current page user entry seen
      have notZero := (spaces.known _ held).2
      obtain ⟨middle, unmaps, step, free, directory, none⟩ := spaces.unmapPage user
      have alone : middle.Unmapped dirs (frame entry) := by
        intro dir member other otherUser otherEntry otherSeen same
        by_cases here : dir = machine.cr3 ∧ other = page
        · rw [here.1, here.2, none] at otherSeen
          cases otherSeen
        · rw [step.others dir member other (user_inside otherUser) here] at otherSeen
          exact here (spaces.single dir member _ spaces.sound.current other otherUser page user
            otherEntry entry otherSeen seen same)
      obtain ⟨freedSpaces, same, freed⟩ := step.spaces.freep held alone
      refine ⟨pmmFreep middle (frame entry), [frame entry], ?_, ?_, rfl⟩
      · simp only [if_pos notZero, unmaps, Option.bind_some]
      · refine ⟨freedSpaces.ofMem (by simp), same.cr3.trans step.cr3,
          same.frames.trans step.keeps.frames, ?_, ?_, ?_, ?_, ?_⟩
        · intro other
          have aligned := frame_aligned entry
          rw [freed, free, List.mem_singleton]
          by_cases isFrame : other = frame entry / 4096
          · subst isFrame
            have back : frame entry / 4096 * PAGE_SIZE = frame entry := by
              simp only [PAGE_SIZE]
              omega
            simp [back]
          · have apart : other * PAGE_SIZE ≠ frame entry := by
              simp only [PAGE_SIZE]
              omega
            rw [Function.update_of_ne isFrame]
            simp [apart]
        · rw [same.memory]
          exact directory
        · intro place inData _
          rw [same.memory]
          exact step.keeps.bytes place (Or.inl inData)
        · intro other inRun
          have isPage : other = page := by
            have below := inRun.2
            have above := inRun.1
            omega
          rw [same.view, isPage]
          exact none
        · intro dir member other inside' apart
          rw [same.view]
          refine step.others dir member other inside' ?_
          rintro ⟨isCurrent, rfl⟩
          exact apart ⟨isCurrent, Nat.le_refl _, Nat.lt_succ_self _⟩

/-- `vmm_unmap_run_free` unmaps a run of user pages, and exactly their frames are free again. -/
theorem Spaces.vmmUnmapRunFree (spaces : Spaces machine dirs data) (user : page + count ≤ USER_LAST)
    : ∃ after, Vmm.vmmUnmapRunFree machine (page * PAGE_SIZE) count = some after
      ∧ Released dirs data machine after page count (machine.framesIn page count) := by
  induction count generalizing machine data page with
  | zero => exact ⟨machine, rfl, Released.refl spaces page⟩
  | succ count ih =>
      have userPage : page < USER_LAST := by omega
      obtain ⟨middle, freed, turn, first, isFreed⟩ := spaces.unmapPageFree userPage
      obtain ⟨after, ran, rest⟩ := ih first.spaces (by omega : page + 1 + count ≤ USER_LAST)
      have later : middle.framesIn (page + 1) count = machine.framesIn (page + 1) count := by
        rw [Machine.framesIn, Machine.framesIn, first.cr3]
        refine List.filterMap_congr ?_
        intro other member
        have inRest := List.mem_range'_1.mp member
        rw [first.others _ spaces.sound.current other (user_inside (by omega)) ?_]
        simp only [runPages]
        omega
      have all : machine.framesIn page (count + 1) = freed ++ machine.framesIn (page + 1) count := by
        rw [Machine.framesIn, List.range'_succ, List.filterMap_cons, Machine.framesIn, isFreed]
        cases (machine.view machine.cr3 page).map frame <;> rfl
      rw [later] at rest
      rw [all]
      refine ⟨after, ?_, ?_⟩
      · rw [Vmm.vmmUnmapRunFree]
        simp only [Option.bind_eq_bind] at turn ⊢
        rw [← Option.bind_assoc, turn, Option.bind_some, next_page userPage]
        exact ran
      · refine ⟨rest.spaces.ofMem ?_, rest.cr3.trans first.cr3, rest.frames.trans first.frames,
          ?_, ?_, ?_, ?_, ?_⟩
        · intro place
          simp only [List.mem_filter, List.mem_append, not_or, decide_eq_true_eq]
          exact and_assoc.symm
        · intro other
          rw [rest.free, first.free, List.mem_append, or_assoc]
        · intro dir member index inside
          rw [rest.directory dir member index inside, first.directory dir member index inside]
        · intro place inData notFreed
          obtain ⟨notFirst, notRest⟩ := not_or.mp (List.mem_append.not.mp notFreed)
          have inRest : place / 4096 * 4096 ∈ data.filter (fun place => place ∉ freed) :=
            List.mem_filter.mpr ⟨inData, by simpa using notFirst⟩
          rw [rest.bytes place inRest notRest, first.bytes place inData notFirst]
        · intro other inside
          rw [← first.cr3]
          rcases runPages_succ.mp inside with rfl | inRest
          · have notAgain : ¬(middle.cr3 = middle.cr3 ∧ runPages (other + 1) count other) := by
              simp only [runPages]
              omega
            rw [rest.others _ first.spaces.sound.current _ (user_inside userPage) notAgain,
              first.cr3]
            exact first.unmapped other ⟨Nat.le_refl _, Nat.lt_succ_self _⟩
          · exact rest.unmapped other inRest
        · intro dir member other inside apart
          rw [rest.others dir member other inside ?_, first.others dir member other inside ?_]
          · rintro ⟨isCurrent, inFirst⟩
            refine apart ⟨isCurrent, runPages_succ.mpr (Or.inl ?_)⟩
            have below := inFirst.2
            have above := inFirst.1
            omega
          · rintro ⟨isCurrent, inRest⟩
            rw [first.cr3] at isCurrent
            exact apart ⟨isCurrent, runPages_succ.mpr (Or.inr inRest)⟩

end

end Panuti.Vmm
