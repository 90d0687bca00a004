import Panuti.Memory.MapFrames
import Panuti.Memory.UserMaps

/-! What the steps of the calls for user memory do to the pages of the address spaces, to the
frames behind them, and to the frames that are free.
-/

namespace Panuti.Vmm

open ByteMemory PageTable

-- The pages as the processor sees them

def Machine.view (machine : Machine) (dir page : Nat) : Option Nat :=
  if present (pageEntry machine.memory dir page) then
    some (pageEntry machine.memory dir page)
  else none

theorem Machine.view_eq_none_iff {machine : Machine} {page : Nat}
    : machine.view machine.cr3 page = none ↔ machine.isMapped page = false := by
  rw [Machine.view, Machine.isMapped]
  cases present (pageEntry machine.memory machine.cr3 page) <;> simp

/-- The scratch pages of `vmm.c` and of the loader, counted from the start of their table. -/
def SCRATCH_SLOTS : List Nat := [0, 512]

def scratchPage (slot : Nat) : Nat := PAGE_DIR_TEMP_MAP / 2 ^ 12 + slot

/-- The address spaces: directories and their tables, with a table above the scratch pages in each
of them and nothing mapped there; tables of the user half may be written through; and user pages
have frames of their own among those that are in use.
-/
structure Spaces (machine : Machine) (dirs data : List Nat) : Prop where
  sound : machine.Sound dirs data
  scratch
    : ∀ dir ∈ dirs, present (dirEntry machine.memory dir (PAGE_DIR_TEMP_MAP / 2 ^ 22)) = true
  clear : ∀ dir ∈ dirs, ∀ slot ∈ SCRATCH_SLOTS, machine.view dir (scratchPage slot) = none
  writable
    : ∀ dir ∈ dirs, ∀ index < KERNEL_PDE_START,
        present (dirEntry machine.memory dir index) = true
        → (dirEntry machine.memory dir index).testBit 1 = true
  known : ∀ place ∈ data, place / 4096 < machine.frames ∧ place ≠ 0
  backed
    : ∀ dir ∈ dirs, ∀ page < USER_LAST, ∀ entry, machine.view dir page = some entry
      → frame entry ∈ data
  single
    : ∀ dir ∈ dirs, ∀ other ∈ dirs, ∀ page < USER_LAST, ∀ otherPage < USER_LAST,
        ∀ entry otherEntry, machine.view dir page = some entry
        → machine.view other otherPage = some otherEntry → frame entry = frame otherEntry
        → dir = other ∧ page = otherPage

def Machine.Unmapped (machine : Machine) (dirs : List Nat) (phys : Nat) : Prop :=
  ∀ dir ∈ dirs, ∀ page < USER_LAST, ∀ entry, machine.view dir page = some entry
    → frame entry ≠ phys

/-- All pages below the tables' own are as they were. -/
def SameView (dirs : List Nat) (machine after : Machine) : Prop :=
  ∀ dir ∈ dirs, ∀ page, page / 1024 < 1023 → after.view dir page = machine.view dir page

/-- The frames that were spent: on tables of the current directory, which had none at these
places, and `got` for data. The tables that were there stay, with what they permit.
-/
structure Spends (machine after : Machine) (tables got : List Nat) : Prop where
  frames : after.frames = machine.frames
  cr3 : after.cr3 = machine.cr3
  nodup : (tables ++ got).Nodup
  fresh
    : ∀ place ∈ tables ++ got, place % PAGE_SIZE = 0 ∧ place / PAGE_SIZE < machine.frames
      ∧ machine.free (place / PAGE_SIZE) = true
  free
    : ∀ page, after.free page = true
      ↔ machine.free page = true ∧ page * PAGE_SIZE ∉ tables ++ got
  stays
    : ∀ index < 1023, present (dirEntry machine.memory machine.cr3 index) = true
      → present (dirEntry after.memory machine.cr3 index) = true
        ∧ frame (dirEntry after.memory machine.cr3 index)
          = frame (dirEntry machine.memory machine.cr3 index)
        ∧ ((dirEntry machine.memory machine.cr3 index).testBit 2 = true
          → (dirEntry after.memory machine.cr3 index).testBit 2 = true)
  tables
    : ∀ table ∈ tables, ∃ index < KERNEL_PDE_START,
        present (dirEntry machine.memory machine.cr3 index) = false
        ∧ present (dirEntry after.memory machine.cr3 index) = true
        ∧ frame (dirEntry after.memory machine.cr3 index) = table

section

variable {dirs data : List Nat} {machine middle after : Machine}

theorem SameView.refl (machine : Machine) : SameView dirs machine machine := fun _ _ _ _ => rfl

variable {page : Nat}

theorem user_inside (user : page < USER_LAST) : page / 1024 < 1023 := by
  simp only [USER_LAST] at user
  omega

theorem user_table (user : page < USER_LAST) : page / 1024 < KERNEL_PDE_START := by
  simp only [USER_LAST] at user
  simp only [KERNEL_PDE_START]
  omega

theorem Changes.view {dirsChange pagesChange : Nat → Nat → Prop}
    (changes : Changes dirs dirsChange pagesChange machine.memory after.memory) {dir : Nat}
    (member : dir ∈ dirs) (inside : page / 1024 < 1023) (kept : ¬pagesChange dir page)
    : after.view dir page = machine.view dir page := by
  rw [Machine.view, changes.page dir member page inside kept, Machine.view]

theorem Machine.Unmapped.same {phys : Nat} (unmapped : machine.Unmapped dirs phys)
    (same : SameView dirs machine after)
    : after.Unmapped dirs phys := by
  intro dir member page user entry seen
  rw [same dir member page (user_inside user)] at seen
  exact unmapped dir member page user entry seen

theorem Spends.none (frames : after.frames = machine.frames) (cr3 : after.cr3 = machine.cr3)
    (free : after.free = machine.free)
    (directory
      : ∀ index < 1023,
          dirEntry after.memory machine.cr3 index = dirEntry machine.memory machine.cr3 index)
    : Spends machine after [] [] where
  frames := frames
  cr3 := cr3
  nodup := List.nodup_nil
  fresh := by simp
  free := by simp [free]
  stays index inside isPresent := by
    rw [directory index inside]
    exact ⟨isPresent, rfl, id⟩
  tables := by simp

theorem Spends.refl (machine : Machine) : Spends machine machine [] [] :=
  Spends.none rfl rfl rfl (fun _ _ => rfl)

theorem Spends.trans {firstTables secondTables first second : List Nat}
    (one : Spends machine middle firstTables first)
    (two : Spends middle after secondTables second)
    : Spends machine after (firstTables ++ secondTables) (first ++ second) := by
  have order : ((firstTables ++ first) ++ (secondTables ++ second)).Perm
      ((firstTables ++ secondTables) ++ (first ++ second)) := by
    rw [List.append_assoc, List.append_assoc]
    refine List.Perm.append_left firstTables ?_
    rw [← List.append_assoc, ← List.append_assoc]
    exact List.Perm.append_right second List.perm_append_comm
  refine ⟨two.frames.trans one.frames, two.cr3.trans one.cr3, order.nodup_iff.mp ?_, ?_, ?_, ?_,
    ?_⟩
  · refine List.nodup_append.mpr ⟨one.nodup, two.nodup, ?_⟩
    rintro place inOne other inTwo rfl
    obtain ⟨aligned, _, wasFree⟩ := two.fresh place inTwo
    have whole : place / PAGE_SIZE * PAGE_SIZE = place := by
      simp only [PAGE_SIZE] at aligned ⊢
      omega
    exact ((one.free _).mp wasFree).2 (whole.symm ▸ inOne)
  · intro place member
    rcases List.mem_append.mp (order.mem_iff.mpr member) with inOne | inTwo
    · exact one.fresh place inOne
    · obtain ⟨aligned, below, wasFree⟩ := two.fresh place inTwo
      rw [one.frames] at below
      exact ⟨aligned, below, ((one.free _).mp wasFree).1⟩
  · intro page
    rw [two.free, one.free, and_assoc, ← not_or, ← List.mem_append, order.mem_iff]
  · intro index inside isPresent
    obtain ⟨stays, same, permits⟩ := one.stays index inside isPresent
    have still := two.stays index inside
    rw [one.cr3] at still
    obtain ⟨staysToo, sameToo, permitsToo⟩ := still stays
    exact ⟨staysToo, sameToo.trans same, fun was => permitsToo (permits was)⟩
  · intro table member
    rcases List.mem_append.mp member with member | member
    · obtain ⟨index, user, absent, there, isFrame⟩ := one.tables table member
      have still := two.stays index (by simp only [KERNEL_PDE_START] at user; omega)
      rw [one.cr3] at still
      obtain ⟨stays, same, -⟩ := still there
      exact ⟨index, user, absent, stays, same.trans isFrame⟩
    · obtain ⟨index, user, absent, there, isFrame⟩ := two.tables table member
      rw [one.cr3] at absent there isFrame
      refine ⟨index, user, ?_, there, isFrame⟩
      by_contra was
      have isPresent : present (dirEntry machine.memory machine.cr3 index) = true := by
        simpa using was
      have stays := (one.stays index (by simp only [KERNEL_PDE_START] at user; omega)
        isPresent).1
      rw [absent] at stays
      cases stays

theorem countP_without {free : Nat → Bool} {frames : Nat} {spent : List Nat} (nodup : spent.Nodup)
    (fresh
      : ∀ place ∈ spent, place % PAGE_SIZE = 0 ∧ place / PAGE_SIZE < frames
        ∧ free (place / PAGE_SIZE) = true)
    : (List.range frames).countP (fun page => free page && decide (page * PAGE_SIZE ∉ spent))
        + spent.length
      = (List.range frames).countP free := by
  induction spent with
  | nil => simp
  | cons place spent ih =>
      obtain ⟨notIn, nodup⟩ := List.nodup_cons.mp nodup
      obtain ⟨aligned, below, isFree⟩ := fresh place (List.mem_cons_self ..)
      have rest := ih nodup (fun other member => fresh other (List.mem_cons_of_mem _ member))
      have whole : place / PAGE_SIZE * PAGE_SIZE = place := by
        simp only [PAGE_SIZE] at aligned ⊢
        omega
      have fewer := @countP_update
        (fun page => free page && decide (page * PAGE_SIZE ∉ spent)) _ _ below (by
          rw [isFree, whole]
          simpa using notIn)
      have same : (List.range frames).countP
          (fun page => free page && decide (page * PAGE_SIZE ∉ place :: spent))
          = (List.range frames).countP (Function.update
            (fun page => free page && decide (page * PAGE_SIZE ∉ spent)) (place / PAGE_SIZE)
            false) := by
        refine List.countP_congr ?_
        intro page _
        by_cases isPlace : page = place / PAGE_SIZE
        · subst isPlace
          simp [whole]
        · have apart : page * PAGE_SIZE ≠ place := by
            rintro rfl
            simp only [PAGE_SIZE] at isPlace
            omega
          rw [Function.update_of_ne isPlace]
          simp [apart]
      rw [List.length_cons]
      omega

theorem Spends.count {tables got : List Nat} (spends : Spends machine after tables got)
    : after.freeFrames + (tables ++ got).length = machine.freeFrames := by
  have left : after.freeFrames
      = (List.range machine.frames).countP
          (fun page => machine.free page && decide (page * PAGE_SIZE ∉ tables ++ got)) := by
    rw [Machine.freeFrames, spends.frames]
    refine List.countP_congr ?_
    intro page _
    rw [spends.free]
    simp
  rw [left]
  exact countP_without spends.nodup spends.fresh

/-- Frames taken for data are given back. -/
theorem Spends.giveBack {tables got : List Nat} (spends : Spends machine middle tables got)
    (frames : after.frames = middle.frames) (cr3 : after.cr3 = middle.cr3)
    (free : ∀ page, after.free page = true ↔ middle.free page = true ∨ page * PAGE_SIZE ∈ got)
    (directory
      : ∀ index < 1023,
          dirEntry after.memory machine.cr3 index = dirEntry middle.memory machine.cr3 index)
    : Spends machine after tables [] where
  frames := frames.trans spends.frames
  cr3 := cr3.trans spends.cr3
  nodup := by
    rw [List.append_nil]
    exact (List.nodup_append.mp spends.nodup).1
  fresh place member := by
    rw [List.append_nil] at member
    exact spends.fresh place (List.mem_append_left _ member)
  free page := by
    rw [free, spends.free, List.append_nil, List.mem_append, not_or]
    constructor
    · rintro (⟨wasFree, notTable, -⟩ | inGot)
      · exact ⟨wasFree, notTable⟩
      · have whole : page * PAGE_SIZE / PAGE_SIZE = page := by
          simp only [PAGE_SIZE]
          omega
        have fresh := spends.fresh _ (List.mem_append_right _ inGot)
        rw [whole] at fresh
        refine ⟨fresh.2.2, fun inTables => ?_⟩
        exact (List.nodup_append.mp spends.nodup).2.2 _ inTables _ inGot rfl
    · rintro ⟨wasFree, notTable⟩
      by_cases inGot : page * PAGE_SIZE ∈ got
      · exact Or.inr inGot
      · exact Or.inl ⟨wasFree, notTable, inGot⟩
  stays index inside isPresent := by
    rw [directory index inside]
    exact spends.stays index inside isPresent
  tables table member := by
    obtain ⟨index, user, absent, there, isFrame⟩ := spends.tables table member
    refine ⟨index, user, absent, ?_⟩
    rw [directory index (Nat.lt_trans user (by decide))]
    exact ⟨there, isFrame⟩

theorem vmmGetPhys_eq (recursive : Recursive machine.memory machine.cr3) {virt : Nat}
    (inside : virt / 2 ^ 22 < 1024)
    : vmmGetPhys machine virt
      = some (match machine.view machine.cr3 (virt / 2 ^ 12) with
        | some entry => frame entry
        | none => 0) := by
  have whole : virt / 2 ^ 22 * 1024 + virt / 2 ^ 12 % 1024 = virt / 2 ^ 12 := by omega
  have high : virt / 2 ^ 12 / 1024 = virt / 2 ^ 22 := by omega
  rw [vmmGetPhys, Machine.reads_dir recursive inside]
  simp only [Option.bind_eq_bind, Option.bind_some]
  by_cases isPresent : present (dirEntry machine.memory machine.cr3 (virt / 2 ^ 22)) = true
  · have there : ¬present (dirEntry machine.memory machine.cr3 (virt / 2 ^ 22)) = false := by
      rw [isPresent]
      decide
    rw [if_neg there, Machine.reads_page recursive inside (by omega) isPresent, whole,
      Option.bind_some, Machine.view]
    cases present (pageEntry machine.memory machine.cr3 (virt / 2 ^ 12)) <;> rfl
  · have absent : present (dirEntry machine.memory machine.cr3 (virt / 2 ^ 22)) = false := by
      simpa using isPresent
    have none : machine.view machine.cr3 (virt / 2 ^ 12) = none := by
      rw [Machine.view, pageEntry, high]
      simp only [absent, Bool.false_eq_true, if_false, present_zero]
    rw [if_pos absent, none]

end

-- The entry of the directory above a page that is mapped

section

variable {dirs data : List Nat} {machine middle after : Machine}

def newTable (page flags : Nat) : Nat :=
  page * 4096 ||| (PAGE_PRESENT ||| PAGE_RW ||| (flags &&& PAGE_USER))

/-- What `vmm_map` makes of the entry of the directory: it is kept, with the user bit added where
that is asked for; or there is no frame for a table; or a free frame becomes one.
-/
def TableStep (machine after : Machine) (index flags : Nat) : Prop :=
  (present (dirEntry machine.memory machine.cr3 index) = true
    ∧ dirEntry after.memory machine.cr3 index
      = (if flags &&& PAGE_USER ≠ 0 then
          dirEntry machine.memory machine.cr3 index ||| PAGE_USER
        else dirEntry machine.memory machine.cr3 index)
    ∧ after.frames = machine.frames ∧ after.free = machine.free)
  ∨ (present (dirEntry machine.memory machine.cr3 index) = false
    ∧ (∀ page < machine.frames, machine.free page = false)
    ∧ dirEntry after.memory machine.cr3 index = dirEntry machine.memory machine.cr3 index
    ∧ after.frames = machine.frames ∧ after.free = machine.free)
  ∨ (present (dirEntry machine.memory machine.cr3 index) = false
    ∧ ∃ page < machine.frames, machine.free page = true ∧ page ≠ 0
      ∧ dirEntry after.memory machine.cr3 index = newTable page flags
      ∧ after.frames = machine.frames
      ∧ after.free = Function.update machine.free page false)

variable {flags : Nat}

theorem Machine.Sound.provideTable_step {index : Nat} {provided : Bool}
    (sound : machine.Sound dirs data) (inside : index < 1023)
    (provides : Vmm.provideTable machine index flags = some (provided, after))
    : TableStep machine after index flags := by
  by_cases absent : present (dirEntry machine.memory machine.cr3 index) = false
  · rcases pmmAllocp_spec sound.paged.zero with
      ⟨none, failed⟩ | ⟨page, below, isFree, notZero, allocated⟩
    · rw [Vmm.provideTable, sound.readsEntry (by omega)] at provides
      simp only [absent, if_pos, failed] at provides
      obtain ⟨rfl, rfl⟩ : false = provided ∧ { machine with cursor := 0 } = after := by
        simpa using provides
      exact Or.inr (Or.inl ⟨absent, none, rfl, rfl, rfl⟩)
    · rw [sound.provideTable_new inside below isFree absent allocated] at provides
      obtain ⟨rfl, rfl⟩ := Prod.mk.inj (Option.some.inj provides)
      have small := sound.small
      obtain ⟨flagsSmall, flagsPresent⟩ := tableFlags flags
      obtain ⟨_, _, entry⟩ := sound.paged.addTable sound.current inside absent isFree
        (by omega) flagsSmall flagsPresent
      exact Or.inr (Or.inr ⟨absent, page, below, isFree, notZero, entry, rfl, rfl⟩)
  · have isPresent : present (dirEntry machine.memory machine.cr3 index) = true := by
      simpa using absent
    rw [Vmm.provideTable, sound.readsEntry (by omega)] at provides
    simp only [if_neg absent] at provides
    by_cases forUser : flags &&& PAGE_USER ≠ 0
    · rw [if_pos forUser, Machine.writeWord, sound.directory (by omega)] at provides
      have small : dirEntry machine.memory machine.cr3 index ||| PAGE_USER < 2 ^ 32 :=
        Nat.or_lt_two_pow (machine.memory.word_lt _) (by decide)
      obtain ⟨_, _, entry⟩ := sound.paged.permit sound.current inside small
        (frame_or_low _ (by decide)) (present_or_user _)
      obtain ⟨rfl, rfl⟩ : true = provided ∧ { machine with
          memory := machine.memory.setWord (machine.cr3 + 4 * index)
            (dirEntry machine.memory machine.cr3 index ||| PAGE_USER) } = after := by
        simpa using provides
      refine Or.inl ⟨isPresent, ?_, rfl, rfl⟩
      rw [if_pos forUser]
      exact entry
    · rw [if_neg forUser] at provides
      obtain ⟨rfl, rfl⟩ : true = provided ∧ machine = after := by
        simpa using provides
      refine Or.inl ⟨isPresent, ?_, rfl, rfl⟩
      rw [if_neg forUser]

theorem Machine.Sound.map_table {virt phys : Nat} (sound : machine.Sound dirs data)
    (inside : virt / 2 ^ 22 < 1023) (maps : vmmMap machine virt phys flags = some after)
    : TableStep machine after (virt / 2 ^ 22) flags := by
  have logged : ({ machine with mapped := machine.mapped ++ [(machine.cr3, virt)] }
      : Machine).Sound dirs data := ⟨sound.paged, sound.small, sound.current⟩
  simp only [vmmMap] at maps
  split at maps
  · cases maps
  · rename_i middle provides
    obtain rfl := Option.some.inj maps
    exact logged.provideTable_step inside provides
  · rename_i middle provides
    obtain ⟨soundMiddle, sameCr3, _, _, provided⟩ := logged.provideTable inside provides
    have step := logged.provideTable_step inside provides
    have stays := soundMiddle.paged.store (phys ||| flags ||| PAGE_PRESENT)
      soundMiddle.current inside (by omega : virt / 2 ^ 12 % 1024 < 1024) provided
    rw [Machine.writeWord, soundMiddle.table (by omega) (by omega) provided] at maps
    obtain rfl : { middle with
        memory := middle.memory.setWord
          (frame (dirEntry middle.memory middle.cr3 (virt / 2 ^ 22))
            + 4 * (virt / 2 ^ 12 % 1024))
          (phys ||| flags ||| PAGE_PRESENT) } = after := by
      simpa using maps
    have there := stays.2.1.directory _ soundMiddle.current (virt / 2 ^ 22) (by omega)
      (fun no => no)
    simp only at sameCr3
    rw [sameCr3] at there
    simp only [TableStep] at step ⊢
    rw [sameCr3, there]
    exact step

theorem newTable_frame {page : Nat} : frame (newTable page flags) = page * 4096 :=
  (frame_or (by omega) (tableFlags flags).1).1

theorem newTable_present {page : Nat} : present (newTable page flags) = true := by
  rw [newTable, present_or (by omega) (tableFlags flags).1, (tableFlags flags).2]

end

end Panuti.Vmm
