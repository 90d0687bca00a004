import Panuti.Memory.Maps

/-! Which frames the allocator hands out, call by call, and which bytes mapping leaves alone: those
of the frames that hold data, and those of the frames that stay free.
-/

namespace Panuti.Vmm

open ByteMemory PageTable

-- The frames in the order of the calls

structure Machine.SameFrames (one two : Machine) : Prop where
  frames : one.frames = two.frames
  free : one.free = two.free
  cursor : one.cursor = two.cursor

/-- The machine after this many calls of `pmm_allocp`. -/
def Machine.afterCalls (machine : Machine) : Nat → Machine
  | 0 => machine
  | calls + 1 => (pmmAllocp (machine.afterCalls calls)).2

/-- What the calls return, the first of them being call 0. -/
def Machine.handed (machine : Machine) (call : Nat) : Nat :=
  (pmmAllocp (machine.afterCalls call)).1

def Machine.freeFrames (machine : Machine) : Nat :=
  (List.range machine.frames).countP machine.free

section Calls

variable {machine one two : Machine}

theorem Machine.SameFrames.refl (machine : Machine) : machine.SameFrames machine :=
  ⟨rfl, rfl, rfl⟩

theorem Machine.SameFrames.trans {three : Machine} (first : one.SameFrames two)
    (second : two.SameFrames three)
    : one.SameFrames three :=
  ⟨first.frames.trans second.frames, first.free.trans second.free,
    first.cursor.trans second.cursor⟩

theorem Machine.SameFrames.take (same : one.SameFrames two) (page : Nat)
    : (one.take page).SameFrames (two.take page) :=
  ⟨same.frames, by simp only [Machine.take, same.free], rfl⟩

theorem Machine.SameFrames.allocp (same : one.SameFrames two)
    : (pmmAllocp one).1 = (pmmAllocp two).1 ∧ (pmmAllocp one).2.SameFrames (pmmAllocp two).2 := by
  have search (first : Nat) : one.firstFree first = two.firstFree first := by
    rw [Machine.firstFree, Machine.firstFree, same.frames, same.free]
  unfold pmmAllocp
  rw [search, search, same.cursor]
  cases two.firstFree two.cursor with
  | some page => exact ⟨rfl, same.take page⟩
  | none =>
      cases two.firstFree 0 with
      | some page => exact ⟨rfl, same.take page⟩
      | none => exact ⟨rfl, same.frames, same.free, rfl⟩

/-- `pmm_allocp` finds a free frame if and only if there is one. -/
theorem pmmAllocp_spec (zero : machine.free 0 = false)
    : ((∀ page < machine.frames, machine.free page = false)
        ∧ pmmAllocp machine = (0, { machine with cursor := 0 }))
      ∨ ∃ page < machine.frames, machine.free page = true ∧ page ≠ 0
        ∧ pmmAllocp machine = (page * PAGE_SIZE, machine.take page) := by
  rcases pmmAllocp_cases machine with failed | ⟨page, below, isFree, allocated⟩
  · refine Or.inl ⟨?_, failed⟩
    intro page below
    by_contra isFree
    have isFree : machine.free page = true := by simpa using isFree
    unfold pmmAllocp at failed
    split at failed
    · rename_i other first
      have found := List.find?_some first
      have notZero : other ≠ 0 := by
        rintro rfl
        rw [zero] at found
        cases found
      have isZero := congrArg Prod.fst failed
      simp only [PAGE_SIZE] at isZero
      omega
    · split at failed
      · rename_i other first
        have found := List.find?_some first
        have notZero : other ≠ 0 := by
          rintro rfl
          rw [zero] at found
          cases found
        have isZero := congrArg Prod.fst failed
        simp only [PAGE_SIZE] at isZero
        omega
      · rename_i nothing
        have none := List.find?_eq_none.mp nothing page
          (List.mem_range'_1.mpr ⟨Nat.zero_le _, by omega⟩)
        exact none isFree
  · refine Or.inr ⟨page, below, isFree, ?_, allocated⟩
    rintro rfl
    rw [zero] at isFree
    cases isFree

theorem countP_update {free : Nat → Bool} {page frames : Nat} (below : page < frames)
    (isFree : free page = true)
    : (List.range frames).countP (Function.update free page false) + 1
      = (List.range frames).countP free := by
  induction frames with
  | zero => omega
  | succ frames ih =>
      simp only [List.range_succ, List.countP_append, List.countP_singleton]
      by_cases last : page = frames
      · subst last
        have others : (List.range page).countP (Function.update free page false)
            = (List.range page).countP free := by
          refine List.countP_congr ?_
          intro other member
          have different : other ≠ page := Nat.ne_of_lt (List.mem_range.mp member)
          rw [Function.update_of_ne different]
        rw [others, Function.update_self, isFree]
        rfl
      · have fewer := ih (by omega)
        rw [Function.update_of_ne (fun is => last is.symm)]
        omega

theorem Machine.afterCalls_succ (machine : Machine) (calls : Nat)
    : machine.afterCalls (calls + 1) = (pmmAllocp machine).2.afterCalls calls := by
  induction calls with
  | zero => rfl
  | succ calls ih =>
      rw [Machine.afterCalls, ih]
      rfl

/-- There are as many frames to hand out as are free. -/
theorem Machine.handed_ne_zero_iff (zero : machine.free 0 = false) (call : Nat)
    : machine.handed call ≠ 0 ↔ call < machine.freeFrames := by
  induction call generalizing machine with
  | zero =>
      rcases pmmAllocp_spec zero with ⟨none, failed⟩ | ⟨page, below, isFree, notZero, allocated⟩
      · have empty : machine.freeFrames = 0 := by
          rw [Machine.freeFrames, List.countP_eq_zero]
          intro page member
          simp [none page (List.mem_range.mp member)]
        simp [Machine.handed, Machine.afterCalls, failed, empty]
      · have fewer := countP_update below isFree
        have isSome : page * PAGE_SIZE ≠ 0 := by
          simp only [PAGE_SIZE]
          omega
        simp only [Machine.handed, Machine.afterCalls, allocated, Machine.freeFrames]
        omega
  | succ call ih =>
      rw [Machine.handed, Machine.afterCalls_succ]
      rcases pmmAllocp_spec zero with ⟨none, failed⟩ | ⟨page, below, isFree, notZero, allocated⟩
      · have empty : machine.freeFrames = 0 := by
          rw [Machine.freeFrames, List.countP_eq_zero]
          intro page member
          simp [none page (List.mem_range.mp member)]
        have same : ({ machine with cursor := 0 } : Machine).freeFrames = 0 := empty
        have rest := @ih { machine with cursor := 0 } zero
        rw [same] at rest
        rw [failed, empty]
        simpa [Machine.handed] using rest
      · have still : (machine.take page).free 0 = false := by
          have same : (machine.take page).free 0 = machine.free 0 :=
            Function.update_of_ne (fun is => notZero is.symm) _ _
          rw [same, zero]
        have fewer : (machine.take page).freeFrames + 1 = machine.freeFrames :=
          countP_update below isFree
        have rest := ih still
        rw [allocated]
        rw [Machine.handed] at rest
        rw [rest]
        omega

theorem Machine.SameFrames.next {calls : Nat} (same : one.SameFrames (two.afterCalls calls))
    : (pmmAllocp one).1 = two.handed calls
      ∧ (pmmAllocp one).2.SameFrames (two.afterCalls (calls + 1)) :=
  same.allocp

end Calls

-- The bytes that mapping leaves alone

/-- The frames that hold data keep their bytes, and so do those that stay free; no frame is given
back.
-/
structure Keeps (data : List Nat) (machine after : Machine) : Prop where
  frames : after.frames = machine.frames
  taken : ∀ page, after.free page = true → machine.free page = true
  bytes
    : ∀ place,
        (place / 4096 * 4096 ∈ data ∨ after.free (place / 4096) = true)
        → after.memory place = machine.memory place

section Keeping

variable {dirs data : List Nat} {machine middle after : Machine}

theorem Keeps.refl (machine : Machine) : Keeps data machine machine :=
  ⟨rfl, fun _ isFree => isFree, fun _ _ => rfl⟩

theorem Keeps.trans (first : Keeps data machine middle) (second : Keeps data middle after)
    : Keeps data machine after where
  frames := second.frames.trans first.frames
  taken page isFree := first.taken page (second.taken page isFree)
  bytes place kept :=
    (second.bytes place kept).trans (first.bytes place (kept.imp_right (second.taken _)))

theorem Keeps.setWord {base offset : Nat} (value : Nat) (aligned : base % 4096 = 0)
    (within : offset < 1024) (notData : base ∉ data) (isTaken : machine.free (base / 4096) = false)
    : Keeps data machine
        { machine with memory := machine.memory.setWord (base + 4 * offset) value } := by
  refine ⟨rfl, fun _ isFree => isFree, ?_⟩
  intro place kept
  refine Memory.setWord_other _ ?_
  by_contra inside
  have frame : place / 4096 * 4096 = base := by omega
  have page : place / 4096 = base / 4096 := by omega
  rw [frame, page] at kept
  rcases kept with inData | isFree
  · exact notData inData
  · rw [isTaken] at isFree
    cases isFree

variable {index flags : Nat}

/-- A free frame becomes a table. -/
theorem Keeps.newTable {page : Nat} (sound : machine.Sound dirs data) (inside : index < 1024)
    (isFree : machine.free page = true)
    : Keeps data machine { machine.take page with
        memory := withTable machine.memory machine.cr3 index (page * 4096) flags } := by
  obtain ⟨aligned, _, isTaken, _⟩ := sound.paged.rooted _ sound.current
  have notData : machine.cr3 ∉ data := fun inData =>
    (sound.paged.filled _ inData).2.2.2 sound.current
  obtain ⟨_, fresh, _⟩ := sound.paged.fresh isFree
  have dirNotFree : machine.cr3 / 4096 ≠ page := by
    rintro rfl
    rw [isTaken] at isFree
    cases isFree
  have still (other : Nat) (stays : (machine.take page).free other = true)
      : other ≠ page ∧ machine.free other = true := by
    by_cases same : other = page
    · rw [same] at stays
      simp [Machine.take] at stays
    · have unchanged : (machine.take page).free other = machine.free other :=
        Function.update_of_ne same _ _
      rw [unchanged] at stays
      exact ⟨same, stays⟩
  refine ⟨rfl, fun other stays => (still other stays).2, ?_⟩
  intro place kept
  have apart : place / 4096 ≠ page ∧ place / 4096 ≠ machine.cr3 / 4096 := by
    rcases kept with inData | stays
    · constructor
      · intro same
        rw [same] at inData
        exact fresh inData
      · intro same
        have frame : place / 4096 * 4096 = machine.cr3 := by omega
        rw [frame] at inData
        exact notData inData
    · obtain ⟨different, wasFree⟩ := still _ stays
      refine ⟨different, ?_⟩
      intro same
      rw [same, isTaken] at wasFree
      cases wasFree
  simp only [withTable]
  rw [Memory.fill_other _ (by omega), Memory.setWord_other _ (by omega)]

theorem Machine.Sound.provideTable_frames {provided : Bool} (sound : machine.Sound dirs data)
    (inside : index < 1023)
    (provides : Vmm.provideTable machine index flags = some (provided, after))
    : Keeps data machine after
      ∧ (present (dirEntry machine.memory machine.cr3 index) = true
        → provided = true ∧ after.SameFrames machine)
      ∧ (present (dirEntry machine.memory machine.cr3 index) = false
        → after.SameFrames (pmmAllocp machine).2
          ∧ (provided = true ↔ (pmmAllocp machine).1 ≠ 0)) := by
  by_cases absent : present (dirEntry machine.memory machine.cr3 index) = false
  · rw [absent]
    rcases pmmAllocp_spec sound.paged.zero with
      ⟨none, failed⟩ | ⟨page, below, isFree, notZero, allocated⟩
    · rw [Vmm.provideTable, sound.readsEntry (by omega)] at provides
      simp only [absent, if_pos, failed] at provides
      obtain ⟨rfl, rfl⟩ : false = provided ∧ { machine with cursor := 0 } = after := by
        simpa using provides
      rw [failed]
      exact ⟨⟨rfl, fun _ isFree => isFree, fun _ _ => rfl⟩, by rintro ⟨⟩,
        fun _ => ⟨⟨rfl, rfl, rfl⟩, by simp⟩⟩
    · rw [sound.provideTable_new inside below isFree absent allocated] at provides
      obtain ⟨rfl, rfl⟩ := Prod.mk.inj (Option.some.inj provides)
      have isSome : page * PAGE_SIZE ≠ 0 := by
        simp only [PAGE_SIZE]
        omega
      rw [allocated]
      exact ⟨Keeps.newTable sound (by omega) isFree, by rintro ⟨⟩,
        fun _ => ⟨⟨rfl, rfl, rfl⟩, by simp [isSome]⟩⟩
  · have isPresent : present (dirEntry machine.memory machine.cr3 index) = true := by
      simpa using absent
    rw [Vmm.provideTable, sound.readsEntry (by omega)] at provides
    simp only [if_neg absent] at provides
    rw [isPresent]
    split at provides
    · obtain ⟨aligned, _, isTaken, _⟩ := sound.paged.rooted _ sound.current
      have notData : machine.cr3 ∉ data := fun inData =>
        (sound.paged.filled _ inData).2.2.2 sound.current
      rw [Machine.writeWord, sound.directory (by omega)] at provides
      obtain ⟨rfl, rfl⟩ : true = provided ∧ { machine with
          memory := machine.memory.setWord (machine.cr3 + 4 * index)
            (dirEntry machine.memory machine.cr3 index ||| PAGE_USER) } = after := by
        simpa using provides
      exact ⟨Keeps.setWord _ aligned (by omega) notData isTaken,
        fun _ => ⟨rfl, rfl, rfl, rfl⟩, by rintro ⟨⟩⟩
    · obtain ⟨rfl, rfl⟩ : true = provided ∧ machine = after := by
        simpa using provides
      exact ⟨Keeps.refl _, fun _ => ⟨rfl, rfl, rfl, rfl⟩, by rintro ⟨⟩⟩

theorem Keeps.store {offset : Nat} (value : Nat) (sound : machine.Sound dirs data)
    (inside : index < 1023) (within : offset < 1024)
    (isPresent : present (dirEntry machine.memory machine.cr3 index) = true)
    : Keeps data machine { machine with
        memory := machine.memory.setWord
          (frame (dirEntry machine.memory machine.cr3 index) + 4 * offset) value } := by
  obtain ⟨isTaken, _, notData⟩ := sound.paged.tables _ sound.current index inside isPresent
  exact Keeps.setWord value (frame_aligned _) within notData isTaken

/-- `vmm_map` calls the allocator at most once, for a table that is missing. -/
theorem Machine.Sound.map_frames {virt phys : Nat} (sound : machine.Sound dirs data)
    (inside : virt / 2 ^ 22 < 1023) (maps : vmmMap machine virt phys flags = some after)
    : Keeps data machine after
      ∧ (present (dirEntry machine.memory machine.cr3 (virt / 2 ^ 22)) = true
        → present (dirEntry after.memory machine.cr3 (virt / 2 ^ 22)) = true
          ∧ after.SameFrames machine)
      ∧ (present (dirEntry machine.memory machine.cr3 (virt / 2 ^ 22)) = false
        → after.SameFrames (pmmAllocp machine).2
          ∧ (present (dirEntry after.memory machine.cr3 (virt / 2 ^ 22)) = true
            ↔ (pmmAllocp machine).1 ≠ 0)) := by
  have logged : ({ machine with mapped := machine.mapped ++ [(machine.cr3, virt)] }
      : Machine).Sound dirs data := ⟨sound.paged, sound.small, sound.current⟩
  have sameLogged : ({ machine with mapped := machine.mapped ++ [(machine.cr3, virt)] }
      : Machine).SameFrames machine := ⟨rfl, rfl, rfl⟩
  have allocates := sameLogged.allocp
  simp only [vmmMap] at maps
  split at maps
  · cases maps
  · rename_i middle provides
    obtain rfl := Option.some.inj maps
    obtain ⟨_, sameCr3, _, _, provided⟩ := logged.provideTable inside provides
    obtain ⟨keeps, was, wasNot⟩ := logged.provideTable_frames inside provides
    simp only at sameCr3
    rw [sameCr3] at provided
    rw [provided]
    refine ⟨⟨keeps.frames, keeps.taken, keeps.bytes⟩, fun isPresent => ?_, fun absent => ?_⟩
    · exact absurd (was isPresent).1 (by decide)
    · obtain ⟨same, gives⟩ := wasNot absent
      rw [allocates.1] at gives
      exact ⟨same.trans allocates.2, gives⟩
  · rename_i middle provides
    obtain ⟨soundMiddle, sameCr3, _, _, provided⟩ := logged.provideTable inside provides
    obtain ⟨keeps, was, wasNot⟩ := logged.provideTable_frames inside provides
    have stays := soundMiddle.paged.store (phys ||| flags ||| PAGE_PRESENT)
      soundMiddle.current inside (by omega : virt / 2 ^ 12 % 1024 < 1024) provided
    have stores := Keeps.store (phys ||| flags ||| PAGE_PRESENT) soundMiddle inside
      (by omega : virt / 2 ^ 12 % 1024 < 1024) provided
    rw [Machine.writeWord, soundMiddle.table (by omega) (by omega) provided] at maps
    obtain rfl : { middle with
        memory := middle.memory.setWord
          (frame (dirEntry middle.memory middle.cr3 (virt / 2 ^ 22))
            + 4 * (virt / 2 ^ 12 % 1024))
          (phys ||| flags ||| PAGE_PRESENT) } = after := by
      simpa using maps
    have there := stays.2.1.directory _ soundMiddle.current (virt / 2 ^ 22) (by omega)
      (fun no => no)
    simp only at sameCr3
    rw [sameCr3] at there provided stores
    simp only [sameCr3]
    rw [there, provided]
    have keepsAll := (show Keeps data machine middle from
      ⟨keeps.frames, keeps.taken, keeps.bytes⟩).trans stores
    refine ⟨keepsAll, fun isPresent => ?_, fun absent => ?_⟩
    · have same := (was isPresent).2
      exact ⟨rfl, same.frames, same.free, same.cursor⟩
    · obtain ⟨same, gives⟩ := wasNot absent
      rw [allocates.1] at gives
      have sameAll := same.trans allocates.2
      exact ⟨⟨sameAll.frames, sameAll.free, sameAll.cursor⟩, gives⟩

theorem Machine.Sound.unmap_frames {virt : Nat} (sound : machine.Sound dirs data)
    (inside : virt / 2 ^ 22 < 1023) (unmaps : vmmUnmap machine virt = some after)
    : Keeps data machine after ∧ after.SameFrames machine := by
  rw [vmmUnmap, sound.readsEntry (by omega)] at unmaps
  simp only [] at unmaps
  split at unmaps
  · obtain rfl := Option.some.inj unmaps
    exact ⟨Keeps.refl _, rfl, rfl, rfl⟩
  · rename_i isPresent
    have isPresent : present (dirEntry machine.memory machine.cr3 (virt / 2 ^ 22)) = true := by
      simpa using isPresent
    rw [Machine.writeWord, sound.table (by omega) (by omega) isPresent] at unmaps
    obtain rfl : { machine with
        memory := machine.memory.setWord
          (frame (dirEntry machine.memory machine.cr3 (virt / 2 ^ 22))
            + 4 * (virt / 2 ^ 12 % 1024)) 0 } = after := by
      simpa using unmaps
    exact ⟨Keeps.store 0 sound inside (by omega) isPresent, rfl, rfl, rfl⟩

end Keeping

end Panuti.Vmm
