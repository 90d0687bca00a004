import Panuti.Elf.ImageSteps

/-! When a loaded image has its contents. The frames of its pages are those the plan says, each
filled with the bytes of its segment over what it held before; what a page has beside these bytes is
right only where the frame happened to hold it.
-/

namespace Panuti.Elf

open ByteMemory PageTable Panuti.Vmm

variable {dirs data : List Nat} {start machine after : Machine} {image : List UInt8} {seg : Segment}
  {addrSpace : Nat} {plan : Plan}

/-- Segments were loaded into a new address space as planned. -/
structure Loaded (start : Machine) (image : List UInt8) (addrSpace : Nat) (plan : Plan)
    (dirs data : List Nat) (machine : Machine) : Prop where
  sound : machine.Sound dirs data
  cr3 : machine.cr3 = start.cr3
  calls : machine.SameFrames (start.afterCalls plan.calls)
  tables
    : ∀ index < KERNEL_PDE_START,
        present (dirEntry machine.memory addrSpace index) = true ↔ index ∈ plan.tables
  scratch
    : (ScratchTable machine ∧ plan.scratch = if hasScratch start then 0 else 1)
      ∨ (¬ScratchTable machine ∧ plan.scratch = 0 ∧ hasScratch start = false)
      ∨ Exhausted machine
  pages
    : ∀ page < KERNEL_PDE_START * 1024,
        pageEntry machine.memory addrSpace page
        = match plan.frameOf page with
          | none => 0
          | some placed => start.handed placed.call ||| placed.seg.mapFlags ||| PAGE_PRESENT
  placed
    : ∀ placed ∈ plan.placed,
        start.handed placed.call ∈ data
        ∧ ∀ o < 4096, machine.memory (start.handed placed.call + o)
          = if placed.seg.Has (placed.page * PAGE_SIZE + o) then
              placed.seg.byte image (placed.page * PAGE_SIZE + o)
            else start.memory (start.handed placed.call + o)
  fresh : ∀ place, machine.free (place / 4096) = true → machine.memory place = start.memory place
  enough : plan.needed ≤ start.freeFrames
  ordered : plan.needed ≤ plan.calls ∧ plan.scratch ≤ if hasScratch start then 0 else 1

-- The plan of one segment

/-- The frame of a page, after a segment is added. -/
theorem frameOf_segment (hasScratch : Bool) (plan : Plan) (seg : Segment) (page : Nat)
    : (plan.segment hasScratch seg).frameOf page
      = if seg.pageStart / PAGE_SIZE ≤ page ∧ page < seg.pageStart / PAGE_SIZE + seg.numPages then
          some ⟨page, plan.calls + (page - seg.pageStart / PAGE_SIZE), seg⟩
        else plan.frameOf page := by
  by_cases nothing : seg.numPages = 0
  · rw [Plan.segment, if_pos nothing, if_neg (by omega)]
  · rw [Plan.segment, if_neg nothing]
    simp only [Plan.frameOf, List.find?_append]
    generalize seg.pageStart / PAGE_SIZE = first
    by_cases inside : first ≤ page ∧ page < first + seg.numPages
    · rw [if_pos inside]
      have found : ((List.range seg.numPages).map
          (fun p => Placed.mk (first + p) (plan.calls + p) seg)).find? (fun placed =>
            placed.page == page) = some ⟨page, plan.calls + (page - first), seg⟩ := by
        rw [List.find?_eq_some_iff_getElem]
        refine ⟨by simp, page - first, by simp; omega, ?_, ?_⟩
        · simp only [List.getElem_map, List.getElem_range, Placed.mk.injEq, and_true]
          omega
        · intro p before
          simp only [List.getElem_map, List.getElem_range, Bool.not_eq_true', beq_eq_false_iff_ne]
          omega
      rw [found]
      rfl
    · rw [if_neg inside]
      have none : ((List.range seg.numPages).map
          (fun p => Placed.mk (first + p) (plan.calls + p) seg)).find? (fun placed =>
            placed.page == page) = none := by
        rw [List.find?_eq_none]
        intro placed member
        obtain ⟨p, inRange, rfl⟩ := List.mem_map.mp member
        have := List.mem_range.mp inRange
        simp only [beq_iff_eq]
        omega
      rw [none]
      rfl

theorem mapFlags_small (seg : Segment)
    : seg.mapFlags ||| PAGE_PRESENT < 4096 ∧ present (seg.mapFlags ||| PAGE_PRESENT) = true := by
  unfold Segment.mapFlags
  split <;> decide

-- One segment

/-- A page of the segment is left without a table, for want of frames. -/
structure Short (start : Machine) (addrSpace limit : Nat) (seg : Segment) (machine : Machine)
    : Prop where
  exhausted : Exhausted machine
  zero : machine.free 0 = false
  page
    : ∃ p < seg.numPages,
        present (dirEntry machine.memory addrSpace ((seg.pageStart / PAGE_SIZE + p) / 1024)) = false
  few : start.freeFrames < limit

theorem loadSegment_nothing (nothing : seg.numPages = 0)
    (loads : loadSegment machine addrSpace image seg = some (true, after))
    : machine = after := by
  simp only [loadSegment] at loads
  split at loads
  · simp at loads
  · rw [nothing] at loads
    simp only [allocFrames, vmmMapInRun, or_true, if_pos, fillFrames, Option.map_some] at loads
    exact (Prod.mk.inj (Option.some.inj loads)).2

theorem loadSegment_exhausted (exhausted : Exhausted machine) (zero : machine.free 0 = false)
    (loads : loadSegment machine addrSpace image seg = some (true, after))
    : seg.numPages = 0 ∧ machine = after := by
  by_cases nothing : seg.numPages = 0
  · exact ⟨nothing, loadSegment_nothing nothing loads⟩
  · obtain ⟨pages, isPages⟩ := Nat.exists_eq_succ_of_ne_zero nothing
    have failed := exhausted.allocp zero
    simp only [loadSegment] at loads
    split at loads
    · simp at loads
    · simp only [isPages, allocFrames, failed, if_pos] at loads
      simp at loads

/-- One more segment is loaded as planned, or one of its pages is left without a table. -/
theorem Loaded.segment (loaded : Loaded start image addrSpace plan dirs data machine)
    (zero : start.free 0 = false) (member : addrSpace ∈ dirs)
    (low : USER_SPACE_BASE ≤ seg.vaddr) (high : seg.vaddr + seg.memsz ≤ USER_SPACE_END)
    (inFile : seg.offset + seg.filesz ≤ image.length) (size : image.length < 2 ^ 32)
    (loads : loadSegment machine addrSpace image seg = some (true, after))
    : (∃ data', Loaded start image addrSpace (plan.segment (hasScratch start) seg) dirs data' after)
      ∨ Short start addrSpace (plan.segment (hasScratch start) seg).needed seg after := by
  by_cases nothing : seg.numPages = 0
  · obtain rfl := loadSegment_nothing nothing loads
    rw [Plan.segment, if_pos nothing]
    exact Or.inl ⟨data, loaded⟩
  obtain ⟨inUser, begins, aligned, inPage⟩ := Segment.inUserSpace_of_range low high
  have range := inUser.resolve_left nothing
  simp only [loadSegment] at loads
  split at loads
  · simp at loads
  split at loads
  · simp at loads
  rename_i frames allocated allocates
  obtain ⟨taken, callsAllocated, memory, cr3, less, distinct, fresh, data', soundAllocated,
    members⟩ := allocFrames_placed loaded.sound loaded.calls allocates
  rw [List.nil_append] at taken
  rw [← taken] at distinct fresh members
  have length : frames.length = seg.numPages := by rw [taken, List.length_map, List.length_range']
  have notNil : frames ≠ [] := by
    intro empty
    rw [empty] at length
    exact nothing length.symm
  split at loads
  · cases loads
  rename_i run maps
  have notZero := (loaded.sound.paged.rooted _ member).2.1
  rw [vmmMapInRun, if_neg (fun either => either.elim notZero notNil)] at maps
  obtain ⟨mappedRun, runs, rfl⟩ := Option.map_eq_some_iff.mp maps
  obtain ⟨filled, fills, isAfter⟩ := Option.map_eq_some_iff.mp loads
  obtain rfl : filled = after := (Prod.mk.inj isAfter).2
  generalize isFirst : seg.pageStart / PAGE_SIZE = first at *
  have startsAt : seg.pageStart = first * PAGE_SIZE := by
    simp only [PAGE_SIZE] at aligned isFirst ⊢
    omega
  have inRun : frames = [] ∨ USER_SPACE_BASE ≤ seg.pageStart
      ∧ seg.pageStart + frames.length * PAGE_SIZE ≤ USER_SPACE_END := by
    rw [length]
    exact Or.inr range
  have below : first + seg.numPages ≤ KERNEL_PDE_START * 1024 := by
    have last := range.2
    rw [startsAt] at last
    simp only [PAGE_SIZE, USER_SPACE_END, KERNEL_PDE_START] at last ⊢
    omega
  have switched : ({ allocated with cr3 := addrSpace } : Machine).Sound dirs data' :=
    ⟨soundAllocated.paged, soundAllocated.small, member⟩
  obtain ⟨keepsRun, soundMapped, _, kernel⟩ := mapRun_keeps switched inRun runs
  have soundRun : ({ mappedRun with cr3 := allocated.cr3 } : Machine).Sound dirs data' :=
    ⟨soundMapped.paged, soundMapped.small, soundAllocated.current⟩
  have inData : ∀ phys ∈ frames, phys ∈ data' := fun phys inFrames =>
    (members phys).mpr (Or.inl inFrames)
  have long : 1 < frames.length → 0 < seg.memsz := by
    rw [length]
    intro several
    simp only [Segment.numPages, Segment.span, PAGE_SIZE] at several inPage
    omega
  obtain ⟨fillings, was, wasNot⟩ := fillFrames_first soundRun inData distinct notNil long fills
  have sum : plan.calls + seg.numPages
      = plan.pages + seg.numPages + plan.scratch + plan.tables.length := by
    rw [Plan.calls]
    omega
  have callsRun : ({ allocated with cr3 := addrSpace } : Machine).SameFrames
      (start.afterCalls (plan.pages + seg.numPages + plan.scratch + plan.tables.length)) := by
    rw [← sum]
    exact ⟨callsAllocated.frames, callsAllocated.free, callsAllocated.cursor⟩
  have hasRun : ∀ index < KERNEL_PDE_START,
      present (dirEntry allocated.memory addrSpace index) = true ↔ index ∈ plan.tables := by
    rw [memory]
    exact loaded.tables
  have small : ∀ phys ∈ frames, phys ||| seg.mapFlags ||| PAGE_PRESENT < 2 ^ 32 := by
    intro phys inFrames
    rw [Nat.or_assoc]
    exact Nat.or_lt_two_pow (soundAllocated.paged.filled phys (inData phys inFrames)).2.1
      (Nat.lt_trans (mapFlags_small seg).1 (by decide))
  have placedRun := mapRun_placed switched rfl startsAt inRun small callsRun hasRun runs
  rw [length] at placedRun
  have isPlan : plan.segment (hasScratch start) seg
      = { pages := plan.pages + seg.numPages
          tables := (List.range' first seg.numPages).foldl tableFor plan.tables
          scratch := if hasScratch start then 0 else 1
          needed := plan.pages + seg.numPages
            + ((List.range' first seg.numPages).foldl tableFor plan.tables).length + plan.scratch
          placed := (List.range seg.numPages).map (fun p => ⟨first + p, plan.calls + p, seg⟩)
            ++ plan.placed } := by
    rw [Plan.segment, if_neg nothing, isFirst]
  have frameOf := frameOf_segment (hasScratch start) plan seg
  rw [isFirst] at frameOf
  rw [isPlan]
  rw [isPlan] at frameOf
  generalize isTables : (List.range' first seg.numPages).foldl tableFor plan.tables = tables at *
  have userEntry (index : Nat) (inside : index < KERNEL_PDE_START)
      : dirEntry filled.memory addrSpace index = dirEntry mappedRun.memory addrSpace index := by
    refine fillings.changes.directory addrSpace member index ?_ (fun own => ?_)
    · simp only [KERNEL_PDE_START] at inside
      omega
    · have is := own.2
      simp only [KERNEL_PDE_START, ELF_LOAD_SCRATCH] at inside is
      omega
  rcases placedRun with placed | short
  · left
    have handedIn {p : Nat} (inside : p < seg.numPages) : start.handed (plan.calls + p) ∈ frames := by
      rw [taken]
      exact List.mem_map.mpr ⟨_, List.mem_range'_1.mpr ⟨by omega, by omega⟩, rfl⟩
    have frameAt {p : Nat} (inside : p < seg.numPages)
        : frames[p]? = some (start.handed (plan.calls + p)) := by
      rw [taken, List.getElem?_map, List.getElem?_range' inside, Nat.one_mul]
      rfl
    have scratchSame : dirEntry mappedRun.memory allocated.cr3 (ELF_LOAD_SCRATCH / 2 ^ 22)
        = dirEntry machine.memory machine.cr3 (ELF_LOAD_SCRATCH / 2 ^ 22) := by
      rw [kernel _ soundAllocated.current _ (by decide) (by decide)]
      simp only [memory, cr3]
    have tableRun : ScratchTable { mappedRun with cr3 := allocated.cr3 } ↔ ScratchTable machine := by
      simp only [ScratchTable, scratchSame]
    have sameRun : ({ mappedRun with cr3 := allocated.cr3 } : Machine).SameFrames mappedRun :=
      ⟨rfl, rfl, rfl⟩
    have outcome : filled.SameFrames (start.afterCalls (plan.pages + seg.numPages + tables.length
          + if hasScratch start then 0 else 1))
        ∧ (ScratchTable filled ∨ Exhausted filled) := by
      rcases loaded.scratch with ⟨table, isScratch⟩ | ⟨table, isScratch, without⟩ | exhausted
      · obtain ⟨same, tableAfter⟩ := was (tableRun.mpr table)
        have count : plan.pages + seg.numPages + tables.length
            + (if hasScratch start then 0 else 1)
            = plan.pages + seg.numPages + plan.scratch + tables.length := by
          rw [isScratch]
          omega
        rw [count]
        exact ⟨same.trans (sameRun.trans placed.calls), Or.inl tableAfter⟩
      · obtain ⟨called, either⟩ := wasNot (fun there => table (tableRun.mp there))
        have count : plan.pages + seg.numPages + tables.length
            + (if hasScratch start then 0 else 1)
            = plan.pages + seg.numPages + plan.scratch + tables.length + 1 := by
          rw [isScratch, without]
          simp only [Bool.false_eq_true, if_false]
          omega
        rw [count]
        exact ⟨called.trans (sameRun.allocp.2.trans placed.calls.next.2), either⟩
      · have none := exhausted.allocp loaded.sound.paged.zero
        rw [loaded.calls.next.1] at none
        exact absurd none (fresh _ (handedIn (by omega : 0 < seg.numPages))).2.1
    have kept {phys o : Nat} (isData : phys ∈ data') (within : o < 4096)
        : mappedRun.memory (phys + o) = machine.memory (phys + o) := by
      have whole := (soundAllocated.paged.filled phys isData).1
      have frame : (phys + o) / 4096 * 4096 = phys := by omega
      rw [keepsRun.bytes (phys + o) (Or.inl (by rw [frame]; exact isData))]
      simp only [memory]
    refine ⟨data', fillings.sound, ?_, outcome.1, ?_, ?_, ?_, ?_, ?_, ?_, ?_⟩
    · rw [fillings.cr3, ← loaded.cr3]
      exact cr3
    · intro index inside
      rw [userEntry index inside]
      exact placed.has index inside
    · rcases outcome.2 with table | exhausted
      · exact Or.inl ⟨table, rfl⟩
      · exact Or.inr (Or.inr exhausted)
    · intro page inside
      have user : pageEntry filled.memory addrSpace page
          = pageEntry mappedRun.memory addrSpace page := by
        refine fillings.changes.page addrSpace member page ?_ (fun is => ?_)
        · simp only [KERNEL_PDE_START] at inside
          omega
        · simp only [KERNEL_PDE_START, ELF_LOAD_SCRATCH] at inside is
          omega
      rw [user, placed.entries page inside, frameOf page, length]
      by_cases isNew : first ≤ page ∧ page < first + seg.numPages
      · rw [if_pos isNew, if_pos isNew, List.getD_eq_getElem?_getD, frameAt (by omega)]
        rfl
      · rw [if_neg isNew, if_neg isNew]
        simp only [memory]
        exact loaded.pages page inside
    · intro entry inPlan
      rcases List.mem_append.mp inPlan with isNew | isOld
      · obtain ⟨p, inRange, rfl⟩ := List.mem_map.mp isNew
        have inside := List.mem_range.mp inRange
        have isData := inData _ (handedIn inside)
        refine ⟨isData, fun o within => ?_⟩
        have virt : seg.pageStart + p * PAGE_SIZE + o = (first + p) * PAGE_SIZE + o := by
          rw [startsAt, Nat.add_mul]
        have wasFree := (fresh _ (handedIn inside)).2.2
        have whole := (soundAllocated.paged.filled _ isData).1
        have page : (start.handed (plan.calls + p) + o) / 4096
            = start.handed (plan.calls + p) / 4096 := by
          omega
        rw [fillings.inside p _ (frameAt inside) o within, kept isData within,
          loaded.fresh _ (by rw [page]; exact wasFree), Nat.zero_add,
          filledByte_eq _ begins inPage inFile size, virt]
      · obtain ⟨wasData, bytes⟩ := loaded.placed entry isOld
        have isData := (members _).mpr (Or.inr wasData)
        refine ⟨isData, fun o within => ?_⟩
        have whole := (soundAllocated.paged.filled _ isData).1
        have frame : (start.handed entry.call + o) / 4096 * 4096 = start.handed entry.call := by
          omega
        rw [fillings.outside _ (Or.inl (by rw [frame]; exact isData))
          (by rw [frame]; exact fun inFrames => (fresh _ inFrames).1 wasData)]
        exact (kept isData within).trans (bytes o within)
    · intro place isFree
      have freeRun := fillings.taken _ isFree
      have freeAllocated := keepsRun.taken _ freeRun
      have notFrame : place / 4096 * 4096 ∉ frames := by
        intro inFrames
        have taken := (soundAllocated.paged.filled _ (inData _ inFrames)).2.2.1
        rw [Nat.mul_div_cancel _ (by decide)] at taken
        simp only at freeAllocated
        rw [taken] at freeAllocated
        cases freeAllocated
      rw [fillings.outside place (Or.inr isFree) notFrame]
      refine (keepsRun.bytes place (Or.inr freeRun)).trans ?_
      simp only [memory]
      exact loaded.fresh place (less _ freeAllocated)
    · have more := tables_length (List.range' first seg.numPages) plan.tables
      rw [isTables] at more
      have lastFrame := (Machine.handed_ne_zero_iff zero _).mp
        (fresh _ (handedIn (by omega : seg.numPages - 1 < seg.numPages))).2.1
      simp only
      by_cases isSame : tables.length = plan.tables.length
      · rw [Plan.calls] at lastFrame
        omega
      · have lastTable := (Machine.handed_ne_zero_iff zero _).mp
          (placed.handed (plan.pages + seg.numPages + plan.scratch + tables.length - 1) (by omega)
            (by omega))
        omega
    · refine ⟨?_, Nat.le_refl _⟩
      have upTo := loaded.ordered.2
      simp only [Plan.calls]
      omega
  · right
    obtain ⟨p, inside, absent⟩ := short.page
    obtain ⟨call, before, failed⟩ := short.call
    have above : (first + p) / 1024 < KERNEL_PDE_START := by
      simp only [KERNEL_PDE_START] at below ⊢
      omega
    refine ⟨?_, fillings.sound.paged.zero, ⟨p, inside, ?_⟩, ?_⟩
    · intro page inFrames
      by_contra isFree
      have wasFree := fillings.taken page (by simpa using isFree)
      rw [fillings.count] at inFrames
      rw [short.exhausted page inFrames] at wasFree
      cases wasFree
    · rw [isFirst, userEntry _ above]
      exact absent
    · have notBefore := (Machine.handed_ne_zero_iff zero call).not.mp (not_not.mpr failed)
      simp only
      omega

-- All segments

theorem Plan.segment_ordered {hasScratch : Bool} (seg : Segment)
    (ordered : plan.needed ≤ plan.calls ∧ plan.scratch ≤ if hasScratch then 0 else 1)
    : plan.needed ≤ (plan.segment hasScratch seg).needed
      ∧ (plan.segment hasScratch seg).needed ≤ (plan.segment hasScratch seg).calls
      ∧ (plan.segment hasScratch seg).scratch ≤ if hasScratch then 0 else 1 := by
  unfold Plan.segment
  split
  · exact ⟨Nat.le_refl _, ordered⟩
  · have more := tables_length (List.range' (seg.pageStart / PAGE_SIZE) seg.numPages) plan.tables
    simp only [Plan.calls] at ordered ⊢
    omega

theorem plan_ordered {hasScratch : Bool} (segs : List Segment)
    (ordered : plan.needed ≤ plan.calls ∧ plan.scratch ≤ if hasScratch then 0 else 1)
    : plan.needed ≤ (segs.foldl (Plan.segment hasScratch) plan).needed := by
  induction segs generalizing plan with
  | nil => exact Nat.le_refl _
  | cons seg rest ih =>
      obtain ⟨grows, orderedNext⟩ := plan.segment_ordered seg ordered
      exact Nat.le_trans grows (ih orderedNext)

theorem frameOf_isSome {hasScratch : Bool} {page : Nat} (segs : List Segment)
    (known
      : (plan.frameOf page).isSome
        ∨ ∃ seg ∈ segs, seg.pageStart / PAGE_SIZE ≤ page
          ∧ page < seg.pageStart / PAGE_SIZE + seg.numPages)
    : ((segs.foldl (Plan.segment hasScratch) plan).frameOf page).isSome := by
  induction segs generalizing plan with
  | nil => exact known.resolve_right (by simp)
  | cons seg rest ih =>
      refine ih ?_
      rw [frameOf_segment]
      by_cases inside : seg.pageStart / PAGE_SIZE ≤ page
          ∧ page < seg.pageStart / PAGE_SIZE + seg.numPages
      · rw [if_pos inside]
        exact Or.inl rfl
      · rw [if_neg inside]
        rcases known with already | ⟨other, member, within⟩
        · exact Or.inl already
        · rcases List.mem_cons.mp member with rfl | inRest
          · exact absurd within inside
          · exact Or.inr ⟨other, inRest, within⟩

theorem placed_mem {hasScratch : Bool} {placed : Placed} (segs : List Segment)
    (member : placed ∈ (segs.foldl (Plan.segment hasScratch) plan).placed)
    : placed ∈ plan.placed
      ∨ placed.seg ∈ segs ∧ placed.seg.pageStart / PAGE_SIZE ≤ placed.page
        ∧ placed.page < placed.seg.pageStart / PAGE_SIZE + placed.seg.numPages := by
  induction segs generalizing plan with
  | nil => exact Or.inl member
  | cons seg rest ih =>
      rcases ih member with before | ⟨inRest, range⟩
      · unfold Plan.segment at before
        split at before
        · exact Or.inl before
        · rcases List.mem_append.mp before with isNew | isOld
          · obtain ⟨p, inRange, rfl⟩ := List.mem_map.mp isNew
            exact Or.inr ⟨List.mem_cons_self, Nat.le_add_right _ _,
              Nat.add_lt_add_left (List.mem_range.mp inRange) _⟩
          · exact Or.inl isOld
      · exact Or.inr ⟨List.mem_cons_of_mem _ inRest, range⟩

theorem loaded_empty (sound : start.Sound dirs data)
    (new : ∀ index < KERNEL_PDE_START, present (dirEntry start.memory addrSpace index) = false)
    : Loaded start image addrSpace Plan.empty dirs data start := by
  refine ⟨sound, rfl, Machine.SameFrames.refl _, ?_, ?_, ?_, nofun, fun _ _ => rfl, Nat.zero_le _,
    Nat.zero_le _, Nat.zero_le _⟩
  · intro index inside
    rw [new index inside]
    exact ⟨nofun, nofun⟩
  · cases table : hasScratch start with
    | true => exact Or.inl ⟨table, rfl⟩
    | false =>
        refine Or.inr (Or.inl ⟨fun there => ?_, rfl, rfl⟩)
        rw [hasScratch, there] at table
        cases table
  · intro page inside
    have above : page / 1024 < KERNEL_PDE_START := by
      simp only [KERNEL_PDE_START] at inside ⊢
      omega
    simp only [pageEntry, new _ above]
    rfl

theorem loadSegments_exhausted {segs : List Segment} (exhausted : Exhausted machine)
    (zero : machine.free 0 = false)
    (loads : elfLoadSegments machine addrSpace image segs = some (true, after))
    : machine = after := by
  induction segs with
  | nil => simpa [elfLoadSegments] using loads
  | cons seg rest ih =>
      simp only [elfLoadSegments] at loads
      split at loads
      · cases loads
      · simp at loads
      · rename_i middle first
        obtain ⟨_, rfl⟩ := loadSegment_exhausted exhausted zero first
        exact ih loads

theorem elfLoadSegments_loaded {segs : List Segment}
    (loaded : Loaded start image addrSpace plan dirs data machine) (zero : start.free 0 = false)
    (member : addrSpace ∈ dirs)
    (user
      : ∀ seg ∈ segs, USER_SPACE_BASE ≤ seg.vaddr ∧ seg.vaddr + seg.memsz ≤ USER_SPACE_END)
    (inFile : ∀ seg ∈ segs, seg.offset + seg.filesz ≤ image.length)
    (size : image.length < 2 ^ 32)
    (loads : elfLoadSegments machine addrSpace image segs = some (true, after))
    : (∃ data', Loaded start image addrSpace (segs.foldl (Plan.segment (hasScratch start)) plan)
        dirs data' after)
      ∨ (∃ seg ∈ segs, ∃ p < seg.numPages,
          present (dirEntry after.memory addrSpace ((seg.pageStart / PAGE_SIZE + p) / 1024)) = false)
        ∧ start.freeFrames < (segs.foldl (Plan.segment (hasScratch start)) plan).needed := by
  induction segs generalizing machine data plan with
  | nil =>
      obtain rfl : machine = after := by simpa [elfLoadSegments] using loads
      exact Or.inl ⟨data, loaded⟩
  | cons seg rest ih =>
      simp only [elfLoadSegments] at loads
      split at loads
      · cases loads
      · simp at loads
      · rename_i middle first
        obtain ⟨low, high⟩ := user seg List.mem_cons_self
        rcases loaded.segment zero member low high (inFile seg List.mem_cons_self) size first with
          ⟨data', next⟩ | short
        · rcases ih next (fun other inRest => user other (List.mem_cons_of_mem _ inRest))
            (fun other inRest => inFile other (List.mem_cons_of_mem _ inRest)) loads with
            done | ⟨⟨other, inRest, unmapped⟩, few⟩
          · exact Or.inl done
          · exact Or.inr ⟨⟨other, List.mem_cons_of_mem _ inRest, unmapped⟩, few⟩
        · right
          obtain rfl := loadSegments_exhausted short.exhausted short.zero loads
          refine ⟨⟨seg, List.mem_cons_self, short.page⟩, Nat.lt_of_lt_of_le short.few ?_⟩
          exact plan_ordered rest (plan.segment_ordered seg loaded.ordered).2

-- The contents of an image

theorem Loaded.translate (loaded : Loaded start image addrSpace plan dirs data machine)
    {virt physical : Nat} (user : virt < USER_SPACE_END)
    : PageTable.translate machine.memory addrSpace virt = some physical
      ↔ ∃ placed, plan.frameOf (virt / PAGE_SIZE) = some placed
        ∧ physical = start.handed placed.call + virt % PAGE_SIZE := by
  have inside : virt / PAGE_SIZE < KERNEL_PDE_START * 1024 := by
    simp only [USER_SPACE_END, PAGE_SIZE, KERNEL_PDE_START] at user ⊢
    omega
  have entry := loaded.pages _ inside
  rw [PageTable.translate, show virt / 4096 = virt / PAGE_SIZE from rfl, entry]
  cases found : plan.frameOf (virt / PAGE_SIZE) with
  | none => simp
  | some placed =>
      have isData := (loaded.placed placed (List.mem_of_find?_eq_some found)).1
      have aligned := (loaded.sound.paged.filled _ isData).1
      obtain ⟨small, isPresent⟩ := mapFlags_small placed.seg
      simp only [Nat.or_assoc]
      rw [if_pos ((present_or aligned small).trans isPresent), (frame_or aligned small).1]
      constructor
      · intro same
        exact ⟨placed, rfl, (Option.some.inj same).symm⟩
      · rintro ⟨other, same, rfl⟩
        rw [← Option.some.inj same]
        rfl

theorem parsePhdrs_inFile {phoff phentsize maxSegs left i : Nat} {segs found : List Segment}
    (before : ∀ seg ∈ segs, seg.offset + seg.filesz ≤ image.length)
    (parses : parsePhdrs image phoff phentsize maxSegs left i segs = .ok found)
    : ∀ seg ∈ found, seg.offset + seg.filesz ≤ image.length := by
  induction left generalizing i segs with
  | zero =>
      obtain rfl : segs = found := by simpa [parsePhdrs] using parses
      exact before
  | succ left ih =>
      simp only [parsePhdrs] at parses
      split at parses
      · exact ih before parses
      · split at parses
        · cases parses
        · rename_i inFile
          split at parses
          · cases parses
          · refine ih ?_ parses
            intro seg member
            rcases List.mem_append.mp member with isOld | isNew
            · exact before seg isOld
            · rw [List.mem_singleton.mp isNew]
              exact Nat.not_lt.mp inFile

theorem elf32Parse_inFile {maxSegs entry : Nat} {segs : List Segment}
    (parsed : elf32Parse image maxSegs = .ok (segs, entry))
    : ∀ seg ∈ segs, seg.offset + seg.filesz ≤ image.length := by
  unfold elf32Parse at parsed
  iterate 6 (split at parsed; · cases parsed)
  simp only at parsed
  iterate 2 (split at parsed; · cases parsed)
  split at parsed
  · cases parsed
  · rename_i found parses
    obtain ⟨rfl, _⟩ := Prod.mk.inj (Except.ok.inj parsed)
    exact parsePhdrs_inFile (by simp) parses

/-- A program that is loaded into a new address space has its contents if and only if there were
frames for all of its tables and every page is right beside the bytes of its last segment.
-/
theorem load_contents_iff {maxSegs entry : Nat} {segs : List Segment}
    (sound : machine.Sound dirs data) (member : addrSpace ∈ dirs)
    (new : ∀ index < KERNEL_PDE_START, present (dirEntry machine.memory addrSpace index) = false)
    (size : image.length < 2 ^ 32) (parsed : elf32Parse image maxSegs = .ok (segs, entry))
    (ranges : UserRanges segs)
    (loads : elfLoadSegments machine addrSpace image segs = some (true, after))
    : Contents image segs after.memory addrSpace ↔ Fits machine image segs := by
  have zero := sound.paged.zero
  have empty : Loaded machine image addrSpace Plan.empty dirs data machine := loaded_empty sound new
  have run := elfLoadSegments_loaded empty zero member
    (fun seg inSegs => ⟨(ranges.user seg inSegs).1, (ranges.user seg inSegs).2.1⟩)
    (elf32Parse_inFile parsed) size loads
  rcases run with ⟨data', loaded⟩ | ⟨⟨seg, inSegs, p, inside, absent⟩, few⟩
  · have ofPage {page : Nat} {placed : Placed}
        (found : (imagePlan machine segs).frameOf page = some placed)
        : placed.page = page ∧ placed ∈ (imagePlan machine segs).placed ∧ placed.seg ∈ segs
          ∧ page < KERNEL_PDE_START * 1024 := by
      have isPage : placed.page = page := by simpa using List.find?_some found
      have inPlan := List.mem_of_find?_eq_some found
      obtain ⟨inSegs, above, below⟩ := (placed_mem segs inPlan).resolve_left (by simp [Plan.empty])
      obtain ⟨low, high, _⟩ := ranges.user placed.seg inSegs
      obtain ⟨user, _, aligned, _⟩ := Segment.inUserSpace_of_range low high
      refine ⟨isPage, inPlan, inSegs, ?_⟩
      have range := user.resolve_left (by omega)
      simp only [USER_SPACE_END, PAGE_SIZE, KERNEL_PDE_START] at range below aligned ⊢
      omega
    rw [contents_iff ranges]
    constructor
    · rintro ⟨_, _, right⟩
      refine ⟨loaded.enough, fun page placed found offset within hasNot => ?_⟩
      obtain ⟨isPage, inPlan, _, below⟩ := ofPage found
      simp only [PAGE_SIZE, KERNEL_PDE_START] at within below
      have user : page * PAGE_SIZE + offset < USER_SPACE_END := by
        simp only [PAGE_SIZE, USER_SPACE_END]
        omega
      have number : (page * PAGE_SIZE + offset) / PAGE_SIZE = page := by
        simp only [PAGE_SIZE]
        omega
      have rest : (page * PAGE_SIZE + offset) % PAGE_SIZE = offset := by
        simp only [PAGE_SIZE]
        omega
      have reached := (loaded.translate user).mpr ⟨placed, by rw [number]; exact found, rfl⟩
      rw [rest] at reached
      have bytes := (loaded.placed placed inPlan).2 offset within
      rw [isPage, if_neg hasNot] at bytes
      rw [← bytes]
      exact right _ user _ reached
    · intro fits
      have there {seg : Segment} (inSegs : seg ∈ segs) {virt : Nat} (user : virt < USER_SPACE_END)
          (low : seg.pageStart / PAGE_SIZE ≤ virt / PAGE_SIZE)
          (high : virt / PAGE_SIZE < seg.pageStart / PAGE_SIZE + seg.numPages)
          : (PageTable.translate after.memory addrSpace virt).isSome := by
        have isSome : ((imagePlan machine segs).frameOf (virt / PAGE_SIZE)).isSome :=
          frameOf_isSome segs (Or.inr ⟨seg, inSegs, low, high⟩)
        obtain ⟨placed, found⟩ := Option.isSome_iff_exists.mp isSome
        rw [(loaded.translate user).mpr ⟨placed, found, rfl⟩]
        rfl
      refine ⟨fun seg inSegs p inside => ?_, fun seg inSegs i inside => ?_,
        fun virt user physical reached => ?_⟩
      · obtain ⟨low, high, _⟩ := ranges.user seg inSegs
        obtain ⟨user, _, aligned, _⟩ := Segment.inUserSpace_of_range low high
        have range := user.resolve_left (by omega)
        simp only [PAGE_SIZE] at aligned range
        refine there inSegs ?_ ?_ ?_
        · simp only [PAGE_SIZE]
          omega
        · simp only [PAGE_SIZE]
          omega
        · simp only [PAGE_SIZE]
          omega
      · obtain ⟨low, high, _⟩ := ranges.user seg inSegs
        obtain ⟨user, begins, aligned, inPage⟩ := Segment.inUserSpace_of_range low high
        have pages : seg.numPages = (seg.inPageOff + seg.memsz + PAGE_SIZE - 1) / PAGE_SIZE := rfl
        simp only [PAGE_SIZE] at aligned inPage pages
        refine there inSegs (by omega) ?_ ?_
        · simp only [PAGE_SIZE]
          omega
        · simp only [PAGE_SIZE]
          omega
      · obtain ⟨placed, found, rfl⟩ := (loaded.translate user).mp reached
        obtain ⟨isPage, inPlan, inSegs, _⟩ := ofPage found
        have within : virt % PAGE_SIZE < PAGE_SIZE := Nat.mod_lt _ (by decide)
        have whole : virt / PAGE_SIZE * PAGE_SIZE + virt % PAGE_SIZE = virt := Nat.div_add_mod' ..
        rw [(loaded.placed placed inPlan).2 _ within, isPage, whole]
        split
        · rename_i has
          exact (wanted_of_has ranges inSegs has).symm
        · rename_i hasNot
          have clean := fits.clean _ placed found _ within (by rw [whole]; exact hasNot)
          rw [whole] at clean
          exact clean
  · constructor
    · intro contents
      obtain ⟨low, high, _⟩ := ranges.user seg inSegs
      obtain ⟨_, _, aligned, _⟩ := Segment.inUserSpace_of_range low high
      have isMapped := contents.mapped seg inSegs p inside
      have page : (seg.pageStart + p * PAGE_SIZE) / 4096 = seg.pageStart / PAGE_SIZE + p := by
        simp only [PAGE_SIZE] at aligned ⊢
        omega
      simp [PageTable.translate, pageEntry, page, absent] at isMapped
    · intro fits
      exact absurd fits.enough (Nat.not_le.mpr few)

/-- A segment of two bytes, the first of them in the file. -/
def tinySegment : Segment := ⟨0x08048000, 0, 1, 2, 6⟩

def tinyProgram : List UInt8 :=
  [0x7F, 0x45, 0x4C, 0x46, 1, 1, 1, 0, 0, 0, 0, 0, 0, 0, 0, 0, 2, 0, 3, 0, 1, 0, 0, 0,
    0, 0x80, 4, 8, 52, 0, 0, 0, 0, 0, 0, 0, 0, 0, 0, 0, 52, 0, 32, 0, 1, 0, 0, 0, 0, 0, 0, 0,
    1, 0, 0, 0, 0, 0, 0, 0, 0, 0x80, 4, 8, 0, 0x80, 4, 8, 1, 0, 0, 0, 2, 0, 0, 0,
    6, 0, 0, 0, 0, 0x10, 0, 0]

theorem tinyProgram_parsed
    : elf32Parse tinyProgram 16 = .ok ([tinySegment], 0x08048000) ∧ UserRanges [tinySegment] := by
  refine ⟨rfl, ?_, List.pairwise_singleton _ _⟩
  intro seg member
  rw [List.mem_singleton.mp member]
  decide

theorem bareMachine_new {index : Nat} (inside : index < KERNEL_PDE_START)
    : present (dirEntry bareMachine.memory 0x2000 index) = false := by
  simp only [KERNEL_PDE_START] at inside
  rw [bareMachine_entry (Or.inr rfl) (by omega), if_neg (by omega)]
  rfl

theorem bareMachine_clear {place : Nat} (above : 0x3000 ≤ place)
    : bareMachine.memory place = 0 := by
  rw [bareMachine]
  exact (Memory.setWord_other _ (by omega)).trans (Memory.setWord_other _ (by omega))

/-- Two bytes are loaded into a frame of zeros. -/
theorem load_contents_tiny
    : ∃ after, elfLoadSegments bareMachine 0x2000 tinyProgram [tinySegment] = some (true, after)
      ∧ Contents tinyProgram [tinySegment] after.memory 0x2000 := by
  have fine : (elfLoadSegments bareMachine 0x2000 tinyProgram [tinySegment]).map Prod.fst
      = some true := by
    decide +kernel
  obtain ⟨⟨_, after⟩, loads, rfl⟩ := Option.map_eq_some_iff.mp fine
  refine ⟨after, loads, (load_contents_iff bareMachine_sound (by decide)
    (fun _ inside => bareMachine_new inside) (by decide) tinyProgram_parsed.1 tinyProgram_parsed.2
    loads).mpr ⟨by decide +kernel, ?_⟩⟩
  intro page placed found offset within hasNot
  have isPlan : imagePlan bareMachine [tinySegment]
      = Plan.empty.segment (hasScratch bareMachine) tinySegment := by
    rw [imagePlan, List.foldl_cons, List.foldl_nil]
  have first : tinySegment.pageStart / PAGE_SIZE = 0x8048 := by
    simp [tinySegment, Segment.pageStart, PAGE_SIZE]
  have one : tinySegment.numPages = 1 := by
    simp [tinySegment, Segment.numPages, Segment.span, Segment.inPageOff, Segment.pageStart,
      PAGE_SIZE]
  rw [isPlan, frameOf_segment, first, one] at found
  split at found
  · rename_i inside
    obtain rfl := Option.some.inj found
    have frame : bareMachine.handed (Plan.empty.calls + (page - 0x8048)) = 0x3000 := by
      have isFirst : page - 0x8048 = 0 := by omega
      rw [isFirst]
      decide +kernel
    rw [frame, bareMachine_clear (by omega), wanted_of_none]
    intro seg member
    rw [List.mem_singleton.mp member]
    exact hasNot
  · cases found

def usedMachine : Machine :=
  { bareMachine with memory := Function.update bareMachine.memory 0x3010 7 }

theorem usedMachine_entry {dir index : Nat} (isDir : dir = 0x1000 ∨ dir = 0x2000)
    (inside : index < 1024)
    : dirEntry usedMachine.memory dir index = dirEntry bareMachine.memory dir index :=
  word_update_other (by omega)

/-- What is left in the frame can be read behind the segment. -/
theorem load_shows_old_bytes
    : ¬∀ dirs data machine after addrSpace image maxSegs segs entry, Machine.Sound machine dirs data
      → addrSpace ∈ dirs
      → (∀ index < KERNEL_PDE_START, present (dirEntry machine.memory addrSpace index) = false)
      → image.length < 2 ^ 32
      → elf32Parse image maxSegs = .ok (segs, entry)
      → UserRanges segs
      → elfLoadSegments machine addrSpace image segs = some (true, after)
      → Contents image segs after.memory addrSpace := by
  intro right
  have loaded : (elfLoadSegments usedMachine 0x2000 tinyProgram [tinySegment]).map
      (fun result => (result.1,
        PageTable.translate result.2.memory 0x2000 0x08048010, result.2.memory 0x3010))
      = some (true, some 0x3010, 7) := by
    decide +kernel
  obtain ⟨⟨fine, after⟩, loads, same⟩ := Option.map_eq_some_iff.mp loaded
  simp only [Prod.mk.injEq] at same
  obtain ⟨rfl, reached, old⟩ := same
  have sound : usedMachine.Sound [0x1000, 0x2000] [] := by
    refine ⟨bareMachine_sound.paged.congr ?_, by decide, by decide⟩
    intro dir member index inside
    exact usedMachine_entry (by simpa using member) inside
  have contents := right [0x1000, 0x2000] [] usedMachine after 0x2000 tinyProgram 16 [tinySegment]
    0x08048000 sound (by decide)
    (fun index inside => by
      have below := inside
      simp only [KERNEL_PDE_START] at below
      rw [usedMachine_entry (Or.inr rfl) (by omega)]
      exact bareMachine_new inside)
    (by decide) tinyProgram_parsed.1 tinyProgram_parsed.2 loads
  have clear := contents.clear 0x08048010 (by decide) (by decide) 0x3010 reached
  rw [old] at clear
  cases clear

end Panuti.Elf
