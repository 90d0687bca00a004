import Mathlib.Data.List.Find
import Panuti.Library.Runs
import Panuti.Memory.Pmm

/-! Runs of the frame allocator from its start. A frame that is out is not handed out again,
allocation fails only when no frame is free, and what it hands out is the lowest free frame.
-/

namespace Panuti.Pmm

open ByteMemory Bitmap

-- Allocation

section Allocation

variable {pmm : PhysMem}

def PhysMem.take (pmm : PhysMem) (page : Nat) : PhysMem :=
  pmmSetp { pmm with nextFreePage := page + 1 } page

theorem PhysMem.Settled.not_zero (settled : pmm.Settled) {page : Nat}
    (below : page < pmm.bitmapFrames) (free : pmm.isFree page = true)
    : page ≠ 0 := by
  rintro rfl
  rw [settled.zero below] at free
  cases free

theorem PhysMem.Settled.allocPass (settled : pmm.Settled)
    : ((∀ page < pmm.bitmapFrames, pmm.isFree page = false)
        ∧ allocPass pmm = (0, { pmm with nextFreePage := 0 }))
      ∨ ∃ page < pmm.bitmapFrames, pmm.isFree page = true
        ∧ (∀ lower < page, pmm.isFree lower = false)
        ∧ allocPass pmm = (page * PMM_PAGE_SIZE, pmm.take page) := by
  cases search : (List.range' pmm.nextFreePage (pmm.bitmapFrames - pmm.nextFreePage)).find?
      pmm.isFree with
  | none =>
      refine Or.inl ⟨fun page below => ?_, by simp only [Pmm.allocPass, search]⟩
      by_cases low : page < pmm.nextFreePage
      · exact settled.below page low below
      · have inRange : page ∈ List.range' pmm.nextFreePage (pmm.bitmapFrames - pmm.nextFreePage) :=
          List.mem_range'_1.mpr ⟨by omega, by omega⟩
        simpa using List.find?_eq_none.mp search page inRange
  | some page =>
      have isFree := List.find?_some search
      have inRange := List.mem_range'_1.mp (List.mem_of_find?_eq_some search)
      have below : page < pmm.bitmapFrames := by omega
      have notZero := settled.not_zero below isFree
      have address : page * PMM_PAGE_SIZE ≠ 0 := by
        simp only [PMM_PAGE_SIZE]
        omega
      refine Or.inr ⟨page, below, isFree, fun lower isLower => ?_, ?_⟩
      · by_cases low : lower < pmm.nextFreePage
        · exact settled.below lower low (by omega)
        · obtain ⟨_, before, after, split, earlier⟩ := List.find?_eq_some_iff_append.mp search
          have inRangeToo : lower ∈ List.range' pmm.nextFreePage
              (pmm.bitmapFrames - pmm.nextFreePage) :=
            List.mem_range'_1.mpr ⟨by omega, by omega⟩
          have sorted : (before ++ page :: after).Pairwise (· < ·) := by
            rw [← split]
            exact List.pairwise_lt_range'
          rw [split] at inRangeToo
          rcases List.mem_append.mp inRangeToo with inBefore | inAfter
          · simpa using earlier lower inBefore
          · rcases List.mem_cons.mp inAfter with rfl | behind
            · exact absurd isLower (Nat.lt_irrefl _)
            · have := List.rel_of_pairwise_cons (List.pairwise_append.mp sorted).2.1 behind
              omega
      · simp only [Pmm.allocPass, search, if_neg address]
        rfl

theorem PhysMem.Settled.allocp (settled : pmm.Settled)
    : ((∀ page < pmm.bitmapFrames, pmm.isFree page = false)
        ∧ pmmAllocp pmm = (0, { pmm with nextFreePage := 0 }))
      ∨ ∃ page < pmm.bitmapFrames, pmm.isFree page = true
        ∧ (∀ lower < page, pmm.isFree lower = false)
        ∧ pmmAllocp pmm = (page * PMM_PAGE_SIZE, pmm.take page) := by
  rcases settled.allocPass with ⟨nothing, failed⟩ | ⟨page, below, isFree, lowest, found⟩
  · have again : PhysMem.Settled { pmm with nextFreePage := 0 } :=
      ⟨settled.capacity, settled.zero, fun page low => absurd low (Nat.not_lt_zero page)⟩
    refine Or.inl ⟨nothing, ?_⟩
    rcases again.allocPass with ⟨_, failedAgain⟩ | ⟨page, below, isFree, _⟩
    · simp only [pmmAllocp, failed, if_true, failedAgain]
    · have isFreeToo : pmm.isFree page = true := isFree
      rw [nothing page below] at isFreeToo
      cases isFreeToo
  · have notZero := settled.not_zero below isFree
    have address : page * PMM_PAGE_SIZE ≠ 0 := by
      simp only [PMM_PAGE_SIZE]
      omega
    exact Or.inr ⟨page, below, isFree, lowest, by simp only [pmmAllocp, found, if_neg address]⟩

theorem PhysMem.Settled.take (settled : pmm.Settled) {page : Nat}
    (below : page < pmm.bitmapFrames) (lowest : ∀ lower < page, pmm.isFree lower = false)
    : (pmm.take page).Settled
      ∧ ∀ other, (pmm.take page).isFree other = (!decide (page = other) && pmm.isFree other) := by
  have bits (other : Nat)
      : (pmm.take page).isFree other = (!decide (page = other) && pmm.isFree other) := by
    rw [PhysMem.take, isFree_pmmSetp]
    by_cases same : page = other
    · simp [same, same ▸ below]
    · simp [same, PhysMem.isFree]
  have frames : (pmm.take page).bitmapFrames = pmm.bitmapFrames := by
    rw [PhysMem.take, pmmSetp_frames]
  refine ⟨⟨?_, fun inside => ?_, fun other low inside => ?_⟩, bits⟩
  · rw [frames]
    exact settled.capacity
  · rw [frames] at inside
    rw [bits, settled.zero inside, Bool.and_false]
  · rw [PhysMem.take, pmmSetp_cursor] at low
    simp only at low
    rw [bits]
    by_cases same : page = other
    · simp [same]
    · rw [lowest other (by omega), Bool.and_false]

/-- A free lowers the cursor to the frame it gives back. -/
theorem PhysMem.Settled.freep (settled : pmm.Settled) (address : Nat)
    (whole : address / PMM_PAGE_SIZE = 0 → pmm.bitmapFrames = 0 ∨ address = 0)
    : (pmmFreep pmm address).Settled
      ∧ (pmmFreep pmm address).bitmapFrames = pmm.bitmapFrames
      ∧ ∀ other, (pmmFreep pmm address).isFree other
        = (decide (address ≠ 0 ∧ address / PMM_PAGE_SIZE = other
            ∧ address / PMM_PAGE_SIZE < pmm.bitmapFrames)
          || pmm.isFree other) := by
  unfold pmmFreep
  split
  · rename_i isZero
    exact ⟨settled, rfl, fun other => by simp [isZero]⟩
  rename_i notZero
  simp only
  split
  · rename_i beyond
    refine ⟨⟨settled.capacity, settled.zero, settled.below⟩, rfl, fun other => ?_⟩
    simp [PhysMem.isFree, pmmReject, Nat.not_lt.mpr beyond]
  · rename_i inside
    have inside : address / PMM_PAGE_SIZE < pmm.bitmapFrames := Nat.lt_of_not_le inside
    have pageNotZero : address / PMM_PAGE_SIZE ≠ 0 := by
      intro isZero
      rcases whole isZero with none | zero
      · omega
      · exact notZero zero
    generalize address / PMM_PAGE_SIZE = page at inside pageNotZero ⊢
    refine ⟨⟨?_, fun some_frames => ?_, fun other low below => ?_⟩, ?_, fun other => ?_⟩
    · rw [pmmClrp_frames]
      exact settled.capacity
    · rw [pmmClrp_frames] at some_frames
      rw [isFree_pmmClrp]
      simp only [PhysMem.isFree]
      rw [show bit pmm.bitmap 0 = false from settled.zero some_frames]
      simp [pageNotZero]
    · rw [pmmClrp_cursor] at low
      rw [pmmClrp_frames] at below
      simp only at low below
      have apart : page ≠ other := by
        split at low <;> omega
      have before : other < pmm.nextFreePage := by
        split at low <;> omega
      rw [isFree_pmmClrp]
      simp only [PhysMem.isFree]
      rw [show bit pmm.bitmap other = false from settled.below other before below]
      simp [apart]
    · rw [pmmClrp_frames]
    · rw [isFree_pmmClrp]
      simp [notZero, PhysMem.isFree]

end Allocation

-- Runs

inductive Call where
  | allocp
  | freep (address : Nat)
deriving Repr, DecidableEq

/-- The allocator, and the frames that are out: handed out and not given back. -/
structure Use where
  pmm : PhysMem
  out : List Nat

/-- Only a frame that is out is given back; address 0 and addresses beyond the capacity may be
passed at any time.
-/
def Call.Admissible (use : Use) : Call → Prop
  | .allocp => True
  | .freep address =>
      address = 0
      ∨ use.pmm.bitmapFrames ≤ address / PMM_PAGE_SIZE
      ∨ address / PMM_PAGE_SIZE ∈ use.out

def Use.step (use : Use) : Call → Use
  | .allocp =>
      let (result, pmm) := pmmAllocp use.pmm
      ⟨pmm, if result = 0 then use.out else result / PMM_PAGE_SIZE :: use.out⟩
  | .freep address =>
      ⟨pmmFreep use.pmm address,
        if address = 0 then use.out else use.out.erase (address / PMM_PAGE_SIZE)⟩

/-- The uses of the allocator that calls reach from `pmm_init`. -/
inductive Run : Use → Prop where
  | start {mbi : MultibootInfo} {kernelEnd tablePhys : Nat} {boot : Memory} {pmm : PhysMem}
      (started : pmmInit mbi kernelEnd boot = some (tablePhys, pmm))
      : Run ⟨pmm, [tablePhys / PMM_PAGE_SIZE]⟩
  | step {use : Use} {call : Call} (reached : Run use) (admissible : call.Admissible use)
      : Run (use.step call)

/-- The frames that are out are used, inside the capacity and out once. -/
structure Use.Good (use : Use) : Prop where
  settled : use.pmm.Settled
  once : use.out.Nodup
  used : ∀ page ∈ use.out, page ≠ 0 ∧ page < use.pmm.bitmapFrames ∧ use.pmm.isFree page = false

variable {use : Use}

theorem Use.Good.allocp (good : use.Good) : (use.step .allocp).Good := by
  simp only [Use.step]
  rcases good.settled.allocp with ⟨_, failed⟩ | ⟨page, below, isFree, lowest, found⟩
  · simp only [failed, if_true]
    exact ⟨⟨good.settled.capacity, good.settled.zero, fun page low => absurd low (by simp)⟩,
      good.once, good.used⟩
  · have notZero := good.settled.not_zero below isFree
    have address : page * PMM_PAGE_SIZE ≠ 0 := by
      simp only [PMM_PAGE_SIZE]
      omega
    have pageOf : page * PMM_PAGE_SIZE / PMM_PAGE_SIZE = page := Nat.mul_div_cancel _ (by decide)
    obtain ⟨settled, bits⟩ := good.settled.take below lowest
    simp only [found, if_neg address, pageOf]
    have fresh : page ∉ use.out := by
      intro isOut
      rw [(good.used page isOut).2.2] at isFree
      cases isFree
    refine ⟨settled, List.nodup_cons.mpr ⟨fresh, good.once⟩, fun other member => ?_⟩
    have frames : (use.pmm.take page).bitmapFrames = use.pmm.bitmapFrames := by
      rw [PhysMem.take, pmmSetp_frames]
    rw [frames, bits]
    rcases List.mem_cons.mp member with rfl | was
    · exact ⟨notZero, below, by simp⟩
    · obtain ⟨otherNotZero, otherBelow, otherUsed⟩ := good.used other was
      exact ⟨otherNotZero, otherBelow, by rw [otherUsed, Bool.and_false]⟩

theorem Use.Good.freep {address : Nat} (good : use.Good)
    (admissible : (Call.freep address).Admissible use)
    : (use.step (.freep address)).Good := by
  have whole : address / PMM_PAGE_SIZE = 0 → use.pmm.bitmapFrames = 0 ∨ address = 0 := by
    intro first
    rcases admissible with isZero | beyond | isOut
    · exact Or.inr isZero
    · rw [first] at beyond
      exact Or.inl (Nat.le_zero.mp beyond)
    · rw [first] at isOut
      exact absurd rfl (good.used 0 isOut).1
  obtain ⟨settled, frames, bits⟩ := good.settled.freep address whole
  simp only [Use.step]
  refine ⟨settled, ?_, fun page member => ?_⟩
  · split
    · exact good.once
    · exact good.once.erase _
  · have was : page ∈ use.out := by
      split at member
      · exact member
      · exact List.mem_of_mem_erase member
    obtain ⟨notZero, below, used⟩ := good.used page was
    refine ⟨notZero, by rw [frames]; exact below, ?_⟩
    rw [bits, used, Bool.or_false, decide_eq_false_iff_not]
    rintro ⟨some_address, same, _⟩
    rw [if_neg some_address, same] at member
    exact (List.Nodup.mem_erase_iff good.once).mp member |>.1 rfl

theorem Run.good (run : Run use) : use.Good := by
  induction run with
  | @start mbi kernelEnd tablePhys boot pmm started =>
      simp only [pmmInit] at started
      cases reserved : pmmReserved mbi kernelEnd boot with
      | none =>
          simp only [reserved] at started
          cases started
      | some first =>
          simp only [reserved] at started
          have before : Use.Good ⟨first, []⟩ :=
            ⟨pmmReserved_settled reserved, List.nodup_nil, fun _ member => by cases member⟩
          have after := before.allocp
          simp only [Use.step] at after
          split at started
          · cases started
          rename_i some_table
          obtain ⟨rfl, rfl⟩ := Prod.mk.inj (Option.some.inj started)
          rw [if_neg some_table] at after
          exact after
  | @step use call reached admissible good =>
      cases call with
      | allocp => exact good.allocp
      | freep address => exact good.freep admissible

/-- A machine with three free pages from 1 MiB on, the first of them the kernel's. -/
def smallMap : MultibootInfo := ⟨64, [⟨0x100000, 0x3000, 1⟩], []⟩

theorem smallMap_starts : (pmmInit smallMap 0x101000 (fun _ => 0)).isSome = true := by
  decide +kernel

/-- The frames of the machine that `vmm.c` works on are those of the bitmap. -/
structure Follows (machine : Vmm.Machine) (pmm : PhysMem) : Prop where
  frames : machine.frames = pmm.bitmapFrames
  cursor : machine.cursor = pmm.nextFreePage
  free : ∀ page < pmm.bitmapFrames, machine.free page = pmm.isFree page

section Follows

variable {machine : Vmm.Machine} {pmm : PhysMem}

theorem Follows.firstFree (follows : Follows machine pmm) (start : Nat)
    : machine.firstFree start
      = (List.range' start (pmm.bitmapFrames - start)).find? pmm.isFree := by
  rw [Vmm.Machine.firstFree, follows.frames]
  apply List.find?_congr
  intro page member
  have inRange := List.mem_range'_1.mp member
  exact follows.free page (by omega)

theorem Follows.take (follows : Follows machine pmm) (page : Nat)
    : Follows (machine.take page) (pmm.take page) := by
  refine ⟨?_, ?_, fun other below => ?_⟩
  · rw [PhysMem.take, pmmSetp_frames]
    exact follows.frames
  · rw [PhysMem.take, pmmSetp_cursor]
    rfl
  · rw [PhysMem.take, pmmSetp_frames] at below
    rw [PhysMem.take, isFree_pmmSetp]
    simp only [Vmm.Machine.take, PhysMem.isFree]
    by_cases same : other = page
    · subst same
      simp [show other < pmm.bitmapFrames from below]
    · rw [Function.update_of_ne same, follows.free other below]
      simp [PhysMem.isFree, Ne.symm same]

/-- Allocation hands out the same frame in both. -/
theorem Follows.allocp (follows : Follows machine pmm) (settled : pmm.Settled)
    : (Vmm.pmmAllocp machine).1 = (pmmAllocp pmm).1
      ∧ Follows (Vmm.pmmAllocp machine).2 (pmmAllocp pmm).2 := by
  have rewound : Follows { machine with cursor := 0 } { pmm with nextFreePage := 0 } :=
    ⟨follows.frames, rfl, follows.free⟩
  have first := follows.firstFree machine.cursor
  have again := follows.firstFree 0
  rw [follows.cursor] at first
  have taken {start page : Nat} (search : (List.range' start (pmm.bitmapFrames - start)).find?
      pmm.isFree = some page)
      : page * PMM_PAGE_SIZE ≠ 0 := by
    have inRange := List.mem_range'_1.mp (List.mem_of_find?_eq_some search)
    have notZero := settled.not_zero (by omega) (List.find?_some search)
    simp only [PMM_PAGE_SIZE]
    omega
  rcases Option.eq_none_or_eq_some ((List.range' pmm.nextFreePage
      (pmm.bitmapFrames - pmm.nextFreePage)).find? pmm.isFree) with search | ⟨page, search⟩
  · rcases Option.eq_none_or_eq_some ((List.range' 0 (pmm.bitmapFrames - 0)).find? pmm.isFree)
      with searchAgain | ⟨page, searchAgain⟩
    · have searchRewound : (List.range' 0 (pmm.bitmapFrames - 0)).find?
          (PhysMem.isFree { pmm with nextFreePage := 0 }) = none := searchAgain
      simp only [Vmm.pmmAllocp, pmmAllocp, allocPass, follows.cursor, first, search, again,
        searchAgain, searchRewound, if_true]
      exact ⟨trivial, rewound⟩
    · have searchRewound : (List.range' 0 (pmm.bitmapFrames - 0)).find?
          (PhysMem.isFree { pmm with nextFreePage := 0 }) = some page := searchAgain
      simp only [Vmm.pmmAllocp, pmmAllocp, allocPass, follows.cursor, first, search, again,
        searchAgain, searchRewound, if_true, if_neg (taken searchAgain)]
      exact ⟨rfl, follows.take page⟩
  · simp only [Vmm.pmmAllocp, pmmAllocp, allocPass, follows.cursor, first, search,
      if_neg (taken search)]
    exact ⟨rfl, follows.take page⟩

theorem Follows.freep (follows : Follows machine pmm) (address : Nat)
    : Follows (Vmm.pmmFreep machine address) (pmmFreep pmm address) := by
  have samePage : address / Vmm.PAGE_SIZE = address / PMM_PAGE_SIZE := rfl
  by_cases isZero : address = 0
  · simp only [Vmm.pmmFreep, pmmFreep, if_pos isZero]
    exact follows
  by_cases beyond : pmm.bitmapFrames ≤ address / PMM_PAGE_SIZE
  · simp only [Vmm.pmmFreep, pmmFreep, if_neg isZero, follows.frames, samePage, if_pos beyond]
    exact ⟨follows.frames, follows.cursor, follows.free⟩
  have inside : address / PMM_PAGE_SIZE < pmm.bitmapFrames := Nat.lt_of_not_le beyond
  simp only [Vmm.pmmFreep, pmmFreep, if_neg isZero, follows.frames, follows.cursor, samePage,
    if_neg beyond]
  refine ⟨?_, ?_, fun other below => ?_⟩
  · rw [pmmClrp_frames]
  · rw [pmmClrp_cursor]
  · rw [pmmClrp_frames] at below
    rw [isFree_pmmClrp]
    by_cases same : other = address / PMM_PAGE_SIZE
    · subst same
      simp [inside]
    · simp only [Function.update_of_ne same, follows.free other below]
      simp [PhysMem.isFree, Ne.symm same]

end Follows

-- Runs of both

/-- What the frames of a machine answer to calls, and the machine behind them. -/
def machineCalls (machine : Vmm.Machine) : List Call → List Nat × Vmm.Machine
  | [] => ([], machine)
  | .allocp :: calls =>
      let (answers, after) := machineCalls (Vmm.pmmAllocp machine).2 calls
      ((Vmm.pmmAllocp machine).1 :: answers, after)
  | .freep address :: calls => machineCalls (Vmm.pmmFreep machine address) calls

/-- What the bitmap answers to calls, and the bitmap behind them. -/
def bitmapCalls (pmm : PhysMem) : List Call → List Nat × PhysMem
  | [] => ([], pmm)
  | .allocp :: calls =>
      let (answers, after) := bitmapCalls (pmmAllocp pmm).2 calls
      ((pmmAllocp pmm).1 :: answers, after)
  | .freep address :: calls => bitmapCalls (pmmFreep pmm address) calls

/-- From any use that is reached, a machine that agrees with the bitmap on the free frames gets the
same frames from every sequence of calls, and agrees with it behind them.
-/
theorem Run.machine_follows {use : Use} (run : Run use) {machine : Vmm.Machine}
    (follows : Follows machine use.pmm) {calls : List Call}
    (admissible : Runs.Throughout Use.step (fun use call => call.Admissible use) use calls)
    : (machineCalls machine calls).1 = (bitmapCalls use.pmm calls).1
      ∧ Follows (machineCalls machine calls).2 (bitmapCalls use.pmm calls).2 := by
  induction calls generalizing use machine with
  | nil => exact ⟨rfl, follows⟩
  | cons call calls ih =>
      have later := fun machine => @ih _ (run.step admissible.1) machine
      cases call with
      | allocp =>
          obtain ⟨same, after⟩ := follows.allocp run.good.settled
          obtain ⟨answers, ends⟩ := later _ after admissible.2
          exact ⟨congrArg₂ List.cons same answers, ends⟩
      | freep address => exact later _ (follows.freep address) admissible.2

theorem machine_follows_small
    : ∃ tablePhys pmm, pmmInit smallMap 0x101000 (fun _ => 0) = some (tablePhys, pmm)
      ∧ (machineCalls ⟨fun _ => 0, 0, pmm.bitmapFrames, pmm.isFree, pmm.nextFreePage, []⟩
          [.allocp, .freep 0, .allocp]).1
        = (bitmapCalls pmm [.allocp, .freep 0, .allocp]).1 := by
  obtain ⟨⟨tablePhys, pmm⟩, started⟩ := Option.isSome_iff_exists.mp smallMap_starts
  refine ⟨tablePhys, pmm, started, (Run.machine_follows (Run.start started) ⟨rfl, rfl, ?_⟩ ?_).1⟩
  · exact fun _ _ => rfl
  · exact ⟨trivial, .inl rfl, trivial, trivial⟩

end Panuti.Pmm
