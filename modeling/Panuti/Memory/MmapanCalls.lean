import Panuti.Memory.Mmapan

/-! What callers of MMAPAN can rely on: a call that fails leaves nothing behind, and one that
succeeds gives pages of their own. The address of a page in the upper half of the 32 bits is
negative to a caller, who takes it for an error.
-/

namespace Panuti.Vmm

open ByteMemory PageTable

-- What a call is to do

/-- What the processor lets a page be used for: the bit is set in its entry and in the one above. -/
def Machine.permits (machine : Machine) (dir page bit : Nat) : Bool :=
  match machine.view dir page with
  | some entry =>
      entry.testBit bit && (dirEntry machine.memory dir (page / 1024)).testBit bit
  | none => false

/-- The pages of a call that succeeded: previously unmapped user pages in a row, each with the
protection that was asked for and a cleared frame of its own that was free before.
-/
structure Installed (dirs data : List Nat) (machine after : Machine) (page prot : Nat)
    (got tables : List Nat) : Prop
    extends Built dirs data machine after page (mmapanFlags prot) got tables where
  first : USER_FIRST ≤ page
  last : page + got.length ≤ USER_LAST
  unmapped : ∀ other, runPages page got.length other → machine.view machine.cr3 other = none
  wasFree
    : got.Nodup ∧ ∀ place ∈ got, place % PAGE_SIZE = 0 ∧ machine.free (place / PAGE_SIZE) = true
  own
    : ∀ index place, got[index]? = some place → ∀ dir ∈ dirs, ∀ other < USER_LAST, ∀ entry,
        after.view dir other = some entry → frame entry = place
        → dir = machine.cr3 ∧ other = page + index
  protection
    : ∀ other, runPages page got.length other
      → after.permits machine.cr3 other 2
          = decide (prot &&& (MMAPAN_PROT_READ ||| MMAPAN_PROT_WRITE) ≠ 0)
        ∧ after.permits machine.cr3 other 1 = decide (prot &&& MMAPAN_PROT_WRITE ≠ 0)

def Refused (len prot : Nat) : Prop :=
  prot &&& (0xFFFFFFFF - (MMAPAN_PROT_READ ||| MMAPAN_PROT_WRITE ||| MMAPAN_PROT_EXEC)) ≠ 0
  ∨ len = 0 ∨ MMAPAN_MAX < len

/-- The run that is chosen for a request: the lowest one from the page of the hint on, or else the
lowest one below that page.
-/
def Machine.Chooses (machine : Machine) (count hint page : Nat) : Prop :=
  (machine.FreeRun count (firstPage hint) USER_LAST page
    ∧ ∀ other, machine.FreeRun count (firstPage hint) USER_LAST other → page ≤ other)
  ∨ (∀ other, ¬machine.FreeRun count (firstPage hint) USER_LAST other)
    ∧ machine.FreeRun count USER_FIRST (firstPage hint) page
    ∧ ∀ other, machine.FreeRun count USER_FIRST (firstPage hint) other → page ≤ other

section

variable {dirs data : List Nat} {machine after : Machine} {len prot hint : Nat}

theorem pagesFor_eq (small : len ≤ MMAPAN_MAX) : pagesFor len = (len + 4095) / 4096 := by
  simp only [MMAPAN_MAX] at small
  simp only [pagesFor]
  omega

variable {count page : Nat}

theorem Machine.Chooses.run (chooses : machine.Chooses count hint page)
    : machine.FreeRun count USER_FIRST USER_LAST page := by
  obtain ⟨low, high⟩ := firstPage_range hint
  rcases chooses with ⟨run, -⟩ | ⟨-, run, -⟩
  · exact ⟨run.some, Nat.le_trans low run.low, run.high, run.free⟩
  · exact ⟨run.some, run.low, Nat.le_trans run.high (Nat.le_of_lt high), run.free⟩

theorem Machine.Chooses.unique {other : Nat} (chooses : machine.Chooses count hint page)
    (too : machine.Chooses count hint other)
    : page = other := by
  rcases chooses with ⟨run, least⟩ | ⟨none, run, least⟩
  · rcases too with ⟨runToo, leastToo⟩ | ⟨none, -, -⟩
    · exact Nat.le_antisymm (least other runToo) (leastToo page run)
    · exact absurd run (none page)
  · rcases too with ⟨runToo, -⟩ | ⟨-, runToo, leastToo⟩
    · exact absurd runToo (none other)
    · exact Nat.le_antisymm (least other runToo) (leastToo page run)

theorem vmmFindFreeRun_chooses (recursive : Recursive machine.memory machine.cr3) (hint : Nat)
    (some : 0 < count)
    : (∃ page, vmmFindFreeRun machine count hint = Option.some (page * PAGE_SIZE)
        ∧ machine.Chooses count hint page)
      ∨ (vmmFindFreeRun machine count hint = Option.some 0
        ∧ ∀ page, ¬machine.Chooses count hint page) := by
  obtain ⟨result, ran, outcome⟩ := vmmFindFreeRun_spec recursive hint some
  rw [ran]
  rcases outcome with ⟨page, rfl, chosen⟩ | ⟨none, ⟨page, rfl, chosen⟩ | ⟨noneToo, rfl⟩⟩
  · exact Or.inl ⟨page, rfl, Or.inl chosen⟩
  · exact Or.inl ⟨page, rfl, Or.inr ⟨none, chosen⟩⟩
  · refine Or.inr ⟨rfl, ?_⟩
    rintro page (⟨run, -⟩ | ⟨-, run, -⟩)
    · exact none page run
    · exact noneToo page run

theorem mmapanFlags_small (prot : Nat) : mmapanFlags prot < 4096 := by
  simp only [mmapanFlags]
  split_ifs <;> decide

theorem mmapanFlags_bits (prot : Nat)
    : (mmapanFlags prot).testBit 2
        = decide (prot &&& (MMAPAN_PROT_READ ||| MMAPAN_PROT_WRITE) ≠ 0)
      ∧ (mmapanFlags prot).testBit 1 = decide (prot &&& MMAPAN_PROT_WRITE ≠ 0) := by
  simp only [mmapanFlags]
  by_cases reads : prot &&& (MMAPAN_PROT_READ ||| MMAPAN_PROT_WRITE) ≠ 0
  · by_cases writes : prot &&& MMAPAN_PROT_WRITE ≠ 0
    · rw [if_pos reads, if_pos writes, decide_eq_true reads, decide_eq_true writes]
      decide
    · rw [if_pos reads, if_neg writes, decide_eq_true reads, decide_eq_false writes]
      decide
  · by_cases writes : prot &&& MMAPAN_PROT_WRITE ≠ 0
    · rw [if_neg reads, if_pos writes, decide_eq_false reads, decide_eq_true writes]
      decide
    · rw [if_neg reads, if_neg writes, decide_eq_false reads, decide_eq_false writes]
      decide

theorem entry_testBit {place flags bit : Nat} (aligned : place % 4096 = 0) (low : bit < 12)
    (notPresent : bit ≠ 0)
    : (place ||| (flags ||| PAGE_PRESENT)).testBit bit = flags.testBit bit := by
  have whole : place = 2 ^ 12 * (place / 4096) := by omega
  have none : place.testBit bit = false := by
    rw [whole, Nat.testBit_two_pow_mul, decide_eq_false (by omega), Bool.false_and]
  have one : PAGE_PRESENT.testBit bit = false := by
    rw [PAGE_PRESENT, Bool.eq_false_iff]
    exact fun set => notPresent (Nat.testBit_one_eq_true_iff_self_eq_zero.mp set)
  rw [Nat.testBit_or, Nat.testBit_or, none, one, Bool.false_or, Bool.or_false]

/-- A run that was built is what a call promises. -/
theorem Built.installed {got tables : List Nat} (spaces : Spaces machine dirs data)
    (built : Built dirs data machine after page (mmapanFlags prot) got tables)
    (run : machine.FreeRun got.length USER_FIRST USER_LAST page)
    : Installed dirs data machine after page prot got tables := by
  have current := spaces.sound.current
  have flagsSmall : mmapanFlags prot ||| PAGE_PRESENT < 4096 :=
    Nat.or_lt_two_pow (n := 12) (mmapanFlags_small prot) (by decide)
  have aligned : ∀ place ∈ got, place % 4096 = 0 := fun place member =>
    (built.spaces.sound.paged.filled place (List.mem_append_left data member)).1
  refine ⟨built, run.low, run.high, ?_, ?_, ?_, ?_⟩
  · intro other inRun
    exact Machine.view_eq_none_iff.mpr (run.free other inRun.1 inRun.2)
  · refine ⟨(List.nodup_append.mp built.spends.nodup).2.1, fun place member => ?_⟩
    obtain ⟨isAligned, -, isFree⟩ := built.spends.fresh place (List.mem_append_right _ member)
    exact ⟨isAligned, isFree⟩
  · intro index place isPlace dir member other user entry seen isFrame
    have inside := (List.getElem?_eq_some_iff.mp isPlace).1
    have seenHere := built.view index place isPlace
    have last := run.high
    have isAligned := aligned place (List.mem_of_getElem? isPlace)
    refine built.spaces.single dir member _ current other user _ (by omega) entry _ seen seenHere ?_
    rw [isFrame, (frame_or isAligned flagsSmall).1]
  · intro other inRun
    have inside : other - page < got.length := by
      have below := inRun.2
      have above := inRun.1
      omega
    have sum : page + (other - page) = other := by
      have above := inRun.1
      omega
    have isPlace := List.getElem?_eq_getElem inside
    have seen := built.view _ _ isPlace
    have isAligned := aligned _ (List.getElem_mem inside)
    rw [sum] at seen
    have inUser : other < USER_LAST := runPages_user run.high inRun
    have writable := built.spaces.writable _ current (other / 1024) (user_table inUser)
      (Machine.view_present seen)
    obtain ⟨user, write⟩ := mmapanFlags_bits prot
    simp only [Machine.permits, seen]
    rw [entry_testBit isAligned (by decide) (by decide),
      entry_testBit isAligned (by decide) (by decide), writable, Bool.and_true]
    refine ⟨?_, write⟩
    rw [← user]
    by_cases forUser : (mmapanFlags prot).testBit 2 = true
    · have asked : mmapanFlags prot &&& PAGE_USER ≠ 0 := by
        intro none
        have bit := congrArg (fun value => value.testBit 2) none
        simp only [Nat.testBit_and, forUser, Bool.true_and] at bit
        exact absurd bit (by decide)
      rw [built.permits asked other inRun, Bool.and_true]
    · have off : (mmapanFlags prot).testBit 2 = false := by simpa using forUser
      rw [off, Bool.false_and]

theorem syshandlerMmapan_spec (spaces : Spaces machine dirs data) (len prot hint : Nat)
    : ∃ result after, syshandlerMmapan machine len prot hint = some (result, after)
      ∧ ((Refused len prot ∧ result = .error PANUTIERRNO_INVALIDADDR ∧ after = machine)
        ∨ (¬Refused len prot ∧ (∀ page, ¬machine.Chooses (pagesFor len) hint page)
          ∧ result = .error PANUTIERRNO_NOMEM ∧ after = machine)
        ∨ ∃ page, ¬Refused len prot ∧ machine.Chooses (pagesFor len) hint page
          ∧ LoopOutcome dirs data machine after page (pagesFor len) (mmapanFlags prot) result
          ∧ (machine.Lacks page (pagesFor len) ↔ result = .error PANUTIERRNO_NOMEM)) := by
  rw [syshandlerMmapan]
  by_cases unknown : prot &&& (0xFFFFFFFF
      - (MMAPAN_PROT_READ ||| MMAPAN_PROT_WRITE ||| MMAPAN_PROT_EXEC)) ≠ 0
  · rw [if_pos unknown]
    exact ⟨_, machine, rfl, Or.inl ⟨Or.inl unknown, rfl, rfl⟩⟩
  rw [if_neg unknown]
  by_cases outside : len = 0 ∨ MMAPAN_MAX < len
  · rw [if_pos outside]
    exact ⟨_, machine, rfl, Or.inl ⟨Or.inr outside, rfl, rfl⟩⟩
  rw [if_neg outside]
  have accepted : ¬Refused len prot := by
    rintro (known | out)
    · exact unknown known
    · exact outside out
  obtain ⟨notZero, notLarge⟩ := not_or.mp outside
  have pages : 0 < pagesFor len := by
    rw [pagesFor_eq (Nat.le_of_not_lt notLarge)]
    omega
  have recursive := (spaces.sound.paged.rooted _ spaces.sound.current).2.2.2
  rcases vmmFindFreeRun_chooses recursive hint pages with ⟨page, found, chooses⟩ | ⟨found, none⟩
  · have run := chooses.run
    have low := run.low
    have baseNotZero : page * PAGE_SIZE ≠ 0 := by
      simp only [USER_FIRST] at low
      simp only [PAGE_SIZE]
      omega
    have unmapped : ∀ other, runPages page (pagesFor len) other
        → machine.view machine.cr3 other = Option.none :=
      fun other inRun => Machine.view_eq_none_iff.mpr (run.free other inRun.1 inRun.2)
    obtain ⟨result, after, ran, outcome⟩ := mmapanLoop_spec spaces (mmapanFlags_small prot)
      run.high unmapped (Built.refl spaces) (Nat.zero_le _)
      (by simp : pagesFor len - ([] : List Nat).length < pagesFor len + 1)
    simp only [found, Option.bind_eq_bind, Option.bind_some, if_neg baseNotZero]
    refine ⟨result, after, ran, Or.inr (Or.inr ⟨page, accepted, chooses, outcome, ?_⟩)⟩
    rcases outcome with ⟨rfl, got, tables, length, built⟩ | ⟨rfl, lacks, -⟩
    · refine ⟨fun lacks => ?_, by rintro ⟨⟩⟩
      have count := built.spends.count
      have missing := built.missing 0
      rw [List.length_append] at count
      rw [Machine.Lacks] at lacks
      have zero : after.missing (page + got.length) 0 = 0 := by simp [Machine.missing, touches]
      rw [Nat.add_zero, zero, length] at missing
      omega
    · exact ⟨fun _ => rfl, fun _ => lacks⟩
  · simp only [found, Option.bind_eq_bind, Option.bind_some, if_pos]
    exact ⟨_, machine, rfl, Or.inr (Or.inl ⟨accepted, none, rfl, rfl⟩)⟩

theorem Undone.refl (spaces : Spaces machine dirs data)
    : Undone dirs data machine machine [] where
  spaces := spaces
  spends := Spends.refl machine
  view := SameView.refl machine
  directory _ _ _ _ _ := rfl
  bytes _ _ := rfl

/-- MMAPAN is all or nothing. After an error all pages of all address spaces are as they were, and
so are the frames, but those that became tables. After a success as many pages are installed as the
length fills, and nothing else has changed.
-/
theorem syshandlerMmapan_atomic (spaces : Spaces machine dirs data) (len prot hint : Nat)
    : ∃ result after, syshandlerMmapan machine len prot hint = some (result, after)
      ∧ match result with
        | .error _ => ∃ tables, Undone dirs data machine after tables
        | .ok base => ∃ page got tables, base = page * PAGE_SIZE
            ∧ got.length = (len + 4095) / 4096
            ∧ Installed dirs data machine after page prot got tables := by
  obtain ⟨result, after, ran, outcome⟩ := syshandlerMmapan_spec spaces len prot hint
  refine ⟨result, after, ran, ?_⟩
  rcases outcome with ⟨-, rfl, rfl⟩ | ⟨-, -, rfl, rfl⟩ | ⟨page, accepted, chooses, outcome, -⟩
  · exact ⟨[], Undone.refl spaces⟩
  · exact ⟨[], Undone.refl spaces⟩
  · have small : len ≤ MMAPAN_MAX := by
      by_contra large
      exact accepted (Or.inr (Or.inr (Nat.lt_of_not_le large)))
    rcases outcome with ⟨rfl, got, tables, length, built⟩ | ⟨rfl, -, undone⟩
    · have run := chooses.run
      rw [← length] at run
      rw [← pagesFor_eq small]
      exact ⟨page, got, tables, rfl, length, built.installed spaces run⟩
    · exact undone

end

-- What a caller sees

def resultWord : Except Nat Nat → Nat
  | .ok base => base
  | .error code => code

/-- What `heap_grow` makes of a result: nothing where it is negative. -/
def heapGrowAnswer (result : Except Nat Nat) : Option Nat :=
  if Word32.signed (resultWord result) < 0 then none else some (resultWord result)

/-- An address is not negative, as is documented, and taken for what it is; an error is taken for
an error.
-/
def ToldApart : Except Nat Nat → Prop
  | .ok base => 0 ≤ Word32.signed base ∧ heapGrowAnswer (.ok base) = some base
  | .error code => heapGrowAnswer (.error code) = none

section

variable {dirs data : List Nat} {machine after : Machine} {len prot hint : Nat}

theorem toldApart_error {code : Nat}
    (known : code = PANUTIERRNO_INVALIDADDR ∨ code = PANUTIERRNO_NOMEM)
    : ToldApart (.error code) := by
  rw [ToldApart]
  rcases known with rfl | rfl <;> decide

theorem toldApart_ok_iff {base : Nat} (small : base < 2 ^ 32)
    : ToldApart (.ok base) ↔ base < 2 ^ 31 := by
  rw [← Word32.signed_nonneg_iff small]
  constructor
  · exact fun told => told.1
  · intro positive
    refine ⟨positive, ?_⟩
    rw [heapGrowAnswer, resultWord, if_neg (Int.not_lt.mpr positive)]

/-- The result of a call is told apart unless a run that starts in the upper half is chosen, and
frames suffice for it.
-/
theorem mmapan_toldApart_iff (spaces : Spaces machine dirs data) (len prot hint : Nat)
    : (∃ result after, syshandlerMmapan machine len prot hint = some (result, after)
        ∧ ToldApart result)
      ↔ ¬∃ page, ¬Refused len prot ∧ machine.Chooses (pagesFor len) hint page
          ∧ ¬machine.Lacks page (pagesFor len) ∧ 2 ^ 31 ≤ page * PAGE_SIZE := by
  obtain ⟨result, after, ran, outcome⟩ := syshandlerMmapan_spec spaces len prot hint
  have only : (∃ result' after', syshandlerMmapan machine len prot hint = some (result', after')
      ∧ ToldApart result') ↔ ToldApart result := by
    constructor
    · rintro ⟨result', after', ran', told⟩
      rw [ran] at ran'
      obtain ⟨rfl, -⟩ := Prod.mk.inj (Option.some.inj ran')
      exact told
    · exact fun told => ⟨result, after, ran, told⟩
  rw [only]
  rcases outcome with ⟨refused, rfl, -⟩ | ⟨-, none, rfl, -⟩
    | ⟨page, accepted, chooses, outcome, lacks⟩
  · refine ⟨fun _ => ?_, fun _ => toldApart_error (Or.inl rfl)⟩
    rintro ⟨page, accepted, -⟩
    exact accepted refused
  · refine ⟨fun _ => ?_, fun _ => toldApart_error (Or.inr rfl)⟩
    rintro ⟨page, -, chooses, -⟩
    exact none page chooses
  · have only (property : Nat → Prop)
        : (∃ other, ¬Refused len prot ∧ machine.Chooses (pagesFor len) hint other
            ∧ ¬machine.Lacks other (pagesFor len) ∧ property other)
          ↔ ¬machine.Lacks page (pagesFor len) ∧ property page := by
      constructor
      · rintro ⟨other, -, choosesToo, rest⟩
        obtain rfl := chooses.unique choosesToo
        exact rest
      · exact fun rest => ⟨page, accepted, chooses, rest⟩
    rw [only, lacks]
    rcases outcome with ⟨rfl, -⟩ | ⟨rfl, -⟩
    · have high := chooses.run.high
      have some := chooses.run.some
      have small : page * PAGE_SIZE < 2 ^ 32 := by
        simp only [USER_LAST] at high
        simp only [PAGE_SIZE]
        omega
      rw [toldApart_ok_iff small]
      constructor
      · rintro low ⟨-, upper⟩
        omega
      · intro not
        by_contra upper
        exact not ⟨by rintro ⟨⟩, Nat.le_of_not_lt upper⟩
    · refine ⟨fun _ => ?_, fun _ => toldApart_error (Or.inr rfl)⟩
      rintro ⟨succeeds, -⟩
      exact succeeds rfl

end

-- A new address space

/-- A directory with the table above the scratch page and its own last entry. -/
def freshWord (index : Nat) : Nat :=
  if index = 1024 + 770 then 0x2003 else if index = 1024 + 1023 then 0x1003 else 0

/-- An address space in which no user page is mapped yet, and five frames that are free. -/
def fresh : Machine where
  memory := Memory.ofWords freshWord
  cr3 := 0x1000
  frames := 8
  free := fun page => decide (3 ≤ page ∧ page < 8)
  cursor := 0
  mapped := []

theorem freshWord_lt (index : Nat) : freshWord index < 4294967296 := by
  simp only [freshWord]
  split_ifs <;> omega

theorem fresh_dirEntry (index : Nat)
    : dirEntry fresh.memory 0x1000 index = freshWord (1024 + index) := by
  have place : 0x1000 + 4 * index = 4 * (1024 + index) := by omega
  rw [dirEntry, place, fresh, Memory.word_ofWords (freshWord_lt _)]

theorem fresh_table {index : Nat} (inside : index < 1023)
    : dirEntry fresh.memory 0x1000 index = if index = 770 then 0x2003 else 0 := by
  rw [fresh_dirEntry, freshWord]
  by_cases isScratch : index = 770
  · rw [if_pos (by omega), if_pos isScratch]
  · rw [if_neg (by omega), if_neg (by omega), if_neg isScratch]

theorem fresh_view {page : Nat} (inside : page / 1024 < 1023) : fresh.view 0x1000 page = none := by
  rw [Machine.view, pageEntry, fresh_table inside]
  by_cases isScratch : page / 1024 = 770
  · have isFrame : frame 0x2003 = 0x2000 := by decide
    have place : 0x2000 + 4 * (page % 1024) = 4 * (2048 + page % 1024) := by omega
    have isPresent : present 0x2003 = true := by decide
    simp only [if_pos isScratch, isPresent, if_true, isFrame]
    have zero : freshWord (2048 + page % 1024) = 0 := by
      rw [freshWord, if_neg (by omega), if_neg (by omega)]
    rw [place, fresh, Memory.word_ofWords (freshWord_lt _), zero, present_zero]
    rfl
  · simp only [if_neg isScratch, present_zero, Bool.false_eq_true, if_false]

theorem fresh_spaces : Spaces fresh [0x1000] [] := by
  refine ⟨⟨⟨rfl, ?_, ?_, ?_, by simp⟩, by decide, by decide⟩, ?_, ?_, ?_, by simp, ?_, ?_⟩
  · intro dir member
    obtain rfl := List.mem_singleton.mp member
    refine ⟨by decide, by decide, by decide, ?_⟩
    rw [Recursive, fresh_dirEntry]
    decide
  · intro dir member index inside isPresent
    obtain rfl := List.mem_singleton.mp member
    rw [fresh_table inside] at isPresent ⊢
    by_cases isScratch : index = 770
    · rw [if_pos isScratch]
      decide
    · rw [if_neg isScratch] at isPresent
      cases isPresent
  · intro dir member other memberToo index inside otherIndex insideToo isPresent isPresentToo _
    obtain rfl := List.mem_singleton.mp member
    obtain rfl := List.mem_singleton.mp memberToo
    rw [fresh_table inside] at isPresent
    rw [fresh_table insideToo] at isPresentToo
    by_cases isScratch : index = 770
    · by_cases isScratchToo : otherIndex = 770
      · exact ⟨isScratch.trans isScratchToo.symm, Or.inl rfl⟩
      · rw [if_neg isScratchToo] at isPresentToo
        cases isPresentToo
    · rw [if_neg isScratch] at isPresent
      cases isPresent
  · intro dir member
    obtain rfl := List.mem_singleton.mp member
    have index : PAGE_DIR_TEMP_MAP / 2 ^ 22 = 770 := by decide
    rw [index, fresh_table (by decide)]
    decide
  · intro dir member slot isSlot
    obtain rfl := List.mem_singleton.mp member
    have inside : ∀ slot ∈ SCRATCH_SLOTS, scratchPage slot / 1024 < 1023 := by decide
    exact fresh_view (inside slot isSlot)
  · intro dir member index user isPresent
    obtain rfl := List.mem_singleton.mp member
    simp only [KERNEL_PDE_START] at user
    rw [fresh_table (by omega), if_neg (by omega)] at isPresent
    cases isPresent
  · intro dir member page user entry seen
    obtain rfl := List.mem_singleton.mp member
    rw [fresh_view (user_inside user)] at seen
    cases seen
  · intro dir member other memberToo page user otherPage userToo entry otherEntry seen
    obtain rfl := List.mem_singleton.mp member
    rw [fresh_view (user_inside user)] at seen
    cases seen

/-- Two pages to write to, in a new address space. -/
theorem syshandlerMmapan_fresh
    : ∃ result after, syshandlerMmapan fresh 5000 3 0 = some (result, after)
      ∧ match result with
        | .error _ => ∃ tables, Undone [0x1000] [] fresh after tables
        | .ok base => ∃ page got tables, base = page * PAGE_SIZE
            ∧ got.length = (5000 + 4095) / 4096
            ∧ Installed [0x1000] [] fresh after page 3 got tables :=
  syshandlerMmapan_atomic fresh_spaces 5000 3 0

/-- A hint in the upper half is taken, and the address looks like an error to the caller. -/
theorem fresh_upperHalf
    : Spaces fresh [0x1000] []
      ∧ ¬∃ result after, syshandlerMmapan fresh 4096 3 0x80000000 = some (result, after)
        ∧ ToldApart result := by
  refine ⟨fresh_spaces, ?_⟩
  rintro ⟨result, after, ran, told⟩
  have base : (syshandlerMmapan fresh 4096 3 0x80000000).bind (fun answer => answer.1.toOption)
      = some 0x80000000 := by
    decide +kernel
  rw [ran, Option.bind_some] at base
  cases result with
  | ok found =>
      obtain rfl : found = 0x80000000 := Option.some.inj base
      exact absurd told.1 (by decide)
  | error code => cases base

theorem mmapan_toldApart_fresh
    : (∃ result after, syshandlerMmapan fresh 4096 3 0 = some (result, after) ∧ ToldApart result)
      ↔ ¬∃ page, ¬Refused 4096 3 ∧ fresh.Chooses (pagesFor 4096) 0 page
          ∧ ¬fresh.Lacks page (pagesFor 4096) ∧ 2 ^ 31 ≤ page * PAGE_SIZE :=
  mmapan_toldApart_iff fresh_spaces 4096 3 0

end Panuti.Vmm
