import Panuti.Library.RunScan
import Panuti.Memory.Maps

/-! The search for free user pages: `vmm_scan_free` and `vmm_find_free_run`. A pass over a stretch
of user space finds its lowest run; a search from a hint on misses the runs across the hint.
-/

namespace Panuti.Vmm

open ByteMemory PageTable RunScan

def PAGE_DIR_ENTRIES : Nat := 1024

section

variable (machine : Machine) (count : Nat)

/-- The inner loop of `vmm_scan_free`, over the entries of one table; where there is none all pages
are free. The result is the start of a run, or what goes on to the next table.
-/
def scanPtes (table : Option Nat) (pdeI : Nat)
    : (steps pteI runStart runLen : Nat) → Option (Except Nat (Nat × Nat))
  | 0, _, runStart, runLen => some (.ok (runStart, runLen))
  | steps + 1, pteI, runStart, runLen => do
      let isMapped ← (match table with
        | none => some false
        | some table => (machine.readWord (table + 4 * pteI)).map present)
      if isMapped then scanPtes table pdeI steps (pteI + 1) runStart 0
      else
        let runStart := if runLen = 0 then pdeI * 2 ^ 22 ||| pteI * 2 ^ 12 else runStart
        if runLen + 1 = count then some (.error runStart)
        else scanPtes table pdeI steps (pteI + 1) runStart (runLen + 1)

/-- The outer loop of `vmm_scan_free`. -/
def scanPdes (startPde startPte endPde endPte : Nat)
    : (steps pdeI runStart runLen : Nat) → Option Nat
  | 0, _, _, _ => some 0
  | steps + 1, pdeI, runStart, runLen => do
      let pde ← machine.readWord (currentPageDir + 4 * pdeI)
      let table := if present pde then some (pteGetTable pdeI) else none
      let pteLo := if pdeI = startPde then startPte else 0
      let pteHi := if pdeI = endPde then endPte else PAGE_DIR_ENTRIES
      match ← scanPtes machine count table pdeI (pteHi - pteLo) pteLo runStart runLen with
      | .error start => some start
      | .ok (runStart, runLen) =>
          scanPdes startPde startPte endPde endPte steps (pdeI + 1) runStart runLen

def vmmScanFree (first last : Nat) : Option Nat :=
  if last ≤ first ∨ count = 0 then some 0
  else
    let startPde := first / 2 ^ 22
    let endPde := last / 2 ^ 22
    scanPdes machine count startPde (first / 2 ^ 12 % 1024) endPde (last / 2 ^ 12 % 1024)
      (min (endPde + 1) KERNEL_PDE_START - startPde) startPde 0 0

def vmmFindFreeRun (hint : Nat) : Option Nat :=
  if count = 0 then some 0
  else
    let first :=
      if hint ≠ 0 ∧ USER_SPACE_BASE ≤ hint ∧ hint < USER_SPACE_END then
        hint / PAGE_SIZE * PAGE_SIZE
      else USER_SPACE_BASE
    do
      let run ← vmmScanFree machine count first USER_SPACE_END
      if run ≠ 0 ∨ first = USER_SPACE_BASE then some run
      else vmmScanFree machine count USER_SPACE_BASE first

end

-- What the search is for

def USER_FIRST : Nat := 0x8048
def USER_LAST : Nat := 0xC0000

/-- A page of the current directory has an entry that is present. -/
def Machine.isMapped (machine : Machine) (page : Nat) : Bool :=
  present (pageEntry machine.memory machine.cr3 page)

/-- `count` unmapped pages from a page on, between two pages. -/
abbrev Machine.FreeRun (machine : Machine) (count low high start : Nat) : Prop :=
  Run machine.isMapped count low high start

/-- The search is sound and complete: what it finds is the start of a run in user space, and it
finds nothing only where there is none.
-/
def Machine.SearchesWell (machine : Machine) (hint count : Nat) : Prop :=
  ∃ result, vmmFindFreeRun machine count hint = some result
    ∧ (result ≠ 0 → ∃ start, result = start * PAGE_SIZE
        ∧ machine.FreeRun count USER_FIRST USER_LAST start)
    ∧ (result = 0 → ∀ start, ¬machine.FreeRun count USER_FIRST USER_LAST start)

/-- The hint is a user address, there are runs of free pages, and all of them lie across its
page: they start below it and end above it.
-/
def Machine.OnlyAcross (machine : Machine) (hint count : Nat) : Prop :=
  USER_SPACE_BASE ≤ hint ∧ hint < USER_SPACE_END
  ∧ (∃ start, machine.FreeRun count USER_FIRST USER_LAST start)
  ∧ ∀ start, machine.FreeRun count USER_FIRST USER_LAST start
      → start < hint / PAGE_SIZE ∧ hint / PAGE_SIZE < start + count

-- The loops are one pass over the pages

section

variable {machine : Machine} {count : Nat} {index offset : Nat}

theorem Machine.reads_dir (recursive : Recursive machine.memory machine.cr3) (inside : index < 1024)
    : machine.readWord (currentPageDir + 4 * index)
      = some (dirEntry machine.memory machine.cr3 index) := by
  have here : translate machine.memory machine.cr3 (currentPageDir + 4 * index)
      = some (machine.cr3 + 4 * index) := recursive.directory (by omega)
  rw [Machine.readWord, here]
  rfl

theorem Machine.reads_page (recursive : Recursive machine.memory machine.cr3)
    (inside : index < 1024) (within : offset < 1024)
    (isPresent : present (dirEntry machine.memory machine.cr3 index) = true)
    : machine.readWord (pteGetTable index + 4 * offset)
      = some (pageEntry machine.memory machine.cr3 (index * 1024 + offset)) := by
  have here : translate machine.memory machine.cr3 (pteGetTable index + 4 * offset)
      = some (frame (dirEntry machine.memory machine.cr3 index) + 4 * offset) :=
    recursive.table inside (by omega) isPresent
  have high : (index * 1024 + offset) / 1024 = index := by omega
  have low : (index * 1024 + offset) % 1024 = offset := by omega
  rw [Machine.readWord, here, Option.map_some, pageEntry, high, low]
  simp only [isPresent, if_pos]

theorem Machine.isMapped_absent (within : offset < 1024)
    (absent : present (dirEntry machine.memory machine.cr3 index) = false)
    : machine.isMapped (index * 1024 + offset) = false := by
  have high : (index * 1024 + offset) / 1024 = index := by omega
  rw [Machine.isMapped, pageEntry, high]
  simp only [absent, Bool.false_eq_true, if_false, present_zero]

/-- The table that `vmm_scan_free` looks at for an entry of the directory. -/
def Machine.tableOf (machine : Machine) (index : Nat) : Option Nat :=
  if present (dirEntry machine.memory machine.cr3 index) then some (pteGetTable index) else none

theorem Machine.reads_mapped (recursive : Recursive machine.memory machine.cr3)
    (inside : index < 1024) (within : offset < 1024)
    : (match machine.tableOf index with
        | none => some false
        | some table => (machine.readWord (table + 4 * offset)).map present)
      = some (machine.isMapped (index * 1024 + offset)) := by
  by_cases isPresent : present (dirEntry machine.memory machine.cr3 index) = true
  · rw [Machine.tableOf, if_pos isPresent]
    simp only [Machine.reads_page recursive inside within isPresent, Option.map_some]
    rfl
  · have absent : present (dirEntry machine.memory machine.cr3 index) = false := by
      simpa using isPresent
    rw [Machine.tableOf, if_neg isPresent, Machine.isMapped_absent within absent]

theorem page_address (within : offset < 1024)
    : index * 2 ^ 22 ||| offset * 2 ^ 12 = (index * 1024 + offset) * PAGE_SIZE := by
  have small : offset * 2 ^ 12 < 2 ^ 22 := by omega
  have joined := Nat.two_pow_add_eq_or_of_lt small index
  rw [Nat.mul_comm index, ← joined, PAGE_SIZE]
  omega

theorem scanPtes_succ (recursive : Recursive machine.memory machine.cr3) (inside : index < 1024)
    (steps : Nat) {place : Nat} (runStart runLen : Nat) (within : offset < 1024)
    (placed : place = index * 1024 + offset)
    : scanPtes machine count (machine.tableOf index) index (steps + 1) offset runStart runLen
      = if machine.isMapped place then
          scanPtes machine count (machine.tableOf index) index steps (offset + 1) runStart 0
        else
          let runStart := if runLen = 0 then place * PAGE_SIZE else runStart
          if runLen + 1 = count then some (.error runStart)
          else
            scanPtes machine count (machine.tableOf index) index steps (offset + 1) runStart
              (runLen + 1) := by
  subst placed
  simp only [scanPtes, Machine.reads_mapped recursive inside within, page_address within,
    Option.bind_eq_bind, Option.bind_some]

theorem scanPtes_scan (recursive : Recursive machine.memory machine.cr3) {index : Nat}
    (inside : index < 1024) (steps : Nat) {offset place runStart runLen : Nat}
    (within : offset + steps ≤ 1024) (placed : place = index * 1024 + offset)
    (passed : runLen ≤ place) (begins : runLen ≠ 0 → runStart = (place - runLen) * PAGE_SIZE)
    : match scan machine.isMapped count steps place runLen with
      | .found start =>
          scanPtes machine count (machine.tableOf index) index steps offset runStart runLen
            = some (.error (start * PAGE_SIZE))
      | .ends length =>
          ∃ after,
            scanPtes machine count (machine.tableOf index) index steps offset runStart runLen
              = some (.ok (after, length))
            ∧ length ≤ place + steps
            ∧ (length ≠ 0 → after = (place + steps - length) * PAGE_SIZE) := by
  induction steps generalizing offset place runStart runLen with
  | zero => exact ⟨runStart, rfl, passed, begins⟩
  | succ steps ih =>
      have next : place + (steps + 1) = place + 1 + steps := by omega
      rw [scan, scanPtes_succ recursive inside steps runStart runLen (by omega) placed, next]
      by_cases isMapped : machine.isMapped place = true
      · simp only [if_pos isMapped]
        exact ih (by omega) (by omega) (by omega) (fun some => absurd rfl some)
      · simp only [if_neg isMapped]
        have starts
            : (if runLen = 0 then place * PAGE_SIZE else runStart)
              = (place + 1 - (runLen + 1)) * PAGE_SIZE := by
          by_cases none : runLen = 0
          · rw [if_pos none, none]
            rfl
          · rw [if_neg none, begins none]
            congr 1
            omega
        rw [starts]
        by_cases full : runLen + 1 = count
        · rw [if_pos full, if_pos full, full]
        · rw [if_neg full, if_neg full]
          exact ih (by omega) (by omega) (by omega) (fun _ => rfl)

/-- The outer loop is a pass over the pages up to the last one. -/
theorem scanPdes_scan (recursive : Recursive machine.memory machine.cr3)
    {startPde startPte endPde endPte : Nat} (startIn : startPte < 1024) (endIn : endPte < 1024)
    (user : endPde < KERNEL_PDE_START ∨ endPde = KERNEL_PDE_START ∧ endPte = 0) (steps : Nat)
    {place runStart runLen : Nat} (left : index + steps = min (endPde + 1) KERNEL_PDE_START)
    (after : startPde ≤ index)
    (placed : place = index * 1024 + (if index = startPde then startPte else 0))
    (passed : runLen ≤ place) (begins : runLen ≠ 0 → runStart = (place - runLen) * PAGE_SIZE)
    : scanPdes machine count startPde startPte endPde endPte steps index runStart runLen
      = match scan machine.isMapped count (endPde * 1024 + endPte - place) place runLen with
        | .found start => some (start * PAGE_SIZE)
        | .ends _ => some 0 := by
  simp only [KERNEL_PDE_START] at user left
  induction steps generalizing index place runStart runLen with
  | zero =>
      have none : endPde * 1024 + endPte - place = 0 := by omega
      rw [none, scanPdes, scan]
  | succ steps ih =>
      have inside : index < 1024 := by omega
      rw [scanPdes, Machine.reads_dir recursive inside]
      simp only [Option.bind_eq_bind, Option.bind_some]
      have table : (if present (dirEntry machine.memory machine.cr3 index) then
          some (pteGetTable index) else none) = machine.tableOf index := rfl
      rw [table]
      generalize low : (if index = startPde then startPte else 0) = pteLo at placed ⊢
      generalize high : (if index = endPde then endPte else PAGE_DIR_ENTRIES) = pteHi
      have lowIn : pteLo < 1024 := by
        rw [← low]
        split <;> omega
      have highIn : pteHi ≤ 1024
          ∧ (index < endPde ∧ pteHi = 1024 ∨ index = endPde ∧ pteHi = endPte) := by
        rw [← high]
        simp only [PAGE_DIR_ENTRIES]
        split
        · omega
        · omega
      have split : endPde * 1024 + endPte - place
          = (pteHi - pteLo) + (endPde * 1024 + endPte - (index + 1) * 1024) := by
        omega
      have inner := @scanPtes_scan _ count recursive _ inside (pteHi - pteLo) _ _ _ _
        (by omega) placed passed begins
      rw [split, scan_add]
      cases first : scan machine.isMapped count (pteHi - pteLo) place runLen with
      | found start =>
          rw [first] at inner
          simp only [inner, Option.bind_some]
      | ends length =>
          rw [first] at inner
          obtain ⟨next, ran, short, begins'⟩ := inner
          simp only [ran, Option.bind_some]
          by_cases more : index < endPde
          · have full : place + (pteHi - pteLo) = (index + 1) * 1024 := by omega
            have placed' : (index + 1) * 1024
                = (index + 1) * 1024 + (if index + 1 = startPde then startPte else 0) := by
              rw [if_neg (by omega)]
              omega
            rw [full] at short begins' ⊢
            exact ih (by omega) (by omega) placed' short begins'
          · have none : endPde * 1024 + endPte - (index + 1) * 1024 = 0 := by omega
            have last : steps = 0 := by omega
            rw [none, last, scanPdes, scan]

theorem vmmScanFree_eq (recursive : Recursive machine.memory machine.cr3) {first last : Nat}
    (user : last ≤ USER_LAST) (some : 0 < count)
    : vmmScanFree machine count (first * PAGE_SIZE) (last * PAGE_SIZE)
      = match scan machine.isMapped count (last - first) first 0 with
        | .found start => Option.some (start * PAGE_SIZE)
        | .ends _ => Option.some 0 := by
  simp only [USER_LAST] at user
  rw [vmmScanFree]
  by_cases empty : last ≤ first
  · have none : last - first = 0 := by omega
    rw [if_pos (Or.inl (Nat.mul_le_mul_right _ empty)), none, scan]
  · have order : ¬(last * PAGE_SIZE ≤ first * PAGE_SIZE ∨ count = 0) := by
      simp only [PAGE_SIZE]
      omega
    have firstPde : first * PAGE_SIZE / 2 ^ 22 = first / 1024 := by
      simp only [PAGE_SIZE]
      omega
    have lastPde : last * PAGE_SIZE / 2 ^ 22 = last / 1024 := by
      simp only [PAGE_SIZE]
      omega
    have firstPage : first * PAGE_SIZE / 2 ^ 12 = first := by
      simp only [PAGE_SIZE]
      omega
    have lastPage : last * PAGE_SIZE / 2 ^ 12 = last := by
      simp only [PAGE_SIZE]
      omega
    have whole : last / 1024 * 1024 + last % 1024 = last := by omega
    rw [if_neg order]
    simp only [firstPde, lastPde, firstPage, lastPage]
    rw [scanPdes_scan recursive (by omega) (by omega) ?_ _ ?_ (Nat.le_refl _) ?_
      (Nat.zero_le first) (fun more => absurd rfl more), whole]
    · simp only [KERNEL_PDE_START]
      omega
    · simp only [KERNEL_PDE_START]
      omega
    · rw [if_pos rfl]
      omega

-- The search

def firstPage (hint : Nat) : Nat :=
  if USER_SPACE_BASE ≤ hint ∧ hint < USER_SPACE_END then hint / PAGE_SIZE else USER_FIRST

theorem firstPage_range (hint : Nat)
    : USER_FIRST ≤ firstPage hint ∧ firstPage hint < USER_LAST := by
  rw [firstPage]
  by_cases user : USER_SPACE_BASE ≤ hint ∧ hint < USER_SPACE_END
  · rw [if_pos user]
    simp only [USER_FIRST, USER_LAST, USER_SPACE_BASE, USER_SPACE_END, PAGE_SIZE] at user ⊢
    omega
  · rw [if_neg user]
    decide

def outcomeAddress : Outcome → Nat
  | .found start => start * PAGE_SIZE
  | .ends _ => 0

theorem vmmFindFreeRun_eq (recursive : Recursive machine.memory machine.cr3) (hint : Nat)
    (some : 0 < count)
    : vmmFindFreeRun machine count hint
      = match scan machine.isMapped count (USER_LAST - firstPage hint) (firstPage hint) 0 with
        | .found start => Option.some (start * PAGE_SIZE)
        | .ends _ =>
            Option.some (outcomeAddress
              (scan machine.isMapped count (firstPage hint - USER_FIRST) USER_FIRST 0)) := by
  have base : USER_SPACE_BASE = USER_FIRST * PAGE_SIZE := by decide
  have last : USER_SPACE_END = USER_LAST * PAGE_SIZE := by decide
  have start
      : (if hint ≠ 0 ∧ USER_SPACE_BASE ≤ hint ∧ hint < USER_SPACE_END then
          hint / PAGE_SIZE * PAGE_SIZE else USER_SPACE_BASE)
        = firstPage hint * PAGE_SIZE := by
    rw [firstPage]
    by_cases user : USER_SPACE_BASE ≤ hint ∧ hint < USER_SPACE_END
    · have notZero : hint ≠ 0 := by
        simp only [USER_SPACE_BASE] at user
        omega
      rw [if_pos ⟨notZero, user⟩, if_pos user]
    · rw [if_neg (fun all => user all.2), if_neg user, base]
  obtain ⟨low, high⟩ := firstPage_range hint
  rw [vmmFindFreeRun, if_neg (Nat.ne_of_gt some)]
  simp only [start]
  rw [last, base, vmmScanFree_eq recursive (Nat.le_refl _) some,
    vmmScanFree_eq recursive (Nat.le_of_lt high) some]
  have apart : firstPage hint * PAGE_SIZE = USER_FIRST * PAGE_SIZE
      → firstPage hint - USER_FIRST = 0 := by
    simp only [PAGE_SIZE]
    omega
  rcases scan_first machine.isMapped some (Nat.le_of_lt high) with
    ⟨page, first, found, -⟩ | ⟨length, first, -⟩
  · have above := found.low
    simp only [USER_FIRST] at low
    have notZero : page * PAGE_SIZE ≠ 0 := by
      simp only [PAGE_SIZE]
      omega
    rw [first]
    simp only [Option.bind_eq_bind, Option.bind_some, if_pos (Or.inl notZero)]
  · rw [first]
    simp only [Option.bind_eq_bind, Option.bind_some]
    by_cases same : firstPage hint * PAGE_SIZE = USER_FIRST * PAGE_SIZE
    · rw [if_pos (Or.inr same), apart same, scan]
      rfl
    · rw [if_neg (fun either => either.elim (fun no => no rfl) same)]
      cases scan machine.isMapped count (firstPage hint - USER_FIRST) USER_FIRST 0 <;> rfl

theorem vmmFindFreeRun_spec (recursive : Recursive machine.memory machine.cr3) (hint : Nat)
    (some : 0 < count)
    : ∃ result, vmmFindFreeRun machine count hint = Option.some result
      ∧ ((∃ start, result = start * PAGE_SIZE
            ∧ machine.FreeRun count (firstPage hint) USER_LAST start
            ∧ ∀ other, machine.FreeRun count (firstPage hint) USER_LAST other → start ≤ other)
        ∨ (∀ other, ¬machine.FreeRun count (firstPage hint) USER_LAST other)
          ∧ ((∃ start, result = start * PAGE_SIZE
                ∧ machine.FreeRun count USER_FIRST (firstPage hint) start
                ∧ ∀ other, machine.FreeRun count USER_FIRST (firstPage hint) other
                    → start ≤ other)
            ∨ (∀ other, ¬machine.FreeRun count USER_FIRST (firstPage hint) other)
              ∧ result = 0)) := by
  obtain ⟨low, high⟩ := firstPage_range hint
  rw [vmmFindFreeRun_eq recursive hint some]
  rcases scan_first machine.isMapped some (Nat.le_of_lt high) with
    ⟨start, first, found⟩ | ⟨length, first, none⟩
  · rw [first]
    exact ⟨_, rfl, Or.inl ⟨start, rfl, found⟩⟩
  · rw [first]
    rcases scan_first machine.isMapped some low with
      ⟨start, second, found⟩ | ⟨length, second, none'⟩
    · rw [second]
      exact ⟨_, rfl, Or.inr ⟨none, Or.inl ⟨start, rfl, found⟩⟩⟩
    · rw [second]
      exact ⟨_, rfl, Or.inr ⟨none, Or.inr ⟨none', rfl⟩⟩⟩

theorem Machine.OnlyAcross.missed {hint : Nat} (only : machine.OnlyAcross hint count)
    (recursive : Recursive machine.memory machine.cr3)
    : ¬machine.SearchesWell hint count := by
  rintro ⟨result', ran', sound, complete⟩
  obtain ⟨base, last, ⟨start, run⟩, across⟩ := only
  obtain ⟨low, high⟩ := firstPage_range hint
  obtain ⟨result, ran, outcome⟩ := vmmFindFreeRun_spec recursive hint run.some
  have page : firstPage hint = hint / PAGE_SIZE := if_pos ⟨base, last⟩
  rw [ran] at ran'
  cases ran'
  rcases outcome with ⟨page', -, found, -⟩ | ⟨-, ⟨page', -, found, -⟩ | ⟨-, rfl⟩⟩
  · have := across page' ⟨found.some, Nat.le_trans low found.low, found.high, found.free⟩
    have := found.low
    omega
  · have := across page'
      ⟨found.some, found.low, Nat.le_trans found.high (Nat.le_of_lt high), found.free⟩
    have := found.high
    omega
  · exact complete rfl start run

/-- The search is sound and complete unless the only runs there are lie across the page of the
hint.
-/
theorem searchesWell_iff (recursive : Recursive machine.memory machine.cr3) (hint count : Nat)
    : machine.SearchesWell hint count ↔ ¬machine.OnlyAcross hint count := by
  by_cases none : count = 0
  · subst none
    constructor
    · rintro - ⟨-, -, ⟨start, run⟩, -⟩
      exact absurd run.some (Nat.lt_irrefl 0)
    · intro _
      exact ⟨0, rfl, fun some => absurd rfl some, fun _ start run =>
        absurd run.some (Nat.lt_irrefl 0)⟩
  have some : 0 < count := Nat.pos_of_ne_zero none
  obtain ⟨low, high⟩ := firstPage_range hint
  obtain ⟨result, ran, outcome⟩ := vmmFindFreeRun_spec recursive hint some
  have notZero : ∀ {start}, USER_FIRST ≤ start → start * PAGE_SIZE ≠ 0 := by
    intro start above
    simp only [USER_FIRST, PAGE_SIZE] at above ⊢
    omega
  constructor
  · exact fun well only => only.missed recursive well
  · intro not
    refine ⟨result, ran, ?_⟩
    rcases outcome with ⟨start, rfl, found, -⟩ | ⟨above, ⟨start, rfl, found, -⟩ | ⟨below, rfl⟩⟩
    · have run : machine.FreeRun count USER_FIRST USER_LAST start :=
        ⟨found.some, Nat.le_trans low found.low, found.high, found.free⟩
      exact ⟨fun _ => ⟨start, rfl, run⟩, fun zero => absurd zero (notZero run.low)⟩
    · have run : machine.FreeRun count USER_FIRST USER_LAST start :=
        ⟨found.some, found.low, Nat.le_trans found.high (Nat.le_of_lt high), found.free⟩
      exact ⟨fun _ => ⟨start, rfl, run⟩, fun zero => absurd zero (notZero run.low)⟩
    · refine ⟨fun some => absurd rfl some, fun _ start run => not ?_⟩
      have stretches : ∀ other, machine.FreeRun count USER_FIRST USER_LAST other
          → other < firstPage hint ∧ firstPage hint < other + count := by
        intro other run
        constructor
        · by_contra after
          exact above other ⟨run.some, Nat.le_of_not_lt after, run.high, run.free⟩
        · by_contra before
          exact below other ⟨run.some, run.low, Nat.le_of_not_lt before, run.free⟩
      by_cases user : USER_SPACE_BASE ≤ hint ∧ hint < USER_SPACE_END
      · have page : firstPage hint = hint / PAGE_SIZE := if_pos user
        rw [page] at stretches
        exact ⟨user.1, user.2, ⟨start, run⟩, stretches⟩
      · have page : firstPage hint = USER_FIRST := if_neg user
        have := (stretches start run).1
        have := run.low
        omega

end

-- One page in every 4 MiB

/-- A directory whose user tables all have their first page mapped, but for the four of them around
0x40000000.
-/
def sparseWord (index : Nat) : Nat :=
  let page := index / 1024
  let entry := index % 1024
  if page = 1 then
    if entry = 1023 then 0x1003
    else if 32 ≤ entry ∧ entry < 768 then (16 + entry) * 4096 + 7
    else 0
  else if 48 ≤ page ∧ page < 784 ∧ entry = 0 ∧ ¬(270 ≤ page ∧ page ≤ 273) then
    (2048 + page) * 4096 + 7
  else 0

def sparse : Machine where
  memory := Memory.ofWords sparseWord
  cr3 := 0x1000
  frames := 4096
  free := fun _ => false
  cursor := 0
  mapped := []

theorem sparseWord_lt (index : Nat) : sparseWord index < 4294967296 := by
  simp only [sparseWord]
  split_ifs <;> omega

theorem sparse_dirEntry (index : Nat)
    : dirEntry sparse.memory sparse.cr3 index = sparseWord (1024 + index) := by
  have place : sparse.cr3 + 4 * index = 4 * (1024 + index) := by
    simp only [sparse]
    omega
  rw [dirEntry, place, sparse, Memory.word_ofWords (sparseWord_lt _)]

theorem sparse_recursive : Recursive sparse.memory sparse.cr3 := by
  rw [Recursive, sparse_dirEntry]
  exact ⟨by decide, by decide⟩

theorem present_user (frame : Nat) : present (frame * 4096 + 7) = true := by
  simp only [present, beq_iff_eq]
  omega

/-- The pages that are mapped. -/
theorem sparse_isMapped {page : Nat} (low : 32 * 1024 ≤ page) (high : page < 768 * 1024)
    : sparse.isMapped page = true
      ↔ page % 1024 = 0 ∧ ¬(254 ≤ page / 1024 ∧ page / 1024 ≤ 257) := by
  have entry : sparseWord (1024 + page / 1024) = (16 + page / 1024) * 4096 + 7 := by
    have first : (1024 + page / 1024) / 1024 = 1 := by omega
    have second : (1024 + page / 1024) % 1024 = page / 1024 := by omega
    simp only [sparseWord, first, second, if_true]
    rw [if_neg (by omega), if_pos (by omega)]
  have whole : frame ((16 + page / 1024) * 4096 + 7) + 4 * (page % 1024)
      = 4 * ((16 + page / 1024) * 1024 + page % 1024) := by
    simp only [frame]
    omega
  rw [Machine.isMapped, pageEntry, sparse_dirEntry, entry]
  simp only [present_user, if_true]
  rw [whole, sparse, Memory.word_ofWords (sparseWord_lt _)]
  have third : ((16 + page / 1024) * 1024 + page % 1024) / 1024 = 16 + page / 1024 := by omega
  have fourth : ((16 + page / 1024) * 1024 + page % 1024) % 1024 = page % 1024 := by omega
  simp only [sparseWord, third, fourth]
  rw [if_neg (by omega)]
  by_cases isMapped : page % 1024 = 0 ∧ ¬(254 ≤ page / 1024 ∧ page / 1024 ≤ 257)
  · rw [if_pos (by omega)]
    exact ⟨fun _ => isMapped, fun _ => present_user _⟩
  · rw [if_neg (by omega), present_zero]
    simp only [Bool.false_eq_true, false_iff]
    exact isMapped

theorem sparse_blocked {start count place : Nat} (run : sparse.FreeRun count USER_FIRST USER_LAST start)
    (after : start ≤ place) (before : place < start + count) (first : place % 1024 = 0)
    (away : ¬(254 ≤ place / 1024 ∧ place / 1024 ≤ 257))
    : False := by
  have low := run.low
  have high := run.high
  simp only [USER_FIRST, USER_LAST] at low high
  have isFree := run.free place after before
  have isMapped := (sparse_isMapped (by omega) (by omega)).mpr ⟨first, away⟩
  rw [isFree] at isMapped
  cases isMapped

/-- There are 5119 free pages in a row around 0x40000000, and a search for 4096 of them from there
finds none.
-/
theorem sparse_missed
    : sparse.FreeRun 5119 USER_FIRST USER_LAST (253 * 1024 + 1)
      ∧ ¬sparse.SearchesWell 0x40000000 4096 := by
  have gap : ∀ place, 253 * 1024 + 1 ≤ place → place < 258 * 1024
      → sparse.isMapped place = false := by
    intro place low high
    have := @sparse_isMapped place (by omega) (by omega)
    rw [Bool.eq_false_iff, Ne, this]
    omega
  refine ⟨⟨by decide, by decide, by decide, fun place low high => gap place low (by omega)⟩, ?_⟩
  refine Machine.OnlyAcross.missed
    ⟨by decide, by decide, ⟨253 * 1024 + 1, by decide, by decide, by decide, ?_⟩, ?_⟩
    sparse_recursive
  · exact fun place low high => gap place low (by omega)
  · intro start run
    have low := run.low
    have high := run.high
    have page : 0x40000000 / PAGE_SIZE = 256 * 1024 := by decide
    simp only [USER_FIRST, USER_LAST] at low high
    rw [page]
    constructor
    · by_contra above
      by_cases near : start ≤ 258 * 1024
      · exact sparse_blocked run near (by omega) (by decide) (by decide)
      · exact @sparse_blocked _ _ ((start + 1023) / 1024 * 1024) run (by omega) (by omega)
          (by omega) (by omega)
    · by_contra below
      exact @sparse_blocked _ _ ((start + 1023) / 1024 * 1024) run (by omega) (by omega)
        (by omega) (by omega)

/-- A search for a single page, from the start of user space on. -/
theorem searchesWell_small : sparse.SearchesWell 0 1 ↔ ¬sparse.OnlyAcross 0 1 :=
  searchesWell_iff sparse_recursive 0 1

end Panuti.Vmm
