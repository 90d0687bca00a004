import Mathlib.Data.List.Induction
import Panuti.Memory.ZeroedRuns

/-! MMAPAN as a whole: chunk after chunk a run of user pages is built, or all of it is undone. A
call succeeds if and only if a run is found and the frames that are free suffice for the pages and
for the tables above them.
-/

namespace Panuti.Vmm

open ByteMemory PageTable

-- What the chunks have built so far

/-- The pages from `page` on are mapped, each to its own frame of `got`, and the frames are
cleared; nothing else has changed but the tables that were missing.
-/
structure Built (dirs data : List Nat) (machine after : Machine) (page flags : Nat)
    (got tables : List Nat) : Prop where
  spaces : Spaces after dirs (got ++ data)
  spends : Spends machine after tables got
  directory
    : ∀ dir ∈ dirs, dir ≠ machine.cr3 → ∀ index < 1024,
        dirEntry after.memory dir index = dirEntry machine.memory dir index
  bytes : ∀ place, place / 4096 * 4096 ∈ data → after.memory place = machine.memory place
  others
    : ∀ dir ∈ dirs, ∀ other, other / 1024 < 1023
      → ¬(dir = machine.cr3 ∧ runPages page got.length other)
      → after.view dir other = machine.view dir other
  view
    : ∀ index place, got[index]? = some place
      → after.view machine.cr3 (page + index) = some (place ||| (flags ||| PAGE_PRESENT))
  zero : ∀ place ∈ got, ∀ offset < 4096, after.memory (place + offset) = 0
  permits
    : flags &&& PAGE_USER ≠ 0 → ∀ other, runPages page got.length other
      → (dirEntry after.memory machine.cr3 (other / 1024)).testBit 2 = true
  missing
    : ∀ rest, machine.missing page (got.length + rest)
      = tables.length + after.missing (page + got.length) rest

/-- All pages are as they were, and so are the frames but those that became tables. -/
structure Undone (dirs data : List Nat) (machine after : Machine) (tables : List Nat) : Prop where
  spaces : Spaces after dirs data
  spends : Spends machine after tables []
  view : SameView dirs machine after
  directory
    : ∀ dir ∈ dirs, dir ≠ machine.cr3 → ∀ index < 1024,
        dirEntry after.memory dir index = dirEntry machine.memory dir index
  bytes : ∀ place, place / 4096 * 4096 ∈ data → after.memory place = machine.memory place

section

variable {dirs data : List Nat} {machine middle after : Machine} {page flags : Nat}
  {got phys tables moreTables : List Nat}

theorem Built.refl (spaces : Spaces machine dirs data)
    : Built dirs data machine machine page flags [] [] where
  spaces := spaces
  spends := Spends.refl machine
  directory _ _ _ _ _ := rfl
  bytes _ _ := rfl
  others _ _ _ _ _ := rfl
  view _ _ isPlace := by simp at isPlace
  zero _ member := by simp at member
  permits _ other inRun := by
    have below := inRun.2
    have above := inRun.1
    simp only [List.length_nil] at below
    omega
  missing rest := by simp

theorem Takes.fresh_data (takes : Takes machine after phys) (spaces : Spaces machine dirs data)
    {place : Nat} (taken : place ∈ phys)
    : place ∉ data := by
  intro inData
  have isFree := (takes.fresh place taken).2.2
  rw [(spaces.sound.paged.filled place inData).2.2.1] at isFree
  cases isFree

theorem Takes.unmapped (takes : Takes machine after phys) (spaces : Spaces machine dirs data)
    {place : Nat} (taken : place ∈ phys)
    : after.Unmapped dirs place := by
  rintro dir member other user entry seen rfl
  rw [takes.tables.view] at seen
  exact takes.fresh_data spaces taken (spaces.backed dir member other user entry seen)

theorem runPages_append {first second other : Nat}
    : runPages page (first + second) other
      ↔ runPages page first other ∨ runPages (page + first) second other := by
  simp only [runPages]
  omega

/-- The next chunk. -/
theorem Built.chunk {taken : Machine}
    (built : Built dirs data machine middle page flags got tables)
    (takes : Takes middle taken phys)
    (mapped
      : Mapped dirs (phys ++ (got ++ data)) taken after (page + got.length) flags phys moreTables)
    (user : page + got.length + phys.length ≤ USER_LAST)
    : Built dirs data machine after page flags (got ++ phys) (tables ++ moreTables) := by
  have current := built.spaces.sound.current
  have takenCr3 : taken.cr3 = machine.cr3 := takes.tables.cr3.trans built.spends.cr3
  have sameDirectory (dir index : Nat)
      : dirEntry taken.memory dir index = dirEntry middle.memory dir index := by
    rw [takes.tables.memory]
  have kept : ∀ place, place / 4096 * 4096 ∈ got ++ data
      → after.memory place = middle.memory place := by
    intro place inUse
    rw [mapped.bytes place (List.mem_append_right _ inUse)
      (fun isNew => takes.fresh_data built.spaces isNew inUse), takes.tables.memory]
  have earlier : ∀ other, runPages page got.length other
      → after.view machine.cr3 other = middle.view machine.cr3 other := by
    intro other inRun
    have inUser := runPages_user (by omega) inRun
    rw [mapped.others _ (built.spends.cr3 ▸ current) other (user_inside inUser) ?_,
      takes.tables.view]
    simp only [runPages] at inRun ⊢
    omega
  refine ⟨mapped.spaces.ofMem ?_, ?_, ?_, ?_, ?_, ?_, ?_, ?_, ?_⟩
  · intro place
    simp only [List.mem_append, or_assoc, or_left_comm]
  · have spends := built.spends.trans (takes.spends.trans mapped.spends)
    rw [List.nil_append, List.append_nil] at spends
    exact spends
  · intro dir member apart index inside
    rw [mapped.directory dir member (by rw [takenCr3]; exact apart) index inside, sameDirectory,
      built.directory dir member apart index inside]
  · intro place inData
    rw [kept place (List.mem_append_right _ inData), built.bytes place inData]
  · intro dir member other inside apart
    rw [List.length_append, runPages_append] at apart
    rw [mapped.others dir member other inside ?_, takes.tables.view,
      built.others dir member other inside (fun is => apart ⟨is.1, Or.inl is.2⟩)]
    rw [takenCr3]
    exact fun is => apart ⟨is.1, Or.inr is.2⟩
  · intro index place isPlace
    by_cases before : index < got.length
    · rw [List.getElem?_append_left before] at isPlace
      rw [earlier _ ⟨Nat.le_add_right .., by omega⟩]
      exact built.view index place isPlace
    · rw [List.getElem?_append_right (by omega)] at isPlace
      have seen := mapped.view _ place isPlace
      have sum : page + got.length + (index - got.length) = page + index := by omega
      rw [takenCr3, sum] at seen
      exact seen
  · intro place member offset inside
    rcases List.mem_append.mp member with inGot | inPhys
    · have inUse := List.mem_append_left data inGot
      have aligned := (built.spaces.sound.paged.filled place inUse).1
      have sameFrame : (place + offset) / 4096 * 4096 = place := by omega
      rw [kept _ (by rw [sameFrame]; exact inUse)]
      exact built.zero place inGot offset inside
    · exact mapped.zero place inPhys offset inside
  · intro forUser other inRun
    rw [List.length_append, runPages_append] at inRun
    rcases inRun with before | inChunk
    · have inUser : other < USER_LAST := runPages_user (by omega) before
      have inside : other - page < got.length := by
        have below := before.2
        have above := before.1
        omega
      have seen := built.view (other - page) got[other - page] (List.getElem?_eq_getElem inside)
      have sum : page + (other - page) = other := by
        have above := before.1
        omega
      rw [sum] at seen
      have there := Machine.view_present seen
      have stays := mapped.spends.stays (other / 1024) (user_inside inUser)
      rw [takenCr3, sameDirectory] at stays
      exact (stays there).2.2 (built.permits forUser other before)
    · have permits := mapped.permits forUser other inChunk
      rw [takenCr3] at permits
      exact permits
  · intro rest
    have first := built.missing (phys.length + rest)
    have second := mapped.missing rest
    have same : taken.missing (page + got.length) (phys.length + rest)
        = middle.missing (page + got.length) (phys.length + rest) :=
      Machine.missing_congr takes.tables.cr3 (fun index _ => sameDirectory _ index)
    rw [same] at second
    have place : page + got.length + phys.length = page + (got.length + phys.length) := by omega
    rw [place] at second
    rw [List.length_append, List.length_append, Nat.add_assoc got.length, first, second]
    omega

theorem filterMap_getElem? (list : List Nat)
    : (List.range list.length).filterMap (fun index => list[index]?) = list := by
  induction list using List.reverseRecOn with
  | nil => rfl
  | append_singleton list last ih =>
      have before : ∀ index ∈ List.range list.length, (list ++ [last])[index]? = list[index]? :=
        fun index member => List.getElem?_append_left (List.mem_range.mp member)
      rw [List.length_append, List.length_singleton, List.range_succ, List.filterMap_append,
        List.filterMap_congr before, ih]
      simp

theorem Built.framesIn (built : Built dirs data machine middle page flags got tables)
    (small : flags < 4096) (cr3 : after.cr3 = machine.cr3)
    (view : ∀ other, runPages page got.length other
      → after.view machine.cr3 other = middle.view machine.cr3 other)
    : after.framesIn page got.length = got := by
  have flagsSmall : flags ||| PAGE_PRESENT < 4096 :=
    Nat.or_lt_two_pow (n := 12) small (by decide)
  rw [Machine.framesIn, List.range'_eq_map_range, List.filterMap_map]
  have each : ∀ index ∈ List.range got.length,
      ((fun other => (after.view after.cr3 other).map frame) ∘ fun index => page + index) index
        = got[index]? := by
    intro index member
    have inside := List.mem_range.mp member
    have isPlace := List.getElem?_eq_getElem inside
    have aligned := (built.spaces.sound.paged.filled _
      (List.mem_append_left data (List.getElem_mem inside))).1
    simp only [Function.comp_apply]
    rw [cr3, view _ ⟨Nat.le_add_right .., by omega⟩, built.view index _ isPlace, isPlace,
      Option.map_some, (frame_or aligned flagsSmall).1]
  rw [List.filterMap_congr each]
  exact filterMap_getElem? got

/-- Where a chunk failed, what the chunks before it built is undone. -/
theorem Built.undo (start : Spaces machine dirs data) (small : flags < 4096)
    (built : Built dirs data machine middle page flags got tables)
    (user : page + got.length ≤ USER_LAST)
    (spaces : Spaces after dirs (got ++ data)) (spends : Spends middle after moreTables [])
    (view : SameView dirs middle after)
    (directory
      : ∀ dir ∈ dirs, dir ≠ middle.cr3 → ∀ index < 1024,
          dirEntry after.memory dir index = dirEntry middle.memory dir index)
    (bytes : ∀ place, place / 4096 * 4096 ∈ data → after.memory place = middle.memory place)
    (unmapped : ∀ other, runPages page got.length other → machine.view machine.cr3 other = none)
    : ∃ last, vmmUnmapRunFree after (page * PAGE_SIZE) got.length = some last
      ∧ Undone dirs data machine last (tables ++ moreTables) := by
  have current := built.spaces.sound.current
  rw [built.spends.cr3] at current
  obtain ⟨last, ran, released⟩ := spaces.vmmUnmapRunFree user
  have cr3 : after.cr3 = machine.cr3 := spends.cr3.trans built.spends.cr3
  have freed : after.framesIn page got.length = got := by
    refine built.framesIn small cr3 (fun other inRun => ?_)
    exact view _ current other (user_inside (runPages_user user inRun))
  rw [freed] at released
  have all := built.spends.trans spends
  rw [List.append_nil] at all
  have notIn : ∀ place ∈ data, place ∉ got := by
    intro place inData inGot
    have fresh := (all.fresh place (List.mem_append_right _ inGot)).2.2
    have inUse := (start.sound.paged.filled place inData).2.2.1
    simp only [PAGE_SIZE] at fresh
    rw [inUse] at fresh
    cases fresh
  refine ⟨last, ran, ⟨released.spaces.ofMem ?_, ?_, ?_, ?_, ?_⟩⟩
  · intro place
    simp only [List.mem_filter, List.mem_append, decide_eq_true_eq]
    constructor
    · exact fun inData => ⟨Or.inr inData, notIn place inData⟩
    · rintro ⟨inGot | inData, notGot⟩
      · exact absurd inGot notGot
      · exact inData
  · refine all.giveBack released.frames released.cr3 released.free ?_
    intro index inside
    exact released.directory _ current index (by omega)
  · intro dir member other inside
    by_cases here : dir = machine.cr3 ∧ runPages page got.length other
    · rw [here.1, unmapped other here.2, ← cr3]
      exact released.unmapped other here.2
    · rw [released.others dir member other inside (by rw [cr3]; exact here),
        view dir member other inside, built.others dir member other inside here]
  · intro dir member apart index inside
    rw [released.directory dir member index inside,
      directory dir member (by rw [built.spends.cr3]; exact apart) index inside,
      built.directory dir member apart index inside]
  · intro place inData
    rw [released.bytes place (List.mem_append_right _ inData) (notIn _ inData), bytes place inData,
      built.bytes place inData]

theorem Takes.giveBack {taken : Machine} (spaces : Spaces machine dirs data)
    (takes : Takes machine taken phys) (held : Spaces middle dirs (phys ++ data))
    (spends : Spends taken middle moreTables []) (view : SameView dirs taken middle)
    : Spaces (phys.foldl pmmFreep middle) dirs data
      ∧ Spends machine (phys.foldl pmmFreep middle) moreTables []
      ∧ SameView dirs machine (phys.foldl pmmFreep middle)
      ∧ (phys.foldl pmmFreep middle).memory = middle.memory := by
  have unmapped : ∀ place ∈ phys, middle.Unmapped dirs place :=
    fun place member => (takes.unmapped spaces member).same view
  obtain ⟨given, same, free⟩ := held.giveBack takes.nodup
    (fun place member => List.mem_append_left _ member) unmapped
  have all := takes.spends.trans spends
  rw [List.nil_append, List.append_nil] at all
  refine ⟨given.ofMem ?_, all.giveBack same.frames same.cr3 free ?_, ?_, same.memory⟩
  · intro place
    simp only [List.mem_filter, List.mem_append, decide_eq_true_eq]
    constructor
    · exact fun inData => ⟨Or.inr inData, fun isNew => takes.fresh_data spaces isNew inData⟩
    · rintro ⟨isNew | inData, notNew⟩
      · exact absurd isNew notNew
      · exact inData
  · intro index _
    rw [same.memory]
  · intro dir member other inside
    rw [same.view, view dir member other inside, takes.tables.view]

-- The loop over the chunks

/-- A run of pages that needs more frames than are free. -/
def Machine.Lacks (machine : Machine) (page npages : Nat) : Prop :=
  machine.freeFrames < npages + machine.missing page npages

/-- The outcome of the loop: the run is built, or frames are lacking and nothing is left of it. -/
def LoopOutcome (dirs data : List Nat) (machine after : Machine) (page npages flags : Nat)
    (result : Except Nat Nat) : Prop :=
  (result = .ok (page * PAGE_SIZE)
    ∧ ∃ got tables, got.length = npages ∧ Built dirs data machine after page flags got tables)
  ∨ (result = .error PANUTIERRNO_NOMEM ∧ machine.Lacks page npages
    ∧ ∃ tables, Undone dirs data machine after tables)

theorem chunk_address {mapped : Nat} (user : page + mapped < USER_LAST)
    : (page * PAGE_SIZE + mapped * 2 ^ 12) % 2 ^ 32 = (page + mapped) * PAGE_SIZE := by
  simp only [USER_LAST] at user
  simp only [PAGE_SIZE]
  omega

theorem mmapanLoop_spec {start : Machine} {npages : Nat} (spaces : Spaces start dirs data)
    (small : flags < 4096) (user : page + npages ≤ USER_LAST)
    (unmapped : ∀ other, runPages page npages other → start.view start.cr3 other = none)
    {turns : Nat} (built : Built dirs data start machine page flags got tables)
    (fits : got.length ≤ npages) (enough : npages - got.length < turns)
    : ∃ result after,
        mmapanLoop (page * PAGE_SIZE) npages flags turns machine got.length = some (result, after)
        ∧ LoopOutcome dirs data start after page npages flags result := by
  induction turns generalizing machine got tables with
  | zero => omega
  | succ turns ih =>
      rw [mmapanLoop]
      by_cases all : npages ≤ got.length
      · rw [if_pos all]
        exact ⟨_, machine, rfl, Or.inl ⟨rfl, got, tables, by omega, built⟩⟩
      rw [if_neg all]
      simp only [chunk_address (by omega : page + got.length < USER_LAST)]
      generalize isChunk : min (npages - got.length) MMAPAN_CHUNK = chunk
      have chunkPos : 0 < chunk ∧ chunk ≤ npages - got.length := by
        simp only [MMAPAN_CHUNK] at isChunk
        omega
      have current := spaces.sound.current
      have cr3 := built.spends.cr3
      obtain ⟨takes, taken, length⟩ := built.spaces.takeFrames chunk
      generalize (takeFrames machine chunk).1 = phys at *
      generalize (takeFrames machine chunk).2 = middle at *
      have counted := built.spends.count
      have missing := built.missing (npages - got.length)
      have whole : got.length + (npages - got.length) = npages := by omega
      rw [whole] at missing
      rw [List.length_append] at counted
      have unmappedGot : ∀ other, runPages page got.length other
          → start.view start.cr3 other = none :=
        fun other inRun => unmapped other ⟨inRun.1, by have := inRun.2; omega⟩
      by_cases few : phys.length < chunk
      · rw [if_pos few]
        obtain ⟨given, spends, view, memory⟩ := takes.giveBack built.spaces taken
          (Spends.refl middle) (SameView.refl middle)
        obtain ⟨last, ran, undone⟩ := built.undo spaces small (by omega) given spends view
          (fun dir _ _ index _ => by rw [memory, takes.tables.memory])
          (fun place _ => by rw [memory, takes.tables.memory]) unmappedGot
        rw [ran]
        refine ⟨_, last, rfl, Or.inr ⟨rfl, ?_, _, undone⟩⟩
        rw [Machine.Lacks]
        omega
      · rw [if_neg few]
        have full : phys.length = chunk := by omega
        have middleCr3 : middle.cr3 = start.cr3 := takes.tables.cr3.trans cr3
        have unmappedHere : ∀ other, runPages (page + got.length) phys.length other
            → middle.view middle.cr3 other = none := by
          intro other inRun
          have inside : runPages page npages other ∧ ¬runPages page got.length other := by
            simp only [runPages] at inRun ⊢
            omega
          rw [middleCr3, takes.tables.view, built.others _ current other
            (user_inside (runPages_user user inside.1)) (fun is => inside.2 is.2)]
          exact unmapped other inside.1
        obtain ⟨mapped, after, moreTables, ran, outcome⟩ := taken.vmmMapZeroedRun
          (by omega : page + got.length + phys.length ≤ USER_LAST) takes.nodup
          (fun place member => List.mem_append_left _ member)
          (fun place member => takes.unmapped built.spaces member) unmappedHere small
        rw [ran]
        simp only [Option.bind_eq_bind, Option.bind_some]
        rcases outcome with ⟨rfl, isMapped⟩ | ⟨rfl, short, view⟩
        · have more := built.chunk takes isMapped (by omega)
          have lengths : (got ++ phys).length = got.length + chunk := by
            rw [List.length_append, full]
          rw [if_pos rfl, ← lengths]
          exact ih more (by omega) (by omega)
        · obtain ⟨given, spends, viewToo, memory⟩ := takes.giveBack built.spaces short.spaces
            short.spends view
          have kept : ∀ place, place / 4096 * 4096 ∈ got ++ data
              → after.memory place = machine.memory place := by
            intro place inUse
            rw [short.bytes place (List.mem_append_right _ inUse)
              (fun isNew => takes.fresh_data built.spaces isNew inUse), takes.tables.memory]
          obtain ⟨last, ranToo, undone⟩ := built.undo spaces small (by omega) given spends viewToo
            (fun dir member apart index inside => by
              rw [memory, short.directory dir member (by rw [middleCr3, ← cr3]; exact apart) index
                inside, takes.tables.memory])
            (fun place inData => by rw [memory, kept place (List.mem_append_right _ inData)])
            unmappedGot
          rw [if_neg (by decide), ranToo]
          refine ⟨_, last, rfl, Or.inr ⟨rfl, ?_, _, undone⟩⟩
          have takenCount := takes.spends.count
          have shortCount := short.spends.count
          have none := short.none
          have need := short.missing (npages - got.length - phys.length)
          have sum : phys.length + (npages - got.length - phys.length) = npages - got.length := by
            omega
          have same : middle.missing (page + got.length) (npages - got.length)
              = machine.missing (page + got.length) (npages - got.length) :=
            Machine.missing_congr takes.tables.cr3 (fun index _ => by rw [takes.tables.memory])
          rw [sum, same] at need
          simp only [List.nil_append, List.append_nil] at takenCount shortCount
          rw [Machine.Lacks]
          omega

end

end Panuti.Vmm
