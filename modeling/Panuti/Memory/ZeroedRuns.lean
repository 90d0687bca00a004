import Panuti.Memory.ScratchPage
import Panuti.Memory.UserRuns

/-! A run of user pages mapped to cleared frames, page by page. Either all pages are mapped, or a
table is missing and no frame is free; both outcomes say what was spent on tables.
-/

namespace Panuti.Vmm

open ByteMemory PageTable

-- The two outcomes

/-- What both outcomes have in common: nothing changes but the pages of the run, the frames `phys`
and the tables of the current directory.
-/
structure Touches (dirs data : List Nat) (machine after : Machine) (page : Nat)
    (phys tables : List Nat) : Prop where
  spaces : Spaces after dirs data
  spends : Spends machine after tables []
  directory
    : ∀ dir ∈ dirs, dir ≠ machine.cr3 → ∀ index < 1024,
        dirEntry after.memory dir index = dirEntry machine.memory dir index
  bytes
    : ∀ place, place / 4096 * 4096 ∈ data → place / 4096 * 4096 ∉ phys
      → after.memory place = machine.memory place
  others
    : ∀ dir ∈ dirs, ∀ other, other / 1024 < 1023
      → ¬(dir = machine.cr3 ∧ runPages page phys.length other)
      → after.view dir other = machine.view dir other

/-- All pages of the run are mapped, each to its own frame, and the frames are cleared. -/
structure Mapped (dirs data : List Nat) (machine after : Machine) (page flags : Nat)
    (phys tables : List Nat) : Prop extends Touches dirs data machine after page phys tables where
  view
    : ∀ index place, phys[index]? = some place
      → after.view machine.cr3 (page + index) = some (place ||| (flags ||| PAGE_PRESENT))
  zero : ∀ place ∈ phys, ∀ offset < 4096, after.memory (place + offset) = 0
  permits
    : flags &&& PAGE_USER ≠ 0 → ∀ other, runPages page phys.length other
      → (dirEntry after.memory machine.cr3 (other / 1024)).testBit 2 = true
  missing
    : ∀ rest, machine.missing page (phys.length + rest)
      = tables.length + after.missing (page + phys.length) rest

/-- A table is missing, and there is no frame for it. -/
structure Short (dirs data : List Nat) (machine after : Machine) (page : Nat)
    (phys tables : List Nat) : Prop extends Touches dirs data machine after page phys tables where
  none : after.freeFrames = 0
  missing : ∀ rest, tables.length < machine.missing page (phys.length + rest)

section

variable {dirs data : List Nat} {machine middle after : Machine} {page flags : Nat}

theorem Machine.view_present {dir entry : Nat} (seen : machine.view dir page = some entry)
    : present (dirEntry machine.memory dir (page / 1024)) = true := by
  by_contra not
  have absent : present (dirEntry machine.memory dir (page / 1024)) = false := by simpa using not
  rw [Machine.view, pageEntry] at seen
  simp only [absent, Bool.false_eq_true, if_false, present_zero] at seen
  cases seen

variable {phys : Nat}

theorem Closed.spends (clears : Closed dirs data machine middle after phys)
    (current : machine.cr3 ∈ dirs)
    : Spends machine after [] [] :=
  Spends.none clears.frames clears.cr3 clears.free
    (fun index inside => clears.directory _ current index (by omega))

theorem Machine.missing_congr {count : Nat} (cr3 : after.cr3 = machine.cr3)
    (directory
      : ∀ index < 1023,
          dirEntry after.memory machine.cr3 index = dirEntry machine.memory machine.cr3 index)
    : after.missing page count = machine.missing page count := by
  refine List.countP_congr ?_
  intro index member
  have inside := List.mem_range.mp member
  simp only [KERNEL_PDE_START] at inside
  rw [cr3, directory index (by omega)]

/-- One turn of the loop: a frame is cleared and mapped, and the page is looked up. -/
theorem Spaces.mapZeroedPage (spaces : Spaces machine dirs data) (user : page < USER_LAST)
    (held : phys ∈ data) (alone : machine.Unmapped dirs phys) (small : flags < 4096)
    : ∃ cleared after found tables, vmmZeroFrame machine phys = some cleared
      ∧ vmmMap cleared (page * PAGE_SIZE) phys flags = some after
      ∧ vmmGetPhys after (page * PAGE_SIZE) = some found
      ∧ (found = phys ∧ Mapped dirs data machine after page flags [phys] tables
        ∨ found ≠ phys ∧ Short dirs data machine after page [phys] tables) := by
  obtain ⟨_, cleared, zeroes, clears, zero⟩ := spaces.zeroFrame held
  have current := spaces.sound.current
  have cr3 := clears.cr3
  have inside := user_inside user
  obtain ⟨high, whole⟩ := @user_page page
  obtain ⟨after, maps, step, table, kept, seen⟩ :=
    clears.spaces.mapPage user held (alone.same clears.view) small
  have recursive := (step.spaces.sound.paged.rooted _ step.spaces.sound.current).2.2.2
  have found := vmmGetPhys_eq recursive
    (by omega : page * PAGE_SIZE / 2 ^ 22 < 1024)
  rw [whole, step.cr3] at found
  have spent := table.spends (user_table user) step.cr3
    (fun index inside apart => kept _ clears.spaces.sound.current index (by omega)
      (fun is => apart is.2))
  have others : ∀ dir ∈ dirs, ∀ other, other / 1024 < 1023
      → ¬(dir = machine.cr3 ∧ runPages page [phys].length other)
      → after.view dir other = machine.view dir other := by
    intro dir member other inside' apart
    rw [step.others dir member other inside' ?_, clears.view dir member other inside']
    rintro ⟨isCurrent, rfl⟩
    exact apart ⟨isCurrent.trans cr3, Nat.le_refl _, Nat.lt_succ_self _⟩
  have directory : ∀ dir ∈ dirs, dir ≠ machine.cr3 → ∀ index < 1024,
      dirEntry after.memory dir index = dirEntry machine.memory dir index := by
    intro dir member apart index inside'
    rw [kept dir member index inside' (fun is => apart (is.1.trans cr3)),
      clears.directory dir member index inside']
  have bytes : ∀ place, place / 4096 * 4096 ∈ data → place / 4096 * 4096 ∉ [phys]
      → after.memory place = machine.memory place := by
    intro place inData apart
    rw [step.keeps.bytes place (Or.inl inData),
      clears.bytes place inData (by simpa using apart)]
  have sameTables : ∀ index < 1023,
      dirEntry cleared.memory machine.cr3 index = dirEntry machine.memory machine.cr3 index :=
    fun index inside' => clears.directory _ current index (by omega)
  have aligned := (spaces.sound.paged.filled phys held).1
  rw [cr3] at spent seen found kept
  rcases spent with ⟨tables, spends, there, length⟩ | ⟨spends, noFrames, absent, still⟩
  · rw [if_pos there] at seen
    rw [seen] at found
    have flagsSmall : flags ||| PAGE_PRESENT < 4096 :=
      Nat.or_lt_two_pow (n := 12) small (by decide)
    obtain ⟨isFrame, _⟩ := frame_or aligned flagsSmall
    simp only [isFrame] at found
    refine ⟨cleared, after, phys, tables, zeroes, maps, found, Or.inl ⟨rfl, ?_⟩⟩
    refine ⟨⟨step.spaces, (clears.spends current).trans spends, directory, bytes, others⟩, ?_, ?_,
      ?_, ?_⟩
    · intro index place isPlace
      cases index with
      | zero =>
          obtain rfl : phys = place := by simpa using isPlace
          exact seen
      | succ index => simp at isPlace
    · intro place member offset inside'
      obtain rfl : place = phys := by simpa using member
      have sameFrame : (place + offset) / 4096 * 4096 = place := by omega
      rw [step.keeps.bytes _ (Or.inl (by rw [sameFrame]; exact held))]
      exact zero offset inside'
    · intro forUser other inRun
      obtain rfl : other = page := by
        have below := inRun.2
        have above := inRun.1
        simp only [List.length_singleton] at below
        omega
      have permits := table.permits forUser (by rw [cr3]; exact there)
      rw [cr3] at permits
      exact permits
    · intro rest
      have count : [phys].length + rest = rest + 1 := Nat.add_comm 1 rest
      rw [count, Machine.missing_succ (user_table user) (step.cr3.trans cr3) ?_ there, length,
        sameTables _ inside]
      · rfl
      · intro index inside' apart
        rw [kept _ current index (by omega) (fun is => apart is.2), sameTables index inside']
  · rw [if_neg (by simp [still])] at seen
    rw [seen] at found
    have notZero := (spaces.known phys held).2
    refine ⟨cleared, after, 0, [], zeroes, maps, found, Or.inr ⟨notZero.symm, ?_⟩⟩
    refine ⟨⟨step.spaces, (clears.spends current).trans spends, directory, bytes, others⟩, ?_, ?_⟩
    · have count := spends.count
      simp only [List.append_nil, List.length_nil] at count
      omega
    · intro rest
      have count : [phys].length + rest = rest + 1 := Nat.add_comm 1 rest
      rw [sameTables _ inside] at absent
      rw [count]
      exact Machine.missing_pos (user_table user) absent

theorem Touches.cons {phys : Nat} {rest firstTables restTables : List Nat}
    (first : Touches dirs data machine middle page [phys] firstTables)
    (others : Touches dirs data middle after (page + 1) rest restTables)
    : Touches dirs data machine after page (phys :: rest) (firstTables ++ restTables) where
  spaces := others.spaces
  spends := first.spends.trans others.spends
  directory dir member apart index inside := by
    rw [others.directory dir member (by rw [first.spends.cr3]; exact apart) index inside,
      first.directory dir member apart index inside]
  bytes place inData apart := by
    obtain ⟨notFirst, notRest⟩ := not_or.mp (List.mem_cons.not.mp apart)
    rw [others.bytes place inData notRest,
      first.bytes place inData (fun is => notFirst (List.mem_singleton.mp is))]
  others dir member other inside apart := by
    rw [others.others dir member other inside ?_, first.others dir member other inside ?_]
    · rintro ⟨isCurrent, inFirst⟩
      refine apart ⟨isCurrent, ?_⟩
      simp only [runPages, List.length_cons, List.length_nil] at inFirst ⊢
      omega
    · rintro ⟨isCurrent, inRest⟩
      refine apart ⟨isCurrent.trans first.spends.cr3, ?_⟩
      simp only [runPages, List.length_cons] at inRest ⊢
      omega

theorem Mapped.cons {phys : Nat} {rest firstTables restTables : List Nat}
    (held : phys ∈ data) (aligned : phys % 4096 = 0) (notAgain : phys ∉ rest)
    (user : page < USER_LAST)
    (first : Mapped dirs data machine middle page flags [phys] firstTables)
    (others : Mapped dirs data middle after (page + 1) flags rest restTables)
    : Mapped dirs data machine after page flags (phys :: rest) (firstTables ++ restTables) where
  toTouches := first.toTouches.cons others.toTouches
  view index place isPlace := by
    have sameCr3 := first.spends.cr3
    cases index with
    | zero =>
        obtain rfl : phys = place := by simpa using isPlace
        have seen := first.view 0 phys rfl
        rw [Nat.add_zero] at seen ⊢
        rw [others.others _ (sameCr3 ▸ first.spaces.sound.current) _ (user_inside user) ?_]
        · exact seen
        · simp only [runPages]
          omega
    | succ index =>
        have seen := others.view index place (by simpa using isPlace)
        rw [sameCr3] at seen
        rw [← Nat.add_assoc, Nat.add_right_comm]
        exact seen
  zero place member offset inside := by
    rcases List.mem_cons.mp member with rfl | inRest
    · have sameFrame : (place + offset) / 4096 * 4096 = place := by omega
      rw [others.bytes _ (by rw [sameFrame]; exact held) (by rw [sameFrame]; exact notAgain)]
      exact first.zero place (List.mem_singleton_self _) offset inside
    · exact others.zero place inRest offset inside
  permits forUser other inRun := by
    have sameCr3 := first.spends.cr3
    by_cases isPage : other = page
    · subst isPage
      have inFirst : runPages other [phys].length other := by
        simp only [runPages, List.length_singleton]
        omega
      have seen := first.view 0 phys rfl
      have there := Machine.view_present seen
      have stays := others.spends.stays (other / 1024) (user_inside user)
      rw [sameCr3] at stays
      exact (stays there).2.2 (first.permits forUser other inFirst)
    · have permits := others.permits forUser other (by
        simp only [runPages, List.length_cons] at inRun ⊢
        omega)
      rw [sameCr3] at permits
      exact permits
  missing count := by
    have one := first.missing (rest.length + count)
    have more := others.missing count
    simp only [List.length_cons, List.length_nil, Nat.zero_add, List.length_append] at one more ⊢
    have sum : 1 + (rest.length + count) = rest.length + 1 + count := by omega
    have place : page + 1 + rest.length = page + (rest.length + 1) := by omega
    rw [sum] at one
    rw [place] at more
    omega

theorem Mapped.cons_short {rest firstTables restTables : List Nat}
    (first : Mapped dirs data machine middle page flags [phys] firstTables)
    (others : Short dirs data middle after (page + 1) rest restTables)
    : Short dirs data machine after page (phys :: rest) (firstTables ++ restTables) where
  toTouches := first.toTouches.cons others.toTouches
  none := others.none
  missing count := by
    have one := first.missing (rest.length + count)
    have more := others.missing count
    simp only [List.length_cons, List.length_nil, Nat.zero_add, List.length_append] at one more ⊢
    have sum : 1 + (rest.length + count) = rest.length + 1 + count := by omega
    rw [sum] at one
    omega

theorem Short.stop {tables : List Nat} (rest : List Nat)
    (short : Short dirs data machine after page [phys] tables)
    : Short dirs data machine after page (phys :: rest) tables where
  spaces := short.spaces
  spends := short.spends
  directory := short.directory
  bytes place inData apart := by
    refine short.bytes place inData (fun is => apart ?_)
    rw [List.mem_singleton.mp is]
    exact List.mem_cons_self ..
  others dir member other inside apart := by
    refine short.others dir member other inside ?_
    rintro ⟨isCurrent, inRun⟩
    refine apart ⟨isCurrent, ?_⟩
    simp only [runPages, List.length_cons, List.length_nil] at inRun ⊢
    omega
  none := short.none
  missing count := by
    have more := short.missing (rest.length + count)
    have sum : [phys].length + (rest.length + count) = (phys :: rest).length + count := by
      simp only [List.length_cons, List.length_nil]
      omega
    rw [sum] at more
    exact more

theorem Mapped.nil (spaces : Spaces machine dirs data)
    : Mapped dirs data machine machine page flags [] [] where
  spaces := spaces
  spends := Spends.refl machine
  directory _ _ _ _ _ := rfl
  bytes _ _ _ := rfl
  others _ _ _ _ _ := rfl
  view _ _ isPlace := by simp at isPlace
  zero _ member := by simp at member
  permits _ other inRun := by
    have below := inRun.2
    have above := inRun.1
    simp only [List.length_nil] at below
    omega
  missing rest := by
    simp

/-- The loop over the frames has one of the two outcomes. -/
theorem Spaces.mapZeroed (spaces : Spaces machine dirs data) {phys : List Nat}
    (user : page + phys.length ≤ USER_LAST) (nodup : phys.Nodup)
    (held : ∀ place ∈ phys, place ∈ data) (alone : ∀ place ∈ phys, machine.Unmapped dirs place)
    (small : flags < 4096)
    : ∃ mapped after tables,
        Vmm.mapZeroed flags machine (page * PAGE_SIZE) phys = some (mapped, after)
        ∧ (mapped = true ∧ Mapped dirs data machine after page flags phys tables
          ∨ mapped = false ∧ Short dirs data machine after page phys tables) := by
  induction phys generalizing machine page with
  | nil => exact ⟨true, machine, [], rfl, Or.inl ⟨rfl, Mapped.nil spaces⟩⟩
  | cons place phys ih =>
      obtain ⟨notAgain, nodup⟩ := List.nodup_cons.mp nodup
      have here := held place (List.mem_cons_self ..)
      simp only [List.length_cons] at user
      have userPage : page < USER_LAST := by omega
      have aligned := (spaces.sound.paged.filled place here).1
      obtain ⟨cleared, middle, found, tables, zeroes, maps, looks, turn⟩ :=
        spaces.mapZeroedPage userPage here (alone place (List.mem_cons_self ..)) small
      have ran : Vmm.mapZeroed flags machine (page * PAGE_SIZE) (place :: phys)
          = if found ≠ place then some (false, middle)
            else Vmm.mapZeroed flags middle ((page + 1) * PAGE_SIZE) phys := by
        rw [Vmm.mapZeroed, zeroes]
        simp only [Option.bind_eq_bind, Option.bind_some, maps, looks, next_page userPage]
      rw [ran]
      rcases turn with ⟨isPlace, first⟩ | ⟨notPlace, short⟩
      · have aloneToo : ∀ other ∈ phys, middle.Unmapped dirs other := by
          intro other member dir memberToo otherPage otherUser entry seen isOther
          by_cases isPage : dir = machine.cr3 ∧ otherPage = page
          · have seenPage := first.view 0 place rfl
            rw [isPage.1, isPage.2] at seen
            rw [Nat.add_zero, seen] at seenPage
            have flagsSmall : flags ||| PAGE_PRESENT < 4096 :=
              Nat.or_lt_two_pow (n := 12) small (by decide)
            rw [Option.some.inj seenPage, (frame_or aligned flagsSmall).1] at isOther
            exact notAgain (isOther ▸ member)
          · rw [first.others dir memberToo otherPage (user_inside otherUser) ?_] at seen
            · exact alone other (List.mem_cons_of_mem _ member) dir memberToo otherPage otherUser
                entry seen isOther
            · rintro ⟨isCurrent, inRun⟩
              refine isPage ⟨isCurrent, ?_⟩
              simp only [runPages, List.length_singleton] at inRun
              omega
        obtain ⟨mapped, after, restTables, ranRest, outcome⟩ := ih first.spaces
          (by omega : page + 1 + phys.length ≤ USER_LAST) nodup
          (fun other member => held other (List.mem_cons_of_mem _ member)) aloneToo
        rw [if_neg (not_not.mpr isPlace)]
        refine ⟨mapped, after, tables ++ restTables, ranRest, ?_⟩
        rcases outcome with ⟨isMapped, others⟩ | ⟨notMapped, others⟩
        · exact Or.inl ⟨isMapped, first.cons here aligned notAgain userPage others⟩
        · exact Or.inr ⟨notMapped, first.cons_short others⟩
      · rw [if_pos notPlace]
        exact ⟨false, middle, tables, rfl, Or.inr ⟨rfl, short.stop phys⟩⟩

theorem Spaces.vmmMapZeroedRun (spaces : Spaces machine dirs data) {phys : List Nat}
    (user : page + phys.length ≤ USER_LAST) (nodup : phys.Nodup)
    (held : ∀ place ∈ phys, place ∈ data) (alone : ∀ place ∈ phys, machine.Unmapped dirs place)
    (unmapped : ∀ other, runPages page phys.length other → machine.view machine.cr3 other = none)
    (small : flags < 4096)
    : ∃ mapped after tables,
        Vmm.vmmMapZeroedRun machine (page * PAGE_SIZE) phys flags = some (mapped, after)
        ∧ (mapped = true ∧ Mapped dirs data machine after page flags phys tables
          ∨ mapped = false ∧ Short dirs data machine after page phys tables
            ∧ SameView dirs machine after) := by
  obtain ⟨mapped, middle, tables, ran, outcome⟩ :=
    spaces.mapZeroed user nodup held alone small
  rcases outcome with ⟨rfl, all⟩ | ⟨rfl, short⟩
  · refine ⟨true, middle, tables, ?_, Or.inl ⟨rfl, all⟩⟩
    rw [Vmm.vmmMapZeroedRun, ran]
    rfl
  · obtain ⟨after, unmaps, step, free, directory, none⟩ := short.spaces.unmapRun user
    have current := short.spaces.sound.current
    have quiet : Spends middle after [] [] := Spends.none step.keeps.frames step.cr3 free
      (fun index inside => directory _ current index (by omega))
    refine ⟨false, after, tables, ?_, Or.inr ⟨rfl, ?_, ?_⟩⟩
    · rw [Vmm.vmmMapZeroedRun, ran]
      simp only [Option.bind_eq_bind, Option.bind_some, Bool.false_eq_true, if_false, unmaps]
    · refine ⟨⟨step.spaces, ?_, ?_, ?_, ?_⟩, ?_, short.missing⟩
      · have spends := short.spends.trans quiet
        rw [List.append_nil] at spends
        exact spends
      · intro dir member apart index inside
        rw [directory dir member index inside, short.directory dir member apart index inside]
      · intro place inData apart
        rw [step.keeps.bytes place (Or.inl inData), short.bytes place inData apart]
      · intro dir member other inside apart
        rw [step.others dir member other inside (by rw [short.spends.cr3]; exact apart),
          short.others dir member other inside apart]
      · have count := quiet.count
        have zero := short.none
        simp only [List.append_nil, List.length_nil] at count
        omega
    · intro dir member other inside
      by_cases here : dir = machine.cr3 ∧ runPages page phys.length other
      · rw [here.1, unmapped other here.2, ← short.spends.cr3]
        exact none other here.2
      · rw [step.others dir member other inside (by rw [short.spends.cr3]; exact here),
          short.others dir member other inside here]

end

end Panuti.Vmm
