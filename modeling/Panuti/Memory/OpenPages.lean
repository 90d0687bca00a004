import Panuti.Memory.AddressSpaces
import Panuti.Memory.MmapanCalls

/-! Which user pages ring 3 may use. A page that is mapped is open where its entry and the one above
it have the user bit; what a task is made of is mapped open, and so is all memory that is asked for
to be read or written.
-/

namespace Panuti.Vmm

open ByteMemory PageTable

/-- All user pages that are mapped may be used by ring 3. -/
def Machine.AllOpen (machine : Machine) (dirs : List Nat) : Prop :=
  ∀ dir ∈ dirs, ∀ page < USER_LAST, machine.view dir page ≠ none
    → machine.permits dir page 2 = true

/-- The user pages that are mapped after a step were mapped so before, and are not less open; or
they are open.
-/
def Opens (dirs : List Nat) (machine after : Machine) : Prop :=
  ∀ dir ∈ dirs, ∀ page < USER_LAST, ∀ entry, after.view dir page = some entry
    → (machine.view dir page = some entry
        ∧ ((dirEntry machine.memory dir (page / 1024)).testBit 2 = true
          → (dirEntry after.memory dir (page / 1024)).testBit 2 = true))
      ∨ after.permits dir page 2 = true

section

variable {dirs data : List Nat} {machine middle after : Machine} {page flags addrSpace : Nat}
    {tables phys : List Nat}

theorem permits_of_view {dir bit entry : Nat} (seen : machine.view dir page = some entry)
    : machine.permits dir page bit
      = (entry.testBit bit && (dirEntry machine.memory dir (page / 1024)).testBit bit) := by
  rw [Machine.permits, seen]

theorem Machine.AllOpen.step (isOpen : machine.AllOpen dirs) (opens : Opens dirs machine after)
    : after.AllOpen dirs := by
  intro dir member page user mapped
  cases seen : after.view dir page with
  | none => exact absurd seen mapped
  | some entry =>
      rcases opens dir member page user entry seen with ⟨was, stays⟩ | permitted
      · have before := isOpen dir member page user (by rw [was]; exact Option.some_ne_none _)
        rw [permits_of_view was, Bool.and_eq_true] at before
        rw [permits_of_view seen, before.1, stays before.2]
        rfl
      · exact permitted

theorem Opens.same (view : SameView dirs machine after)
    (directory
      : ∀ dir ∈ dirs, ∀ index < KERNEL_PDE_START,
          dirEntry after.memory dir index = dirEntry machine.memory dir index)
    : Opens dirs machine after := by
  intro dir member page user entry seen
  rw [view dir member page (user_inside user)] at seen
  refine Or.inl ⟨seen, ?_⟩
  rw [directory dir member _ (user_table user)]
  exact id

theorem Spends.opens {got : List Nat} (spends : Spends machine after tables got)
    (directory
      : ∀ dir ∈ dirs, dir ≠ machine.cr3 → ∀ index < 1024,
          dirEntry after.memory dir index = dirEntry machine.memory dir index)
    {dir entry : Nat} (member : dir ∈ dirs) (user : page < USER_LAST)
    (was : machine.view dir page = some entry)
    (bit : (dirEntry machine.memory dir (page / 1024)).testBit 2 = true)
    : (dirEntry after.memory dir (page / 1024)).testBit 2 = true := by
  have inside := user_inside user
  by_cases isCurrent : dir = machine.cr3
  · rw [isCurrent] at was bit ⊢
    exact (spends.stays _ inside (Machine.view_present was)).2.2 bit
  · rw [directory dir member isCurrent _ (by omega)]
    exact bit

/-- What MMAPAN built for the user is open. -/
theorem Built.opens {got : List Nat} (built : Built dirs data machine after page flags got tables)
    (forUser : flags.testBit 2 = true)
    : Opens dirs machine after := by
  intro dir member other user entry seen
  by_cases here : dir = machine.cr3 ∧ runPages page got.length other
  · obtain ⟨rfl, inRun⟩ := here
    right
    have inside : other - page < got.length := by
      have below := inRun.2
      have above := inRun.1
      omega
    have sum : page + (other - page) = other := by
      have above := inRun.1
      omega
    have isPlace := List.getElem?_eq_getElem inside
    have isEntry := built.view _ _ isPlace
    have aligned := (built.spaces.sound.paged.filled _
      (List.mem_append_left data (List.getElem_mem inside))).1
    have asked : flags &&& PAGE_USER ≠ 0 := by
      intro none
      have bit := congrArg (fun value => value.testBit 2) none
      simp only [Nat.testBit_and, forUser, Bool.true_and] at bit
      exact absurd bit (by decide)
    rw [sum] at isEntry
    rw [permits_of_view isEntry, entry_testBit aligned (by decide) (by decide), forUser,
      built.permits asked other inRun]
    rfl
  · rw [built.others dir member other (user_inside user) here] at seen
    exact Or.inl ⟨seen, built.spends.opens built.directory member user seen⟩

theorem Undone.opens (undone : Undone dirs data machine after tables)
    : Opens dirs machine after := by
  intro dir member other user entry seen
  rw [undone.view dir member other (user_inside user)] at seen
  exact Or.inl ⟨seen, undone.spends.opens undone.directory member user seen⟩

theorem Released.opens {count : Nat} {freed : List Nat}
    (released : Released dirs data machine after page count freed)
    : Opens dirs machine after := by
  intro dir member other user entry seen
  by_cases here : dir = machine.cr3 ∧ runPages page count other
  · rw [here.1, released.unmapped other here.2] at seen
    cases seen
  · have inside := user_inside user
    rw [released.others dir member other inside here] at seen
    refine Or.inl ⟨seen, ?_⟩
    rw [released.directory dir member _ (by omega)]
    exact id

theorem Created.allOpen (created : Created dirs data machine after addrSpace)
    (isOpen : machine.AllOpen dirs)
    : after.AllOpen (addrSpace :: dirs) := by
  have opens : Opens dirs machine after := Opens.same created.view
    (fun dir member index user => created.directory dir member index (Nat.lt_trans user (by decide)))
  intro dir member page user mapped
  rcases List.mem_cons.mp member with rfl | inDirs
  · exact absurd (created.empty page user) mapped
  · exact isOpen.step opens dir inDirs page user mapped

-- The pages of a task

/-- Another address space becomes the current one. -/
def Machine.switch (machine : Machine) (addrSpace : Nat) : Machine :=
  { machine with cr3 := addrSpace }

theorem Spaces.switch (spaces : Spaces machine dirs data) (member : addrSpace ∈ dirs)
    : Spaces (machine.switch addrSpace) dirs data :=
  ⟨⟨spaces.sound.paged, spaces.sound.small, member⟩, spaces.scratch, spaces.clear, spaces.writable,
    spaces.known, spaces.backed, spaces.single⟩

/-- What keeps the address spaces and opens whatever it maps. -/
structure Advances (dirs : List Nat) (machine after : Machine) : Prop where
  cr3 : after.cr3 = machine.cr3
  isOpen : machine.AllOpen dirs → after.AllOpen dirs

theorem Advances.refl (machine : Machine) : Advances dirs machine machine := ⟨rfl, id⟩

theorem Advances.trans (first : Advances dirs machine middle) (second : Advances dirs middle after)
    : Advances dirs machine after :=
  ⟨second.cr3.trans first.cr3, fun isOpen => second.isOpen (first.isOpen isOpen)⟩

theorem SameTables.advances (same : SameTables machine after) : Advances dirs machine after := by
  refine ⟨same.cr3, fun isOpen => isOpen.step (Opens.same ?_ ?_)⟩
  · exact fun dir _ page _ => same.view dir page
  · intro dir _ index _
    rw [same.memory]

theorem Closed.advances {phys : Nat} (closed : Closed dirs data machine middle after phys)
    : Advances dirs machine after :=
  ⟨closed.cr3, fun isOpen => isOpen.step (Opens.same closed.view
    (fun dir member index user => closed.directory dir member index
      (Nat.lt_trans user (by decide))))⟩

/-- A user page is mapped open. -/
theorem Spaces.mapOpen (spaces : Spaces machine dirs data) {phys : Nat} (user : page < USER_LAST)
    (held : phys ∈ data) (alone : machine.Unmapped dirs phys) (small : flags < 4096)
    (forUser : flags.testBit 2 = true)
    : ∃ after, vmmMap machine (page * PAGE_SIZE) phys flags = some after
      ∧ PageStep dirs data machine after (fun other => other = page)
      ∧ after.view machine.cr3 page ∈ [none, some (phys ||| (flags ||| PAGE_PRESENT))]
      ∧ Advances dirs machine after := by
  obtain ⟨after, maps, step, table, kept, seen⟩ := spaces.mapPage user held alone small
  have aligned := (spaces.sound.paged.filled phys held).1
  have asked : flags &&& PAGE_USER ≠ 0 := by
    intro none
    have bit := congrArg (fun value => value.testBit 2) none
    simp only [Nat.testBit_and, forUser, Bool.true_and] at bit
    exact absurd bit (by decide)
  refine ⟨after, maps, step, ?_, step.cr3, fun isOpen => isOpen.step ?_⟩
  · rw [seen]
    split <;> simp
  intro dir member other otherUser entry otherSeen
  by_cases here : dir = machine.cr3 ∧ other = page
  · obtain ⟨rfl, rfl⟩ := here
    right
    rw [otherSeen] at seen
    split at seen
    · rename_i isPresent
      rw [permits_of_view otherSeen, Option.some.inj seen,
        entry_testBit aligned (by decide) (by decide), forUser, table.permits asked isPresent]
      rfl
    · cases seen
  · have inside := user_inside otherUser
    rw [step.others dir member other inside here] at otherSeen
    refine Or.inl ⟨otherSeen, fun bit => ?_⟩
    by_cases above : dir = machine.cr3 ∧ other / 1024 = page / 1024
    · have there := Machine.view_present otherSeen
      rw [above.1, above.2] at bit there ⊢
      rcases table with ⟨-, entry, -⟩ | ⟨absent, -⟩ | ⟨absent, -⟩
      · rw [entry, if_pos asked, Nat.testBit_or, bit, Bool.true_or]
      · rw [there] at absent
        cases absent
      · rw [there] at absent
        cases absent
    · rw [kept dir member _ (by omega) above]
      exact bit

/-- A run of user pages is mapped open. -/
theorem Spaces.mapRunOpen (spaces : Spaces machine dirs data)
    (user : page + phys.length ≤ USER_LAST) (nodup : phys.Nodup)
    (held : ∀ place ∈ phys, place ∈ data) (alone : ∀ place ∈ phys, machine.Unmapped dirs place)
    (small : flags < 4096) (forUser : flags.testBit 2 = true)
    : ∃ after, vmmMapRun machine (page * PAGE_SIZE) flags phys = some after
      ∧ Spaces after dirs data ∧ Advances dirs machine after := by
  induction phys generalizing machine page with
  | nil => exact ⟨machine, rfl, spaces, Advances.refl machine⟩
  | cons place phys ih =>
      obtain ⟨notAgain, nodup⟩ := List.nodup_cons.mp nodup
      simp only [List.length_cons] at user
      have userPage : page < USER_LAST := by omega
      have here := held place (List.mem_cons_self ..)
      have aligned := (spaces.sound.paged.filled place here).1
      obtain ⟨middle, maps, step, seen, advances⟩ := spaces.mapOpen userPage here
        (alone place (List.mem_cons_self ..)) small forUser
      have aloneToo : ∀ other ∈ phys, middle.Unmapped dirs other := by
        intro other member dir memberToo otherPage otherUser entry otherSeen isOther
        by_cases isPage : dir = machine.cr3 ∧ otherPage = page
        · rw [isPage.1, isPage.2] at otherSeen
          rw [otherSeen] at seen
          have flagsSmall : flags ||| PAGE_PRESENT < 4096 :=
            Nat.or_lt_two_pow (n := 12) small (by decide)
          have isEntry : entry = place ||| (flags ||| PAGE_PRESENT) := by simpa using seen
          rw [isEntry, (frame_or aligned flagsSmall).1] at isOther
          exact notAgain (isOther ▸ member)
        · rw [step.others dir memberToo otherPage (user_inside otherUser) isPage] at otherSeen
          exact alone other (List.mem_cons_of_mem _ member) dir memberToo otherPage otherUser entry
            otherSeen isOther
      obtain ⟨after, mapsRest, spacesAfter, advancesRest⟩ := ih step.spaces
        (by omega : page + 1 + phys.length ≤ USER_LAST) nodup
        (fun other member => held other (List.mem_cons_of_mem _ member)) aloneToo
      refine ⟨after, ?_, spacesAfter, advances.trans advancesRest⟩
      rw [vmmMapRun, maps]
      simp only [next_page userPage]
      exact mapsRest

theorem Spaces.mapInRun {taken : Machine} (spaces : Spaces machine dirs data)
    (takes : Takes machine taken phys) (held : Spaces taken dirs (phys ++ data))
    (member : addrSpace ∈ dirs) (user : phys = [] ∨ page + phys.length ≤ USER_LAST)
    (small : flags < 4096) (forUser : flags.testBit 2 = true)
    : ∃ after, vmmMapInRun taken addrSpace (page * PAGE_SIZE) phys flags = some after
      ∧ Spaces after dirs (phys ++ data) ∧ Advances dirs machine after := by
  have advances : Advances dirs machine taken := takes.tables.advances
  rw [vmmMapInRun]
  by_cases nothing : addrSpace = 0 ∨ phys = []
  · rw [if_pos nothing]
    exact ⟨taken, rfl, held, advances⟩
  · rw [if_neg nothing]
    obtain ⟨mapped, maps, spacesMapped, opens⟩ := (held.switch member).mapRunOpen
      (user.resolve_left (fun is => nothing (Or.inr is))) takes.nodup
      (fun place inPhys => List.mem_append_left _ inPhys)
      (fun place inPhys => takes.unmapped spaces inPhys) small forUser
    refine ⟨mapped.switch taken.cr3, ?_, spacesMapped.switch held.sound.current, ?_⟩
    · have maps' : vmmMapRun { taken with cr3 := addrSpace } (page * PAGE_SIZE) flags phys
          = some mapped := maps
      simp only [maps', Option.map_some]
      rfl
    · exact advances.trans ⟨rfl, opens.isOpen⟩

theorem Spaces.abandon {taken : Machine} (spaces : Spaces machine dirs data)
    (takes : Takes machine taken phys) (held : Spaces taken dirs (phys ++ data))
    : Spaces (phys.foldl pmmFreep taken) dirs data
      ∧ Advances dirs machine (phys.foldl pmmFreep taken) := by
  obtain ⟨given, spends, view, memory⟩ := takes.giveBack spaces held (Spends.refl taken)
    (SameView.refl taken)
  refine ⟨given, spends.cr3, fun isOpen => isOpen.step (Opens.same view ?_)⟩
  intro dir _ index _
  rw [memory, takes.tables.memory]

end

end Panuti.Vmm
