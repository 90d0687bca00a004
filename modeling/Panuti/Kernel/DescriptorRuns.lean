import Mathlib.Data.Finset.Insert
import Mathlib.Data.Finset.Range
import Panuti.Kernel.DescriptorBits

/-! Runs of one descriptor table. A descriptor resolves as long as it is live, the next one is the
lowest that is not, and only a full table or an allocator without memory refuses one.
-/

namespace Panuti.Kernel

-- One call on the table of slots

section

variable {table changed : FdTable} {type : InodeType} {room : Bool} {fd : Nat} {place : Nat}

theorem returnHslot_of_used {entry : Slot} (here : table[place]? = some entry)
    (used : entry.used = true)
    : (returnHslot table place).isSome = true := by
  rw [returnHslot, here]
  simp [used]

theorem returnHslot_of_unused {entry : Slot} (here : table[place]? = some entry)
    (unused : entry.used = false)
    : returnHslot table place = none := by
  rw [returnHslot, here]
  simp [unused]

theorem returnHslot_claimed (inside : fd < table.length)
    : (returnHslot (claimSlot table fd type) fd).isSome = true := by
  have here : (claimSlot table fd type)[fd]? = some ⟨true, { table[fd].handle with type }⟩ := by
    simp [claimSlot, inside]
  exact returnHslot_of_used here rfl

theorem returnHslot_unclaimed (different : place ≠ fd)
    : returnHslot (claimSlot table fd type) place = returnHslot table place := by
  simp [returnHslot, claimSlot, Ne.symm different]

theorem handleAlloc_lowest (claimed : handleAlloc table type room = some (fd, changed))
    : (∀ other < fd, (returnHslot table other).isSome = true)
      ∧ returnHslot table fd = none
      ∧ (returnHslot changed fd).isSome = true
      ∧ ∀ other, other ≠ fd → returnHslot changed other = returnHslot table other := by
  rw [handleAlloc] at claimed
  cases free : table.findIdx? (fun entry => !entry.used) with
  | some slot =>
      rw [free] at claimed
      obtain ⟨rfl, rfl⟩ := Prod.mk.inj (Option.some.inj claimed)
      obtain ⟨below, unused, before⟩ := List.findIdx?_eq_some_iff_getElem.mp free
      refine ⟨fun other less => ?_, ?_, returnHslot_claimed below,
        fun other different => returnHslot_unclaimed different⟩
      · have used := before other less
        exact returnHslot_of_used (List.getElem?_eq_getElem (Nat.lt_trans less below))
          (by simpa using used)
      · exact returnHslot_of_unused (List.getElem?_eq_getElem below) (by simpa using unused)
  | none =>
      rw [free] at claimed
      have all := List.findIdx?_eq_none_iff.mp free
      cases grow : fdtableGrow table room with
      | none =>
          rw [grow] at claimed
          cases claimed
      | some grown =>
          rw [grow] at claimed
          obtain ⟨rfl, rfl⟩ := Prod.mk.inj (Option.some.inj claimed)
          obtain ⟨extra, rfl⟩ := fdtableGrow_some grow
          refine ⟨fun other less => ?_, ?_, returnHslot_claimed (by simp),
            fun other different => ?_⟩
          · have used := all _ (List.getElem_mem less)
            exact returnHslot_of_used (List.getElem?_eq_getElem less) (by simpa using used)
          · rw [returnHslot, List.getElem?_eq_none (Nat.le_refl _)]
          · rw [returnHslot_unclaimed different, returnHslot, returnHslot]
            by_cases inside : other < table.length
            · rw [List.getElem?_append_left inside]
            · obtain ⟨place, isPlace⟩ : ∃ place, other - table.length = place + 1 :=
                ⟨other - table.length - 1, by omega⟩
              rw [List.getElem?_append_right (by omega), isPlace, List.getElem?_cons_succ,
                List.getElem?_replicate, List.getElem?_eq_none (by omega : table.length ≤ other)]
              split
              · rename_i inside
                split at inside
                · obtain rfl := Option.some.inj inside
                  rfl
                · cases inside
              · rfl

theorem handleAlloc_refused (refused : handleAlloc table type room = none)
    : (∀ place < table.length, (returnHslot table place).isSome = true)
      ∧ (MAX_HANDLES ≤ table.length ∨ room = false) := by
  rw [handleAlloc] at refused
  cases free : table.findIdx? (fun entry => !entry.used) with
  | some slot =>
      rw [free] at refused
      cases refused
  | none =>
      rw [free] at refused
      have all := List.findIdx?_eq_none_iff.mp free
      refine ⟨fun place inside => ?_, ?_⟩
      · have used := all _ (List.getElem_mem inside)
        exact returnHslot_of_used (List.getElem?_eq_getElem inside) (by simpa using used)
      · by_contra more
        obtain ⟨small, some⟩ := not_or.mp more
        rw [fdtableGrow, if_neg small, if_neg some] at refused
        cases refused

/-- Freeing a descriptor takes it away, and no other. -/
theorem returnHslot_handleFree (table : FdTable) (fd place : Nat)
    : returnHslot (handleFree table fd) place
      = if place = fd then none else returnHslot table place := by
  have cleared : returnHslot (table.set fd Slot.zero) place
      = if place = fd then none else returnHslot table place := by
    rw [returnHslot, List.getElem?_set]
    by_cases same : place = fd
    · subst same
      rw [if_pos rfl, if_pos rfl]
      split
      · rename_i entry here
        split at here
        · obtain rfl := Option.some.inj here
          rfl
        · cases here
      · rfl
    · rw [if_neg same, if_neg (Ne.symm same), returnHslot]
  rw [handleFree]
  split
  · rename_i beyond
    by_cases same : place = fd
    · rw [if_pos same, returnHslot, List.getElem?_eq_none (by omega)]
    · rw [if_neg same]
  · simp only []
    split
    · rename_i unused
      rw [← cleared, returnHslot, returnHslot]
      rw [List.all_eq_true] at unused
      cases there : (table.set fd Slot.zero)[place]? with
      | none => rfl
      | some entry =>
          have off := unused entry (List.mem_of_getElem? there)
          simp only [Bool.not_eq_true'] at off
          simp [off]
    · exact cleared

end

-- Runs

namespace Fdtable

/-- What a task does with its table, and the descriptors that were given out and not yet freed. -/
inductive Run : Fdtable → Finset Nat → Prop where
  | start : Run zero ∅
  | alloc {fdt after : Fdtable} {live : Finset Nat} {fd : Nat} (run : Run fdt live)
      (type : InodeType) (tableRoom openbRoom : Bool)
      (ran : fdt.handleAlloc type tableRoom openbRoom = (some fd, after))
      : Run after (insert fd live)
  | refused {fdt after : Fdtable} {live : Finset Nat} (run : Run fdt live)
      (type : InodeType) (tableRoom openbRoom : Bool)
      (ran : fdt.handleAlloc type tableRoom openbRoom = (none, after))
      : Run after live
  | free {fdt : Fdtable} {live : Finset Nat} (run : Run fdt live) (fd : Int)
      : Run (fdt.handleFree fd) (if fd < 0 then live else live.erase fd.toNat)
  | fill {fdt : Fdtable} {live : Finset Nat} {fd : Nat} (run : Run fdt live) (isLive : fd ∈ live)
      (handle : Handle)
      : Run (fdt.fill fd handle) live

theorem Sound.fill {fdt : Fdtable} (sound : fdt.Sound) (fd : Nat) (handle : Handle)
    : (fdt.fill fd handle).Sound
      ∧ ∀ slot, (Kernel.returnHslot (fdt.fill fd handle).slots slot).isSome
        = (Kernel.returnHslot fdt.slots slot).isSome := by
  refine ⟨⟨?_, sound.openb, sound.cap⟩, fun slot => ?_⟩
  · rw [Fdtable.fill, List.length_set, sound.table]
  · rw [Kernel.returnHslot, Kernel.returnHslot, slots_getElem?, slots_getElem?]
    simp only [Fdtable.fill, List.getElem?_set]
    by_cases same : fd = slot
    · subst same
      by_cases inside : fd < fdt.table.length
      · simp [inside]
        split <;> rfl
      · simp [inside]
    · simp [same]

/-- In every run a descriptor resolves where it is live. -/
theorem Run.resolves {fdt : Fdtable} {live : Finset Nat} (run : Run fdt live)
    : fdt.Sound ∧ ∀ slot, (Kernel.returnHslot fdt.slots slot).isSome = true ↔ slot ∈ live := by
  induction run with
  | start =>
      refine ⟨zero_sound, fun slot => ?_⟩
      simp [zero, slots, Kernel.returnHslot]
  | @alloc fdt after live fd run type tableRoom openbRoom ran ih =>
      obtain ⟨sound, resolves⟩ := ih
      obtain ⟨soundToo, claimed⟩ := sound.handleAlloc_slots type tableRoom openbRoom
      rw [ran] at soundToo claimed
      obtain ⟨_, _, here, others⟩ := handleAlloc_lowest claimed
      refine ⟨soundToo, fun slot => ?_⟩
      rw [Finset.mem_insert, ← resolves slot]
      by_cases same : slot = fd
      · rw [same]
        simp [here]
      · rw [others slot same]
        simp [same]
  | @refused fdt after live run type tableRoom openbRoom ran ih =>
      obtain ⟨sound, resolves⟩ := ih
      obtain ⟨_, refused⟩ := sound.handleAlloc_slots type tableRoom openbRoom
      rw [ran] at refused
      obtain ⟨rfl, _⟩ := refused
      exact ⟨sound, resolves⟩
  | @free fdt live run fd ih =>
      obtain ⟨sound, resolves⟩ := ih
      obtain ⟨soundToo, freed⟩ := sound.handleFree_slots fd
      refine ⟨soundToo, fun slot => ?_⟩
      rw [freed]
      split
      · exact resolves slot
      · rw [returnHslot_handleFree, Finset.mem_erase]
        split
        · rename_i same
          simp [same]
        · rename_i different
          simp [different, resolves slot]
  | @fill fdt live fd run isLive handle ih =>
      obtain ⟨sound, resolves⟩ := ih
      obtain ⟨soundToo, same⟩ := sound.fill fd handle
      exact ⟨soundToo, fun slot => by rw [same slot, resolves slot]⟩

/-- In every run a descriptor resolves exactly as long as it is live. The next one is the lowest
that is not live, and the handles of the others stay. It is refused only where all of them are
live or there is no memory, and then the table is as it was.
-/
theorem Run.descriptors {fdt : Fdtable} {live : Finset Nat} (run : Run fdt live)
    : (∀ slot, (fdt.returnHslot slot).isSome = true ↔ slot ∈ live)
      ∧ ∀ type tableRoom openbRoom,
          match fdt.handleAlloc type tableRoom openbRoom with
          | (some fd, after) => fd ∉ live ∧ (∀ other < fd, other ∈ live)
              ∧ ∀ other ∈ live, after.returnHslot other = fdt.returnHslot other
          | (none, after) => after = fdt
              ∧ (live = Finset.range MAX_HANDLES ∨ tableRoom = false ∨ openbRoom = false) := by
  obtain ⟨sound, resolves⟩ := run.resolves
  refine ⟨fun slot => by rw [sound.returnHslot_eq, resolves slot], ?_⟩
  intro type tableRoom openbRoom
  obtain ⟨soundToo, claimed⟩ := sound.handleAlloc_slots type tableRoom openbRoom
  split
  · rename_i fd after ran
    rw [ran] at soundToo claimed
    obtain ⟨before, free, here, others⟩ := handleAlloc_lowest claimed
    have dead : fd ∉ live := by
      rw [← resolves fd, free]
      exact Bool.false_ne_true
    refine ⟨dead, fun other less => (resolves other).mp (before other less), ?_⟩
    intro other isLive
    rw [sound.returnHslot_eq, soundToo.returnHslot_eq, others other]
    rintro rfl
    exact dead isLive
  · rename_i after ran
    rw [ran] at claimed
    obtain ⟨same, refused⟩ := claimed
    obtain ⟨all, full⟩ := handleAlloc_refused refused
    refine ⟨same, ?_⟩
    rcases full with full | noRoom
    · left
      have length : fdt.slots.length = fdt.cap := by rw [slots_length, sound.table]
      have bound := sound.cap
      ext slot
      rw [Finset.mem_range, ← resolves slot]
      constructor
      · intro there
        by_contra beyond
        rw [Kernel.returnHslot, List.getElem?_eq_none (by omega)] at there
        cases there
      · intro inside
        exact all slot (by omega)
    · right
      exact Bool.and_eq_false_iff.mp noRoom

/-- A descriptor is given out. -/
theorem descriptors_small
    : ∃ fdt : Fdtable, (fdt.returnHslot 0).isSome = true
      ∧ (fdt.handleAlloc .file true true).1 = some 1 := by
  have ran : zero.handleAlloc .file true true
      = (some 0, (zero.handleAlloc .file true true).2) := by
    decide +kernel
  have run := Run.alloc .start .file true true ran
  exact ⟨_, (run.descriptors.1 0).mpr (by decide), by decide +kernel⟩

end Fdtable

end Panuti.Kernel
