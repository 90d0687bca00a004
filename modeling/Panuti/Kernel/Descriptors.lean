import Panuti.Kernel.Task

/-! The handles a descriptor table holds, under allocating, filling and freeing a slot, and
the handles and streams of all tasks of a system.
-/

namespace Panuti.Kernel

-- Slots of one table

@[simp] theorem openHandles_append (front back : FdTable)
    : openHandles (front ++ back) = openHandles front ++ openHandles back := by
  simp [openHandles]

@[simp] theorem openHandles_used (handle : Handle) (rest : FdTable)
    : openHandles (⟨true, handle⟩ :: rest) = handle :: openHandles rest := by
  simp [openHandles]

@[simp] theorem openHandles_zero (rest : FdTable)
    : openHandles (Slot.zero :: rest) = openHandles rest := by
  simp [openHandles, Slot.zero]

theorem openHandles_unused {entry : Slot} (unused : entry.used = false) (rest : FdTable)
    : openHandles (entry :: rest) = openHandles rest := by
  simp [openHandles, unused]

variable {α : Type} {table changed : FdTable} {fd : Nat} {handle : Handle} {room : Bool}

theorem openHandles_eq_nil (unused : ∀ entry ∈ table, entry.used = false)
    : openHandles table = [] := by
  simp only [openHandles, List.map_eq_nil_iff, List.filter_eq_nil_iff]
  intro entry member
  simp [unused entry member]

theorem split_at {entries : List α} {place : Nat} {entry : α}
    (present : entries[place]? = some entry)
    : ∃ front back, entries = front ++ entry :: back ∧ front.length = place := by
  obtain ⟨below, rfl⟩ := List.getElem?_eq_some_iff.mp present
  refine ⟨entries.take place, entries.drop (place + 1), ?_, ?_⟩
  · rw [List.getElem_cons_drop, List.take_append_drop]
  · simp
    omega

theorem set_split (front back : List α) (old new : α)
    : (front ++ old :: back).set front.length new = front ++ new :: back := by
  simp

theorem eraseIdx_split (front back : List α) (entry : α)
    : (front ++ entry :: back).eraseIdx front.length = front ++ back := by
  rw [List.eraseIdx_append_of_length_le (Nat.le_refl _)]
  simp

theorem returnHslot_split (found : returnHslot table fd = some handle)
    : ∃ front back, table = front ++ ⟨true, handle⟩ :: back ∧ front.length = fd := by
  simp only [returnHslot] at found
  cases present : table[fd]? with
  | none => simp [present] at found
  | some entry =>
      obtain ⟨used, held⟩ := entry
      cases used with
      | false => simp [present] at found
      | true =>
          obtain rfl : held = handle := by simpa [present] using found
          exact split_at present

theorem claimSlot_split (front back : FdTable) (entry : Slot) (type : InodeType)
    : claimSlot (front ++ entry :: back) front.length type
      = front ++ ⟨true, { entry.handle with type }⟩ :: back := by
  simp only [claimSlot]
  induction front with
  | nil => simp
  | cons head rest ih => simp [ih]

theorem fdtableGrow_some {grown : FdTable} (grow : fdtableGrow table room = some grown)
    : ∃ extra, grown = table ++ Slot.zero :: List.replicate extra Slot.zero := by
  simp only [fdtableGrow] at grow
  by_cases full : MAX_HANDLES ≤ table.length
  · simp [full] at grow
  by_cases refused : room = false
  · simp [full, refused] at grow
  simp only [if_neg full, if_neg refused, Option.some.injEq] at grow
  generalize capacity : (if (if table.length = 0 then FD_INITIAL_CAP else table.length * 2)
      > MAX_HANDLES then MAX_HANDLES
    else if table.length = 0 then FD_INITIAL_CAP else table.length * 2) - table.length
    = count at grow
  have positive : count ≠ 0 := by
    rw [← capacity]
    simp only [MAX_HANDLES, FD_INITIAL_CAP] at full ⊢
    by_cases empty : table.length = 0
    · simp [empty]
    · simp only [empty, if_false]
      split <;> omega
  obtain ⟨extra, rfl⟩ := Nat.exists_eq_succ_of_ne_zero positive
  exact ⟨extra, by rw [← grow, List.replicate_succ]⟩

theorem handleAlloc_split {type : InodeType}
    (claimed : handleAlloc table type room = some (fd, changed))
    : (∃ front back handle,
        changed = front ++ ⟨true, handle⟩ :: back
        ∧ front.length = fd
        ∧ openHandles front ++ openHandles back = openHandles table)
      ∧ ∀ place handle, table[place]? = some ⟨true, handle⟩
        → place ≠ fd ∧ changed[place]? = some ⟨true, handle⟩ := by
  simp only [handleAlloc] at claimed
  cases free : table.findIdx? (fun entry => !entry.used) with
  | some slot =>
      simp only [free, Option.some.injEq, Prod.mk.injEq] at claimed
      obtain ⟨rfl, rfl⟩ := claimed
      obtain ⟨below, unused, _⟩ := List.findIdx?_eq_some_iff_getElem.mp free
      have present := List.getElem?_eq_getElem below
      generalize table[slot] = entry at unused present
      obtain ⟨front, back, rfl, rfl⟩ := split_at present
      have notUsed : entry.used = false := by simpa using unused
      rw [claimSlot_split]
      refine ⟨⟨front, back, _, rfl, rfl, ?_⟩, ?_⟩
      · rw [openHandles_append, openHandles_unused notUsed]
      · intro place handle used
        have apart : place ≠ front.length := by
          rintro rfl
          rw [present] at used
          simp [Option.some.inj used] at notUsed
        refine ⟨apart, ?_⟩
        rw [← used]
        rcases Nat.lt_or_ge place front.length with before | after
        · simp [List.getElem?_append_left before]
        · rw [List.getElem?_append_right after, List.getElem?_append_right after]
          obtain ⟨offset, same⟩ : ∃ offset, place - front.length = offset + 1 :=
            ⟨place - front.length - 1, by omega⟩
          simp [same]
  | none =>
      simp only [free] at claimed
      cases grow : fdtableGrow table room with
      | none => simp [grow] at claimed
      | some grown =>
          simp only [grow, Option.some.injEq, Prod.mk.injEq] at claimed
          obtain ⟨rfl, rfl⟩ := claimed
          obtain ⟨extra, rfl⟩ := fdtableGrow_some grow
          rw [claimSlot_split]
          refine ⟨⟨table, List.replicate extra Slot.zero, _, rfl, rfl, ?_⟩, ?_⟩
          · have empty : openHandles (List.replicate extra Slot.zero) = [] := by
              apply openHandles_eq_nil
              intro entry member
              simp [List.eq_of_mem_replicate member, Slot.zero]
            rw [empty, List.append_nil]
          · intro place handle used
            have below : place < table.length := by
              by_contra beyond
              rw [List.getElem?_eq_none (by omega)] at used
              cases used
            exact ⟨by omega, by rw [List.getElem?_append_left below]; exact used⟩

theorem fillSlot_perm {type : InodeType}
    (claimed : handleAlloc table type room = some (fd, changed)) (handle : Handle)
    : (openHandles (fillSlot changed fd handle)).Perm (handle :: openHandles table) := by
  obtain ⟨⟨front, back, old, rfl, rfl, held⟩, _⟩ := handleAlloc_split claimed
  rw [fillSlot, set_split, openHandles_append, openHandles_used, ← held]
  exact List.perm_middle

theorem handleFree_split (front back : FdTable) (handle : Handle)
    : openHandles (handleFree (front ++ ⟨true, handle⟩ :: back) front.length)
      = openHandles front ++ openHandles back := by
  have inside : ¬(front ++ ⟨true, handle⟩ :: back).length ≤ front.length := by
    simp
  simp only [handleFree, if_neg inside, set_split]
  split
  · rename_i unused
    simp only [List.all_append, List.all_cons, Bool.and_eq_true, List.all_eq_true] at unused
    have noFront : openHandles front = [] :=
      openHandles_eq_nil (fun entry member => by simpa using unused.1 entry member)
    have noBack : openHandles back = [] :=
      openHandles_eq_nil (fun entry member => by simpa using unused.2.2 entry member)
    rw [noFront, noBack]
    rfl
  · simp

theorem handleFree_claimed {type : InodeType}
    (claimed : handleAlloc table type room = some (fd, changed))
    : openHandles (handleFree changed fd) = openHandles table := by
  obtain ⟨⟨front, back, old, rfl, rfl, held⟩, _⟩ := handleAlloc_split claimed
  rw [handleFree_split, held]

theorem handleFree_perm (found : returnHslot table fd = some handle)
    : (openHandles table).Perm (handle :: openHandles (handleFree table fd)) := by
  obtain ⟨front, back, rfl, rfl⟩ := returnHslot_split found
  rw [handleFree_split, openHandles_append, openHandles_used]
  exact List.perm_middle

theorem returnHslot_mem (found : returnHslot table fd = some handle)
    : handle ∈ openHandles table := by
  obtain ⟨front, back, rfl, rfl⟩ := returnHslot_split found
  simp

theorem fillSlots_perm {middle : FdTable} {type : InodeType} {first second : Bool} {other : Nat}
    (claimed : handleAlloc table type first = some (fd, middle))
    (claimedToo : handleAlloc middle type second = some (other, changed))
    (handle handleToo : Handle)
    : (openHandles (fillSlot (fillSlot changed fd handle) other handleToo)).Perm
        (handleToo :: handle :: openHandles table) := by
  obtain ⟨⟨front, back, old, rfl, rfl, held⟩, _⟩ := handleAlloc_split claimed
  obtain ⟨⟨left, right, oldToo, rfl, rfl, heldToo⟩, kept⟩ := handleAlloc_split claimedToo
  obtain ⟨apart, still⟩ := kept front.length old (by simp)
  have swap : fillSlot (fillSlot (left ++ ⟨true, oldToo⟩ :: right) front.length handle)
      left.length handleToo
      = fillSlot (left ++ ⟨true, handleToo⟩ :: right) front.length handle := by
    simp only [fillSlot]
    rw [List.set_comm _ _ apart, set_split]
  have here : (left ++ ⟨true, handleToo⟩ :: right)[front.length]? = some ⟨true, old⟩ := by
    rcases Nat.lt_or_ge front.length left.length with before | after
    · rw [List.getElem?_append_left before] at still ⊢
      exact still
    · rw [List.getElem?_append_right after] at still ⊢
      obtain ⟨offset, same⟩ : ∃ offset, front.length - left.length = offset + 1 :=
        ⟨front.length - left.length - 1, by omega⟩
      rw [same, List.getElem?_cons_succ] at still ⊢
      exact still
  obtain ⟨above, below, split, length⟩ := split_at here
  have whole : (openHandles (left ++ ⟨true, handleToo⟩ :: right)).Perm
      (handleToo :: old :: openHandles table) := by
    rw [openHandles_append, openHandles_used]
    refine List.perm_middle.trans (List.Perm.cons _ ?_)
    rw [heldToo, openHandles_append, openHandles_used, ← held]
    exact List.perm_middle
  rw [swap, split, ← length, fillSlot, set_split, openHandles_append, openHandles_used]
  rw [split, openHandles_append, openHandles_used] at whole
  refine List.perm_middle.trans ?_
  have rest : (openHandles above ++ openHandles below).Perm
      (handleToo :: openHandles table) :=
    (List.perm_middle.symm.trans (whole.trans (List.Perm.swap old handleToo _))).cons_inv
  exact (rest.cons handle).trans (List.Perm.swap handleToo handle _)

end Panuti.Kernel
