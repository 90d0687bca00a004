import Panuti.Kernel.Descriptors
import Panuti.Library.Bitmap

/-! The descriptor table as `handle.c` stores it: an array of handles and a packed bitmap of the
slots in use, which grow together. It refines the table of slots, so that what holds of runs of
the one holds of runs of the other.
-/

namespace Panuti.Kernel

open Bitmap

/-- `fdtable_t`. There is no array and no bitmap where the capacity is 0. -/
structure Fdtable where
  table : List Handle
  openb : List UInt8
  cap : Nat
deriving Repr, DecidableEq

namespace Fdtable

def zero : Fdtable := ⟨[], [], 0⟩

def bytes (openb : List UInt8) : ByteMemory.Memory := fun place => openb.getD place 0

def openbBytes (cap : Nat) : Nat := (cap + 7) / 8

/-- `memcpy` to the start of an array. -/
def overwrite {α : Type} (target source : List α) : List α :=
  source ++ target.drop source.length

/-- `fdtable_grow`; `none` is -1, which leaves the table alone. The allocator answers for the array
and for the bitmap.
-/
def grow (fdt : Fdtable) (tableRoom openbRoom : Bool) : Option Fdtable :=
  if MAX_HANDLES ≤ fdt.cap then none
  else
    let newCap := if fdt.cap ≠ 0 then fdt.cap * 2 else FD_INITIAL_CAP
    let newCap := if MAX_HANDLES < newCap then MAX_HANDLES else newCap
    if tableRoom = false then none
    else if openbRoom = false then none
    else
      let newTable := List.replicate newCap Handle.zero
      let newOpenb := List.replicate (openbBytes newCap) (0 : UInt8)
      some
        { table := overwrite newTable (fdt.table.take fdt.cap)
          openb := overwrite newOpenb (fdt.openb.take (openbBytes fdt.cap))
          cap := newCap }

/-- Set the bit of a slot and the type of its handle. -/
def claim (fdt : Fdtable) (slot : Nat) (type : InodeType) : Fdtable :=
  { fdt with
    table := fdt.table.modify slot (fun handle => { handle with type })
    openb := fdt.openb.modify (slot / 8) (· ||| mask (slot % 8)) }

/-- The search over the bits of a byte, from a bit on. -/
def bitLoop (fdt : Fdtable) (byte : Nat) : (left bit : Nat) → Option Nat
  | 0, _ => none
  | left + 1, bit =>
      let slot := byte * 8 + bit
      if fdt.cap ≤ slot then none
      else if (bytes fdt.openb byte).toNat.testBit bit then bitLoop fdt byte left (bit + 1)
      else some slot

def byteLoop (fdt : Fdtable) : (left byte : Nat) → Option Nat
  | 0, _ => none
  | left + 1, byte =>
      if bytes fdt.openb byte = 0xFF then byteLoop fdt left (byte + 1)
      else
        match bitLoop fdt byte 8 0 with
        | some slot => some slot
        | none => byteLoop fdt left (byte + 1)

/-- `handle_alloc`: the descriptor, or `none` for an error, and the table. -/
def handleAlloc (fdt : Fdtable) (type : InodeType) (tableRoom openbRoom : Bool)
    : Option Nat × Fdtable :=
  match byteLoop fdt (openbBytes fdt.cap) 0 with
  | some slot => (some slot, fdt.claim slot type)
  | none =>
      let slot := fdt.cap
      match fdt.grow tableRoom openbRoom with
      | none => (none, fdt)
      | some grown => (some slot, grown.claim slot type)

def handleFree (fdt : Fdtable) (fd : Int) : Fdtable :=
  if fd < 0 then fdt
  else if fdt.table = [] ∨ fdt.openb = [] ∨ fdt.cap ≤ fd.toNat then fdt
  else
    let slot := fd.toNat
    let openb := fdt.openb.modify (slot / 8) (· &&& ~~~ mask (slot % 8))
    if (List.range (openbBytes fdt.cap)).any (fun byte => bytes openb byte ≠ 0) then
      { fdt with table := fdt.table.set slot Handle.zero, openb }
    else zero

/-- `task_return_hslot`. -/
def returnHslot (fdt : Fdtable) (slot : Nat) : Option Handle :=
  if fdt.table = [] ∨ fdt.openb = [] ∨ fdt.cap ≤ slot then none
  else if bit (bytes fdt.openb) slot then fdt.table[slot]?
  else none

def fill (fdt : Fdtable) (slot : Nat) (handle : Handle) : Fdtable :=
  { fdt with table := fdt.table.set slot handle }

-- The slots of a table

/-- The array and the bitmap have the sizes of the capacity, which is in whole bytes. -/
structure Sound (fdt : Fdtable) : Prop where
  table : fdt.table.length = fdt.cap
  openb : fdt.openb.length * 8 = fdt.cap
  cap : fdt.cap ≤ MAX_HANDLES

def slots (fdt : Fdtable) : FdTable :=
  fdt.table.mapIdx (fun slot handle => ⟨bit (bytes fdt.openb) slot, handle⟩)

section

variable {fdt : Fdtable}

theorem zero_sound : zero.Sound := ⟨rfl, rfl, by decide⟩

theorem Sound.openbBytes_eq (sound : fdt.Sound) : openbBytes fdt.cap = fdt.openb.length := by
  have whole := sound.openb
  rw [openbBytes]
  omega

theorem slots_length : fdt.slots.length = fdt.table.length := List.length_mapIdx

theorem slots_getElem? (slot : Nat)
    : fdt.slots[slot]?
      = (fdt.table[slot]?).map (fun handle => ⟨bit (bytes fdt.openb) slot, handle⟩) :=
  List.getElem?_mapIdx

theorem bytes_modify {openb : List UInt8} {place : Nat} (inside : place < openb.length)
    (change : UInt8 → UInt8)
    : bytes (openb.modify place change)
      = Function.update (bytes openb) place (change (bytes openb place)) := by
  funext other
  by_cases same : other = place
  · subst same
    rw [Function.update_self]
    simp [bytes, List.getD, inside]
  · rw [Function.update_of_ne same]
    simp [bytes, List.getD, Ne.symm same]

theorem Sound.returnHslot_eq (sound : fdt.Sound) (slot : Nat)
    : fdt.returnHslot slot = Kernel.returnHslot fdt.slots slot := by
  rw [returnHslot, Kernel.returnHslot, slots_getElem?]
  by_cases inside : slot < fdt.cap
  · have present : slot < fdt.table.length := by rw [sound.table]; exact inside
    have some : fdt.table ≠ [] := by
      intro none
      rw [none] at present
      cases present
    have bits : fdt.openb ≠ [] := by
      intro none
      have whole := sound.openb
      rw [none, List.length_nil] at whole
      omega
    rw [if_neg (by simp [some, bits, inside]), List.getElem?_eq_getElem present]
    rfl
  · have absent : fdt.table[slot]? = none :=
      List.getElem?_eq_none (by rw [sound.table]; omega)
    rw [if_pos (.inr (.inr (by omega))), absent]
    rfl

end

-- The search

section

variable {fdt : Fdtable}

/-- A slot is the lowest one from a place on that is not in use. -/
structure Lowest (fdt : Fdtable) (start slot : Nat) : Prop where
  inside : slot < fdt.cap
  clear : bit (bytes fdt.openb) slot = false
  below : ∀ other, start ≤ other → other < slot → bit (bytes fdt.openb) other = true

theorem bit_eq {byte place : Nat} (small : place < 8)
    : bit (bytes fdt.openb) (byte * 8 + place) = (bytes fdt.openb byte).toNat.testBit place := by
  have isByte : (byte * 8 + place) / 8 = byte := by omega
  have isPlace : (byte * 8 + place) % 8 = place := by omega
  rw [bit, isByte, isPlace]

theorem bitLoop_spec (byte left place : Nat) (rest : left + place = 8)
    : match bitLoop fdt byte left place with
      | some slot => Lowest fdt (byte * 8 + place) slot
      | none => ∀ other, byte * 8 + place ≤ other → other < byte * 8 + 8 → other < fdt.cap
          → bit (bytes fdt.openb) other = true := by
  induction left generalizing place with
  | zero =>
      intro other low high
      omega
  | succ left ih =>
      rw [bitLoop]
      by_cases beyond : fdt.cap ≤ byte * 8 + place
      · simp only [if_pos beyond]
        intro other low _ inside
        omega
      simp only [if_neg beyond]
      rw [← bit_eq (by omega)]
      by_cases used : bit (bytes fdt.openb) (byte * 8 + place) = true
      · rw [if_pos used]
        have later := ih (place + 1) (by omega)
        split
        · rename_i slot found
          rw [found] at later
          refine ⟨later.inside, later.clear, fun other low less => ?_⟩
          by_cases first : other = byte * 8 + place
          · rw [first, used]
          · exact later.below other (by omega) less
        · rename_i none
          rw [none] at later
          intro other low high inside
          by_cases first : other = byte * 8 + place
          · rw [first, used]
          · exact later other (by omega) high inside
      · rw [if_neg used]
        exact ⟨by omega, by simpa using used, fun other low less => by omega⟩

theorem testBit_full : ∀ place < 8, (0xFF : UInt8).toNat.testBit place = true := by
  decide

/-- The search finds the lowest slot that is not in use. -/
theorem byteLoop_spec (left byte : Nat) (rest : fdt.cap ≤ (left + byte) * 8)
    : match byteLoop fdt left byte with
      | some slot => Lowest fdt (byte * 8) slot
      | none => ∀ other, byte * 8 ≤ other → other < fdt.cap
          → bit (bytes fdt.openb) other = true := by
  induction left generalizing byte with
  | zero =>
      intro other low high
      omega
  | succ left ih =>
      have later := ih (byte + 1) (by omega)
      -- where the byte has no slot left, the search goes on behind it
      have goesOn (full : ∀ other, byte * 8 ≤ other → other < byte * 8 + 8 → other < fdt.cap
            → bit (bytes fdt.openb) other = true)
          : match byteLoop fdt left (byte + 1) with
            | some slot => Lowest fdt (byte * 8) slot
            | none => ∀ other, byte * 8 ≤ other → other < fdt.cap
                → bit (bytes fdt.openb) other = true := by
        split
        · rename_i slot found
          rw [found] at later
          refine ⟨later.inside, later.clear, fun other low less => ?_⟩
          by_cases here : other < byte * 8 + 8
          · exact full other low here (Nat.lt_trans less later.inside)
          · exact later.below other (by omega) less
        · rename_i none
          rw [none] at later
          intro other low inside
          by_cases here : other < byte * 8 + 8
          · exact full other low here inside
          · exact later other (by omega) inside
      rw [byteLoop]
      by_cases all : bytes fdt.openb byte = 0xFF
      · rw [if_pos all]
        apply goesOn
        intro other low high _
        have place : other = byte * 8 + (other - byte * 8) := by omega
        rw [place, bit_eq (by omega), all]
        exact testBit_full _ (by omega)
      · rw [if_neg all]
        have here := @bitLoop_spec fdt byte 8 0 rfl
        cases found : bitLoop fdt byte 8 0 with
        | some slot =>
            rw [found] at here
            exact here
        | none =>
            rw [found] at here
            exact goesOn here

end

-- The table of slots

section

variable {fdt : Fdtable}

/-- The search is the search over the slots. -/
theorem Sound.byteLoop_eq (sound : fdt.Sound)
    : byteLoop fdt (openbBytes fdt.cap) 0 = fdt.slots.findIdx? (fun entry => !entry.used) := by
  have whole := sound.openb
  have search := @byteLoop_spec fdt (openbBytes fdt.cap) 0 (by rw [sound.openbBytes_eq]; omega)
  have place {slot : Nat} (inside : slot < fdt.cap)
      : ∃ handle, fdt.slots[slot]? = some ⟨bit (bytes fdt.openb) slot, handle⟩ := by
    rw [slots_getElem?, List.getElem?_eq_getElem (by rw [sound.table]; exact inside)]
    exact ⟨_, rfl⟩
  cases found : byteLoop fdt (openbBytes fdt.cap) 0 with
  | none =>
      rw [found] at search
      symm
      rw [List.findIdx?_eq_none_iff]
      intro entry member
      obtain ⟨slot, inside, same⟩ := List.mem_iff_getElem.mp member
      have inCap : slot < fdt.cap := by
        rwa [slots_length, sound.table] at inside
      obtain ⟨handle, here⟩ := place inCap
      rw [List.getElem?_eq_getElem inside, same] at here
      rw [Option.some.inj here, search slot (by omega) inCap]
      rfl
  | some slot =>
      rw [found] at search
      symm
      rw [List.findIdx?_eq_some_iff_getElem]
      have inside : slot < fdt.slots.length := by
        rw [slots_length, sound.table]
        exact search.inside
      refine ⟨inside, ?_, fun other less => ?_⟩
      · obtain ⟨handle, here⟩ := place search.inside
        rw [List.getElem?_eq_getElem inside] at here
        rw [Option.some.inj here, search.clear]
        rfl
      · obtain ⟨handle, here⟩ := place (Nat.lt_trans less search.inside)
        rw [List.getElem?_eq_getElem (Nat.lt_trans less inside)] at here
        rw [Option.some.inj here, search.below other (by omega) less]
        exact Bool.false_ne_true

variable {slot : Nat} {tableRoom openbRoom : Bool}

theorem Sound.claim (sound : fdt.Sound) (inside : slot < fdt.cap) (type : InodeType)
    : (fdt.claim slot type).Sound
      ∧ (fdt.claim slot type).slots = claimSlot fdt.slots slot type := by
  have byte : slot / 8 < fdt.openb.length := by
    have whole := sound.openb
    omega
  refine ⟨⟨?_, ?_, sound.cap⟩, ?_⟩
  · rw [Fdtable.claim, List.length_modify, sound.table]
  · rw [Fdtable.claim, List.length_modify, sound.openb]
  · apply List.ext_getElem?
    intro other
    have bits : bytes (fdt.claim slot type).openb = setBit (bytes fdt.openb) slot :=
      bytes_modify byte _
    rw [claimSlot, List.getElem?_modify, slots_getElem?, slots_getElem?, bits, bit_setBit]
    simp only [Fdtable.claim, List.getElem?_modify]
    by_cases same : slot = other
    · simp [same, Option.map_map, Function.comp_def]
    · simp [same]

theorem overwrite_getElem? {α : Type} (target source : List α) (place : Nat)
    : (overwrite target source)[place]?
      = if place < source.length then source[place]? else target[place]? := by
  rw [overwrite]
  split
  · rename_i inside
    exact List.getElem?_append_left inside
  · rename_i beyond
    rw [List.getElem?_append_right (by omega), List.getElem?_drop]
    congr 1
    omega

theorem bytes_overwrite (count : Nat) (source : List UInt8)
    : bytes (overwrite (List.replicate count 0) source) = bytes source := by
  funext place
  rw [bytes, bytes, List.getD_eq_getElem?_getD, overwrite_getElem?, List.getD_eq_getElem?_getD]
  split
  · rfl
  · rename_i beyond
    rw [List.getElem?_eq_none (by omega : source.length ≤ place), List.getElem?_replicate]
    split
    · rfl
    · rfl

theorem Sound.bit_beyond (sound : fdt.Sound) (beyond : fdt.cap ≤ slot)
    : bit (bytes fdt.openb) slot = false := by
  have whole := sound.openb
  rw [bit, bytes, List.getD_eq_getElem?_getD, List.getElem?_eq_none (by omega)]
  exact Nat.zero_testBit _

def grownCap (cap : Nat) : Nat :=
  if MAX_HANDLES < (if cap ≠ 0 then cap * 2 else FD_INITIAL_CAP) then MAX_HANDLES
  else if cap ≠ 0 then cap * 2 else FD_INITIAL_CAP

theorem Sound.grownCap_gt (sound : fdt.Sound) (more : fdt.cap < MAX_HANDLES)
    : fdt.cap < grownCap fdt.cap ∧ grownCap fdt.cap ≤ MAX_HANDLES
      ∧ openbBytes (grownCap fdt.cap) * 8 = grownCap fdt.cap := by
  have whole := sound.openb
  simp only [Fdtable.grownCap, openbBytes, MAX_HANDLES, FD_INITIAL_CAP] at more ⊢
  by_cases none : fdt.cap = 0
  · simp [none]
  · simp only [none, ne_eq, not_false_eq_true, if_true]
    split
    · omega
    · omega

theorem grow_eq (more : fdt.cap < MAX_HANDLES)
    : fdt.grow true true
      = some
        { table := overwrite (List.replicate (grownCap fdt.cap) Handle.zero)
            (fdt.table.take fdt.cap)
          openb := overwrite (List.replicate (openbBytes (grownCap fdt.cap)) (0 : UInt8))
            (fdt.openb.take (openbBytes fdt.cap))
          cap := grownCap fdt.cap } := by
  rw [grow, if_neg (Nat.not_le_of_lt more)]
  rfl

theorem grow_none (refused : MAX_HANDLES ≤ fdt.cap ∨ (tableRoom && openbRoom) = false)
    : fdt.grow tableRoom openbRoom = none := by
  rw [grow]
  by_cases full : MAX_HANDLES ≤ fdt.cap
  · rw [if_pos full]
  · rw [if_neg full]
    have noRoom := refused.resolve_left full
    cases tableRoom with
    | false => rfl
    | true =>
        cases openbRoom with
        | false => rfl
        | true => cases noRoom

theorem grow_some {grown : Fdtable} (done : fdt.grow tableRoom openbRoom = some grown)
    : fdt.cap < MAX_HANDLES ∧ tableRoom = true ∧ openbRoom = true := by
  by_contra refused
  rw [grow_none] at done
  · cases done
  · by_cases full : MAX_HANDLES ≤ fdt.cap
    · exact .inl full
    · right
      rw [Bool.eq_false_iff]
      intro both
      rw [Bool.and_eq_true] at both
      exact refused ⟨by omega, both⟩

theorem Sound.grow_sound (sound : fdt.Sound) {grown : Fdtable}
    (done : fdt.grow tableRoom openbRoom = some grown)
    : grown.Sound ∧ fdt.cap < grown.cap := by
  obtain ⟨more, rfl, rfl⟩ := grow_some done
  obtain ⟨larger, bound, bits⟩ := sound.grownCap_gt more
  have whole := sound.openb
  rw [grow_eq more] at done
  obtain rfl := Option.some.inj done
  refine ⟨⟨?_, ?_, bound⟩, larger⟩
  · simp only [overwrite, List.length_append, List.length_take, List.length_drop,
      List.length_replicate, sound.table]
    omega
  · simp only [overwrite, List.length_append, List.length_take, List.length_drop,
      List.length_replicate, sound.openbBytes_eq]
    omega

/-- Growing appends slots that are not in use. -/
theorem Sound.grow_slots (sound : fdt.Sound) (tableRoom openbRoom : Bool)
    : (fdt.grow tableRoom openbRoom).map slots
      = fdtableGrow fdt.slots (tableRoom && openbRoom) := by
  have length : fdt.slots.length = fdt.cap := by rw [slots_length, sound.table]
  rw [fdtableGrow, length]
  by_cases full : MAX_HANDLES ≤ fdt.cap
  · rw [if_pos full, grow_none (.inl full)]
    rfl
  rw [if_neg full]
  by_cases refused : (tableRoom && openbRoom) = false
  · rw [if_pos refused, grow_none (.inr refused)]
    rfl
  obtain ⟨rfl, rfl⟩ := Bool.and_eq_true_iff.mp (Bool.not_eq_false _ ▸ refused)
  have more : fdt.cap < MAX_HANDLES := by omega
  obtain ⟨larger, bound, bits⟩ := sound.grownCap_gt more
  have same : (if (if fdt.cap = 0 then FD_INITIAL_CAP else fdt.cap * 2) > MAX_HANDLES
      then MAX_HANDLES else if fdt.cap = 0 then FD_INITIAL_CAP else fdt.cap * 2)
      = grownCap fdt.cap := by
    by_cases none : fdt.cap = 0
    · simp [none, Fdtable.grownCap]
    · simp [none, Fdtable.grownCap]
  rw [grow_eq more, Option.map_some, if_neg refused]
  simp only [same]
  congr 1
  apply List.ext_getElem?
  intro slot
  have handles : fdt.table.take fdt.cap = fdt.table := List.take_of_length_le (by rw [sound.table])
  have bitmap : fdt.openb.take (openbBytes fdt.cap) = fdt.openb :=
    List.take_of_length_le (by rw [sound.openbBytes_eq])
  rw [slots_getElem?, overwrite_getElem?, handles, bitmap, bytes_overwrite, sound.table]
  by_cases inside : slot < fdt.cap
  · rw [if_pos inside, List.getElem?_append_left (by rw [length]; exact inside), slots_getElem?]
  · rw [if_neg inside, List.getElem?_append_right (by rw [length]; omega), length,
      sound.bit_beyond (by omega), List.getElem?_replicate, List.getElem?_replicate]
    by_cases within : slot < grownCap fdt.cap
    · rw [if_pos within, if_pos (by omega)]
      rfl
    · rw [if_neg within, if_neg (by omega)]
      rfl

theorem Sound.handleAlloc_slots (sound : fdt.Sound) (type : InodeType) (tableRoom openbRoom : Bool)
    : (fdt.handleAlloc type tableRoom openbRoom).2.Sound
      ∧ match fdt.handleAlloc type tableRoom openbRoom with
        | (none, after) => after = fdt
            ∧ Kernel.handleAlloc fdt.slots type (tableRoom && openbRoom) = none
        | (some fd, after) =>
            Kernel.handleAlloc fdt.slots type (tableRoom && openbRoom) = some (fd, after.slots) := by
  have length : fdt.slots.length = fdt.cap := by rw [slots_length, sound.table]
  have grows := sound.grow_slots tableRoom openbRoom
  rw [Kernel.handleAlloc, ← sound.byteLoop_eq, handleAlloc, ← grows, length]
  cases found : byteLoop fdt (openbBytes fdt.cap) 0 with
  | some slot =>
      have search := @byteLoop_spec fdt (openbBytes fdt.cap) 0
        (by have whole := sound.openb; rw [sound.openbBytes_eq]; omega)
      rw [found] at search
      obtain ⟨after, same⟩ := sound.claim search.inside type
      simp only [same]
      exact ⟨after, trivial⟩
  | none =>
      cases grew : fdt.grow tableRoom openbRoom with
      | none =>
          exact ⟨sound, rfl, rfl⟩
      | some grown =>
          obtain ⟨soundToo, larger⟩ := sound.grow_sound grew
          obtain ⟨after, same⟩ := soundToo.claim larger type
          simp only [Option.map_some, same]
          exact ⟨after, trivial⟩

theorem bytes_eq_zero_iff (openb : List UInt8) (byte : Nat)
    : bytes openb byte = 0 ↔ ∀ place < 8, bit (bytes openb) (byte * 8 + place) = false := by
  have bits {place : Nat} (small : place < 8)
      : bit (bytes openb) (byte * 8 + place) = (bytes openb byte).toNat.testBit place :=
    @bit_eq ⟨[], openb, 0⟩ byte place small
  constructor
  · intro zero place small
    rw [bits small, zero]
    exact Nat.zero_testBit place
  · intro clear
    apply UInt8.toNat.inj
    apply Nat.eq_of_testBit_eq
    intro place
    rw [show (0 : UInt8).toNat = 0 from rfl, Nat.zero_testBit]
    by_cases small : place < 8
    · rw [← bits small, clear place small]
    · apply Nat.testBit_lt_two_pow
      exact Nat.lt_of_lt_of_le (bytes openb byte).toNat_lt
        (Nat.pow_le_pow_right (by decide) (by omega))

theorem Sound.all_unused (sound : fdt.Sound)
    : fdt.slots.all (fun entry => !entry.used)
      = !(List.range (openbBytes fdt.cap)).any (fun byte => bytes fdt.openb byte ≠ 0) := by
  have whole := sound.openb
  rw [Bool.eq_iff_iff]
  simp only [List.all_eq_true, Bool.not_eq_true', List.any_eq_false, List.mem_range,
    decide_eq_true_eq, ne_eq, not_not, sound.openbBytes_eq]
  constructor
  · intro unused byte small
    rw [bytes_eq_zero_iff]
    intro place inByte
    have inside : byte * 8 + place < fdt.table.length := by
      rw [sound.table]
      omega
    have here := @slots_getElem? fdt (byte * 8 + place)
    rw [List.getElem?_eq_getElem inside, Option.map_some] at here
    exact unused _ (List.mem_of_getElem? here)
  · intro zero entry member
    obtain ⟨slot, inside, same⟩ := List.mem_iff_getElem.mp member
    have here := @slots_getElem? fdt slot
    rw [slots_length, sound.table] at inside
    rw [List.getElem?_eq_getElem (by rw [slots_length, sound.table]; exact inside), same,
      List.getElem?_eq_getElem (by rw [sound.table]; exact inside), Option.map_some] at here
    rw [Option.some.inj here]
    have clear := (bytes_eq_zero_iff _ _).mp (zero (slot / 8) (by omega)) _
      (Nat.mod_lt slot (by decide))
    rwa [Nat.div_add_mod'] at clear

theorem Sound.clear (sound : fdt.Sound) (inside : slot < fdt.cap) {cleared : Fdtable}
    (isCleared : cleared
      = { fdt with
          table := fdt.table.set slot Handle.zero
          openb := fdt.openb.modify (slot / 8) (· &&& ~~~ mask (slot % 8)) })
    : cleared.Sound ∧ cleared.slots = fdt.slots.set slot Slot.zero := by
  have byte : slot / 8 < fdt.openb.length := by
    have whole := sound.openb
    omega
  subst isCleared
  refine ⟨⟨?_, ?_, sound.cap⟩, ?_⟩
  · rw [List.length_set, sound.table]
  · rw [List.length_modify, sound.openb]
  · apply List.ext_getElem?
    intro other
    have bits : bytes (fdt.openb.modify (slot / 8) (· &&& ~~~ mask (slot % 8)))
        = clearBit (bytes fdt.openb) slot :=
      bytes_modify byte _
    simp only [slots_getElem?, List.getElem?_set, slots_length, bits, bit_clearBit]
    by_cases same : slot = other
    · subst same
      simp [sound.table, inside, Slot.zero]
    · simp [same]

theorem Sound.handleFree_slots (sound : fdt.Sound) (fd : Int)
    : (fdt.handleFree fd).Sound
      ∧ (fdt.handleFree fd).slots
        = if fd < 0 then fdt.slots else Kernel.handleFree fdt.slots fd.toNat := by
  have length : fdt.slots.length = fdt.cap := by rw [slots_length, sound.table]
  rw [handleFree]
  by_cases negative : fd < 0
  · rw [if_pos negative, if_pos negative]
    exact ⟨sound, rfl⟩
  rw [if_neg negative, if_neg negative, Kernel.handleFree, length]
  by_cases beyond : fdt.cap ≤ fd.toNat
  · rw [if_pos (.inr (.inr beyond)), if_pos beyond]
    exact ⟨sound, rfl⟩
  have inside : fd.toNat < fdt.cap := by omega
  have table : fdt.table ≠ [] := by
    intro none
    have size := sound.table
    rw [none, List.length_nil] at size
    omega
  have openb : fdt.openb ≠ [] := by
    intro none
    have size := sound.openb
    rw [none, List.length_nil] at size
    omega
  rw [if_neg (by simp [table, openb, beyond]), if_neg beyond]
  obtain ⟨soundToo, same⟩ := sound.clear inside rfl
  have unused := soundToo.all_unused
  rw [same] at unused
  simp only [unused]
  generalize (List.range (openbBytes fdt.cap)).any (fun byte =>
    bytes (fdt.openb.modify (fd.toNat / 8) (· &&& ~~~ mask (fd.toNat % 8))) byte ≠ 0) = used
  cases used with
  | true => exact ⟨soundToo, same⟩
  | false => exact ⟨zero_sound, rfl⟩

end

end Fdtable

end Panuti.Kernel
