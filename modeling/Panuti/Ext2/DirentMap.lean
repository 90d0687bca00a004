import Mathlib.Data.List.Nodup
import Panuti.Ext2.DirentLayout

/-! A well-formed directory block is a finite map from names to inode numbers: finding a name
reads the map, placing one inserts a binding, removing one deletes it, and setting the parent
changes the binding of `..`.
-/

namespace Panuti.Ext2

open ByteMemory RecordChain

-- What the records bind

@[simp]
theorem bindings_append (front back : List Entry)
    : bindings (front ++ back) = bindings front ++ bindings back := by
  simp [bindings]

@[simp]
theorem bindings_cons (entry : Entry) (rest : List Entry)
    : bindings (entry :: rest) = entry.binding.toList ++ bindings rest := by
  cases shape : entry.binding <;> simp [bindings, shape]

@[simp]
theorem bindings_nil : bindings [] = [] := rfl

variable {entries : List Entry}

theorem mem_names {name : Name}
    : name ∈ names entries ↔ ∃ inum, (name, inum) ∈ bindings entries := by
  simp [names]

theorem binding_unique {name : Name} {one two : Nat} (distinct : (names entries).Nodup)
    (first : (name, one) ∈ bindings entries) (second : (name, two) ∈ bindings entries)
    : one = two :=
  congrArg Prod.snd (List.inj_on_of_nodup_map distinct first second rfl)

namespace Format

variable {format : Format} {buf : Memory} {entries : List Entry} {name : Name}

-- The search for a name

def viewSearch (buf : Memory) (name : Name) (_ : Unit) (off : Nat) (entry : Entry)
    : Turn Unit (Option (Nat × DirentHdr)) :=
  match lookEntry name entry with
  | .malformed => .stop none
  | .named => .stop (some (off, headerAt buf off))
  | .deleted => .next ()
  | .other => .next ()

/-- The search stops at the first record of the name. -/
theorem tour_viewSearch (buf : Memory) (name : Name) (entries : List Entry) (off : Nat)
    : (name ∉ names entries
        ∧ tour (viewSearch buf name) Entry.len entries off () = .unused ())
      ∨ ∃ front entry back inum, entries = front ++ entry :: back
        ∧ entry.binding = some (name, inum)
        ∧ tour (viewSearch buf name) Entry.len entries off ()
          = .stopped (some (off + span front, headerAt buf (off + span front))) := by
  induction entries generalizing off with
  | nil => exact Or.inl ⟨by simp [names], rfl⟩
  | cons entry rest ih =>
      by_cases named : ∃ inum, entry.binding = some (name, inum)
      · obtain ⟨inum, bound⟩ := named
        refine Or.inr ⟨[], entry, rest, inum, rfl, bound, tour_stop ?_⟩
        simp [viewSearch, lookEntry, bound]
      · have goesOn : viewSearch buf name () off entry = .next () := by
          cases shape : entry.binding with
          | none => simp [viewSearch, lookEntry, shape]
          | some bound =>
              have different : bound.1 ≠ name :=
                fun same => named ⟨bound.2, by rw [shape, ← same]⟩
              simp [viewSearch, lookEntry, shape, different]
        rw [tour_next goesOn]
        rcases ih (off + entry.len) with
          ⟨absent, ended⟩ | ⟨front, found, back, inum, rfl, bound, ended⟩
        · refine Or.inl ⟨?_, ended⟩
          intro present
          obtain ⟨inum, member⟩ := mem_names.mp present
          rw [bindings_cons, List.mem_append] at member
          rcases member with here | behind
          · exact named ⟨inum, by simpa using here⟩
          · exact absent (mem_names.mpr ⟨inum, behind⟩)
        · refine Or.inr ⟨entry :: front, found, back, inum, rfl, bound, ?_⟩
          rw [span_cons, ← Nat.add_assoc]
          exact ended

variable {off need inum : Nat} {entry : Entry} {front back done : List Entry} {scan : Scan}
    {bound : Name × Nat}

theorem searchVisit_stands (name : Name) (stands : format.Stands buf off entry)
    : ∃ d, format.direntAt buf off = some (.record d) ∧ d.recLen = entry.len
        ∧ format.searchVisit buf name () off d = some (viewSearch buf name () off entry) := by
  refine ⟨headerAt buf off, stands.found, stands.2.1, ?_⟩
  have looked := stands.look name
  unfold searchVisit viewSearch
  generalize lookEntry name entry = seen at looked ⊢
  cases seen <;> simp [looked]

theorem search_laid (laid : format.Laid buf 0 entries) (name : Name)
    : (name ∉ names entries ∧ format.search buf name = some none)
      ∨ ∃ front entry back inum, entries = front ++ entry :: back
        ∧ entry.binding = some (name, inum)
        ∧ format.search buf name = some (some (span front, headerAt buf (span front))) := by
  obtain ⟨inside, many⟩ := laid.span_le
  have walked := walk_chain (viewSearch buf name)
    (fun _ _ _ stands => searchVisit_stands name stands) () laid.chain
    (by omega : entries.length < format.blockSize + 1)
  simp only [search, walked, Option.map_some]
  rcases tour_viewSearch buf name entries 0 with
    ⟨absent, ended⟩ | ⟨front, entry, back, inum, split, bound, ended⟩
  · exact Or.inl ⟨absent, by rw [ended]⟩
  · refine Or.inr ⟨front, entry, back, inum, split, bound, ?_⟩
    rw [ended, Nat.zero_add]

theorem Laid.middle (laid : format.Laid buf 0 (front ++ entry :: back))
    : format.Stands buf (span front) entry
      ∧ format.Laid buf (span front + entry.len) back := by
  have behind := (laid_append.mp laid).2
  rw [Nat.zero_add] at behind
  exact behind

/-- `ext2_dirent_find` reads the map. -/
theorem Holds.find (holds : format.Holds buf entries) (name : Name)
    : ∃ found, format.direntFind buf name = some found
        ∧ ∀ inum, found = some inum ↔ (name, inum) ∈ bindings entries := by
  rcases search_laid holds.laid name with
    ⟨absent, searched⟩ | ⟨front, entry, back, inum, rfl, bound, searched⟩
  · refine ⟨none, by rw [direntFind, searched]; rfl, ?_⟩
    intro inum
    constructor
    · intro impossible
      cases impossible
    · intro member
      exact absurd (mem_names.mpr ⟨inum, member⟩) absent
  · obtain ⟨⟨_, _, means⟩, _⟩ := holds.laid.middle
    simp only [bound] at means
    have member : (name, inum) ∈ bindings (front ++ entry :: back) := by simp [bound]
    refine ⟨some inum, by rw [direntFind, searched, ← means.1]; rfl, ?_⟩
    intro other
    constructor
    · intro same
      obtain rfl := Option.some.inj same
      exact member
    · intro memberToo
      rw [binding_unique holds.distinct member memberToo]

-- Removing a name

theorem Laid.next {d : DirentHdr} (laid : format.Laid buf off back)
    (found : format.direntAt buf off = some (.record d)) (deleted : d.inode = 0)
    : ∃ entry rest, back = entry :: rest ∧ entry.binding = none ∧ entry.len = d.recLen := by
  cases back with
  | nil =>
      rw [laid.tail_unused] at found
      cases found
  | cons entry rest =>
      have stands := laid.1
      rw [stands.found] at found
      obtain rfl : headerAt buf off = d := by simpa using found
      obtain ⟨_, size, means⟩ := stands
      refine ⟨entry, rest, rfl, ?_, size.symm⟩
      have named := entry.named
      cases shape : entry.binding with
      | none => rfl
      | some bound =>
          simp only [shape] at means named
          exact absurd (means.1.symm.trans deleted) (named bound rfl).1

theorem stands_removed {before : Memory} {total : Nat} {long : HDR_LEN ≤ total}
    {aligned : total % 4 = 0} (inside : off + total ≤ format.blockSize)
    : format.Stands ((before.store off (DirentHdr.mk 0 total 0 0).bytes).fill (off + HDR_LEN)
        (total - HDR_LEN) 0) off (hole total long aligned) :=
  stands_hole before inside (fun _ _ upper => Memory.fill_other _ (Or.inl upper))

/-- `ext2_dirent_remove` deletes exactly the binding of the name. -/
theorem Holds.remove (holds : format.Holds buf entries) (name : Name)
    : (name ∉ names entries ∧ format.direntRemove buf name = some none)
      ∨ ∃ inum after rest, format.direntRemove buf name = some (some after)
        ∧ format.Holds after rest
        ∧ (bindings entries).Perm ((name, inum) :: bindings rest) := by
  rcases search_laid holds.laid name with
    ⟨absent, searched⟩ | ⟨front, entry, back, inum, rfl, bound, searched⟩
  · exact Or.inl ⟨absent, by rw [direntRemove, searched]⟩
  · obtain ⟨stands, behind⟩ := holds.laid.middle
    have long := entry.long
    have inside := stands.1
    have whole : (headerAt buf (span front)).recLen = entry.len := stands.2.1
    have shrinks {rest : List Entry}
        (kept : (bindings (front ++ entry :: back)).Perm ((name, inum) :: bindings rest))
        : (names rest).Nodup :=
      (List.nodup_cons.mp ((kept.map Prod.fst).nodup_iff.mp holds.distinct)).2
    refine Or.inr ⟨inum, ?_⟩
    simp only [direntRemove, searched]
    rcases removeAt_spec stands.found with
      ⟨nx, found, deleted, removed⟩ | ⟨_, removed⟩
    · rw [whole] at found removed
      obtain ⟨other, rest, rfl, unbound, size⟩ := behind.next found deleted
      have within := behind.1.1
      have aligned : (entry.len + other.len) % 4 = 0 := by
        have one := entry.aligned
        have two := other.aligned
        omega
      have total : HDR_LEN ≤ entry.len + other.len := by omega
      rw [← size] at removed
      have kept : (bindings (front ++ entry :: other :: rest)).Perm
          ((name, inum)
            :: bindings (front ++ ([hole (entry.len + other.len) total aligned] ++ rest))) := by
        simp [bound, unbound, hole]
      refine ⟨_, _, by rw [removed]; rfl, ⟨?_, shrinks kept⟩, kept⟩
      refine Laid.replace [entry, other] _ holds.laid (by simp [hole]) ?_ ?_
      · intro place apart
        simp only [Nat.zero_add, span_cons, span_nil, Nat.add_zero] at apart
        rw [Memory.fill_other _ (by omega),
          Memory.store_other _ (by rw [length_hdr_bytes]; omega),
          Memory.fill_other _ (by omega)]
      · rw [Nat.zero_add]
        exact ⟨stands_removed (by omega), trivial⟩
    · rw [whole] at removed
      have kept : (bindings (front ++ entry :: back)).Perm
          ((name, inum) :: bindings (front ++ ([hole entry.len long entry.aligned] ++ back))) := by
        simp [bound, hole]
      refine ⟨_, _, by rw [removed]; rfl, ⟨?_, shrinks kept⟩, kept⟩
      refine Laid.replace [entry] _ holds.laid (by simp [hole]) ?_ ?_
      · intro place apart
        simp only [Nat.zero_add, span_cons, span_nil, Nat.add_zero] at apart
        rw [Memory.fill_other _ (by omega),
          Memory.store_other _ (by rw [length_hdr_bytes]; omega)]
      · rw [Nat.zero_add]
        exact ⟨stands_removed inside, trivial⟩

-- Setting the parent

/-- `ext2_dirent_set_parent` changes exactly the binding of `..`. -/
theorem Holds.setParent (holds : format.Holds buf entries) {parent : Nat} (live : parent ≠ 0)
    (fits : parent < 4294967296)
    : (dotDot ∉ names entries ∧ format.direntSetParent buf parent = some none)
      ∨ ∃ inum after changed rest, format.direntSetParent buf parent = some (some after)
        ∧ format.Holds after changed
        ∧ (bindings entries).Perm ((dotDot, inum) :: rest)
        ∧ (bindings changed).Perm ((dotDot, parent) :: rest) := by
  rcases search_laid holds.laid dotDot with
    ⟨absent, searched⟩ | ⟨front, entry, back, inum, rfl, bound, searched⟩
  · exact Or.inl ⟨absent, by rw [direntSetParent, searched]⟩
  · obtain ⟨stands, behind⟩ := holds.laid.middle
    obtain ⟨inside, size, means⟩ := stands
    simp only [bound] at means
    obtain ⟨number, length, string⟩ := means
    obtain ⟨_, notEmpty, room⟩ := entry.named _ bound
    let changed := Format.live entry.len dotDot parent entry.aligned live notEmpty room
    have header : { headerAt buf (span front) with inode := parent }
        = DirentHdr.mk parent entry.len dotDot.length (buf (span front + 7)).toNat := by
      simp only [headerAt, size, length]
    have before : (bindings (front ++ entry :: back)).Perm
        ((dotDot, inum) :: bindings (front ++ back)) := by
      simp [bound]
    have behindToo : (bindings (front ++ ([changed] ++ back))).Perm
        ((dotDot, parent) :: bindings (front ++ back)) := by
      simp [changed, Format.live]
    have distinct : (names (front ++ ([changed] ++ back))).Nodup := by
      rw [names, (behindToo.map Prod.fst).nodup_iff]
      exact (before.map Prod.fst).nodup_iff.mp holds.distinct
    refine Or.inr ⟨inum, buf.store (span front)
        (DirentHdr.mk parent entry.len dotDot.length (buf (span front + 7)).toNat).bytes,
      front ++ ([changed] ++ back), bindings (front ++ back), ?_, ⟨?_, distinct⟩, before,
      behindToo⟩
    · simp only [direntSetParent, searched, header]
      rw [poke_spec (by rw [length_hdr_bytes]; simp only [HDR_LEN] at room ⊢; omega)]
      rfl
    · refine Laid.replace [entry] _ holds.laid (by simp [changed, Format.live]) ?_ ?_
      · intro place apart
        simp only [Nat.zero_add, span_cons, span_nil, Nat.add_zero] at apart
        exact Memory.store_other _ (by rw [length_hdr_bytes]; omega)
      · rw [Nat.zero_add]
        refine ⟨stands_live buf _ inside fits (by decide) (fun _ _ _ => rfl) ?_, trivial⟩
        rw [Memory.bytes_congr (fun place lower upper =>
          Memory.store_other buf (Or.inr (by rw [length_hdr_bytes]; exact lower)))]
        exact string

-- Placing a name

/-- There is room for a record of `need` bytes: in a hole, behind a live record that takes more
than it needs, or in the tail.
-/
def Room (format : Format) (need : Nat) (entries : List Entry) : Prop :=
  (∃ entry ∈ entries, entry.binding = none ∧ need ≤ entry.len)
  ∨ (∃ entry ∈ entries, ∃ bound ∈ entry.binding,
      need + direntRecLen bound.1.length ≤ entry.len)
  ∨ span entries + need ≤ format.blockSize

/-- A turn of the loop in `ext2_dirent_place`, seen on the records. -/
def viewPlace (need : Nat) (name : Name) (scan : Scan) (off : Nat) (entry : Entry)
    : Turn Scan Verdict :=
  match entry.binding with
  | none => .next ((scan.hole need off entry.len).last off entry.len)
  | some (other, _) =>
      if other = name then .stop .exists
      else .next ((scan.split need off entry.len other.length).last off entry.len)

theorem placeVisit_stands (need : Nat) (name : Name) (scan : Scan)
    (stands : format.Stands buf off entry)
    : ∃ d, format.direntAt buf off = some (.record d) ∧ d.recLen = entry.len
        ∧ format.placeVisit buf need name scan off d
          = some (viewPlace need name scan off entry) := by
  refine ⟨headerAt buf off, stands.found, stands.2.1, ?_⟩
  have size : (headerAt buf off).recLen = entry.len := stands.2.1
  simp only [placeVisit, stands.look, Option.map_some, lookEntry, viewPlace, size]
  cases shape : entry.binding with
  | none => rfl
  | some bound =>
      have means := stands.2.2
      simp only [shape] at means
      have length : (headerAt buf off).nameLen = bound.1.length := means.2.1
      by_cases same : bound.1 = name
      · simp only [if_pos same]
      · simp only [if_neg same, length]

/-- What the loop remembers of the records it has passed. -/
structure Recalls (need : Nat) (done : List Entry) (scan : Scan) : Prop where
  hole
    : (scan.holeLen = 0 ∧ ∀ entry ∈ done, entry.binding = none → entry.len < need)
      ∨ ∃ front entry back, done = front ++ entry :: back ∧ entry.binding = none
        ∧ need ≤ entry.len ∧ scan.holeLen = entry.len ∧ scan.holeOff = span front
  split
    : (scan.splitOff = none
        ∧ ∀ entry ∈ done, ∀ bound ∈ entry.binding,
            entry.len < need + direntRecLen bound.1.length)
      ∨ ∃ front entry back bound, done = front ++ entry :: back
        ∧ entry.binding = some bound ∧ need + direntRecLen bound.1.length ≤ entry.len
        ∧ scan.splitOff = some (span front)
  last : scan.lastOff + scan.lastLen = span done
  seen : scan.seen = true ↔ done ≠ []

theorem recalls_start (need : Nat) : Recalls need [] Scan.start := by
  refine ⟨Or.inl ⟨rfl, ?_⟩, Or.inl ⟨rfl, ?_⟩, rfl, ?_⟩ <;> simp [Scan.start]

theorem Recalls.pass_hole (recalls : Recalls need done scan) (positive : 0 < need)
    (deleted : entry.binding = none)
    : Recalls need (done ++ [entry])
        ((scan.hole need (span done) entry.len).last (span done) entry.len) := by
  refine ⟨?_, ?_, by simp [Scan.last], by simp [Scan.last]⟩
  · by_cases longer : need ≤ entry.len ∧ scan.holeLen < entry.len
    · refine Or.inr ⟨done, entry, [], rfl, deleted, longer.1, ?_, ?_⟩
      · simp [Scan.hole, Scan.last, longer]
      · simp [Scan.hole, Scan.last, longer]
    · have same : (scan.hole need (span done) entry.len).last (span done) entry.len
          = scan.last (span done) entry.len := by
        rw [Scan.hole, if_neg longer]
      rw [same]
      rcases recalls.hole with ⟨none, short⟩ | ⟨front, found, back, rfl, rest⟩
      · refine Or.inl ⟨none, ?_⟩
        intro other member unbound
        rcases List.mem_append.mp member with before | here
        · exact short other before unbound
        · obtain rfl := List.mem_singleton.mp here
          omega
      · exact Or.inr ⟨front, found, back ++ [entry], by simp, rest⟩
  · have same : ((scan.hole need (span done) entry.len).last (span done) entry.len).splitOff
        = scan.splitOff := by
      simp only [Scan.hole, Scan.last]
      split <;> rfl
    rw [same]
    rcases recalls.split with ⟨none, short⟩ | ⟨front, found, back, bound, rfl, rest⟩
    · refine Or.inl ⟨none, ?_⟩
      intro other member bound here
      rcases List.mem_append.mp member with before | itself
      · exact short other before bound here
      · obtain rfl := List.mem_singleton.mp itself
        rw [deleted] at here
        cases here
    · exact Or.inr ⟨front, found, back ++ [entry], bound, by simp, rest⟩

theorem Recalls.pass_live (recalls : Recalls need done scan) (named : entry.binding = some bound)
    : Recalls need (done ++ [entry])
        ((scan.split need (span done) entry.len bound.1.length).last (span done) entry.len)
      := by
  refine ⟨?_, ?_, by simp [Scan.last], by simp [Scan.last]⟩
  · have same : ((scan.split need (span done) entry.len bound.1.length).last (span done)
          entry.len).holeLen = scan.holeLen
        ∧ ((scan.split need (span done) entry.len bound.1.length).last (span done)
          entry.len).holeOff = scan.holeOff := by
      simp only [Scan.split, Scan.last]
      split <;> exact ⟨rfl, rfl⟩
    rw [same.1, same.2]
    rcases recalls.hole with ⟨none, short⟩ | ⟨front, found, back, rfl, rest⟩
    · refine Or.inl ⟨none, ?_⟩
      intro other member unbound
      rcases List.mem_append.mp member with before | itself
      · exact short other before unbound
      · obtain rfl := List.mem_singleton.mp itself
        rw [named] at unbound
        cases unbound
    · exact Or.inr ⟨front, found, back ++ [entry], by simp, rest⟩
  · rcases recalls.split with ⟨none, short⟩ | ⟨front, found, back, other, rfl, rest⟩
    · by_cases spare : need + direntRecLen bound.1.length ≤ entry.len
      · refine Or.inr ⟨done, entry, [], bound, rfl, named, spare, ?_⟩
        have self := direntRecLen_bounds bound.1.length
        simp only [HDR_LEN] at self
        have splits : scan.splitOff = Option.none ∧ need < entry.len
            ∧ direntRecLen bound.1.length ≤ entry.len - need := by
          exact ⟨none, by omega, by omega⟩
        simp [Scan.split, Scan.last, splits]
      · refine Or.inl ⟨?_, ?_⟩
        · simp only [Scan.split, Scan.last]
          split
          · omega
          · exact none
        · intro other member mine here
          rcases List.mem_append.mp member with before | itself
          · exact short other before mine here
          · obtain rfl := List.mem_singleton.mp itself
            obtain rfl : bound = mine := by
              rw [named] at here
              exact Option.some.inj here
            omega
    · refine Or.inr ⟨front, found, back ++ [entry], other, by simp, rest.1, rest.2.1, ?_⟩
      have kept := rest.2.2
      simp [Scan.split, Scan.last, kept]

theorem tour_viewPlace (positive : 0 < need) (name : Name) (rest : List Entry)
    (recalls : Recalls need done scan)
    : (name ∈ names rest
        ∧ tour (viewPlace need name) Entry.len rest (span done) scan = .stopped .exists)
      ∨ name ∉ names rest
        ∧ ∃ found, tour (viewPlace need name) Entry.len rest (span done) scan = .unused found
          ∧ Recalls need (done ++ rest) found := by
  induction rest generalizing done scan with
  | nil =>
      refine Or.inr ⟨by simp [names], scan, rfl, ?_⟩
      rw [List.append_nil]
      exact recalls
  | cons entry rest ih =>
      have onward {next : Scan} (goesOn : viewPlace need name scan (span done) entry = .next next)
          (recallsNext : Recalls need (done ++ [entry]) next)
          (unnamed : name ∈ names (entry :: rest) ↔ name ∈ names rest)
          : (name ∈ names (entry :: rest)
              ∧ tour (viewPlace need name) Entry.len (entry :: rest) (span done) scan
                = .stopped .exists)
            ∨ name ∉ names (entry :: rest)
              ∧ ∃ found,
                tour (viewPlace need name) Entry.len (entry :: rest) (span done) scan
                  = .unused found
                ∧ Recalls need (done ++ entry :: rest) found := by
        rw [tour_next goesOn, unnamed]
        have further := ih recallsNext
        simpa using further
      cases shape : entry.binding with
      | none =>
          refine onward (by simp [viewPlace, shape]) (recalls.pass_hole positive shape) ?_
          simp [names, shape]
      | some bound =>
          by_cases same : bound.1 = name
          · refine Or.inl ⟨?_, tour_stop (by simp [viewPlace, shape, same])⟩
            simp [names, shape, same]
          · refine onward (by simp [viewPlace, shape, same]) (recalls.pass_live shape) ?_
            have different : name ≠ bound.1 := fun equal => same equal.symm
            simp [names, shape, different]

-- The three ways to place a name

/-- A name and an inode number that may be stored. -/
structure Storable (name : Name) (inum : Nat) : Prop where
  notEmpty : 0 < name.length
  short : name.length ≤ EXT2_NAME_LEN
  notZero : inum ≠ 0
  fits : inum < 4294967296

/-- The block that was written holds one more binding. -/
def Inserts (format : Format) (name : Name) (inum : Nat) (entries : List Entry)
    (written : Option Memory) : Prop :=
  ∃ after changed, written = some after ∧ format.Holds after changed
    ∧ (bindings changed).Perm ((name, inum) :: bindings entries)

theorem names_insert {changed : List Entry} (distinct : (names entries).Nodup)
    (absent : name ∉ names entries)
    (inserted : (bindings changed).Perm ((name, inum) :: bindings entries))
    : (names changed).Nodup := by
  rw [names, (inserted.map Prod.fst).nodup_iff]
  exact List.nodup_cons.mpr ⟨absent, distinct⟩

theorem Holds.write_tail (holds : format.Holds buf entries) (fileType : Nat)
    (storable : Storable name inum) (absent : name ∉ names entries)
    (within : span entries + direntRecLen name.length ≤ format.blockSize)
    : format.Inserts name inum entries
        (format.direntWrite buf (span entries) inum name fileType (direntRecLen name.length))
      := by
  obtain ⟨room, _, aligned⟩ := direntRecLen_bounds name.length
  obtain ⟨stored, same⟩ := @direntWrite_spec format buf _ inum fileType _ name within room
  let entry := Format.live (direntRecLen name.length) name inum aligned storable.notZero
    storable.notEmpty room
  have inserted : (bindings (entries ++ [entry])).Perm ((name, inum) :: bindings entries) := by
    simp [entry, Format.live]
  refine ⟨_, entries ++ [entry], stored, ⟨?_, names_insert holds.distinct absent inserted⟩,
    inserted⟩
  refine holds.laid.extend ?_ ?_
  · rw [Nat.zero_add]
    exact same
  · rw [Nat.zero_add]
    exact stands_written within storable.fits storable.short

theorem Holds.write_hole {found : Entry} (holds : format.Holds buf (front ++ found :: back))
    (fileType : Nat) (storable : Storable name inum)
    (absent : name ∉ names (front ++ found :: back)) (deleted : found.binding = none)
    (long : direntRecLen name.length ≤ found.len)
    : format.Inserts name inum (front ++ found :: back)
        (format.direntWrite buf (span front) inum name fileType found.len) := by
  have room : HDR_LEN + name.length ≤ found.len :=
    Nat.le_trans (direntRecLen_bounds name.length).1 long
  have within := holds.laid.middle.1.1
  obtain ⟨stored, same⟩ := @direntWrite_spec format buf _ inum fileType _ name within room
  let entry := Format.live found.len name inum found.aligned storable.notZero storable.notEmpty
    room
  have inserted : (bindings (front ++ ([entry] ++ back))).Perm
      ((name, inum) :: bindings (front ++ found :: back)) := by
    simp [entry, Format.live, deleted]
  refine ⟨_, front ++ ([entry] ++ back), stored,
    ⟨?_, names_insert holds.distinct absent inserted⟩, inserted⟩
  refine Laid.replace [found] _ holds.laid (by simp [entry, Format.live]) ?_ ?_
  · rw [Nat.zero_add, span_cons, span_nil, Nat.add_zero]
    exact same
  · rw [Nat.zero_add]
    exact ⟨stands_written within storable.fits storable.short, trivial⟩

/-- A record is carved off the tail of a live one. -/
theorem Holds.carve {found : Entry} (holds : format.Holds buf (front ++ found :: back))
    (fileType : Nat) (storable : Storable name inum)
    (absent : name ∉ names (front ++ found :: back)) (named : found.binding = some bound)
    (spare : direntRecLen name.length + direntRecLen bound.1.length ≤ found.len)
    : format.Inserts name inum (front ++ found :: back)
        (format.carve buf (span front) (direntRecLen name.length) inum name fileType) := by
  obtain ⟨room, _, needAligned⟩ := direntRecLen_bounds name.length
  obtain ⟨otherRoom, _, _⟩ := direntRecLen_bounds bound.1.length
  obtain ⟨stands, _⟩ := holds.laid.middle
  obtain ⟨within, size, means⟩ := id stands
  simp only [named] at means
  obtain ⟨number, length, string⟩ := means
  obtain ⟨otherLive, otherNotEmpty, _⟩ := found.named bound named
  have otherFits : bound.2 < 4294967296 := by
    rw [← number]
    exact Memory.word_lt buf _
  have otherShort : bound.1.length ≤ EXT2_NAME_LEN := by
    have byte := (buf (span front + 6)).toNat_lt
    simp only [EXT2_NAME_LEN]
    omega
  let d := headerAt buf (span front)
  have whole : d.recLen = found.len := size
  have otherLength : d.nameLen = bound.1.length := length
  have spareToo : direntRecLen name.length + direntRecLen d.nameLen ≤ d.recLen := by
    rw [whole, otherLength]
    exact spare
  obtain ⟨stored, same⟩ := @carve_spec format buf _ d _ inum fileType name stands.found spareToo
    room
  rw [whole] at same
  have aligned := found.aligned
  let kept := Format.live (d.recLen - direntRecLen name.length) bound.1 bound.2
    (by rw [whole]; omega) otherLive otherNotEmpty (by rw [whole]; omega)
  let entry := Format.live (direntRecLen name.length) name inum needAligned storable.notZero
    storable.notEmpty room
  have inserted : (bindings (front ++ ([kept, entry] ++ back))).Perm
      ((name, inum) :: bindings (front ++ found :: back)) := by
    have swapped : (bound :: (name, inum) :: bindings back).Perm
        ((name, inum) :: bound :: bindings back) :=
      List.Perm.swap _ _ _
    simpa [kept, entry, Format.live, named] using
      (swapped.append_left (bindings front)).trans List.perm_middle
  refine ⟨_, front ++ ([kept, entry] ++ back), stored,
    ⟨?_, names_insert holds.distinct absent inserted⟩, inserted⟩
  refine Laid.replace [found] _ holds.laid ?_ ?_ ?_
  · simp only [kept, entry, Format.live, span_cons, span_nil, whole]
    omega
  · rw [Nat.zero_add, span_cons, span_nil, Nat.add_zero]
    exact same
  · rw [Nat.zero_add]
    exact row_carved (by rw [whole]; exact within) number otherLength string otherFits otherShort
      spareToo storable.fits storable.short

-- ext2_dirent_place

/-- What `ext2_dirent_place` may report of a well-formed block, and what the block holds then. -/
def PlaceOutcome (format : Format) (name : Name) (inum : Nat) (before : Memory)
    (entries : List Entry) (verdict : Verdict) (after : Memory) (changed : List Entry) : Prop :=
  match verdict with
  | .placed =>
      name ∉ names entries ∧ format.Room (direntRecLen name.length) entries
      ∧ (bindings changed).Perm ((name, inum) :: bindings entries)
  | .full =>
      name ∉ names entries ∧ ¬format.Room (direntRecLen name.length) entries
      ∧ after = before ∧ changed = entries
  | .exists => name ∈ names entries ∧ after = before ∧ changed = entries
  | .corrupt => False

theorem Inserts.outcome {written : Option Memory}
    (inserts : format.Inserts name inum entries written) (absent : name ∉ names entries)
    (roomy : format.Room (direntRecLen name.length) entries)
    : ∃ verdict after changed, written.map (Verdict.placed, ·) = some (verdict, after)
        ∧ format.Holds after changed
        ∧ format.PlaceOutcome name inum buf entries verdict after changed := by
  obtain ⟨after, changed, rfl, holds, inserted⟩ := inserts
  exact ⟨.placed, after, changed, rfl, holds, absent, roomy, inserted⟩

/-- What the loop remembers is enough to place a name that is not live. -/
theorem Holds.placeAt (holds : format.Holds buf entries) (fileType : Nat)
    (ok : direntNameOk name = true) (storable : Storable name inum) (absent : name ∉ names entries)
    (recalls : Recalls (direntRecLen name.length) entries scan)
    : ∃ verdict after changed,
        format.placeAt buf (direntRecLen name.length) name inum fileType scan
          = some (verdict, after)
        ∧ format.Holds after changed
        ∧ format.PlaceOutcome name inum buf entries verdict after changed := by
  have ⟨positive, small⟩ := direntRecLen_fits format ok
  unfold Format.placeAt
  rcases recalls.hole with ⟨none, noHole⟩ | ⟨front, found, back, rfl, deleted, long, len, off⟩
  · rw [if_neg (by omega)]
    rcases recalls.split with ⟨noSplit, short⟩ | ⟨front, found, back, bound, rfl, named, spare, off⟩
    · simp only [noSplit]
      by_cases seen : scan.seen = true
      · simp only [seen, Bool.not_true, Bool.false_eq_true, if_false, recalls.last]
        have inside := holds.laid.span_le.1
        split
        · rename_i tight
          refine ⟨.full, buf, entries, rfl, holds, absent, ?_, rfl, rfl⟩
          rintro (⟨entry, member, deleted, long⟩ | ⟨entry, member, bound, named, spare⟩ | within)
          · exact absurd (noHole entry member deleted) (by omega)
          · exact absurd (short entry member bound named) (by omega)
          · omega
        · rename_i roomy
          have within : span entries + (format.blockSize - span entries) ≤ format.blockSize := by
            omega
          have zeros : (List.range (format.blockSize - span entries)).all
              (fun i => buf (span entries + i) == 0) = true := by
            have laid := holds.laid
            rw [← List.append_nil entries] at laid
            have tail := (laid_append.mp laid).2
            rw [Nat.zero_add] at tail
            simp only [List.all_eq_true, List.mem_range, beq_iff_eq]
            intro i inTail
            exact tail.2 _ (by omega) (by omega)
          simp only [allZero, if_pos within, zeros]
          exact (holds.write_tail fileType storable absent (by omega)).outcome absent
            (Or.inr (Or.inr (by omega)))
      · have empty : entries = [] := by
          by_contra some
          exact seen (recalls.seen.mpr some)
        subst empty
        simp only [seen, Bool.not_false, if_true]
        exact (holds.write_tail fileType storable absent (by simpa using small)).outcome absent
          (Or.inr (Or.inr (by simpa using small)))
    · simp only [off]
      exact (holds.carve fileType storable absent named spare).outcome absent
        (Or.inr (Or.inl ⟨found, by simp, bound, named, spare⟩))
  · rw [if_pos (by omega), len, off]
    exact (holds.write_hole fileType storable absent deleted long).outcome absent
      (Or.inl ⟨found, by simp, deleted, long⟩)

theorem Holds.place (holds : format.Holds buf entries) (fileType : Nat)
    (ok : direntNameOk name = true) (notZero : inum ≠ 0) (fits : inum < 4294967296)
    : ∃ verdict after changed,
        format.direntPlace buf (direntRecLen name.length) name inum fileType
          = some (verdict, after)
        ∧ format.Holds after changed
        ∧ format.PlaceOutcome name inum buf entries verdict after changed := by
  have storable : Storable name inum := by
    simp only [direntNameOk, Bool.and_eq_true, decide_eq_true_eq] at ok
    exact ⟨Nat.pos_of_ne_zero ok.1.1, ok.1.2, notZero, fits⟩
  have positive := (direntRecLen_fits format ok).1
  obtain ⟨inside, many⟩ := holds.laid.span_le
  have walked := walk_chain (viewPlace (direntRecLen name.length) name)
    (fun scan _ _ stands => placeVisit_stands (direntRecLen name.length) name scan stands)
    Scan.start holds.laid.chain (by omega : entries.length < format.blockSize + 1)
  simp only [direntPlace, walked]
  rcases tour_viewPlace positive name entries (recalls_start _) with
    ⟨present, ended⟩ | ⟨absent, scan, ended, recalls⟩
  · rw [span_nil] at ended
    rw [ended]
    exact ⟨.exists, buf, entries, rfl, holds, present, rfl, rfl⟩
  · rw [span_nil] at ended
    rw [ended]
    exact holds.placeAt fileType ok storable absent recalls

-- A new directory

/-- The only block of a new directory binds `.` and `..`. -/
theorem direntInitDir_holds (format : Format) (buf : Memory) {parent : Nat} (notZero : inum ≠ 0)
    (fits : inum < 4294967296) (parentNotZero : parent ≠ 0) (parentFits : parent < 4294967296)
    : ∃ after entries, format.direntInitDir buf inum parent = some (some after)
        ∧ format.Holds after entries ∧ bindings entries = [(dot, inum), (dotDot, parent)] := by
  have size := format.blockSize_bounds
  have multiple : format.blockSize % 4 = 0 := by
    rcases format.supported with size | size | size <;> omega
  have first : direntRecLen 1 = 12 := rfl
  have second : direntRecLen 2 = 12 := rfl
  have enough : ¬(inum = 0 ∨ format.blockSize < direntRecLen 1 + direntRecLen 2 + HDR_LEN) := by
    simp only [first, second, HDR_LEN]
    omega
  let zeros := buf.fill 0 format.blockSize 0
  let one := format.written zeros 0 inum dot EXT2_FT_DIR 12
  let two := format.written one 12 parent dotDot EXT2_FT_DIR 12
  let restHdr := DirentHdr.mk 0 (format.blockSize - 12 - 12) 0 0
  let after := two.store 24 restHdr.bytes
  have keepTwo (place : Nat) (outside : place < 24) : after place = two place :=
    Memory.store_other _ (Or.inl outside)
  have keepOne (place : Nat) (outside : place < 12) : after place = one place :=
    (keepTwo place (by omega)).trans
      ((direntWrite_spec (by omega) (by decide)).2 place (Or.inl outside))
  have dotStands : format.Stands after 0
      (live 12 dot inum (by decide) notZero (by decide) (by decide)) :=
    (stands_written (by omega) fits (by decide)).congr
      (fun place _ upper => keepOne place (by simpa [live] using upper))
  have dotDotStands : format.Stands after 12
      (live 12 dotDot parent (by decide) parentNotZero (by decide) (by decide)) :=
    (stands_written (by omega) parentFits (by decide)).congr
      (fun place _ upper => keepTwo place (by simpa [live] using upper))
  have holeStands : format.Stands after 24 (hole (format.blockSize - 12 - 12)
      (by simp only [HDR_LEN]; omega) (by omega)) :=
    stands_hole two (by omega) (fun _ _ _ => rfl)
  refine ⟨after, [live 12 dot inum (by decide) notZero (by decide) (by decide),
    live 12 dotDot parent (by decide) parentNotZero (by decide) (by decide),
    hole (format.blockSize - 12 - 12) (by simp only [HDR_LEN]; omega) (by omega)], ?_,
    ⟨⟨dotStands, dotDotStands, holeStands, ?_, ?_⟩, ?_⟩, ?_⟩
  · simp only [direntInitDir, if_neg enough]
    rw [clear_spec (by omega)]
    simp only [first, second]
    rw [(direntWrite_spec (by omega) (by decide)).1]
    simp only
    rw [(direntWrite_spec (by omega) (by decide)).1]
    simp only
    rw [poke_spec (by rw [length_hdr_bytes]; simp only [HDR_LEN]; omega)]
    rfl
  · simp only [live, hole]
    omega
  · intro place lower upper
    simp only [live, hole] at lower
    omega
  · simp [names, live, hole, dot, dotDot]
  · simp [live, hole]

-- A directory block is a finite map

/-- The functions on the block end, and touch bytes inside of it only. -/
structure EndsInside (format : Format) (buf : Memory) : Prop where
  place
    : ∀ (name : Name) (inum fileType : Nat), direntNameOk name = true
      → ∃ verdict after,
          format.direntPlace buf (direntRecLen name.length) name inum fileType
            = some (verdict, after)
          ∧ SameOutside buf after 0 format.blockSize
  find : ∀ name : Name, ∃ found, format.direntFind buf name = some found
  remove
    : ∀ name : Name, ∃ written, format.direntRemove buf name = some written
        ∧ ∀ after ∈ written, SameOutside buf after 0 format.blockSize
  setParent
    : ∀ parent : Nat, ∃ written, format.direntSetParent buf parent = some written
        ∧ ∀ after ∈ written, SameOutside buf after 0 format.blockSize

/-- The functions on the block read and change the map of its records, one binding each. -/
structure ActsAsMap (format : Format) (buf : Memory) (entries : List Entry) : Prop where
  place
    : ∀ (name : Name) (inum fileType : Nat), direntNameOk name = true → inum ≠ 0
      → inum < 2 ^ 32
      → ∃ verdict after changed,
          format.direntPlace buf (direntRecLen name.length) name inum fileType
            = some (verdict, after)
          ∧ format.Holds after changed
          ∧ format.PlaceOutcome name inum buf entries verdict after changed
  find
    : ∀ name : Name, ∃ found, format.direntFind buf name = some found
        ∧ ∀ inum, found = some inum ↔ (name, inum) ∈ bindings entries
  remove
    : ∀ name : Name,
        (name ∉ names entries ∧ format.direntRemove buf name = some none)
        ∨ ∃ inum after rest, format.direntRemove buf name = some (some after)
          ∧ format.Holds after rest
          ∧ (bindings entries).Perm ((name, inum) :: bindings rest)
  setParent
    : ∀ parent : Nat, parent ≠ 0 → parent < 2 ^ 32
      → (dotDot ∉ names entries ∧ format.direntSetParent buf parent = some none)
        ∨ ∃ inum after changed rest, format.direntSetParent buf parent = some (some after)
          ∧ format.Holds after changed
          ∧ (bindings entries).Perm ((dotDot, inum) :: rest)
          ∧ (bindings changed).Perm ((dotDot, parent) :: rest)

/-- Whatever the bytes of a block are, its functions end and stay inside of it; and a well-formed
block is a finite map from names to inode numbers, on which each of them acts as one.
-/
theorem dirent_block_map (format : Format) (buf : Memory)
    : format.EndsInside buf
      ∧ ∀ entries, format.Holds buf entries → format.ActsAsMap buf entries := by
  constructor
  · exact {
      place := fun _ inum fileType ok => direntPlace_inside buf inum fileType ok
      find := direntFind_inside buf
      remove := direntRemove_inside buf
      setParent := direntSetParent_inside buf
    }
  · intro entries holds
    exact {
      place := fun _ _ fileType ok notZero fits => holds.place fileType ok notZero fits
      find := holds.find
      remove := holds.remove
      setParent := fun _ notZero fits => holds.setParent notZero fits
    }

/-- In the block of a new directory `..` is found, and a name that is removed is gone. -/
theorem dirent_block_map_new
    : ∃ after, (Format.mk 1024 true (by decide)).direntInitDir (fun _ => 0xFF) 12 2
          = some (some after)
        ∧ (Format.mk 1024 true (by decide)).direntFind after dotDot = some (some 2)
        ∧ ∃ changed, (Format.mk 1024 true (by decide)).direntRemove after dot
            = some (some changed) := by
  obtain ⟨after, entries, made, holds, bound⟩ := direntInitDir_holds
    (Format.mk 1024 true (by decide)) (fun _ => 0xFF) (by decide : 12 ≠ 0) (by decide)
    (by decide : 2 ≠ 0) (by decide)
  have acts := (dirent_block_map (Format.mk 1024 true (by decide)) after).2 entries holds
  refine ⟨after, made, ?_, ?_⟩
  · obtain ⟨found, searched, exactly⟩ := acts.find dotDot
    have here := (exactly 2).mpr (by rw [bound]; simp)
    rw [searched, here]
  · rcases acts.remove dot with ⟨absent, _⟩ | ⟨_, changed, _, removed, _⟩
    · exact absurd (by simp [names, bound]) absent
    · exact ⟨changed, removed⟩

end Format

end Panuti.Ext2
