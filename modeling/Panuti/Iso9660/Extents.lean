import Panuti.Iso9660.Walks

/-! What the search and the listing of a directory make of the records of its extent, whatever the
cache of extents has come to hold before.
-/

namespace Panuti.Iso9660

open Panuti.Library

-- Names

theorem strncmpEqual_eq (one two : Bytes) (length : (cstring one).length = two.length)
    : strncmpEqual two.length one two = .ok (decide (cstring one = two)) := by
  induction two generalizing one with
  | nil =>
      rw [List.length_nil, List.length_eq_zero_iff] at length
      rw [length]
      rfl
  | cons b two ih =>
      cases one with
      | nil => cases length
      | cons a one =>
          by_cases ends : a = 0
          · subst ends
            cases length
          · have whole : cstring (a :: one) = a :: cstring one := by
              simp [cstring, ends]
            rw [whole] at length ⊢
            rw [List.length_cons, strncmpEqual]
            by_cases same : a = b
            · subst same
              rw [if_neg (not_not.mpr rfl), if_neg ends, ih one (Nat.succ.inj length)]
              simp
            · simp [same]

variable {dirent : IsofsDirent} {text : Bytes}

theorem isNamed_eq (buffer : NameBuffer dirent.name) (name : Bytes)
    : isNamed name dirent = .ok (decide (cstring dirent.name = name)) := by
  simp only [isNamed, strlen, if_pos buffer.ends, bind, Except.bind]
  by_cases length : (cstring dirent.name).length = name.length
  · rw [if_pos length]
    exact strncmpEqual_eq dirent.name name length
  · have differs : cstring dirent.name ≠ name := fun same => length (congrArg List.length same)
    rw [if_neg length, decide_eq_false differs]
    rfl

def sought (name : Bytes) (record : Nat × IsofsDirent) : Option IsofsDirent :=
  if cstring record.2.name = name then some record.2 else none

theorem sought_eq_some {name : Bytes} {record : Nat × IsofsDirent}
    : sought name record = some dirent ↔ cstring record.2.name = name ∧ record.2 = dirent := by
  rw [sought, Option.ite_none_right_eq_some, Option.some_inj]

theorem sought_visits (name : Bytes) (next : Nat) (dirent : IsofsDirent)
    (buffer : NameBuffer dirent.name)
    : (do if ← isNamed name dirent then return some dirent else return none)
        = Except.ok (sought name (next, dirent)) := by
  rw [isNamed_eq buffer, sought]
  by_cases named : cstring dirent.name = name
  · rw [decide_eq_true named, if_pos named]
    rfl
  · rw [decide_eq_false named, if_neg named]
    rfl

theorem cstring_zeros (plain : ∀ byte ∈ text, byte ≠ 0) (count : Nat)
    : cstring (text ++ List.replicate count 0) = text := by
  have kept : ∀ byte ∈ text, (byte != 0) = true := fun byte member => bne_iff_ne.mpr
    (plain byte member)
  rw [cstring, List.takeWhile_append_of_pos kept]
  cases count <;> simp [List.replicate_succ]

theorem cstring_plain (buf : Bytes) : ∀ byte ∈ cstring buf, byte ≠ 0 :=
  fun _ member => bne_iff_ne.mp (List.mem_takeWhile_imp (p := (· != 0)) member)

theorem cstring_take {buf : Bytes} {count : Nat} (short : (cstring buf).length ≤ count)
    : cstring (buf.take count) = cstring buf := by
  induction buf generalizing count with
  | nil => simp
  | cons a buf ih =>
      cases count with
      | zero =>
          rw [List.take_zero]
          exact (List.length_eq_zero_iff.mp (Nat.le_zero.mp short)).symm
      | succ count =>
          by_cases ends : a = 0
          · simp [cstring, ends]
          · have whole (rest : Bytes) : cstring (a :: rest) = a :: cstring rest := by
              simp [cstring, ends]
            rw [whole, List.length_cons] at short
            rw [List.take_succ_cons, whole, whole, ih (Nat.le_of_succ_le_succ short)]

def entryOf (dirent : IsofsDirent) : DirentEntry :=
  let name := cstring dirent.name
  ⟨name ++ List.replicate (DIRENT_NAME_MAX - name.length) 0, dirent.isDir, dirent.length,
    dirent.mtime.getD 0⟩

theorem entryOf_name (dirent : IsofsDirent) : cstring (entryOf dirent).name = cstring dirent.name :=
  cstring_zeros (cstring_plain _) _

theorem copyAt_whole (length : text.length = 255)
    : copyAt (List.replicate DIRENT_NAME_MAX 0) 0 text = .ok (text ++ [0]) := by
  have fits : 0 + text.length ≤ (List.replicate DIRENT_NAME_MAX (0 : UInt8)).length := by
    rw [length, List.length_replicate]
    decide
  rw [copyAt, if_pos fits, length, List.drop_replicate]
  rfl

theorem copyAt_last (length : text.length = 255)
    : copyAt (text ++ [0]) (DIRENT_NAME_MAX - 1) [0] = .ok (text ++ [0]) := by
  have fits : DIRENT_NAME_MAX - 1 + [(0 : UInt8)].length ≤ (text ++ [(0 : UInt8)]).length := by
    rw [List.length_append, length]
    decide
  have place : DIRENT_NAME_MAX - 1 = text.length := length.symm
  rw [copyAt, if_pos fits, place, List.take_left, List.drop_eq_nil_of_le (by simp),
    List.append_nil]

theorem fillEntry_eq (buffer : NameBuffer dirent.name)
    : fillEntry dirent = .ok (entryOf dirent) := by
  have size : dirent.name.length = 256 := buffer.size
  have short : (cstring dirent.name).length ≤ 255 := by
    have := cstring_length buffer.ends
    omega
  have copied : strncpyBytes (DIRENT_NAME_MAX - 1) dirent.name
      = .ok (cstring dirent.name ++ List.replicate (255 - (cstring dirent.name).length) 0) := by
    rw [strncpyBytes, if_pos (.inr (by rw [size]; decide))]
    simp only [DIRENT_NAME_MAX, Nat.add_one_sub_one, cstring_take short]
  generalize long : (cstring dirent.name).length = count at short
  have length : (cstring dirent.name ++ List.replicate (255 - count) 0).length = 255 := by
    simp only [List.length_append, List.length_replicate, long]
    omega
  have last : cstring dirent.name ++ List.replicate (255 - count) 0 ++ [0]
      = cstring dirent.name ++ List.replicate (DIRENT_NAME_MAX - count) 0 := by
    rw [List.append_assoc, ← List.replicate_succ', DIRENT_NAME_MAX, Nat.succ_sub short]
  rw [long] at copied
  simp only [fillEntry, copied, bind, Except.bind, copyAt_whole length, copyAt_last length,
    pure, Except.pure, entryOf, long]
  rw [last]

-- The cache

structure Dircache.Coherent (fs : Isofs) (device : Nat → UInt8) (cache : Dircache) : Prop where
  holds : ∀ entry, some entry ∈ cache.slots
    → kmallocServes entry.length = true
      ∧ entry.data = deviceBytes device (entry.startLba * fs.blockSize) entry.length

def emptyDircache : Dircache := ⟨List.replicate ISOFS_DIRCACHE_SLOTS none, 0⟩

theorem emptyDircache_coherent (fs : Isofs) (device : Nat → UInt8)
    : emptyDircache.Coherent fs device where
  holds _ member := nomatch List.eq_of_mem_replicate member

section Cache

variable {fs : Isofs} {device : Nat → UInt8} {cache later : Dircache}

theorem isofsDirData_coherent (coherent : cache.Coherent fs device) {startLba length : Nat}
    {medium : Medium} {given : Option Bytes}
    (call : isofsDirData fs device cache startLba length medium = (given, later))
    : later.Coherent fs device
      ∧ ∀ buf, given = some buf → kmallocServes length = true
          ∧ buf = deviceBytes device (startLba * fs.blockSize) length := by
  rw [isofsDirData] at call
  split at call
  next entry hit =>
    obtain ⟨rfl, rfl⟩ := Prod.mk.inj call
    obtain ⟨slot, member, same⟩ := List.exists_of_findSome?_eq_some hit
    obtain ⟨rfl, isIt⟩ := Option.filter_eq_some_iff.mp same
    obtain ⟨rfl, rfl⟩ := of_decide_eq_true isIt
    obtain ⟨served, data⟩ := coherent.holds entry member
    refine ⟨coherent, fun buf same => ?_⟩
    obtain rfl := Option.some.inj same
    exact ⟨served, data⟩
  next =>
    split at call
    next =>
      obtain ⟨rfl, rfl⟩ := Prod.mk.inj call
      exact ⟨coherent, nofun⟩
    next serves =>
      split at call
      next =>
        obtain ⟨rfl, rfl⟩ := Prod.mk.inj call
        exact ⟨coherent, nofun⟩
      next =>
        obtain ⟨rfl, rfl⟩ := Prod.mk.inj call
        have served : kmallocServes length = true :=
          (Bool.and_eq_true_iff.mp ((Bool.not_eq_false _).mp serves)).1
        refine ⟨⟨fun entry member => ?_⟩, fun buf same => ?_⟩
        · obtain kept | fresh := List.mem_or_eq_of_mem_set member
          · exact coherent.holds entry kept
          · obtain rfl := Option.some.inj fresh
            exact ⟨served, rfl⟩
        · obtain rfl := Option.some.inj same
          exact ⟨served, rfl⟩

theorem isofsDirData_gives (fs : Isofs) (device : Nat → UInt8) (cache : Dircache)
    {startLba length : Nat} (served : kmallocServes length = true)
    : ∃ buf, (isofsDirData fs device cache startLba length ⟨true, true⟩).1 = some buf := by
  rw [isofsDirData]
  split
  next entry _ => exact ⟨entry.data, rfl⟩
  next => exact ⟨_, by simp only [served, Bool.and_self, Bool.true_eq_false, if_false]; rfl⟩

end Cache

-- Directories

def Isofs.content (fs : Isofs) (device : Nat → UInt8) (dir : Directory) : Bytes :=
  deviceBytes device ((fs.extent dir).1 * fs.blockSize) (fs.extent dir).2

/-- The extent of the directory is on the volume, and the heap serves its length. -/
structure Isofs.Opens (fs : Isofs) (dir : Directory) : Prop where
  valid : isofsLbaValid fs (fs.extent dir).1 (fs.extent dir).2 = true
  served : kmallocServes (fs.extent dir).2 = true

/-- The records of a directory behind an offset of its extent. -/
def Isofs.Holds (fs : Isofs) (device : Nat → UInt8) (dir : Directory) (offset : Nat)
    (records : List (Nat × IsofsDirent)) : Prop :=
  Meets fs (fs.content device dir) (fs.extent dir).2 offset records

/-- The blocks of the volume are as a mount accepts them. -/
structure Isofs.Blocks (fs : Isofs) : Prop where
  some' : 0 < fs.blockSize
  small : fs.blockSize ≤ ISOFS_BLOCKSIZE

section Directories

variable {fs : Isofs} {device : Nat → UInt8} {cache : Dircache} {dir : Directory}

theorem Isofs.Blocks.holds (blocks : fs.Blocks) (device : Nat → UInt8)
    (served : kmallocServes (fs.extent dir).2 = true) (offset : Nat)
    : ∃ records, fs.Holds device dir offset records := by
  have readable : Readable fs (fs.content device dir) (fs.extent dir).2 := {
    sized := by simp [Isofs.content, deviceBytes]
    served := (of_decide_eq_true served).2
    blocks := blocks.some'
    small := blocks.small
  }
  exact readable.meets offset

/-- What a call of `isofs_readdir` tells of the records behind its cursor. -/
def ReaddirResult.Tells (fs : Isofs) (device : Nat → UInt8) (dir : Directory) (cursor next : Nat)
    : ReaddirResult → Prop
  | .failed => next = cursor
  | .finished => ∀ records, fs.Holds device dir cursor records → records = []
  | .entry handed => fs.Opens dir ∧ ∃ dirent, handed = entryOf dirent
      ∧ ∀ records, fs.Holds device dir cursor records
        → ∃ rest, records = (next, dirent) :: rest

theorem isofsReaddir_safe (blocks : fs.Blocks) (coherent : cache.Coherent fs device)
    (cursor : Nat) (medium : Medium)
    : Safe
        (fun (result, next, later) =>
          later.Coherent fs device ∧ result.Tells fs device dir cursor next)
        (isofsReaddir fs device cache dir cursor medium) := by
  rw [isofsReaddir]
  split
  next sdLba sdLen extent =>
    obtain rfl : (fs.extent dir).1 = sdLba := by rw [extent]
    obtain rfl : (fs.extent dir).2 = sdLen := by rw [extent]
    split
    next => exact Safe.pure ⟨coherent, rfl⟩
    next valid =>
      have valid := (Bool.not_eq_false _).mp valid
      split
      next past => exact Safe.pure ⟨coherent, fun records holds => holds.past past⟩
      next inside =>
        split
        next later call => exact Safe.pure ⟨(isofsDirData_coherent coherent call).1, rfl⟩
        next buf later call =>
          obtain ⟨coherentToo, given⟩ := isofsDirData_coherent coherent call
          obtain ⟨served, rfl⟩ := given buf rfl
          obtain ⟨records, holds⟩ := blocks.holds device served cursor
          refine (Safe.same (holds.scan _ (fun record => some (entryOf record.2, record.1))
            fun next dirent buffer => by rw [fillEntry_eq buffer]; rfl)).bind fun found same => ?_
          subst same
          cases records with
          | nil =>
              exact Safe.pure ⟨coherentToo, fun others holdsToo => holdsToo.unique holds⟩
          | cons record rest =>
              refine Safe.pure ⟨coherentToo, ⟨valid, served⟩, record.2, rfl, ?_⟩
              exact fun others holdsToo => ⟨rest, holdsToo.unique holds⟩

theorem isofsReaddir_gives (opens : fs.Opens dir) {cursor next : Nat} {later : Dircache}
    {result : ReaddirResult}
    (call : isofsReaddir fs device cache dir cursor ⟨true, true⟩ = .ok (result, next, later))
    : result ≠ .failed := by
  rintro rfl
  rw [isofsReaddir] at call
  split at call
  next sdLba sdLen extent =>
    obtain rfl : (fs.extent dir).1 = sdLba := by rw [extent]
    obtain rfl : (fs.extent dir).2 = sdLen := by rw [extent]
    rw [opens.valid, if_neg Bool.noConfusion] at call
    split at call
    next => cases call
    next =>
      obtain ⟨buf, given⟩ := isofsDirData_gives fs device cache opens.served
      split at call
      next none' =>
        rw [none'] at given
        cases given
      next =>
        obtain ⟨found, _, rest⟩ := bind_eq_ok call
        cases found <;> cases rest

/-- What is asked of the memory for an inode to be made, and of the name for it to be entered. -/
def InodeRoom.Links (room : InodeRoom) (name : Bytes) : Prop :=
  (room.inode ∧ room.data ∧ room.entry) ∧ 0 < name.length ∧ name.length < REG_MAX_NAME_LEN

theorem isofsLookup_safe (blocks : fs.Blocks) (coherent : cache.Coherent fs device)
    (name : Bytes) (medium : Medium) (room : InodeRoom)
    : Safe
        (fun (found, later) =>
          later.Coherent fs device
          ∧ ∀ dirent, found = some dirent → cstring dirent.name = name ∧ fs.Opens dir
              ∧ ∀ records, fs.Holds device dir 0 records → ∃ next, (next, dirent) ∈ records)
        (isofsLookup fs device cache dir name medium room) := by
  rw [isofsLookup]
  split
  next sdLba sdLen extent =>
    obtain rfl : (fs.extent dir).1 = sdLba := by rw [extent]
    obtain rfl : (fs.extent dir).2 = sdLen := by rw [extent]
    split
    next => exact Safe.pure ⟨coherent, nofun⟩
    next valid =>
      have valid := (Bool.not_eq_false _).mp valid
      split
      next later call => exact Safe.pure ⟨(isofsDirData_coherent coherent call).1, nofun⟩
      next buf later call =>
        obtain ⟨coherentToo, given⟩ := isofsDirData_coherent coherent call
        obtain ⟨served, rfl⟩ := given buf rfl
        obtain ⟨records, holds⟩ := blocks.holds device served 0
        refine (Safe.same (holds.scan _ _ (sought_visits name))).bind fun found same => ?_
        subst same
        refine Safe.pure ⟨coherentToo, fun dirent found => ?_⟩
        split at found
        case isFalse => cases found
        obtain ⟨record, among, isIt⟩ := List.exists_of_findSome?_eq_some found
        obtain ⟨named, rfl⟩ := sought_eq_some.mp isIt
        refine ⟨named, ⟨valid, served⟩, fun others holdsToo => ⟨record.1, ?_⟩⟩
        rw [holdsToo.unique holds]
        exact among

theorem isofsLookup_finds (coherent : cache.Coherent fs device)
    (opens : fs.Opens dir) {name : Bytes} {room : InodeRoom} (links : room.Links name)
    {records : List (Nat × IsofsDirent)} (holds : fs.Holds device dir 0 records)
    (named : ∃ record ∈ records, cstring record.2.name = name)
    : ∃ dirent later,
        isofsLookup fs device cache dir name ⟨true, true⟩ room = .ok (some dirent, later) := by
  obtain ⟨⟨inode, data, entry⟩, some', short⟩ := links
  obtain ⟨record, among, isIt⟩ := named
  have found : (records.findSome? (sought name)).isSome = true :=
    List.findSome?_isSome_iff.mpr
      ⟨record, among, Option.isSome_iff_exists.mpr ⟨record.2, sought_eq_some.mpr ⟨isIt, rfl⟩⟩⟩
  obtain ⟨dirent, first⟩ := Option.isSome_iff_exists.mp found
  rw [isofsLookup]
  split
  next sdLba sdLen extent =>
    obtain rfl : (fs.extent dir).1 = sdLba := by rw [extent]
    obtain rfl : (fs.extent dir).2 = sdLen := by rw [extent]
    rw [opens.valid, if_neg Bool.noConfusion]
    obtain ⟨buf, given⟩ := isofsDirData_gives fs device cache opens.served
    split
    next none' =>
      rw [none'] at given
      cases given
    next buf later call =>
      obtain ⟨-, rfl⟩ := (isofsDirData_coherent coherent call).2 buf rfl
      have scan := holds.scan _ _ (sought_visits name)
      rw [first] at scan
      refine ⟨dirent, later, ?_⟩
      simp only [bind, Except.bind, Isofs.content] at scan ⊢
      rw [scan]
      simp [inode, data, entry, some', short, pure, Except.pure]

end Directories

end Panuti.Iso9660
