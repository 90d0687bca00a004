import Panuti.Ext2.ListingRuns
import Panuti.Ext2.Volume

/-! The check that a directory is empty, over any bytes and with any reads that fail:
`ext2_dirent_is_empty`, and what it leaves out of sight. An access outside of a block, or a loop
that does not end within its turns, is `none`.
-/

namespace Panuti.Ext2

open ByteMemory RecordChain

-- One block

namespace Format

variable (format : Format)

/-- The record `d` at `off` is `.` or `..`. -/
def isDots (buf : Memory) (off : Nat) (d : DirentHdr) : Option Bool :=
  if d.nameLen = 1 then format.sameName buf (off + HDR_LEN) dot
  else if d.nameLen = 2 then format.sameName buf (off + HDR_LEN) dotDot
  else some false

/-- One turn of the loop in `ext2_dirent_is_empty`. -/
def emptyVisit (buf : Memory) (_ : Unit) (off : Nat) (d : DirentHdr)
    : Option (Turn Unit Unit) :=
  if d.inode = 0 then some (.next ())
  else if d.nameLen = 0 ∨ d.recLen - HDR_LEN < d.nameLen then some (.stop ())
  else (format.isDots buf off d).map fun dots => if dots then .next () else .stop ()

/-- The loop of `ext2_dirent_is_empty` over the records of a block. It breaks on padding and on
a record it cannot trust, and leaves `empty` as it is.
-/
def emptyBlock (buf : Memory) : Option Bool :=
  (walk (format.direntAt buf) DirentHdr.recLen (format.emptyVisit buf)
    (format.blockSize + 1) 0 ()).map fun ended =>
      match ended with
      | .unused _ => true
      | .broken _ => true
      | .stopped _ => false

/-- The places of a block where a record may stand. Where the length of a record cannot be
trusted, the next one may be anywhere behind it.
-/
inductive MayStand (buf : Memory) : Nat → Prop
  | first : MayStand buf 0
  | behind {off : Nat} {d : DirentHdr} (before : MayStand buf off)
    (trusted : format.direntAt buf off = some (.record d))
    : MayStand buf (off + d.recLen)
  | hidden {off later : Nat} (before : MayStand buf off)
    (broken : format.direntAt buf off = some .broken) (past : off < later)
    (aligned : later % 4 = 0)
    : MayStand buf later

/-- A live entry other than `.` and `..`: a record that names an inode, whether its length is
one the driver trusts or not.
-/
structure LiveEntry (buf : Memory) (off : Nat) : Prop where
  stands : format.MayStand buf off
  inside : off + HDR_LEN ≤ format.blockSize
  inUse : buf.word off ≠ 0
  notDot : buf.bytes (off + HDR_LEN) (buf (off + 6)).toNat ≠ dot
  notDotDot : buf.bytes (off + HDR_LEN) (buf (off + 6)).toNat ≠ dotDot

/-- The record `d` at `off` counts against emptiness, and the check comes to it. -/
structure Counts (buf : Memory) (off : Nat) (d : DirentHdr) : Prop where
  trusted : format.Trusted buf off
  stands : format.direntAt buf off = some (.record d)
  inUse : d.inode ≠ 0
  notDots
    : d.Sound
      → buf.bytes (off + HDR_LEN) d.nameLen ≠ dot
        ∧ buf.bytes (off + HDR_LEN) d.nameLen ≠ dotDot

def Shows (buf : Memory) : Prop := ∃ off d, format.Counts buf off d

variable {format} {buf : Memory} {off : Nat}

theorem isDots_spec {d : DirentHdr} (stands : format.direntAt buf off = some (.record d))
    (sound : d.Sound)
    : ∃ dots, format.isDots buf off d = some dots
        ∧ (dots = true
          ↔ buf.bytes (off + HDR_LEN) d.nameLen = dot
            ∨ buf.bytes (off + HDR_LEN) d.nameLen = dotDot) := by
  obtain ⟨long, _, inside, _⟩ := direntAt_record stands
  have fits := sound.2.2
  have within : off + HDR_LEN + d.nameLen ≤ format.blockSize := by omega
  have lengths {name : Name} (same : buf.bytes (off + HDR_LEN) d.nameLen = name)
      : d.nameLen = name.length := by
    rw [← same, Memory.length_bytes]
  unfold isDots
  by_cases one : d.nameLen = 1
  · rw [one] at within ⊢
    refine ⟨buf.bytes (off + HDR_LEN) 1 == dot, ?_, ?_⟩
    · simp [sameName, dot, within]
    · have differ : buf.bytes (off + HDR_LEN) 1 ≠ dotDot := by
        intro same
        have := congrArg List.length same
        simp [Memory.length_bytes, dotDot] at this
      simp [differ]
  · rw [if_neg one]
    by_cases two : d.nameLen = 2
    · rw [two] at within ⊢
      refine ⟨buf.bytes (off + HDR_LEN) 2 == dotDot, ?_, ?_⟩
      · simp [sameName, dotDot, within]
      · have differ : buf.bytes (off + HDR_LEN) 2 ≠ dot := by
          intro same
          have := congrArg List.length same
          simp [Memory.length_bytes, dot] at this
        simp [differ]
    · refine ⟨false, by rw [if_neg two], ?_⟩
      simp only [Bool.false_eq_true, false_iff, not_or]
      exact ⟨fun same => one (lengths same), fun same => two (lengths same)⟩

/-- What the loop makes of a record it comes to. -/
theorem emptyVisit_spec {d : DirentHdr} (comes : format.Trusted buf off)
    (stands : format.direntAt buf off = some (.record d))
    : (format.emptyVisit buf () off d = some (.stop ()) ∧ format.Counts buf off d)
      ∨ format.emptyVisit buf () off d = some (.next ()) ∧ (d.inode = 0 ∨ d.Sound)
        ∧ ¬format.Counts buf off d := by
  unfold emptyVisit
  by_cases unused : d.inode = 0
  · exact .inr ⟨by rw [if_pos unused], .inl unused, fun counts => counts.inUse unused⟩
  rw [if_neg unused]
  by_cases bad : d.nameLen = 0 ∨ d.recLen - HDR_LEN < d.nameLen
  · refine .inl ⟨by rw [if_pos bad], comes, stands, unused, ?_⟩
    rintro ⟨_, some, fits⟩
    omega
  have sound : d.Sound := by
    simp only [not_or, Nat.not_lt] at bad
    exact ⟨unused, bad⟩
  rw [if_neg bad]
  obtain ⟨dots, found, means⟩ := isDots_spec stands sound
  rw [found]
  cases dots with
  | true =>
      refine .inr ⟨rfl, .inr sound, ?_⟩
      intro counts
      obtain ⟨notDot, notDotDot⟩ := counts.notDots sound
      rcases means.mp rfl with same | same
      · exact notDot same
      · exact notDotDot same
  | false =>
      simp only [Bool.false_eq_true, false_iff, not_or] at means
      exact .inl ⟨rfl, comes, stands, unused, fun _ => means⟩

theorem not_shows_of_end (comes : format.Trusted buf off)
    (missed : ∀ other d, format.Counts buf other d → off ≤ other)
    (ends : ∀ d, format.direntAt buf off ≠ some (.record d))
    : ¬format.Shows buf := by
  rintro ⟨other, d, counts⟩
  rcases Nat.eq_or_lt_of_le (missed other d counts) with rfl | later
  · exact ends d counts.stands
  · obtain ⟨e, stands, _⟩ := comes.behind_of_lt counts.trusted later
    exact ends e stands

theorem emptyBlock_walk (turns off : Nat) (ended : Ended Unit Unit)
    (comes : format.Trusted buf off)
    (missed : ∀ other d, format.Counts buf other d → off ≤ other)
    (walked : walk (format.direntAt buf) DirentHdr.recLen (format.emptyVisit buf) turns off ()
      = some ended)
    : ended = .stopped () ↔ format.Shows buf := by
  induction turns generalizing off with
  | zero => cases walked
  | succ turns ih =>
      obtain ⟨slot, stands⟩ := direntAt_readable format buf off
      cases slot with
      | unused =>
          obtain rfl : Ended.unused () = ended := by simpa [walk, stands] using walked
          have none := not_shows_of_end comes missed (by simp [stands])
          exact ⟨by rintro ⟨⟩, fun shown => absurd shown none⟩
      | broken =>
          obtain rfl : Ended.broken () = ended := by simpa [walk, stands] using walked
          have none := not_shows_of_end comes missed (by simp [stands])
          exact ⟨by rintro ⟨⟩, fun shown => absurd shown none⟩
      | record d =>
          rcases emptyVisit_spec comes stands with ⟨visited, counts⟩ | ⟨visited, settled, passed⟩
          · obtain rfl : Ended.stopped () = ended := by simpa [walk, stands, visited] using walked
            exact ⟨fun _ => ⟨off, d, counts⟩, fun _ => rfl⟩
          · have moved : walk (format.direntAt buf) DirentHdr.recLen (format.emptyVisit buf) turns
                (off + d.recLen) () = some ended := by
              simpa [walk, stands, visited] using walked
            apply ih (off + d.recLen) (comes.behind stands settled) _ moved
            intro other e counts
            rcases Nat.eq_or_lt_of_le (missed other e counts) with rfl | later
            · have same := counts.stands
              rw [stands] at same
              obtain rfl : d = e := by simpa using same
              exact absurd counts passed
            · obtain ⟨f, standing, _, ends⟩ := comes.behind_of_lt counts.trusted later
              rw [stands] at standing
              obtain rfl : d = f := by simpa using standing
              exact ends

theorem emptyBlock_spec (format : Format) (buf : Memory)
    : ∃ empty, format.emptyBlock buf = some empty ∧ (empty = false ↔ format.Shows buf) := by
  have visits (off : Nat) (state : Unit) (d : DirentHdr) (comes : format.Trusted buf off)
      (stands : format.direntAt buf off = some (.record d))
      : (∃ next, format.emptyVisit buf state off d = some (.next next)
          ∧ format.Trusted buf (off + d.recLen))
        ∨ ∃ result, format.emptyVisit buf state off d = some (.stop result) ∧ True := by
    rcases emptyVisit_spec comes stands with ⟨visited, _⟩ | ⟨visited, settled, _⟩
    · exact .inr ⟨(), visited, trivial⟩
    · exact .inl ⟨(), visited, comes.behind stands settled⟩
  obtain ⟨ended, walked, _⟩ := walk_ends (fun off _ => format.Trusted buf off) (fun _ => True)
    (direntAt_readable format buf) (direntAt_moves format buf) visits
    (format.blockSize + 1) 0 () (by omega) (by omega) .first
  have seen := emptyBlock_walk _ 0 ended .first (fun _ _ _ => Nat.zero_le _) walked
  unfold emptyBlock
  rw [walked]
  cases ended with
  | unused state => exact ⟨true, rfl, by simpa using seen⟩
  | broken state => exact ⟨true, rfl, by simpa using seen⟩
  | stopped result => exact ⟨false, rfl, by simpa using seen⟩

end Format

-- Reads that may fail

/-- What a check meets as it goes: what the reads to come will come to, where those not listed
succeed, and the block of addresses that is held from one look at an index to the next.
-/
structure Probe where
  accesses : List Access
  indirectBuf : Memory
  indirectBlock : Nat

namespace Image

variable (image : Image)

/-- `ext2_read_block`: the block, or what a read that failed has moved. -/
def tryBlock (block : Nat) (buf : Memory) (accesses : List Access)
    : Except Memory Memory × List Access :=
  let offset := block * image.format.blockSize
  if 2 ^ 64 - 1 - image.format.blockSize < offset then (.error buf, accesses)
  else if image.blocksCount ≤ block then (.error buf, accesses)
  else
    match accesses with
    | [] => (.ok (image.disk block), [])
    | .done :: rest => (.ok (image.disk block), rest)
    | .failed bytes :: rest => (.error bytes, rest)

/-- Hold a block of addresses, where it is not held already. -/
def holdIndirect (block : Nat) (probe : Probe) : Bool × Probe :=
  if probe.indirectBlock ≠ block then
    match image.tryBlock block probe.indirectBuf probe.accesses with
    | (.error buf, accesses) => (false, ⟨accesses, buf, 0⟩)
    | (.ok buf, accesses) => (true, ⟨accesses, buf, block⟩)
  else (true, probe)

/-- `ext2_indirect_entry`. -/
def tryEntry (block index : Nat) (probe : Probe) : Option Nat × Probe :=
  if block = 0 ∨ image.format.blockSize / 4 ≤ index then (none, probe)
  else if image.blocksCount ≤ block then (none, probe)
  else
    match image.holdIndirect block probe with
    | (false, probe) => (none, probe)
    | (true, probe) =>
        let value := probe.indirectBuf.word (index * 4)
        (if value = 0 ∨ image.blocksCount ≤ value then none else some value, probe)

/-- The loop in `ext2_map_block`. -/
def tryEntries : List Nat → Nat → Probe → Option Nat × Probe
  | [], container, probe => (some container, probe)
  | slot :: slots, container, probe =>
      match image.tryEntry container slot probe with
      | (none, probe) => (none, probe)
      | (some entry, probe) => tryEntries slots entry probe

/-- `ext2_map_block`. -/
def tryMap (iBlock : Nat → Nat) (index : Nat) (probe : Probe) : Option Nat × Probe :=
  if index < EXT2_NDIR_BLOCKS then
    (if iBlock index = 0 ∨ image.blocksCount ≤ iBlock index then none else some (iBlock index),
      probe)
  else
    match blockSlot index (image.format.blockSize / 4) with
    | none => (none, probe)
    | some (root, slots) => image.tryEntries slots (iBlock root) probe

/-- Map a block of the directory and read it into the buffer of the scan. -/
def tryDirBlock (dir : InodeHdr) (index : Nat) (probe : Probe) : Option Memory × Probe :=
  match image.tryMap dir.block index probe with
  | (none, probe) => (none, probe)
  | (some phys, probe) =>
      if phys = 0 then (none, probe)
      else
        match image.tryBlock phys (fun _ => 0) probe.accesses with
        | (.error _, accesses) => (none, { probe with accesses })
        | (.ok buf, accesses) => (some buf, { probe with accesses })

/-- The loop in `ext2_dirent_is_empty` over `count` blocks from `index` on. -/
def emptyBlocks (dir : InodeHdr) : (count index : Nat) → Probe → Option Bool
  | 0, _, _ => some true
  | count + 1, index, probe =>
      match image.tryDirBlock dir index probe with
      | (none, probe) => emptyBlocks dir count (index + 1) probe
      | (some buf, probe) =>
          match image.format.emptyBlock buf with
          | none => none
          | some false => some false
          | some true => emptyBlocks dir count (index + 1) probe

/-- `ext2_dirent_is_empty`: what it reports in `empty`, where it does not return -1. -/
def direntIsEmpty (dir : InodeHdr) (room : Bool) (probe : Probe) : Option (Option Bool) :=
  if dir.mode &&& EXT2_S_IFMT ≠ EXT2_S_IFDIR then some none
  else if image.blocksCount * image.format.blockSize < dir.size then some none
  else if room = false then some none
  else (image.emptyBlocks dir (image.searchedBlocks dir) 0 probe).map some

-- What the scan is shown

/-- The blocks that the loop brings in where it does not stop early. -/
def broughtIn (dir : InodeHdr) : (count index : Nat) → Probe → List Memory
  | 0, _, _ => []
  | count + 1, index, probe =>
      match image.tryDirBlock dir index probe with
      | (none, probe) => broughtIn dir count (index + 1) probe
      | (some buf, probe) => buf :: broughtIn dir count (index + 1) probe

/-- A mapped block of the directory holds a live entry. -/
def NamesLive (dir : InodeHdr) : Prop :=
  ∃ index phys off,
    index * image.format.blockSize < image.inodeSize dir
      ∧ image.mapBlock dir.block index = some phys
      ∧ image.format.LiveEntry (image.disk phys) off

/-- Where a mapped block holds a live entry, the scan is shown one: some block is mapped and read
at its turn in which the records before the first break have an entry that counts. A call that
is refused before it scans is not asked for this.
-/
def ShownIfLive (dir : InodeHdr) (room : Bool) (probe : Probe) : Prop :=
  dir.mode &&& EXT2_S_IFMT = EXT2_S_IFDIR
    → dir.size ≤ image.blocksCount * image.format.blockSize
    → room = true
    → image.NamesLive dir
    → ∃ buf ∈ image.broughtIn dir (image.searchedBlocks dir) 0 probe, image.format.Shows buf

theorem emptyBlocks_spec (dir : InodeHdr) (count index : Nat) (probe : Probe)
    : ∃ empty, image.emptyBlocks dir count index probe = some empty
        ∧ (empty = false
          ↔ ∃ buf ∈ image.broughtIn dir count index probe, image.format.Shows buf) := by
  induction count generalizing index probe with
  | zero => exact ⟨true, rfl, by simp [broughtIn]⟩
  | succ count ih =>
      unfold emptyBlocks broughtIn
      obtain ⟨found, after⟩ := image.tryDirBlock dir index probe
      cases found with
      | none => exact ih (index + 1) after
      | some buf =>
          obtain ⟨empty, scanned, shown⟩ := Format.emptyBlock_spec image.format buf
          simp only [scanned]
          cases empty with
          | false => exact ⟨false, rfl, by simp [shown.mp rfl]⟩
          | true =>
              obtain ⟨rest, scannedRest, shownRest⟩ := ih (index + 1) after
              refine ⟨rest, scannedRest, ?_⟩
              have hidden : ¬image.format.Shows buf := fun shows => by simpa using shown.mpr shows
              simp [shownRest, hidden]

theorem direntIsEmpty_true_iff (dir : InodeHdr) (room : Bool) (probe : Probe)
    : image.direntIsEmpty dir room probe = some (some true)
      ↔ dir.mode &&& EXT2_S_IFMT = EXT2_S_IFDIR
        ∧ dir.size ≤ image.blocksCount * image.format.blockSize
        ∧ room = true
        ∧ ¬∃ buf ∈ image.broughtIn dir (image.searchedBlocks dir) 0 probe,
            image.format.Shows buf := by
  obtain ⟨empty, scanned, shown⟩ := image.emptyBlocks_spec dir (image.searchedBlocks dir) 0 probe
  unfold direntIsEmpty
  rw [scanned, ← shown]
  by_cases isDir : dir.mode &&& EXT2_S_IFMT = EXT2_S_IFDIR
  · by_cases fits : dir.size ≤ image.blocksCount * image.format.blockSize
    · cases room <;> cases empty <;> simp [isDir, fits, Nat.not_lt.mpr fits]
    · simp [isDir, fits, Nat.lt_of_not_le fits]
  · simp [isDir]

-- Where every read is served

variable {image} {probe : Probe} {index : Nat}

theorem indirectEntry_bounds {block : Nat} {entry : Nat}
    (found : image.indirectEntry block index = some entry)
    : entry ≠ 0 ∧ entry < image.blocksCount := by
  unfold indirectEntry at found
  split at found
  · cases found
  · split at found
    · cases found
    · obtain ⟨buf, _, value⟩ := Option.bind_eq_some_iff.mp found
      dsimp only at value
      split at value
      · cases value
      · rename_i sound
        obtain rfl := Option.some.inj value
        omega

theorem foldlM_bounds {slots : List Nat} {container entry : Nat} (follows : slots ≠ [])
    (found : slots.foldlM image.indirectEntry container = some entry)
    : entry ≠ 0 ∧ entry < image.blocksCount := by
  induction slots generalizing container with
  | nil => exact absurd rfl follows
  | cons slot slots ih =>
      rw [List.foldlM_cons] at found
      obtain ⟨next, followed, rest⟩ := Option.bind_eq_some_iff.mp found
      cases slots with
      | nil =>
          obtain rfl := Option.some.inj rest
          exact indirectEntry_bounds followed
      | cons => exact ih (by simp) rest

theorem blockSlot_slots {apb root : Nat} {slots : List Nat}
    (found : blockSlot index apb = some (root, slots))
    : slots ≠ [] := by
  unfold blockSlot at found
  grind

theorem mapBlock_bounds {iBlock : Nat → Nat} {phys : Nat}
    (found : image.mapBlock iBlock index = some phys)
    : phys ≠ 0 ∧ phys < image.blocksCount := by
  unfold mapBlock at found
  split at found
  · split at found
    · cases found
    · rename_i sound
      obtain rfl := Option.some.inj found
      omega
  · split at found
    · cases found
    · rename_i slotted
      exact foldlM_bounds (blockSlot_slots slotted) found

theorem direntIsEmpty_ends (dir : InodeHdr) (room : Bool) (probe : Probe)
    : ∃ reported, image.direntIsEmpty dir room probe = some reported := by
  obtain ⟨empty, scanned, _⟩ := image.emptyBlocks_spec dir (image.searchedBlocks dir) 0 probe
  unfold direntIsEmpty
  rw [scanned]
  split
  · exact ⟨_, rfl⟩
  · split
    · exact ⟨_, rfl⟩
    · split <;> exact ⟨_, rfl⟩

end Image

end Panuti.Ext2
