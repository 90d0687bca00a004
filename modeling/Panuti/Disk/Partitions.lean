import Mathlib.Data.Nat.Bitwise
import Panuti.Disk.Ata

/-! The partitions of a disk, `pardet.c`: what its table of partitions registers, where the
requests to a partition go, and which commands an ATA drive gets for them.
-/

namespace Panuti.Pardet

def MBR_SIGNATURE : Nat := 0xAA55
def MBR_TABLE_OFFSET : Nat := 0x1BE
def MBR_ENTRY_SIZE : Nat := 16
def MBR_MAX_PARTITIONS : Nat := 4

def MBR_TYPE_EMPTY : Nat := 0x00
def MBR_TYPE_GPT_PROTECTIVE : Nat := 0xEE

def PATH_SIZE : Nat := 24

/-- `pardet_partition_t`, less the disk it is on. -/
structure Partition where
  startLba : Nat
  blockCount : Nat
deriving Repr, DecidableEq

/-- `read_le32`, with the last byte where the code puts it. -/
def readLe32 (mbr : Nat → UInt8) (place : Nat) : Nat :=
  (mbr place).toNat ||| (mbr (place + 1)).toNat <<< 8 ||| (mbr (place + 2)).toNat <<< 16
    ||| (mbr (place + 3)).toNat

/-- The request to the disk that a request to the partition becomes; `none` is
`BLOCK_ERR_INVAL`.
-/
def partForward (part : Partition) (block count : Nat) : Option (Nat × Nat) :=
  if part.blockCount < (block + count) % 2 ^ 64 then none
  else some ((part.startLba + block) % 2 ^ 64, count)

def partRead (part : Partition) (block count : Nat) : Option (Nat × Nat) :=
  partForward part block count

def partWrite (part : Partition) (block count : Nat) : Option (Nat × Nat) :=
  partForward part block count

/-- What an entry of the table describes, where it is taken. -/
def pardetEntry (mbr : Nat → UInt8) (diskCount i : Nat) : Option Partition :=
  let entry := MBR_TABLE_OFFSET + i * MBR_ENTRY_SIZE
  let status := (mbr entry).toNat
  let type := (mbr (entry + 4)).toNat
  let start := readLe32 mbr (entry + 8)
  let count := readLe32 mbr (entry + 12)
  if type = MBR_TYPE_EMPTY ∨ type = MBR_TYPE_GPT_PROTECTIVE then none
  else if status ≠ 0x00 ∧ status ≠ 0x80 then none
  else if count = 0 then none
  else if diskCount < start + count then none
  else some ⟨start, count⟩

/-- The path of the `i`-th partition. -/
def partPath (blkdev : List Char) (i : Nat) : List Char :=
  blkdev ++ ['p', Char.ofNat ('1'.toNat + i)]

/-- The loop of `pardet_create_partitions`: the partitions it registers, with their places in the
table. It ends where there is no memory or no room for a path, and where a path is not accepted.
-/
def pardetLoop (mbr : Nat → UInt8) (diskCount : Nat) (blkdev : List Char) (alloc : Nat → Bool)
    (blockRegister : List Char → Partition → Bool) : (turns i : Nat) → List (Nat × Partition)
  | 0, _ => []
  | turns + 1, i =>
      match pardetEntry mbr diskCount i with
      | none => pardetLoop mbr diskCount blkdev alloc blockRegister turns (i + 1)
      | some part =>
          if alloc i = false then []
          else if PATH_SIZE ≤ blkdev.length + 3 then []
          else if blockRegister (partPath blkdev i) part = false then []
          else (i, part) :: pardetLoop mbr diskCount blkdev alloc blockRegister turns (i + 1)

/-- `pardet_create_partitions`, once the first sector was read. -/
def pardetCreatePartitions (mbr : Nat → UInt8) (diskCount : Nat) (blkdev : List Char)
    (alloc : Nat → Bool) (blockRegister : List Char → Partition → Bool)
    : List (Nat × Partition) :=
  let signature := (mbr 510).toNat ||| (mbr 511).toNat <<< 8
  if signature ≠ MBR_SIGNATURE then []
  else pardetLoop mbr diskCount blkdev alloc blockRegister MBR_MAX_PARTITIONS 0

-- What a partition owes

/-- The 32-bit field at a place of the table, its lowest byte first. -/
def field (mbr : Nat → UInt8) (place : Nat) : Nat :=
  (mbr place).toNat + (mbr (place + 1)).toNat * 2 ^ 8 + (mbr (place + 2)).toNat * 2 ^ 16
    + (mbr (place + 3)).toNat * 2 ^ 24

/-- The partition is the range its entry names: its blocks are the blocks of that range, which the
disk has, and no request leaves it.
-/
structure Confines (diskCount start count : Nat) (part : Partition) : Prop where
  maps : ∀ block < count, partRead part block 1 = some (start + block, 1)
    ∧ partWrite part block 1 = some (start + block, 1)
  within : start + count ≤ diskCount
  confined
    : ∀ block n, block + n < 2 ^ 64
        → ∀ at' m, partRead part block n = some (at', m) ∨ partWrite part block n = some (at', m)
        → m = n ∧ start ≤ at' ∧ at' + n ≤ start + count

section

variable {mbr : Nat → UInt8} {diskCount i place : Nat} {part : Partition}

theorem three_bytes (mbr : Nat → UInt8) (place : Nat)
    : (mbr place).toNat ||| (mbr (place + 1)).toNat <<< 8 ||| (mbr (place + 2)).toNat <<< 16
      = (mbr place).toNat + (mbr (place + 1)).toNat * 2 ^ 8
        + (mbr (place + 2)).toNat * 2 ^ 16 := by
  have byte (at' : Nat) : (mbr at').toNat < 2 ^ 8 := (mbr at').toNat_lt
  have first := byte place
  have second := byte (place + 1)
  have low : (mbr place).toNat ||| (mbr (place + 1)).toNat <<< 8
      = (mbr place).toNat + (mbr (place + 1)).toNat * 2 ^ 8 := by
    rw [Nat.or_comm, ← Nat.shiftLeft_add_eq_or_of_lt first, Nat.shiftLeft_eq, Nat.add_comm]
  have below : (mbr place).toNat + (mbr (place + 1)).toNat * 2 ^ 8 < 2 ^ 16 := by omega
  rw [low, Nat.or_comm, ← Nat.shiftLeft_add_eq_or_of_lt below, Nat.shiftLeft_eq, Nat.add_comm]

theorem readLe32_spec (mbr : Nat → UInt8) (place : Nat)
    : ((mbr (place + 3)).toNat = 0 → readLe32 mbr place = field mbr place)
      ∧ ((mbr (place + 3)).toNat ≠ 0 → readLe32 mbr place < field mbr place)
      ∧ readLe32 mbr place < 2 ^ 24 := by
  have byte (at' : Nat) : (mbr at').toNat < 2 ^ 8 := (mbr at').toNat_lt
  have first := byte place
  have second := byte (place + 1)
  have third := byte (place + 2)
  have fourth := byte (place + 3)
  have small : readLe32 mbr place < 2 ^ 24 := by
    rw [readLe32, three_bytes]
    exact Nat.or_lt_two_pow (by omega) (by omega)
  refine ⟨fun zero => ?_, fun some => ?_, small⟩
  · rw [readLe32, three_bytes, zero, Nat.or_zero, field, zero]
    omega
  · have large : 2 ^ 24 ≤ field mbr place := by
      rw [field]
      omega
    exact Nat.lt_of_lt_of_le small large

theorem pardetEntry_some (taken : pardetEntry mbr diskCount i = some part)
    : part.startLba = readLe32 mbr (MBR_TABLE_OFFSET + i * MBR_ENTRY_SIZE + 8)
      ∧ part.blockCount = readLe32 mbr (MBR_TABLE_OFFSET + i * MBR_ENTRY_SIZE + 12)
      ∧ 0 < part.blockCount ∧ part.startLba + part.blockCount ≤ diskCount := by
  simp only [pardetEntry] at taken
  split at taken
  · cases taken
  split at taken
  · cases taken
  split at taken
  · cases taken
  split at taken
  · cases taken
  rename_i some fits
  obtain rfl := Option.some.inj taken
  exact ⟨rfl, rfl, Nat.pos_of_ne_zero some, Nat.le_of_not_lt fits⟩

theorem pardetLoop_entry {blkdev : List Char} {alloc : Nat → Bool}
    {blockRegister : List Char → Partition → Bool} (turns start : Nat)
    (member : (i, part) ∈ pardetLoop mbr diskCount blkdev alloc blockRegister turns start)
    : pardetEntry mbr diskCount i = some part ∧ start ≤ i ∧ i < start + turns := by
  induction turns generalizing start with
  | zero => cases member
  | succ turns ih =>
      rw [pardetLoop] at member
      cases entry : pardetEntry mbr diskCount start with
      | none =>
          rw [entry] at member
          obtain ⟨taken, above, below⟩ := ih (start + 1) member
          exact ⟨taken, by omega, by omega⟩
      | some found =>
          rw [entry] at member
          simp only [] at member
          split at member
          · cases member
          split at member
          · cases member
          split at member
          · cases member
          rcases List.mem_cons.mp member with same | later
          · obtain ⟨rfl, rfl⟩ := Prod.mk.inj same
            exact ⟨entry, Nat.le_refl _, by omega⟩
          · obtain ⟨taken, above, below⟩ := ih (start + 1) later
            exact ⟨taken, by omega, by omega⟩

theorem partForward_eq_some {block count : Nat} {request : Nat × Nat}
    (small : block + count < 2 ^ 64)
    : partForward part block count = some request
      ↔ block + count ≤ part.blockCount
        ∧ ((part.startLba + block) % 2 ^ 64, count) = request := by
  rw [partForward, Nat.mod_eq_of_lt small]
  by_cases beyond : part.blockCount < block + count
  · rw [if_pos beyond]
    exact iff_of_false (fun never => by cases never) (fun both => by omega)
  · rw [if_neg beyond, Option.some.injEq]
    exact (and_iff_right (by omega)).symm

/-- A registered partition is the range its entry names exactly when neither the start nor the
count has a highest byte.
-/
theorem pardet_confines_iff {blkdev : List Char} {alloc : Nat → Bool}
    {blockRegister : List Char → Partition → Bool}
    (registered
      : (i, part) ∈ pardetCreatePartitions mbr diskCount blkdev alloc blockRegister)
    : Confines diskCount (field mbr (MBR_TABLE_OFFSET + i * MBR_ENTRY_SIZE + 8))
        (field mbr (MBR_TABLE_OFFSET + i * MBR_ENTRY_SIZE + 12)) part
      ↔ mbr (MBR_TABLE_OFFSET + i * MBR_ENTRY_SIZE + 11) = 0
        ∧ mbr (MBR_TABLE_OFFSET + i * MBR_ENTRY_SIZE + 15) = 0 := by
  have entry : pardetEntry mbr diskCount i = some part := by
    rw [pardetCreatePartitions] at registered
    split at registered
    · cases registered
    · exact (pardetLoop_entry MBR_MAX_PARTITIONS 0 registered).1
  obtain ⟨starts, counts, some, within⟩ := pardetEntry_some entry
  obtain ⟨startZero, startSome, startSmall⟩ :=
    readLe32_spec mbr (MBR_TABLE_OFFSET + i * MBR_ENTRY_SIZE + 8)
  obtain ⟨countZero, countSome, countSmall⟩ :=
    readLe32_spec mbr (MBR_TABLE_OFFSET + i * MBR_ENTRY_SIZE + 12)
  simp only [← UInt8.toNat_inj, UInt8.toNat_zero]
  generalize MBR_TABLE_OFFSET + i * MBR_ENTRY_SIZE = base at *
  rw [← starts] at startZero startSome startSmall
  rw [← counts] at countZero countSome countSmall
  constructor
  · intro confines
    have countIs : (mbr (base + 15)).toNat = 0 := by
      by_contra nonzero
      have last := (confines.maps part.blockCount (countSome nonzero)).1
      rw [partRead, partForward_eq_some (by omega)] at last
      omega
    refine ⟨?_, countIs⟩
    by_contra nonzero
    have first := (confines.maps 0 (by rw [← countZero countIs]; exact some)).1
    rw [partRead, partForward_eq_some (by omega)] at first
    have smaller := startSome nonzero
    have same := (Prod.mk.inj first.2).1
    omega
  · rintro ⟨startIs, countIs⟩
    rw [← startZero startIs, ← countZero countIs]
    have forwards (block n : Nat) (small : block + n < 2 ^ 64) (at' m : Nat)
        (moved : partForward part block n = Option.some (at', m))
        : m = n ∧ part.startLba ≤ at' ∧ at' + n ≤ part.startLba + part.blockCount := by
      obtain ⟨inside, same⟩ := (partForward_eq_some small).mp moved
      obtain ⟨rfl, rfl⟩ := Prod.mk.inj same
      omega
    refine ⟨fun block inside => ?_, within, fun block n small at' m moved => ?_⟩
    · have moved : partForward part block 1 = Option.some (part.startLba + block, 1) := by
        rw [partForward_eq_some (by omega)]
        exact ⟨inside, by rw [Nat.mod_eq_of_lt (by omega)]⟩
      exact ⟨moved, moved⟩
    · exact moved.elim (forwards block n small at' m) (forwards block n small at' m)

end

/-- A table whose first entry names `count` sectors from `start` on, given by their bytes. -/
def oneEntry (start count : List UInt8) (place : Nat) : UInt8 :=
  if place = 0x1BE + 4 then 0x83
  else if 0x1BE + 8 ≤ place ∧ place < 0x1BE + 12 then start.getD (place - (0x1BE + 8)) 0
  else if 0x1BE + 12 ≤ place ∧ place < 0x1BE + 16 then count.getD (place - (0x1BE + 12)) 0
  else if place = 510 then 0x55
  else if place = 511 then 0xAA
  else 0

/-- A partition of eight sectors from the 2048th on. -/
theorem pardet_confines_small : Confines 4096 2048 8 ⟨2048, 8⟩ :=
  (pardet_confines_iff (by decide : (0, ⟨2048, 8⟩) ∈
      pardetCreatePartitions (oneEntry [0, 8, 0, 0] [8, 0, 0, 0]) 4096 "/dvd0".toList
        (fun _ => true) (fun _ _ => true))).mpr
    ⟨by decide, by decide⟩

/-- A partition that starts at sector 2^24 is registered as one that starts at sector 1. -/
theorem farPartition_moved
    : (0, ⟨1, 8⟩) ∈ pardetCreatePartitions (oneEntry [0, 0, 0, 1] [8, 0, 0, 0]) (2 ^ 25)
        "/dvd0".toList (fun _ => true) (fun _ _ => true)
      ∧ field (oneEntry [0, 0, 0, 1] [8, 0, 0, 0]) (MBR_TABLE_OFFSET + 8) = 2 ^ 24
      ∧ ¬Confines (2 ^ 25) (field (oneEntry [0, 0, 0, 1] [8, 0, 0, 0]) (MBR_TABLE_OFFSET + 8))
          (field (oneEntry [0, 0, 0, 1] [8, 0, 0, 0]) (MBR_TABLE_OFFSET + 12)) ⟨1, 8⟩ := by
  refine ⟨by decide, by decide, fun confines => ?_⟩
  have first := (confines.maps 0 (by decide)).1
  exact absurd first (by decide)

-- A partition of a drive

open Panuti.Ata (Command IdeDrive Consecutive Covers Splits TaskFile Answer ataApplyIdentify ataRw)

theorem consecutive_within {start stop : Nat} {commands : List Command}
    (ranges : Consecutive start commands stop)
    : start ≤ stop ∧ ∀ command ∈ commands,
        start ≤ command.lba ∧ command.lba + command.sectors ≤ stop := by
  induction commands generalizing start with
  | nil => exact ⟨Nat.le_of_eq ranges, List.forall_mem_nil _⟩
  | cons command commands ih =>
      obtain ⟨here, _, rest⟩ := ranges
      obtain ⟨below, within⟩ := ih rest
      refine ⟨by omega, List.forall_mem_cons.mpr ⟨by omega, fun other among => ?_⟩⟩
      have between := within other among
      omega

/-- Of a request to a partition of an identified drive, whatever the drive answers, every command
stays in the partition and within the limit of its addressing; the commands are the first of those
that cover the request, and all of them where the drive carries out each.
-/
theorem partition_commands (index : Nat) (words : Nat → UInt16) {mbr : Nat → UInt8} {i : Nat}
    {part : Partition} {blkdev : List Char} {alloc : Nat → Bool}
    {blockRegister : List Char → Partition → Bool}
    (registered : (i, part) ∈ pardetCreatePartitions mbr (ataApplyIdentify index words).blockCount
      blkdev alloc blockRegister)
    {block count lba sectors : Nat} (small : block + count < 2 ^ 64)
    (forwarded : partForward part block count = some (lba, sectors)) (file : TaskFile)
    (write : Bool) (answers : Nat → Answer) (flushed : Bool)
    : let issued := (ataRw (ataApplyIdentify index words) file lba sectors write answers flushed).2
      lba = part.startLba + block ∧ sectors = count
      ∧ (∀ command ∈ issued, part.startLba ≤ command.lba
        ∧ command.lba + command.sectors ≤ part.startLba + part.blockCount
        ∧ command.sectors ≤ command.limit)
      ∧ (∃ missing, Covers (ataApplyIdentify index words) lba sectors (issued ++ missing))
      ∧ ((∀ turn, answers turn = .done)
        → Covers (ataApplyIdentify index words) lba sectors issued) := by
  have identified := Ata.ataApplyIdentify_identified index words
  generalize ataApplyIdentify index words = drv at *
  have entry : pardetEntry mbr drv.blockCount i = some part := by
    rw [pardetCreatePartitions] at registered
    split at registered
    · cases registered
    · exact (pardetLoop_entry MBR_MAX_PARTITIONS 0 registered).1
  obtain ⟨starts, counts, -, within⟩ := pardetEntry_some entry
  have lowStart := (readLe32_spec mbr (MBR_TABLE_OFFSET + i * MBR_ENTRY_SIZE + 8)).2.2
  have lowCount := (readLe32_spec mbr (MBR_TABLE_OFFSET + i * MBR_ENTRY_SIZE + 12)).2.2
  rw [← starts] at lowStart
  rw [← counts] at lowCount
  obtain ⟨inside, same⟩ := (partForward_eq_some small).mp forwarded
  obtain ⟨place, rfl⟩ := Prod.mk.inj same
  obtain rfl : part.startLba + block = lba := by omega
  -- the registered ranges end long before the addresses of 28 bits do
  have splits : Splits drv (part.startLba + block + 0) (count - 0) := by
    have turns := Nat.div_mul_le_self (count - 0 - 1) drv.maxChunk
    exact ⟨.inr (by omega), fun _ _ beyond => by omega⟩
  have covers := (Ata.commands_cover_iff identified (by omega) (count + 1) 0 (by omega)
    (Nat.zero_le _)).mpr splits
  have accepted : ¬drv.blockCount < (part.startLba + block + count) % 2 ^ 64 := by
    have below := identified.small
    omega
  obtain ⟨⟨missing, issued⟩, whole⟩ := Ata.ataRwLoop_spec identified (part.startLba + block) count
    write answers (count + 1) 0 file
  intro commands
  have ran : commands = (Ata.ataRwLoop drv (part.startLba + block) count write answers (count + 1) 0
      file).2 := by
    simp only [commands, ataRw, if_neg accepted]
  rw [ran]
  refine ⟨rfl, rfl, fun command among => ?_, ⟨missing, by rw [issued]; exact covers⟩,
    fun moved => by rw [whole moved]; exact covers⟩
  have member : command ∈ drv.commands (part.startLba + block) count (count + 1) 0 :=
    issued ▸ List.mem_append_left _ among
  have between := (consecutive_within covers.ranges).2 command member
  exact ⟨by omega, by omega, covers.limited command member⟩

/-- Two sectors of a partition are written. -/
theorem partition_commands_small
    : Covers (ataApplyIdentify 0 Ata.bigDrive) 2050 2
        (ataRw (ataApplyIdentify 0 Ata.bigDrive) Ata.idleFile 2050 2 true (fun _ => .done)
          true).2 :=
  (partition_commands 0 Ata.bigDrive (by decide +kernel : (0, ⟨2048, 8⟩) ∈
      pardetCreatePartitions (oneEntry [0, 8, 0, 0] [8, 0, 0, 0])
        (ataApplyIdentify 0 Ata.bigDrive).blockCount "/dvd0".toList (fun _ => true)
        (fun _ _ => true)) (by decide : 2 + 2 < 2 ^ 64) (by decide) Ata.idleFile true
      (fun _ => .done) true).2.2.2.2 (fun _ => rfl)

end Panuti.Pardet
