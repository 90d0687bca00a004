import Panuti.Library.Word32
import Panuti.Ext2.Allocators

/-! `ext2_mount` from the superblock and the group descriptors it read up to the point where the
volume is accepted, `ext2_validate_gdt` and `ext2_inode_locate`. Every 32-bit operation is checked:
`none` is an operation that wraps or divides by zero, `some none` a volume that is refused.
-/

namespace Panuti.Ext2

-- What is read

def EXT2_MAGIC : Nat := 0xEF53
def EXT2_INCOMPAT_FILETYPE : Nat := 0x0002
def EXT2_INCOMPAT_SUPPORTED : Nat := EXT2_INCOMPAT_FILETYPE
def EXT2_RO_COMPAT_SPARSE_SUPER : Nat := 0x0001
def EXT2_RO_COMPAT_LARGE_FILE : Nat := 0x0002
def EXT2_RO_COMPAT_SUPPORTED : Nat := EXT2_RO_COMPAT_SPARSE_SUPER ||| EXT2_RO_COMPAT_LARGE_FILE
def EXT2_STATE_CLEAN : Nat := 1
def EXT2_MAX_INODE_SIZE : Nat := 256

/-- The sizes of `ext2_inode_hdr_t` and of `ext2_group_desc_t`. -/
def INODE_HDR_SIZE : Nat := 112
def GROUP_DESC_SIZE : Nat := 32

/-- `block_dev_t`, without its operations. -/
structure BlockDev where
  blockSize : Nat
  blockCount : Nat

/-- The size of the device in bytes, a product of 64 bits. -/
def BlockDev.bytes (dev : BlockDev) : Nat := dev.blockCount * dev.blockSize % 2 ^ 64

/-- The fields of `ext2_superblock_t` that are read. -/
structure Superblock where
  inodesCount : Nat
  blocksCount : Nat
  freeBlocksCount : Nat
  freeInodesCount : Nat
  firstDataBlock : Nat
  logBlockSize : Nat
  blocksPerGroup : Nat
  inodesPerGroup : Nat
  magic : Nat
  state : Nat
  revLevel : Nat
  firstInode : Nat
  inodeSize : Nat
  featureIncompat : Nat
  featureRoCompat : Nat
  inodesCount_lt : inodesCount < 2 ^ 32
  blocksCount_lt : blocksCount < 2 ^ 32

/-- The fields of `ext2_group_desc_t` that are read. -/
structure GroupDesc where
  blockBitmap : Nat
  inodeBitmap : Nat
  inodeTable : Nat
  freeBlocksCount : Nat
  freeInodesCount : Nat

-- ext2_mount

/-- `div_ceil_u32`. -/
def divCeil32 (x y : Nat) : Option Nat :=
  if y = 0 then none else Word32.fit (divCeil x y)

/-- `ext2_mount` up to the number of groups: the size of a block and this number. -/
def mountSizes (dev : BlockDev) (sb : Superblock) : Option (Option (Nat × Nat)) := do
  if dev.bytes < 2048 then return none
  if sb.magic ≠ EXT2_MAGIC ∨ 1 < sb.revLevel ∨ 2 < sb.logBlockSize then return none
  let blockSize ← Word32.shl 1024 sb.logBlockSize
  if sb.blocksCount = 0 ∨ sb.inodesCount = 0 then return none
  if sb.blocksPerGroup = 0 ∨ sb.inodesPerGroup = 0 then return none
  let bits ← Word32.mul 8 blockSize
  if bits < sb.blocksPerGroup ∨ bits < sb.inodesPerGroup then return none
  if blockSize = 1024 ∧ sb.firstDataBlock ≠ 1 ∨ blockSize ≠ 1024 ∧ sb.firstDataBlock ≠ 0 then
    return none
  if dev.bytes < sb.blocksCount * blockSize then return none
  let data ← Word32.sub sb.blocksCount sb.firstDataBlock
  let groupCount ← divCeil32 data sb.blocksPerGroup
  if groupCount = 0 ∨ groupCount * sb.inodesPerGroup < sb.inodesCount then return none
  return some (blockSize, groupCount)

/-- What the revision says about inodes and features. -/
structure Revision where
  inodeSize : Nat
  firstInode : Nat
  incompat : Nat
  roCompat : Nat

/-- `ext2_mount`: the fields that depend on the revision. -/
def mountRevision (sb : Superblock) (blockSize : Nat) : Option (Option Revision) := do
  if sb.revLevel = 0 then return some ⟨128, 11, 0, 0⟩
  if sb.inodeSize < 128 then return none
  let lower ← Word32.sub sb.inodeSize 1
  if sb.inodeSize &&& lower ≠ 0 then return none
  if blockSize < sb.inodeSize ∨ EXT2_MAX_INODE_SIZE < sb.inodeSize then return none
  if sb.firstInode < 11 ∨ sb.inodesCount < sb.firstInode then return none
  return some ⟨sb.inodeSize, sb.firstInode, sb.featureIncompat, sb.featureRoCompat⟩

/-- `ext2_mount`: the number of blocks of the group descriptor table; its sums and products are of
64 bits.
-/
def mountGdtBlocks (sb : Superblock) (blockSize groupCount : Nat) : Option Nat :=
  let gdtBlocks := (groupCount * GROUP_DESC_SIZE + blockSize - 1) / blockSize
  if gdtBlocks = 0 ∨ UINT32_MAX < gdtBlocks then none
  else if sb.blocksCount < sb.firstDataBlock + 1 + gdtBlocks then none
  else if gdtBlocks * blockSize = 0 ∨ UINT32_MAX < gdtBlocks * blockSize then none
  else some gdtBlocks

/-- `ext2_validate_gdt`. -/
def validateGdt (sb : Superblock) (gdt : Nat → GroupDesc) (blockSize groupCount inodeSize : Nat)
    : Option Bool := do
  let bytes ← Word32.mul inodeSize sb.inodesPerGroup
  let itablesInGroup ← divCeil32 bytes blockSize
  return (List.range groupCount).all fun i =>
    decide ((gdt i).blockBitmap < sb.blocksCount)
      && decide ((gdt i).inodeBitmap < sb.blocksCount)
      && decide ((gdt i).inodeTable < sb.blocksCount)
      && decide ((gdt i).inodeTable + itablesInGroup ≤ sb.blocksCount)

/-- What `ext2_mount` computes of an accepted volume. -/
structure Mount where
  blockSize : Nat
  groupCount : Nat
  revision : Revision
  hasFiletype : Bool
  largeFiles : Bool
  addrsPerBlock : Nat
  inodesPerBlock : Nat
  gdtBlocks : Nat
  readOnly : Bool

/-- `ext2_mount` behind the reads of the superblock and of the group descriptors. -/
def ext2Mount (dev : BlockDev) (sb : Superblock) (gdt : Nat → GroupDesc)
    : Option (Option Mount) := do
  let some (blockSize, groupCount) ← mountSizes dev sb | return none
  let some revision ← mountRevision sb blockSize | return none
  if revision.incompat &&& EXT2_INCOMPAT_SUPPORTED ≠ revision.incompat then return none
  let addrsPerBlock ← Word32.div blockSize 4
  let inodesPerBlock ← Word32.div blockSize revision.inodeSize
  let some gdtBlocks := mountGdtBlocks sb blockSize groupCount | return none
  if (← validateGdt sb gdt blockSize groupCount revision.inodeSize) = false then return none
  return some {
    blockSize, groupCount, revision, addrsPerBlock, inodesPerBlock, gdtBlocks
    hasFiletype := decide (revision.incompat &&& EXT2_INCOMPAT_FILETYPE ≠ 0)
    largeFiles := decide (revision.roCompat &&& EXT2_RO_COMPAT_LARGE_FILE ≠ 0)
    readOnly :=
      decide (revision.roCompat &&& EXT2_RO_COMPAT_SUPPORTED ≠ revision.roCompat)
        || decide (sb.state ≠ EXT2_STATE_CLEAN) }

/-- `ext2_inode_locate`: the block and the offset in it. -/
def inodeLocate (sb : Superblock) (gdt : Nat → GroupDesc) (mount : Mount) (inum : Nat)
    : Option (Option (Nat × Nat)) := do
  if inum = 0 ∨ sb.inodesCount < inum then return none
  let before ← Word32.sub inum 1
  let group ← Word32.div before sb.inodesPerGroup
  if mount.groupCount ≤ group then return none
  let indexInGroup ← Word32.mod before sb.inodesPerGroup
  let row ← Word32.div indexInGroup mount.inodesPerBlock
  let tableBlock ← Word32.add (gdt group).inodeTable row
  let place ← Word32.mod indexInGroup mount.inodesPerBlock
  let byteOff ← Word32.mul place mount.revision.inodeSize
  if sb.blocksCount ≤ tableBlock then return none
  if mount.blockSize < byteOff then return none
  let room ← Word32.sub mount.blockSize byteOff
  if room < INODE_HDR_SIZE then return none
  return some (tableBlock, byteOff)

-- What an accepted volume satisfies

variable {dev : BlockDev} {sb : Superblock} {gdt : Nat → GroupDesc}

/-- The size of a block and the number of groups, where they are accepted. -/
structure SizesOk (dev : BlockDev) (sb : Superblock) (blockSize groupCount : Nat) : Prop where
  supported : blockSize = 1024 ∨ blockSize = 2048 ∨ blockSize = 4096
  blocksPerGroup : 0 < sb.blocksPerGroup ∧ sb.blocksPerGroup ≤ 8 * blockSize
  inodesPerGroup : 0 < sb.inodesPerGroup ∧ sb.inodesPerGroup ≤ 8 * blockSize
  firstDataBlock
    : blockSize = 1024 ∧ sb.firstDataBlock = 1 ∨ blockSize ≠ 1024 ∧ sb.firstDataBlock = 0
  device : sb.blocksCount * blockSize ≤ dev.bytes
  groups
    : groupCount = divCeil (sb.blocksCount - sb.firstDataBlock) sb.blocksPerGroup
      ∧ 0 < groupCount
  inodes : 0 < sb.inodesCount ∧ sb.inodesCount ≤ groupCount * sb.inodesPerGroup

theorem divCeil_le {x y : Nat} (positive : 0 < y) : divCeil x y ≤ x := by
  unfold divCeil
  cases x with
  | zero => rw [Nat.zero_add, Nat.div_eq_of_lt (by omega)]
  | succ x =>
      obtain ⟨y, rfl⟩ : ∃ more, y = more + 1 := ⟨y - 1, by omega⟩
      apply Nat.div_le_of_le_mul
      rw [Nat.succ_mul, Nat.mul_succ]
      have := Nat.zero_le (y * x)
      omega

theorem divCeil32_of_lt {x y : Nat} (positive : 0 < y) (small : x < 2 ^ 32)
    : divCeil32 x y = some (divCeil x y) := by
  rw [divCeil32, if_neg (Nat.ne_of_gt positive)]
  exact Word32.fit_of_lt (Nat.lt_of_le_of_lt (divCeil_le positive) small)

/-- No operation wraps, and what is accepted satisfies the checks. -/
theorem mountSizes_spec (dev : BlockDev) (sb : Superblock)
    : ∃ sizes, mountSizes dev sb = some sizes
        ∧ ∀ blockSize groupCount, sizes = some (blockSize, groupCount)
          → SizesOk dev sb blockSize groupCount := by
  have blocks := sb.blocksCount_lt
  unfold mountSizes
  split
  · exact ⟨none, rfl, nofun⟩
  split
  · exact ⟨none, rfl, nofun⟩
  rename_i known
  simp only [not_or, Nat.not_lt] at known
  have supported : 1024 * 2 ^ sb.logBlockSize = 1024
      ∨ 1024 * 2 ^ sb.logBlockSize = 2048 ∨ 1024 * 2 ^ sb.logBlockSize = 4096 := by
    have cases : sb.logBlockSize = 0 ∨ sb.logBlockSize = 1 ∨ sb.logBlockSize = 2 := by omega
    rcases cases with zero | one | two
    · simp [zero]
    · simp [one]
    · simp [two]
  have shifted : Word32.shl 1024 sb.logBlockSize = some (1024 * 2 ^ sb.logBlockSize) := by
    rw [Word32.shl, if_pos (by omega)]
    exact Word32.fit_of_lt (by omega)
  generalize 1024 * 2 ^ sb.logBlockSize = blockSize at supported shifted
  simp only [shifted, Word32.mul_of_lt (show 8 * blockSize < 2 ^ 32 by omega),
    Option.bind_eq_bind, Option.bind_some]
  split
  · exact ⟨none, rfl, nofun⟩
  rename_i counted
  split
  · exact ⟨none, rfl, nofun⟩
  rename_i grouped
  split
  · exact ⟨none, rfl, nofun⟩
  rename_i bits
  split
  · exact ⟨none, rfl, nofun⟩
  rename_i first
  split
  · exact ⟨none, rfl, nofun⟩
  rename_i room
  simp only [not_or, Nat.not_lt] at counted grouped bits room
  have placed : blockSize = 1024 ∧ sb.firstDataBlock = 1
      ∨ blockSize ≠ 1024 ∧ sb.firstDataBlock = 0 := by
    omega
  have start : sb.firstDataBlock ≤ sb.blocksCount := by omega
  have ceiling : divCeil32 (sb.blocksCount - sb.firstDataBlock) sb.blocksPerGroup
      = some (divCeil (sb.blocksCount - sb.firstDataBlock) sb.blocksPerGroup) :=
    divCeil32_of_lt (by omega) (by omega)
  simp only [Word32.sub_of_le start, ceiling, Option.bind_some]
  split
  · exact ⟨none, rfl, nofun⟩
  rename_i groups
  refine ⟨_, rfl, ?_⟩
  rintro _ _ ⟨rfl, rfl⟩
  simp only [not_or, Nat.not_lt] at groups
  exact ⟨supported, ⟨by omega, bits.1⟩, ⟨by omega, bits.2⟩, placed, room, ⟨rfl, by omega⟩,
    by omega, groups.2⟩

structure RevisionOk (sb : Superblock) (blockSize : Nat) (revision : Revision) : Prop where
  inodeSize : revision.inodeSize = 128 ∨ revision.inodeSize = 256
  fits : revision.inodeSize ≤ blockSize
  firstInode : 11 ≤ revision.firstInode

theorem inodeSize_cases {size : Nat} (low : 128 ≤ size) (high : size ≤ 256)
    (power : size &&& (size - 1) = 0)
    : size = 128 ∨ size = 256 := by
  have table : ∀ size : Fin 257, 128 ≤ size.val → size.val &&& (size.val - 1) = 0
      → size.val = 128 ∨ size.val = 256 := by
    decide +kernel
  exact table ⟨size, by omega⟩ low power

theorem mountRevision_spec (sb : Superblock) {blockSize : Nat} (large : 1024 ≤ blockSize)
    : ∃ outcome, mountRevision sb blockSize = some outcome
        ∧ ∀ revision, outcome = some revision → RevisionOk sb blockSize revision := by
  unfold mountRevision
  split
  · refine ⟨_, rfl, ?_⟩
    rintro _ ⟨⟩
    exact ⟨Or.inl rfl, by simp only; omega, Nat.le_refl _⟩
  split
  · exact ⟨none, rfl, nofun⟩
  rename_i notSmall
  simp only [Word32.sub_of_le (show 1 ≤ sb.inodeSize by omega), Option.bind_eq_bind,
    Option.bind_some]
  split
  · exact ⟨none, rfl, nofun⟩
  rename_i power
  split
  · exact ⟨none, rfl, nofun⟩
  rename_i sized
  split
  · exact ⟨none, rfl, nofun⟩
  rename_i first
  simp only [not_or, Nat.not_lt, EXT2_MAX_INODE_SIZE] at sized first
  refine ⟨_, rfl, ?_⟩
  rintro _ ⟨⟩
  exact ⟨inodeSize_cases (Nat.not_lt.mp notSmall) sized.2 (not_not.mp power), sized.1, first.1⟩

theorem mountGdtBlocks_spec {blockSize groupCount gdtBlocks : Nat} (large : 1024 ≤ blockSize)
    (given : mountGdtBlocks sb blockSize groupCount = some gdtBlocks)
    : groupCount * GROUP_DESC_SIZE ≤ UINT32_MAX := by
  unfold mountGdtBlocks at given
  simp only at given
  split at given
  · cases given
  split at given
  · cases given
  split at given
  · cases given
  rename_i fits
  simp only [not_or, Nat.not_lt] at fits
  have covers : groupCount * GROUP_DESC_SIZE
      ≤ (groupCount * GROUP_DESC_SIZE + blockSize - 1) / blockSize * blockSize := by
    have split := Nat.div_add_mod (groupCount * GROUP_DESC_SIZE + blockSize - 1) blockSize
    have rest := Nat.mod_lt (groupCount * GROUP_DESC_SIZE + blockSize - 1)
      (show blockSize > 0 by omega)
    rw [Nat.mul_comm] at split
    omega
  omega

/-- What `ext2_validate_gdt` accepts. -/
structure TablesOk (sb : Superblock) (gdt : Nat → GroupDesc)
    (blockSize groupCount inodeSize : Nat)
    : Prop where
  bitmaps
    : ∀ i < groupCount,
        (gdt i).blockBitmap < sb.blocksCount ∧ (gdt i).inodeBitmap < sb.blocksCount
  tables
    : ∀ i < groupCount,
        (gdt i).inodeTable + divCeil (inodeSize * sb.inodesPerGroup) blockSize ≤ sb.blocksCount

theorem validateGdt_spec (sb : Superblock) (gdt : Nat → GroupDesc)
    {blockSize groupCount inodeSize : Nat} (positive : 0 < blockSize)
    (fits : inodeSize * sb.inodesPerGroup < 2 ^ 32)
    : ∃ valid, validateGdt sb gdt blockSize groupCount inodeSize = some valid
        ∧ (valid = true → TablesOk sb gdt blockSize groupCount inodeSize) := by
  unfold validateGdt
  simp only [Word32.mul_of_lt fits, divCeil32_of_lt positive fits, Option.bind_eq_bind,
    Option.bind_some]
  refine ⟨_, rfl, ?_⟩
  intro valid
  simp only [List.all_eq_true, List.mem_range, Bool.and_eq_true, decide_eq_true_eq] at valid
  exact ⟨fun i inside => ⟨(valid i inside).1.1.1, (valid i inside).1.1.2⟩,
    fun i inside => (valid i inside).2⟩

structure Accepted (dev : BlockDev) (sb : Superblock) (gdt : Nat → GroupDesc) (mount : Mount)
    : Prop where
  sizes : SizesOk dev sb mount.blockSize mount.groupCount
  revision : RevisionOk sb mount.blockSize mount.revision
  inodesPerBlock : mount.inodesPerBlock = mount.blockSize / mount.revision.inodeSize
  gdtFits : mount.groupCount * GROUP_DESC_SIZE ≤ UINT32_MAX
  tables : TablesOk sb gdt mount.blockSize mount.groupCount mount.revision.inodeSize

theorem ext2Mount_spec (dev : BlockDev) (sb : Superblock) (gdt : Nat → GroupDesc)
    : ∃ outcome, ext2Mount dev sb gdt = some outcome
        ∧ ∀ mount, outcome = some mount → Accepted dev sb gdt mount := by
  unfold ext2Mount
  obtain ⟨sizes, sized, sizesOk⟩ := mountSizes_spec dev sb
  rw [sized]
  cases sizes with
  | none => exact ⟨none, rfl, nofun⟩
  | some pair =>
      obtain ⟨blockSize, groupCount⟩ := pair
      have sizes := sizesOk _ _ rfl
      have supported := sizes.supported
      have perGroup := sizes.inodesPerGroup
      obtain ⟨outcome, revised, revisionOk⟩ :=
        mountRevision_spec sb (show 1024 ≤ blockSize by omega)
      simp only [Option.bind_eq_bind, Option.bind_some, revised]
      cases outcome with
      | none => exact ⟨none, rfl, nofun⟩
      | some revision =>
          have revision_ok := revisionOk _ rfl
          have inodeSize := revision_ok.inodeSize
          have fits : revision.inodeSize * sb.inodesPerGroup < 2 ^ 32 := by
            have := Nat.mul_le_mul (show revision.inodeSize ≤ 256 by omega) perGroup.2
            omega
          obtain ⟨valid, validated, tables⟩ :=
            @validateGdt_spec sb gdt blockSize groupCount revision.inodeSize (by omega) fits
          simp only [Word32.div_of_pos (show 0 < 4 by decide),
            Word32.div_of_pos (show 0 < revision.inodeSize by omega), Option.bind_some, validated]
          split
          · exact ⟨none, rfl, nofun⟩
          cases table : mountGdtBlocks sb blockSize groupCount with
          | none => exact ⟨none, rfl, nofun⟩
          | some gdtBlocks =>
              simp only
              split
              · exact ⟨none, rfl, nofun⟩
              rename_i isValid
              refine ⟨_, rfl, ?_⟩
              rintro _ ⟨⟩
              exact ⟨sizes, revision_ok, rfl, mountGdtBlocks_spec (by omega) table,
                tables (by simpa using isValid)⟩

-- Inodes lie inside the volume

variable {mount : Mount}

theorem Accepted.row (accepted : Accepted dev sb gdt mount) {index : Nat}
    (inside : index < sb.inodesPerGroup)
    : 0 < mount.inodesPerBlock
      ∧ index / mount.inodesPerBlock
        < divCeil (mount.revision.inodeSize * sb.inodesPerGroup) mount.blockSize
      ∧ index % mount.inodesPerBlock * mount.revision.inodeSize + INODE_HDR_SIZE
        ≤ mount.blockSize := by
  rw [accepted.inodesPerBlock]
  unfold divCeil INODE_HDR_SIZE
  have blockSize := accepted.sizes.supported
  have inodeSize := accepted.revision.inodeSize
  rcases blockSize with large | large | large <;> rcases inodeSize with size | size <;>
    rw [large, size] <;> omega

theorem inodeLocate_spec (accepted : Accepted dev sb gdt mount) {inum : Nat}
    (positive : 1 ≤ inum) (inside : inum ≤ sb.inodesCount)
    : ∃ tableBlock byteOff,
        inodeLocate sb gdt mount inum = some (some (tableBlock, byteOff))
        ∧ tableBlock < sb.blocksCount
        ∧ byteOff + INODE_HDR_SIZE ≤ mount.blockSize := by
  have perGroup := accepted.sizes.inodesPerGroup
  have inGroup : (inum - 1) / sb.inodesPerGroup < mount.groupCount := by
    apply Nat.div_lt_of_lt_mul
    have all := accepted.sizes.inodes.2
    rw [Nat.mul_comm]
    omega
  have index := Nat.mod_lt (inum - 1) perGroup.1
  obtain ⟨rows, row, place⟩ := accepted.row index
  have table := accepted.tables.tables _ inGroup
  have blocks := sb.blocksCount_lt
  have blockSize := accepted.sizes.supported
  have numbered : ¬(inum = 0 ∨ sb.inodesCount < inum) := by omega
  have grouped : ¬mount.groupCount ≤ (inum - 1) / sb.inodesPerGroup := by omega
  simp only [inodeLocate, if_neg numbered, Word32.sub_of_le positive,
    Word32.div_of_pos perGroup.1, Word32.mod_of_pos perGroup.1, if_neg grouped,
    Word32.div_of_pos rows, Word32.mod_of_pos rows, Option.bind_eq_bind, Option.bind_some]
  generalize (inum - 1) % sb.inodesPerGroup / mount.inodesPerBlock = line at row
  generalize (inum - 1) % sb.inodesPerGroup % mount.inodesPerBlock = slot at place
  generalize (gdt ((inum - 1) / sb.inodesPerGroup)).inodeTable = inodeTable at table
  have inVolume : ¬sb.blocksCount ≤ inodeTable + line := by omega
  have inBlock : ¬mount.blockSize < slot * mount.revision.inodeSize := by omega
  have roomy : ¬mount.blockSize - slot * mount.revision.inodeSize < INODE_HDR_SIZE := by omega
  simp only [Word32.add_of_lt (show inodeTable + line < 2 ^ 32 by omega),
    Word32.mul_of_lt (show slot * mount.revision.inodeSize < 2 ^ 32 by omega),
    Word32.sub_of_le (Nat.not_lt.mp inBlock), if_neg inVolume, if_neg inBlock, if_neg roomy,
    Option.bind_some]
  exact ⟨_, _, rfl, by omega, place⟩

-- The mounted volume

/-- The part of a mounted volume that stays as it is. -/
def Accepted.volume (accepted : Accepted dev sb gdt mount) : Volume where
  blockSize := mount.blockSize
  hasFiletype := mount.hasFiletype
  supported := accepted.sizes.supported
  blocksCount := sb.blocksCount
  inodesCount := sb.inodesCount
  firstDataBlock := sb.firstDataBlock
  blocksPerGroup := sb.blocksPerGroup
  inodesPerGroup := sb.inodesPerGroup
  groupCount := mount.groupCount
  inodeSize := mount.revision.inodeSize
  firstInode := mount.revision.firstInode
  blockBitmap group := (gdt group).blockBitmap
  inodeBitmap group := (gdt group).inodeBitmap
  inodeTable group := (gdt group).inodeTable
  blocksCount_lt := sb.blocksCount_lt
  inodesCount_lt := sb.inodesCount_lt
  blocksPerGroup_pos := accepted.sizes.blocksPerGroup.1
  inodesPerGroup_pos := accepted.sizes.inodesPerGroup.1
  blocksPerGroup_le := accepted.sizes.blocksPerGroup.2
  inodesPerGroup_le := accepted.sizes.inodesPerGroup.2
  groups := accepted.sizes.groups.1
  groupCount_pos := accepted.sizes.groups.2
  inodes := accepted.sizes.inodes.2
  reserved := accepted.revision.firstInode
  bitmaps_lt := accepted.tables.bitmaps

/-- The part of a mounted volume that changes, over a device with these blocks. -/
def mountedFs (disk : Nat → ByteMemory.Memory) (sb : Superblock) (gdt : Nat → GroupDesc) : Fs where
  device := { disk, accesses := [], kmallocs := [] }
  blockBitmap := ⟨fun _ => 0, 0, false⟩
  inodeBitmap := ⟨fun _ => 0, 0, false⟩
  freeBlocksCount := sb.freeBlocksCount
  freeInodesCount := sb.freeInodesCount
  groupFreeBlocks group := (gdt group).freeBlocksCount
  groupFreeInodes group := (gdt group).freeInodesCount
  superblockDirty := false
  gdtDirty := false
  blockAllocHint := 0
  inodeAllocHint := 0
  pendingFree := []
  pendingFreeCap := 0
  queued := []
  released := []

end Panuti.Ext2
