import Panuti.Library.Runs
import Panuti.Ext2.CheckedCalls

/-! The checks of `ext2_mount` are enough for whole runs of the allocators: on every accepted
volume, whatever its counts and bitmaps hold and whatever the accesses to the device come to, no
32-bit operation wraps and no access to a bitmap leaves its block, except for the two sums that
nothing bounds.
-/

namespace Panuti.Ext2.Checked

open ByteMemory Bitmap

variable {volume : Volume} {fs : Fs}

-- What the calls keep

variable {group : Nat}

theorem Ranged.takeBlock (ranged : Ranged volume fs) (i : Nat) (inside : group < volume.groupCount)
    : Ranged volume (volume.takeBlock fs group i).2 := by
  obtain ⟨blockHint, inodeHint, cap, queue⟩ := ranged
  unfold Volume.takeBlock
  simp only
  split
  · exact ⟨blockHint, inodeHint, cap, queue⟩
  · split
    · exact ⟨blockHint, inodeHint, cap, queue⟩
    · exact ⟨inside, inodeHint, cap, queue⟩

theorem takeBlock_some {i block : Nat} (taken : (volume.takeBlock fs group i).1 = some block)
    : block = volume.blockAt group i := by
  unfold Volume.takeBlock at taken
  simp only at taken
  split at taken
  · cases taken
  · split at taken
    · cases taken
    · injection taken with same
      exact same.symm

theorem Ranged.allocBlockFrom (left : Nat) {n : Nat} (ranged : Ranged volume fs)
    : Ranged volume (volume.allocBlockFrom left n fs).2
      ∧ ∀ block, (volume.allocBlockFrom left n fs).1 = some block
        → block < volume.blocksCount := by
  induction left generalizing n fs with
  | zero => exact ⟨ranged, by rintro _ ⟨⟩⟩
  | succ left ih =>
      have inside := Nat.mod_lt (fs.blockAllocHint + n) volume.groupCount_pos
      obtain ⟨blockHint, inodeHint, cap, queue⟩ := ranged
      simp only [Volume.allocBlockFrom]
      generalize (fs.blockAllocHint + n) % volume.groupCount = group at inside
      split
      · exact @ih fs (n + 1) ⟨blockHint, inodeHint, cap, queue⟩
      · rcases volume.bitmapGet fs.device fs.blockBitmap (volume.blockBitmap group) with
          ⟨_ | _, device, bc⟩
        · exact ⟨⟨blockHint, inodeHint, cap, queue⟩, by rintro _ ⟨⟩⟩
        · have got : Ranged volume { fs with device := device, blockBitmap := bc } :=
            ⟨blockHint, inodeHint, cap, queue⟩
          simp only
          cases found : volume.findBlock group (volume.groupBlocks group) bc.buf with
          | none => exact @ih _ (n + 1) got
          | some i =>
              refine ⟨got.takeBlock i inside, fun block taken => ?_⟩
              have short := List.mem_range.mp (List.mem_of_find?_eq_some found)
              rw [takeBlock_some taken]
              exact Volume.blockAt_lt (by omega)

theorem Ranged.freeBlockNow (ranged : Ranged volume fs) (block : Nat)
    : Ranged volume (volume.freeBlockNow fs block).2 := by
  obtain ⟨blockHint, inodeHint, cap, queue⟩ := ranged
  unfold Volume.freeBlockNow
  split
  · exact ⟨blockHint, inodeHint, cap, queue⟩
  · split
    · exact ⟨blockHint, inodeHint, cap, queue⟩
    · split <;> exact ⟨blockHint, inodeHint, cap, queue⟩

theorem Ranged.freeBlock (ranged : Ranged volume fs) (block : Nat)
    : Ranged volume (volume.freeBlock fs block).2 := by
  obtain ⟨blockHint, inodeHint, cap, queue⟩ := ranged
  have queued {device : Device} {newCap : Nat} (small : newCap < 2 ^ 30)
      (room : fs.pendingFree.length < newCap)
      : Ranged volume
          (Volume.queueBlock { fs with device := device, pendingFreeCap := newCap } block) :=
    ⟨blockHint, inodeHint, small, by
      simp only [Volume.queueBlock, List.length_append, List.length_singleton]
      omega⟩
  unfold Volume.freeBlock
  split
  · exact ⟨blockHint, inodeHint, cap, queue⟩
  · split
    · exact ⟨blockHint, inodeHint, cap, queue⟩
    · split
      · rename_i full
        have grows : fs.pendingFreeCap
            < if fs.pendingFreeCap ≠ 0 then fs.pendingFreeCap * 2 % 2 ^ 32 else 64 := by
          split <;> omega
        simp only
        generalize (if fs.pendingFreeCap ≠ 0 then fs.pendingFreeCap * 2 % 2 ^ 32 else 64) = newCap
          at grows
        split
        · exact ⟨blockHint, inodeHint, cap, queue⟩
        · rename_i room
          simp only [not_or, Nat.not_lt, UINT32_MAX] at room
          split
          · exact ⟨blockHint, inodeHint, cap, queue⟩
          · exact queued (by omega) (by omega)
      · rename_i room
        exact queued cap (by omega)

theorem Ranged.pendingFreeFlush (ranged : Ranged volume fs)
    : Ranged volume (volume.pendingFreeFlush fs).2 := by
  have all (blocks : List Nat) {fs : Fs} (ranged : Ranged volume fs)
      : Ranged volume
          (blocks.foldl (fun fs block => (volume.freeBlockNow fs block).2) fs) := by
    induction blocks generalizing fs with
    | nil => exact ranged
    | cons block rest ih => exact ih (ranged.freeBlockNow block)
  unfold Volume.pendingFreeFlush
  split
  · exact ranged
  · obtain ⟨blockHint, inodeHint, cap, _⟩ := all fs.pendingFree ranged
    exact ⟨blockHint, inodeHint, cap, Nat.zero_le _⟩

theorem Ranged.takeInode (ranged : Ranged volume fs) (i : Nat) (inside : group < volume.groupCount)
    : Ranged volume (volume.takeInode fs group i).2 := by
  obtain ⟨blockHint, inodeHint, cap, queue⟩ := ranged
  unfold Volume.takeInode
  simp only
  split
  · exact ⟨blockHint, inodeHint, cap, queue⟩
  · exact ⟨blockHint, inside, cap, queue⟩

theorem takeInode_some {i inum : Nat} (taken : (volume.takeInode fs group i).1 = some inum)
    : inum = volume.inumAt group i := by
  unfold Volume.takeInode at taken
  simp only at taken
  split at taken
  · cases taken
  · injection taken with same
    exact same.symm

theorem Ranged.allocInodeFrom (few : volume.inodesCount < UINT32_MAX) (left : Nat) {n : Nat}
    (ranged : Ranged volume fs)
    : Ranged volume (volume.allocInodeFrom left n fs).2
      ∧ ∀ inum, (volume.allocInodeFrom left n fs).1 = some inum
        → volume.firstInode ≤ inum ∧ inum ≤ volume.inodesCount := by
  induction left generalizing n fs with
  | zero => exact ⟨ranged, by rintro _ ⟨⟩⟩
  | succ left ih =>
      have inside := Nat.mod_lt (fs.inodeAllocHint + n) volume.groupCount_pos
      obtain ⟨blockHint, inodeHint, cap, queue⟩ := ranged
      simp only [Volume.allocInodeFrom]
      generalize (fs.inodeAllocHint + n) % volume.groupCount = group at inside
      rcases volume.bitmapGet fs.device fs.inodeBitmap (volume.inodeBitmap group) with
        ⟨_ | _, device, bc⟩
      · exact ⟨⟨blockHint, inodeHint, cap, queue⟩, by rintro _ ⟨⟩⟩
      · have got : Ranged volume { fs with device := device, inodeBitmap := bc } :=
          ⟨blockHint, inodeHint, cap, queue⟩
        simp only
        split
        · exact @ih _ (n + 1) got
        · rename_i starts
          cases found : volume.findInode group bc.buf with
          | none => exact @ih _ (n + 1) got
          | some i =>
              refine ⟨got.takeInode i inside, fun inum taken => ?_⟩
              have short := List.mem_range.mp (List.mem_of_find?_eq_some found)
              have admitted := List.find?_some found
              simp only [Bool.and_eq_true, decide_eq_true_eq] at admitted
              have inVolume := inodeAvail_le few (Nat.not_lt.mp starts) short
              have inodes := volume.inodesCount_lt
              have number : volume.inumAt group i = group * volume.inodesPerGroup + i + 1 :=
                Nat.mod_eq_of_lt (by omega)
              rw [takeInode_some taken]
              exact ⟨admitted.1, by omega⟩

theorem Ranged.freeInode (ranged : Ranged volume fs) (inum : Nat)
    : Ranged volume (volume.freeInode fs inum).2 := by
  obtain ⟨blockHint, inodeHint, cap, queue⟩ := ranged
  unfold Volume.freeInode
  split
  · exact ⟨blockHint, inodeHint, cap, queue⟩
  · simp only
    split
    · exact ⟨blockHint, inodeHint, cap, queue⟩
    · split
      · exact ⟨blockHint, inodeHint, cap, queue⟩
      · split
        · exact ⟨blockHint, inodeHint, cap, queue⟩
        · split <;> exact ⟨blockHint, inodeHint, cap, queue⟩

-- Calls and runs

/-- The two sums that no check of a mount bounds fit: the number of inodes plus one, and the
number of free inodes plus one.
-/
def Fits (volume : Volume) (fs : Fs) (event : Volume.Event) : Prop :=
  match event.call with
  | .allocInode => volume.inodesCount < UINT32_MAX
  | .freeInode _ => fs.freeInodesCount < UINT32_MAX
  | _ => True

def InRange (volume : Volume) : Volume.Call → Volume.Answer → Prop
  | .allocBlock, .number (some block) => block < volume.blocksCount
  | .allocInode, .number (some inum) =>
      volume.firstInode ≤ inum ∧ inum ≤ volume.inodesCount
  | _, _ => True

/-- The checked call has a result, which is that of the call and in range. -/
def Computes (volume : Volume) (fs : Fs) (event : Volume.Event) : Prop :=
  answer volume fs event = some (volume.answer fs event)
  ∧ InRange volume event.call (volume.answer fs event).1

theorem Ranged.step (bounded : Bounded volume) (ranged : Ranged volume fs)
    (event : Volume.Event) (fits : Fits volume fs event)
    : Ranged volume (volume.step fs event) ∧ Computes volume fs event := by
  have armed : Ranged volume (Volume.armed fs event) :=
    ⟨ranged.blockHint, ranged.inodeHint, ranged.cap, ranged.queue⟩
  obtain ⟨call, accesses, kmallocs⟩ := event
  unfold Volume.step Computes
  cases call with
  | allocBlock =>
      have same := bounded.allocBlockFrom volume.groupCount armed.blockHint
        (show 0 + volume.groupCount ≤ volume.groupCount by omega)
      obtain ⟨keeps, inside⟩ := @Ranged.allocBlockFrom _ _ volume.groupCount 0 armed
      simp only [answer, Volume.answer, Volume.allocBlock, same, Option.map_some]
      refine ⟨keeps, trivial, ?_⟩
      generalize (volume.allocBlockFrom volume.groupCount 0 _).1 = found at inside
      cases found with
      | none => trivial
      | some block => exact inside block rfl
  | freeBlock block =>
      simp only [answer, Volume.answer, bounded.freeBlock armed, Option.map_some]
      exact ⟨armed.freeBlock block, trivial, trivial⟩
  | flush =>
      simp only [answer, Volume.answer, bounded.pendingFreeFlush, Option.map_some]
      exact ⟨armed.pendingFreeFlush, trivial, trivial⟩
  | allocInode =>
      have few : volume.inodesCount < UINT32_MAX := fits
      have same := bounded.allocInodeFrom few volume.groupCount armed.inodeHint
        (show 0 + volume.groupCount ≤ volume.groupCount by omega)
      obtain ⟨keeps, inside⟩ := @Ranged.allocInodeFrom _ _ few volume.groupCount 0 armed
      simp only [answer, Volume.answer, Volume.allocInode, same, Option.map_some]
      refine ⟨keeps, trivial, ?_⟩
      generalize (volume.allocInodeFrom volume.groupCount 0 _).1 = found at inside
      cases found with
      | none => trivial
      | some inum => exact inside inum rfl
  | freeInode inum =>
      have notFull : (Volume.armed fs ⟨.freeInode inum, accesses, kmallocs⟩).freeInodesCount
          < UINT32_MAX := fits
      simp only [answer, Volume.answer, freeInode_eq notFull, Option.map_some]
      exact ⟨armed.freeInode inum, trivial, trivial⟩

-- The checks of a mount are enough

variable {dev : BlockDev} {sb : Superblock} {gdt : Nat → GroupDesc} {mount : Mount}

theorem accepted_of_mount (mounted : ext2Mount dev sb gdt = some (some mount))
    : Accepted dev sb gdt mount := by
  obtain ⟨outcome, same, accepts⟩ := ext2Mount_spec dev sb gdt
  rw [mounted] at same
  exact accepts mount (Option.some.inj same).symm

theorem bounded_of_accepted (accepted : Accepted dev sb gdt mount)
    : Bounded accepted.volume where
  inodeSize := by
    have size := accepted.revision.inodeSize
    show 0 < mount.revision.inodeSize ∧ mount.revision.inodeSize ≤ 256
    omega
  tables := accepted.tables.tables
  groups := accepted.gdtFits

theorem ranged_mounted (accepted : Accepted dev sb gdt mount) (disk : Nat → Memory)
    : Ranged accepted.volume (mountedFs disk sb gdt) where
  blockHint := accepted.volume.groupCount_pos
  inodeHint := accepted.volume.groupCount_pos
  cap := Nat.two_pow_pos 30
  queue := Nat.le_refl _

/-- The bits that the allocators and the free paths look at lie inside of their bitmaps, and the
numbers they stand for are in range.
-/
structure BitsInside (volume : Volume) : Prop where
  blocks
    : ∀ group < volume.groupCount, ∀ i < min (volume.groupBlocks group) (volume.blockSize * 8),
        i / 8 < volume.blockSize ∧ volume.blockAt group i < volume.blocksCount
  freed
    : ∀ block group i, volume.blockFreeable block = some (group, i)
      → group < volume.groupCount ∧ i / 8 < volume.blockSize ∧ block < volume.blocksCount
  inodes
    : volume.inodesCount < UINT32_MAX
      → ∀ group < volume.groupCount, group * volume.inodesPerGroup + 1 ≤ volume.inodesCount
      → ∀ i < volume.inodeAvail group,
          i / 8 < volume.blockSize ∧ group * volume.inodesPerGroup + i + 1 ≤ volume.inodesCount
  retired
    : ∀ inum, 1 ≤ inum → inum ≤ volume.inodesCount
      → (inum - 1) / volume.inodesPerGroup < volume.groupCount
        ∧ (inum - 1) % volume.inodesPerGroup / 8 < volume.blockSize

theorem bitsInside (volume : Volume) : BitsInside volume where
  blocks group _ i short := ⟨by omega, Volume.blockAt_lt (by omega)⟩
  freed block group i freeable := by
    obtain ⟨same, inside, short, _⟩ := Volume.blockFreeable_some freeable
    have bit := blockFreeable_bit freeable
    exact ⟨inside, by omega, by rw [same]; exact Volume.blockAt_lt short⟩
  inodes few group _ starts i short := by
    obtain ⟨number, bit⟩ := inodeAvail_le few starts short
    exact ⟨by omega, number⟩
  retired inum positive inside := by
    have all := volume.inodes
    have per := volume.inodesPerGroup_le
    have bit := Nat.mod_lt (inum - 1) volume.inodesPerGroup_pos
    refine ⟨?_, by omega⟩
    apply Nat.div_lt_of_lt_mul
    rw [Nat.mul_comm]
    omega

/-- No operation of `ext2_mount` wraps. On every volume that it accepts each inode is found inside
of the volume, the bits looked at lie inside of the bitmaps, and every run of the allocators in
which the two sums fit is computed without a wrap.
-/
theorem mount_sufficient (dev : BlockDev) (sb : Superblock) (gdt : Nat → GroupDesc)
    : (∃ outcome, ext2Mount dev sb gdt = some outcome)
      ∧ ∀ mount, (mounted : ext2Mount dev sb gdt = some (some mount))
        → let volume := (accepted_of_mount mounted).volume
          (∀ inum, 1 ≤ inum → inum ≤ sb.inodesCount
            → ∃ tableBlock byteOff,
                inodeLocate sb gdt mount inum = some (some (tableBlock, byteOff))
                ∧ tableBlock < sb.blocksCount
                ∧ byteOff + INODE_HDR_SIZE ≤ mount.blockSize)
          ∧ BitsInside volume
          ∧ ∀ disk events,
              Runs.Throughout volume.step (Fits volume) (mountedFs disk sb gdt) events
              → ∀ done event rest, events = done ++ event :: rest
              → Computes volume (Runs.run volume.step (mountedFs disk sb gdt) done) event := by
  obtain ⟨outcome, same, _⟩ := ext2Mount_spec dev sb gdt
  refine ⟨⟨outcome, same⟩, ?_⟩
  intro mount mounted
  have accepted := accepted_of_mount mounted
  have bounded := bounded_of_accepted accepted
  refine ⟨fun inum => inodeLocate_spec accepted, bitsInside _, ?_⟩
  rintro disk events fits done event rest rfl
  obtain ⟨before, here, _⟩ := Runs.throughout_append.mp fits
  have ranged := before.invariant (Ranged accepted.volume)
    (fun _ event ranged fine => (ranged.step bounded event fine).1)
    (ranged_mounted accepted disk)
  exact (ranged.step bounded event here).2

/-- A superblock of one group with sixteen blocks and sixteen inodes. -/
def smallSuper (freeInodesCount : Nat) : Superblock where
  inodesCount := 16
  blocksCount := 16
  freeBlocksCount := 9
  freeInodesCount := freeInodesCount
  firstDataBlock := 1
  logBlockSize := 0
  blocksPerGroup := 8192
  inodesPerGroup := 16
  magic := EXT2_MAGIC
  state := EXT2_STATE_CLEAN
  revLevel := 1
  firstInode := 11
  inodeSize := 128
  featureIncompat := EXT2_INCOMPAT_FILETYPE
  featureRoCompat := 0
  inodesCount_lt := (by decide : 2 ^ 4 < 2 ^ 32)
  blocksCount_lt := (by decide : 2 ^ 4 < 2 ^ 32)

def smallGdt (_ : Nat) : GroupDesc := ⟨3, 4, 5, 9, 5⟩

def smallDisk (block : Nat) : Memory := fun i =>
  if block = 4 then if i = 0 then 0xFF else if i = 1 then 0x07 else 0 else 0

def smallMount : Mount where
  blockSize := 1024
  groupCount := 1
  revision := ⟨128, 11, 2, 0⟩
  hasFiletype := true
  largeFiles := false
  addrsPerBlock := 256
  inodesPerBlock := 8
  gdtBlocks := 1
  readOnly := false

theorem small_mounted (freeInodesCount : Nat)
    : ext2Mount ⟨512, 32⟩ (smallSuper freeInodesCount) smallGdt = some (some smallMount) := by
  have sizes : mountSizes ⟨512, 32⟩ (smallSuper freeInodesCount) = some (some (1024, 1)) := by
    simp [mountSizes, smallSuper, BlockDev.bytes, EXT2_MAGIC, Word32.shl, Word32.mul, Word32.fit,
      Word32.sub, divCeil32, divCeil]
  have revision : mountRevision (smallSuper freeInodesCount) 1024
      = some (some ⟨128, 11, 2, 0⟩) := by
    simp [mountRevision, smallSuper, Word32.sub, EXT2_MAX_INODE_SIZE, EXT2_INCOMPAT_FILETYPE]
  have table : mountGdtBlocks (smallSuper freeInodesCount) 1024 1 = some 1 := rfl
  have valid : validateGdt (smallSuper freeInodesCount) smallGdt 1024 1 128 = some true := by
    simp [validateGdt, smallSuper, smallGdt, Word32.mul, Word32.fit, divCeil32, divCeil]
  simp only [ext2Mount, sizes, revision, table, valid, Option.bind_eq_bind, Option.bind_some]
  rfl

/-- The last inode of the small volume is found, and an inode is freed without a wrap. -/
theorem mount_sufficient_small
    : (∃ tableBlock byteOff,
        inodeLocate (smallSuper 5) smallGdt smallMount 16 = some (some (tableBlock, byteOff))
        ∧ tableBlock < 16
        ∧ byteOff + INODE_HDR_SIZE ≤ 1024)
      ∧ Computes (accepted_of_mount (small_mounted 5)).volume
          (mountedFs smallDisk (smallSuper 5) smallGdt) ⟨.freeInode 11, [], []⟩ := by
  obtain ⟨located, _, computed⟩ :=
    (mount_sufficient ⟨512, 32⟩ (smallSuper 5) smallGdt).2 smallMount (small_mounted 5)
  exact ⟨located 16 (by decide) (by decide),
    computed smallDisk [⟨.freeInode 11, [], []⟩] ⟨show 5 < UINT32_MAX by decide, trivial⟩ [] _ []
      rfl⟩

/-- Where the superblock counts 2^32 - 1 free inodes, freeing one wraps the count. -/
theorem freeInode_wraps
    : ¬∀ dev sb gdt mount, (mounted : ext2Mount dev sb gdt = some (some mount))
        → ∀ disk event, Computes (accepted_of_mount mounted).volume (mountedFs disk sb gdt) event := by
  intro claimed
  have computed := (claimed _ _ _ _ (small_mounted UINT32_MAX) smallDisk
    ⟨.freeInode 11, [], []⟩).1
  have wraps : answer (accepted_of_mount (small_mounted UINT32_MAX)).volume
      (mountedFs smallDisk (smallSuper UINT32_MAX) smallGdt) ⟨.freeInode 11, [], []⟩ = none := by
    rfl
  rw [wraps] at computed
  cases computed

end Panuti.Ext2.Checked
