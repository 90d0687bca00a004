import Panuti.Ext2.BitmapView

/-! What holds of a mounted volume between the calls of its allocators: the counts are those of
the clear bits of the current bitmaps, and every queued block is still in use.
-/

namespace Panuti.Ext2

open ByteMemory Bitmap

namespace Volume

variable (volume : Volume)

def OwnsBlockBitmap (block : Nat) : Prop :=
  ∃ group < volume.groupCount, volume.blockBitmap group = block

def OwnsInodeBitmap (block : Nat) : Prop :=
  ∃ group < volume.groupCount, volume.inodeBitmap group = block

def blockMap (fs : Fs) (group : Nat) : Memory :=
  fs.blockBitmap.view fs.device.disk (volume.blockBitmap group)

def inodeMap (fs : Fs) (group : Nat) : Memory :=
  fs.inodeBitmap.view fs.device.disk (volume.inodeBitmap group)

def groupInodes (group : Nat) : Nat :=
  min volume.inodesPerGroup (volume.inodesCount - group * volume.inodesPerGroup)

/-- The bitmaps lie in blocks of their own, the inode table of the first group ends in this group,
and the number of inodes, plus one, fits 32 bits. `ext2_mount` checks none of these.
-/
structure WellLaid : Prop where
  bitmap_pos : ∀ group < volume.groupCount, volume.blockBitmap group ≠ 0
  blockBitmaps
    : ∀ one < volume.groupCount, ∀ two < volume.groupCount,
        volume.blockBitmap one = volume.blockBitmap two → one = two
  inodeBitmaps
    : ∀ one < volume.groupCount, ∀ two < volume.groupCount,
        volume.inodeBitmap one = volume.inodeBitmap two → one = two
  apart
    : ∀ one < volume.groupCount, ∀ two < volume.groupCount,
        volume.blockBitmap one ≠ volume.inodeBitmap two
  table : volume.firstAllocatable ≤ volume.blocksPerGroup + volume.firstDataBlock
  inodesCount_small : volume.inodesCount < UINT32_MAX

/-- The free counts are the numbers of clear bits of blocks and inodes of the volume. -/
structure CountsRight (fs : Fs) : Prop where
  groupBlocks
    : ∀ group < volume.groupCount,
        fs.groupFreeBlocks group
          = clearBits (volume.blockMap fs group) (volume.groupBlocks group)
  groupInodes
    : ∀ group < volume.groupCount,
        fs.groupFreeInodes group
          = clearBits (volume.inodeMap fs group) (volume.groupInodes group)
  blocks
    : fs.freeBlocksCount
      = ∑ group ∈ Finset.range volume.groupCount,
          clearBits (volume.blockMap fs group) (volume.groupBlocks group)
  inodes
    : fs.freeInodesCount
      = ∑ group ∈ Finset.range volume.groupCount,
          clearBits (volume.inodeMap fs group) (volume.groupInodes group)

structure CachesCoherent (fs : Fs) : Prop where
  block : fs.blockBitmap.Coherent fs.device.disk volume.OwnsBlockBitmap
  inode : fs.inodeBitmap.Coherent fs.device.disk volume.OwnsInodeBitmap

/-- A block that may be freed and whose bit is set. -/
def InUse (fs : Fs) (block : Nat) : Prop :=
  ∃ group i, volume.blockFreeable block = some (group, i)
    ∧ bit (volume.blockMap fs group) i = true

structure Sound (fs : Fs) : Prop where
  counts : volume.CountsRight fs
  caches : volume.CachesCoherent fs
  queue : ∀ block ∈ fs.pendingFree, volume.InUse fs block
  distinct : fs.pendingFree.Nodup
  ledger : fs.queued = fs.released ++ fs.pendingFree

/-- A volume that was just mounted, with right counts. -/
structure Mounted (fs : Fs) : Prop where
  counts : volume.CountsRight fs
  blockCache : fs.blockBitmap.cached = 0 ∧ fs.blockBitmap.dirty = false
  inodeCache : fs.inodeBitmap.cached = 0 ∧ fs.inodeBitmap.dirty = false
  empty : fs.pendingFree = []
  unqueued : fs.queued = [] ∧ fs.released = []

variable {volume} {fs after : Fs} {group i block : Nat}

theorem Mounted.sound (mounted : volume.Mounted fs) : volume.Sound fs := by
  obtain ⟨counts, ⟨noBlock, blockClean⟩, ⟨noInode, inodeClean⟩, empty, noQueued, noReleased⟩ :=
    mounted
  refine ⟨counts, ⟨⟨?_, ?_, ?_⟩, ⟨?_, ?_, ?_⟩⟩, ?_, ?_, ?_⟩
  · intro block cached
    omega
  · intro dirty
    rw [blockClean] at dirty
    cases dirty
  · intro block cached
    omega
  · intro block cached
    omega
  · intro dirty
    rw [inodeClean] at dirty
    cases dirty
  · intro block cached
    omega
  · simp [empty]
  · simp [empty]
  · simp [empty, noQueued, noReleased]

-- Blocks and their bits

theorem groupBlocks_le (volume : Volume) (group : Nat)
    : volume.groupBlocks group ≤ volume.blocksPerGroup := by
  unfold groupBlocks
  simp only
  split <;> omega

theorem blockAt_lt (inside : i < volume.groupBlocks group)
    : volume.blockAt group i < volume.blocksCount := by
  unfold groupBlocks at inside
  unfold blockAt
  simp only at inside
  split at inside <;> omega

theorem sum_shares_le {shares : Nat → Nat} {each total : Nat}
    (share : ∀ group, shares group ≤ each ∧ shares group ≤ total - group * each) (count : Nat)
    : ∑ group ∈ Finset.range count, shares group ≤ total := by
  have both : ∑ group ∈ Finset.range count, shares group ≤ count * each
      ∧ ∑ group ∈ Finset.range count, shares group ≤ total := by
    induction count with
    | zero => simp
    | succ count ih =>
        obtain ⟨short, inside⟩ := ih
        obtain ⟨few, left⟩ := share count
        rw [Finset.sum_range_succ, Nat.succ_mul]
        omega
  exact both.2

theorem sum_groupBlocks_le (volume : Volume) (count : Nat)
    : ∑ group ∈ Finset.range count, volume.groupBlocks group ≤ volume.blocksCount := by
  refine sum_shares_le (fun group => ⟨volume.groupBlocks_le group, ?_⟩) count
  unfold groupBlocks
  simp only
  split <;> omega

theorem sum_groupInodes_le (volume : Volume) (count : Nat)
    : ∑ group ∈ Finset.range count, volume.groupInodes group ≤ volume.inodesCount :=
  sum_shares_le (fun _ => ⟨Nat.min_le_left .., Nat.min_le_right ..⟩) count

theorem blockFreeable_some (freeable : volume.blockFreeable block = some (group, i))
    : block = volume.blockAt group i ∧ group < volume.groupCount
      ∧ i < volume.groupBlocks group
      ∧ ¬(group = 0 ∧ block < volume.firstAllocatable) := by
  unfold blockFreeable at freeable
  split at freeable
  · cases freeable
  · rename_i data
    simp only at freeable
    split at freeable
    · cases freeable
    · rename_i inside
      split at freeable
      · cases freeable
      · rename_i allowed
        injection freeable with same
        injection same with sameGroup sameBit
        simp only [not_or, Nat.not_le] at inside
        rw [sameGroup] at allowed inside
        rw [sameBit] at inside
        refine ⟨?_, inside.1, inside.2.2, allowed⟩
        have split := Nat.div_add_mod (block - volume.firstDataBlock) volume.blocksPerGroup
        rw [sameGroup, sameBit, Nat.mul_comm] at split
        unfold blockAt
        omega

theorem blockFreeable_blockAt (inside : group < volume.groupCount)
    (short : i < volume.groupBlocks group)
    (allowed : ¬(group = 0 ∧ volume.blockAt group i < volume.firstAllocatable))
    : volume.blockFreeable (volume.blockAt group i) = some (group, i) := by
  have small : i < volume.blocksPerGroup := Nat.lt_of_lt_of_le short (groupBlocks_le _ _)
  have cap := volume.blocksPerGroup_le
  have positive := volume.blocksPerGroup_pos
  have rel : volume.blockAt group i - volume.firstDataBlock
      = i + volume.blocksPerGroup * group := by
    unfold blockAt
    rw [Nat.mul_comm]
    omega
  have inGroup : (volume.blockAt group i - volume.firstDataBlock) / volume.blocksPerGroup
      = group := by
    rw [rel, Nat.add_mul_div_left _ _ positive, Nat.div_eq_of_lt small, Nat.zero_add]
  have inBit : (volume.blockAt group i - volume.firstDataBlock) % volume.blocksPerGroup
      = i := by
    rw [rel, Nat.add_mul_mod_self_left, Nat.mod_eq_of_lt small]
  have data : ¬volume.blockAt group i < volume.firstDataBlock := by
    unfold blockAt
    omega
  have sound : ¬(volume.groupCount ≤ group ∨ volume.blockSize * 8 ≤ i
      ∨ volume.groupBlocks group ≤ i) := by
    omega
  simp only [blockFreeable, if_neg data, inGroup, inBit, if_neg sound, if_neg allowed]

-- Calls that change no bitmap

/-- The bitmaps, the counts and the queue are as before. -/
structure Kept (volume : Volume) (fs after : Fs) : Prop where
  blockMap : ∀ group < volume.groupCount, volume.blockMap after group = volume.blockMap fs group
  inodeMap : ∀ group < volume.groupCount, volume.inodeMap after group = volume.inodeMap fs group
  freeBlocksCount : after.freeBlocksCount = fs.freeBlocksCount
  freeInodesCount : after.freeInodesCount = fs.freeInodesCount
  groupFreeBlocks : after.groupFreeBlocks = fs.groupFreeBlocks
  groupFreeInodes : after.groupFreeInodes = fs.groupFreeInodes
  pendingFree : after.pendingFree = fs.pendingFree
  queued : after.queued = fs.queued
  released : after.released = fs.released

theorem Kept.refl (volume : Volume) (fs : Fs) : volume.Kept fs fs :=
  ⟨fun _ _ => rfl, fun _ _ => rfl, rfl, rfl, rfl, rfl, rfl, rfl, rfl⟩

theorem Kept.trans {later : Fs} (one : volume.Kept fs after) (two : volume.Kept after later)
    : volume.Kept fs later where
  blockMap group inside := (two.blockMap group inside).trans (one.blockMap group inside)
  inodeMap group inside := (two.inodeMap group inside).trans (one.inodeMap group inside)
  freeBlocksCount := two.freeBlocksCount.trans one.freeBlocksCount
  freeInodesCount := two.freeInodesCount.trans one.freeInodesCount
  groupFreeBlocks := two.groupFreeBlocks.trans one.groupFreeBlocks
  groupFreeInodes := two.groupFreeInodes.trans one.groupFreeInodes
  pendingFree := two.pendingFree.trans one.pendingFree
  queued := two.queued.trans one.queued
  released := two.released.trans one.released

theorem CountsRight.kept (counts : volume.CountsRight fs) (kept : volume.Kept fs after)
    : volume.CountsRight after := by
  refine ⟨?_, ?_, ?_, ?_⟩
  · intro group inside
    rw [kept.groupFreeBlocks, kept.blockMap group inside]
    exact counts.groupBlocks group inside
  · intro group inside
    rw [kept.groupFreeInodes, kept.inodeMap group inside]
    exact counts.groupInodes group inside
  · rw [kept.freeBlocksCount, counts.blocks]
    refine Finset.sum_congr rfl (fun group member => ?_)
    rw [kept.blockMap group (Finset.mem_range.mp member)]
  · rw [kept.freeInodesCount, counts.inodes]
    refine Finset.sum_congr rfl (fun group member => ?_)
    rw [kept.inodeMap group (Finset.mem_range.mp member)]

theorem InUse.kept (inUse : volume.InUse fs block) (kept : volume.Kept fs after)
    : volume.InUse after block := by
  obtain ⟨group, i, freeable, set⟩ := inUse
  refine ⟨group, i, freeable, ?_⟩
  rw [kept.blockMap group (blockFreeable_some freeable).2.1]
  exact set

theorem Sound.kept (sound : volume.Sound fs) (kept : volume.Kept fs after)
    (caches : volume.CachesCoherent after)
    : volume.Sound after where
  counts := sound.counts.kept kept
  caches := caches
  queue block queued := (sound.queue block (kept.pendingFree ▸ queued)).kept kept
  distinct := kept.pendingFree ▸ sound.distinct
  ledger := by
    rw [kept.queued, kept.released, kept.pendingFree]
    exact sound.ledger

variable {before disk : Nat → Memory} {bc : BitmapCache}

theorem WellLaid.inodeBitmaps_kept (laid : volume.WellLaid)
    (writes : WritesOnly volume.OwnsBlockBitmap before disk) (block : Nat)
    (mine : volume.OwnsInodeBitmap block)
    : disk block = before block := by
  refine writes block ?_
  rintro ⟨one, inside, equal⟩
  obtain ⟨two, insideToo, equalToo⟩ := mine
  exact laid.apart one inside two insideToo (equal.trans equalToo.symm)

theorem WellLaid.blockBitmaps_kept (laid : volume.WellLaid)
    (writes : WritesOnly volume.OwnsInodeBitmap before disk) (block : Nat)
    (mine : volume.OwnsBlockBitmap block)
    : disk block = before block := by
  refine writes block ?_
  rintro ⟨one, inside, equal⟩
  obtain ⟨two, insideToo, equalToo⟩ := mine
  exact laid.apart two insideToo one inside (equalToo.trans equal.symm)

theorem view_congr (same : disk block = before block)
    : bc.view disk block = bc.view before block := by
  unfold BitmapCache.view
  rw [same]

theorem kept_of_blockViews (caches : volume.CachesCoherent fs) {device : Device}
    (views
      : ∀ group < volume.groupCount,
          bc.view device.disk (volume.blockBitmap group) = volume.blockMap fs group)
    (coherent : bc.Coherent device.disk volume.OwnsBlockBitmap)
    (foreign
      : ∀ block, volume.OwnsInodeBitmap block → device.disk block = fs.device.disk block)
    : volume.Kept fs { fs with device := device, blockBitmap := bc }
      ∧ volume.CachesCoherent { fs with device := device, blockBitmap := bc } :=
  ⟨⟨views, fun group inside => view_congr (foreign _ ⟨group, inside, rfl⟩), rfl, rfl, rfl, rfl,
      rfl, rfl, rfl⟩,
    coherent, caches.inode.congr foreign⟩

theorem kept_of_inodeViews (caches : volume.CachesCoherent fs) {device : Device}
    (views
      : ∀ group < volume.groupCount,
          bc.view device.disk (volume.inodeBitmap group) = volume.inodeMap fs group)
    (coherent : bc.Coherent device.disk volume.OwnsInodeBitmap)
    (foreign
      : ∀ block, volume.OwnsBlockBitmap block → device.disk block = fs.device.disk block)
    : volume.Kept fs { fs with device := device, inodeBitmap := bc }
      ∧ volume.CachesCoherent { fs with device := device, inodeBitmap := bc } :=
  ⟨⟨fun group inside => view_congr (foreign _ ⟨group, inside, rfl⟩), views, rfl, rfl, rfl, rfl,
      rfl, rfl, rfl⟩,
    caches.block.congr foreign, coherent⟩

theorem kept_getBlockBitmap (laid : volume.WellLaid) (caches : volume.CachesCoherent fs)
    (inside : group < volume.groupCount)
    : let got := volume.bitmapGet fs.device fs.blockBitmap (volume.blockBitmap group)
      volume.Kept fs { fs with device := got.2.1, blockBitmap := got.2.2 }
      ∧ volume.CachesCoherent { fs with device := got.2.1, blockBitmap := got.2.2 }
      ∧ (got.1 = true → got.2.2.cached = volume.blockBitmap group + 1) := by
  obtain ⟨same, cached⟩ := bitmapGet_spec volume caches.block ⟨group, inside, rfl⟩
  obtain ⟨kept, coherent⟩ := kept_of_blockViews caches (fun group _ => same.view _) same.coherent
    (laid.inodeBitmaps_kept same.writes)
  exact ⟨kept, coherent, cached⟩

theorem kept_getInodeBitmap (laid : volume.WellLaid) (caches : volume.CachesCoherent fs)
    (inside : group < volume.groupCount)
    : let got := volume.bitmapGet fs.device fs.inodeBitmap (volume.inodeBitmap group)
      volume.Kept fs { fs with device := got.2.1, inodeBitmap := got.2.2 }
      ∧ volume.CachesCoherent { fs with device := got.2.1, inodeBitmap := got.2.2 }
      ∧ (got.1 = true → got.2.2.cached = volume.inodeBitmap group + 1) := by
  obtain ⟨same, cached⟩ := bitmapGet_spec volume caches.inode ⟨group, inside, rfl⟩
  obtain ⟨kept, coherent⟩ := kept_of_inodeViews caches (fun group _ => same.view _) same.coherent
    (laid.blockBitmaps_kept same.writes)
  exact ⟨kept, coherent, cached⟩

end Volume

end Panuti.Ext2
