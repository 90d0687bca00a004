import Panuti.Library.Runs
import Panuti.Ext2.InodeSteps

/-! Runs of the allocators over any calls and any outcomes of the accesses to the device. -/

namespace Panuti.Ext2.Volume

open ByteMemory Bitmap

variable {volume : Volume} {fs after : Fs}

-- What a call is to do

/-- An allocated block had a clear bit, lies where blocks may be allocated, is not queued, and is
all that was taken; where none is allocated nothing changes.
-/
def AllocBlockExact (volume : Volume) (before after : Fs) : Option Nat → Prop
  | none => volume.Kept before after
  | some block =>
      volume.firstAllocatable ≤ block ∧ block < volume.blocksCount
      ∧ block ∉ before.pendingFree
      ∧ ∃ group i, block = volume.blockAt group i
        ∧ bit (volume.blockMap before group) i = false
        ∧ volume.TookBlock before after group i

/-- A freed block is queued, once, and nothing else changes. -/
structure FreeBlockExact (volume : Volume) (before after : Fs) (block : Nat) : Prop where
  fresh : block ∉ before.pendingFree
  pendingFree : after.pendingFree = before.pendingFree ++ [block]
  queued : after.queued = before.queued ++ [block]
  released : after.released = before.released
  bitmaps
    : ∀ group < volume.groupCount,
        volume.blockMap after group = volume.blockMap before group
        ∧ volume.inodeMap after group = volume.inodeMap before group
  counts
    : after.freeBlocksCount = before.freeBlocksCount
      ∧ after.freeInodesCount = before.freeInodesCount
      ∧ after.groupFreeBlocks = before.groupFreeBlocks
      ∧ after.groupFreeInodes = before.groupFreeInodes

/-- A flush clears the bit of every queued block, all of them set before, and no other bit. -/
structure FlushExact (volume : Volume) (before after : Fs) : Prop where
  inUse : ∀ block ∈ before.pendingFree, volume.InUse before block
  bits
    : ∀ group < volume.groupCount, ∀ i,
        bit (volume.blockMap after group) i = true
          ↔ bit (volume.blockMap before group) i = true
            ∧ ∀ block ∈ before.pendingFree, volume.blockFreeable block ≠ some (group, i)
  inodeMap
    : ∀ group < volume.groupCount, volume.inodeMap after group = volume.inodeMap before group
  pendingFree : after.pendingFree = []
  queued : after.queued = before.queued
  released : after.released = before.released ++ before.pendingFree

/-- An allocated inode had a clear bit, is one that may be allocated, and is all that was taken;
where none is allocated nothing changes.
-/
def AllocInodeExact (volume : Volume) (before after : Fs) : Option Nat → Prop
  | none => volume.Kept before after
  | some inum =>
      volume.firstInode ≤ inum ∧ inum ≤ volume.inodesCount
      ∧ ∃ group i, inum = group * volume.inodesPerGroup + i + 1
        ∧ bit (volume.inodeMap before group) i = false
        ∧ volume.TookInode before after group i

/-- What a call is to answer and to do, and the counts afterwards. -/
def Outcome (volume : Volume) (before : Fs) (call : Call) (answered : Answer) (after : Fs)
    : Prop :=
  volume.CountsRight after ∧ after.queued = after.released ++ after.pendingFree
  ∧ match call, answered with
    | .allocBlock, .number found => volume.AllocBlockExact before after found
    | .freeBlock block, .status true => volume.FreeBlockExact before after block
    | .freeBlock _, .status false => volume.Kept before after
    | .flush, .status _ => volume.FlushExact before after
    | .allocInode, .number found => volume.AllocInodeExact before after found
    | .freeInode inum, .status true =>
        ∃ group i, inum = group * volume.inodesPerGroup + i + 1
          ∧ volume.FreedInode before after group i
    | .freeInode _, .status false => volume.Kept before after
    | _, _ => False

def Exact (volume : Volume) (before : Fs) (event : Event) : Prop :=
  volume.Outcome before event.call (volume.answer before event).1 (volume.answer before event).2

def AllExact (volume : Volume) (start : Fs) (events : List Event) : Prop :=
  ∀ done event rest, events = done ++ event :: rest
    → volume.Exact (Runs.run volume.step start done) event

-- When it does

/-- Blocks are allocated while the blocks of the bitmaps are in use, only blocks in use are freed,
and the accesses of a flush are done up to its last write-back.
-/
def Allowed (volume : Volume) (fs : Fs) (event : Event) : Prop :=
  match event.call with
  | .allocBlock => volume.BitmapsInUse fs
  | .freeBlock block =>
      ∀ group i, volume.blockFreeable block = some (group, i)
        → bit (volume.blockMap fs group) i = true
  | .flush =>
      (armed fs event).device.Serves
        (volume.flushAccesses fs.blockBitmap.cached fs.blockBitmap.dirty fs.pendingFree)
  | .allocInode => True
  | .freeInode _ => True

theorem kept_armed (volume : Volume) (fs : Fs) (event : Event) : volume.Kept fs (armed fs event) :=
  ⟨fun _ _ => rfl, fun _ _ => rfl, rfl, rfl, rfl, rfl, rfl, rfl, rfl⟩

theorem Sound.armed (sound : volume.Sound fs) (event : Event) : volume.Sound (armed fs event) :=
  sound.kept (kept_armed volume fs event) ⟨sound.caches.block, sound.caches.inode⟩

theorem Sound.redevice (sound : volume.Sound fs) {device : Device} (cap : Nat)
    (same : device.disk = fs.device.disk)
    : volume.Kept fs { fs with device := device, pendingFreeCap := cap }
      ∧ volume.Sound { fs with device := device, pendingFreeCap := cap } := by
  have kept : volume.Kept fs { fs with device := device, pendingFreeCap := cap } :=
    ⟨fun _ _ => view_congr (congrFun same _), fun _ _ => view_congr (congrFun same _), rfl, rfl,
      rfl, rfl, rfl, rfl, rfl⟩
  exact ⟨kept, sound.kept kept ⟨sound.caches.block.congr (fun _ _ => congrFun same _),
    sound.caches.inode.congr (fun _ _ => congrFun same _)⟩⟩

variable {block : Nat}

theorem Sound.queueBlock (sound : volume.Sound fs) (inUse : volume.InUse fs block)
    (fresh : block ∉ fs.pendingFree)
    : volume.Sound (queueBlock fs block) := by
  obtain ⟨⟨groups, inodeGroups, blocks, inodes⟩, ⟨blockCache, inodeCache⟩, queue, distinct,
    ledger⟩ := sound
  refine ⟨⟨groups, inodeGroups, blocks, inodes⟩, ⟨blockCache, inodeCache⟩, ?_, ?_, ?_⟩
  · intro other member
    rcases List.mem_append.mp member with before | here
    · exact queue other before
    · obtain rfl := List.mem_singleton.mp here
      exact inUse
  · refine List.nodup_append.mpr ⟨distinct, List.nodup_singleton _, ?_⟩
    intro one here two there same
    rw [List.mem_singleton.mp there] at same
    exact fresh (same ▸ here)
  · show fs.queued ++ [block] = fs.released ++ (fs.pendingFree ++ [block])
    rw [← List.append_assoc, ledger]

theorem freeBlock_spec (sound : volume.Sound fs)
    (used
      : ∀ group i, volume.blockFreeable block = some (group, i)
        → bit (volume.blockMap fs group) i = true)
    : (∃ after, volume.freeBlock fs block = (false, after) ∧ volume.Kept fs after
        ∧ volume.Sound after)
      ∨ ∃ after, volume.freeBlock fs block = (true, after)
        ∧ volume.FreeBlockExact fs after block ∧ volume.Sound after := by
  unfold freeBlock
  split
  · exact Or.inl ⟨fs, rfl, Kept.refl _ _, sound⟩
  · rename_i place freeable
    split
    · exact Or.inl ⟨fs, rfl, Kept.refl _ _, sound⟩
    · rename_i fresh
      have queues {device : Device} (cap : Nat) (same : device.disk = fs.device.disk)
          : volume.FreeBlockExact fs
              (Volume.queueBlock { fs with device := device, pendingFreeCap := cap } block) block
            ∧ volume.Sound
              (Volume.queueBlock { fs with device := device, pendingFreeCap := cap } block) := by
        obtain ⟨kept, soundToo⟩ := sound.redevice cap same
        have inUse : volume.InUse fs block := ⟨place.1, place.2, freeable, used _ _ freeable⟩
        exact ⟨⟨fresh, rfl, rfl, rfl,
            fun other inside => ⟨kept.blockMap other inside, kept.inodeMap other inside⟩,
            rfl, rfl, rfl, rfl⟩,
          soundToo.queueBlock (inUse.kept kept) fresh⟩
      split
      · simp only
        generalize (if fs.pendingFreeCap ≠ 0 then fs.pendingFreeCap * 2 % 2 ^ 32 else 64) = newCap
        split
        · exact Or.inl ⟨fs, rfl, Kept.refl _ _, sound⟩
        · have same := fs.device.kmalloc_disk
          split <;> rename_i given <;> rw [given] at same
          · obtain ⟨kept, soundToo⟩ := sound.redevice fs.pendingFreeCap same
            exact Or.inl ⟨_, rfl, kept, soundToo⟩
          · exact Or.inr ⟨_, rfl, queues newCap same⟩
      · exact Or.inr ⟨_, rfl, queues fs.pendingFreeCap rfl⟩

theorem FreeBit.allocatable {group i : Nat} (free : volume.FreeBit fs group i)
    (laid : volume.WellLaid)
    : volume.firstAllocatable ≤ volume.blockAt group i := by
  have table := laid.table
  by_cases first : group = 0
  · by_contra below
    exact free.allowed ⟨first, by omega⟩
  · have beyond : volume.blocksPerGroup ≤ group * volume.blocksPerGroup :=
      Nat.le_mul_of_pos_left _ (by omega)
    unfold blockAt
    omega

theorem FreeBlockExact.of_kept {later : Fs} (kept : volume.Kept fs after)
    (exactly : volume.FreeBlockExact after later block)
    : volume.FreeBlockExact fs later block where
  fresh := kept.pendingFree ▸ exactly.fresh
  pendingFree := by rw [exactly.pendingFree, kept.pendingFree]
  queued := by rw [exactly.queued, kept.queued]
  released := exactly.released.trans kept.released
  bitmaps group inside :=
    ⟨(exactly.bitmaps group inside).1.trans (kept.blockMap group inside),
      (exactly.bitmaps group inside).2.trans (kept.inodeMap group inside)⟩
  counts :=
    ⟨exactly.counts.1.trans kept.freeBlocksCount,
      exactly.counts.2.1.trans kept.freeInodesCount,
      exactly.counts.2.2.1.trans kept.groupFreeBlocks,
      exactly.counts.2.2.2.trans kept.groupFreeInodes⟩

theorem FreedInode.of_kept {later : Fs} {group i : Nat} (kept : volume.Kept fs after)
    (freed : volume.FreedInode after later group i)
    : volume.FreedInode fs later group i := by
  have map := kept.inodeMap group freed.inside
  refine ⟨freed.inside, freed.short, map ▸ freed.set, ?_⟩
  rw [← map, ← kept.freeInodesCount, ← kept.groupFreeInodes]
  exact freed.changed.of_kept kept

/-- An allowed call is exact, and keeps what holds between the calls. -/
theorem answer_spec (laid : volume.WellLaid) (sound : volume.Sound fs) (event : Event)
    (allowed : volume.Allowed fs event)
    : ∃ answered after, volume.answer fs event = (answered, after) ∧ volume.Sound after
        ∧ volume.Outcome fs event.call answered after := by
  have kept := kept_armed volume fs event
  have ready := sound.armed event
  obtain ⟨call, accesses, kmallocs⟩ := event
  cases call with
  | allocBlock =>
      have guarded : volume.BitmapsInUse fs := allowed
      simp only [answer, allocBlock]
      rcases allocBlockFrom_spec laid volume.groupCount 0 ready.caches (guarded.kept kept) with
        ⟨after, ran, unchanged, caches⟩ | ⟨after, group, i, ran, took, caches⟩
      · have soundAfter := ready.kept unchanged caches
        rw [ran]
        exact ⟨_, after, rfl, soundAfter, soundAfter.counts, soundAfter.ledger,
          kept.trans unchanged⟩
      · have soundAfter := took.sound ready caches
        have tookToo := took.of_kept kept
        rw [ran]
        exact ⟨_, after, rfl, soundAfter, soundAfter.counts, soundAfter.ledger,
          took.free.allocatable laid, blockAt_lt took.free.short,
          tookToo.free.not_queued sound.queue, group, i, rfl, tookToo.free.clear, tookToo⟩
  | freeBlock block =>
      simp only [answer]
      rcases freeBlock_spec ready (fun group i freeable => by
          rw [kept.blockMap group (blockFreeable_some freeable).2.1]
          exact allowed group i freeable) with
        ⟨after, ran, unchanged, soundAfter⟩ | ⟨after, ran, exactly, soundAfter⟩
      · rw [ran]
        exact ⟨_, after, rfl, soundAfter, soundAfter.counts, soundAfter.ledger,
          kept.trans unchanged⟩
      · rw [ran]
        exact ⟨_, after, rfl, soundAfter, soundAfter.counts, soundAfter.ledger,
          exactly.of_kept kept⟩
  | flush =>
      simp only [answer]
      obtain ⟨ok, after, ran, soundAfter, empty, bits, inodeMap, queued, released⟩ :=
        pendingFreeFlush_spec laid ready allowed
      rw [ran]
      exact ⟨_, after, rfl, soundAfter, soundAfter.counts, soundAfter.ledger,
        sound.queue, bits, inodeMap, empty, queued, released⟩
  | allocInode =>
      simp only [answer, allocInode]
      rcases allocInodeFrom_spec laid volume.groupCount 0 ready.caches with
        ⟨after, ran, unchanged, caches⟩ | ⟨after, group, i, ran, took, caches⟩
      · have soundAfter := ready.kept unchanged caches
        rw [ran]
        exact ⟨_, after, rfl, soundAfter, soundAfter.counts, soundAfter.ledger,
          kept.trans unchanged⟩
      · have soundAfter := took.sound ready caches
        have tookToo := took.of_kept kept
        rw [ran]
        exact ⟨_, after, rfl, soundAfter, soundAfter.counts, soundAfter.ledger, took.allowed,
          (inumAt_eq took.short).2, group, i, rfl, tookToo.clear, tookToo⟩
  | freeInode inum =>
      simp only [answer]
      rcases freeInode_spec laid ready inum with
        ⟨after, ran, unchanged, caches⟩ | ⟨after, group, i, ran, named, freed, caches⟩
      · have soundAfter := ready.kept unchanged caches
        rw [ran]
        exact ⟨_, after, rfl, soundAfter, soundAfter.counts, soundAfter.ledger,
          kept.trans unchanged⟩
      · have soundAfter := freed.sound ready caches
        rw [ran]
        exact ⟨_, after, rfl, soundAfter, soundAfter.counts, soundAfter.ledger, group, i, named,
          freed.of_kept kept⟩

theorem Sound.step (laid : volume.WellLaid) (sound : volume.Sound fs) (event : Event)
    (allowed : volume.Allowed fs event)
    : volume.Sound (volume.step fs event) ∧ volume.Exact fs event := by
  obtain ⟨answered, after, ran, soundAfter, outcome⟩ := answer_spec laid sound event allowed
  rw [Volume.step, Exact, ran]
  exact ⟨soundAfter, outcome⟩

/-- Where the bitmaps lie in blocks of their own and every call is made as it is allowed, every
call of a run of the allocators does what it is to do, whatever the other accesses to the device
come to, and the counts are right after each.
-/
theorem allocators_exact (volume : Volume) (laid : volume.WellLaid) (start : Fs)
    (mounted : volume.Mounted start) (events : List Event)
    (allowed : Runs.Throughout volume.step volume.Allowed start events)
    : volume.AllExact start events ∧ volume.CountsRight (Runs.run volume.step start events) := by
  have sound (done : List Event)
      (throughout : Runs.Throughout volume.step volume.Allowed start done)
      : volume.Sound (Runs.run volume.step start done) :=
    throughout.invariant volume.Sound (fun _ event holds fine => (holds.step laid event fine).1)
      mounted.sound
  constructor
  · rintro done event rest rfl
    obtain ⟨before, here, _⟩ := Runs.throughout_append.mp allowed
    exact ((sound done before).step laid event here).2
  · exact (sound events allowed).counts

/-- A volume of one group of sixteen blocks and sixteen inodes. -/
def small : Volume where
  blockSize := 1024
  hasFiletype := true
  supported := Format.kilobyte
  blocksCount := 16
  inodesCount := 16
  firstDataBlock := 1
  blocksPerGroup := 8192
  inodesPerGroup := 16
  groupCount := 1
  inodeSize := 128
  firstInode := 11
  blockBitmap := fun _ => 3
  inodeBitmap := fun _ => 4
  inodeTable := fun _ => 5
  blocksCount_lt := by decide
  inodesCount_lt := by decide
  blocksPerGroup_pos := by decide
  inodesPerGroup_pos := by decide
  blocksPerGroup_le := by decide
  inodesPerGroup_le := by decide
  groups := by decide
  groupCount_pos := by decide
  inodes := by decide
  reserved := by decide
  bitmaps_lt := by decide

/-- The small volume as it is mounted, with the blocks up to 6, block 9 and the inodes up to 11 in
use.
-/
def smallMounted : Fs where
  device :=
    { disk := fun block =>
        if block = 3 then fun i => if i = 0 then 0x3F else if i = 1 then 0x01 else 0
        else if block = 4 then fun i => if i = 0 then 0xFF else if i = 1 then 0x07 else 0
        else fun _ => 0
      accesses := []
      kmallocs := [] }
  blockBitmap := ⟨fun _ => 0, 0, false⟩
  inodeBitmap := ⟨fun _ => 0, 0, false⟩
  freeBlocksCount := 8
  freeInodesCount := 5
  groupFreeBlocks := fun _ => 8
  groupFreeInodes := fun _ => 5
  superblockDirty := false
  gdtDirty := false
  blockAllocHint := 0
  inodeAllocHint := 0
  pendingFree := []
  pendingFreeCap := 0
  queued := []
  released := []

theorem wellLaid_small : small.WellLaid where
  bitmap_pos := by decide
  blockBitmaps := by decide
  inodeBitmaps := by decide
  apart := by decide
  table := by decide
  inodesCount_small := by decide

theorem mounted_small : small.Mounted smallMounted where
  counts := by
    constructor <;> decide +kernel
  blockCache := by decide
  inodeCache := by decide
  empty := rfl
  unqueued := ⟨rfl, rfl⟩

theorem allocators_exact_small
    : small.AllExact smallMounted
        [⟨.freeBlock 9, [], []⟩, ⟨.flush, [], []⟩, ⟨.allocInode, [], []⟩]
      ∧ small.CountsRight
        (Runs.run small.step smallMounted
          [⟨.freeBlock 9, [], []⟩, ⟨.flush, [], []⟩, ⟨.allocInode, [], []⟩]) := by
  refine allocators_exact small wellLaid_small smallMounted mounted_small _
    ⟨?_, ?_, trivial, trivial⟩
  · intro group i freeable
    obtain ⟨rfl, rfl⟩ : group = 0 ∧ i = 8 := by
      have here : small.blockFreeable 9 = some (0, 8) := by decide
      rw [here] at freeable
      injection freeable with same
      injection same with sameGroup sameBit
      exact ⟨sameGroup.symm, sameBit.symm⟩
    decide +kernel
  · intro access member
    simp [armed] at member

/-- A flush whose read of the bitmap fails forgets the block it was to free. -/
theorem flush_forgets
    : ¬∀ (volume : Volume) (start : Fs) (events : List Event), volume.Mounted start
        → volume.AllExact start events := by
  intro claimed
  have exactly := claimed small smallMounted
    [⟨.freeBlock 9, [], []⟩, ⟨.flush, [.failed fun _ => 0], []⟩] mounted_small
    [⟨.freeBlock 9, [], []⟩] ⟨.flush, [.failed fun _ => 0], []⟩ [] rfl
  have flushed := exactly.2.2.released
  revert flushed
  decide +kernel

end Panuti.Ext2.Volume
