import Panuti.Ext2.AllocatorState

/-! What an allocation of a block and the release of one do to the bitmaps, to the counts and to
the queue.
-/

namespace Panuti.Ext2.Volume

open ByteMemory Bitmap

variable {volume : Volume} {fs after : Fs} {group i block : Nat}

/-- No block that holds a bitmap can be handed out: its bit is set. -/
def BitmapsInUse (volume : Volume) (fs : Fs) : Prop :=
  ∀ block, volume.OwnsBlockBitmap block ∨ volume.OwnsInodeBitmap block
    → ∀ group i, volume.blockFreeable block = some (group, i)
      → bit (volume.blockMap fs group) i = true

/-- A clear bit of a block the allocator may take. -/
structure FreeBit (volume : Volume) (fs : Fs) (group i : Nat) : Prop where
  inside : group < volume.groupCount
  short : i < volume.groupBlocks group
  allowed : ¬(group = 0 ∧ volume.blockAt group i < volume.firstAllocatable)
  clear : bit (volume.blockMap fs group) i = false

/-- One block was taken: its bit is set, and the counts are one less. -/
structure TookBlock (volume : Volume) (fs after : Fs) (group i : Nat) : Prop where
  free : volume.FreeBit fs group i
  blockMap
    : ∀ other < volume.groupCount,
        volume.blockMap after other
          = if other = group then setBit (volume.blockMap fs group) i
            else volume.blockMap fs other
  inodeMap : ∀ other < volume.groupCount, volume.inodeMap after other = volume.inodeMap fs other
  freeBlocksCount : after.freeBlocksCount = fs.freeBlocksCount - 1
  freeInodesCount : after.freeInodesCount = fs.freeInodesCount
  groupFreeBlocks
    : after.groupFreeBlocks
      = Function.update fs.groupFreeBlocks group (fs.groupFreeBlocks group - 1)
  groupFreeInodes : after.groupFreeInodes = fs.groupFreeInodes
  pendingFree : after.pendingFree = fs.pendingFree
  queued : after.queued = fs.queued
  released : after.released = fs.released

theorem BitmapsInUse.kept (guarded : volume.BitmapsInUse fs) (kept : volume.Kept fs after)
    : volume.BitmapsInUse after := by
  intro block owned group i freeable
  rw [kept.blockMap group (blockFreeable_some freeable).2.1]
  exact guarded block owned group i freeable

theorem FreeBit.of_kept (free : volume.FreeBit after group i) (kept : volume.Kept fs after)
    : volume.FreeBit fs group i := by
  refine ⟨free.inside, free.short, free.allowed, ?_⟩
  rw [← kept.blockMap group free.inside]
  exact free.clear

theorem TookBlock.of_kept {later : Fs} (kept : volume.Kept fs after)
    (took : volume.TookBlock after later group i)
    : volume.TookBlock fs later group i where
  free := took.free.of_kept kept
  blockMap other inside := by
    rw [took.blockMap other inside, kept.blockMap other inside,
      kept.blockMap group took.free.inside]
  inodeMap other inside := (took.inodeMap other inside).trans (kept.inodeMap other inside)
  freeBlocksCount := by rw [took.freeBlocksCount, kept.freeBlocksCount]
  freeInodesCount := took.freeInodesCount.trans kept.freeInodesCount
  groupFreeBlocks := by rw [took.groupFreeBlocks, kept.groupFreeBlocks]
  groupFreeInodes := took.groupFreeInodes.trans kept.groupFreeInodes
  pendingFree := took.pendingFree.trans kept.pendingFree
  queued := took.queued.trans kept.queued
  released := took.released.trans kept.released

theorem FreeBit.not_bitmap (free : volume.FreeBit fs group i)
    (guarded : volume.BitmapsInUse fs)
    : ¬(volume.OwnsBlockBitmap (volume.blockAt group i)
        ∨ volume.OwnsInodeBitmap (volume.blockAt group i)) := by
  intro owned
  have set := guarded _ owned group i (blockFreeable_blockAt free.inside free.short free.allowed)
  rw [free.clear] at set
  cases set

theorem FreeBit.not_queued (free : volume.FreeBit fs group i)
    (queue : ∀ block ∈ fs.pendingFree, volume.InUse fs block)
    : volume.blockAt group i ∉ fs.pendingFree := by
  intro queued
  obtain ⟨one, two, freeable, set⟩ := queue _ queued
  rw [blockFreeable_blockAt free.inside free.short free.allowed] at freeable
  injection freeable with same
  injection same with sameGroup sameBit
  rw [← sameGroup, ← sameBit, free.clear] at set
  cases set

/-- The device differs from that of `fs` in the block bitmap of `group` and in blocks that hold
no bitmap.
-/
structure ChangedAt (volume : Volume) (fs : Fs) (group : Nat) (device : Device) : Prop where
  block
    : ∀ other, other ≠ volume.blockBitmap group → volume.OwnsBlockBitmap other
      → device.disk other = fs.device.disk other
  inode : ∀ other, volume.OwnsInodeBitmap other → device.disk other = fs.device.disk other

variable {device : Device}

theorem ChangedAt.zero (changed : volume.ChangedAt fs group device)
    (notBitmap : ¬(volume.OwnsBlockBitmap block ∨ volume.OwnsInodeBitmap block))
    : volume.ChangedAt fs group (volume.zeroBlock device block).2 := by
  have zeroed (other : Nat)
      (owned : volume.OwnsBlockBitmap other ∨ volume.OwnsInodeBitmap other)
      : (volume.zeroBlock device block).2.disk other = device.disk other :=
    zeroBlock_other volume device (fun same => notBitmap (same ▸ owned))
  constructor
  · intro other apart owned
    rw [zeroed other (Or.inl owned)]
    exact changed.block other apart owned
  · intro other owned
    rw [zeroed other (Or.inr owned)]
    exact changed.inode other owned

theorem ChangedAt.blockViews (changed : volume.ChangedAt fs group device) (laid : volume.WellLaid)
    (inside : group < volume.groupCount)
    (cached : fs.blockBitmap.cached = volume.blockBitmap group + 1) (bc : BitmapCache)
    (sameCached : bc.cached = fs.blockBitmap.cached) (other : Nat)
    (otherInside : other < volume.groupCount)
    : bc.view device.disk (volume.blockBitmap other)
      = if other = group then bc.buf else volume.blockMap fs other := by
  by_cases here : other = group
  · rw [if_pos here, here]
    exact BitmapCache.view_held (sameCached.trans cached)
  · have apart : volume.blockBitmap other ≠ volume.blockBitmap group :=
      fun same => here (laid.blockBitmaps other otherInside group inside same)
    have notHeld : ¬fs.blockBitmap.cached = volume.blockBitmap other + 1 := by omega
    rw [if_neg here, Volume.blockMap, BitmapCache.view, BitmapCache.view, if_neg notHeld,
      if_neg (sameCached ▸ notHeld)]
    exact changed.block _ apart ⟨other, otherInside, rfl⟩

theorem ChangedAt.restored (changed : volume.ChangedAt fs group device) (laid : volume.WellLaid)
    (caches : volume.CachesCoherent fs) (inside : group < volume.groupCount)
    (cached : fs.blockBitmap.cached = volume.blockBitmap group + 1) {bc : BitmapCache}
    (marked : bc.buf = setBit fs.blockBitmap.buf i) (sameCached : bc.cached = fs.blockBitmap.cached)
    : volume.Kept fs (restoreBlockByte fs device bc i (fs.blockBitmap.buf (i / 8)))
      ∧ volume.CachesCoherent (restoreBlockByte fs device bc i (fs.blockBitmap.buf (i / 8)))
      := by
  have held : fs.blockBitmap.cached ≠ 0 := by omega
  have bufBack : Function.update bc.buf (i / 8) (fs.blockBitmap.buf (i / 8))
      = fs.blockBitmap.buf := by
    rw [marked, update_setBit]
  refine kept_of_blockViews caches (fun other otherInside => ?_)
    (caches.block.dirtied sameCached held rfl) changed.inode
  have views := changed.blockViews laid inside cached
    ⟨Function.update bc.buf (i / 8) (fs.blockBitmap.buf (i / 8)), bc.cached, true⟩ sameCached other
    otherInside
  refine views.trans ?_
  split
  · rename_i here
    rw [here]
    exact bufBack.trans (BitmapCache.view_held cached).symm
  · rfl

theorem changedAt_sync (laid : volume.WellLaid)
    (cached : fs.blockBitmap.cached = volume.blockBitmap group + 1) {marked : BitmapCache}
    (coherent : marked.Coherent fs.device.disk volume.OwnsBlockBitmap)
    (sameCached : marked.cached = fs.blockBitmap.cached)
    : volume.ChangedAt fs group (volume.bitmapSync fs.device marked).2.1 := by
  obtain ⟨synced, _, keptCached, _⟩ := bitmapSync_spec volume coherent
  exact ⟨fun other apart _ => synced.other keptCached (by omega),
    laid.inodeBitmaps_kept synced.writes⟩

theorem takeBlock_spec (laid : volume.WellLaid) (caches : volume.CachesCoherent fs)
    (guarded : volume.BitmapsInUse fs) (free : volume.FreeBit fs group i)
    (cached : fs.blockBitmap.cached = volume.blockBitmap group + 1)
    : (∃ after, volume.takeBlock fs group i = (none, after) ∧ volume.Kept fs after
        ∧ volume.CachesCoherent after)
      ∨ ∃ after, volume.takeBlock fs group i = (some (volume.blockAt group i), after)
        ∧ volume.TookBlock fs after group i ∧ volume.CachesCoherent after := by
  have held : fs.blockBitmap.cached ≠ 0 := by omega
  have coherent : BitmapCache.Coherent
      ⟨setBit fs.blockBitmap.buf i, fs.blockBitmap.cached, true⟩ fs.device.disk
      volume.OwnsBlockBitmap :=
    caches.block.dirtied rfl held rfl
  obtain ⟨synced, sameBuf, sameCached, _⟩ := bitmapSync_spec volume coherent
  have changed := changedAt_sync laid cached coherent rfl
  unfold takeBlock
  simp only
  split <;> rename_i ran <;> rw [ran] at changed sameBuf sameCached synced
  · exact Or.inl ⟨_, rfl,
      changed.restored laid caches free.inside cached sameBuf sameCached⟩
  · rename_i device bc
    have zeroed := changed.zero (free.not_bitmap guarded)
    have coherentToo : bc.Coherent (volume.zeroBlock device (volume.blockAt group i)).2.disk
        volume.OwnsBlockBitmap :=
      synced.coherent.congr (fun other owned => zeroBlock_other volume device
        (fun same => free.not_bitmap guarded (Or.inl (same ▸ owned))))
    split <;> rename_i zero <;> rw [zero] at zeroed coherentToo
    · exact Or.inl ⟨_, rfl,
        zeroed.restored laid caches free.inside cached sameBuf sameCached⟩
    · refine Or.inr ⟨_, rfl, ⟨free, fun other inside => ?_, fun other inside => ?_, rfl, rfl, rfl,
        rfl, rfl, rfl, rfl⟩, coherentToo, caches.inode.congr zeroed.inode⟩
      · have marked : bc.buf = setBit (volume.blockMap fs group) i := by
          rw [Volume.blockMap, BitmapCache.view_held cached]
          exact sameBuf
        rw [← marked]
        exact zeroed.blockViews laid free.inside cached bc sameCached other inside
      · exact view_congr (zeroed.inode _ ⟨other, inside, rfl⟩)

theorem findBlock_some {bm : Memory} (inside : group < volume.groupCount)
    (current : volume.blockMap fs group = bm)
    (found : volume.findBlock group (volume.groupBlocks group) bm = some i)
    : volume.FreeBit fs group i := by
  unfold findBlock at found
  have chosen := List.find?_some found
  have member := List.mem_range.mp (List.mem_of_find?_eq_some found)
  simp only [Bool.and_eq_true, Bool.not_eq_true', Bool.and_eq_false_iff, beq_eq_false_iff_ne,
    decide_eq_false_iff_not, ne_eq] at chosen
  refine ⟨inside, by omega, ?_, by rw [current]; exact chosen.2⟩
  rintro ⟨first, below⟩
  rcases chosen.1 with notFirst | above
  · exact notFirst first
  · exact above below

theorem allocBlockFrom_spec (laid : volume.WellLaid) (left n : Nat)
    (caches : volume.CachesCoherent fs) (guarded : volume.BitmapsInUse fs)
    : (∃ after, volume.allocBlockFrom left n fs = (none, after) ∧ volume.Kept fs after
        ∧ volume.CachesCoherent after)
      ∨ ∃ after group i,
        volume.allocBlockFrom left n fs = (some (volume.blockAt group i), after)
        ∧ volume.TookBlock fs after group i ∧ volume.CachesCoherent after := by
  induction left generalizing n fs with
  | zero => exact Or.inl ⟨fs, rfl, Kept.refl _ _, caches⟩
  | succ left ih =>
      unfold allocBlockFrom
      simp only
      generalize sameGroup : (fs.blockAllocHint + n) % volume.groupCount = group
      have inside : group < volume.groupCount := by
        rw [← sameGroup]
        exact Nat.mod_lt _ volume.groupCount_pos
      split
      · exact ih (n + 1) caches guarded
      · obtain ⟨kept, coherent, cached⟩ := kept_getBlockBitmap laid caches inside
        split <;> rename_i got <;> rw [got] at kept coherent cached
        · exact Or.inl ⟨_, rfl, kept, coherent⟩
        · rename_i device bc
          have guardedToo := guarded.kept kept
          split
          · rcases ih (n + 1) coherent guardedToo with
              ⟨after, ran, keptToo, coherentToo⟩ | ⟨after, group, i, ran, took, coherentToo⟩
            · exact Or.inl ⟨after, ran, kept.trans keptToo, coherentToo⟩
            · exact Or.inr ⟨after, group, i, ran, took.of_kept kept, coherentToo⟩
          · rename_i i found
            have current
                : volume.blockMap { fs with device := device, blockBitmap := bc } group = bc.buf :=
              BitmapCache.view_held (cached rfl)
            have free := findBlock_some inside current found
            rcases takeBlock_spec laid coherent guardedToo free (cached rfl) with
              ⟨after, ran, keptToo, coherentToo⟩ | ⟨after, ran, took, coherentToo⟩
            · exact Or.inl ⟨after, ran, kept.trans keptToo, coherentToo⟩
            · exact Or.inr ⟨after, group, i, ran, took.of_kept kept, coherentToo⟩

/-- Taking a block keeps what holds between the calls. -/
theorem TookBlock.sound (took : volume.TookBlock fs after group i) (sound : volume.Sound fs)
    (caches : volume.CachesCoherent after)
    : volume.Sound after := by
  have one := clearBits_setBit took.free.short took.free.clear
  refine ⟨⟨?_, ?_, ?_, ?_⟩, caches, ?_, ?_, ?_⟩
  · intro other inside
    rw [took.groupFreeBlocks, took.blockMap other inside]
    by_cases here : other = group
    · rw [here, Function.update_self, if_pos rfl, sound.counts.groupBlocks group took.free.inside,
        one]
      omega
    · rw [Function.update_of_ne here, if_neg here]
      exact sound.counts.groupBlocks other inside
  · intro other inside
    rw [took.groupFreeInodes, took.inodeMap other inside]
    exact sound.counts.groupInodes other inside
  · have total : ∑ other ∈ Finset.range volume.groupCount,
          clearBits (volume.blockMap fs other) (volume.groupBlocks other)
        = (∑ other ∈ Finset.range volume.groupCount,
            clearBits (volume.blockMap after other) (volume.groupBlocks other)) + 1 := by
      refine sum_grows took.free.inside ?_ ?_
      · rw [took.blockMap group took.free.inside, if_pos rfl]
        exact one
      · intro other inside different
        rw [took.blockMap other inside, if_neg different]
    rw [took.freeBlocksCount, sound.counts.blocks, total]
    omega
  · rw [took.freeInodesCount, sound.counts.inodes]
    refine Finset.sum_congr rfl (fun other member => ?_)
    rw [took.inodeMap other (Finset.mem_range.mp member)]
  · intro block queued
    rw [took.pendingFree] at queued
    obtain ⟨one, two, freeable, set⟩ := sound.queue block queued
    refine ⟨one, two, freeable, ?_⟩
    rw [took.blockMap one (blockFreeable_some freeable).2.1]
    split
    · rename_i here
      rw [bit_setBit, ← here, set, Bool.or_true]
    · exact set
  · rw [took.pendingFree]
    exact sound.distinct
  · rw [took.queued, took.released, took.pendingFree]
    exact sound.ledger

end Panuti.Ext2.Volume
