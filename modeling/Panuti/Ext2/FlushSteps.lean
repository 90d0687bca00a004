import Panuti.Ext2.BlockSteps

/-! What a flush of the queued blocks does: where the bitmaps can be had, every queued block is
released once, and no other bit changes.
-/

namespace Panuti.Ext2

open ByteMemory Bitmap

-- Accesses that are done

/-- The next `count` accesses to the device are done. -/
def Device.Serves (device : Device) (count : Nat) : Prop :=
  ∀ access ∈ device.accesses.take count, access = .done

variable {device : Device} {count : Nat}

theorem Device.Serves.mono {less : Nat} (serves : device.Serves count) (fewer : less ≤ count)
    : device.Serves less :=
  fun access member => serves access (List.take_subset_take_left _ fewer member)

theorem Device.Serves.access (serves : device.Serves (count + 1))
    : device.access = (.done, { device with accesses := device.accesses.drop 1 }) := by
  obtain ⟨disk, accesses, kmallocs⟩ := device
  cases accesses with
  | nil => rfl
  | cons first rest =>
      obtain rfl := serves first (by simp)
      rfl

theorem Device.Serves.drop {after : Device} {more : Nat} (serves : device.Serves (count + more))
    (used : after.accesses = device.accesses.drop count)
    : after.Serves more := by
  intro access member
  refine serves access ?_
  rw [used, List.take_drop] at member
  exact List.mem_of_mem_drop member

/-- How many accesses `ext2_bitmap_get` makes when all are done. -/
def getAccesses (cached : Nat) (dirty : Bool) (block : Nat) : Nat :=
  if cached = block + 1 then 0 else if dirty then 2 else 1

/-- `ext2_bitmap_get` succeeds where its accesses are done. -/
theorem bitmapGet_served (volume : Volume) {bc : BitmapCache} {block : Nat} (notZero : block ≠ 0)
    (inside : block < volume.blocksCount)
    (writable : bc.dirty = true → bc.cached ≠ 0 ∧ bc.cached - 1 < volume.blocksCount)
    (serves : device.Serves (getAccesses bc.cached bc.dirty block))
    : (volume.bitmapGet device bc block).1 = true
      ∧ (volume.bitmapGet device bc block).2.1.accesses
        = device.accesses.drop (getAccesses bc.cached bc.dirty block) := by
  have valid : ¬(block = 0 ∨ volume.blocksCount ≤ block) := by omega
  unfold Volume.bitmapGet
  rw [if_neg valid]
  unfold getAccesses at serves ⊢
  by_cases held : bc.cached = block + 1
  · simp [held]
  · simp only [if_neg held] at serves ⊢
    have reads (device : Device) (serves : device.Serves 1) (buf : Memory)
        : volume.readBlock device block buf
          = (true, device.disk block, { device with accesses := device.accesses.drop 1 }) := by
      simp only [Volume.readBlock, if_neg (Nat.not_le.mpr inside), serves.access]
    cases dirty : bc.dirty with
    | false =>
        simp only [dirty, Bool.false_eq_true, if_false] at serves
        simp [Volume.bitmapSync, dirty, reads device serves]
    | true =>
        simp only [dirty, if_true] at serves
        obtain ⟨cached, fits⟩ := writable dirty
        have wrote : volume.writeBlock device (bc.cached - 1) bc.buf
            = (true, { device with
                accesses := device.accesses.drop 1
                disk := Function.update device.disk (bc.cached - 1) bc.buf }) := by
          simp only [Volume.writeBlock, if_neg (Nat.not_le.mpr fits), serves.access]
        have synced : volume.bitmapSync device bc
            = (true, { device with
                accesses := device.accesses.drop 1
                disk := Function.update device.disk (bc.cached - 1) bc.buf },
              { bc with dirty := false }) := by
          simp [Volume.bitmapSync, dirty, cached, wrote]
        rw [synced]
        simp only
        let after : Device := { device with
          accesses := device.accesses.drop 1
          disk := Function.update device.disk (bc.cached - 1) bc.buf }
        have servesToo : after.Serves 1 := Device.Serves.drop serves rfl
        rw [reads after servesToo]
        simp [after]

namespace Volume

variable {volume : Volume} {fs after : Fs} {group i block : Nat}

-- The release of one block

theorem blockFreeable_injective {one two : Nat}
    (first : volume.blockFreeable one = some (group, i))
    (second : volume.blockFreeable two = some (group, i))
    : one = two :=
  (blockFreeable_some first).1.trans (blockFreeable_some second).1.symm

theorem CountsRight.room (counts : volume.CountsRight fs) (inside : group < volume.groupCount)
    (short : i < volume.groupBlocks group) (set : bit (volume.blockMap fs group) i = true)
    : fs.freeBlocksCount < UINT32_MAX ∧ fs.groupFreeBlocks group < 65535 := by
  have more := clearBits_clearBit short set
  have most := clearBits_le (clearBit (volume.blockMap fs group) i) (volume.groupBlocks group)
  have cap := groupBlocks_le volume group
  have small := volume.blocksPerGroup_le
  have size := volume.supported
  have total := sum_clearBits_lt inside short set
  have volumeSize := sum_groupBlocks_le volume volume.groupCount
  have fits := volume.blocksCount_lt
  rw [counts.blocks, counts.groupBlocks group inside, UINT32_MAX]
  omega

/-- What releasing blocks did: their bits are clear, no other bit changed, and the queue stands. -/
structure Released (volume : Volume) (fs after : Fs) (blocks : List Nat) : Prop where
  bits
    : ∀ group < volume.groupCount, ∀ i,
        bit (volume.blockMap after group) i = true
          ↔ bit (volume.blockMap fs group) i = true
            ∧ ∀ block ∈ blocks, volume.blockFreeable block ≠ some (group, i)
  inodeMap : ∀ group < volume.groupCount, volume.inodeMap after group = volume.inodeMap fs group
  freeInodesCount : after.freeInodesCount = fs.freeInodesCount
  groupFreeInodes : after.groupFreeInodes = fs.groupFreeInodes
  pendingFree : after.pendingFree = fs.pendingFree
  queued : after.queued = fs.queued
  released : after.released = fs.released ++ blocks

theorem CachesCoherent.writable (caches : volume.CachesCoherent fs)
    (dirty : fs.blockBitmap.dirty = true)
    : fs.blockBitmap.cached ≠ 0 ∧ fs.blockBitmap.cached - 1 < volume.blocksCount := by
  have held := caches.block.held dirty
  obtain ⟨group, inside, same⟩ := caches.block.owned (fs.blockBitmap.cached - 1) (by omega)
  exact ⟨held, same ▸ (volume.bitmaps_lt group inside).1⟩

/-- `ext2_free_block_now` releases a block that is in use, where the bitmap can be had. -/
theorem freeBlockNow_spec (laid : volume.WellLaid) (counts : volume.CountsRight fs)
    (caches : volume.CachesCoherent fs)
    (freeable : volume.blockFreeable block = some (group, i))
    (set : bit (volume.blockMap fs group) i = true)
    (serves
      : fs.device.Serves
          (getAccesses fs.blockBitmap.cached fs.blockBitmap.dirty (volume.blockBitmap group)))
    : ∃ after, volume.freeBlockNow fs block = (true, after)
        ∧ volume.Released fs after [block] ∧ volume.CountsRight after
        ∧ volume.CachesCoherent after
        ∧ after.device.accesses
          = fs.device.accesses.drop
              (getAccesses fs.blockBitmap.cached fs.blockBitmap.dirty (volume.blockBitmap group))
        ∧ after.blockBitmap.cached = volume.blockBitmap group + 1
        ∧ after.blockBitmap.dirty = true := by
  obtain ⟨isBlock, inside, short, allowed⟩ := blockFreeable_some freeable
  obtain ⟨kept, coherent, cached⟩ := kept_getBlockBitmap laid caches inside
  obtain ⟨got, used⟩ := bitmapGet_served volume (laid.bitmap_pos group inside)
    (volume.bitmaps_lt group inside).1 caches.writable serves
  have roomBlocks := (counts.room inside short set).1
  have roomGroup := (counts.room inside short set).2
  unfold freeBlockNow
  simp only [freeable]
  split <;> rename_i ran <;> rw [ran] at kept coherent cached got used
  · cases got
  · rename_i device bc
    have here : bc.cached = volume.blockBitmap group + 1 := cached rfl
    have buffer : bc.buf = volume.blockMap fs group := by
      rw [← kept.blockMap group inside]
      exact (BitmapCache.view_held here).symm
    have isSet : bit bc.buf i = true := by
      rw [buffer]
      exact set
    simp only [isSet, Bool.not_true, Bool.false_eq_true, if_false, roomBlocks, roomGroup, if_true]
    -- the block bitmaps afterwards
    have views (other : Nat) (otherInside : other < volume.groupCount)
        : BitmapCache.view ⟨clearBit bc.buf i, bc.cached, true⟩ device.disk
            (volume.blockBitmap other)
          = if other = group then clearBit (volume.blockMap fs group) i
            else volume.blockMap fs other := by
      rw [BitmapCache.view_change ⟨clearBit bc.buf i, bc.cached, true⟩ here rfl
        (fun _ _ => rfl)]
      by_cases same : other = group
      · rw [if_pos same, if_pos (by rw [same]), buffer]
      · rw [if_neg same, if_neg (fun equal =>
          same (laid.blockBitmaps other otherInside group inside equal))]
        exact kept.blockMap other otherInside
    have more := clearBits_clearBit short set
    refine ⟨_, rfl, ⟨?_, kept.inodeMap, rfl, rfl, rfl, rfl, rfl⟩, ⟨?_, ?_, ?_, ?_⟩,
      ⟨coherent.block.dirtied rfl (by rw [here]; omega) rfl, coherent.inode⟩, used, here, rfl⟩
    · intro other otherInside place
      have view := views other otherInside
      simp only [List.mem_singleton, forall_eq, ne_eq]
      rw [Volume.blockMap, view]
      by_cases same : other = group
      · obtain rfl := same
        simp only [if_true, bit_clearBit, Bool.and_eq_true, decide_eq_true_eq, freeable,
          Option.some.injEq, Prod.mk.injEq, true_and, ne_eq]
        exact and_comm
      · simp only [if_neg same, freeable, Option.some.injEq, Prod.mk.injEq]
        exact (and_iff_left (fun both => same both.1.symm)).symm
    · intro other otherInside
      show Function.update fs.groupFreeBlocks group (fs.groupFreeBlocks group + 1) other = _
      rw [Volume.blockMap, views other otherInside]
      by_cases same : other = group
      · rw [same, if_pos rfl, Function.update_self, more, counts.groupBlocks group inside]
      · rw [if_neg same, Function.update_of_ne same]
        exact counts.groupBlocks other otherInside
    · exact (counts.kept kept).groupInodes
    · show fs.freeBlocksCount + 1 = _
      rw [counts.blocks]
      refine (sum_grows inside ?_ ?_).symm
      · rw [Volume.blockMap, views group inside, if_pos rfl]
        exact more
      · intro other otherInside different
        rw [Volume.blockMap, views other otherInside, if_neg different]
    · exact (counts.kept kept).inodes

-- The release of all queued blocks

/-- How many accesses the loop of `ext2_pending_free_flush` makes when all are done. -/
def flushAccesses (volume : Volume) : (cached : Nat) → (dirty : Bool) → List Nat → Nat
  | _, _, [] => 0
  | cached, dirty, block :: rest =>
      match volume.blockFreeable block with
      | none => flushAccesses volume cached dirty rest
      | some (group, _) =>
          getAccesses cached dirty (volume.blockBitmap group)
          + flushAccesses volume (volume.blockBitmap group + 1) true rest

theorem Released.inUse {one two : Nat} (released : volume.Released fs after [one])
    (inUse : volume.InUse fs two) (different : one ≠ two)
    : volume.InUse after two := by
  obtain ⟨group, i, freeable, set⟩ := inUse
  refine ⟨group, i, freeable, ?_⟩
  refine (released.bits group (blockFreeable_some freeable).2.1 i).mpr ⟨set, ?_⟩
  simp only [List.mem_singleton, forall_eq]
  exact fun same => different (blockFreeable_injective same freeable)

theorem Released.trans {later : Fs} {first second : List Nat}
    (one : volume.Released fs after first) (two : volume.Released after later second)
    : volume.Released fs later (first ++ second) where
  bits group inside i := by
    rw [two.bits group inside i, one.bits group inside i]
    simp only [List.mem_append, or_imp, forall_and, and_assoc]
  inodeMap group inside := (two.inodeMap group inside).trans (one.inodeMap group inside)
  freeInodesCount := two.freeInodesCount.trans one.freeInodesCount
  groupFreeInodes := two.groupFreeInodes.trans one.groupFreeInodes
  pendingFree := two.pendingFree.trans one.pendingFree
  queued := two.queued.trans one.queued
  released := by rw [two.released, one.released, List.append_assoc]

theorem flushLoop_spec (laid : volume.WellLaid) (blocks : List Nat) (counts : volume.CountsRight fs)
    (caches : volume.CachesCoherent fs) (inUse : ∀ block ∈ blocks, volume.InUse fs block)
    (distinct : blocks.Nodup)
    (serves
      : fs.device.Serves
          (volume.flushAccesses fs.blockBitmap.cached fs.blockBitmap.dirty blocks))
    : let after := blocks.foldl (fun fs block => (volume.freeBlockNow fs block).2) fs
      volume.Released fs after blocks ∧ volume.CountsRight after
      ∧ volume.CachesCoherent after := by
  induction blocks generalizing fs with
  | nil =>
      exact ⟨⟨by simp, fun _ _ => rfl, rfl, rfl, rfl, rfl, by simp⟩, counts, caches⟩
  | cons block rest ih =>
      obtain ⟨group, i, freeable, set⟩ := inUse block (by simp)
      obtain ⟨fresh, distinctRest⟩ := List.nodup_cons.mp distinct
      simp only [flushAccesses, freeable] at serves
      obtain ⟨next, ran, released, countsNext, cachesNext, used, cached, dirty⟩ :=
        freeBlockNow_spec laid counts caches freeable set
          (serves.mono (Nat.le_add_right _ _))
      have servesNext : next.device.Serves
          (volume.flushAccesses next.blockBitmap.cached next.blockBitmap.dirty rest) := by
        rw [cached, dirty]
        exact serves.drop used
      obtain ⟨releasedRest, countsRest, cachesRest⟩ := ih countsNext cachesNext
        (fun other member => released.inUse (inUse other (by simp [member]))
          (fun same => fresh (same ▸ member)))
        distinctRest servesNext
      simp only [List.foldl_cons, ran]
      exact ⟨released.trans releasedRest, countsRest, cachesRest⟩

theorem pendingFreeFlush_spec (laid : volume.WellLaid) (sound : volume.Sound fs)
    (serves
      : fs.device.Serves
          (volume.flushAccesses fs.blockBitmap.cached fs.blockBitmap.dirty fs.pendingFree))
    : ∃ ok after, volume.pendingFreeFlush fs = (ok, after) ∧ volume.Sound after
        ∧ after.pendingFree = []
        ∧ (∀ group < volume.groupCount, ∀ i,
            bit (volume.blockMap after group) i = true
              ↔ bit (volume.blockMap fs group) i = true
                ∧ ∀ block ∈ fs.pendingFree, volume.blockFreeable block ≠ some (group, i))
        ∧ (∀ group < volume.groupCount,
            volume.inodeMap after group = volume.inodeMap fs group)
        ∧ after.queued = fs.queued ∧ after.released = fs.released ++ fs.pendingFree := by
  by_cases empty : fs.pendingFree = []
  · refine ⟨true, fs, by simp [pendingFreeFlush, empty], sound, empty, ?_, fun _ _ => rfl, rfl,
      by simp [empty]⟩
    intro group _ i
    simp [empty]
  · obtain ⟨released, counts, caches⟩ := flushLoop_spec laid fs.pendingFree sound.counts
      sound.caches sound.queue sound.distinct serves
    simp only [pendingFreeFlush, if_neg empty]
    generalize fs.pendingFree.foldl (fun fs block => (volume.freeBlockNow fs block).2) fs = freed
      at released counts caches
    obtain ⟨same, _, _, _⟩ := bitmapSync_spec volume caches.block
    obtain ⟨kept, coherent⟩ := kept_of_blockViews caches (fun group _ => same.view _)
      same.coherent (laid.inodeBitmaps_kept same.writes)
    have countsAfter := counts.kept kept
    refine ⟨_, _, rfl, ⟨⟨countsAfter.groupBlocks, countsAfter.groupInodes, countsAfter.blocks,
      countsAfter.inodes⟩, ⟨coherent.block, coherent.inode⟩, by simp, by simp, ?_⟩, rfl, ?_, ?_,
      released.queued, released.released⟩
    · show freed.queued = freed.released ++ []
      rw [List.append_nil, released.queued, released.released]
      exact sound.ledger
    · intro group inside i
      have view := kept.blockMap group inside
      rw [← released.bits group inside i, ← view]
      rfl
    · intro group inside
      exact (kept.inodeMap group inside).trans (released.inodeMap group inside)

end Volume

end Panuti.Ext2
