import Panuti.Ext2.FlushSteps

/-! What an allocation of an inode and the release of one do to the bitmaps and to the counts. -/

namespace Panuti.Ext2.Volume

open ByteMemory Bitmap

variable {volume : Volume} {fs after : Fs} {group i : Nat}

/-- The inode bitmap of `group` was changed to `map`, the counts of free inodes to `all` and `count`,
and nothing else.
-/
structure InodesChanged (volume : Volume) (fs after : Fs) (group : Nat) (map : Memory)
    (all count : Nat) : Prop where
  blockMap : ∀ other < volume.groupCount, volume.blockMap after other = volume.blockMap fs other
  inodeMap
    : ∀ other < volume.groupCount,
        volume.inodeMap after other = if other = group then map else volume.inodeMap fs other
  freeBlocksCount : after.freeBlocksCount = fs.freeBlocksCount
  freeInodesCount : after.freeInodesCount = all
  groupFreeBlocks : after.groupFreeBlocks = fs.groupFreeBlocks
  groupFreeInodes : after.groupFreeInodes = Function.update fs.groupFreeInodes group count
  pendingFree : after.pendingFree = fs.pendingFree
  queued : after.queued = fs.queued
  released : after.released = fs.released

/-- One inode was taken: its bit was clear and is set, and the counts are one less. -/
structure TookInode (volume : Volume) (fs after : Fs) (group i : Nat) : Prop where
  inside : group < volume.groupCount
  short : i < volume.groupInodes group
  allowed : volume.firstInode ≤ group * volume.inodesPerGroup + i + 1
  clear : bit (volume.inodeMap fs group) i = false
  changed
    : volume.InodesChanged fs after group (setBit (volume.inodeMap fs group) i)
        (fs.freeInodesCount - 1) (fs.groupFreeInodes group - 1)

/-- One inode was freed: its bit was set and is clear, and the counts are one more. -/
structure FreedInode (volume : Volume) (fs after : Fs) (group i : Nat) : Prop where
  inside : group < volume.groupCount
  short : i < volume.groupInodes group
  set : bit (volume.inodeMap fs group) i = true
  changed
    : volume.InodesChanged fs after group (clearBit (volume.inodeMap fs group) i)
        (fs.freeInodesCount + 1) (fs.groupFreeInodes group + 1)

theorem InodesChanged.of_kept {later : Fs} {map : Memory} {all count : Nat}
    (kept : volume.Kept fs after)
    (changed : volume.InodesChanged after later group map all count)
    : volume.InodesChanged fs later group map all count where
  blockMap other inside := (changed.blockMap other inside).trans (kept.blockMap other inside)
  inodeMap other inside := by
    rw [changed.inodeMap other inside, kept.inodeMap other inside]
  freeBlocksCount := changed.freeBlocksCount.trans kept.freeBlocksCount
  freeInodesCount := changed.freeInodesCount
  groupFreeBlocks := changed.groupFreeBlocks.trans kept.groupFreeBlocks
  groupFreeInodes := by rw [changed.groupFreeInodes, kept.groupFreeInodes]
  pendingFree := changed.pendingFree.trans kept.pendingFree
  queued := changed.queued.trans kept.queued
  released := changed.released.trans kept.released

theorem TookInode.of_kept {later : Fs} (kept : volume.Kept fs after)
    (took : volume.TookInode after later group i)
    : volume.TookInode fs later group i := by
  have map := kept.inodeMap group took.inside
  refine ⟨took.inside, took.short, took.allowed, map ▸ took.clear, ?_⟩
  rw [← map, ← kept.freeInodesCount, ← kept.groupFreeInodes]
  exact took.changed.of_kept kept

theorem InodesChanged.sound {map : Memory} {all count : Nat}
    (changed : volume.InodesChanged fs after group map all count) (sound : volume.Sound fs)
    (caches : volume.CachesCoherent after)
    (counted : count = clearBits map (volume.groupInodes group))
    (total
      : all = ∑ other ∈ Finset.range volume.groupCount,
          clearBits (volume.inodeMap after other) (volume.groupInodes other))
    : volume.Sound after := by
  refine ⟨⟨?_, ?_, ?_, ?_⟩, caches, ?_, ?_, ?_⟩
  · intro other otherInside
    rw [changed.groupFreeBlocks, changed.blockMap other otherInside]
    exact sound.counts.groupBlocks other otherInside
  · intro other otherInside
    rw [changed.groupFreeInodes, changed.inodeMap other otherInside]
    by_cases here : other = group
    · rw [here, Function.update_self, if_pos rfl]
      exact counted
    · rw [Function.update_of_ne here, if_neg here]
      exact sound.counts.groupInodes other otherInside
  · rw [changed.freeBlocksCount, sound.counts.blocks]
    refine Finset.sum_congr rfl (fun other member => ?_)
    rw [changed.blockMap other (Finset.mem_range.mp member)]
  · rw [changed.freeInodesCount]
    exact total
  · intro block queued
    rw [changed.pendingFree] at queued
    obtain ⟨one, two, freeable, set⟩ := sound.queue block queued
    refine ⟨one, two, freeable, ?_⟩
    rw [changed.blockMap one (blockFreeable_some freeable).2.1]
    exact set
  · rw [changed.pendingFree]
    exact sound.distinct
  · rw [changed.queued, changed.released, changed.pendingFree]
    exact sound.ledger

theorem TookInode.sound (took : volume.TookInode fs after group i) (sound : volume.Sound fs)
    (caches : volume.CachesCoherent after)
    : volume.Sound after := by
  have one := clearBits_setBit took.short took.clear
  refine took.changed.sound sound caches ?_ ?_
  · rw [sound.counts.groupInodes group took.inside, one]
    omega
  · have total : ∑ other ∈ Finset.range volume.groupCount,
          clearBits (volume.inodeMap fs other) (volume.groupInodes other)
        = (∑ other ∈ Finset.range volume.groupCount,
            clearBits (volume.inodeMap after other) (volume.groupInodes other)) + 1 := by
      refine sum_grows took.inside ?_ ?_
      · rw [took.changed.inodeMap group took.inside, if_pos rfl]
        exact one
      · intro other inside different
        rw [took.changed.inodeMap other inside, if_neg different]
    rw [sound.counts.inodes, total]
    omega

theorem FreedInode.sound (freed : volume.FreedInode fs after group i) (sound : volume.Sound fs)
    (caches : volume.CachesCoherent after)
    : volume.Sound after := by
  have more := clearBits_clearBit freed.short freed.set
  refine freed.changed.sound sound caches ?_ ?_
  · rw [sound.counts.groupInodes group freed.inside, more]
  · rw [sound.counts.inodes]
    refine (sum_grows freed.inside ?_ ?_).symm
    · rw [freed.changed.inodeMap group freed.inside, if_pos rfl]
      exact more
    · intro other inside different
      rw [freed.changed.inodeMap other inside, if_neg different]

-- Numbers of inodes

theorem inodeAvail_eq (laid : volume.WellLaid)
    (some : group * volume.inodesPerGroup + 1 ≤ volume.inodesCount)
    : volume.inodeAvail group = volume.groupInodes group := by
  have small := laid.inodesCount_small
  have cap := volume.inodesPerGroup_le
  simp only [UINT32_MAX] at small
  unfold inodeAvail groupInodes
  simp only
  rw [Nat.mod_eq_of_lt (by omega : volume.inodesCount + 1 < 2 ^ 32)]
  omega

theorem inumAt_eq (short : i < volume.groupInodes group)
    : volume.inumAt group i = group * volume.inodesPerGroup + i + 1
      ∧ group * volume.inodesPerGroup + i + 1 ≤ volume.inodesCount := by
  have small := volume.inodesCount_lt
  unfold groupInodes at short
  unfold inumAt
  exact ⟨Nat.mod_eq_of_lt (by omega), by omega⟩

-- ext2_alloc_inode and ext2_free_inode

theorem inodeViews_change (laid : volume.WellLaid) (inside : group < volume.groupCount)
    (cached : fs.inodeBitmap.cached = volume.inodeBitmap group + 1) (changed : BitmapCache)
    (sameCached : changed.cached = fs.inodeBitmap.cached) {disk : Nat → Memory}
    (same : ∀ other, other ≠ volume.inodeBitmap group → disk other = fs.device.disk other)
    (other : Nat) (otherInside : other < volume.groupCount)
    : changed.view disk (volume.inodeBitmap other)
      = if other = group then changed.buf else volume.inodeMap fs other := by
  rw [BitmapCache.view_change changed cached sameCached same]
  by_cases here : other = group
  · rw [if_pos here, if_pos (by rw [here])]
  · rw [if_neg here, if_neg (fun equal =>
      here (laid.inodeBitmaps other otherInside group inside equal))]
    rfl

theorem takeInode_spec (laid : volume.WellLaid) (caches : volume.CachesCoherent fs)
    (inside : group < volume.groupCount) (short : i < volume.groupInodes group)
    (allowed : volume.firstInode ≤ group * volume.inodesPerGroup + i + 1)
    (clear : bit (volume.inodeMap fs group) i = false)
    (cached : fs.inodeBitmap.cached = volume.inodeBitmap group + 1)
    : (∃ after, volume.takeInode fs group i = (none, after) ∧ volume.Kept fs after
        ∧ volume.CachesCoherent after)
      ∨ ∃ after,
        volume.takeInode fs group i = (some (group * volume.inodesPerGroup + i + 1), after)
        ∧ volume.TookInode fs after group i ∧ volume.CachesCoherent after := by
  have held : fs.inodeBitmap.cached ≠ 0 := by omega
  have buffer : fs.inodeBitmap.buf = volume.inodeMap fs group :=
    (BitmapCache.view_held cached).symm
  have coherent : BitmapCache.Coherent
      ⟨setBit fs.inodeBitmap.buf i, fs.inodeBitmap.cached, true⟩ fs.device.disk
      volume.OwnsInodeBitmap :=
    caches.inode.dirtied rfl held rfl
  obtain ⟨synced, sameBuf, sameCached, _⟩ := bitmapSync_spec volume coherent
  have foreign := laid.blockBitmaps_kept synced.writes
  have others (other : Nat) (apart : other ≠ volume.inodeBitmap group) :=
    @SameView.other _ _ _ _ _ other synced sameCached (by simp only; omega)
  unfold takeInode
  simp only
  split <;> rename_i ran <;> rw [ran] at sameBuf sameCached synced foreign others
  · rename_i device bc
    refine Or.inl ⟨_, rfl, kept_of_inodeViews caches (fun other otherInside => ?_)
      (caches.inode.dirtied sameCached held rfl) foreign⟩
    have views := inodeViews_change laid inside cached
      ⟨Function.update bc.buf (i / 8) (fs.inodeBitmap.buf (i / 8)), bc.cached, true⟩ sameCached
      others other otherInside
    refine views.trans ?_
    split
    · rename_i here
      rw [here, ← buffer]
      exact (congrArg (fun buf => Function.update buf (i / 8) (fs.inodeBitmap.buf (i / 8)))
        sameBuf).trans (update_setBit _ _)
    · rfl
  · rename_i device bc
    rw [(inumAt_eq short).1]
    refine Or.inr ⟨_, rfl, ⟨inside, short, allowed, clear,
      ⟨fun other otherInside => view_congr (foreign _ ⟨other, otherInside, rfl⟩),
        fun other otherInside => ?_, rfl, rfl, rfl, rfl, rfl, rfl, rfl⟩⟩,
      caches.block.congr foreign, synced.coherent⟩
    rw [← buffer]
    refine (inodeViews_change laid inside cached bc sameCached others other otherInside).trans ?_
    rw [show bc.buf = setBit fs.inodeBitmap.buf i from sameBuf]

/-- `ext2_alloc_inode` either changes nothing or takes exactly one inode. -/
theorem allocInodeFrom_spec (laid : volume.WellLaid) (left n : Nat)
    (caches : volume.CachesCoherent fs)
    : (∃ after, volume.allocInodeFrom left n fs = (none, after) ∧ volume.Kept fs after
        ∧ volume.CachesCoherent after)
      ∨ ∃ after group i,
        volume.allocInodeFrom left n fs
          = (some (group * volume.inodesPerGroup + i + 1), after)
        ∧ volume.TookInode fs after group i ∧ volume.CachesCoherent after := by
  induction left generalizing n fs with
  | zero => exact Or.inl ⟨fs, rfl, Kept.refl _ _, caches⟩
  | succ left ih =>
      unfold allocInodeFrom
      simp only
      generalize sameGroup : (fs.inodeAllocHint + n) % volume.groupCount = group
      have inside : group < volume.groupCount := by
        rw [← sameGroup]
        exact Nat.mod_lt _ volume.groupCount_pos
      obtain ⟨kept, coherent, cached⟩ := kept_getInodeBitmap laid caches inside
      split <;> rename_i got <;> rw [got] at kept coherent cached
      · exact Or.inl ⟨_, rfl, kept, coherent⟩
      · rename_i device bc
        have further
            (ran
              : (∃ later, volume.allocInodeFrom left (n + 1)
                    { fs with device := device, inodeBitmap := bc } = (none, later)
                  ∧ volume.Kept { fs with device := device, inodeBitmap := bc } later
                  ∧ volume.CachesCoherent later)
                ∨ ∃ later group i, volume.allocInodeFrom left (n + 1)
                    { fs with device := device, inodeBitmap := bc }
                    = (some (group * volume.inodesPerGroup + i + 1), later)
                  ∧ volume.TookInode { fs with device := device, inodeBitmap := bc } later group i
                  ∧ volume.CachesCoherent later)
            : (∃ later, volume.allocInodeFrom left (n + 1)
                  { fs with device := device, inodeBitmap := bc } = (none, later)
                ∧ volume.Kept fs later ∧ volume.CachesCoherent later)
              ∨ ∃ later group i, volume.allocInodeFrom left (n + 1)
                  { fs with device := device, inodeBitmap := bc }
                  = (some (group * volume.inodesPerGroup + i + 1), later)
                ∧ volume.TookInode fs later group i ∧ volume.CachesCoherent later := by
          rcases ran with ⟨later, ran, keptToo, coherentToo⟩ |
            ⟨later, group, i, ran, took, coherentToo⟩
          · exact Or.inl ⟨later, ran, kept.trans keptToo, coherentToo⟩
          · exact Or.inr ⟨later, group, i, ran, took.of_kept kept, coherentToo⟩
        split
        · exact further (ih (n + 1) coherent)
        · rename_i notBeyond
          split
          · exact further (ih (n + 1) coherent)
          · rename_i i found
            have current
                : volume.inodeMap { fs with device := device, inodeBitmap := bc } group = bc.buf :=
              BitmapCache.view_held (cached rfl)
            unfold findInode at found
            have chosen := List.find?_some found
            have member := List.mem_range.mp (List.mem_of_find?_eq_some found)
            rw [inodeAvail_eq laid (by omega)] at member
            simp only [Bool.and_eq_true, decide_eq_true_eq, Bool.not_eq_true',
              (inumAt_eq member).1] at chosen
            rcases takeInode_spec laid coherent inside member chosen.1
              (current ▸ chosen.2) (cached rfl) with
              ⟨after, ran, keptToo, coherentToo⟩ | ⟨after, ran, took, coherentToo⟩
            · exact Or.inl ⟨after, ran, kept.trans keptToo, coherentToo⟩
            · exact Or.inr ⟨after, group, i, ran, took.of_kept kept, coherentToo⟩

theorem CountsRight.inodeRoom (counts : volume.CountsRight fs)
    (inside : group < volume.groupCount) (short : i < volume.groupInodes group)
    (set : bit (volume.inodeMap fs group) i = true)
    : fs.freeInodesCount + 1 < 2 ^ 32 ∧ fs.groupFreeInodes group + 1 < 2 ^ 16 := by
  have more := clearBits_clearBit short set
  have most := clearBits_le (clearBit (volume.inodeMap fs group) i) (volume.groupInodes group)
  have small := volume.inodesPerGroup_le
  have size := volume.supported
  have cap : volume.groupInodes group ≤ volume.inodesPerGroup := Nat.min_le_left _ _
  have total := sum_clearBits_lt inside short set
  have volumeSize := sum_groupInodes_le volume volume.groupCount
  have fits := volume.inodesCount_lt
  rw [counts.inodes, counts.groupInodes group inside]
  omega

/-- `ext2_free_inode` either changes nothing or frees exactly the inode. -/
theorem freeInode_spec (laid : volume.WellLaid) (sound : volume.Sound fs) (inum : Nat)
    : (∃ after, volume.freeInode fs inum = (false, after) ∧ volume.Kept fs after
        ∧ volume.CachesCoherent after)
      ∨ ∃ after group i, volume.freeInode fs inum = (true, after)
        ∧ inum = group * volume.inodesPerGroup + i + 1
        ∧ volume.FreedInode fs after group i ∧ volume.CachesCoherent after := by
  have caches := sound.caches
  unfold freeInode
  split
  · exact Or.inl ⟨fs, rfl, Kept.refl _ _, caches⟩
  · rename_i allowed
    simp only
    split
    · exact Or.inl ⟨fs, rfl, Kept.refl _ _, caches⟩
    · rename_i inGroups
      split
      · exact Or.inl ⟨fs, rfl, Kept.refl _ _, caches⟩
      · have reserved := volume.reserved
        have positive := volume.inodesPerGroup_pos
        have split := Nat.div_add_mod (inum - 1) volume.inodesPerGroup
        have small := Nat.mod_lt (inum - 1) positive
        rw [Nat.mul_comm] at split
        generalize (inum - 1) / volume.inodesPerGroup = group at inGroups split ⊢
        generalize (inum - 1) % volume.inodesPerGroup = i at small split ⊢
        have inside : group < volume.groupCount := by omega
        have short : i < volume.groupInodes group := by
          unfold groupInodes
          omega
        obtain ⟨kept, coherent, cached⟩ := kept_getInodeBitmap laid caches inside
        split <;> rename_i got <;> rw [got] at kept coherent cached
        · exact Or.inl ⟨_, rfl, kept, coherent⟩
        · rename_i device bc
          have here : bc.cached = volume.inodeBitmap group + 1 := cached rfl
          have buffer : bc.buf = volume.inodeMap fs group := by
            rw [← kept.inodeMap group inside]
            exact (BitmapCache.view_held here).symm
          by_cases set : bit bc.buf i = true
          · simp only [set, Bool.not_true, Bool.false_eq_true, if_false]
            obtain ⟨room, roomGroup⟩ := sound.counts.inodeRoom inside short (buffer ▸ set)
            rw [Nat.mod_eq_of_lt room, Nat.mod_eq_of_lt roomGroup]
            refine Or.inr ⟨_, group, i, rfl, by omega, ⟨inside, short, buffer ▸ set,
              ⟨kept.blockMap, fun other otherInside => ?_, rfl, rfl, rfl, rfl, rfl, rfl, rfl⟩⟩,
              ⟨coherent.block, coherent.inode.dirtied rfl (by rw [here]; omega) rfl⟩⟩
            rw [← buffer]
            have views := @inodeViews_change volume
              { fs with device := device, inodeBitmap := bc } group laid inside here
              ⟨clearBit bc.buf i, bc.cached, true⟩ rfl device.disk (fun _ _ => rfl) other
              otherInside
            refine views.trans ?_
            split
            · rfl
            · exact kept.inodeMap other otherInside
          · simp only [Bool.not_eq_true] at set
            simp only [set, Bool.not_false, if_true]
            exact Or.inl ⟨_, rfl, kept, coherent⟩

end Panuti.Ext2.Volume
