import Panuti.Ext2.Allocators

/-! A bitmap cache and the device below it make up the current bitmaps: the block held in the
cache, and the device for all others. No access, done or failed, changes them.
-/

namespace Panuti.Ext2

open ByteMemory Bitmap

/-- The current content of a block that is read through the cache. -/
def BitmapCache.view (bc : BitmapCache) (disk : Nat → Memory) (block : Nat) : Memory :=
  if bc.cached = block + 1 then bc.buf else disk block

/-- The cache holds one of the blocks `own`, and what it holds differs from the device only while
it is dirty.
-/
structure BitmapCache.Coherent (bc : BitmapCache) (disk : Nat → Memory) (own : Nat → Prop)
    : Prop where
  owned : ∀ block, bc.cached = block + 1 → own block
  held : bc.dirty = true → bc.cached ≠ 0
  clean : ∀ block, bc.cached = block + 1 → bc.dirty = false → bc.buf = disk block

/-- Only blocks of `own` may have been written. -/
def WritesOnly (own : Nat → Prop) (before after : Nat → Memory) : Prop :=
  ∀ block, ¬own block → after block = before block

variable {volume : Volume} {own : Nat → Prop}

theorem WritesOnly.refl (own : Nat → Prop) (disk : Nat → Memory) : WritesOnly own disk disk :=
  fun _ _ => rfl

variable {bc : BitmapCache} {before disk : Nat → Memory} {block : Nat}

theorem BitmapCache.Coherent.congr (coherent : bc.Coherent before own)
    (same : ∀ block, own block → disk block = before block)
    : bc.Coherent disk own where
  owned := coherent.owned
  held := coherent.held
  clean block cached clean := by
    rw [same block (coherent.owned block cached)]
    exact coherent.clean block cached clean

-- The device

theorem Device.access_disk (device : Device) : device.access.2.disk = device.disk := by
  unfold Device.access
  split <;> rfl

theorem Device.kmalloc_disk (device : Device) : device.kmalloc.2.disk = device.disk := by
  unfold Device.kmalloc
  split <;> rfl

theorem readBlock_spec (volume : Volume) (device : Device) (block : Nat) (buf : Memory)
    : (volume.readBlock device block buf).2.2.disk = device.disk
      ∧ ((volume.readBlock device block buf).1 = true
        → (volume.readBlock device block buf).2.1 = device.disk block) := by
  have same := device.access_disk
  unfold Volume.readBlock
  split
  · exact ⟨rfl, nofun⟩
  · split <;> rename_i accessed <;> rw [accessed] at same
    · exact ⟨same, fun _ => by rw [← same]⟩
    · exact ⟨same, nofun⟩

theorem writeBlock_spec (volume : Volume) (device : Device) (block : Nat) (buf : Memory)
    : (∀ other, other ≠ block
        → (volume.writeBlock device block buf).2.disk other = device.disk other)
      ∧ ((volume.writeBlock device block buf).1 = true
        → (volume.writeBlock device block buf).2.disk block = buf) := by
  have same := device.access_disk
  unfold Volume.writeBlock
  split
  · exact ⟨fun _ _ => rfl, nofun⟩
  · split <;> rename_i accessed <;> rw [accessed] at same
    · refine ⟨fun other different => ?_, fun _ => by simp⟩
      rw [← same]
      exact Function.update_of_ne different _ _
    · refine ⟨fun other different => ?_, nofun⟩
      rw [← same]
      exact Function.update_of_ne different _ _

theorem zeroBlock_other (volume : Volume) (device : Device) {other : Nat}
    (different : other ≠ block)
    : (volume.zeroBlock device block).2.disk other = device.disk other := by
  have same := device.kmalloc_disk
  unfold Volume.zeroBlock
  split <;> rename_i given <;> rw [given] at same
  · exact congrFun same other
  · rw [(writeBlock_spec volume _ block _).1 other different]
    exact congrFun same other

-- ext2_bitmap_sync and ext2_bitmap_get

/-- What is the same about the bitmaps after a call: the current content of every block, and the
blocks of others.
-/
structure SameView (own : Nat → Prop) (device : Device) (bc : BitmapCache) (after : Device)
    (afterCache : BitmapCache) : Prop where
  view : ∀ block, afterCache.view after.disk block = bc.view device.disk block
  writes : WritesOnly own device.disk after.disk
  coherent : afterCache.Coherent after.disk own

theorem SameView.other {device after : Device} {bc afterCache : BitmapCache} {block : Nat}
    (same : SameView own device bc after afterCache) (sameCached : afterCache.cached = bc.cached)
    (notHeld : ¬bc.cached = block + 1)
    : after.disk block = device.disk block := by
  have seen := same.view block
  unfold BitmapCache.view at seen
  rw [sameCached, if_neg notHeld, if_neg notHeld] at seen
  exact seen

/-- `ext2_bitmap_sync` writes the block it holds, and changes no bitmap. -/
theorem bitmapSync_spec (volume : Volume) {device : Device} (coherent : bc.Coherent device.disk own)
    : SameView own device bc (volume.bitmapSync device bc).2.1 (volume.bitmapSync device bc).2.2
      ∧ (volume.bitmapSync device bc).2.2.buf = bc.buf
      ∧ (volume.bitmapSync device bc).2.2.cached = bc.cached
      ∧ ((volume.bitmapSync device bc).1 = true
        → (volume.bitmapSync device bc).2.2.dirty = false) := by
  unfold Volume.bitmapSync
  split
  · rename_i clean
    exact ⟨⟨fun _ => rfl, WritesOnly.refl _ _, coherent⟩, rfl, rfl, fun _ => by simpa using clean⟩
  · split
    · exact ⟨⟨fun _ => rfl, WritesOnly.refl _ _, coherent⟩, rfl, rfl,
        nofun⟩
    · rename_i dirty held
      obtain ⟨block, cached⟩ : ∃ block, bc.cached = block + 1 := ⟨bc.cached - 1, by omega⟩
      have mine := coherent.owned block cached
      have target : bc.cached - 1 = block := by omega
      obtain ⟨others, stored⟩ := writeBlock_spec volume device block bc.buf
      have views (after : Device)
          (same : ∀ other, other ≠ block → after.disk other = device.disk other) (other : Nat)
          (flag : Bool)
          : ({ bc with dirty := flag } : BitmapCache).view after.disk other
            = bc.view device.disk other := by
        unfold BitmapCache.view
        by_cases here : bc.cached = other + 1
        · simp [here]
        · simp only [if_neg here]
          exact same other (by omega)
      have writes (after : Device)
          (same : ∀ other, other ≠ block → after.disk other = device.disk other)
          : WritesOnly own device.disk after.disk :=
        fun other foreign => same other (fun equal => foreign (equal ▸ mine))
      rw [target]
      split <;> rename_i wrote <;> rw [wrote] at others stored
      · refine ⟨⟨fun place => views _ others place false, writes _ others, ?_⟩, rfl, rfl, fun _ => rfl⟩
        refine ⟨coherent.owned, nofun, ?_⟩
        intro other cachedToo _
        have here : bc.cached = other + 1 := cachedToo
        obtain rfl : block = other := by omega
        exact (stored rfl).symm
      · refine ⟨⟨fun place => views _ others place bc.dirty, writes _ others, ?_⟩, rfl, rfl,
          nofun⟩
        refine ⟨coherent.owned, coherent.held, ?_⟩
        intro other _ clean
        rw [clean] at dirty
        simp at dirty

/-- `ext2_bitmap_get` changes no bitmap, and holds the block where it succeeds. -/
theorem bitmapGet_spec (volume : Volume) {device : Device} (coherent : bc.Coherent device.disk own)
    (mine : own block)
    : SameView own device bc (volume.bitmapGet device bc block).2.1
        (volume.bitmapGet device bc block).2.2
      ∧ ((volume.bitmapGet device bc block).1 = true
        → (volume.bitmapGet device bc block).2.2.cached = block + 1) := by
  unfold Volume.bitmapGet
  split
  · exact ⟨⟨fun _ => rfl, WritesOnly.refl _ _, coherent⟩, nofun⟩
  · split
    · rename_i cached
      exact ⟨⟨fun _ => rfl, WritesOnly.refl _ _, coherent⟩, fun _ => cached⟩
    · rename_i other
      obtain ⟨same, sameBuf, sameCached, cleaned⟩ := bitmapSync_spec volume coherent
      split <;> rename_i synced <;> rw [synced] at same sameBuf sameCached cleaned
      · exact ⟨same, nofun⟩
      · rename_i device' bc'
        obtain ⟨sameDisk, readIt⟩ := readBlock_spec volume device' block bc'.buf
        have onDisk (place : Nat) : bc'.view device'.disk place = device'.disk place := by
          unfold BitmapCache.view
          split
          · rename_i here
            exact same.coherent.clean place here (cleaned rfl)
          · rfl
        split <;> rename_i got <;> rw [got] at sameDisk readIt
        · refine ⟨⟨?_, ?_, ?_⟩, nofun⟩
          · intro place
            rw [← same.view place, onDisk place, ← sameDisk]
            simp [BitmapCache.view]
          · rw [sameDisk]
            exact same.writes
          · exact ⟨fun _ impossible => absurd impossible (by simp),
              fun dirty => absurd ((cleaned rfl).symm.trans dirty) (by decide),
              fun _ impossible => absurd impossible (by simp)⟩
        · have content := readIt rfl
          simp only at content sameDisk
          refine ⟨⟨?_, ?_, ?_⟩, fun _ => rfl⟩
          · intro place
            rw [← same.view place, onDisk place]
            unfold BitmapCache.view
            split
            · rename_i here
              simp only at here ⊢
              rw [content]
              congr 1
              omega
            · exact congrFun sameDisk place
          · rw [sameDisk]
            exact same.writes
          · refine ⟨fun place here => ?_, nofun,
              fun place here _ => ?_⟩
            · simp only at here
              obtain rfl : block = place := by omega
              exact mine
            · simp only at here ⊢
              obtain rfl : block = place := by omega
              rw [content, sameDisk]

-- Changing the block that is held

theorem BitmapCache.view_held (cached : bc.cached = block + 1) : bc.view disk block = bc.buf := by
  simp [BitmapCache.view, cached]

theorem BitmapCache.view_change (changed : BitmapCache) (cached : bc.cached = block + 1)
    (sameCached : changed.cached = bc.cached)
    (same : ∀ other, other ≠ block → disk other = before other) (other : Nat)
    : changed.view disk other
      = if other = block then changed.buf else bc.view before other := by
  unfold BitmapCache.view
  rw [sameCached, cached]
  by_cases here : other = block
  · simp [here]
  · have apart : ¬block + 1 = other + 1 := by omega
    simp only [if_neg here, if_neg apart]
    exact same other here

theorem BitmapCache.Coherent.dirtied (coherent : bc.Coherent before own) {changed : BitmapCache}
    (sameCached : changed.cached = bc.cached) (held : bc.cached ≠ 0) (dirty : changed.dirty = true)
    : changed.Coherent disk own where
  owned block cached := coherent.owned block (sameCached ▸ cached)
  held _ := sameCached ▸ held
  clean _ _ clean := by
    rw [dirty] at clean
    cases clean

end Panuti.Ext2
