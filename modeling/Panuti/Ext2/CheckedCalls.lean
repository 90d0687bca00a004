import Panuti.Ext2.Mount
import Panuti.Ext2.AllocatorState

/-! The allocators with every 32-bit operation checked and every access to a bitmap checked to lie
inside of its block. Where these have a result they are the allocators, so the plain sums of the
allocators are the sums the machine forms.
-/

namespace Panuti.Ext2.Checked

open ByteMemory Bitmap

variable (volume : Volume)

-- Blocks

/-- `ext2_first_allocatable`. -/
def firstAllocatable : Option Nat := do
  let bytes ← Word32.mul volume.inodeSize volume.inodesPerGroup
  let itables ← divCeil32 bytes volume.blockSize
  Word32.add (volume.inodeTable 0) itables

/-- The bit of a bitmap, `bm[i >> 3] & (1u << (i & 7))`, if its byte lies in the block. -/
def bitOf (bm : Memory) (i : Nat) : Option Bool :=
  if i / 8 < volume.blockSize then some (bit bm i) else none

/-- `ext2_bitmap_get`, whose one sum is the number of the block plus one. -/
def bitmapGet (device : Device) (bc : BitmapCache) (bitmapBlock : Nat)
    : Option (Bool × Device × BitmapCache) := do
  if bitmapBlock = 0 ∨ volume.blocksCount ≤ bitmapBlock then return (false, device, bc)
  let _ ← Word32.add bitmapBlock 1
  return volume.bitmapGet device bc bitmapBlock

/-- The loop over the bits of a group in `ext2_alloc_block`, with `left` bits to go. -/
def findBlock (group : Nat) (bm : Memory) : (left i : Nat) → Option (Option Nat)
  | 0, _ => some none
  | left + 1, i => do
      let row ← Word32.mul group volume.blocksPerGroup
      let start ← Word32.add row volume.firstDataBlock
      let block ← Word32.add start i
      let first ← if group = 0 then firstAllocatable volume else some 0
      if block < first then findBlock group bm left (i + 1)
      else if ← bitOf volume bm i then findBlock group bm left (i + 1)
      else return some i

/-- The loop over the groups in `ext2_alloc_block`. -/
def allocBlockFrom : (left n : Nat) → Fs → Option (Option Nat × Fs)
  | 0, _, fs => some (none, fs)
  | left + 1, n, fs => do
      let sum ← Word32.add fs.blockAllocHint n
      let group ← Word32.mod sum volume.groupCount
      let avail := volume.groupBlocks group
      if avail = 0 then allocBlockFrom left (n + 1) fs
      else
        let bitCap ← Word32.mul volume.blockSize 8
        match ← bitmapGet volume fs.device fs.blockBitmap (volume.blockBitmap group) with
        | (false, device, bc) => return (none, { fs with device := device, blockBitmap := bc })
        | (true, device, bc) =>
            let fs := { fs with device := device, blockBitmap := bc }
            match ← findBlock volume group bc.buf (min avail bitCap) 0 with
            | none => allocBlockFrom left (n + 1) fs
            | some i => return volume.takeBlock fs group i

/-- `ext2_block_freeable`. -/
def blockFreeable (block : Nat) : Option (Option (Nat × Nat)) := do
  if block < volume.firstDataBlock then return none
  let rel ← Word32.sub block volume.firstDataBlock
  let group ← Word32.div rel volume.blocksPerGroup
  let i ← Word32.mod rel volume.blocksPerGroup
  let bitCap ← Word32.mul volume.blockSize 8
  if volume.groupCount ≤ group ∨ bitCap ≤ i ∨ volume.groupBlocks group ≤ i then return none
  let first ← if group = 0 then firstAllocatable volume else some 0
  if block < first then return none
  return some (group, i)

/-- `ext2_free_block_now`; the counts saturate. -/
def freeBlockNow (fs : Fs) (block : Nat) : Option (Bool × Fs) := do
  match ← blockFreeable volume block with
  | none => return (false, fs)
  | some (group, i) =>
      match ← bitmapGet volume fs.device fs.blockBitmap (volume.blockBitmap group) with
      | (false, _, _) => return volume.freeBlockNow fs block
      | (true, _, bc) =>
          let _ ← bitOf volume bc.buf i
          return volume.freeBlockNow fs block

def grownCap (cap : Nat) : Option Nat := if cap ≠ 0 then Word32.mul cap 2 else some 64

/-- `ext2_free_block`. -/
def freeBlock (fs : Fs) (block : Nat) : Option (Bool × Fs) := do
  match ← blockFreeable volume block with
  | none => return (false, fs)
  | some _ =>
      if block ∈ fs.pendingFree then return (false, fs)
      else if fs.pendingFree.length = fs.pendingFreeCap then
        let newCap ← grownCap fs.pendingFreeCap
        if newCap < fs.pendingFreeCap ∨ UINT32_MAX / 4 < newCap then return (false, fs)
        else
          let _ ← Word32.mul newCap 4
          let _ ← Word32.mul fs.pendingFree.length 4
          let _ ← Word32.add fs.pendingFree.length 1
          return volume.freeBlock fs block
      else
        let _ ← Word32.add fs.pendingFree.length 1
        return volume.freeBlock fs block

/-- The loop of `ext2_pending_free_flush`. -/
def freeAll : List Nat → Fs → Option Fs
  | [], fs => some fs
  | block :: rest, fs => do
      let (_, fs) ← freeBlockNow volume fs block
      freeAll rest fs

/-- `ext2_pending_free_flush`. -/
def pendingFreeFlush (fs : Fs) : Option (Bool × Fs) := do
  if fs.pendingFree = [] then return (true, fs)
  let _ ← freeAll volume fs.pendingFree fs
  return volume.pendingFreeFlush fs

-- Inodes

/-- How many bits of a group `ext2_alloc_inode` looks at; `left` is of 64 bits, but one is added
to the count before it is widened.
-/
def inodeAvail (group : Nat) : Option Nat := do
  let past ← Word32.add volume.inodesCount 1
  let left := (past + 2 ^ 64 - (group * volume.inodesPerGroup + 1)) % 2 ^ 64
  let bitCap ← Word32.mul volume.blockSize 8
  return min (min volume.inodesPerGroup left) bitCap

/-- The loop over the bits of a group in `ext2_alloc_inode`, with `left` bits to go. -/
def findInode (group : Nat) (bm : Memory) : (left i : Nat) → Option (Option Nat)
  | 0, _ => some none
  | left + 1, i => do
      let row ← Word32.mul group volume.inodesPerGroup
      let before ← Word32.add row i
      let inum ← Word32.add before 1
      if inum < volume.firstInode then findInode group bm left (i + 1)
      else if ← bitOf volume bm i then findInode group bm left (i + 1)
      else return some i

/-- The loop over the groups in `ext2_alloc_inode`. -/
def allocInodeFrom : (left n : Nat) → Fs → Option (Option Nat × Fs)
  | 0, _, fs => some (none, fs)
  | left + 1, n, fs => do
      let sum ← Word32.add fs.inodeAllocHint n
      let group ← Word32.mod sum volume.groupCount
      match ← bitmapGet volume fs.device fs.inodeBitmap (volume.inodeBitmap group) with
      | (false, device, bc) => return (none, { fs with device := device, inodeBitmap := bc })
      | (true, device, bc) =>
          let fs := { fs with device := device, inodeBitmap := bc }
          let avail ← inodeAvail volume group
          if volume.inodesCount < group * volume.inodesPerGroup + 1 then
            allocInodeFrom left (n + 1) fs
          else
            match ← findInode volume group bc.buf avail 0 with
            | none => allocInodeFrom left (n + 1) fs
            | some i => return volume.takeInode fs group i

/-- `ext2_free_inode`; the count of the volume is not saturated, and the one of the group is
narrowed to 16 bits behind an addition of 32.
-/
def freeInode (fs : Fs) (inum : Nat) : Option (Bool × Fs) := do
  if inum < volume.firstInode ∨ volume.inodesCount < inum then return (false, fs)
  let before ← Word32.sub inum 1
  let group ← Word32.div before volume.inodesPerGroup
  if volume.groupCount ≤ group then return (false, fs)
  let i ← Word32.mod before volume.inodesPerGroup
  let bitCap ← Word32.mul volume.blockSize 8
  if bitCap ≤ i then return (false, fs)
  match ← bitmapGet volume fs.device fs.inodeBitmap (volume.inodeBitmap group) with
  | (false, _, _) => return volume.freeInode fs inum
  | (true, _, bc) =>
      if ← bitOf volume bc.buf i then
        let _ ← Word32.add fs.freeInodesCount 1
        return volume.freeInode fs inum
      else return volume.freeInode fs inum

-- Calls

def answer (fs : Fs) (event : Volume.Event) : Option (Volume.Answer × Fs) :=
  let fs := Volume.armed fs event
  match event.call with
  | .allocBlock => (allocBlockFrom volume volume.groupCount 0 fs).map fun (found, fs) =>
      (.number found, fs)
  | .freeBlock block => (freeBlock volume fs block).map fun (ok, fs) => (.status ok, fs)
  | .flush => (pendingFreeFlush volume fs).map fun (ok, fs) => (.status ok, fs)
  | .allocInode => (allocInodeFrom volume volume.groupCount 0 fs).map fun (found, fs) =>
      (.number found, fs)
  | .freeInode inum => (freeInode volume fs inum).map fun (ok, fs) => (.status ok, fs)

-- Nothing wraps

/-- What the checks of a mount say about a volume beyond its own fields. -/
structure Bounded (volume : Volume) : Prop where
  inodeSize : 0 < volume.inodeSize ∧ volume.inodeSize ≤ 256
  tables
    : ∀ group < volume.groupCount,
        volume.inodeTable group
          + divCeil (volume.inodeSize * volume.inodesPerGroup) volume.blockSize
        ≤ volume.blocksCount
  groups : volume.groupCount * GROUP_DESC_SIZE ≤ UINT32_MAX

variable {volume}

theorem Bounded.firstAllocatable (bounded : Bounded volume)
    : Checked.firstAllocatable volume = some volume.firstAllocatable := by
  have supported := volume.supported
  have perGroup := volume.inodesPerGroup_le
  have size := bounded.inodeSize
  have table := bounded.tables 0 volume.groupCount_pos
  have blocks := volume.blocksCount_lt
  have bytes : volume.inodeSize * volume.inodesPerGroup < 2 ^ 32 := by
    have := Nat.mul_le_mul size.2 perGroup
    omega
  simp only [Checked.firstAllocatable, Word32.mul_of_lt bytes,
    divCeil32_of_lt (show 0 < volume.blockSize by omega) bytes, Option.bind_eq_bind,
    Option.bind_some]
  exact Word32.add_of_lt (by omega)

theorem bitCap_eq (volume : Volume) : Word32.mul volume.blockSize 8 = some (volume.blockSize * 8) :=
  Word32.mul_of_lt (by
    have := volume.supported
    omega)

variable {i group : Nat}

theorem bitOf_eq {bm : Memory} (inside : i < volume.blockSize * 8)
    : bitOf volume bm i = some (bit bm i) :=
  if_pos (by omega)

theorem bitmapGet_eq (volume : Volume) (device : Device) (bc : BitmapCache) (block : Nat)
    : bitmapGet volume device bc block = some (volume.bitmapGet device bc block) := by
  have blocks := volume.blocksCount_lt
  unfold bitmapGet
  split
  · rename_i refused
    rw [Volume.bitmapGet, if_pos refused]
    rfl
  · rename_i held
    rw [Word32.add_of_lt (by omega)]
    rfl

theorem blockAt_eq (inside : i < volume.groupBlocks group)
    : Word32.mul group volume.blocksPerGroup = some (group * volume.blocksPerGroup)
      ∧ Word32.add (group * volume.blocksPerGroup) volume.firstDataBlock
        = some (group * volume.blocksPerGroup + volume.firstDataBlock)
      ∧ Word32.add (group * volume.blocksPerGroup + volume.firstDataBlock) i
        = some (volume.blockAt group i) := by
  have blocks := volume.blocksCount_lt
  have small := Volume.blockAt_lt inside
  unfold Volume.blockAt at small ⊢
  exact ⟨Word32.mul_of_lt (by omega), Word32.add_of_lt (by omega), Word32.add_of_lt (by omega)⟩

theorem Bounded.findBlock (bounded : Bounded volume) (bm : Memory) {left : Nat}
    (inside : i + left ≤ min (volume.groupBlocks group) (volume.blockSize * 8))
    : Checked.findBlock volume group bm left i
      = some ((List.range' i left).find? fun i =>
          !(group == 0 && decide (volume.blockAt group i < volume.firstAllocatable))
            && !bit bm i) := by
  induction left generalizing i with
  | zero => rfl
  | succ left ih =>
      have short : i < volume.groupBlocks group := by omega
      obtain ⟨row, start, block⟩ := blockAt_eq short
      have later := @ih (i + 1) (by omega)
      simp only [Checked.findBlock, row, start, block, bounded.firstAllocatable,
        bitOf_eq (show i < volume.blockSize * 8 by omega), Option.bind_eq_bind,
        Option.bind_some, later, List.range'_succ, List.find?_cons]
      by_cases first : group = 0
      · subst first
        simp only [if_true, beq_self_eq_true, Bool.true_and]
        by_cases reserved : volume.blockAt 0 i < volume.firstAllocatable
        · simp [reserved]
        · cases bit bm i <;> simp [reserved]
      · simp only [if_neg first, Nat.not_lt_zero, if_false,
          beq_eq_false_iff_ne.mpr first, Bool.false_and, Bool.not_false, Bool.true_and]
        cases bit bm i <;> simp

/-- What the allocators of blocks rely on between the calls. -/
structure Ranged (volume : Volume) (fs : Fs) : Prop where
  blockHint : fs.blockAllocHint < volume.groupCount
  inodeHint : fs.inodeAllocHint < volume.groupCount
  cap : fs.pendingFreeCap < 2 ^ 30
  queue : fs.pendingFree.length ≤ fs.pendingFreeCap

theorem Bounded.turn (bounded : Bounded volume) {hint n : Nat} (inside : hint < volume.groupCount)
    (early : n < volume.groupCount)
    : Word32.add hint n = some (hint + n)
      ∧ Word32.mod (hint + n) volume.groupCount = some ((hint + n) % volume.groupCount) := by
  have groups := bounded.groups
  simp only [GROUP_DESC_SIZE, UINT32_MAX] at groups
  exact ⟨Word32.add_of_lt (by omega), Word32.mod_of_pos (by omega)⟩

theorem Bounded.allocBlockFrom (bounded : Bounded volume) (left : Nat) {n : Nat} {fs : Fs}
    (inside : fs.blockAllocHint < volume.groupCount) (turns : n + left ≤ volume.groupCount)
    : Checked.allocBlockFrom volume left n fs = some (volume.allocBlockFrom left n fs) := by
  induction left generalizing n fs with
  | zero => rfl
  | succ left ih =>
      obtain ⟨sum, group⟩ := bounded.turn inside (show n < volume.groupCount by omega)
      simp only [Checked.allocBlockFrom, Volume.allocBlockFrom, sum, group, bitCap_eq,
        bitmapGet_eq, Option.bind_eq_bind, Option.bind_some]
      generalize (fs.blockAllocHint + n) % volume.groupCount = group
      split
      · exact @ih (n + 1) _ inside (by omega)
      · rcases got : volume.bitmapGet fs.device fs.blockBitmap (volume.blockBitmap group) with
          ⟨_ | _, device, bc⟩
        · rfl
        · have found : Checked.findBlock volume group bc.buf
              (min (volume.groupBlocks group) (volume.blockSize * 8)) 0
              = some (volume.findBlock group (volume.groupBlocks group) bc.buf) := by
            rw [Volume.findBlock, List.range_eq_range']
            exact bounded.findBlock bc.buf (by omega)
          simp only [found, Option.bind_some]
          cases volume.findBlock group (volume.groupBlocks group) bc.buf with
          | none => exact @ih (n + 1) _ inside (by omega)
          | some i => rfl

theorem Bounded.blockFreeable (bounded : Bounded volume) (block : Nat)
    : Checked.blockFreeable volume block = some (volume.blockFreeable block) := by
  unfold Checked.blockFreeable Volume.blockFreeable
  split
  · rfl
  · rename_i data
    simp only [Word32.sub_of_le (Nat.not_lt.mp data), Word32.div_of_pos volume.blocksPerGroup_pos,
      Word32.mod_of_pos volume.blocksPerGroup_pos, bitCap_eq, bounded.firstAllocatable,
      Option.bind_eq_bind, Option.bind_some]
    split
    · rfl
    · by_cases first : (block - volume.firstDataBlock) / volume.blocksPerGroup = 0
      · simp only [first, if_true, true_and]
        split <;> rfl
      · simp only [first, if_false, false_and, Nat.not_lt_zero]
        rfl

theorem blockFreeable_bit {block : Nat} (freeable : volume.blockFreeable block = some (group, i))
    : i < volume.blockSize * 8 := by
  unfold Volume.blockFreeable at freeable
  split at freeable
  · cases freeable
  · simp only at freeable
    split at freeable
    · cases freeable
    · rename_i inside
      split at freeable
      · cases freeable
      · injection freeable with same
        injection same with _ sameBit
        simp only [not_or, Nat.not_le] at inside
        omega

theorem Bounded.freeBlockNow (bounded : Bounded volume) (fs : Fs) (block : Nat)
    : Checked.freeBlockNow volume fs block = some (volume.freeBlockNow fs block) := by
  simp only [Checked.freeBlockNow, bounded.blockFreeable, bitmapGet_eq, Option.bind_eq_bind,
    Option.bind_some]
  cases freeable : volume.blockFreeable block with
  | none => simp [Volume.freeBlockNow, freeable]
  | some place =>
      obtain ⟨group, i⟩ := place
      have short := blockFreeable_bit freeable
      simp only
      split
      · rfl
      · simp only [bitOf_eq short, Option.bind_some]
        rfl

/-- The queue grows within what its capacity allows. -/
theorem Bounded.freeBlock (bounded : Bounded volume) {fs : Fs} (ranged : Ranged volume fs)
    (block : Nat)
    : Checked.freeBlock volume fs block = some (volume.freeBlock fs block) := by
  have cap := ranged.cap
  have queue := ranged.queue
  simp only [Checked.freeBlock, bounded.blockFreeable, Option.bind_eq_bind, Option.bind_some]
  cases freeable : volume.blockFreeable block with
  | none => simp [Volume.freeBlock, freeable]
  | some place =>
      simp only
      split
      · rename_i queued
        simp [Volume.freeBlock, freeable, queued]
      · rename_i fresh
        split
        · rename_i full
          have doubled : Word32.mul fs.pendingFreeCap 2 = some (fs.pendingFreeCap * 2 % 2 ^ 32) := by
            rw [Word32.mul_of_lt (by omega), Nat.mod_eq_of_lt (by omega)]
          have grown : grownCap fs.pendingFreeCap
              = some (if fs.pendingFreeCap ≠ 0 then fs.pendingFreeCap * 2 % 2 ^ 32 else 64) := by
            rw [grownCap, doubled]
            split <;> rfl
          simp only [grown, Option.bind_some, Volume.freeBlock, freeable, if_neg fresh, if_pos full]
          generalize (if fs.pendingFreeCap ≠ 0 then fs.pendingFreeCap * 2 % 2 ^ 32 else 64) = newCap
          split
          · rfl
          · rename_i room
            simp only [not_or, Nat.not_lt, UINT32_MAX] at room
            rw [Word32.mul_of_lt (by omega), Word32.mul_of_lt (by omega),
              Word32.add_of_lt (by omega)]
            rfl
        · rw [Word32.add_of_lt (by omega)]
          rfl

theorem Bounded.freeAll (bounded : Bounded volume) (blocks : List Nat) (fs : Fs)
    : Checked.freeAll volume blocks fs
      = some (blocks.foldl (fun fs block => (volume.freeBlockNow fs block).2) fs) := by
  induction blocks generalizing fs with
  | nil => rfl
  | cons block rest ih =>
      simp only [Checked.freeAll, bounded.freeBlockNow, Option.bind_eq_bind, Option.bind_some,
        List.foldl_cons]
      exact ih _

theorem Bounded.pendingFreeFlush (bounded : Bounded volume) (fs : Fs)
    : Checked.pendingFreeFlush volume fs = some (volume.pendingFreeFlush fs) := by
  unfold Checked.pendingFreeFlush
  split
  · rename_i empty
    simp [Volume.pendingFreeFlush, empty]
  · simp only [bounded.freeAll, Option.bind_eq_bind, Option.bind_some]
    rfl

-- Inodes

theorem inodeAvail_eq (few : volume.inodesCount < UINT32_MAX) (group : Nat)
    : inodeAvail volume group = some (volume.inodeAvail group) := by
  simp only [UINT32_MAX] at few
  simp only [inodeAvail, Word32.add_of_lt (show volume.inodesCount + 1 < 2 ^ 32 by omega),
    bitCap_eq, Option.bind_eq_bind, Option.bind_some, Volume.inodeAvail,
    Nat.mod_eq_of_lt (show volume.inodesCount + 1 < 2 ^ 32 by omega)]
  rfl

theorem inodeAvail_le (few : volume.inodesCount < UINT32_MAX)
    (starts : group * volume.inodesPerGroup + 1 ≤ volume.inodesCount)
    (inside : i < volume.inodeAvail group)
    : group * volume.inodesPerGroup + i + 1 ≤ volume.inodesCount
      ∧ i < volume.blockSize * 8 := by
  simp only [UINT32_MAX] at few
  simp only [Volume.inodeAvail] at inside
  omega

theorem findInode_eq (few : volume.inodesCount < UINT32_MAX) (bm : Memory)
    (starts : group * volume.inodesPerGroup + 1 ≤ volume.inodesCount) {left : Nat}
    (inside : i + left ≤ volume.inodeAvail group)
    : findInode volume group bm left i
      = some ((List.range' i left).find? fun i =>
          decide (volume.firstInode ≤ volume.inumAt group i) && !bit bm i) := by
  induction left generalizing i with
  | zero => rfl
  | succ left ih =>
      obtain ⟨small, short⟩ := inodeAvail_le few starts (show i < volume.inodeAvail group by omega)
      have later := @ih (i + 1) (by omega)
      have inodes := volume.inodesCount_lt
      have number : volume.inumAt group i = group * volume.inodesPerGroup + i + 1 :=
        Nat.mod_eq_of_lt (by omega)
      have row : Word32.mul group volume.inodesPerGroup = some (group * volume.inodesPerGroup) :=
        Word32.mul_of_lt (by omega)
      have before : Word32.add (group * volume.inodesPerGroup) i
          = some (group * volume.inodesPerGroup + i) :=
        Word32.add_of_lt (by omega)
      have inum : Word32.add (group * volume.inodesPerGroup + i) 1
          = some (group * volume.inodesPerGroup + i + 1) :=
        Word32.add_of_lt (by omega)
      simp only [findInode, row, before, inum, bitOf_eq short, Option.bind_eq_bind,
        Option.bind_some, later, List.range'_succ, List.find?_cons, number]
      by_cases reserved : group * volume.inodesPerGroup + i + 1 < volume.firstInode
      · simp [reserved, Nat.not_le.mpr reserved]
      · cases bit bm i <;> simp [reserved, Nat.not_lt.mp reserved]

theorem Bounded.allocInodeFrom (bounded : Bounded volume)
    (few : volume.inodesCount < UINT32_MAX) (left : Nat) {n : Nat} {fs : Fs}
    (inside : fs.inodeAllocHint < volume.groupCount) (turns : n + left ≤ volume.groupCount)
    : Checked.allocInodeFrom volume left n fs = some (volume.allocInodeFrom left n fs) := by
  induction left generalizing n fs with
  | zero => rfl
  | succ left ih =>
      obtain ⟨sum, group⟩ := bounded.turn inside (show n < volume.groupCount by omega)
      simp only [Checked.allocInodeFrom, Volume.allocInodeFrom, sum, group, bitmapGet_eq,
        inodeAvail_eq few, Option.bind_eq_bind, Option.bind_some]
      generalize (fs.inodeAllocHint + n) % volume.groupCount = group
      rcases got : volume.bitmapGet fs.device fs.inodeBitmap (volume.inodeBitmap group) with
        ⟨_ | _, device, bc⟩
      · rfl
      · simp only
        split
        · exact @ih (n + 1) _ inside (by omega)
        · rename_i starts
          have found : Checked.findInode volume group bc.buf (volume.inodeAvail group) 0
              = some (volume.findInode group bc.buf) := by
            rw [Volume.findInode, List.range_eq_range']
            exact findInode_eq few bc.buf (by omega) (by omega)
          simp only [found, Option.bind_some]
          cases volume.findInode group bc.buf with
          | none => exact @ih (n + 1) _ inside (by omega)
          | some i => rfl

theorem freeInode_eq {fs : Fs} (notFull : fs.freeInodesCount < UINT32_MAX) (inum : Nat)
    : freeInode volume fs inum = some (volume.freeInode fs inum) := by
  have small : fs.freeInodesCount + 1 < 2 ^ 32 := by
    simp only [UINT32_MAX] at notFull
    omega
  have reserved := volume.reserved
  unfold freeInode
  split
  · rename_i refused
    simp [Volume.freeInode, refused]
  · rename_i named
    simp only [Word32.sub_of_le (show 1 ≤ inum by omega),
      Word32.div_of_pos volume.inodesPerGroup_pos, Word32.mod_of_pos volume.inodesPerGroup_pos,
      bitCap_eq, bitmapGet_eq, Option.bind_eq_bind, Option.bind_some]
    split
    · rename_i beyond
      simp [Volume.freeInode, named, beyond]
    · rename_i inside
      split
      · rename_i beyond
        simp [Volume.freeInode, named, inside, beyond]
      · rename_i short
        split
        · rfl
        · simp only [bitOf_eq (Nat.not_le.mp short), Option.bind_some, Word32.add_of_lt small]
          split <;> rfl

end Panuti.Ext2.Checked
