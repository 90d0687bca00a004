import Panuti.Ext2.Emptiness
import Panuti.Files.Positions

/-! The files of an ext2 volume under the handle: `ext2_read` hands out the bytes of the file, also
where it has holes and where it is larger than 4 GiB. How a volume that can be written to is
written to is left open, up to what a write does to the file.
-/

namespace Panuti.Files

open Ext2 ByteMemory

/-- What a call finds around it: the time, the blocks that the device reads or that are held, and
whether inodes can be read.
-/
structure Ext2Env where
  now : Nat
  answers : Nat → Bool
  inodes : Bool

/-- A volume with what the mount holds of it. Blocks are counted in 32 bits. -/
structure Ext2State where
  image : Image
  held : Held
  small : image.blocksCount < 2 ^ 32

-- ext2_read

section Reads

variable (image : Image) (env : Ext2Env)

/-- `ext2_indirect_entry`, which fails where the block of addresses cannot be read. -/
def indirectEntry (block index : Nat) : Option Nat :=
  if env.answers block = false then none else image.indirectEntry block index

/-- `ext2_map_block`. -/
def mapBlock (iBlock : Nat → Nat) (index : Nat) : Option Nat :=
  if index < EXT2_NDIR_BLOCKS then image.mapBlock iBlock index
  else
    match blockSlot index (image.format.blockSize / 4) with
    | none => none
    | some (root, slots) => slots.foldlM (indirectEntry image env) (iBlock root)

/-- `ext2_read_part`. -/
def readPart (block within len : Nat) : Option (List UInt8) :=
  if len = 0 then some []
  else if image.blocksCount ≤ block then none
  else
    let offset := block * image.format.blockSize + within
    if 2 ^ 64 - 1 - len < offset then none
    else if env.answers block = false then none
    else some ((image.disk block).bytes within len)

/-- The loop of `ext2_read`, which takes no more turns than there are bytes left. -/
def readChunks (iBlock : Nat → Nat) : (turns pos left : Nat) → Option (List UInt8)
  | 0, _, _ => some []
  | turns + 1, pos, left =>
      if left = 0 then some []
      else
        let index := pos / image.format.blockSize % 2 ^ 32
        let within := pos % image.format.blockSize
        let chunk := image.format.blockSize - within
        let chunk := if left < chunk then left else chunk
        match mapBlock image env iBlock index with
        | some phys =>
            match readPart image env phys within chunk with
            | none => none
            | some bytes => (readChunks iBlock turns (pos + chunk) (left - chunk)).map (bytes ++ ·)
        | none =>
            (readChunks iBlock turns (pos + chunk) (left - chunk)).map
              (List.replicate chunk 0 ++ ·)

end Reads

def ext2Read (inum : Nat) (state : Ext2State) (env : Ext2Env) (len offset : Nat)
    : (Int × List UInt8) × Ext2State :=
  let len := if INT_MAX < len then INT_MAX else len
  let image := state.image
  if env.inodes = false then ((-1, []), state)
  else
    match image.readInode state.held inum with
    | none => ((-1, []), state)
    | some hdr =>
        match image.inodeLength hdr with
        | none => ((-1, []), state)
        | some size =>
            let touched := { state with held := image.touchAtime env.now inum hdr state.held }
            if size ≤ offset then ((0, []), touched)
            else
              let avail := size - offset
              let len := if avail < len then avail else len
              match readChunks image env hdr.block len offset len with
              | none => ((-1, []), state)
              | some bytes => ((len, bytes), touched)

/-- The size that `ext2_getattr` reports. -/
def ext2Getattr (inum : Nat) (state : Ext2State) (env : Ext2Env) : Option Int :=
  if env.inodes = false then none
  else
    match state.image.readInode state.held inum with
    | none => none
    | some hdr =>
        if hdr.dtime ≠ 0 then none
        else (state.image.inodeLength hdr).map Int.ofNat

-- Files

def fileSize (inum : Nat) (state : Ext2State) : Nat :=
  (state.image.inodeLength (state.image.inode inum)).getD 0

/-- A byte of the file: the one in the block it is mapped to, or zero in a hole. -/
def fileByte (inum : Nat) (state : Ext2State) (place : Nat) : UInt8 :=
  let image := state.image
  match image.mapBlock (image.inode inum).block (place / image.format.blockSize) with
  | some phys => image.disk phys (place % image.format.blockSize)
  | none => 0

section Blocks

variable {image : Image} {env : Ext2Env}

theorem mapBlock_served (serves : ∀ block, env.answers block = true) (iBlock : Nat → Nat)
    (index : Nat)
    : mapBlock image env iBlock index = image.mapBlock iBlock index := by
  have entries : indirectEntry image env = image.indirectEntry := by
    funext block index
    rw [indirectEntry, serves, if_neg Bool.noConfusion]
  rw [mapBlock, Image.mapBlock, entries]
  split <;> rfl

theorem blockSize_pos (image : Image) : 0 < image.format.blockSize := by
  have supported := image.format.supported
  omega

theorem readPart_served (serves : ∀ block, env.answers block = true) {block within len : Nat}
    (small : image.blocksCount < 2 ^ 32) (inside : block < image.blocksCount)
    (fits : within + len ≤ image.format.blockSize)
    : readPart image env block within len = some ((image.disk block).bytes within len) := by
  have supported := image.format.supported
  have size : image.format.blockSize ≤ 4096 := by omega
  have place : block * image.format.blockSize ≤ 2 ^ 32 * 4096 :=
    Nat.mul_le_mul (by omega) size
  rw [readPart]
  by_cases none' : len = 0
  · rw [if_pos none', none']
    rfl
  · have noWrap : ¬2 ^ 64 - 1 - len < block * image.format.blockSize + within := by omega
    rw [if_neg none', if_neg (Nat.not_le.mpr inside), if_neg noWrap, serves,
      if_neg Bool.noConfusion]

theorem div_mod_add {size pos i : Nat} (inside : pos % size + i < size)
    : (pos + i) / size = pos / size ∧ (pos + i) % size = pos % size + i := by
  have split := Nat.div_add_mod pos size
  have shifted : pos + i = size * (pos / size) + (pos % size + i) := by omega
  have positive : 0 < size := by omega
  refine ⟨?_, ?_⟩
  · rw [shifted, Nat.mul_add_div positive, Nat.div_eq_of_lt inside, Nat.add_zero]
  · rw [shifted, Nat.mul_add_mod, Nat.mod_eq_of_lt inside]

end Blocks

section Chunks

variable {state : Ext2State} {env : Ext2Env} {inum : Nat}

theorem fileByte_chunk {pos chunk : Nat}
    (fits : pos % state.image.format.blockSize + chunk ≤ state.image.format.blockSize)
    : (List.range chunk).map (fun i => fileByte inum state (pos + i))
      = match state.image.mapBlock (state.image.inode inum).block
            (pos / state.image.format.blockSize) with
        | some phys => (state.image.disk phys).bytes (pos % state.image.format.blockSize) chunk
        | none => List.replicate chunk 0 := by
  have byte : ∀ i ∈ List.range chunk, fileByte inum state (pos + i)
      = match state.image.mapBlock (state.image.inode inum).block
            (pos / state.image.format.blockSize) with
        | some phys => state.image.disk phys (pos % state.image.format.blockSize + i)
        | none => 0 := by
    intro i member
    have below := List.mem_range.mp member
    obtain ⟨block, place⟩ := div_mod_add (Nat.lt_of_lt_of_le (Nat.add_lt_add_left below _) fits)
    simp only [fileByte, block, place]
  rw [List.map_congr_left byte]
  cases state.image.mapBlock (state.image.inode inum).block
      (pos / state.image.format.blockSize) with
  | some phys => rfl
  | none => simp

theorem readChunks_eq (serves : ∀ block, env.answers block = true) {turns pos left : Nat}
    (enough : left ≤ turns)
    (inside : pos + left ≤ state.image.blocksCount * state.image.format.blockSize)
    : readChunks state.image env (state.image.inode inum).block turns pos left
      = some ((List.range left).map (fun i => fileByte inum state (pos + i))) := by
  induction turns generalizing pos left with
  | zero =>
      obtain rfl := Nat.le_zero.mp enough
      rfl
  | succ turns ih =>
      rw [readChunks]
      by_cases none' : left = 0
      · subst none'
        rfl
      rw [if_neg none']
      have positive := blockSize_pos state.image
      have within := Nat.mod_lt pos positive
      have block : pos / state.image.format.blockSize < state.image.blocksCount :=
        Nat.div_lt_of_lt_mul (by rw [Nat.mul_comm]; omega)
      have index : pos / state.image.format.blockSize % 2 ^ 32
          = pos / state.image.format.blockSize :=
        Nat.mod_eq_of_lt (Nat.lt_trans block state.small)
      simp only [index, mapBlock_served serves]
      generalize least : (if left < state.image.format.blockSize
          - pos % state.image.format.blockSize then left
        else state.image.format.blockSize - pos % state.image.format.blockSize) = chunk
      have bounds : 0 < chunk ∧ chunk ≤ left
          ∧ pos % state.image.format.blockSize + chunk ≤ state.image.format.blockSize := by
        split at least <;> omega
      obtain ⟨some', short, fits⟩ := bounds
      have rest : readChunks state.image env (state.image.inode inum).block turns (pos + chunk)
            (left - chunk)
          = some ((List.range (left - chunk)).map
              (fun i => fileByte inum state (pos + chunk + i))) :=
        ih (by omega) (by omega)
      have here : (List.range chunk).map (fun i => fileByte inum state (pos + i)) = _ :=
        fileByte_chunk fits
      have whole : (List.range left).map (fun i => fileByte inum state (pos + i))
          = (List.range chunk).map (fun i => fileByte inum state (pos + i))
            ++ (List.range (left - chunk)).map
                (fun i => fileByte inum state (pos + chunk + i)) := by
        conv_lhs => rw [← Nat.add_sub_cancel' short, List.range_add, List.map_append, List.map_map]
        simp only [Function.comp_def, Nat.add_assoc]
      rw [whole, here]
      cases mapped : state.image.mapBlock (state.image.inode inum).block
          (pos / state.image.format.blockSize) with
      | some phys =>
          simp only [readPart_served serves state.small (Image.mapBlock_bounds mapped).2 fits, rest,
            Option.map_some]
      | none => simp only [rest, Option.map_some]

end Chunks

-- The file system

/-- What a write that returned a count has done to the file with this inode. -/
structure Ext2Wrote (inum : Nat) (before after : Ext2State) (data : List UInt8) (offset : Nat)
    (ret : Int) : Prop where
  inside : ret.toNat ≤ min data.length INT_MAX
  given : (List.range ret.toNat).map (fun i => fileByte inum after (offset + i))
    = data.take ret.toNat
  size : fileSize inum after = max (fileSize inum before) (offset + ret.toNat)
  others : ∀ place < fileSize inum before, place < offset ∨ offset + ret.toNat ≤ place
    → fileByte inum after place = fileByte inum before place

/-- How a volume that can be written to is written to. -/
structure Ext2Writer (inum : Nat) where
  write : Ext2State → Ext2Env → List UInt8 → Nat → Int × Ext2State
  wrote : ∀ state env data offset, 0 < (write state env data offset).1
    → Ext2Wrote inum state (write state env data offset).2 data offset
        (write state env data offset).1

/-- `ext2_write`, which refuses a volume that was mounted for reading. -/
def ext2Write {inum : Nat} (writer : Ext2Writer inum) (state : Ext2State) (env : Ext2Env)
    (data : List UInt8) (offset : Nat) : Int × Ext2State :=
  if state.image.readOnly then (-1, state)
  else if data.length = 0 then (0, state)
  else writer.write state env data offset

section Laws

variable {inum : Nat} {state : Ext2State}

theorem readInode_eq {hdr : InodeHdr} (found : state.image.readInode state.held inum = some hdr)
    : hdr.block = (state.image.inode inum).block
      ∧ state.image.inodeLength hdr = state.image.inodeLength (state.image.inode inum) := by
  rw [Image.readInode] at found
  split at found
  · cases found
  · obtain rfl := Option.some.inj found
    exact ⟨rfl, rfl⟩

theorem fileSize_le (state : Ext2State)
    : fileSize inum state ≤ state.image.blocksCount * state.image.format.blockSize := by
  rw [fileSize, Image.inodeLength]
  split
  · exact Nat.zero_le _
  · rename_i fits
    exact Nat.not_lt.mp fits

def readCount (inum : Nat) (state : Ext2State) (len offset : Nat) : Nat :=
  min (min len INT_MAX) (fileSize inum state - offset)

theorem ext2Read_cases (state : Ext2State) (env : Ext2Env) (len offset : Nat)
    : (ext2Read inum state env len offset).2.image = state.image
      ∧ ((ext2Read inum state env len offset).1 = (-1, [])
        ∨ (ext2Read inum state env len offset).1 = (0, []) ∧ fileSize inum state ≤ offset
        ∨ ∃ bytes, offset < fileSize inum state
          ∧ (ext2Read inum state env len offset).1
            = ((readCount inum state len offset : Int), bytes)
          ∧ readChunks state.image env (state.image.inode inum).block
              (readCount inum state len offset) offset (readCount inum state len offset)
            = some bytes) := by
  rw [ext2Read]
  split
  case isTrue => exact ⟨rfl, .inl rfl⟩
  split
  case h_1 => exact ⟨rfl, .inl rfl⟩
  next hdr found =>
    obtain ⟨block, length⟩ := readInode_eq found
    split
    case h_1 => exact ⟨rfl, .inl rfl⟩
    next size sized =>
      obtain rfl : fileSize inum state = size := by
        rw [fileSize, ← length, sized]
        rfl
      split
      next behind => exact ⟨rfl, .inr (.inl ⟨rfl, behind⟩)⟩
      next inside =>
        have capped (count cap : Nat) : (if cap < count then cap else count) = min count cap := by
          split <;> omega
        have count : (if fileSize inum state - offset < (if INT_MAX < len then INT_MAX else len)
              then fileSize inum state - offset else (if INT_MAX < len then INT_MAX else len))
            = readCount inum state len offset := by
          rw [capped, capped, readCount]
        simp only [count, block]
        split
        next => exact ⟨rfl, .inl rfl⟩
        next bytes read => exact ⟨rfl, .inr (.inr ⟨bytes, Nat.not_le.mp inside, rfl, read⟩)⟩

theorem ext2Read_some {env : Ext2Env} {len offset : Nat}
    (some' : 0 < (ext2Read inum state env len offset).1.1)
    : (ext2Read inum state env len offset).1.1 = readCount inum state len offset
      ∧ offset < fileSize inum state
      ∧ readChunks state.image env (state.image.inode inum).block
          (readCount inum state len offset) offset (readCount inum state len offset)
        = some (ext2Read inum state env len offset).1.2 := by
  obtain ⟨-, failed | ⟨behind, -⟩ | ⟨bytes, inside, given, read⟩⟩ :=
    ext2Read_cases state env len offset
  · rw [failed] at some'
    exact absurd some' (by decide)
  · rw [behind] at some'
    exact absurd some' (by decide)
  · rw [given]
    exact ⟨rfl, inside, read⟩

theorem fileSize_small (state : Ext2State) : fileSize inum state ≤ INT64_MAX := by
  have supported := state.image.format.supported
  have small := state.small
  have size : state.image.format.blockSize ≤ 4096 := by omega
  calc fileSize inum state
      ≤ state.image.blocksCount * state.image.format.blockSize := fileSize_le state
    _ ≤ 2 ^ 32 * 4096 := Nat.mul_le_mul (Nat.le_of_lt small) size
    _ ≤ INT64_MAX := by decide

theorem ext2Write_some {writer : Ext2Writer inum} {env : Ext2Env} {data : List UInt8} {offset : Nat}
    (some' : 0 < (ext2Write writer state env data offset).1)
    : Ext2Wrote inum state (ext2Write writer state env data offset).2 data offset
        (ext2Write writer state env data offset).1 := by
  rw [ext2Write] at some' ⊢
  split at some'
  case isTrue => cases some'
  split at some'
  case isTrue => cases some'
  next writable some'' =>
    rw [if_neg writable, if_neg some'']
    exact writer.wrote state env data offset some'

def ext2Files (inum : Nat) (writer : Ext2Writer inum) : FileSystem Ext2State Ext2Env where
  read := ext2Read inum
  write := ext2Write writer
  getattr := ext2Getattr inum
  size := fileSize inum
  byte := fileByte inum
  serves _ env := ∀ block, env.answers block = true
  size_le := fileSize_small
  read_keeps state env len offset := by
    have same : (ext2Read inum state env len offset).2.image = state.image :=
      (ext2Read_cases state env len offset).1
    exact ⟨by rw [fileSize, same, fileSize], by funext place; rw [fileByte, same, fileByte]⟩
  read_inside state env len offset some' := by
    rw [(ext2Read_some some').1]
    exact Nat.le_refl _
  read_bytes state env len offset serves some' := by
    obtain ⟨count, inside, read⟩ := ext2Read_some some'
    have short : readCount inum state len offset ≤ fileSize inum state - offset :=
      Nat.min_le_right ..
    have fits : fileSize inum state ≤ _ := fileSize_le state
    rw [readChunks_eq serves (Nat.le_refl _) (by omega)] at read
    rw [count, Int.toNat_natCast]
    exact (Option.some.inj read).symm
  read_end state env len offset none' wanted := by
    obtain ⟨-, failed | ⟨-, behind⟩ | ⟨bytes, inside, given, -⟩⟩ :=
      ext2Read_cases state env len offset
    · rw [failed] at none'
      cases none'
    · exact behind
    · rw [given] at none'
      have count : readCount inum state len offset = 0 := Int.ofNat.inj none'
      simp only [readCount, INT_MAX] at count
      omega
  write_inside _ _ _ _ some' := (ext2Write_some some').inside
  write_bytes _ _ _ _ some' := (ext2Write_some some').given
  write_keeps _ _ _ _ some' := ⟨(ext2Write_some some').size, (ext2Write_some some').others⟩
  getattr_size state env size told := by
    rw [ext2Getattr] at told
    split at told
    case isTrue => cases told
    split at told
    case h_1 => cases told
    next hdr found =>
      split at told
      case isTrue => cases told
      obtain ⟨len, length, rfl⟩ := Option.map_eq_some_iff.mp told
      rw [fileSize, ← (readInode_eq found).2, length]
      rfl

end Laws

-- A file of more than 4 GiB

/-- A volume that was mounted for reading, with files of 2^32 + 4 bytes that are all holes. -/
def sparse : Ext2State where
  image := {
    format := ⟨1024, true, Format.kilobyte⟩
    blocksCount := 4195328
    inodesCount := 16
    largeFiles := true
    readOnly := true
    disk := fun _ _ => 0
    inode := fun _ => ⟨0x81A4, 4, 0, 0, 0, 0, fun _ => 0, 1, by decide⟩
  }
  held := ⟨fun _ => 0, 0, 0, 0, fun _ => 0, fun _ => 0⟩
  small := by decide

def noWriter : Ext2Writer 11 where
  write state _ _ _ := (-1, state)
  wrote _ _ _ _ some' := by cases some'

def served (call : Call) : Event Ext2Env := ⟨call, ⟨0, fun _ => true, true⟩⟩

/-- The handle, moved to the last byte before 4 GiB. -/
def sought : FsFile Ext2State :=
  (step (ext2Files 11 noWriter).toFsOps ⟨sparse, 0⟩ (served (.seek 0 4294967295))).2

end Panuti.Files
