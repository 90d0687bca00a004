import Mathlib.Data.Nat.Bitwise

/-! The commands the driver of `ata.c` gives an ATA drive, as the drive decodes its task file. A
request is cut into chunks, one command each, and every chunk is addressed with 28 or with 48 bits
after its first sector.
-/

namespace Panuti.Ata

def ATA_MAX_LBA28 : Nat := 0x0FFFFFFF
def ATA_CHUNK_SECTORS : Nat := 128
def ATA_MAX_TRANSFER_WORDS : Nat := 32768

def ATA_CMD_READ_SECTORS : Nat := 0x20
def ATA_CMD_READ_SECTORS_EXT : Nat := 0x25
def ATA_CMD_WRITE_SECTORS : Nat := 0x30
def ATA_CMD_WRITE_SECTORS_EXT : Nat := 0x35

def ATA_HEAD_MASTER : Nat := 0xA0
def ATA_HEAD_SLAVE : Nat := 0xB0
def ATA_HEAD_LBA : Nat := 0x40

def ATA_DCR_HOB : Nat := 0x80
def ATA_DCR_NIEN : Nat := 0x02

/-- `ide_drive_t`, what the transfers use of it. -/
structure IdeDrive where
  index : Nat
  lba48 : Bool
  hasFlush : Bool
  volatileWriteCache : Bool
  sectorSize : Nat
  blockCount : Nat
deriving Repr, DecidableEq

/-- A register of the task file holds the last byte written to it, and the one before. -/
structure Register where
  current : Nat
  previous : Nat
deriving Repr, DecidableEq

def Register.write (register : Register) (value : Nat) : Register :=
  ⟨value % 2 ^ 8, register.current⟩

/-- The registers of a channel that a transfer command reads. -/
structure TaskFile where
  features : Register
  seccount : Register
  lbaLo : Register
  lbaMid : Register
  lbaHi : Register
  driveHead : Register
  devCtrl : Nat
deriving Repr, DecidableEq

structure Command where
  ext : Bool
  lba : Nat
  sectors : Nat
deriving Repr, DecidableEq

/-- A count of zero stands for one more than the field can hold. -/
def countOf (field limit : Nat) : Nat := if field = 0 then limit else field

/-- What the drive makes of its registers: the commands with 48-bit addresses also read the bytes
written before the last ones, the others take four bits of the address from the drive register.
-/
def TaskFile.decode (file : TaskFile) (command : Nat) : Command :=
  let low := file.lbaLo.current + file.lbaMid.current * 2 ^ 8 + file.lbaHi.current * 2 ^ 16
  if command = ATA_CMD_READ_SECTORS_EXT ∨ command = ATA_CMD_WRITE_SECTORS_EXT then
    let high := file.lbaLo.previous + file.lbaMid.previous * 2 ^ 8 + file.lbaHi.previous * 2 ^ 16
    ⟨true, low + high * 2 ^ 24,
      countOf (file.seccount.current + file.seccount.previous * 2 ^ 8) (2 ^ 16)⟩
  else
    ⟨false, low + file.driveHead.current % 16 * 2 ^ 24, countOf file.seccount.current (2 ^ 8)⟩

-- ata.c

def ataApplyIdentify (index : Nat) (words : Nat → UInt16) : IdeDrive :=
  let word (place : Nat) : Nat := (words place).toNat
  let lba48 := decide (word 49 &&& 0x0200 ≠ 0)
  let lo28 := min (word 60 ||| word 61 <<< 16) ATA_MAX_LBA28
  let total := word 100 ||| word 101 <<< 16 ||| word 102 <<< 32 ||| word 103 <<< 48
  let sectors :=
    if lba48 = true ∧ total ≠ 0 ∧ total ≠ 0x0000FFFFFFFFFFFF ∧ lo28 ≤ total then total else lo28
  let size := word 106 ||| word 107 <<< 16
  { index := index
    lba48 := lba48
    volatileWriteCache := decide (word 83 &&& 0x0400 ≠ 0)
    hasFlush := decide (word 83 &&& 0x1000 ≠ 0)
    sectorSize :=
      if size ≠ 512 ∧ size ≠ 1024 ∧ size ≠ 2048 ∧ size ≠ 4096 then 512 else size
    blockCount := sectors }

def ataHead (drv : IdeDrive) : Nat :=
  if drv.index ≠ 0 then ATA_HEAD_SLAVE ||| ATA_HEAD_LBA else ATA_HEAD_MASTER ||| ATA_HEAD_LBA

def ataHob (file : TaskFile) (enable : Bool) : TaskFile :=
  { file with devCtrl := if enable then ATA_DCR_NIEN ||| ATA_DCR_HOB else ATA_DCR_NIEN }

def TaskFile.fill (file : TaskFile) (features seccount lbaLo lbaMid lbaHi driveHead : Nat)
    : TaskFile :=
  { file with
    features := file.features.write features
    seccount := file.seccount.write seccount
    lbaLo := file.lbaLo.write lbaLo
    lbaMid := file.lbaMid.write lbaMid
    lbaHi := file.lbaHi.write lbaHi
    driveHead := file.driveHead.write driveHead }

def ataSetupTaskfile (drv : IdeDrive) (file : TaskFile) (lba sectors : Nat) (useLba48 : Bool)
    : TaskFile :=
  let file :=
    if useLba48 then
      ataHob
        ((ataHob file true).fill 0 (sectors / 2 ^ 8) (lba / 2 ^ 24) (lba / 2 ^ 32) (lba / 2 ^ 40)
          (ataHead drv ||| lba / 2 ^ 48 % 16))
        false
    else file
  file.fill 0 sectors lba (lba / 2 ^ 8) (lba / 2 ^ 16) (ataHead drv ||| lba / 2 ^ 24 % 16)

/-- How a drive answers a command, or that it does not get ready for one. -/
inductive Answer where
  | stuck
  | failed
  | done
deriving Repr, DecidableEq

/-- `ata_xfer_chunk`: whether the chunk was moved, and the command that was given. -/
def ataXferChunk (drv : IdeDrive) (file : TaskFile) (lba sectors : Nat) (write : Bool)
    (answer : Answer) : Bool × TaskFile × List Command :=
  let useLba48 := drv.lba48 && decide (ATA_MAX_LBA28 < lba)
  if answer = .stuck then (false, file, [])
  else
    let file := ataSetupTaskfile drv file lba sectors useLba48
    let command :=
      if write then
        if useLba48 then ATA_CMD_WRITE_SECTORS_EXT else ATA_CMD_WRITE_SECTORS
      else if useLba48 then ATA_CMD_READ_SECTORS_EXT
      else ATA_CMD_READ_SECTORS
    (decide (answer = .done), file, [file.decode command])

def IdeDrive.maxChunk (drv : IdeDrive) : Nat :=
  let maxChunk := ATA_MAX_TRANSFER_WORDS * 2 / drv.sectorSize
  let maxChunk := if maxChunk = 0 then 1 else maxChunk
  if ATA_CHUNK_SECTORS < maxChunk then ATA_CHUNK_SECTORS else maxChunk

/-- The loop of `ata_rw`. -/
def ataRwLoop (drv : IdeDrive) (lba count : Nat) (write : Bool) (answers : Nat → Answer)
    : (turns done : Nat) → TaskFile → Bool × List Command
  | 0, _, _ => (true, [])
  | turns + 1, done, file =>
      if count ≤ done then (true, [])
      else
        let chunk := if drv.maxChunk < count - done then drv.maxChunk else count - done
        match ataXferChunk drv file ((lba + done) % 2 ^ 64) chunk write (answers done) with
        | (false, _, issued) => (false, issued)
        | (true, file, issued) =>
            let (moved, rest) := ataRwLoop drv lba count write answers turns (done + chunk) file
            (moved, issued ++ rest)

/-- The results of `ata_rw`: `BLOCK_OK`, `BLOCK_ERR_INVAL` and `BLOCK_ERR_IO`. -/
inductive BlockErr where
  | ok
  | inval
  | io
deriving Repr, DecidableEq

/-- `ata_flush_cache`; what the drive answers is not the driver's to say. -/
def ataFlushCache (drv : IdeDrive) (flushed : Bool) : BlockErr :=
  if drv.hasFlush = false then .ok else if flushed then .ok else .io

/-- `ata_rw`, with the transfer commands it gives. The loop has a turn for every sector. -/
def ataRw (drv : IdeDrive) (file : TaskFile) (lba count : Nat) (write : Bool)
    (answers : Nat → Answer) (flushed : Bool) : BlockErr × List Command :=
  if drv.blockCount < (lba + count) % 2 ^ 64 then (.inval, [])
  else
    let (moved, issued) := ataRwLoop drv lba count write answers (count + 1) 0 file
    (if moved = false then .io
      else if write && drv.volatileWriteCache then ataFlushCache drv flushed
      else .ok,
      issued)

-- What the commands owe

/-- The ranges follow one another from `start` to `stop`. -/
def Consecutive : (start : Nat) → List Command → (stop : Nat) → Prop
  | start, [], stop => start = stop
  | start, command :: rest, stop =>
      command.lba = start ∧ 0 < command.sectors
        ∧ Consecutive (start + command.sectors) rest stop

def Command.limit (command : Command) : Nat := if command.ext then 2 ^ 16 else 2 ^ 8

/-- The commands cover the request once and in order, within the limit of their addressing, and a
drive with 48-bit addresses gets no 28-bit command whose range leaves the 28 bits.
-/
structure Covers (drv : IdeDrive) (lba count : Nat) (commands : List Command) : Prop where
  ranges : Consecutive lba commands (lba + count)
  limited : ∀ command ∈ commands, command.sectors ≤ command.limit
  inside
    : drv.lba48 = true → ∀ command ∈ commands, command.ext = false
        → command.lba + command.sectors ≤ 2 ^ 28

/-- No chunk of the request begins past the addresses of 48 bits, and none steps over the end of
those of 28 bits.
-/
def Splits (drv : IdeDrive) (lba count : Nat) : Prop :=
  (count = 0 ∨ lba + (count - 1) / drv.maxChunk * drv.maxChunk < 2 ^ 48)
    ∧ (drv.lba48 = true → lba < 2 ^ 28 → 2 ^ 28 < lba + count → drv.maxChunk ∣ 2 ^ 28 - lba)

-- The drive

section

variable {words : Nat → UInt16} {index : Nat}

/-- What `ata_apply_identify` leaves: a known sector size, a count of 64 bits, and one of 28 bits
for a drive without the longer addresses.
-/
structure IdeDrive.Identified (drv : IdeDrive) : Prop where
  chunk : drv.maxChunk = 128 ∨ drv.maxChunk = 64 ∨ drv.maxChunk = 32 ∨ drv.maxChunk = 16
  small : drv.blockCount < 2 ^ 64
  short : drv.lba48 = false → drv.blockCount ≤ ATA_MAX_LBA28

theorem ataApplyIdentify_identified (index : Nat) (words : Nat → UInt16)
    : (ataApplyIdentify index words).Identified := by
  have word (place : Nat) : (words place).toNat < 2 ^ 16 := (words place).toNat_lt
  refine ⟨?_, ?_, ?_⟩
  · have size : (ataApplyIdentify index words).sectorSize = 512
        ∨ (ataApplyIdentify index words).sectorSize = 1024
        ∨ (ataApplyIdentify index words).sectorSize = 2048
        ∨ (ataApplyIdentify index words).sectorSize = 4096 := by
      simp only [ataApplyIdentify]
      split <;> omega
    rcases size with size | size | size | size
    · exact Or.inl (by simp only [IdeDrive.maxChunk, size]; decide)
    · exact Or.inr (Or.inl (by simp only [IdeDrive.maxChunk, size]; decide))
    · exact Or.inr (Or.inr (Or.inl (by simp only [IdeDrive.maxChunk, size]; decide)))
    · exact Or.inr (Or.inr (Or.inr (by simp only [IdeDrive.maxChunk, size]; decide)))
  · have shifted (place shift : Nat) (fits : shift ≤ 48)
        : (words place).toNat <<< shift < 2 ^ 64 := by
      rw [Nat.shiftLeft_eq]
      calc (words place).toNat * 2 ^ shift
          < 2 ^ 16 * 2 ^ shift := Nat.mul_lt_mul_of_pos_right (word place) (Nat.two_pow_pos shift)
        _ = 2 ^ (16 + shift) := (Nat.pow_add 2 16 shift).symm
        _ ≤ 2 ^ 64 := Nat.pow_le_pow_right (by decide) (by omega)
    simp only [ataApplyIdentify]
    split
    · refine Nat.or_lt_two_pow (Nat.or_lt_two_pow (Nat.or_lt_two_pow ?_ ?_) ?_) ?_
      · exact Nat.lt_trans (word 100) (by decide)
      · exact shifted 101 16 (by decide)
      · exact shifted 102 32 (by decide)
      · exact shifted 103 48 (by decide)
    · exact Nat.lt_of_le_of_lt (Nat.min_le_right _ _) (by decide)
  · intro short
    simp only [ataApplyIdentify] at short ⊢
    rw [if_neg (fun long => Bool.noConfusion (short.symm.trans long.1))]
    exact Nat.min_le_right _ _

end

-- One command

section

variable {drv : IdeDrive} {lba sectors : Nat}

theorem ataHead_low (drv : IdeDrive) {field : Nat} (small : field < 16)
    : (ataHead drv ||| field) % 2 ^ 8 % 16 = field := by
  have slave : ∀ field < 16, (ATA_HEAD_SLAVE ||| ATA_HEAD_LBA ||| field) % 2 ^ 8 % 16 = field := by
    decide
  have master
      : ∀ field < 16, (ATA_HEAD_MASTER ||| ATA_HEAD_LBA ||| field) % 2 ^ 8 % 16 = field := by
    decide
  unfold ataHead
  split
  · exact slave field small
  · exact master field small

theorem countOf_small {limit : Nat} (some : 0 < sectors) : countOf sectors limit = sectors := by
  rw [countOf, if_neg (Nat.ne_of_gt some)]

theorem decode_long (file : TaskFile) {command : Nat} (some : 0 < sectors) (fits : sectors ≤ 128)
    (ext : command = ATA_CMD_READ_SECTORS_EXT ∨ command = ATA_CMD_WRITE_SECTORS_EXT)
    : (ataSetupTaskfile drv file lba sectors true).decode command
      = ⟨true, lba % 2 ^ 48, sectors⟩ := by
  rw [TaskFile.decode, if_pos ext]
  simp only [ataSetupTaskfile, TaskFile.fill, ataHob, Register.write, if_true]
  have address : lba % 2 ^ 8 + lba / 2 ^ 8 % 2 ^ 8 * 2 ^ 8 + lba / 2 ^ 16 % 2 ^ 8 * 2 ^ 16
      + (lba / 2 ^ 24 % 2 ^ 8 + lba / 2 ^ 32 % 2 ^ 8 * 2 ^ 8 + lba / 2 ^ 40 % 2 ^ 8 * 2 ^ 16) * 2 ^ 24
      = lba % 2 ^ 48 := by
    omega
  have count : sectors % 2 ^ 8 + sectors / 2 ^ 8 % 2 ^ 8 * 2 ^ 8 = sectors := by omega
  rw [address, count, countOf_small some]

theorem decode_short (file : TaskFile) {command : Nat} (some : 0 < sectors) (fits : sectors ≤ 128)
    (plain : ¬(command = ATA_CMD_READ_SECTORS_EXT ∨ command = ATA_CMD_WRITE_SECTORS_EXT))
    : (ataSetupTaskfile drv file lba sectors false).decode command
      = ⟨false, lba % 2 ^ 28, sectors⟩ := by
  rw [TaskFile.decode, if_neg plain]
  simp only [ataSetupTaskfile, TaskFile.fill, Register.write, Bool.false_eq_true, if_false]
  rw [ataHead_low drv (by omega : lba / 2 ^ 24 % 16 < 16)]
  have address : lba % 2 ^ 8 + lba / 2 ^ 8 % 2 ^ 8 * 2 ^ 8 + lba / 2 ^ 16 % 2 ^ 8 * 2 ^ 16
      + lba / 2 ^ 24 % 16 * 2 ^ 24 = lba % 2 ^ 28 := by
    omega
  have count : sectors % 2 ^ 8 = sectors := by omega
  rw [address, count, countOf_small some]

def IdeDrive.command (drv : IdeDrive) (lba sectors : Nat) : Command :=
  if drv.lba48 && decide (ATA_MAX_LBA28 < lba) then ⟨true, lba % 2 ^ 48, sectors⟩
  else ⟨false, lba % 2 ^ 28, sectors⟩

theorem ataXferChunk_spec (file : TaskFile) (write : Bool) (answer : Answer) (some : 0 < sectors)
    (fits : sectors ≤ 128)
    : ∃ after, ataXferChunk drv file lba sectors write answer
        = (decide (answer = .done), after,
          if answer = .stuck then [] else [drv.command lba sectors]) := by
  rw [ataXferChunk, IdeDrive.command]
  by_cases stuck : answer = .stuck
  · subst stuck
    exact ⟨_, rfl⟩
  simp only [if_neg stuck]
  generalize (drv.lba48 && decide (ATA_MAX_LBA28 < lba)) = long
  refine ⟨ataSetupTaskfile drv file lba sectors long, ?_⟩
  cases long with
  | true =>
      cases write
      · simp only [if_true, Bool.false_eq_true, if_false, decode_long file some fits (Or.inl rfl)]
      · simp only [if_true, decode_long file some fits (Or.inr rfl)]
  | false =>
      have read := @decode_short drv lba sectors file ATA_CMD_READ_SECTORS some fits (by decide)
      have written := @decode_short drv lba sectors file ATA_CMD_WRITE_SECTORS some fits (by decide)
      cases write
      · simp only [Bool.false_eq_true, if_false, read]
      · simp only [if_true, Bool.false_eq_true, if_false, written]

-- A request

/-- The commands for the sectors from `done` on. -/
def IdeDrive.commands (drv : IdeDrive) (lba count : Nat) : (turns done : Nat) → List Command
  | 0, _ => []
  | turns + 1, done =>
      if count ≤ done then []
      else
        let chunk := min drv.maxChunk (count - done)
        drv.command ((lba + done) % 2 ^ 64) chunk :: drv.commands lba count turns (done + chunk)

theorem IdeDrive.Identified.chunk_bounds (identified : drv.Identified)
    : 0 < drv.maxChunk ∧ drv.maxChunk ≤ 128 := by
  have chunk := identified.chunk
  omega

theorem ataRwLoop_spec (identified : drv.Identified) (lba count : Nat) (write : Bool)
    (answers : Nat → Answer) (turns done : Nat) (file : TaskFile)
    : (ataRwLoop drv lba count write answers turns done file).2
          <+: drv.commands lba count turns done
      ∧ ((∀ turn, answers turn = .done)
        → ataRwLoop drv lba count write answers turns done file
          = (true, drv.commands lba count turns done)) := by
  induction turns generalizing done file with
  | zero => exact ⟨List.nil_prefix, fun _ => rfl⟩
  | succ turns ih =>
      rw [ataRwLoop, IdeDrive.commands]
      by_cases all : count ≤ done
      · rw [if_pos all, if_pos all]
        exact ⟨List.nil_prefix, fun _ => rfl⟩
      rw [if_neg all, if_neg all]
      have chunk : (if drv.maxChunk < count - done then drv.maxChunk else count - done)
          = min drv.maxChunk (count - done) := by
        split <;> omega
      simp only [chunk]
      have bounds := identified.chunk_bounds
      obtain ⟨after, ran⟩ := @ataXferChunk_spec drv ((lba + done) % 2 ^ 64)
        (min drv.maxChunk (count - done)) file write (answers done) (by omega) (by omega)
      simp only [ran]
      obtain ⟨isPrefix, whole⟩ := ih (done + min drv.maxChunk (count - done)) after
      cases answer : answers done with
      | stuck =>
          exact ⟨List.nil_prefix,
            fun moved => absurd (answer.symm.trans (moved done)) (by decide)⟩
      | failed =>
          refine ⟨?_, fun moved => absurd (answer.symm.trans (moved done)) (by decide)⟩
          exact List.prefix_append [_] _
      | done =>
          simp only [decide_true, reduceCtorEq, if_false]
          refine ⟨(List.prefix_append_right_inj [_]).mpr isPrefix, fun moved => ?_⟩
          rw [whole moved]
          rfl

theorem IdeDrive.Identified.command_range (identified : drv.Identified) (some : 0 < sectors)
    (inside : lba + sectors ≤ drv.blockCount)
    : (drv.command lba sectors).sectors = sectors
      ∧ ((drv.command lba sectors).lba = lba ↔ lba < 2 ^ 48)
      ∧ ((drv.command lba sectors).ext = false
        ↔ drv.lba48 = false ∨ lba < 2 ^ 28) := by
  rw [IdeDrive.command]
  cases long : drv.lba48 with
  | false =>
      have short := identified.short long
      simp only [ATA_MAX_LBA28] at short
      simp only [Bool.false_and, Bool.false_eq_true, if_false, true_or, and_true, true_and]
      omega
  | true =>
      by_cases high : ATA_MAX_LBA28 < lba
      · simp only [Bool.true_and, decide_eq_true high, if_true, true_and]
        simp only [ATA_MAX_LBA28] at high
        simp only [Bool.true_eq_false, false_or, false_iff]
        omega
      · simp only [Bool.true_and, decide_eq_false high, Bool.false_eq_true, if_false, true_and]
        simp only [ATA_MAX_LBA28] at high
        simp only [Bool.true_eq_false, false_or, true_iff]
        omega

variable {count : Nat}

theorem Covers.cons_iff {command : Command} {rest : List Command}
    : Covers drv lba count (command :: rest)
      ↔ command.lba = lba ∧ 0 < command.sectors ∧ command.sectors ≤ command.limit
        ∧ (drv.lba48 = true → command.ext = false → command.lba + command.sectors ≤ 2 ^ 28)
        ∧ Consecutive (lba + command.sectors) rest (lba + count)
        ∧ (∀ other ∈ rest, other.sectors ≤ other.limit)
        ∧ (drv.lba48 = true → ∀ other ∈ rest, other.ext = false
          → other.lba + other.sectors ≤ 2 ^ 28) := by
  constructor
  · rintro ⟨⟨start, some, ranges⟩, limited, inside⟩
    exact ⟨start, some, limited _ (List.mem_cons_self ..),
      fun long => inside long _ (List.mem_cons_self ..),
      ranges, fun other member => limited other (List.mem_cons_of_mem _ member),
      fun long other member => inside long other (List.mem_cons_of_mem _ member)⟩
  · rintro ⟨start, some, limit, short, ranges, limited, inside⟩
    refine ⟨⟨start, some, ranges⟩, List.forall_mem_cons.mpr ⟨limit, limited⟩, fun long => ?_⟩
    exact List.forall_mem_cons.mpr ⟨short long, inside long⟩

theorem splits_step (identified : drv.Identified) {chunk : Nat} (some : 0 < count)
    (isChunk : chunk = min drv.maxChunk count)
    : Splits drv lba count
      ↔ lba < 2 ^ 48 ∧ (drv.lba48 = true → lba < 2 ^ 28 → lba + chunk ≤ 2 ^ 28)
        ∧ Splits drv (lba + chunk) (count - chunk) := by
  have sizes := identified.chunk
  simp only [Splits]
  generalize drv.maxChunk = most at isChunk sizes ⊢
  by_cases long : drv.lba48 = true
  · simp only [long, true_implies]
    rcases sizes with rfl | rfl | rfl | rfl <;> omega
  · simp only [long, Bool.false_eq_true, false_implies, and_true, true_and]
    rcases sizes with rfl | rfl | rfl | rfl <;> omega

theorem commands_cover_iff (identified : drv.Identified) (inside : lba + count ≤ drv.blockCount)
    (turns done : Nat) (enough : count < done + turns) (within : done ≤ count)
    : Covers drv (lba + done) (count - done) (drv.commands lba count turns done)
      ↔ Splits drv (lba + done) (count - done) := by
  induction turns generalizing done with
  | zero => omega
  | succ turns ih =>
      rw [IdeDrive.commands]
      by_cases all : count ≤ done
      · have none : count - done = 0 := by omega
        rw [if_pos all, none]
        refine iff_of_true ⟨rfl, List.forall_mem_nil _, fun _ => List.forall_mem_nil _⟩ ?_
        exact ⟨Or.inl rfl, fun _ low high => absurd low (by omega)⟩
      rw [if_neg all]
      have bounds := identified.chunk_bounds
      have small := identified.small
      generalize isChunk : min drv.maxChunk (count - done) = chunk
      have rest := ih (done + chunk) (by omega) (by omega)
      have place : (lba + done) % 2 ^ 64 = lba + done := Nat.mod_eq_of_lt (by omega)
      simp only [place]
      obtain ⟨sectors, start, short⟩ := identified.command_range (by omega : 0 < chunk)
        (by omega : lba + done + chunk ≤ drv.blockCount)
      have next : lba + done + chunk = lba + (done + chunk) := by omega
      have left : count - done - chunk = count - (done + chunk) := by omega
      rw [splits_step identified (by omega) isChunk.symm, next, left, ← rest, Covers.cons_iff,
        sectors, start, short, next]
      have stop
          : lba + done + (count - done) = lba + (done + chunk) + (count - (done + chunk)) := by
        omega
      rw [stop]
      constructor
      · rintro ⟨low, _, _, within28, ranges, limited, inside28⟩
        refine ⟨low, fun long low28 => ?_, ranges, limited, inside28⟩
        rw [← next, ← start.mpr low]
        exact within28 long (Or.inr low28)
      · rintro ⟨low, within28, ranges, limited, inside28⟩
        refine ⟨low, by omega, ?_, fun long plain => ?_, ranges, limited, inside28⟩
        · simp only [Command.limit]
          split <;> omega
        · rw [start.mpr low, next]
          exact within28 long
            (plain.resolve_left (fun short => Bool.noConfusion (short.symm.trans long)))

/-- The commands of a request inside an identified drive, all of which it carries out, cover the
request exactly when none of its chunks is badly placed.
-/
theorem ataRw_covers_iff (index : Nat) (words : Nat → UInt16) (file : TaskFile) {lba count : Nat}
    (inside : lba + count ≤ (ataApplyIdentify index words).blockCount) (write : Bool)
    (answers : Nat → Answer) (flushed : Bool) (moved : ∀ turn, answers turn = .done)
    : Covers (ataApplyIdentify index words) lba count
        (ataRw (ataApplyIdentify index words) file lba count write answers flushed).2
      ↔ Splits (ataApplyIdentify index words) lba count := by
  have identified := ataApplyIdentify_identified index words
  generalize ataApplyIdentify index words = drv at *
  have accepted : ¬drv.blockCount < (lba + count) % 2 ^ 64 := by
    have small := identified.small
    omega
  rw [ataRw, if_neg accepted,
    (ataRwLoop_spec identified lba count write answers (count + 1) 0 file).2 moved]
  exact commands_cover_iff identified inside (count + 1) 0 (by omega) (Nat.zero_le _)

end

/-- The words a drive of 2^29 sectors with 48-bit addresses identifies itself with. -/
def bigDrive (place : Nat) : UInt16 :=
  if place = 49 then 0x0200 else if place = 60 then 0xFFFF else if place = 61 then 0x0FFF
  else if place = 101 then 0x2000 else 0

def idleFile : TaskFile := ⟨⟨0, 0⟩, ⟨0, 0⟩, ⟨0, 0⟩, ⟨0, 0⟩, ⟨0, 0⟩, ⟨0, 0⟩, ATA_DCR_NIEN⟩

/-- A request that ends with the 28-bit addresses is covered. -/
theorem ataRw_covers_big
    : Covers (ataApplyIdentify 0 bigDrive) 0x0FFFFFFE 2
        (ataRw (ataApplyIdentify 0 bigDrive) idleFile 0x0FFFFFFE 2 false (fun _ => .done) true).2 :=
  (ataRw_covers_iff 0 bigDrive idleFile (by decide) false _ true (fun _ => rfl)).mpr
    ⟨Or.inr (by decide), fun _ _ beyond => absurd beyond (by decide)⟩

/-- Two sectors at the last 28-bit address are asked for with one 28-bit command. -/
theorem bigDrive_straddles
    : 0x0FFFFFFF + 2 ≤ (ataApplyIdentify 0 bigDrive).blockCount
      ∧ (ataRw (ataApplyIdentify 0 bigDrive) idleFile 0x0FFFFFFF 2 false (fun _ => .done) true).2
        = [⟨false, 0x0FFFFFFF, 2⟩]
      ∧ ¬Covers (ataApplyIdentify 0 bigDrive) 0x0FFFFFFF 2
          (ataRw (ataApplyIdentify 0 bigDrive) idleFile 0x0FFFFFFF 2 false (fun _ => .done) true).2
    := by
  have issued : (ataRw (ataApplyIdentify 0 bigDrive) idleFile 0x0FFFFFFF 2 false (fun _ => .done)
      true).2 = [⟨false, 0x0FFFFFFF, 2⟩] := by
    decide +kernel
  refine ⟨by decide +kernel, issued, ?_⟩
  rw [issued]
  intro covers
  have stays := covers.inside (by decide +kernel) _ (List.mem_singleton_self _) rfl
  exact absurd stays (by decide)

end Panuti.Ata
