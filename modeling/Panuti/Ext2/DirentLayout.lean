import Panuti.Ext2.DirentBounds

/-! Well-formed directory blocks: a row of records, live or deleted, up to the end of the block or
to a tail of zeros. What the functions on a block see and store is said about the records.
-/

namespace Panuti.Ext2

open ByteMemory RecordChain

/-- A record as the directory means it: the bytes it takes, and the inode number it binds its
name to. A deleted record binds nothing.
-/
structure Entry where
  len : Nat
  binding : Option (Name × Nat)
  long : HDR_LEN ≤ len
  aligned : len % 4 = 0
  named
    : ∀ bound ∈ binding,
        bound.2 ≠ 0 ∧ 0 < bound.1.length ∧ HDR_LEN + bound.1.length ≤ len

def bindings (entries : List Entry) : List (Name × Nat) := entries.filterMap Entry.binding

def names (entries : List Entry) : List Name := (bindings entries).map Prod.fst

def span (entries : List Entry) : Nat := (entries.map Entry.len).sum

namespace Format

variable {format : Format} {buf after : Memory} {off : Nat} {entry : Entry}

/-- The bytes from `off` on are a record of the block that means `entry`. -/
def Stands (format : Format) (buf : Memory) (off : Nat) (entry : Entry) : Prop :=
  off + entry.len ≤ format.blockSize ∧ buf.half (off + 4) = entry.len
  ∧ match entry.binding with
    | none => buf.word off = 0
    | some (name, inum) =>
        buf.word off = inum ∧ (buf (off + 6)).toNat = name.length
        ∧ buf.bytes (off + HDR_LEN) name.length = name

/-- The records stand one behind the other from `off` on. -/
def Row (format : Format) (buf : Memory) : Nat → List Entry → Prop
  | _, [] => True
  | off, entry :: rest => format.Stands buf off entry ∧ Row format buf (off + entry.len) rest

/-- From `off` on, the block is a row of records and zeros behind it. -/
def Laid (format : Format) (buf : Memory) : Nat → List Entry → Prop
  | off, [] =>
      off ≤ format.blockSize
      ∧ ∀ place, off ≤ place → place < format.blockSize → buf place = 0
  | off, entry :: rest => format.Stands buf off entry ∧ Laid format buf (off + entry.len) rest

/-- The block is well formed: a row of records with distinct live names. -/
structure Holds (format : Format) (buf : Memory) (entries : List Entry) : Prop where
  laid : format.Laid buf 0 entries
  distinct : (names entries).Nodup

-- Rows of records

@[simp]
theorem span_append (front back : List Entry) : span (front ++ back) = span front + span back := by
  simp [span]

@[simp]
theorem span_cons (entry : Entry) (rest : List Entry)
    : span (entry :: rest) = entry.len + span rest := by
  simp [span]

@[simp]
theorem span_nil : span [] = 0 := rfl

variable {front entries : List Entry} {len inum : Nat} {name : Name}

theorem laid_append {back : List Entry}
    : format.Laid buf off (front ++ back)
      ↔ format.Row buf off front ∧ format.Laid buf (off + span front) back := by
  induction front generalizing off with
  | nil => simp [Row]
  | cons entry rest ih =>
      simp only [List.cons_append, Row, Laid, ih, span_cons, Nat.add_assoc, and_assoc]

/-- A record is the bytes it takes. -/
theorem Stands.congr (stands : format.Stands buf off entry)
    (same : ∀ place, off ≤ place → place < off + entry.len → after place = buf place)
    : format.Stands after off entry := by
  obtain ⟨inside, size, means⟩ := stands
  have long := entry.long
  simp only [HDR_LEN] at long
  have sameHalf : after.half (off + 4) = buf.half (off + 4) :=
    Memory.half_congr (fun place lower upper => same place (by omega) (by omega))
  have sameWord : after.word off = buf.word off :=
    Memory.word_congr (fun place lower upper => same place (by omega) (by omega))
  refine ⟨inside, sameHalf.trans size, ?_⟩
  have named := entry.named
  cases shape : entry.binding with
  | none =>
      simp only [shape] at means
      exact sameWord.trans means
  | some bound =>
      obtain ⟨name, inum⟩ := bound
      simp only [shape, Option.mem_def, Option.some.injEq, forall_eq'] at means named
      obtain ⟨number, length, string⟩ := means
      simp only [HDR_LEN] at named string ⊢
      refine ⟨sameWord.trans number, ?_, ?_⟩
      · rw [same (off + 6) (by omega) (by omega)]
        exact length
      · rw [Memory.bytes_congr
          (fun place lower upper => same place (by omega) (by omega))]
        exact string

theorem Row.congr (row : format.Row buf off entries)
    (same : ∀ place, off ≤ place → place < off + span entries → after place = buf place)
    : format.Row after off entries := by
  induction entries generalizing off with
  | nil => trivial
  | cons entry rest ih =>
      rw [span_cons] at same
      exact ⟨row.1.congr (fun place lower upper => same place lower (by omega)),
        ih row.2 (fun place lower upper => same place (by omega) (by omega))⟩

theorem Laid.congr (laid : format.Laid buf off entries)
    (same : ∀ place, off ≤ place → place < format.blockSize → after place = buf place)
    : format.Laid after off entries := by
  induction entries generalizing off with
  | nil =>
      refine ⟨laid.1, ?_⟩
      intro place lower upper
      rw [same place lower upper]
      exact laid.2 place lower upper
  | cons entry rest ih =>
      have inside := laid.1.1
      exact ⟨laid.1.congr (fun place lower upper => same place lower (by omega)),
        ih laid.2 (fun place lower upper => same place (by omega) upper)⟩

theorem Laid.span_le (laid : format.Laid buf off entries)
    : off + span entries ≤ format.blockSize ∧ entries.length ≤ span entries := by
  induction entries generalizing off with
  | nil => exact ⟨laid.1, Nat.le_refl 0⟩
  | cons entry rest ih =>
      obtain ⟨inside, many⟩ := ih laid.2
      have long := entry.long
      simp only [HDR_LEN] at long
      simp only [span_cons, List.length_cons]
      omega

theorem Laid.replace {back : List Entry} (old new : List Entry)
    (laid : format.Laid buf off (front ++ (old ++ back))) (size : span new = span old)
    (same : SameOutside buf after (off + span front) (span old))
    (row : format.Row after (off + span front) new)
    : format.Laid after off (front ++ (new ++ back)) := by
  obtain ⟨before, rest⟩ := laid_append.mp laid
  obtain ⟨_, behind⟩ := laid_append.mp rest
  refine laid_append.mpr ⟨before.congr ?_, laid_append.mpr ⟨row, ?_⟩⟩
  · intro place lower upper
    exact same place (by omega)
  · rw [size]
    refine behind.congr ?_
    intro place lower upper
    exact same place (by omega)

theorem Laid.extend (laid : format.Laid buf off front)
    (same : SameOutside buf after (off + span front) entry.len)
    (stands : format.Stands after (off + span front) entry)
    : format.Laid after off (front ++ [entry]) := by
  rw [← List.append_nil front] at laid
  obtain ⟨before, tail⟩ := laid_append.mp laid
  refine laid_append.mpr ⟨before.congr ?_, stands, stands.1, ?_⟩
  · intro place lower upper
    exact same place (by omega)
  · intro place lower upper
    rw [same place (by omega)]
    exact tail.2 place (by omega) upper

-- What the functions see

/-- The header at `off`, as it is read. -/
def headerAt (buf : Memory) (off : Nat) : DirentHdr :=
  ⟨buf.word off, buf.half (off + 4), (buf (off + 6)).toNat, (buf (off + 7)).toNat⟩

theorem Stands.found (stands : format.Stands buf off entry)
    : format.direntAt buf off = some (.record (headerAt buf off)) := by
  obtain ⟨inside, size, _⟩ := stands
  have long := entry.long
  have aligned := entry.aligned
  have readable : ¬format.blockSize - HDR_LEN < off := by omega
  have within : off + HDR_LEN ≤ format.blockSize := by omega
  have used : entry.len ≠ 0 := by
    simp only [HDR_LEN] at long
    omega
  have sound : ¬(entry.len < HDR_LEN ∨ entry.len % 4 ≠ 0 ∨ format.blockSize < entry.len
      ∨ format.blockSize - entry.len < off) := by
    omega
  simp only [direntAt, if_neg readable, peekHdr, if_pos within, size, if_neg used,
    if_neg sound, headerAt]

theorem Laid.tail_unused (laid : format.Laid buf off [])
    : format.direntAt buf off = some .unused := by
  unfold direntAt
  split
  · rfl
  · rename_i readable
    have size := format.blockSize_bounds
    obtain ⟨_, zeros⟩ := laid
    simp only [HDR_LEN] at readable
    have within : off + HDR_LEN ≤ format.blockSize := by
      simp only [HDR_LEN]
      omega
    have unused : buf.half (off + 4) = 0 := by
      simp only [Memory.half]
      rw [zeros (off + 4) (by omega) (by omega), zeros (off + 4 + 1) (by omega) (by omega)]
      rfl
    simp [peekHdr, within, unused]

theorem Laid.chain (laid : format.Laid buf off entries)
    : Chain (format.direntAt buf) (format.Stands buf) Entry.len off entries := by
  induction entries generalizing off with
  | nil => exact laid.tail_unused
  | cons entry rest ih => exact ⟨laid.1, ih laid.2⟩

def lookEntry (name : Name) (entry : Entry) : Look :=
  match entry.binding with
  | none => .deleted
  | some (other, _) => if other = name then .named else .other

theorem Stands.look (stands : format.Stands buf off entry) (name : Name)
    : format.look buf name off (headerAt buf off) = some (lookEntry name entry) := by
  obtain ⟨inside, size, means⟩ := stands
  have named := entry.named
  unfold Format.look lookEntry
  cases shape : entry.binding with
  | none =>
      simp only [shape] at means
      simp only [headerAt, means, if_true]
  | some bound =>
      obtain ⟨other, inum⟩ := bound
      simp only [shape, Option.mem_def, Option.some.injEq, forall_eq'] at means named
      obtain ⟨number, length, string⟩ := means
      obtain ⟨live, notEmpty, room⟩ := named
      have sound : ¬(other.length = 0 ∨ entry.len - HDR_LEN < other.length) := by omega
      simp only [headerAt, number, length, size, if_neg live, if_neg sound]
      by_cases sameLength : other.length = name.length
      · have within : off + HDR_LEN + name.length ≤ format.blockSize := by omega
        rw [sameLength] at string
        simp only [if_pos sameLength, sameName, if_pos within, string, Option.map_some,
          beq_iff_eq]
      · have different : other ≠ name := fun same => sameLength (by rw [same])
        simp only [if_neg sameLength, if_neg different]

-- What the functions store

theorem store_hdr (buf : Memory) (off : Nat) (header : DirentHdr)
    : (buf.store off header.bytes).word off = header.inode % 4294967296
      ∧ (buf.store off header.bytes).half (off + 4) = header.recLen % 65536
      ∧ (buf.store off header.bytes (off + 6)).toNat = header.nameLen % 256 := by
  have byte (index : Nat) (inside : index < 8)
      : buf.store off header.bytes (off + index) = header.bytes.getD index 0 :=
    Memory.store_inside buf inside
  have b0 : buf.store off header.bytes off = UInt8.ofNat header.inode := byte 0 (by omega)
  have b1 : buf.store off header.bytes (off + 1) = UInt8.ofNat (header.inode / 256) :=
    byte 1 (by omega)
  have b2 : buf.store off header.bytes (off + 2) = UInt8.ofNat (header.inode / 65536) :=
    byte 2 (by omega)
  have b3 : buf.store off header.bytes (off + 3) = UInt8.ofNat (header.inode / 16777216) :=
    byte 3 (by omega)
  have b4 : buf.store off header.bytes (off + 4) = UInt8.ofNat header.recLen :=
    byte 4 (by omega)
  have b5 : buf.store off header.bytes (off + 5) = UInt8.ofNat (header.recLen / 256) :=
    byte 5 (by omega)
  have b6 : buf.store off header.bytes (off + 6) = UInt8.ofNat header.nameLen :=
    byte 6 (by omega)
  simp only [Memory.word, Memory.half, Nat.add_assoc, Nat.reduceAdd, b0, b1, b2, b3, b4, b5, b6,
    UInt8.toNat_ofNat']
  exact ⟨by omega, by omega, trivial⟩

def hole (len : Nat) (long : HDR_LEN ≤ len) (aligned : len % 4 = 0) : Entry where
  len := len
  binding := none
  long := long
  aligned := aligned
  named := by simp

def live (len : Nat) (name : Name) (inum : Nat) (aligned : len % 4 = 0) (notZero : inum ≠ 0)
    (notEmpty : 0 < name.length) (room : HDR_LEN + name.length ≤ len) : Entry where
  len := len
  binding := some (name, inum)
  long := by omega
  aligned := aligned
  named := by
    intro bound here
    obtain rfl := Option.some.inj here
    exact ⟨notZero, notEmpty, room⟩

theorem stands_hole (buf : Memory) {long : HDR_LEN ≤ len} {aligned : len % 4 = 0}
    (inside : off + len ≤ format.blockSize)
    (header
      : ∀ place,
          off ≤ place
          → place < off + HDR_LEN
          → after place = buf.store off (DirentHdr.mk 0 len 0 0).bytes place)
    : format.Stands after off (hole len long aligned) := by
  obtain ⟨number, size, _⟩ := store_hdr buf off (DirentHdr.mk 0 len 0 0)
  have small := format.blockSize_bounds
  simp only [HDR_LEN] at header
  refine ⟨inside, ?_, ?_⟩
  · rw [Memory.half_congr (fun place lower upper => header place (by omega) (by omega))]
    exact size.trans (Nat.mod_eq_of_lt (by simp only; omega))
  · exact (Memory.word_congr
      (fun place lower upper => header place (by omega) (by omega))).trans number

theorem stands_live (buf : Memory) (fileType : Nat) {aligned : len % 4 = 0} {notZero : inum ≠ 0}
    {notEmpty : 0 < name.length} {room : HDR_LEN + name.length ≤ len}
    (inside : off + len ≤ format.blockSize) (fits : inum < 4294967296)
    (short : name.length ≤ EXT2_NAME_LEN)
    (header
      : ∀ place,
          off ≤ place
          → place < off + HDR_LEN
          → after place
            = buf.store off (DirentHdr.mk inum len name.length fileType).bytes place)
    (string : after.bytes (off + HDR_LEN) name.length = name)
    : format.Stands after off (live len name inum aligned notZero notEmpty room) := by
  obtain ⟨number, size, length⟩ :=
    store_hdr buf off (DirentHdr.mk inum len name.length fileType)
  have small := format.blockSize_bounds
  simp only [EXT2_NAME_LEN] at short
  simp only [HDR_LEN] at header
  refine ⟨inside, ?_, ?_, ?_, string⟩
  · rw [Memory.half_congr (fun place lower upper => header place (by omega) (by omega))]
    exact size.trans (Nat.mod_eq_of_lt (by simp only; omega))
  · rw [Memory.word_congr (fun place lower upper => header place (by omega) (by omega))]
    exact number.trans (Nat.mod_eq_of_lt fits)
  · rw [header (off + 6) (by omega) (by omega)]
    exact length.trans (Nat.mod_eq_of_lt (by simp only; omega))

theorem stands_written {fileType : Nat} {aligned : len % 4 = 0} {notZero : inum ≠ 0}
    {notEmpty : 0 < name.length} {room : HDR_LEN + name.length ≤ len}
    (inside : off + len ≤ format.blockSize) (fits : inum < 4294967296)
    (short : name.length ≤ EXT2_NAME_LEN)
    : format.Stands (format.written buf off inum name fileType len) off
        (live len name inum aligned notZero notEmpty room) := by
  refine stands_live (buf.fill off len 0) (if format.hasFiletype then fileType else 0) inside
    fits short (fun place _ upper => ?_) (Memory.bytes_store_self _ (off + HDR_LEN) name)
  exact Memory.store_other _ (Or.inl upper)

theorem row_carved {d : DirentHdr} {need fileType old : Nat} {other : Name}
    {keepAligned : (d.recLen - need) % 4 = 0} {oldLive : old ≠ 0} {otherNotEmpty : 0 < other.length}
    {otherRoom : HDR_LEN + other.length ≤ d.recLen - need} {aligned : need % 4 = 0}
    {notZero : inum ≠ 0} {notEmpty : 0 < name.length} {room : HDR_LEN + name.length ≤ need}
    (inside : off + d.recLen ≤ format.blockSize) (number : d.inode = old)
    (length : d.nameLen = other.length) (string : buf.bytes (off + HDR_LEN) other.length = other)
    (otherFits : old < 4294967296) (otherShort : other.length ≤ EXT2_NAME_LEN)
    (spare : need + direntRecLen d.nameLen ≤ d.recLen) (fits : inum < 4294967296)
    (short : name.length ≤ EXT2_NAME_LEN)
    : format.Row (format.carved buf off need d inum name fileType) off
        [live (d.recLen - need) other old keepAligned oldLive otherNotEmpty otherRoom,
          live need name inum aligned notZero notEmpty room] := by
  have self := direntRecLen_bounds d.nameLen
  have behind : off + (d.recLen - need) + need ≤ format.blockSize := by omega
  have kept (memory : Memory) (place : Nat) (upper : place < off + (d.recLen - need))
      : format.written memory (off + (d.recLen - need)) inum name fileType need place
        = memory place :=
    (direntWrite_spec behind room).2 place (Or.inl upper)
  refine ⟨?_, stands_written behind fits short, trivial⟩
  have sameString
      : (format.carved buf off need d inum name fileType).bytes (off + HDR_LEN) other.length
        = buf.bytes (off + HDR_LEN) other.length := by
    refine Memory.bytes_congr (fun place lower upper => ?_)
    rw [carved, kept _ place (by omega), Memory.fill_other _ (by omega),
      Memory.store_other _ (by rw [length_hdr_bytes]; omega)]
  refine stands_live buf d.fileType (by omega) otherFits otherShort
    (fun place lower upper => ?_) (sameString.trans string)
  rw [carved, kept _ place (by omega), Memory.fill_other _ (by omega), number, length]

end Format

end Panuti.Ext2
