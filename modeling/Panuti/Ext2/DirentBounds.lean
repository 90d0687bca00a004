import Panuti.Ext2.Dirents

/-! Whatever bytes a directory block holds, every function on it ends, and no access leaves the
block: the writes change bytes inside of it only.
-/

namespace Panuti.Ext2.Format

open ByteMemory RecordChain

variable {format : Format} {buf : Memory} {off : Nat}

/-- The bytes outside of `len` bytes from `off` on stay as they were. -/
def SameOutside (before after : Memory) (off len : Nat) : Prop :=
  ∀ place, place < off ∨ off + len ≤ place → after place = before place

theorem SameOutside.mono {before after : Memory} {inner innerLen len : Nat}
    (same : SameOutside before after inner innerLen) (lower : off ≤ inner)
    (upper : inner + innerLen ≤ off + len)
    : SameOutside before after off len := by
  intro place apart
  exact same place (by omega)

-- What the accesses to a block give

theorem blockSize_bounds (format : Format) : 1024 ≤ format.blockSize ∧ format.blockSize ≤ 4096 := by
  rcases format.supported with size | size | size <;> omega

@[simp]
theorem length_hdr_bytes (header : DirentHdr) : header.bytes.length = HDR_LEN := rfl

theorem clear_spec {len : Nat} (inside : off + len ≤ format.blockSize)
    : format.clear buf off len = some (buf.fill off len 0) := by
  simp [clear, inside]

theorem poke_spec {string : List UInt8} (inside : off + string.length ≤ format.blockSize)
    : format.poke buf off string = some (buf.store off string) := by
  simp [poke, inside]

theorem sameOutside_store (buf : Memory) (off : Nat) (string : List UInt8)
    : SameOutside buf (buf.store off string) off string.length :=
  fun _ apart => Memory.store_other buf apart

theorem direntAt_readable (format : Format) (buf : Memory) (off : Nat)
    : ∃ slot, format.direntAt buf off = some slot := by
  have size := format.blockSize_bounds
  unfold direntAt
  split
  · exact ⟨_, rfl⟩
  · rename_i within
    have inside : off + HDR_LEN ≤ format.blockSize := by
      simp only [HDR_LEN] at within ⊢
      omega
    simp only [peekHdr, if_pos inside]
    split
    · exact ⟨_, rfl⟩
    · split <;> exact ⟨_, rfl⟩

variable {d : DirentHdr} {scan : Scan} {name : Name}

theorem direntAt_record (found : format.direntAt buf off = some (.record d))
    : HDR_LEN ≤ d.recLen ∧ d.recLen % 4 = 0 ∧ off + d.recLen ≤ format.blockSize
      ∧ d = ⟨buf.word off, buf.half (off + 4), (buf (off + 6)).toNat,
        (buf (off + 7)).toNat⟩ := by
  have size := format.blockSize_bounds
  unfold direntAt at found
  split at found
  · cases found
  · rename_i within
    have inside : off + HDR_LEN ≤ format.blockSize := by
      simp only [HDR_LEN] at within ⊢
      omega
    simp only [peekHdr, if_pos inside] at found
    split at found
    · cases found
    · split at found
      · cases found
      · rename_i sound
        injection found with found
        injection found with found
        subst found
        simp only [not_or, Nat.not_lt, ne_eq, not_not] at sound
        obtain ⟨long, aligned, short, fits⟩ := sound
        exact ⟨long, aligned, show off + buf.half (off + 4) ≤ format.blockSize by omega, rfl⟩

theorem direntAt_moves (format : Format) (buf : Memory) (off : Nat) (d : DirentHdr)
    (found : format.direntAt buf off = some (.record d))
    : 0 < d.recLen ∧ off + d.recLen ≤ format.blockSize := by
  obtain ⟨long, _, inside, _⟩ := direntAt_record found
  simp only [HDR_LEN] at long
  exact ⟨by omega, inside⟩

theorem nameLen_le (found : format.direntAt buf off = some (.record d)) : d.nameLen ≤ 255 := by
  obtain ⟨_, _, _, rfl⟩ := direntAt_record found
  have small := (buf (off + 6)).toNat_lt
  simp only
  omega

theorem look_readable (name : Name) (found : format.direntAt buf off = some (.record d))
    : ∃ seen, format.look buf name off d = some seen
        ∧ (seen = .other → HDR_LEN + d.nameLen ≤ d.recLen) := by
  obtain ⟨long, _, inside, _⟩ := direntAt_record found
  unfold look
  split
  · exact ⟨.deleted, rfl, by simp⟩
  · split
    · exact ⟨.malformed, rfl, by simp⟩
    · rename_i sound
      have short : HDR_LEN + d.nameLen ≤ d.recLen := by omega
      split
      · rename_i same
        have within : off + HDR_LEN + name.length ≤ format.blockSize := by omega
        simp only [sameName, if_pos within, Option.map_some]
        exact ⟨_, rfl, fun _ => short⟩
      · exact ⟨.other, rfl, fun _ => short⟩

-- The writes

theorem direntRecLen_bounds (nameLen : Nat)
    : HDR_LEN + nameLen ≤ direntRecLen nameLen ∧ direntRecLen nameLen ≤ HDR_LEN + nameLen + 3
      ∧ direntRecLen nameLen % 4 = 0 := by
  simp only [direntRecLen, HDR_LEN]
  omega

/-- What `ext2_dirent_write` stores, where the record has room for the name. -/
def written (format : Format) (buf : Memory) (off inum : Nat) (name : Name)
    (fileType recLen : Nat) : Memory :=
  ((buf.fill off recLen 0).store off
    (DirentHdr.mk inum recLen name.length (if format.hasFiletype then fileType else 0)).bytes
    ).store (off + HDR_LEN) name

theorem direntWrite_spec {inum fileType recLen : Nat} {name : Name}
    (inside : off + recLen ≤ format.blockSize) (room : HDR_LEN + name.length ≤ recLen)
    : format.direntWrite buf off inum name fileType recLen
        = some (format.written buf off inum name fileType recLen)
      ∧ SameOutside buf (format.written buf off inum name fileType recLen) off recLen := by
  have header (fields : DirentHdr) : off + fields.bytes.length ≤ format.blockSize := by
    rw [length_hdr_bytes]
    omega
  constructor
  · simp only [direntWrite, clear_spec inside]
    rw [poke_spec (header _)]
    exact poke_spec (by omega)
  · intro place apart
    rw [written, Memory.store_other _ (by omega),
      Memory.store_other _ (by rw [length_hdr_bytes]; omega), Memory.fill_other _ apart]

def carved (format : Format) (buf : Memory) (off need : Nat) (d : DirentHdr) (inum : Nat)
    (name : Name) (fileType : Nat) : Memory :=
  let keep := d.recLen - need
  let self := direntRecLen d.nameLen
  format.written
    ((buf.store off { d with recLen := keep }.bytes).fill (off + self) (keep - self) 0)
    (off + keep) inum name fileType need

theorem carve_spec {d : DirentHdr} {need inum fileType : Nat} {name : Name}
    (found : format.direntAt buf off = some (.record d))
    (spare : need + direntRecLen d.nameLen ≤ d.recLen) (room : HDR_LEN + name.length ≤ need)
    : format.carve buf off need inum name fileType
        = some (format.carved buf off need d inum name fileType)
      ∧ SameOutside buf (format.carved buf off need d inum name fileType) off d.recLen := by
  obtain ⟨_, _, inside, _⟩ := direntAt_record found
  have self := direntRecLen_bounds d.nameLen
  have header (fields : DirentHdr) : off + fields.bytes.length ≤ format.blockSize := by
    rw [length_hdr_bytes]
    omega
  have keep : off + (d.recLen - need) + need ≤ format.blockSize := by omega
  constructor
  · simp only [carve, found]
    rw [poke_spec (header _)]
    simp only
    rw [clear_spec (by omega)]
    exact (direntWrite_spec keep room).1
  · intro place apart
    rw [carved, (direntWrite_spec keep room).2 place (by omega),
      Memory.fill_other _ (by omega), Memory.store_other _ (by rw [length_hdr_bytes]; omega)]

/-- What the removal step does to a block. -/
theorem removeAt_spec (found : format.direntAt buf off = some (.record d))
    : (∃ nx, format.direntAt buf (off + d.recLen) = some (.record nx) ∧ nx.inode = 0
        ∧ format.removeAt buf off d
          = some (((buf.fill (off + d.recLen) nx.recLen 0).store off
              (DirentHdr.mk 0 (d.recLen + nx.recLen) 0 0).bytes).fill (off + HDR_LEN)
                (d.recLen + nx.recLen - HDR_LEN) 0))
      ∨ ((∀ nx, format.direntAt buf (off + d.recLen) = some (.record nx) → nx.inode ≠ 0)
        ∧ format.removeAt buf off d
          = some ((buf.store off (DirentHdr.mk 0 d.recLen 0 0).bytes).fill (off + HDR_LEN)
              (d.recLen - HDR_LEN) 0)) := by
  obtain ⟨long, _, inside, _⟩ := direntAt_record found
  have header (total : Nat)
      : off + (DirentHdr.mk 0 total 0 0).bytes.length ≤ format.blockSize := by
    rw [length_hdr_bytes]
    omega
  have alone
      (unabsorbed
        : ∀ nx, format.direntAt buf (off + d.recLen) = some (.record nx) → nx.inode ≠ 0)
      : format.removeAt buf off d
        = some ((buf.store off (DirentHdr.mk 0 d.recLen 0 0).bytes).fill (off + HDR_LEN)
            (d.recLen - HDR_LEN) 0) := by
    obtain ⟨slot, stands⟩ := direntAt_readable format buf (off + d.recLen)
    cases slot with
    | record nx =>
        simp only [removeAt, stands, if_neg (unabsorbed nx stands)]
        rw [poke_spec (header _)]
        exact clear_spec (by omega)
    | unused =>
        simp only [removeAt, stands]
        rw [poke_spec (header _)]
        exact clear_spec (by omega)
    | broken =>
        simp only [removeAt, stands]
        rw [poke_spec (header _)]
        exact clear_spec (by omega)
  by_cases absorbs
      : ∃ nx, format.direntAt buf (off + d.recLen) = some (.record nx) ∧ nx.inode = 0
  · obtain ⟨nx, stands, hole⟩ := absorbs
    obtain ⟨_, _, behind, _⟩ := direntAt_record stands
    refine Or.inl ⟨nx, stands, hole, ?_⟩
    simp only [removeAt, stands, if_pos hole, clear_spec behind, Option.map_some]
    rw [poke_spec (header _)]
    exact clear_spec (by omega)
  · have unabsorbed
        : ∀ nx, format.direntAt buf (off + d.recLen) = some (.record nx) → nx.inode ≠ 0 :=
      fun nx stands hole => absorbs ⟨nx, stands, hole⟩
    exact Or.inr ⟨unabsorbed, alone unabsorbed⟩

theorem removeAt_inside (found : format.direntAt buf off = some (.record d))
    : ∃ after, format.removeAt buf off d = some after
        ∧ SameOutside buf after 0 format.blockSize := by
  obtain ⟨long, _, inside, _⟩ := direntAt_record found
  rcases removeAt_spec found with ⟨nx, stands, _, removed⟩ | ⟨_, removed⟩
  · obtain ⟨_, _, behind, _⟩ := direntAt_record stands
    refine ⟨_, removed, ?_⟩
    intro place apart
    rw [Memory.fill_other _ (by omega),
      Memory.store_other _ (by rw [length_hdr_bytes]; omega), Memory.fill_other _ (by omega)]
  · refine ⟨_, removed, ?_⟩
    intro place apart
    rw [Memory.fill_other _ (by omega),
      Memory.store_other _ (by rw [length_hdr_bytes]; omega)]

-- The loops

theorem search_ends (format : Format) (buf : Memory) (name : Name)
    : ∃ found, format.search buf name = some found
        ∧ ∀ off d, found = some (off, d) → format.direntAt buf off = some (.record d) := by
  have visits (off : Nat) (state : Unit) (d : DirentHdr) (_ : True)
      (stands : format.direntAt buf off = some (.record d))
      : (∃ next, format.searchVisit buf name state off d = some (.next next) ∧ True)
        ∨ ∃ found, format.searchVisit buf name state off d = some (.stop found)
          ∧ ∀ off d, found = some (off, d) → format.direntAt buf off = some (.record d) := by
    obtain ⟨seen, looked, _⟩ := look_readable name stands
    simp only [searchVisit, looked, Option.map_some]
    cases seen with
    | deleted => exact Or.inl ⟨(), rfl, trivial⟩
    | other => exact Or.inl ⟨(), rfl, trivial⟩
    | malformed => exact Or.inr ⟨none, rfl, by simp⟩
    | named =>
        refine Or.inr ⟨some (off, d), rfl, ?_⟩
        intro other header same
        injection same with same
        injection same with sameOff sameHeader
        rw [← sameOff, ← sameHeader]
        exact stands
  obtain ⟨ended, walked, meets⟩ := walk_ends (fun _ _ => True) _
    (direntAt_readable format buf) (direntAt_moves format buf) visits
    (format.blockSize + 1) 0 () (by omega) (by omega) trivial
  cases ended with
  | unused _ => exact ⟨none, by simp [search, walked], by simp⟩
  | broken _ => exact ⟨none, by simp [search, walked], by simp⟩
  | stopped found => exact ⟨found, by simp [search, walked], meets⟩

/-- What the loop of `ext2_dirent_place` keeps: each remembered place lies in the block and has
the room it is remembered for.
-/
structure ScanInside (format : Format) (buf : Memory) (need : Nat) (scan : Scan) : Prop where
  hole
    : need ≤ scan.holeLen → scan.holeOff + scan.holeLen ≤ format.blockSize
  split
    : ∀ off ∈ scan.splitOff, ∃ d, format.direntAt buf off = some (.record d)
        ∧ need + direntRecLen d.nameLen ≤ d.recLen
  last : scan.lastOff + scan.lastLen ≤ format.blockSize

theorem ScanInside.hole_last {need : Nat} (inside : format.ScanInside buf need scan)
    (stands : format.direntAt buf off = some (.record d))
    : format.ScanInside buf need ((scan.hole need off d.recLen).last off d.recLen) := by
  have within := (direntAt_moves format buf off d stands).2
  refine ⟨?_, ?_, within⟩
  · simp only [Scan.hole, Scan.last]
    split
    · exact fun _ => within
    · exact inside.hole
  · simp only [Scan.hole, Scan.last]
    split <;> exact inside.split

theorem ScanInside.split_last {need : Nat} (inside : format.ScanInside buf need scan)
    (stands : format.direntAt buf off = some (.record d))
    : format.ScanInside buf need
        ((scan.split need off d.recLen d.nameLen).last off d.recLen) := by
  have within := (direntAt_moves format buf off d stands).2
  refine ⟨?_, ?_, within⟩
  · simp only [Scan.split, Scan.last]
    split <;> exact inside.hole
  · simp only [Scan.split, Scan.last]
    split
    · rename_i spare
      intro other here
      obtain rfl : off = other := by simpa using here
      exact ⟨d, stands, by omega⟩
    · exact inside.split

theorem placeWalk_ends (format : Format) (buf : Memory) (need : Nat) (name : Name)
    (positive : 0 < need)
    : ∃ ended, walk (format.direntAt buf) DirentHdr.recLen (format.placeVisit buf need name)
          (format.blockSize + 1) 0 Scan.start = some ended
        ∧ ended.Meets (fun scan => format.ScanInside buf need scan) (fun _ => True) := by
  have visits (off : Nat) (scan : Scan) (d : DirentHdr)
      (inside : format.ScanInside buf need scan)
      (stands : format.direntAt buf off = some (.record d))
      : (∃ next, format.placeVisit buf need name scan off d = some (.next next)
          ∧ format.ScanInside buf need next)
        ∨ ∃ verdict, format.placeVisit buf need name scan off d = some (.stop verdict)
          ∧ True := by
    obtain ⟨seen, looked, _⟩ := look_readable name stands
    simp only [placeVisit, looked, Option.map_some]
    cases seen with
    | deleted => exact Or.inl ⟨_, rfl, inside.hole_last stands⟩
    | other => exact Or.inl ⟨_, rfl, inside.split_last stands⟩
    | malformed => exact Or.inr ⟨_, rfl, trivial⟩
    | named => exact Or.inr ⟨_, rfl, trivial⟩
  have start : format.ScanInside buf need Scan.start := by
    refine ⟨?_, by simp [Scan.start], by simp [Scan.start]⟩
    intro long
    simp only [Scan.start] at long
    omega
  obtain ⟨ended, walked, meets⟩ := walk_ends
    (fun _ scan => format.ScanInside buf need scan) (fun _ => True)
    (direntAt_readable format buf) (direntAt_moves format buf) visits
    (format.blockSize + 1) 0 Scan.start (by omega) (by omega) start
  refine ⟨ended, walked, ?_⟩
  cases ended with
  | unused scan => exact meets.choose_spec.2
  | broken scan => exact meets.choose_spec.2
  | stopped verdict => trivial

-- The functions on a block of arbitrary bytes

theorem direntRecLen_fits (format : Format) (ok : direntNameOk name = true)
    : 0 < direntRecLen name.length ∧ direntRecLen name.length ≤ format.blockSize := by
  have size := format.blockSize_bounds
  have bounds := direntRecLen_bounds name.length
  simp only [direntNameOk, EXT2_NAME_LEN, Bool.and_eq_true, decide_eq_true_eq] at ok
  have short : name.length ≤ 255 := of_decide_eq_true ok.1.2
  simp only [HDR_LEN] at bounds
  omega

theorem placeAt_inside {inum fileType : Nat} (ok : direntNameOk name = true)
    (inside : format.ScanInside buf (direntRecLen name.length) scan)
    : ∃ verdict after,
        format.placeAt buf (direntRecLen name.length) name inum fileType scan
          = some (verdict, after)
        ∧ SameOutside buf after 0 format.blockSize := by
  have room := (direntRecLen_bounds name.length).1
  have fits := (direntRecLen_fits format ok).2
  have writes (off recLen : Nat) (within : off + recLen ≤ format.blockSize)
      (long : HDR_LEN + name.length ≤ recLen)
      : ∃ after, format.direntWrite buf off inum name fileType recLen = some after
          ∧ SameOutside buf after 0 format.blockSize :=
    ⟨_, (direntWrite_spec within long).1,
      (direntWrite_spec within long).2.mono (by omega) (by omega)⟩
  unfold placeAt
  split
  · rename_i long
    obtain ⟨after, stored, same⟩ := writes _ _ (inside.hole long) (by omega)
    exact ⟨_, _, by rw [stored]; rfl, same⟩
  · split
    · rename_i splitOff remembered
      obtain ⟨d, stands, spare⟩ := inside.split splitOff remembered
      obtain ⟨_, _, within, _⟩ := direntAt_record stands
      obtain ⟨stored, same⟩ := @carve_spec format _ _ _ _ _ _ _ stands spare room
      exact ⟨_, _, by rw [stored]; rfl, same.mono (by omega) (by omega)⟩
    · by_cases seen : scan.seen = true
      · have last := inside.last
        simp only [seen, Bool.not_true, Bool.false_eq_true, if_false]
        split
        · exact ⟨_, _, rfl, fun _ _ => rfl⟩
        · rename_i roomy
          have within : scan.lastOff + scan.lastLen
              + (format.blockSize - (scan.lastOff + scan.lastLen)) ≤ format.blockSize := by
            omega
          obtain ⟨after, stored, same⟩ := writes (scan.lastOff + scan.lastLen)
            (direntRecLen name.length) (by omega) room
          simp only [allZero, if_pos within]
          split
          · rename_i unread
            cases unread
          · exact ⟨_, _, rfl, fun _ _ => rfl⟩
          · exact ⟨_, _, by rw [stored]; rfl, same⟩
      · simp only [seen, Bool.not_false, if_true]
        obtain ⟨after, stored, same⟩ := writes 0 (direntRecLen name.length) (by omega) room
        exact ⟨_, _, by rw [stored]; rfl, same⟩

theorem direntPlace_inside (buf : Memory) (inum fileType : Nat) (ok : direntNameOk name = true)
    : ∃ verdict after,
        format.direntPlace buf (direntRecLen name.length) name inum fileType
          = some (verdict, after)
        ∧ SameOutside buf after 0 format.blockSize := by
  obtain ⟨ended, walked, meets⟩ := placeWalk_ends format buf (direntRecLen name.length) name
    (direntRecLen_fits format ok).1
  simp only [direntPlace, walked]
  cases ended with
  | unused scan => exact placeAt_inside ok meets
  | broken scan => exact ⟨_, _, rfl, fun _ _ => rfl⟩
  | stopped verdict => exact ⟨_, _, rfl, fun _ _ => rfl⟩

theorem direntFind_inside (buf : Memory) (name : Name)
    : ∃ found, format.direntFind buf name = some found := by
  obtain ⟨found, searched, _⟩ := search_ends format buf name
  exact ⟨_, by rw [direntFind, searched]; rfl⟩

theorem direntRemove_inside (buf : Memory) (name : Name)
    : ∃ written, format.direntRemove buf name = some written
        ∧ ∀ after ∈ written, SameOutside buf after 0 format.blockSize := by
  obtain ⟨found, searched, records⟩ := search_ends format buf name
  simp only [direntRemove, searched]
  cases found with
  | none => exact ⟨none, rfl, by simp⟩
  | some place =>
      obtain ⟨off, d⟩ := place
      obtain ⟨after, removed, same⟩ := removeAt_inside (records off d rfl)
      refine ⟨some after, by simp [removed], ?_⟩
      intro other here
      obtain rfl : after = other := by simpa using here
      exact same

theorem direntSetParent_inside (buf : Memory) (parentInum : Nat)
    : ∃ written, format.direntSetParent buf parentInum = some written
        ∧ ∀ after ∈ written, SameOutside buf after 0 format.blockSize := by
  obtain ⟨found, searched, records⟩ := search_ends format buf dotDot
  simp only [direntSetParent, searched]
  cases found with
  | none => exact ⟨none, rfl, by simp⟩
  | some place =>
      obtain ⟨off, d⟩ := place
      obtain ⟨long, _, inside, _⟩ := direntAt_record (records off d rfl)
      have header : off + { d with inode := parentInum }.bytes.length ≤ format.blockSize := by
        rw [length_hdr_bytes]
        omega
      refine ⟨_, congrArg (Option.map some) (poke_spec header), ?_⟩
      intro other here
      obtain rfl := Option.some.inj here
      exact (sameOutside_store buf off _).mono (by omega) (by omega)

end Panuti.Ext2.Format
