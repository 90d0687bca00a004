import Panuti.Block.Utils

/-! Unaligned access to a block device against a flat array of bytes: the reads and writes of
`utils.c` come to those of the array exactly where the scratch buffer holds the blocks.
-/

namespace Panuti.Block

open ByteMemory Panuti.Library

-- The numbers of the scratch buffer

section

variable {Impl : Type} (dev : Device Impl) (kmalloc : (size align : Nat) → Bool) {offset len : Nat}

theorem offDevice_iff (some : 0 < len) : OffDevice dev offset len ↔ dev.size < offset + len := by
  constructor
  · rintro ⟨location, low, high, past⟩
    omega
  · intro past
    exact ⟨offset + len - 1, by omega, by omega, by omega⟩

theorem endblk_eq (fits : offset + len < 2 ^ 64)
    : endblk dev offset len = (offset + len - 1) / dev.blockSize := by
  rw [endblk, Nat.mod_eq_of_lt (by omega)]

theorem blockCount_le_endblk_iff (fits : offset + len < 2 ^ 64) (some : 0 < len)
    : dev.blockCount ≤ endblk dev offset len ↔ OffDevice dev offset len := by
  rw [offDevice_iff dev some, endblk_eq dev fits, ← Nat.not_lt, dev.last_lt_iff offset some]
  omega

theorem blkc_eq (fits : offset + len < 2 ^ 64) (some : 0 < len) (len_lt : len < 2 ^ 32)
    : blkc dev offset len = dev.span offset len := by
  have small := Nat.lt_of_le_of_lt (dev.span_le offset some) len_lt
  have order : offset / dev.blockSize ≤ (offset + len - 1) / dev.blockSize :=
    Nat.div_le_div_right (by omega)
  rw [Device.span] at small ⊢
  rw [blkc, startblk, endblk_eq dev fits]
  omega

end

-- The way through the scratch buffer

section

variable {Impl : Type} (dev : Device Impl) (kmalloc : (size align : Nat) → Bool) {offset len : Nat}
    {buf : List UInt8}

theorem bounded_span (fits : offset + len < 2 ^ 64) (some : 0 < len)
    : offset / dev.blockSize + dev.span offset len < 2 ^ 64 := by
  rw [(dev.span_holds offset some).1]
  have := Nat.div_le_self (offset + len - 1) dev.blockSize
  omega

theorem scratch_read (impl : Impl) (fits : offset + len < 2 ^ 64) (some : 0 < len)
    (len_lt : len < 2 ^ 32) (roomy : dev.span offset len * dev.blockSize < 2 ^ 32)
    : ∃ rc out after,
        dev.readInto impl (startblk dev offset) (blkc dev offset len)
            (List.replicate (scratchLen dev offset len) 0) = Option.some (rc, out, after)
        ∧ (rc = .ok →
            out = (dev.contents impl).bytes (offset / dev.blockSize * dev.blockSize)
              (dev.span offset len * dev.blockSize)
            ∧ dev.contents after = dev.contents impl) := by
  rw [scratchLen, blkc_eq dev fits some len_lt, Nat.mod_eq_of_lt roomy]
  exact dev.read_blocks impl (bounded_span dev fits some)

theorem scratch_overruns (impl : Impl) (fits : offset + len < 2 ^ 64) (some : 0 < len)
    (len_lt : len < 2 ^ 32) (inside : offset + len ≤ dev.size)
    (large : 2 ^ 32 ≤ dev.span offset len * dev.blockSize)
    : dev.readInto impl (startblk dev offset) (blkc dev offset len)
        (List.replicate (scratchLen dev offset len) 0) = none := by
  have last := (dev.last_lt_iff offset some).mpr inside
  apply dev.readInto_overruns
  · rw [blkc_eq dev fits some len_lt, startblk, (dev.span_holds offset some).1]
    omega
  · rw [List.length_replicate, scratchLen, blkc_eq dev fits some len_lt]
    exact Nat.lt_of_lt_of_le (Nat.mod_lt _ (Nat.two_pow_pos 32)) large

theorem skip_eq (offset : Nat)
    : offset - startblk dev offset * dev.blockSize = offset % dev.blockSize := by
  rw [startblk, Nat.mod_eq_sub_mul_div, Nat.mul_comm]

theorem startblk_skip (offset : Nat)
    : offset / dev.blockSize * dev.blockSize + offset % dev.blockSize = offset := by
  rw [Nat.mul_comm]
  exact Nat.div_add_mod offset dev.blockSize

theorem window_read (memory : Memory) (offset : Nat) (some : 0 < len)
    : readAt (memory.bytes (offset / dev.blockSize * dev.blockSize)
          (dev.span offset len * dev.blockSize)) (offset % dev.blockSize : Nat) len
      = Option.some (memory.bytes offset len) := by
  have inside := (dev.span_holds offset some).2
  rw [readAt, if_pos (by rw [Memory.length_bytes]; omega)]
  rw [Int.toNat_natCast, Int.toNat_natCast, Memory.bytes_slice _ _ inside, startblk_skip dev offset]

theorem window_write (memory : Memory) (offset : Nat) (some : 0 < buf.length)
    : ∃ patched,
        writeAt (memory.bytes (offset / dev.blockSize * dev.blockSize)
            (dev.span offset buf.length * dev.blockSize)) (offset % dev.blockSize : Nat) buf
          = Option.some patched
        ∧ patched.length = dev.span offset buf.length * dev.blockSize
        ∧ memory.store (offset / dev.blockSize * dev.blockSize) patched
          = memory.store offset buf := by
  have inside := (dev.span_holds offset some).2
  refine ⟨_, if_pos (by rw [Memory.length_bytes]; omega), ?_, ?_⟩
  · rw [Int.toNat_natCast, List.length_append, List.length_append, List.length_take,
      List.length_drop, Memory.length_bytes]
    omega
  · rw [Int.toNat_natCast, Memory.store_between _ _ buf inside, startblk_skip dev offset]

theorem whole_buf (buf : List UInt8) : readAt buf 0 (buf.length : Nat) = some buf := by
  rw [readAt, if_pos (by omega), Int.toNat_natCast, Int.toNat_zero, List.drop_zero,
    List.take_length]

theorem readThrough_spec (impl : Impl) (fits : offset + len < 2 ^ 64) (some : 0 < len)
    (len_lt : len < 2 ^ 32) (holds : buf.length = len)
    (roomy : dev.span offset len * dev.blockSize < 2 ^ 32)
    : ∃ rc out after, readThrough dev kmalloc impl offset len buf = Option.some (rc, out, after)
        ∧ (rc = .ok → out = (dev.contents impl).bytes offset len
            ∧ dev.contents after = dev.contents impl) := by
  obtain ⟨rc, scratch, after, ran, served⟩ := scratch_read dev impl fits some len_lt roomy
  rw [readThrough]
  by_cases memory : kmalloc (scratchLen dev offset len) dev.blockSize
  · rw [if_pos memory]
    simp only [ran, Option.bind_eq_bind, Option.bind_some]
    by_cases fine : rc = .ok
    · obtain ⟨rfl, same⟩ := served fine
      rw [if_pos fine, skip_eq dev, window_read dev _ offset some, Option.bind_some,
        writeAt_whole (by rw [Memory.length_bytes, holds]), Option.bind_some]
      exact ⟨rc, _, after, rfl, fun _ => ⟨rfl, same⟩⟩
    · rw [if_neg fine]
      exact ⟨rc, buf, after, rfl, fun ok => absurd ok fine⟩
  · rw [if_neg memory]
    exact ⟨.io, buf, impl, rfl, fun ok => by cases ok⟩

theorem writeThrough_spec (impl : Impl)
    {write : Impl → (block count : Nat) → List UInt8 → BlockErr × Impl}
    (writes : dev.write = Option.some write) (fits : offset + len < 2 ^ 64) (some : 0 < len)
    (len_lt : len < 2 ^ 32) (holds : buf.length = len)
    (roomy : dev.span offset len * dev.blockSize < 2 ^ 32)
    : ∃ rc after, writeThrough dev kmalloc write impl offset len buf = Option.some (rc, after)
        ∧ (rc = .ok → dev.contents after = (dev.contents impl).store offset buf) := by
  obtain ⟨rc, scratch, after, ran, served⟩ := scratch_read dev impl fits some len_lt roomy
  rw [writeThrough]
  by_cases memory : kmalloc (scratchLen dev offset len) dev.blockSize
  · rw [if_pos memory]
    simp only [ran, Option.bind_eq_bind, Option.bind_some]
    by_cases fine : rc = .ok
    · obtain ⟨rfl, same⟩ := served fine
      subst holds
      obtain ⟨patched, put, exact, stores⟩ := window_write dev (dev.contents impl) offset some
      rw [if_pos fine, skip_eq dev, whole_buf, Option.bind_some, put, Option.bind_some,
        dev.writeFrom_exact after (by rw [exact, blkc_eq dev fits some len_lt])]
      refine ⟨_, _, rfl, fun done => ?_⟩
      have bounded : startblk dev offset + blkc dev offset buf.length < 2 ^ 64 := by
        rw [blkc_eq dev fits some len_lt]
        exact bounded_span dev fits some
      obtain ⟨-, stored⟩ := dev.write_ok writes bounded
        (by rw [exact, blkc_eq dev fits some len_lt]) (Prod.ext done rfl)
      rw [stored, same, startblk, stores]
    · rw [if_neg fine]
      exact ⟨rc, after, rfl, fun ok => absurd ok fine⟩
  · rw [if_neg memory]
    exact ⟨.io, impl, rfl, fun ok => by cases ok⟩

end

-- The way of whole blocks

section

variable {Impl : Type} (dev : Device Impl) (kmalloc : (size align : Nat) → Bool) {offset len : Nat}
    {buf : List UInt8}

theorem whole_blocks (start : offset % dev.blockSize = 0) (whole : len % dev.blockSize = 0)
    : startblk dev offset * dev.blockSize = offset
      ∧ len / dev.blockSize * dev.blockSize = len :=
  ⟨Nat.div_mul_cancel (Nat.dvd_of_mod_eq_zero start),
    Nat.div_mul_cancel (Nat.dvd_of_mod_eq_zero whole)⟩

theorem whole_bounded (fits : offset + len < 2 ^ 64)
    : startblk dev offset + len / dev.blockSize < 2 ^ 64 := by
  have first := Nat.div_le_self offset dev.blockSize
  have count := Nat.div_le_self len dev.blockSize
  rw [startblk]
  omega

theorem whole_span (some : 0 < len) (start : offset % dev.blockSize = 0)
    (whole : len % dev.blockSize = 0)
    : dev.span offset len * dev.blockSize = len := by
  obtain ⟨blocks, rfl⟩ := Nat.dvd_of_mod_eq_zero whole
  obtain ⟨first, rfl⟩ := Nat.dvd_of_mod_eq_zero start
  have positive : 0 < blocks := Nat.pos_of_mul_pos_left some
  have last : (dev.blockSize * first + dev.blockSize * blocks - 1) / dev.blockSize
      = first + blocks - 1 := by
    apply Nat.div_eq_of_lt_le
    · rw [Nat.sub_mul, Nat.add_mul]
      have := dev.blockSize_pos
      have := Nat.mul_comm dev.blockSize first
      have := Nat.mul_comm dev.blockSize blocks
      omega
    · have next : first + blocks - 1 + 1 = first + blocks := by omega
      rw [next, Nat.add_mul, Nat.mul_comm first, Nat.mul_comm blocks]
      omega
  rw [Device.span, last, Nat.mul_div_cancel_left first dev.blockSize_pos,
    Nat.mul_comm dev.blockSize blocks]
  congr 1
  omega

theorem aligned_read (impl : Impl) (fits : offset + len < 2 ^ 64) (holds : buf.length = len)
    (start : offset % dev.blockSize = 0) (whole : len % dev.blockSize = 0)
    : ∃ rc out after,
        dev.readInto impl (startblk dev offset) (len / dev.blockSize) buf
          = some (rc, out, after)
        ∧ (rc = .ok → out = (dev.contents impl).bytes offset len
            ∧ dev.contents after = dev.contents impl) := by
  obtain ⟨at_start, exact⟩ := whole_blocks dev start whole
  obtain ⟨rc, out, after, ran⟩ := dev.readInto_takes impl (startblk dev offset)
    (Nat.le_of_eq (exact.trans holds.symm))
  refine ⟨rc, out, after, ran, ?_⟩
  rintro rfl
  obtain ⟨-, bytes, same⟩ := dev.readInto_ok (whole_bounded dev fits) (by omega) ran
  rw [at_start, exact] at bytes
  exact ⟨bytes, same⟩

theorem aligned_write (impl : Impl)
    {write : Impl → (block count : Nat) → List UInt8 → BlockErr × Impl}
    (writes : dev.write = some write) (fits : offset + len < 2 ^ 64) (holds : buf.length = len)
    (start : offset % dev.blockSize = 0) (whole : len % dev.blockSize = 0)
    : ∃ rc after,
        dev.writeFrom write impl (startblk dev offset) (len / dev.blockSize) buf
          = some (rc, after)
        ∧ (rc = .ok → dev.contents after = (dev.contents impl).store offset buf) := by
  obtain ⟨at_start, exact⟩ := whole_blocks dev start whole
  rw [dev.writeFrom_exact impl (by omega)]
  refine ⟨_, _, rfl, fun done => ?_⟩
  obtain ⟨-, stored⟩ := dev.write_ok writes (whole_bounded dev fits) (by omega)
    (Prod.ext done rfl)
  rw [stored, at_start]

theorem pathsAgree (impl : Impl) (fits : offset + len < 2 ^ 64) (len_lt : len < 2 ^ 32)
    (holds : buf.length = len)
    : PathsAgree dev kmalloc impl offset len buf := by
  intro start whole some
  have roomy : dev.span offset len * dev.blockSize < 2 ^ 32 := by
    rw [whole_span dev some start whole]
    exact len_lt
  constructor
  · intro out slow after after' fast slowly
    obtain ⟨_, _, _, ran, bytes⟩ := aligned_read dev impl fits holds start whole
    obtain ⟨_, _, _, ran', bytes'⟩ := readThrough_spec dev kmalloc impl fits some len_lt holds roomy
    rw [fast] at ran
    rw [slowly] at ran'
    cases ran
    cases ran'
    rw [(bytes rfl).1, (bytes' rfl).1]
  · intro write after after' writes fast slowly
    obtain ⟨_, _, ran, stored⟩ := aligned_write dev impl writes fits holds start whole
    obtain ⟨_, _, ran', stored'⟩ :=
      writeThrough_spec dev kmalloc impl writes fits some len_lt holds roomy
    rw [fast] at ran
    rw [slowly] at ran'
    cases ran
    cases ran'
    rw [stored rfl, stored' rfl]

end

-- Reads and writes

section

variable {Impl : Type} (dev : Device Impl) (kmalloc : (size align : Nat) → Bool) {offset len : Nat}
    {buf : List UInt8}

theorem readsFlat_of_fits (impl : Impl) (fits : offset + len < 2 ^ 64) (len_lt : len < 2 ^ 32)
    (holds : buf.length = len) (room : ScratchFits dev kmalloc offset len)
    : ReadsFlat dev kmalloc impl offset len buf := by
  rw [ReadsFlat, blockReadBytes]
  by_cases empty : len = 0
  · subst empty
    rw [if_pos rfl]
    refine ⟨.ok, buf, impl, rfl, fun _ => ⟨List.eq_nil_of_length_eq_zero holds, rfl⟩, ?_⟩
    rintro ⟨location, low, high, -⟩
    omega
  have some : 0 < len := by omega
  rw [if_neg empty]
  by_cases off : OffDevice dev offset len
  · rw [if_pos ((blockCount_le_endblk_iff dev fits some).mpr off)]
    exact ⟨.inval, buf, impl, rfl, fun ok => (by cases ok), fun _ => ⟨by decide, rfl⟩⟩
  rw [if_neg (fun past => off ((blockCount_le_endblk_iff dev fits some).mp past))]
  by_cases whole : offset % dev.blockSize = 0 ∧ len % dev.blockSize = 0
  · obtain ⟨rc, out, after, ran, bytes⟩ := aligned_read dev impl fits holds whole.1 whole.2
    rw [if_pos whole]
    exact ⟨rc, out, after, ran, bytes, fun past => absurd past off⟩
  · rw [if_neg whole]
    by_cases roomy : dev.span offset len * dev.blockSize < 2 ^ 32
    · obtain ⟨rc, out, after, ran, bytes⟩ :=
        readThrough_spec dev kmalloc impl fits some len_lt holds roomy
      exact ⟨rc, out, after, ran, bytes, fun past => absurd past off⟩
    · have refused : kmalloc (scratchLen dev offset len) dev.blockSize = false := by
        rw [scratchLen, blkc_eq dev fits some len_lt]
        rcases room with room | room | room | room | room
        · exact absurd room empty
        · exact absurd room off
        · exact absurd room whole
        · exact absurd room roomy
        · exact room
      rw [readThrough, if_neg (by rw [refused]; decide)]
      exact ⟨.io, buf, impl, rfl, fun ok => (by cases ok), fun past => absurd past off⟩

theorem readThrough_overruns (impl : Impl) (fits : offset + len < 2 ^ 64) (len_lt : len < 2 ^ 32)
    (short : ¬ScratchFits dev kmalloc offset len)
    : blockReadBytes dev kmalloc impl offset len buf = none := by
  simp only [ScratchFits, not_or] at short
  obtain ⟨some, on, ragged, large, memory⟩ := short
  have positive : 0 < len := by omega
  rw [blockReadBytes, if_neg some,
    if_neg (fun past => on ((blockCount_le_endblk_iff dev fits positive).mp past)),
    if_neg ragged, readThrough, scratchLen, blkc_eq dev fits positive len_lt,
    if_pos (by simpa using memory), ← blkc_eq dev fits positive len_lt, ← scratchLen]
  have inside : offset + len ≤ dev.size := by
    rw [offDevice_iff dev positive] at on
    omega
  dsimp only
  rw [scratch_overruns dev impl fits positive len_lt inside (by omega)]
  rfl

theorem writesFlat_of_fits (impl : Impl) (fits : offset + len < 2 ^ 64) (len_lt : len < 2 ^ 32)
    (holds : buf.length = len) (room : dev.write = none ∨ ScratchFits dev kmalloc offset len)
    : WritesFlat dev kmalloc impl offset len buf := by
  have flat : ∀ {after}, dev.contents after = (dev.contents impl).store offset buf
      → ∀ location, dev.contents after location
        = if offset ≤ location ∧ location < offset + len then buf.getD (location - offset) 0
          else dev.contents impl location := by
    intro after stored location
    rw [stored, Memory.store, holds]
  rw [WritesFlat, blockWriteBytes]
  by_cases empty : len = 0
  · rw [if_pos empty]
    refine ⟨.ok, impl, rfl, ?_, ?_⟩
    · intro _ location
      rw [if_neg (by omega)]
    · rintro ⟨location, low, high, -⟩
      omega
  have some : 0 < len := by omega
  rw [if_neg empty]
  cases writes : dev.write with
  | none => exact ⟨.inval, impl, rfl, fun ok => (by cases ok), fun _ => ⟨by decide, rfl⟩⟩
  | some write =>
      dsimp only
      by_cases off : OffDevice dev offset len
      · rw [if_pos ((blockCount_le_endblk_iff dev fits some).mpr off)]
        exact ⟨.inval, impl, rfl, fun ok => (by cases ok), fun _ => ⟨by decide, rfl⟩⟩
      rw [if_neg (fun past => off ((blockCount_le_endblk_iff dev fits some).mp past))]
      by_cases whole : offset % dev.blockSize = 0 ∧ len % dev.blockSize = 0
      · obtain ⟨rc, after, ran, stored⟩ :=
          aligned_write dev impl writes fits holds whole.1 whole.2
        rw [if_pos whole]
        exact ⟨rc, after, ran, fun ok => flat (stored ok), fun past => absurd past off⟩
      · rw [if_neg whole]
        by_cases roomy : dev.span offset len * dev.blockSize < 2 ^ 32
        · obtain ⟨rc, after, ran, stored⟩ :=
            writeThrough_spec dev kmalloc impl writes fits some len_lt holds roomy
          exact ⟨rc, after, ran, fun ok => flat (stored ok), fun past => absurd past off⟩
        · have refused : kmalloc (scratchLen dev offset len) dev.blockSize = false := by
            rw [scratchLen, blkc_eq dev fits some len_lt]
            rcases room with room | room | room | room | room | room
            · rw [writes] at room
              cases room
            · exact absurd room empty
            · exact absurd room off
            · exact absurd room whole
            · exact absurd room roomy
            · exact room
          rw [writeThrough, if_neg (by rw [refused]; decide)]
          exact ⟨.io, impl, rfl, fun ok => (by cases ok), fun past => absurd past off⟩

theorem writeThrough_overruns (impl : Impl) (fits : offset + len < 2 ^ 64) (len_lt : len < 2 ^ 32)
    (writes : dev.write ≠ none) (short : ¬ScratchFits dev kmalloc offset len)
    : blockWriteBytes dev kmalloc impl offset len buf = none := by
  obtain ⟨write, given⟩ := Option.ne_none_iff_exists'.mp writes
  simp only [ScratchFits, not_or] at short
  obtain ⟨some, on, ragged, large, memory⟩ := short
  have positive : 0 < len := by omega
  rw [blockWriteBytes, if_neg some, given]
  dsimp only
  rw [if_neg (fun past => on ((blockCount_le_endblk_iff dev fits positive).mp past)),
    if_neg ragged, writeThrough, scratchLen, blkc_eq dev fits positive len_lt,
    if_pos (by simpa using memory), ← blkc_eq dev fits positive len_lt, ← scratchLen]
  have inside : offset + len ≤ dev.size := by
    rw [offDevice_iff dev positive] at on
    omega
  dsimp only
  rw [scratch_overruns dev impl fits positive len_lt inside (by omega)]
  rfl

/-- Access at any offset is that of a flat array of bytes exactly where the scratch buffer holds
the blocks, and the two ways through `utils.c` agree on whole blocks.
-/
theorem unaligned_access_iff (impl : Impl) {offset len : Nat} {buf : List UInt8}
    (fits : offset + len < 2 ^ 64) (len_lt : len < 2 ^ 32) (holds : buf.length = len)
    : (ReadsFlat dev kmalloc impl offset len buf ↔ ScratchFits dev kmalloc offset len)
      ∧ (WritesFlat dev kmalloc impl offset len buf
          ↔ dev.write = none ∨ ScratchFits dev kmalloc offset len)
      ∧ PathsAgree dev kmalloc impl offset len buf := by
  refine ⟨⟨?_, readsFlat_of_fits dev kmalloc impl fits len_lt holds⟩,
    ⟨?_, writesFlat_of_fits dev kmalloc impl fits len_lt holds⟩,
    pathsAgree dev kmalloc impl fits len_lt holds⟩
  · rintro ⟨rc, out, after, ran, -⟩
    by_contra short
    rw [readThrough_overruns dev kmalloc impl fits len_lt short] at ran
    cases ran
  · rintro ⟨rc, after, ran, -⟩
    by_contra short
    rw [not_or] at short
    rw [writeThrough_overruns dev kmalloc impl fits len_lt short.1 short.2] at ran
    cases ran

end

/-- A small range across two blocks of four bytes. -/
theorem unaligned_access_small
    : (ReadsFlat (disk 4 2 (by decide) (by decide) (by decide)) kmallocServes (fun _ => 0) 3 2 [1, 2]
        ↔ ScratchFits (disk 4 2 (by decide) (by decide) (by decide)) kmallocServes 3 2)
      ∧ (WritesFlat (disk 4 2 (by decide) (by decide) (by decide)) kmallocServes (fun _ => 0) 3 2
            [1, 2]
          ↔ (disk 4 2 (by decide) (by decide) (by decide)).write = none
            ∨ ScratchFits (disk 4 2 (by decide) (by decide) (by decide)) kmallocServes 3 2)
      ∧ PathsAgree (disk 4 2 (by decide) (by decide) (by decide)) kmallocServes (fun _ => 0) 3 2
          [1, 2] :=
  unaligned_access_iff _ _ _ (by decide) (by decide) rfl

/-- A disk of 4 GiB and one more block of 512 bytes. -/
def largeDisk : Device Memory := disk 512 8388609 (by decide) (by decide) (by decide)

/-- From the last byte of its first block on, 4 GiB less one byte touch all of its blocks, and the
scratch buffer is one block long: both a read and a write pass its end.
-/
theorem scratch_wraps
    : 511 + (2 ^ 32 - 1) ≤ largeDisk.size
      ∧ scratchLen largeDisk 511 (2 ^ 32 - 1) = 512
      ∧ blkc largeDisk 511 (2 ^ 32 - 1) = 8388609
      ∧ ¬ReadsFlat largeDisk kmallocServes (fun _ => 0) 511 (2 ^ 32 - 1)
          (List.replicate (2 ^ 32 - 1) 0)
      ∧ ¬WritesFlat largeDisk kmallocServes (fun _ => 0) 511 (2 ^ 32 - 1)
          (List.replicate (2 ^ 32 - 1) 0) := by
  have short : ¬ScratchFits largeDisk kmallocServes 511 (2 ^ 32 - 1) := by
    rw [ScratchFits, offDevice_iff _ (by decide)]
    decide
  refine ⟨by decide, by decide, by decide, ?_, ?_⟩
  · rintro ⟨rc, out, after, ran, -⟩
    rw [readThrough_overruns _ _ _ (by decide) (by decide) short] at ran
    cases ran
  · rintro ⟨rc, after, ran, -⟩
    rw [writeThrough_overruns _ _ _ (by decide) (by decide) (Option.some_ne_none _) short] at ran
    cases ran

end Panuti.Block
