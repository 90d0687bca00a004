import Panuti.Block.FlatAccess
import Panuti.Block.Handle

/-! A handle on a block device as an array of bytes with a position: every call in a run is one of
the array's, as long as the positions it comes to, and the sizes of its buffers, fit the 32 bits
they are kept in.
-/

namespace Panuti.Block

open ByteMemory Panuti.Library

section

variable {Impl : Type} (dev : Device Impl)

def Handle.view (bh : Handle Impl) : File := ⟨dev.contents bh.impl, bh.offset⟩

/-- A transfer ends within 32 bits, and is rejected, finds no memory, or has a position behind it,
a result and a buffer that fit an `int` and 32 bits.
-/
def LenFits (kmalloc : (size align : Nat) → Bool) (pos len : Nat) : Prop :=
  len = 0
  ∨ (pos + len ≤ 2 ^ 32
    ∧ (dev.size < pos + len
      ∨ kmalloc (dev.span pos len * dev.blockSize % 2 ^ 32) 1 = false
      ∨ (pos + len < 2 ^ 32 ∧ len < 2 ^ 31 ∧ dev.span pos len * dev.blockSize < 2 ^ 32)))

/-- The condition under which a call does what an array of bytes does: a seek leads to a position
of 32 bits, on a device whose size fits the 64 bits it is kept in.
-/
def Fits (kmalloc : (size align : Nat) → Bool) (pos : Nat) : Request → Prop
  | .seek whence offset =>
      ∀ base, seekBase dev.size pos whence = some base
        → seekTarget dev.size base offset < 2 ^ 32 ∧ dev.size < 2 ^ 64
          ∧ (whence = SEEK_END → dev.size < 2 ^ 63)
  | .read buf => LenFits dev kmalloc pos buf.length
  | .write buf => dev.write = none ∨ LenFits dev kmalloc pos buf.length

/-- Every call of a run meets the condition where it is made. -/
def AllFit (bh : Handle Impl) : List (((size align : Nat) → Bool) × Request) → Prop
  | [] => True
  | (kmalloc, request) :: rest =>
      Fits dev kmalloc bh.offset request
      ∧ ∀ answer after, call dev kmalloc bh request = some (answer, after) → AllFit after rest

-- The numbers of a transfer

variable {dev} {pos len : Nat} {bh : Handle Impl} {kmalloc : (size align : Nat) → Bool}
    {buf : List UInt8}

theorem numBlocks_eq (some : 0 < len) (len_lt : len < 2 ^ 32) (ends : pos + len ≤ 2 ^ 32)
    : numBlocks dev pos len = dev.span pos len := by
  have small := Nat.lt_of_le_of_lt (dev.span_le pos some) len_lt
  have order : pos / dev.blockSize ≤ (pos + len - 1) / dev.blockSize :=
    Nat.div_le_div_right (by omega)
  have sum : (pos + len - 1) % 2 ^ 32 = pos + len - 1 := Nat.mod_eq_of_lt (by omega)
  rw [Device.span] at small ⊢
  rw [numBlocks, sum]
  omega

theorem asInt_eq (small : len < 2 ^ 31) : asInt len = len := if_pos small

theorem advance_view {impl : Impl} (ends : bh.offset + len < 2 ^ 32)
    : (bh.advance impl len).view dev = ⟨dev.contents impl, bh.offset + len⟩ := by
  rw [Handle.view, Handle.advance]
  simp only [Nat.mod_eq_of_lt ends]

-- Seeks

theorem seekTo_eq {base offset : Int} (size_lt : dev.size < 2 ^ 64)
    (target : seekTarget dev.size base offset < 2 ^ 32)
    : seekTo dev base offset % 2 ^ 32 = seekTarget dev.size base offset := by
  have whole : devSize dev = dev.size := Nat.mod_eq_of_lt size_lt
  rw [seekTarget] at target ⊢
  have same : seekTo dev base offset = min (base + offset).toNat dev.size := by
    rw [seekTo, whole]
    have most : INT64_MAX = 2 ^ 63 - 1 := rfl
    by_cases clipped : 0 < offset ∧ INT64_MAX - offset < base
    · have positive : ¬INT64_MAX < 0 := by decide
      simp only [if_pos clipped, if_neg positive]
      rw [if_pos (by omega)]
      omega
    · simp only [if_neg clipped]
      by_cases below : base + offset < 0
      · simp only [if_pos below]
        rw [if_neg (by omega)]
        omega
      · simp only [if_neg below]
        split <;> omega
  rw [same, Nat.mod_eq_of_lt target]

theorem call_seek {whence offset : Int} (fits : Fits dev kmalloc bh.offset (.seek whence offset))
    : Behaves dev.size (bh.view dev) (.seek whence offset)
        ⟨(blockSeekOp dev bh whence offset).1, []⟩
        ((blockSeekOp dev bh whence offset).2.view dev) := by
  simp only [Fits, seekBase] at fits
  simp only [Behaves, seekBase, blockSeekOp, Handle.view]
  by_cases set : whence = SEEK_SET
  · rw [if_pos set] at fits
    obtain ⟨target, size_lt, -⟩ := fits 0 rfl
    rw [if_pos set, if_pos set]
    exact ⟨rfl, congrArg (File.mk _) (seekTo_eq size_lt target)⟩
  by_cases cur : whence = SEEK_CUR
  · rw [if_neg set, if_pos cur] at fits
    obtain ⟨target, size_lt, -⟩ := fits bh.offset rfl
    rw [if_neg set, if_neg set, if_pos cur, if_pos cur]
    exact ⟨rfl, congrArg (File.mk _) (seekTo_eq size_lt target)⟩
  by_cases last : whence = SEEK_END
  · rw [if_neg set, if_neg cur, if_pos last] at fits
    obtain ⟨target, size_lt, bounded⟩ := fits dev.size rfl
    have small := bounded last
    have whole : devSize dev = dev.size := Nat.mod_eq_of_lt size_lt
    have under : ¬INT64_MAX < (devSize dev : Int) := by
      rw [whole, INT64_MAX]
      omega
    rw [if_neg set, if_neg set, if_neg cur, if_neg cur, if_pos last, if_pos last, if_neg under]
    rw [whole]
    exact ⟨rfl, congrArg (File.mk _) (seekTo_eq size_lt target)⟩
  · rw [if_neg set, if_neg set, if_neg cur, if_neg cur, if_neg last, if_neg last]
    exact ⟨rfl, rfl⟩

-- Reads and writes

theorem blocks_bounded (some : 0 < len) (ends : pos + len ≤ 2 ^ 32)
    : pos / dev.blockSize + dev.span pos len < 2 ^ 64 :=
  bounded_span dev (by omega) some

theorem tmp_read (impl : Impl) (some : 0 < len) (ends : pos + len ≤ 2 ^ 32)
    (room : dev.size < pos + len ∨ dev.span pos len * dev.blockSize < 2 ^ 32)
    : ∃ rc out after,
        dev.readInto impl (pos / dev.blockSize) (dev.span pos len)
            (List.replicate (dev.span pos len * dev.blockSize % 2 ^ 32) 0)
          = Option.some (rc, out, after)
        ∧ (rc = .ok → pos + len ≤ dev.size
            ∧ out = (dev.contents impl).bytes (pos / dev.blockSize * dev.blockSize)
                (dev.span pos len * dev.blockSize)
            ∧ dev.contents after = dev.contents impl) := by
  by_cases on : pos + len ≤ dev.size
  · have roomy := room.resolve_left (by omega)
    obtain ⟨rc, out, after, ran, served⟩ := dev.read_blocks impl (blocks_bounded some ends)
    rw [Nat.mod_eq_of_lt roomy]
    exact ⟨rc, out, after, ran, fun fine => ⟨on, served fine⟩⟩
  · have past : dev.blockCount < pos / dev.blockSize + dev.span pos len := by
      have last := dev.last_lt_iff pos some
      rw [(dev.span_holds pos some).1]
      omega
    obtain ⟨rc, out, after, ran, failed⟩ := dev.readInto_past impl
      (List.replicate (dev.span pos len * dev.blockSize % 2 ^ 32) 0) (blocks_bounded some ends) past
    exact ⟨rc, out, after, ran, fun fine => absurd fine failed⟩

theorem LenFits.ready (some : 0 < len)
    (memory : kmalloc (dev.span pos len * dev.blockSize % 2 ^ 32) 1)
    (fits : LenFits dev kmalloc pos len)
    : pos + len ≤ 2 ^ 32
      ∧ (dev.size < pos + len
        ∨ (pos + len < 2 ^ 32 ∧ len < 2 ^ 31
          ∧ dev.span pos len * dev.blockSize < 2 ^ 32)) := by
  rcases fits with none | ⟨ends, off | refused | fine⟩
  · omega
  · exact ⟨ends, Or.inl off⟩
  · rw [refused] at memory
    cases memory
  · exact ⟨ends, Or.inr fine⟩

theorem LenFits.ends (some : 0 < len) (fits : LenFits dev kmalloc pos len) : pos + len ≤ 2 ^ 32 :=
  (fits.resolve_left (Nat.ne_of_gt some)).1

theorem call_read (whole : dev.AllOrNothing) (formed : (Request.read buf).WellFormed)
    (fits : Fits dev kmalloc bh.offset (.read buf))
    : ∃ answer after, call dev kmalloc bh (.read buf) = some (answer, after)
        ∧ Behaves dev.size (bh.view dev) (.read buf) answer (after.view dev) := by
  suffices served : ∃ returns out after,
      blockReadOp dev kmalloc bh buf.length buf = some (returns, out, after)
      ∧ Behaves dev.size (bh.view dev) (.read buf) ⟨returns, out⟩ (after.view dev) by
    obtain ⟨returns, out, after, ran, behaves⟩ := served
    refine ⟨_, _, ?_, behaves⟩
    simp only [call, ran, Option.bind_eq_bind, Option.bind_some]
  rw [blockReadOp]
  by_cases empty : buf.length = 0
  · rw [if_pos empty]
    refine ⟨0, buf, bh, rfl, Or.inl ⟨by rw [empty]; rfl, ?_, ?_⟩⟩
    · rw [empty, List.eq_nil_of_length_eq_zero empty]
      rfl
    · rw [empty]
      rfl
  have positive : 0 < buf.length := by omega
  rw [if_neg empty, numBlocks_eq positive formed (LenFits.ends positive fits)]
  dsimp only
  by_cases memory : kmalloc (dev.span bh.offset buf.length * dev.blockSize % 2 ^ 32) 1
  swap
  · rw [if_neg memory]
    exact ⟨0, buf, bh, rfl, Or.inr ⟨Int.le_refl 0, rfl, rfl⟩⟩
  obtain ⟨ends, ready⟩ := LenFits.ready positive memory fits
  obtain ⟨rc, tmp, after, ran, served⟩ :=
    tmp_read bh.impl positive ends (ready.imp_right (·.2.2))
  rw [if_pos memory, ran]
  simp only [Option.bind_eq_bind, Option.bind_some]
  by_cases fine : rc = .ok
  · obtain ⟨on, rfl, same⟩ := served fine
    obtain ⟨ends', small, roomy⟩ := ready.resolve_left (by omega)
    rw [if_neg (not_not.mpr fine), window_read dev _ bh.offset positive, Option.bind_some,
      writeAt_whole (Memory.length_bytes _ _ _), Option.bind_some]
    refine ⟨_, _, _, rfl, Or.inl ⟨asInt_eq small, rfl, ?_⟩⟩
    rw [advance_view ends', same]
    rfl
  · rw [if_pos fine]
    refine ⟨0, buf, _, rfl, Or.inr ⟨Int.le_refl 0, rfl, ?_⟩⟩
    exact congrArg (File.mk · bh.offset) (whole.readInto_fails ran fine)

theorem patchBlocks_behaves (whole : dev.AllOrNothing) {impl : Impl}
    {write : Impl → (block count : Nat) → List UInt8 → BlockErr × Impl} {tmp patched : List UInt8}
    (writes : dev.write = some write) (some : 0 < buf.length)
    (ends : bh.offset + buf.length < 2 ^ 32) (small : buf.length < 2 ^ 31)
    (same : dev.contents impl = dev.contents bh.impl)
    (put : writeAt tmp (bh.offset % dev.blockSize : Nat) buf = Option.some patched)
    (exact : patched.length = dev.span bh.offset buf.length * dev.blockSize)
    (stores
      : (dev.contents bh.impl).store (bh.offset / dev.blockSize * dev.blockSize) patched
        = (dev.contents bh.impl).store bh.offset buf)
    : ∃ returns after,
        patchBlocks dev write bh impl buf.length buf tmp = Option.some (returns, after)
        ∧ Behaves dev.size (bh.view dev) (.write buf) ⟨returns, buf⟩ (after.view dev) := by
  have counted : numBlocks dev bh.offset buf.length = dev.span bh.offset buf.length :=
    numBlocks_eq some (by omega) (by omega)
  rw [patchBlocks]
  simp only [whole_buf, put, counted, Option.bind_eq_bind, Option.bind_some,
    dev.writeFrom_exact impl exact]
  generalize given
    : write impl (bh.offset / dev.blockSize) (dev.span bh.offset buf.length) patched = answer
  obtain ⟨rc, after⟩ := answer
  dsimp only
  by_cases fine : rc = .ok
  · subst fine
    obtain ⟨-, stored⟩ := dev.write_ok writes (blocks_bounded some (by omega)) exact given
    rw [if_neg (not_not.mpr rfl)]
    refine ⟨_, _, rfl, Or.inl ⟨asInt_eq small, ?_⟩⟩
    rw [advance_view ends, stored, same, stores]
    rfl
  · rw [if_pos fine]
    refine ⟨0, _, rfl, Or.inr ⟨Int.le_refl 0, ?_⟩⟩
    exact congrArg (File.mk · bh.offset) ((whole.write_fails writes given fine).trans same)

theorem call_write (whole : dev.AllOrNothing) (formed : (Request.write buf).WellFormed)
    (fits : Fits dev kmalloc bh.offset (.write buf))
    : ∃ answer after, call dev kmalloc bh (.write buf) = some (answer, after)
        ∧ Behaves dev.size (bh.view dev) (.write buf) answer (after.view dev) := by
  suffices served : ∃ returns after,
      blockWriteOp dev kmalloc bh buf.length buf = some (returns, after)
      ∧ Behaves dev.size (bh.view dev) (.write buf) ⟨returns, buf⟩ (after.view dev) by
    obtain ⟨returns, after, ran, behaves⟩ := served
    refine ⟨_, _, ?_, behaves⟩
    simp only [call, ran, Option.bind_eq_bind, Option.bind_some]
  have idle : ∀ {returns : Int}, returns ≤ 0
      → Behaves dev.size (bh.view dev) (.write buf) ⟨returns, buf⟩ (bh.view dev) :=
    fun low => Or.inr ⟨low, rfl⟩
  rw [blockWriteOp]
  by_cases empty : buf.length = 0
  · rw [if_pos empty]
    exact ⟨0, bh, rfl, idle (Int.le_refl 0)⟩
  have positive : 0 < buf.length := by omega
  rw [if_neg empty]
  cases writes : dev.write with
  | none => exact ⟨_, bh, rfl, idle (by decide)⟩
  | some write =>
      have fits : LenFits dev kmalloc bh.offset buf.length := by
        refine fits.resolve_left ?_
        rw [writes]
        exact Option.some_ne_none _
      dsimp only
      rw [numBlocks_eq positive formed (fits.ends positive)]
      by_cases past : dev.blockCount < bh.offset / dev.blockSize + dev.span bh.offset buf.length
      · rw [if_pos past]
        exact ⟨_, bh, rfl, idle (by decide)⟩
      have on : bh.offset + buf.length ≤ dev.size := by
        have last := dev.last_lt_iff bh.offset positive
        rw [(dev.span_holds bh.offset positive).1] at past
        omega
      rw [if_neg past]
      by_cases memory : kmalloc (dev.span bh.offset buf.length * dev.blockSize % 2 ^ 32) 1
      swap
      · rw [if_neg memory]
        exact ⟨0, bh, rfl, idle (Int.le_refl 0)⟩
      obtain ⟨ends, ready⟩ := LenFits.ready positive memory fits
      obtain ⟨ends', small, roomy⟩ := ready.resolve_left (by omega)
      rw [if_pos memory]
      by_cases needed : bh.offset % dev.blockSize ≠ 0
          ∨ buf.length < dev.span bh.offset buf.length * dev.blockSize % 2 ^ 32
      · obtain ⟨rc, tmp, after, ran, served⟩ := tmp_read bh.impl positive ends (Or.inr roomy)
        rw [if_pos needed, ran]
        simp only [Option.bind_eq_bind, Option.bind_some]
        by_cases fine : rc = .ok
        · obtain ⟨-, rfl, same⟩ := served fine
          obtain ⟨patched, put, exact, stores⟩ :=
            window_write dev (dev.contents bh.impl) bh.offset positive
          rw [if_neg (not_not.mpr fine)]
          exact patchBlocks_behaves whole writes positive ends' small same put exact stores
        · rw [if_pos fine]
          refine ⟨0, _, rfl, Or.inr ⟨Int.le_refl 0, ?_⟩⟩
          exact congrArg (File.mk · bh.offset) (whole.readInto_fails ran fine)
      · -- the buffer covers its blocks
        rw [if_neg needed]
        rw [not_or, not_not, Nat.mod_eq_of_lt roomy] at needed
        have exact : buf.length = dev.span bh.offset buf.length * dev.blockSize := by
          have := (dev.span_holds bh.offset positive).2
          omega
        have start := startblk_skip dev bh.offset
        rw [needed.1, Nat.add_zero] at start
        refine patchBlocks_behaves whole writes positive ends' small rfl ?_ exact ?_
        · rw [needed.1]
          apply writeAt_whole
          rw [List.length_replicate, Nat.mod_eq_of_lt roomy]
          exact exact
        · rw [start]

-- Runs

theorem call_behaves (whole : dev.AllOrNothing) (request : Request) (formed : request.WellFormed)
    (fits : Fits dev kmalloc bh.offset request)
    : ∃ answer after, call dev kmalloc bh request = some (answer, after)
        ∧ Behaves dev.size (bh.view dev) request answer (after.view dev) := by
  cases request with
  | seek whence offset => exact ⟨_, _, rfl, call_seek fits⟩
  | read buf => exact call_read whole formed fits
  | write buf => exact call_write whole formed fits

/-- A handle behaves as an array of bytes with a position, in every run whose calls all fit. -/
theorem calls_behave (whole : dev.AllOrNothing)
    (trace : List (((size align : Nat) → Bool) × Request)) (bh : Handle Impl)
    (formed : ∀ step ∈ trace, step.2.WellFormed) (fit : AllFit dev bh trace)
    : ∃ answers after, calls dev bh trace = some (answers, after)
        ∧ BehavesAll dev.size (bh.view dev) (trace.map Prod.snd) answers (after.view dev) := by
  induction trace generalizing bh with
  | nil => exact ⟨[], bh, rfl, .nil _⟩
  | cons step rest ih =>
      obtain ⟨kmalloc, request⟩ := step
      obtain ⟨answer, middle, ran, behaves⟩ :=
        call_behaves whole request (formed _ List.mem_cons_self) fit.1
      obtain ⟨answers, after, runs, along⟩ :=
        ih middle (fun step member => formed step (List.mem_cons_of_mem _ member))
          (fit.2 answer middle ran)
      refine ⟨answer :: answers, after, ?_, .cons behaves along⟩
      simp only [calls, ran, runs, Option.bind_eq_bind, Option.bind_some]

end

/-- A disk of 512 KiB: to its end, and a read that finds nothing there. -/
theorem calls_behave_small
    : ∃ answers after,
        calls (disk 512 1024 (by decide) (by decide) (by decide)) ⟨fun _ => 0, 0, by decide⟩
            [(kmallocServes, .seek SEEK_END 0), (kmallocServes, .read [7, 7])]
          = some (answers, after)
        ∧ BehavesAll 524288 ⟨fun _ => 0, 0⟩ [.seek SEEK_END 0, .read [7, 7]] answers
            (after.view (disk 512 1024 (by decide) (by decide) (by decide))) := by
  refine calls_behave (disk_allOrNothing _ _ _) _ _ ?_ ⟨?_, ?_⟩
  · intro step member
    simp only [List.mem_cons, List.not_mem_nil, or_false] at member
    rcases member with rfl | rfl
    · exact ⟨by decide, by decide⟩
    · exact (by decide : 2 < 2 ^ 32)
  · intro base given
    cases given
    exact ⟨by decide, by decide, fun _ => by decide⟩
  · intro answer after ran
    cases ran
    exact ⟨Or.inr ⟨by decide, Or.inl (by decide)⟩, fun _ _ _ => trivial⟩

/-- On a disk of more than 4 GiB a seek to the byte behind the first 4 GiB succeeds, and leads to
the first byte.
-/
theorem seek_truncates
    : ∃ after,
        calls largeDisk ⟨fun _ => 0, 7, by decide⟩ [(kmallocServes, .seek SEEK_SET (2 ^ 32))]
          = some ([⟨0, []⟩], after)
        ∧ after.offset = 0
        ∧ 2 ^ 32 < largeDisk.size
        ∧ ¬BehavesAll largeDisk.size ⟨fun _ => 0, 7⟩ [.seek SEEK_SET (2 ^ 32)] [⟨0, []⟩]
            (after.view largeDisk) := by
  refine ⟨_, rfl, by decide, by decide, ?_⟩
  rintro (_ | ⟨behaves, ⟨⟩⟩)
  have led := congrArg File.pos behaves.2
  revert led
  decide

end Panuti.Block
