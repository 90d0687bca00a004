import Mathlib.Data.List.Pairwise
import Panuti.Libc.RegionSteps

/-! The whole heap under `malloc` and `free`: several disjoint regions in one memory. An
allocation adds one block in use, a release takes one away, and neither touches the payload
of any other block in use.
-/

namespace Panuti.Libc

open ByteMemory
open IntrusiveList (Segment)

-- Sound heaps

def Region.Apart (left right : Region) : Prop :=
  left.base + left.size ≤ right.base ∨ right.base + right.size ≤ left.base

/-- Every region's headers and free list describe one layout, and regions are disjoint. -/
structure Heap.Sound (heap : Heap) : Prop where
  described
    : ∀ region ∈ heap.regions,
        Describes heap.memory region (layout heap.memory region)
  apart : heap.regions.Pairwise Region.Apart

/-- A block of `size` bytes in use starts at `start` in some region. -/
def Heap.Used (heap : Heap) (start size : Nat) : Prop :=
  ∃ region ∈ heap.regions, UsedAt region.base (layout heap.memory region) start size

/-- The address lies in the payload of a block in use. -/
def Heap.PayloadByte (heap : Heap) (location : Nat) : Prop :=
  ∃ start size, heap.Used start size
    ∧ start + BLOCK_HDR ≤ location
    ∧ location < start + size

variable {memory after : Memory} {changed region : Region} {chunks result : List Chunk}
    {start size : Nat} {front back : List Region} {heap : Heap}

theorem Describes.congr {changed : Memory} (described : Describes memory region chunks)
    (same
      : ∀ location,
          ¬Untouched region chunks location → changed location = memory location)
    : Describes changed region chunks := by
  have inHeader {start chunk} (place : (start, chunk) ∈ placed region.base chunks)
      {location} (low : start ≤ location) (high : location < start + BLOCK_HDR)
      : changed location = memory location := by
    apply same
    intro untouched
    have := (untouched.apart start described.carved
      (described.fits chunk (mem_of_placed place)) place).1
    omega
  refine {
    described with
    laid := described.laid.congr ?_
    listed := described.listed.congr ?_
  }
  · intro start chunk place
    constructor <;>
    · apply Memory.word_congr
      intro location low high
      exact inHeader place (by omega) (by simp only [BLOCK_HDR]; omega)
  · intro node member
    apply Memory.word_congr
    intro location low high
    apply same
    intro untouched
    exact untouched.not_linkByte [node] described.carved described.fits
      (by simpa using member) ⟨node, by simp, low, high⟩

theorem Describes.used_inside (described : Describes memory region chunks)
    (used : UsedAt region.base chunks start size)
    : region.base ≤ start
      ∧ start + size ≤ region.base + region.brk
      ∧ HEAP_MIN_BLOCK ≤ size
      ∧ start % 8 = 0 := by
  have bounds := placed_bounds used
  have carved := described.carved
  refine ⟨bounds.1, ?_, (described.fits _ (mem_of_placed used)).1,
    placed_aligned described.fits described.aligned used⟩
  simp only at bounds
  omega

theorem Region.Apart.symm {left right : Region} (apart : left.Apart right) : right.Apart left :=
  Or.symm apart

instance : Std.Symm Region.Apart := ⟨fun _ _ => Region.Apart.symm⟩

theorem Describes.congr_apart {changed : Memory} {base : Nat}
    (described : Describes memory region chunks)
    (apart : base + size ≤ region.base ∨ region.base + region.size ≤ base)
    (frame
      : ∀ location,
          location < base ∨ base + size ≤ location → changed location = memory location)
    : Describes changed region chunks := by
  apply described.congr
  intro location touched
  have room := described.room
  apply frame
  by_contra inside
  apply touched
  simp only [Untouched]
  omega

-- Changing one region of several

theorem pairwise_middle (apart : (front ++ region :: back).Pairwise Region.Apart)
    : ∀ other ∈ front ++ back, other.Apart region := by
  intro other member
  obtain ⟨_, later, across⟩ := List.pairwise_append.mp apart
  rcases List.mem_append.mp member with inFront | inBack
  · exact across other inFront region (by simp)
  · exact (List.rel_of_pairwise_cons later inBack).symm

theorem used_middle
    : Heap.Used ⟨memory, front ++ region :: back⟩ start size
      ↔ UsedAt region.base (layout memory region) start size
        ∨ ∃ other ∈ front ++ back, UsedAt other.base (layout memory other) start size := by
  simp only [Heap.Used, List.mem_append, List.mem_cons]
  constructor
  · rintro ⟨other, inFront | rfl | inBack, used⟩
    · exact Or.inr ⟨other, Or.inl inFront, used⟩
    · exact Or.inl used
    · exact Or.inr ⟨other, Or.inr inBack, used⟩
  · rintro (used | ⟨other, inFront | inBack, used⟩)
    · exact ⟨region, Or.inr (Or.inl rfl), used⟩
    · exact ⟨other, Or.inl inFront, used⟩
    · exact ⟨other, Or.inr (Or.inr inBack), used⟩

theorem Heap.Sound.replace (sound : Heap.Sound ⟨memory, front ++ region :: back⟩)
    (described : Describes after changed result) (sameBase : changed.base = region.base)
    (sameSize : changed.size = region.size)
    (frame
      : ∀ location,
          location < region.base ∨ region.base + region.size ≤ location
          → after location = memory location)
    : Heap.Sound ⟨after, front ++ changed :: back⟩
      ∧ ∀ start size,
          Heap.Used ⟨after, front ++ changed :: back⟩ start size
          ↔ UsedAt region.base result start size
            ∨ ∃ other ∈ front ++ back,
                UsedAt other.base (layout memory other) start size := by
  have middle := pairwise_middle sound.apart
  have others : ∀ other ∈ front ++ back,
      Describes after other (layout memory other) := by
    intro other member
    refine (sound.described other ?_).congr_apart (Or.symm (middle other member)) frame
    simp only [List.mem_append, List.mem_cons] at member ⊢
    tauto
  have result_eq : layout after changed = result := described.layout_eq
  refine ⟨⟨?_, ?_⟩, ?_⟩
  · intro other member
    simp only [List.mem_append, List.mem_cons] at member
    by_cases same : other = changed
    · subst same
      rw [result_eq]
      exact described
    · have kept := others other (by simp only [List.mem_append]; tauto)
      rw [kept.layout_eq]
      exact kept
  · obtain ⟨inFront, fromRegion, across⟩ := List.pairwise_append.mp sound.apart
    obtain ⟨inBack, later⟩ := List.pairwise_cons.mp fromRegion
    refine List.pairwise_append.mpr ⟨inFront, List.pairwise_cons.mpr ⟨?_, later⟩, ?_⟩
    · intro other member
      simpa only [Region.Apart, sameBase, sameSize] using inBack other member
    · intro left before right member
      rcases List.mem_cons.mp member with rfl | after
      · simpa only [Region.Apart, sameBase, sameSize] using across left before region (by simp)
      · exact across left before right (by simp [after])
  · intro start size
    rw [used_middle, result_eq, sameBase]
    apply or_congr_right
    constructor
    · rintro ⟨other, member, used⟩
      exact ⟨other, member, by rwa [(others other member).layout_eq] at used⟩
    · rintro ⟨other, member, used⟩
      exact ⟨other, member, by rwa [(others other member).layout_eq]⟩

theorem Heap.Sound.outside {other : Region} {location : Nat}
    (sound : Heap.Sound ⟨memory, front ++ region :: back⟩) (member : other ∈ front ++ back)
    (used : UsedAt other.base (layout memory other) start size) (low : start ≤ location)
    (high : location < start + size)
    : location < region.base ∨ region.base + region.size ≤ location := by
  have apart := pairwise_middle sound.apart other member
  have described := sound.described other (by
    simp only [List.mem_append, List.mem_cons] at member ⊢
    tauto)
  have inside := described.used_inside used
  have room := described.room
  simp only [Region.Apart] at apart
  omega

-- Gaining and losing one block

/-- The heap gained one block in use, of `total ≥ need` bytes at `start`. -/
structure Heap.Gains (heap after : Heap) (need start total : Nat) : Prop where
  sound : after.Sound
  enough : need ≤ total
  used
    : ∀ other size,
        after.Used other size ↔ heap.Used other size ∨ (other = start ∧ size = total)
  fresh : ∀ size, ¬heap.Used start size
  frame : ∀ location, heap.PayloadByte location → after.memory location = heap.memory location

/-- The heap kept its blocks in use and their payloads. -/
structure Heap.Keeps (heap after : Heap) : Prop where
  sound : after.Sound
  used : ∀ start size, after.Used start size ↔ heap.Used start size
  frame : ∀ location, heap.PayloadByte location → after.memory location = heap.memory location

/-- The heap lost the block at `start`, and no payload of another block changed. -/
structure Heap.Loses (heap after : Heap) (start : Nat) : Prop where
  sound : after.Sound
  used : ∀ other size, after.Used other size ↔ heap.Used other size ∧ other ≠ start
  frame : ∀ location, after.PayloadByte location → after.memory location = heap.memory location

theorem Heap.Sound.keeps (sound : heap.Sound) : heap.Keeps heap :=
  ⟨sound, fun _ _ => Iff.rfl, fun _ _ => rfl⟩

theorem Heap.Keeps.gains {middle after : Heap} {need total : Nat} (keeps : heap.Keeps middle)
    (gains : middle.Gains after need start total)
    : heap.Gains after need start total := by
  refine ⟨gains.sound, gains.enough, ?_, ?_, ?_⟩
  · intro other size
    rw [gains.used, keeps.used]
  · intro size used
    exact gains.fresh size ((keeps.used start size).mpr used)
  · intro location payload
    rw [gains.frame, keeps.frame location payload]
    obtain ⟨other, size, used, inside⟩ := payload
    exact ⟨other, size, (keeps.used other size).mpr used, inside⟩

/-- Allocating in one region gains one block for the heap. -/
theorem Heap.Sound.allocate {need total : Nat}
    (sound : Heap.Sound ⟨memory, front ++ region :: back⟩)
    (allocated
      : Allocated memory region (layout memory region) need after changed result start
          total)
    : Heap.Gains ⟨memory, front ++ region :: back⟩ ⟨after, front ++ changed :: back⟩ need
        start total := by
  obtain ⟨kept, used⟩ := sound.replace allocated.described allocated.sameBase
    allocated.sameSize
    (fun location outside => allocated.frame location (by tauto))
  refine ⟨kept, allocated.enough, ?_, ?_, ?_⟩
  · intro other size
    rw [used, used_middle, allocated.used]
    exact or_right_comm
  · intro size already
    rw [used_middle] at already
    rcases already with here | ⟨other, member, elsewhere⟩
    · exact allocated.fresh size here
    · have inside := (sound.described other (by
        simp only [List.mem_append, List.mem_cons] at member ⊢
        tauto)).used_inside elsewhere
      have here : UsedAt changed.base result start total := by
        rw [allocated.sameBase]
        exact (allocated.used start total).mpr (Or.inr ⟨rfl, rfl⟩)
      have bounds := allocated.described.used_inside here
      have room := allocated.described.room
      have := sound.outside member elsewhere (Nat.le_refl start)
        (by simp only [HEAP_MIN_BLOCK] at inside; omega)
      rw [allocated.sameBase] at bounds
      rw [allocated.sameSize] at room
      simp only [HEAP_MIN_BLOCK] at bounds
      omega
  · rintro location ⟨other, size, already, low, high⟩
    apply allocated.frame
    rw [used_middle] at already
    rcases already with here | ⟨elsewhere, member, there⟩
    · exact Or.inr (Or.inr (payload_iff.mpr ⟨other, size, here, low, high⟩))
    · have := sound.outside member there (by omega) high
      tauto

/-- Releasing a block in one region loses one block for the heap. -/
theorem Heap.Sound.release (sound : Heap.Sound ⟨memory, front ++ region :: back⟩)
    (inside : region.base ≤ start ∧ start < region.base + region.size)
    (released : Released memory region (layout memory region) after changed result start)
    : Heap.Loses ⟨memory, front ++ region :: back⟩ ⟨after, front ++ changed :: back⟩
        start := by
  have room := (sound.described region (by simp)).room
  obtain ⟨kept, used⟩ := sound.replace released.described released.sameRun.1.symm
    released.sameRun.2.1.symm
    (fun location outside => released.frame location (by
      simp only [Untouched]
      omega))
  have elsewhere {other size} (member : other ∈ front ++ back)
      (there : UsedAt other.base (layout memory other) start size) : False := by
    have := (sound.described other (by
      simp only [List.mem_append, List.mem_cons] at member ⊢
      tauto)).used_inside there
    simp only [HEAP_MIN_BLOCK] at this
    have := sound.outside member there (Nat.le_refl start) (by omega)
    omega
  refine ⟨kept, ?_, ?_⟩
  · intro other size
    rw [used, used_middle, released.used]
    constructor
    · rintro (⟨here, apart⟩ | ⟨region, member, there⟩)
      · exact ⟨Or.inl here, apart⟩
      · refine ⟨Or.inr ⟨region, member, there⟩, ?_⟩
        rintro rfl
        exact elsewhere member there
    · rintro ⟨here | there, apart⟩
      · exact Or.inl ⟨here, apart⟩
      · exact Or.inr there
  · rintro location ⟨other, size, still, low, high⟩
    apply released.frame
    rw [used] at still
    rcases still with here | ⟨owner, member, there⟩
    · exact Or.inr (Or.inr (payload_iff.mpr ⟨other, size, here, low, high⟩))
    · have := sound.outside member there (by omega) high
      simp only [Untouched]
      omega

/-- The program's own writes to payloads in use keep the heap. -/
theorem Heap.Sound.write (memory : Memory) (sound : heap.Sound)
    (frame
      : ∀ location,
          ¬heap.PayloadByte location → memory location = heap.memory location)
    : Heap.Sound ⟨memory, heap.regions⟩
      ∧ ∀ start size,
          Heap.Used ⟨memory, heap.regions⟩ start size ↔ heap.Used start size := by
  have kept : ∀ region ∈ heap.regions,
      Describes memory region (layout heap.memory region) := by
    intro region member
    have described := sound.described region member
    apply described.congr
    intro location touched
    apply frame
    rintro ⟨start, size, ⟨owner, present, used⟩, low, high⟩
    apply touched
    by_cases same : owner = region
    · subst same
      exact Or.inr (Or.inr (payload_iff.mpr ⟨start, size, used, low, high⟩))
    · have inside := (sound.described owner present).used_inside used
      have ownerRoom := (sound.described owner present).room
      have room := described.room
      have apart : owner.Apart region :=
        sound.apart.forall present member same
      simp only [Region.Apart] at apart
      simp only [Untouched]
      omega
  refine ⟨⟨?_, sound.apart⟩, ?_⟩
  · intro region member
    rw [(kept region member).layout_eq]
    exact kept region member
  · intro start size
    constructor
    · rintro ⟨region, member, used⟩
      exact ⟨region, member, by rwa [(kept region member).layout_eq] at used⟩
    · rintro ⟨region, member, used⟩
      exact ⟨region, member, by rwa [(kept region member).layout_eq]⟩

end Panuti.Libc
