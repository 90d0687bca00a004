import Mathlib.Data.List.Nodup
import Mathlib.Data.List.Perm.Subperm
import Panuti.Library.IntrusiveList
import Panuti.Memory.Slab

/-! Where the objects of a slab lie, what its bytes say about its free list, and what taking an
object and putting one back make of them.
-/

namespace Panuti.KernelHeap

open ByteMemory
open IntrusiveList (Segment)

/-- The object of this index. -/
def objAt (objSize slab index : Nat) : Nat :=
  slab + alignUp SLAB_HEADER objSize + index * objSize

/-- What the sizes of the caches have in common. -/
structure IsCache (objSize : Nat) : Prop where
  small : 8 ≤ objSize
  divides : objSize ∣ PAGE_SIZE
  clear : SLAB_HEADER ≤ alignUp SLAB_HEADER objSize
  starts : objSize ∣ alignUp SLAB_HEADER objSize
  some : 0 < capacity objSize
  fits : alignUp SLAB_HEADER objSize + capacity objSize * objSize ≤ PAGE_SIZE
  few : capacity objSize < 512

/-- The header of a slab describes it, and the free list threads these objects. -/
structure SlabOk (memory : Memory) (objSize slab : Nat) (free : List Nat) : Prop where
  magic : slabMagic memory slab = SLAB_MAGIC
  size : slabObjSize memory slab = objSize
  count : slabCapacity memory slab = capacity objSize
  used : slabUsed memory slab + free.length = capacity objSize
  distinct : free.Nodup
  inside : ∀ index ∈ free, index < capacity objSize
  linked
    : Segment (fun index => memory.word (objAt objSize slab index)) (slabFree memory slab) free NIL

/-- The bytes a slab keeps for itself: its header, and the links of its free objects. -/
def Own (objSize slab : Nat) (free : List Nat) (place : Nat) : Prop :=
  slab ≤ place ∧ place < slab + SLAB_HEADER
  ∨ ∃ index ∈ free, objAt objSize slab index ≤ place ∧ place < objAt objSize slab index + 4

variable {objSize slab index other : Nat} {memory changed : Memory} {free rest : List Nat}

theorem isCache_of_mem (sized : objSize ∈ CACHE_SIZES) : IsCache objSize := by
  have all : ∀ size ∈ CACHE_SIZES, 8 ≤ size ∧ size ∣ PAGE_SIZE
      ∧ SLAB_HEADER ≤ alignUp SLAB_HEADER size ∧ size ∣ alignUp SLAB_HEADER size
      ∧ 0 < capacity size ∧ alignUp SLAB_HEADER size + capacity size * size ≤ PAGE_SIZE
      ∧ capacity size < 512 := by
    decide
  obtain ⟨small, divides, clear, starts, some, fits, few⟩ := all _ sized
  exact ⟨small, divides, clear, starts, some, fits, few⟩

-- Objects

/-- An object lies in its slab, behind the header. -/
theorem IsCache.inside (isCache : IsCache objSize) (slab : Nat)
    (counted : index < capacity objSize)
    : slab + SLAB_HEADER ≤ objAt objSize slab index
      ∧ objAt objSize slab index + objSize ≤ slab + PAGE_SIZE := by
  have last : (index + 1) * objSize ≤ capacity objSize * objSize :=
    Nat.mul_le_mul_right _ counted
  rw [Nat.add_mul, Nat.one_mul] at last
  have fits := isCache.fits
  have clear := isCache.clear
  unfold objAt
  omega

theorem objAt_behind (objSize slab : Nat) (before : index < other)
    : objAt objSize slab index + objSize ≤ objAt objSize slab other := by
  have next : (index + 1) * objSize ≤ other * objSize := Nat.mul_le_mul_right _ before
  rw [Nat.add_mul, Nat.one_mul] at next
  unfold objAt
  omega

/-- Two objects of a slab are the same, or do not overlap. -/
theorem objAt_apart (objSize slab : Nat) (different : index ≠ other)
    : objAt objSize slab index + objSize ≤ objAt objSize slab other
      ∨ objAt objSize slab other + objSize ≤ objAt objSize slab index := by
  rcases Nat.lt_or_gt_of_ne different with before | behind
  · exact Or.inl (objAt_behind objSize slab before)
  · exact Or.inr (objAt_behind objSize slab behind)

theorem IsCache.objAt_inj (isCache : IsCache objSize)
    : objAt objSize slab index = objAt objSize slab other ↔ index = other := by
  refine ⟨fun same => ?_, fun same => by rw [same]⟩
  by_contra different
  have small := isCache.small
  rcases objAt_apart objSize slab different with before | behind <;> omega

theorem IsCache.aligned (isCache : IsCache objSize) (index : Nat) (page : slab % PAGE_SIZE = 0)
    : objSize ∣ objAt objSize slab index := by
  have whole : objSize ∣ slab := Nat.dvd_trans isCache.divides (Nat.dvd_of_mod_eq_zero page)
  exact Nat.dvd_add (Nat.dvd_add whole isCache.starts) (Nat.dvd_mul_left _ _)

-- The free list

theorem SlabOk.obj (ok : SlabOk memory objSize slab free) (index : Nat)
    : slabObj memory slab index = objAt objSize slab index := by
  rw [slabObj, ok.size]
  rfl

/-- A slab is described by its own bytes. -/
theorem SlabOk.congr (ok : SlabOk memory objSize slab free)
    (same : ∀ place, Own objSize slab free place → changed place = memory place)
    : SlabOk changed objSize slab free := by
  have word (offset : Nat) (inside : offset + 4 ≤ SLAB_HEADER)
      : changed.word (slab + offset) = memory.word (slab + offset) :=
    Memory.word_congr (fun place from' to' => same place (Or.inl (by omega)))
  refine ⟨(word 0 (by decide)).trans ok.magic, (word 4 (by decide)).trans ok.size,
    (word 16 (by decide)).trans ok.count, ?_, ok.distinct, ok.inside, ?_⟩
  · rw [slabUsed, word 12 (by decide)]
    exact ok.used
  · rw [slabFree, word 8 (by decide)]
    refine ok.linked.congr fun index member => Memory.word_congr fun place from' to' => ?_
    exact same place (Or.inr ⟨index, member, from', to'⟩)

theorem SlabOk.length_le (ok : SlabOk memory objSize slab free)
    : free.length ≤ capacity objSize := by
  have := ok.used
  omega

theorem SlabOk.free_eq_nil_iff (isCache : IsCache objSize) (ok : SlabOk memory objSize slab free)
    : slabFree memory slab = NIL ↔ free = [] := by
  have linked := ok.linked
  have few := isCache.few
  cases free with
  | nil => exact ⟨fun _ => rfl, fun _ => linked⟩
  | cons index rest =>
      have counted := ok.inside index List.mem_cons_self
      have head : slabFree memory slab = index := linked.1
      refine iff_of_false (fun none' => ?_) (List.cons_ne_nil _ _)
      simp only [NIL] at none'
      omega

/-- The search through the free list finds just what is on it. -/
theorem SlabOk.onFreeList (isCache : IsCache objSize) (ok : SlabOk memory objSize slab free)
    (index : Nat)
    : onFreeList memory slab index (slabCapacity memory slab) (slabFree memory slab)
      = decide (index ∈ free) := by
  have few := isCache.few
  have walks (count freeIndex : Nat) (rest : List Nat)
      (linked : Segment (fun index => memory.word (objAt objSize slab index)) freeIndex rest NIL)
      (bounded : ∀ index ∈ rest, index < capacity objSize) (enough : rest.length ≤ count)
      : KernelHeap.onFreeList memory slab index count freeIndex = decide (index ∈ rest) := by
    induction count generalizing freeIndex rest with
    | zero =>
        obtain rfl := List.eq_nil_of_length_eq_zero (Nat.le_zero.mp enough)
        rfl
    | succ count ih =>
        cases rest with
        | nil =>
            have none' : freeIndex = NIL := linked
            rw [KernelHeap.onFreeList, if_pos none']
            simp
        | cons head rest =>
            obtain ⟨rfl, linked⟩ := linked
            have counted := bounded freeIndex List.mem_cons_self
            have some' : freeIndex ≠ NIL := by
              simp only [NIL]
              omega
            rw [KernelHeap.onFreeList, if_neg some', ok.obj]
            by_cases same : freeIndex = index
            · simp [same]
            · rw [if_neg same, ih _ rest linked
                (fun later member => bounded later (List.mem_cons_of_mem _ member))
                (Nat.le_of_succ_le_succ enough)]
              simp [Ne.symm same]
  exact walks _ _ free ok.linked ok.inside (by rw [ok.count]; exact ok.length_le)

-- One step

/-- Taking the first free object of a slab: it is cleared, and the list loses it. -/
theorem SlabOk.take (isCache : IsCache objSize)
    (ok : SlabOk memory objSize slab (index :: rest))
    : (slabTake memory slab).1 = objAt objSize slab index
      ∧ SlabOk (slabTake memory slab).2 objSize slab rest
      ∧ (∀ place, objAt objSize slab index ≤ place
          → place < objAt objSize slab index + objSize → (slabTake memory slab).2 place = 0)
      ∧ ∀ place, place < slab ∨ slab + SLAB_HEADER ≤ place
          → place < objAt objSize slab index ∨ objAt objSize slab index + objSize ≤ place
          → (slabTake memory slab).2 place = memory place := by
  obtain ⟨lower, upper⟩ := isCache.inside slab (ok.inside index List.mem_cons_self)
  have small := isCache.small
  have few := isCache.few
  have head : slabFree memory slab = index := ok.linked.1
  have used := ok.used
  have size := ok.size
  simp only [SLAB_HEADER] at lower
  rw [slabObjSize] at size
  -- the header is written first, and the object behind it is cleared
  have whole : slabTake memory slab
      = (objAt objSize slab index,
        ((memory.setWord (slab + 8) (memory.word (objAt objSize slab index))).setWord (slab + 12)
          (slabUsed memory slab + 1)).fill (objAt objSize slab index) objSize 0) := by
    simp only [slabTake, head, ok.obj index, slabObjSize, slabUsed]
    rw [Memory.word_setWord_other _ (by omega), Memory.word_setWord_other _ (by omega),
      Memory.word_setWord_other _ (by omega), size]
  rw [whole]
  generalize written : ((memory.setWord (slab + 8) (memory.word (objAt objSize slab index))).setWord
    (slab + 12) (slabUsed memory slab + 1)).fill (objAt objSize slab index) objSize 0 = after
  have filled {location : Nat} (apart : location + 4 ≤ objAt objSize slab index)
      : after.word location
        = ((memory.setWord (slab + 8) (memory.word (objAt objSize slab index))).setWord (slab + 12)
          (slabUsed memory slab + 1)).word location :=
    Memory.word_congr fun _ _ _ => by rw [← written, Memory.fill_other _ (by omega)]
  have kept (offset : Nat) (here : offset = 0 ∨ offset = 4 ∨ offset = 16)
      : after.word (slab + offset) = memory.word (slab + offset) := by
    rw [filled (by omega), Memory.word_setWord_other _ (by omega),
      Memory.word_setWord_other _ (by omega)]
  have frame (place : Nat) (outside : place < slab ∨ slab + SLAB_HEADER ≤ place)
      (apart : place < objAt objSize slab index ∨ objAt objSize slab index + objSize ≤ place)
      : after place = memory place := by
    simp only [SLAB_HEADER] at outside
    rw [← written, Memory.fill_other _ apart, Memory.setWord_other _ (by omega),
      Memory.setWord_other _ (by omega)]
  have stored : slabUsed after slab = slabUsed memory slab + 1 := by
    rw [List.length_cons] at used
    rw [slabUsed, filled (by omega), Memory.word_setWord_self _ _ (by omega)]
  have first : slabFree after slab = memory.word (objAt objSize slab index) := by
    rw [slabFree, filled (by omega), Memory.word_setWord_other _ (by omega),
      Memory.word_setWord_self _ _ (Memory.word_lt _ _)]
  refine ⟨rfl, ⟨(kept 0 (by simp)).trans ok.magic, (kept 4 (by simp)).trans size,
    (kept 16 (by simp)).trans ok.count, ?_, (List.nodup_cons.mp ok.distinct).2,
    fun other member => ok.inside other (List.mem_cons_of_mem _ member), ?_⟩, ?_, frame⟩
  · rw [stored, ← used, List.length_cons, Nat.add_assoc, Nat.add_comm 1]
  · rw [first]
    refine ok.linked.2.congr fun other member => ?_
    have counted := ok.inside other (List.mem_cons_of_mem _ member)
    obtain ⟨lowerOther, upperOther⟩ := isCache.inside slab counted
    have apart := objAt_apart objSize slab
      (ne_of_mem_of_not_mem member (List.nodup_cons.mp ok.distinct).1)
    exact Memory.word_congr (fun place from' to' => frame place (Or.inr (by omega)) (by omega))
  · intro place from' to'
    rw [← written]
    exact Memory.fill_inside _ from' to'

/-- Putting an object back: it is the first of the list. -/
theorem SlabOk.put (isCache : IsCache objSize) (ok : SlabOk memory objSize slab free)
    (counted : index < capacity objSize) (inUse : index ∉ free)
    : SlabOk (slabPut memory slab index (objAt objSize slab index)) objSize slab (index :: free)
      ∧ ∀ place, place < slab ∨ slab + SLAB_HEADER ≤ place
          → place < objAt objSize slab index ∨ objAt objSize slab index + objSize ≤ place
          → slabPut memory slab index (objAt objSize slab index) place = memory place := by
  obtain ⟨lower, upper⟩ := isCache.inside slab counted
  have small := isCache.small
  have few := isCache.few
  have used := ok.used
  simp only [SLAB_HEADER] at lower
  have fewer : free.length < capacity objSize := by
    have whole := List.subperm_of_subset (List.nodup_cons.mpr ⟨inUse, ok.distinct⟩)
      (show index :: free ⊆ List.range (capacity objSize) from fun other member => by
        rw [List.mem_range]
        rcases List.mem_cons.mp member with rfl | member
        · exact counted
        · exact ok.inside other member)
    exact Nat.le_trans whole.length_le (Nat.le_of_eq List.length_range)
  have frame (place : Nat) (outside : place < slab ∨ slab + SLAB_HEADER ≤ place)
      (apart : place < objAt objSize slab index ∨ objAt objSize slab index + 4 ≤ place)
      : slabPut memory slab index (objAt objSize slab index) place = memory place := by
    simp only [SLAB_HEADER] at outside
    simp only [slabPut]
    rw [Memory.setWord_other _ (by omega), Memory.setWord_other _ (by omega),
      Memory.setWord_other _ apart]
  have kept (offset : Nat) (here : offset = 0 ∨ offset = 4 ∨ offset = 16)
      : (slabPut memory slab index (objAt objSize slab index)).word (slab + offset)
        = memory.word (slab + offset) := by
    simp only [slabPut]
    rw [Memory.word_setWord_other _ (by omega), Memory.word_setWord_other _ (by omega),
      Memory.word_setWord_other _ (by omega)]
  have stored : slabUsed (slabPut memory slab index (objAt objSize slab index)) slab
      = slabUsed memory slab - 1 := by
    have same : ((memory.setWord (objAt objSize slab index) (slabFree memory slab)).setWord
        (slab + 8) index).word (slab + 12) = slabUsed memory slab := by
      rw [Memory.word_setWord_other _ (by omega), Memory.word_setWord_other _ (by omega)]
      rfl
    simp only [slabPut, slabUsed]
    rw [same, Memory.word_setWord_self _ _ (by omega)]
    rfl
  have first : slabFree (slabPut memory slab index (objAt objSize slab index)) slab = index := by
    simp only [slabPut, slabFree]
    rw [Memory.word_setWord_other _ (by omega), Memory.word_setWord_self _ _ (by omega)]
  have next : (slabPut memory slab index (objAt objSize slab index)).word (objAt objSize slab index)
      = slabFree memory slab := by
    simp only [slabPut]
    rw [Memory.word_setWord_other _ (by omega), Memory.word_setWord_other _ (by omega),
      Memory.word_setWord_self _ _ (show slabFree memory slab < 4294967296 from Memory.word_lt _ _)]
  refine ⟨⟨(kept 0 (by simp)).trans ok.magic, (kept 4 (by simp)).trans ok.size,
    (kept 16 (by simp)).trans ok.count, ?_, List.nodup_cons.mpr ⟨inUse, ok.distinct⟩, ?_,
    first, ?_⟩, fun place outside apart => frame place outside (by omega)⟩
  · rw [stored, List.length_cons]
    omega
  · exact List.forall_mem_cons.mpr ⟨counted, ok.inside⟩
  · dsimp only
    rw [next]
    refine ok.linked.congr fun other member => ?_
    obtain ⟨lowerOther, upperOther⟩ := isCache.inside slab (ok.inside other member)
    have apart := objAt_apart objSize slab (ne_of_mem_of_not_mem member inUse)
    exact Memory.word_congr (fun place from' to' => frame place (Or.inr (by omega)) (by omega))

-- A new slab

/-- The links that the loop of `slab_create` has written after some of its turns. -/
theorem slabCreate_links (isCache : IsCache objSize) (sized : slabObjSize memory slab = objSize)
    (count : Nat) (counted : count ≤ capacity objSize)
    : let after := (List.range count).foldl
        (fun memory i => memory.setWord (slabObj memory slab i) (i + 1)) memory
      (∀ offset, offset + 4 ≤ SLAB_HEADER
        → after.word (slab + offset) = memory.word (slab + offset))
      ∧ ∀ i < count, after.word (objAt objSize slab i) = i + 1 := by
  have few := isCache.few
  have small := isCache.small
  induction count with
  | zero => exact ⟨fun _ _ => rfl, fun _ none' => absurd none' (Nat.not_lt_zero _)⟩
  | succ count ih =>
      obtain ⟨headerSame, links⟩ := ih (by omega)
      simp only [List.range_succ, List.foldl_append, List.foldl_cons, List.foldl_nil]
      generalize (List.range count).foldl
        (fun memory i => memory.setWord (slabObj memory slab i) (i + 1)) memory = before at *
      have object : slabObj before slab count = objAt objSize slab count := by
        rw [slabObj, slabObjSize, headerSame 4 (by decide), ← slabObjSize, sized]
        rfl
      obtain ⟨lower, upper⟩ := isCache.inside slab (show count < capacity objSize by omega)
      simp only [SLAB_HEADER] at lower
      rw [object]
      refine ⟨fun offset inside => ?_, fun i before' => ?_⟩
      · simp only [SLAB_HEADER] at inside
        rw [Memory.word_setWord_other _ (by omega), headerSame offset inside]
      · rcases Nat.lt_succ_iff_lt_or_eq.mp before' with less | rfl
        · have behind := objAt_behind objSize slab less
          rw [Memory.word_setWord_other _ (by omega)]
          exact links i less
        · rw [Memory.word_setWord_self _ _ (by omega)]

/-- Every object leads to the next. -/
theorem segment_range' {links : Nat → Nat} (count first : Nat)
    (leads : ∀ i, first ≤ i → i < first + count → links i = i + 1)
    (last : links (first + count) = NIL)
    : Segment links first (List.range' first (count + 1)) NIL := by
  induction count generalizing first with
  | zero => exact ⟨rfl, last⟩
  | succ count ih =>
      rw [List.range'_succ]
      refine ⟨rfl, ?_⟩
      rw [leads first (Nat.le_refl _) (by omega)]
      exact ih (first + 1) (fun i from' to' => leads i (by omega) (by omega))
        (by rw [← last]; congr 1; omega)

/-- A new slab has every object on its list. -/
theorem slabCreate_ok (isCache : IsCache objSize) (memory : Memory) (slab : Nat)
    : SlabOk (slabCreate memory slab objSize) objSize slab (List.range (capacity objSize)) := by
  have few := isCache.few
  have small := isCache.small
  have big : objSize ≤ PAGE_SIZE := Nat.le_of_dvd (by decide) isCache.divides
  have some' := isCache.some
  simp only [PAGE_SIZE] at big
  generalize start : ((((memory.setWord slab SLAB_MAGIC).setWord (slab + 4) objSize).setWord
    (slab + 12) 0).setWord (slab + 20) 0).setWord (slab + 16) (capacity objSize) = first
  have magic : first.word slab = SLAB_MAGIC := by
    rw [← start, Memory.word_setWord_other _ (by omega), Memory.word_setWord_other _ (by omega),
      Memory.word_setWord_other _ (by omega), Memory.word_setWord_other _ (by omega),
      Memory.word_setWord_self _ _ (by decide)]
  have size : first.word (slab + 4) = objSize := by
    rw [← start, Memory.word_setWord_other _ (by omega), Memory.word_setWord_other _ (by omega),
      Memory.word_setWord_other _ (by omega), Memory.word_setWord_self _ _ (by omega)]
  have used : first.word (slab + 12) = 0 := by
    rw [← start, Memory.word_setWord_other _ (by omega), Memory.word_setWord_other _ (by omega),
      Memory.word_setWord_self _ _ (by decide)]
  have count : first.word (slab + 16) = capacity objSize := by
    rw [← start, Memory.word_setWord_self _ _ (by omega)]
  obtain ⟨headerSame, links⟩ := slabCreate_links isCache size (capacity objSize - 1)
    (Nat.sub_le _ _)
  generalize linked : (List.range (capacity objSize - 1)).foldl
    (fun memory i => memory.setWord (slabObj memory slab i) (i + 1)) first = second
    at headerSame links
  have object : slabObj second slab (capacity objSize - 1)
      = objAt objSize slab (capacity objSize - 1) := by
    rw [slabObj, slabObjSize, headerSame 4 (by decide), size]
    rfl
  obtain ⟨lower, upper⟩ := isCache.inside slab
    (show capacity objSize - 1 < capacity objSize by omega)
  simp only [SLAB_HEADER] at lower
  have whole : slabCreate memory slab objSize
      = (second.setWord (objAt objSize slab (capacity objSize - 1)) NIL).setWord (slab + 8) 0 := by
    simp only [slabCreate, start, linked, object]
  rw [whole]
  have kept (offset : Nat) (here : offset = 0 ∨ offset = 4 ∨ offset = 12 ∨ offset = 16)
      : ((second.setWord (objAt objSize slab (capacity objSize - 1)) NIL).setWord (slab + 8) 0).word
          (slab + offset) = first.word (slab + offset) := by
    rw [Memory.word_setWord_other _ (by omega), Memory.word_setWord_other _ (by omega),
      headerSame offset (by simp only [SLAB_HEADER]; omega)]
  refine ⟨(kept 0 (by simp)).trans magic, (kept 4 (by simp)).trans size,
    (kept 16 (by simp)).trans count, ?_, List.nodup_range, fun _ => List.mem_range.mp, ?_⟩
  · rw [slabUsed, kept 12 (by simp), used, List.length_range, Nat.zero_add]
  · rw [slabFree, Memory.word_setWord_self _ _ (by decide), List.range_eq_range']
    obtain ⟨pred, more⟩ := Nat.exists_eq_add_of_le' some'
    rw [more, Nat.add_sub_cancel] at links lower ⊢
    refine segment_range' pred 0 (fun i _ before => ?_) ?_
    · have behind := objAt_behind objSize slab (show i < pred by omega)
      obtain ⟨lowerI, _⟩ := isCache.inside slab (show i < capacity objSize by omega)
      simp only [SLAB_HEADER] at lowerI
      rw [Memory.word_setWord_other _ (by omega), Memory.word_setWord_other _ (by omega)]
      exact links i (by omega)
    · rw [Nat.zero_add, Memory.word_setWord_other _ (by omega),
        Memory.word_setWord_self _ _ (by decide)]

end Panuti.KernelHeap
