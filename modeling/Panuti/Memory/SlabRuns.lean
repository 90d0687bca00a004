import Panuti.Library.Runs
import Panuti.Memory.SlabObjects

/-! A slab over whole runs: objects are taken, pointers into its page are freed, whatever they point
to, and the owners of objects write to them.
-/

namespace Panuti.KernelHeap

open ByteMemory
open IntrusiveList (Segment)

/-- A slab in use: the memory, and the objects that were handed out and not freed since. -/
structure SlabUse where
  memory : Memory
  live : List Nat

inductive SlabEvent where
  | kmalloc
  | kfree (ptr : Nat)
  | write (place : Nat) (byte : UInt8)

/-- An object is taken only from a slab that has a free one. -/
def SlabUse.step (objSize slab : Nat) (use : SlabUse) : SlabEvent → SlabUse
  | .kmalloc =>
      if slabFree use.memory slab = NIL then use
      else ⟨(slabTake use.memory slab).2, slabFree use.memory slab :: use.live⟩
  | .kfree ptr =>
      ⟨kfreeInner use.memory ptr, use.live.filter (fun index => objAt objSize slab index != ptr)⟩
  | .write place byte => ⟨Function.update use.memory place byte, use.live⟩

/-- The pointers are anywhere in the page of the slab, and who writes has the object. -/
def SlabUse.Allowed (objSize slab : Nat) (use : SlabUse) : SlabEvent → Prop
  | .kmalloc => True
  | .kfree ptr => slab < ptr ∧ ptr < slab + PAGE_SIZE
  | .write place _ =>
      ∃ index ∈ use.live,
        objAt objSize slab index ≤ place ∧ place < objAt objSize slab index + objSize

/-- The free list has just the objects that are not in use, each once, and ends. -/
structure SlabUse.Sound (objSize slab : Nat) (use : SlabUse) : Prop where
  distinct : use.live.Nodup
  used : slabUsed use.memory slab = use.live.length
  free
    : ∃ free : List Nat, free.Nodup
      ∧ (∀ index, index ∈ free ↔ index < capacity objSize ∧ index ∉ use.live)
      ∧ Segment (fun index => use.memory.word (objAt objSize slab index))
          (slabFree use.memory slab) free NIL

/-- No byte of these objects is another one than before. -/
def Keeps (objSize slab : Nat) (live : List Nat) (before after : Memory) : Prop :=
  ∀ index ∈ live, ∀ place, objAt objSize slab index ≤ place
    → place < objAt objSize slab index + objSize → after place = before place

/-- What a call does for the owners of the objects. -/
def SlabUse.Serves (objSize slab : Nat) (use : SlabUse) : SlabEvent → Prop
  | .kmalloc =>
      (slabFree use.memory slab = NIL ↔ use.live.length = capacity objSize)
      ∧ (slabFree use.memory slab ≠ NIL →
          let obj := (slabTake use.memory slab).1
          objSize ∣ obj ∧ slab + SLAB_HEADER ≤ obj ∧ obj + objSize ≤ slab + PAGE_SIZE
          ∧ (∀ index ∈ use.live, objAt objSize slab index + objSize ≤ obj
              ∨ obj + objSize ≤ objAt objSize slab index)
          ∧ (∀ place, obj ≤ place → place < obj + objSize → (slabTake use.memory slab).2 place = 0)
          ∧ Keeps objSize slab use.live use.memory (slabTake use.memory slab).2)
  | .kfree ptr =>
      ((∀ index ∈ use.live, objAt objSize slab index ≠ ptr) → kfreeInner use.memory ptr = use.memory)
      ∧ Keeps objSize slab
          (use.live.filter (fun index => objAt objSize slab index != ptr)) use.memory
          (kfreeInner use.memory ptr)
  | .write _ _ => True

/-- The invariant: the free objects and those in use are all, and none is both. -/
structure SlabUse.Good (objSize slab : Nat) (use : SlabUse) (free : List Nat) : Prop where
  ok : SlabOk use.memory objSize slab free
  all : (free ++ use.live).Perm (List.range (capacity objSize))

variable {objSize slab index ptr : Nat} {use : SlabUse} {free : List Nat}

theorem SlabUse.Good.mem_free_iff (good : use.Good objSize slab free)
    : index ∈ free ↔ index < capacity objSize ∧ index ∉ use.live := by
  have once := good.all.nodup_iff.mpr List.nodup_range
  rw [← List.mem_range, ← good.all.mem_iff, List.mem_append]
  have apart := List.disjoint_of_nodup_append once
  exact ⟨fun member => ⟨.inl member, apart member⟩, fun both => both.1.resolve_right both.2⟩

theorem SlabUse.Good.live_lt (good : use.Good objSize slab free) (member : index ∈ use.live)
    : index < capacity objSize :=
  List.mem_range.mp (good.all.mem_iff.mp (List.mem_append_right _ member))

theorem SlabUse.Good.length (good : use.Good objSize slab free)
    : free.length + use.live.length = capacity objSize := by
  rw [← List.length_append, good.all.length_eq, List.length_range]

theorem SlabUse.Good.sound (good : use.Good objSize slab free) : use.Sound objSize slab where
  distinct := (good.all.nodup_iff.mpr List.nodup_range).of_append_right
  used := by
    have used := good.ok.used
    have length := good.length
    omega
  free := ⟨free, good.ok.distinct, fun _ => good.mem_free_iff, good.ok.linked⟩

/-- Taking an object. -/
theorem SlabUse.Good.kmalloc (isCache : IsCache objSize) (page : slab % PAGE_SIZE = 0)
    (good : use.Good objSize slab free)
    : (∃ free, (use.step objSize slab .kmalloc).Good objSize slab free)
      ∧ use.Serves objSize slab .kmalloc := by
  have length := good.length
  have empty := good.ok.free_eq_nil_iff isCache
  cases free with
  | nil =>
      have none' := empty.mpr rfl
      rw [SlabUse.step, if_pos none']
      rw [List.length_nil, Nat.zero_add] at length
      exact ⟨⟨[], good⟩, iff_of_true none' length, absurd none'⟩
  | cons index rest =>
      have some' : slabFree use.memory slab ≠ NIL := empty.not.mpr (List.cons_ne_nil _ _)
      have head : slabFree use.memory slab = index := good.ok.linked.1
      have counted := good.ok.inside index List.mem_cons_self
      have notLive := (good.mem_free_iff.mp List.mem_cons_self).2
      obtain ⟨obj, ok, cleared, frame⟩ := good.ok.take isCache
      obtain ⟨lower, upper⟩ := isCache.inside slab counted
      rw [SlabUse.step, if_neg some', head, SlabUse.Serves, obj]
      refine ⟨⟨rest, ok, List.perm_middle.trans good.all⟩, iff_of_false some' ?_, fun _ =>
        ⟨isCache.aligned index page, lower, upper, fun other live => ?_, cleared, ?_⟩⟩
      · rw [List.length_cons] at length
        omega
      · exact objAt_apart objSize slab (ne_of_mem_of_not_mem live notLive)
      · intro other live place from' to'
        have apart := objAt_apart objSize slab (ne_of_mem_of_not_mem live notLive)
        have inside := isCache.inside slab (good.live_lt live)
        exact frame place (.inr (by omega)) (by omega)

/-- A pointer is that of an object in use, or freeing it does nothing. -/
theorem SlabUse.Good.kfreeInner (isCache : IsCache objSize) (page : slab % PAGE_SIZE = 0)
    (good : use.Good objSize slab free) (low : slab < ptr) (high : ptr < slab + PAGE_SIZE)
    : (∃ index ∈ use.live, objAt objSize slab index = ptr
        ∧ kfreeInner use.memory ptr = slabPut use.memory slab index ptr)
      ∨ (∀ index ∈ use.live, objAt objSize slab index ≠ ptr)
        ∧ kfreeInner use.memory ptr = use.memory := by
  have small := isCache.small
  have clear := isCache.clear
  have fits := isCache.fits
  have slabIs : ptr / PAGE_SIZE * PAGE_SIZE = slab := by
    simp only [PAGE_SIZE] at *
    omega
  have search := good.ok.onFreeList isCache
  simp only [good.ok.count] at search
  simp only [KernelHeap.kfreeInner, slabIs, good.ok.magic, good.ok.size, good.ok.count, search,
    ne_eq, not_true_eq_false, if_false]
  generalize shift : (2 ^ 32 + (ptr - slab) - alignUp SLAB_HEADER objSize) % 2 ^ 32 = offset
  -- the offset of an object is what its index gives
  have ofObject {index : Nat} (live : index ∈ use.live) (same : objAt objSize slab index = ptr)
      : offset = index * objSize := by
    have inside := isCache.inside slab (good.live_lt live)
    rw [← shift, ← same, objAt]
    rw [objAt] at inside
    simp only [PAGE_SIZE] at *
    omega
  have toObject (whole : offset % objSize = 0) (counted : offset / objSize < capacity objSize)
      : objAt objSize slab (offset / objSize) = ptr := by
    have exact' := Nat.div_mul_cancel (Nat.dvd_of_mod_eq_zero whole)
    have below : (offset / objSize + 1) * objSize ≤ capacity objSize * objSize :=
      Nat.mul_le_mul_right _ counted
    rw [Nat.add_mul, Nat.one_mul, exact'] at below
    rw [objAt, exact']
    simp only [PAGE_SIZE, SLAB_HEADER] at *
    omega
  by_cases live : ∃ index ∈ use.live, objAt objSize slab index = ptr
  · obtain ⟨index, member, same⟩ := live
    have whole := ofObject member same
    have counted := good.live_lt member
    have notFree : index ∉ free := fun free => (good.mem_free_iff.mp free).2 member
    have some' := List.length_pos_of_mem member
    have used := good.ok.used
    have length := good.length
    refine .inl ⟨index, member, same, ?_⟩
    rw [whole, Nat.mul_mod_left, if_neg (by simp), Nat.mul_div_cancel _ (by omega),
      if_neg (by omega), decide_eq_false notFree, if_neg Bool.false_ne_true]
  · refine .inr ⟨fun index member same => live ⟨index, member, same⟩, ?_⟩
    split
    next => rfl
    next whole =>
      split
      next => rfl
      next counted =>
        have here := toObject (not_not.mp whole) (Nat.lt_of_not_le (not_or.mp counted).1)
        have free := good.mem_free_iff.mpr ⟨Nat.lt_of_not_le (not_or.mp counted).1,
          fun member => live ⟨_, member, here⟩⟩
        rw [decide_eq_true free, if_pos rfl]

/-- Freeing a pointer. -/
theorem SlabUse.Good.kfree (isCache : IsCache objSize) (page : slab % PAGE_SIZE = 0)
    (good : use.Good objSize slab free) (low : slab < ptr) (high : ptr < slab + PAGE_SIZE)
    : (∃ free, (use.step objSize slab (.kfree ptr)).Good objSize slab free)
      ∧ use.Serves objSize slab (.kfree ptr) := by
  rw [SlabUse.step, SlabUse.Serves]
  have once := good.sound.distinct
  rcases good.kfreeInner isCache page low high with ⟨index, live, rfl, put⟩ | ⟨none', same⟩
  · have counted := good.live_lt live
    obtain ⟨ok, frame⟩ := good.ok.put isCache counted fun free =>
      (good.mem_free_iff.mp free).2 live
    have others : use.live.filter (fun other => objAt objSize slab other != objAt objSize slab index)
        = use.live.erase index := by
      rw [once.erase_eq_filter]
      refine List.filter_congr fun other _ => ?_
      rw [Bool.eq_iff_iff, bne_iff_ne, bne_iff_ne, Ne, Ne, isCache.objAt_inj]
    rw [put, others]
    refine ⟨⟨index :: free, ok, ?_⟩, fun none' => absurd rfl (none' index live), ?_⟩
    · have back := (List.perm_cons_erase live).symm
      exact (List.perm_middle.symm.trans (back.append_left free)).trans good.all
    · intro other among place from' to'
      obtain ⟨different, otherLive⟩ := once.mem_erase_iff.mp among
      have apart := objAt_apart objSize slab different
      have inside := isCache.inside slab (good.live_lt otherLive)
      exact frame place (.inr (by omega)) (by omega)
  · have all : use.live.filter (fun index => objAt objSize slab index != ptr) = use.live :=
      List.filter_eq_self.mpr fun index live => bne_iff_ne.mpr (none' index live)
    rw [same, all]
    exact ⟨⟨free, good⟩, fun _ => rfl, fun _ _ _ _ _ => rfl⟩

/-- Writing to an object in use. -/
theorem SlabUse.Good.write (isCache : IsCache objSize) (good : use.Good objSize slab free)
    {place : Nat} {byte : UInt8} (allowed : use.Allowed objSize slab (.write place byte))
    : (use.step objSize slab (.write place byte)).Good objSize slab free := by
  obtain ⟨index, live, from', to'⟩ := allowed
  have inside := isCache.inside slab (good.live_lt live)
  refine ⟨good.ok.congr fun other own => Function.update_of_ne ?_ _ _, good.all⟩
  rintro rfl
  rcases own with header | ⟨free, among, low, high⟩
  · omega
  · have small := isCache.small
    have apart := objAt_apart objSize slab
      (ne_of_mem_of_not_mem live (good.mem_free_iff.mp among).2)
    omega

theorem SlabUse.Good.step (isCache : IsCache objSize) (page : slab % PAGE_SIZE = 0)
    (good : use.Good objSize slab free) {event : SlabEvent}
    (allowed : use.Allowed objSize slab event)
    : (∃ free, (use.step objSize slab event).Good objSize slab free)
      ∧ use.Serves objSize slab event := by
  cases event with
  | kmalloc => exact good.kmalloc isCache page
  | kfree ptr => exact good.kfree isCache page allowed.1 allowed.2
  | write place byte => exact ⟨⟨free, good.write isCache allowed⟩, trivial⟩

theorem slabCreate_good (isCache : IsCache objSize) (memory : Memory)
    : SlabUse.Good objSize slab ⟨slabCreate memory slab objSize, []⟩
        (List.range (capacity objSize)) :=
  ⟨slabCreate_ok isCache memory slab, by rw [List.append_nil]⟩

/-- From a new slab on, every call serves, whatever was called before, and the free list is right
all along: also where a pointer is freed twice, or points into an object or the header.
-/
theorem slab_serves {objSize slab : Nat} (sized : objSize ∈ CACHE_SIZES)
    (page : slab % PAGE_SIZE = 0) (memory : Memory) {events : List SlabEvent}
    (allowed : Runs.Throughout (SlabUse.step objSize slab) (SlabUse.Allowed objSize slab)
      ⟨slabCreate memory slab objSize, []⟩ events)
    : (Runs.run (SlabUse.step objSize slab) ⟨slabCreate memory slab objSize, []⟩ events).Sound
        objSize slab
      ∧ Runs.Throughout (SlabUse.step objSize slab) (SlabUse.Serves objSize slab)
          ⟨slabCreate memory slab objSize, []⟩ events := by
  have isCache := isCache_of_mem sized
  have start := @slabCreate_good objSize slab isCache memory
  generalize (⟨slabCreate memory slab objSize, []⟩ : SlabUse) = use at allowed start ⊢
  generalize List.range (capacity objSize) = free at start
  induction events generalizing use free with
  | nil => exact ⟨start.sound, trivial⟩
  | cons event events ih =>
      obtain ⟨⟨later, good⟩, serves⟩ := start.step isCache page allowed.1
      obtain ⟨sound, rest⟩ := ih _ allowed.2 later good
      exact ⟨sound, serves, rest⟩

/-- Two objects of 2048 bytes do not fit a slab; the one that does is freed twice. -/
theorem slab_serves_twice
    : (Runs.run (SlabUse.step 2048 0) ⟨slabCreate (fun _ => 0) 0 2048, []⟩
        [.kmalloc, .kmalloc, .kfree 2048, .kfree 2048]).Sound 2048 0 :=
  (@slab_serves 2048 0 (by decide) rfl (fun _ => 0)
    [.kmalloc, .kmalloc, .kfree 2048, .kfree 2048]
    ⟨trivial, trivial, ⟨Nat.succ_pos _, (by decide : 2048 < 4096)⟩,
      ⟨Nat.succ_pos _, (by decide : 2048 < 4096)⟩, trivial⟩).1

end Panuti.KernelHeap
