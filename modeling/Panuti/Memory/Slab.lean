import Panuti.Library.ByteMemory
import Panuti.Memory.Vmalloc

/-! The slabs of the kernel's `kmalloc` and `kfree`: `slab.c`. A slab is a page of objects of one
size, whose free list is threaded through the objects themselves.
-/

namespace Panuti.KernelHeap

open ByteMemory

/-- The sizes of the objects in `caches`. -/
def CACHE_SIZES : List Nat := [8, 16, 32, 64, 128, 256, 512, 1024, 2048]

def cacheFor (size align : Nat) : Option Nat :=
  CACHE_SIZES.findIdx? (fun objSize => size ≤ objSize && objSize % align == 0)

def SLAB_MAGIC : Nat := 0xBABEBAB1

/-- `(uint32_t)-1`, behind the last free object. -/
def NIL : Nat := 0xFFFFFFFF

/-- `sizeof(slab_t)`. -/
def SLAB_HEADER : Nat := 24

/-- `align_up`, for an alignment that is a power of two. -/
def alignUp (value alignment : Nat) : Nat := (value + alignment - 1) / alignment * alignment

-- The fields of `slab_t`

def slabMagic (memory : Memory) (slab : Nat) : Nat := memory.word slab
def slabObjSize (memory : Memory) (slab : Nat) : Nat := memory.word (slab + 4)
def slabFree (memory : Memory) (slab : Nat) : Nat := memory.word (slab + 8)
def slabUsed (memory : Memory) (slab : Nat) : Nat := memory.word (slab + 12)
def slabCapacity (memory : Memory) (slab : Nat) : Nat := memory.word (slab + 16)

def slabObj (memory : Memory) (slab index : Nat) : Nat :=
  slab + alignUp SLAB_HEADER (slabObjSize memory slab) + index * slabObjSize memory slab

/-- How many objects `slab_create` gives a slab. -/
def capacity (objSize : Nat) : Nat := (PAGE_SIZE - alignUp SLAB_HEADER objSize) / objSize

/-- `slab_create`, in a page that `vmalloc_pg` has given it. -/
def slabCreate (memory : Memory) (slab objSize : Nat) : Memory :=
  let memory := memory.setWord slab SLAB_MAGIC
  let memory := memory.setWord (slab + 4) objSize
  let memory := memory.setWord (slab + 12) 0
  let memory := memory.setWord (slab + 20) 0
  let memory := memory.setWord (slab + 16) (capacity objSize)
  let memory := (List.range (capacity objSize - 1)).foldl
    (fun memory i => memory.setWord (slabObj memory slab i) (i + 1)) memory
  let memory := memory.setWord (slabObj memory slab (capacity objSize - 1)) NIL
  memory.setWord (slab + 8) 0

/-- The end of `kmalloc_inner`: the first free object of a slab is taken, and cleared. -/
def slabTake (memory : Memory) (slab : Nat) : Nat × Memory :=
  let index := slabFree memory slab
  let obj := slabObj memory slab index
  let memory := memory.setWord (slab + 8) (memory.word obj)
  let memory := memory.setWord (slab + 12) (slabUsed memory slab + 1)
  (obj, memory.fill obj (slabObjSize memory slab) 0)

/-- The loop in `kfree_inner` that looks for an object on the free list. -/
def onFreeList (memory : Memory) (slab index : Nat) : (count freeIndex : Nat) → Bool
  | 0, _ => false
  | count + 1, freeIndex =>
      if freeIndex = NIL then false
      else if freeIndex = index then true
      else onFreeList memory slab index count (memory.word (slabObj memory slab freeIndex))

/-- The end of `kfree_inner`: an object is put in front of the free list of its slab. -/
def slabPut (memory : Memory) (slab index ptr : Nat) : Memory :=
  let memory := memory.setWord ptr (slabFree memory slab)
  let memory := memory.setWord (slab + 8) index
  memory.setWord (slab + 12) (slabUsed memory slab - 1)

/-- `kfree_inner`, for a pointer that is no page. -/
def kfreeInner (memory : Memory) (ptr : Nat) : Memory :=
  let slab := ptr / PAGE_SIZE * PAGE_SIZE
  if slabMagic memory slab ≠ SLAB_MAGIC then memory
  else
    let objSize := slabObjSize memory slab
    let offset := (2 ^ 32 + (ptr - slab) - alignUp SLAB_HEADER objSize) % 2 ^ 32
    if offset % objSize ≠ 0 then memory
    else
      let index := offset / objSize
      if slabCapacity memory slab ≤ index ∨ slabUsed memory slab = 0 then memory
      else if onFreeList memory slab index (slabCapacity memory slab) (slabFree memory slab) then
        memory
      else slabPut memory slab index ptr

end Panuti.KernelHeap
