import Mathlib.Data.List.Pairwise
import Panuti.Elf.UserHalf
import Panuti.Memory.MapFrames

/-! What a loaded image is, byte by byte, and when `elf_load_segments` makes it. The loader writes
the bytes of a segment into its frames and no others, so the rest of a page is what its frame held
before; and `vmm_map` does nothing where no table can be had.
-/

namespace Panuti.Elf

open ByteMemory PageTable Panuti.Vmm

-- The image in memory

def Segment.Has (seg : Segment) (virt : Nat) : Prop :=
  seg.vaddr ≤ virt ∧ virt < seg.vaddr + seg.memsz

instance (seg : Segment) (virt : Nat) : Decidable (seg.Has virt) :=
  inferInstanceAs (Decidable (_ ∧ _))

/-- The byte of the segment at this address: of the file, or behind what the file has. -/
def Segment.byte (image : List UInt8) (seg : Segment) (virt : Nat) : UInt8 :=
  if virt - seg.vaddr < seg.filesz then image.getD (seg.offset + (virt - seg.vaddr)) 0 else 0

/-- The segments are ranges of user space, with no byte in two of them. -/
structure UserRanges (segs : List Segment) : Prop where
  user
    : ∀ seg ∈ segs, USER_SPACE_BASE ≤ seg.vaddr ∧ seg.vaddr + seg.memsz ≤ USER_SPACE_END
        ∧ seg.filesz ≤ seg.memsz
  apart : segs.Pairwise (fun one two => ∀ virt, ¬(one.Has virt ∧ two.Has virt))

/-- The segments have their bytes, all their pages are mapped, and all other bytes of the mapped
pages of user space are zero.
-/
structure Contents (image : List UInt8) (segs : List Segment) (memory : Memory) (addrSpace : Nat)
    : Prop where
  bytes
    : ∀ seg ∈ segs, ∀ i < seg.memsz, ∃ physical,
        PageTable.translate memory addrSpace (seg.vaddr + i) = some physical
        ∧ memory physical = if i < seg.filesz then image.getD (seg.offset + i) 0 else 0
  mapped
    : ∀ seg ∈ segs, ∀ p < seg.numPages,
        (PageTable.translate memory addrSpace (seg.pageStart + p * PAGE_SIZE)).isSome
  clear
    : ∀ virt < USER_SPACE_END,
        (∀ seg ∈ segs, ¬seg.Has virt)
        → ∀ physical, PageTable.translate memory addrSpace virt = some physical
        → memory physical = 0

def wanted (image : List UInt8) (segs : List Segment) (virt : Nat) : UInt8 :=
  match segs.find? (fun seg => decide (seg.Has virt)) with
  | some seg => seg.byte image virt
  | none => 0

-- The frames of an image

/-- A page, the call of `pmm_allocp` that its frame comes from, and the segment it is for. -/
structure Placed where
  page : Nat
  call : Nat
  seg : Segment

/-- What loading asks of the allocator: frames for pages, for the tables of these entries of the
directory, and for the table of the scratch page. Where segments share a page, the frame of the
last one is the first in the list.
-/
structure Plan where
  pages : Nat
  tables : List Nat
  scratch : Nat
  needed : Nat
  placed : List Placed

def Plan.empty : Plan := ⟨0, [], 0, 0, []⟩

def Plan.calls (plan : Plan) : Nat := plan.pages + plan.tables.length + plan.scratch

def tableFor (tables : List Nat) (page : Nat) : List Nat :=
  if page / 1024 ∈ tables then tables else page / 1024 :: tables

/-- A segment is added: the frames of its pages come first, the tables above them second, and the
scratch page is used last.
-/
def Plan.segment (hasScratch : Bool) (plan : Plan) (seg : Segment) : Plan :=
  if seg.numPages = 0 then plan
  else
    let first := seg.pageStart / PAGE_SIZE
    let tables := (List.range' first seg.numPages).foldl tableFor plan.tables
    { pages := plan.pages + seg.numPages
      tables := tables
      scratch := if hasScratch then 0 else 1
      needed := plan.pages + seg.numPages + tables.length + plan.scratch
      placed := (List.range seg.numPages).map (fun p => ⟨first + p, plan.calls + p, seg⟩)
        ++ plan.placed }

def Plan.frameOf (plan : Plan) (page : Nat) : Option Placed :=
  plan.placed.find? (fun placed => placed.page == page)

def hasScratch (machine : Machine) : Bool :=
  present (dirEntry machine.memory machine.cr3 (ELF_LOAD_SCRATCH / 2 ^ 22))

def imagePlan (machine : Machine) (segs : List Segment) : Plan :=
  segs.foldl (Plan.segment (hasScratch machine)) Plan.empty

/-- There are frames enough for all pages and tables, and where a page has bytes beside those of
the last segment that has the page, the frame that the allocator hands out for it holds these bytes
already: zeros, or the bytes of the other segment.
-/
structure Fits (machine : Machine) (image : List UInt8) (segs : List Segment) : Prop where
  enough : (imagePlan machine segs).needed ≤ machine.freeFrames
  clean
    : ∀ page placed,
        (imagePlan machine segs).frameOf page = some placed
        → ∀ offset < PAGE_SIZE, ¬placed.seg.Has (page * PAGE_SIZE + offset)
        → machine.memory (machine.handed placed.call + offset)
          = wanted image segs (page * PAGE_SIZE + offset)

-- Small facts

section Facts

variable {image : List UInt8} {segs : List Segment} {seg : Segment} {virt : Nat}

theorem wanted_of_has (ranges : UserRanges segs) (member : seg ∈ segs) (has : seg.Has virt)
    : wanted image segs virt = seg.byte image virt := by
  unfold wanted
  cases found : segs.find? (fun seg => decide (seg.Has virt)) with
  | none =>
      have none := List.find?_eq_none.mp found seg member
      simp [has] at none
  | some other =>
      have hasToo : other.Has virt := by simpa using List.find?_some found
      have same : other = seg := by
        by_contra different
        have symmetric : Std.Symm (fun one two : Segment =>
            ∀ virt, ¬(one.Has virt ∧ two.Has virt)) :=
          ⟨fun one two apart virt both => apart virt ⟨both.2, both.1⟩⟩
        exact ranges.apart.forall (List.mem_of_find?_eq_some found) member different virt
          ⟨hasToo, has⟩
      rw [same]

theorem wanted_of_none (none : ∀ seg ∈ segs, ¬seg.Has virt) : wanted image segs virt = 0 := by
  have found : segs.find? (fun seg => decide (seg.Has virt)) = Option.none := by
    rw [List.find?_eq_none]
    intro seg member
    simpa using none seg member
  rw [wanted, found]

/-- A loaded image, said of every mapped byte at once. -/
theorem contents_iff {memory : Memory} {addrSpace : Nat} (ranges : UserRanges segs)
    : Contents image segs memory addrSpace
      ↔ (∀ seg ∈ segs, ∀ p < seg.numPages,
          (PageTable.translate memory addrSpace (seg.pageStart + p * PAGE_SIZE)).isSome)
        ∧ (∀ seg ∈ segs, ∀ i < seg.memsz,
          (PageTable.translate memory addrSpace (seg.vaddr + i)).isSome)
        ∧ ∀ virt < USER_SPACE_END, ∀ physical,
          PageTable.translate memory addrSpace virt = some physical
          → memory physical = wanted image segs virt := by
  have byte (seg : Segment) (i : Nat) : seg.byte image (seg.vaddr + i)
      = if i < seg.filesz then image.getD (seg.offset + i) 0 else 0 := by
    rw [Segment.byte, Nat.add_sub_cancel_left]
  have has (seg : Segment) {i : Nat} (inside : i < seg.memsz) : seg.Has (seg.vaddr + i) :=
    ⟨by omega, by omega⟩
  constructor
  · intro contents
    refine ⟨contents.mapped, fun seg member i inside => ?_, fun virt user physical reached => ?_⟩
    · obtain ⟨physical, reached, _⟩ := contents.bytes seg member i inside
      rw [reached]
      rfl
    · by_cases some : ∃ seg ∈ segs, seg.Has virt
      · obtain ⟨seg, member, low, high⟩ := some
        obtain ⟨other, reachedToo, is⟩ := contents.bytes seg member (virt - seg.vaddr) (by omega)
        have whole : seg.vaddr + (virt - seg.vaddr) = virt := by omega
        rw [whole, reached] at reachedToo
        obtain rfl := Option.some.inj reachedToo
        rw [is, ← byte, whole, wanted_of_has ranges member ⟨low, high⟩]
      · have none : ∀ seg ∈ segs, ¬seg.Has virt := fun seg member has => some ⟨seg, member, has⟩
        rw [wanted_of_none none]
        exact contents.clear virt user none physical reached
  · rintro ⟨pages, mapped, right⟩
    refine ⟨fun seg member i inside => ?_, pages, fun virt user none physical reached => ?_⟩
    · obtain ⟨physical, reached⟩ := Option.isSome_iff_exists.mp (mapped seg member i inside)
      have user := (ranges.user seg member).2.1
      refine ⟨physical, reached, ?_⟩
      rw [right _ (by omega) physical reached, wanted_of_has ranges member (has seg inside), byte]
    · rw [right virt user physical reached, wanted_of_none none]

theorem tableFor_mem {tables : List Nat} {page index : Nat}
    : index ∈ tableFor tables page ↔ index = page / 1024 ∨ index ∈ tables := by
  unfold tableFor
  split
  · rename_i member
    exact ⟨Or.inr, fun either => either.elim (fun is => is ▸ member) id⟩
  · exact List.mem_cons

theorem tables_length (pages tables : List Nat)
    : tables.length ≤ (pages.foldl tableFor tables).length := by
  induction pages generalizing tables with
  | nil => exact Nat.le_refl _
  | cons page rest ih =>
      refine Nat.le_trans ?_ (ih (tableFor tables page))
      unfold tableFor
      split
      · exact Nat.le_refl _
      · simp

theorem Segment.inUserSpace_of_range (low : USER_SPACE_BASE ≤ seg.vaddr)
    (high : seg.vaddr + seg.memsz ≤ USER_SPACE_END)
    : seg.InUserSpace ∧ seg.pageStart + seg.inPageOff = seg.vaddr
      ∧ seg.pageStart % PAGE_SIZE = 0 ∧ seg.inPageOff < PAGE_SIZE := by
  simp only [Segment.InUserSpace, Segment.numPages, Segment.span, Segment.inPageOff,
    Segment.pageStart, USER_SPACE_BASE, USER_SPACE_END, PAGE_SIZE] at *
  omega

end Facts

end Panuti.Elf
