import Panuti.Libc.Malloc

/-! The free list of a region, as `heap_flist_remove`, `heap_flist_replace` and
`heap_flist_insert` maintain it: which nodes it threads and which bytes an update touches.
-/

namespace Panuti.Libc

open ByteMemory
open IntrusiveList

-- A free list and the bytes its links occupy

/-- Nodes in address order, each at least one minimum block after the one before. -/
def Spaced (nodes : List Nat) : Prop :=
  nodes.Pairwise (fun first second => first + HEAP_MIN_BLOCK ≤ second)

/-- The region's free list threads exactly `nodes`, in address order. -/
structure Listed (memory : Memory) (region : Region) (nodes : List Nat) : Prop where
  segment : Segment (flistNext memory) region.flist nodes 0
  spaced : Spaced nodes
  range : ∀ node ∈ nodes, 0 < node ∧ node < WORD
  short : nodes.length ≤ region.size

/-- The address lies in the link word of one of the nodes. -/
def LinkByte (nodes : List Nat) (location : Nat) : Prop :=
  ∃ node ∈ nodes, node + BLOCK_HDR ≤ location ∧ location < node + BLOCK_HDR + 4

/-- The two records describe one region; only their list heads may differ. -/
def Region.SameRun (left right : Region) : Prop :=
  left.base = right.base ∧ left.size = right.size ∧ left.brk = right.brk

theorem Region.SameRun.refl (region : Region) : region.SameRun region := ⟨rfl, rfl, rfl⟩

theorem Region.SameRun.trans {first second third : Region}
    (left : first.SameRun second) (right : second.SameRun third)
    : first.SameRun third :=
  ⟨left.1.trans right.1, left.2.1.trans right.2.1, left.2.2.trans right.2.2⟩

theorem Spaced.apart {front back : List Nat} {left right : Nat}
    (spaced : Spaced (front ++ back)) (before : left ∈ front) (after : right ∈ back)
    : left + HEAP_MIN_BLOCK ≤ right :=
  (List.pairwise_append.mp spaced).2.2 left before right after

variable {memory : Memory} {node value : Nat} {region : Region} {front back : List Nat}

theorem flistNext_setNext_other {written : Nat}
    (apart : node + HEAP_MIN_BLOCK ≤ written ∨ written + HEAP_MIN_BLOCK ≤ node)
    : flistNext (flistSetNext memory written value) node = flistNext memory node := by
  apply Memory.word_setWord_other
  simp only [HEAP_MIN_BLOCK] at apart
  omega

theorem flistNext_setNext_self (fits : value < WORD)
    : flistNext (flistSetNext memory node value) node = value :=
  Memory.word_setWord_self memory _ fits

theorem flistSetNext_other {location : Nat} (apart : ¬LinkByte [node] location)
    : flistSetNext memory node value location = memory location := by
  apply Memory.setWord_other
  simp only [LinkByte, List.mem_singleton, exists_eq_left] at apart
  omega

theorem flistNext_lt (memory : Memory) (node : Nat) : flistNext memory node < WORD :=
  Memory.word_lt memory _

theorem word_of_links {changed : Memory} {nodes : List Nat} {address : Nat}
    (frame
      : ∀ location, ¬LinkByte nodes location → changed location = memory location)
    (apart
      : ∀ node ∈ nodes,
          address + 4 ≤ node + BLOCK_HDR ∨ node + BLOCK_HDR + 4 ≤ address)
    : changed.word address = memory.word address := by
  apply Memory.word_congr
  intro location low high
  apply frame
  rintro ⟨node, member, within⟩
  have := apart node member
  omega

-- Redirecting the link in front of a node

theorem flistLink_spec {passed : List Nat} {tail target : Nat}
    (segment : Segment (flistNext memory) region.flist passed tail) (spaced : Spaced passed)
    (positive : ∀ node ∈ passed, 0 < node) (fits : target < WORD)
    : let after := flistLink memory region (passed.getLast?.getD 0) target
      Segment (flistNext after.1) after.2.flist passed target
      ∧ region.SameRun after.2
      ∧ ∀ location, ¬LinkByte passed location → after.1 location = memory location := by
  rcases List.eq_nil_or_concat passed with rfl | ⟨front, last, rfl⟩
  · simp [flistLink, Region.SameRun]
  · have present : last ≠ 0 := by
      have := positive last (by simp)
      omega
    simp only [List.concat_eq_append, List.getLast?_append, List.getLast?_singleton,
      Option.some_or, Option.getD_some, flistLink, ne_eq, present, not_false_eq_true,
      if_true] at segment spaced ⊢
    refine ⟨segment.redirect ?_ (flistNext_setNext_self fits), Region.SameRun.refl _, ?_⟩
    · intro node member
      exact flistNext_setNext_other (Or.inl (spaced.apart member (by simp)))
    · intro location outside
      apply flistSetNext_other
      rintro ⟨node, member, within⟩
      exact outside ⟨node, by simpa using Or.inr (by simpa using member), within⟩

theorem seek_node (listed : Listed memory region (front ++ node :: back))
    : seek (flistNext memory) (fun other => other == node) (flistFuel region) 0 region.flist
      = (front.getLast?.getD 0, node) := by
  rw [seek_eq front (node :: back) listed.segment]
  · rfl
  · intro other member
    have apart := listed.spaced.apart member (List.mem_cons_self : node ∈ node :: back)
    have range := (listed.range other (by simp [member])).1
    simp only [HEAP_MIN_BLOCK] at apart
    constructor
    · omega
    · simp only [beq_eq_false_iff_ne]
      omega
  · intro other head
    simp only [List.head?_cons, Option.some.injEq] at head
    simp [head]
  · have short := listed.short
    simp only [List.length_append, flistFuel] at short ⊢
    omega

theorem unhook_spec {target : Nat} (listed : Listed memory region (front ++ node :: back))
    (fits : target < WORD)
    : let step := flistLink memory region (front.getLast?.getD 0) target
      let after := flistSetNext step.1 node 0
      Segment (flistNext after) step.2.flist front target
      ∧ region.SameRun step.2
      ∧ (∀ other, node + HEAP_MIN_BLOCK ≤ other
          → flistNext after other = flistNext memory other)
      ∧ ∀ location,
          ¬LinkByte (front ++ [node]) location → after location = memory location := by
  obtain ⟨middle, frontSegment, _, _⟩ := segment_append.mp listed.segment
  have spacedFront : Spaced front := (List.pairwise_append.mp listed.spaced).1
  have before {other : Nat} (member : other ∈ front) : other + HEAP_MIN_BLOCK ≤ node :=
    listed.spaced.apart member List.mem_cons_self
  have linked := flistLink_spec frontSegment spacedFront
    (fun other member => (listed.range other (by simp [member])).1) fits
  generalize flistLink memory region (front.getLast?.getD 0) target = step at linked ⊢
  obtain ⟨linkedSegment, sameRun, frame⟩ := linked
  refine ⟨?_, sameRun, ?_, ?_⟩
  · exact linkedSegment.congr
      (fun other member => flistNext_setNext_other (Or.inl (before member)))
  · intro other later
    rw [flistNext_setNext_other (Or.inr later)]
    apply word_of_links frame
    intro earlier member
    have := before member
    simp only [HEAP_MIN_BLOCK] at this later
    omega
  · intro location outside
    rw [flistSetNext_other, frame]
    · rintro ⟨other, member, within⟩
      exact outside ⟨other, by simp [member], within⟩
    · rintro ⟨other, member, within⟩
      exact outside ⟨other, by simp at member; simp [member], within⟩

-- The three list updates

theorem flistRemove_spec (listed : Listed memory region (front ++ node :: back))
    : let after := flistRemove memory region node
      Listed after.1 after.2 (front ++ back)
      ∧ region.SameRun after.2
      ∧ ∀ location,
          ¬LinkByte (front ++ [node]) location → after.1 location = memory location := by
  obtain ⟨_, _, _, rest⟩ := segment_append.mp listed.segment
  have spaced := List.pairwise_append.mp listed.spaced
  have behind := List.pairwise_cons.mp spaced.2.1
  obtain ⟨segment, sameRun, kept, frame⟩ := unhook_spec listed (flistNext_lt memory node)
  simp only [flistRemove, seek_node listed, ne_eq, not_true_eq_false, if_false]
  refine ⟨⟨?_, ?_, ?_, ?_⟩, sameRun, frame⟩
  · exact segment_append.mpr
      ⟨flistNext memory node, segment,
        rest.congr (fun other member => kept other (behind.1 other member))⟩
  · exact List.pairwise_append.mpr ⟨spaced.1, behind.2,
      fun left before right after => spaced.2.2 left before right (by simp [after])⟩
  · intro other member
    apply listed.range
    rcases List.mem_append.mp member with before | after
    · simp [before]
    · simp [after]
  · have short := listed.short
    simp only [List.length_append, List.length_cons, ← sameRun.2.1] at short ⊢
    omega

theorem flistReplace_spec {old : Nat} (new : Nat)
    (listed : Listed memory region (front ++ old :: back)) (inside : old + HEAP_MIN_BLOCK ≤ new)
    (fits : new < WORD) (below : ∀ node ∈ back, new + HEAP_MIN_BLOCK ≤ node)
    (copied : flistNext memory new = flistNext memory old)
    : let after := flistReplace memory region old new
      Listed after.1 after.2 (front ++ new :: back)
      ∧ region.SameRun after.2
      ∧ ∀ location,
          ¬LinkByte (front ++ [old]) location → after.1 location = memory location := by
  obtain ⟨_, _, _, rest⟩ := segment_append.mp listed.segment
  have spaced := List.pairwise_append.mp listed.spaced
  have behind := List.pairwise_cons.mp spaced.2.1
  obtain ⟨segment, sameRun, kept, frame⟩ := unhook_spec listed fits
  simp only [flistReplace, seek_node listed, ne_eq, not_true_eq_false, if_false]
  refine ⟨⟨?_, ?_, ?_, ?_⟩, sameRun, frame⟩
  · refine segment_append.mpr ⟨new, segment, rfl, ?_⟩
    rw [kept new inside, copied]
    exact rest.congr (fun node member => kept node (behind.1 node member))
  · refine List.pairwise_append.mpr
      ⟨spaced.1, List.pairwise_cons.mpr ⟨below, behind.2⟩, ?_⟩
    intro left before right after
    rcases List.mem_cons.mp after with rfl | member
    · have := listed.spaced.apart before (List.mem_cons_self (l := back) (a := old))
      simp only [HEAP_MIN_BLOCK] at this inside ⊢
      omega
    · exact listed.spaced.apart before (List.mem_cons_of_mem old member)
  · intro node member
    rcases List.mem_append.mp member with before | member
    · exact listed.range node (by simp [before])
    · rcases List.mem_cons.mp member with rfl | after
      · simp only [HEAP_MIN_BLOCK] at inside
        exact ⟨by omega, fits⟩
      · exact listed.range node (by simp [after])
  · have short := listed.short
    simp only [List.length_append, List.length_cons, ← sameRun.2.1] at short ⊢
    exact short

/-- Inserting a block puts it between the nodes below and above it. -/
theorem flistInsert_spec (block : Nat) (listed : Listed memory region (front ++ back))
    (after : ∀ node ∈ front, node + HEAP_MIN_BLOCK ≤ block)
    (before : ∀ node ∈ back, block + HEAP_MIN_BLOCK ≤ node) (range : 0 < block ∧ block < WORD)
    (short : front.length + back.length < region.size)
    : let changed := flistInsert memory region block
      Listed changed.1 changed.2 (front ++ block :: back)
      ∧ region.SameRun changed.2
      ∧ ∀ location,
          ¬LinkByte (front ++ [block]) location
          → changed.1 location = memory location := by
  obtain ⟨middle, frontSegment, rest⟩ := segment_append.mp listed.segment
  have spaced := List.pairwise_append.mp listed.spaced
  have reached
      : seek (flistNext memory) (fun node => decide (block ≤ node)) (flistFuel region) 0
          region.flist
        = (front.getLast?.getD 0, middle) := by
    rw [seek_eq front back listed.segment]
    · rw [← rest.head_eq]
    · intro node member
      have earlier := after node member
      have positive := (listed.range node (by simp [member])).1
      simp only [HEAP_MIN_BLOCK] at earlier
      exact ⟨by omega, by simp; omega⟩
    · intro node head
      have later := before node (List.mem_of_head? head)
      simp only [HEAP_MIN_BLOCK] at later
      simp
      omega
    · simp only [flistFuel]
      omega
  have middleFits : middle < WORD := by
    rw [rest.head_eq]
    cases back with
    | nil => simp [WORD]
    | cons node later => exact (listed.range node (by simp)).2
  have linkedBefore : Segment (flistNext (flistSetNext memory block middle)) region.flist
      front middle :=
    frontSegment.congr
      (fun node member => flistNext_setNext_other (Or.inl (after node member)))
  have linked := flistLink_spec linkedBefore spaced.1
    (fun node member => (listed.range node (by simp [member])).1) range.2
  simp only [flistInsert, reached]
  generalize flistLink (flistSetNext memory block middle) region (front.getLast?.getD 0)
    block = step at linked ⊢
  obtain ⟨segment, sameRun, frame⟩ := linked
  have kept {node : Nat} (later : block ≤ node)
      : flistNext step.1 node = flistNext (flistSetNext memory block middle) node := by
    apply word_of_links frame
    intro earlier member
    have := after earlier member
    simp only [HEAP_MIN_BLOCK] at this
    omega
  refine ⟨⟨?_, ?_, ?_, ?_⟩, sameRun, ?_⟩
  · refine segment_append.mpr ⟨block, segment, rfl, ?_⟩
    rw [kept (Nat.le_refl block), flistNext_setNext_self middleFits]
    apply rest.congr
    intro node member
    have later := before node member
    rw [kept (by simp only [HEAP_MIN_BLOCK] at later; omega)]
    exact flistNext_setNext_other (Or.inr later)
  · refine List.pairwise_append.mpr
      ⟨spaced.1, List.pairwise_cons.mpr ⟨before, spaced.2.1⟩, ?_⟩
    intro left inFront right member
    rcases List.mem_cons.mp member with rfl | inBack
    · exact after left inFront
    · exact spaced.2.2 left inFront right inBack
  · intro node member
    rcases List.mem_append.mp member with inFront | member
    · exact listed.range node (by simp [inFront])
    · rcases List.mem_cons.mp member with rfl | inBack
      · exact range
      · exact listed.range node (by simp [inBack])
  · simp only [List.length_append, List.length_cons, ← sameRun.2.1]
    omega
  · intro location outside
    rw [frame, flistSetNext_other]
    · rintro ⟨node, member, within⟩
      exact outside ⟨node, by simp at member; simp [member], within⟩
    · rintro ⟨node, member, within⟩
      exact outside ⟨node, by simp [member], within⟩

end Panuti.Libc
