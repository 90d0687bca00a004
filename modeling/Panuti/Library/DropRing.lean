import Panuti.Library.Ring

/-! A ring of two indices with one cell left free: it is empty where they are equal, and a push that
would make them equal drops the oldest element.
-/

/-- A ring of cells: the next element goes to the head, and the oldest one is at the tail. -/
structure DropRing (α : Type) (size : Nat) where
  cells : Nat → α
  head : Nat
  tail : Nat
  head_lt : head < size
  tail_lt : tail < size

namespace DropRing

variable {α : Type} {size : Nat}

/-- An element at the head, with whether the oldest one had to go for it. -/
def push (ring : DropRing α size) (value : α) : DropRing α size × Bool :=
  let next := (ring.head + 1) % size
  ({ cells := Function.update ring.cells ring.head value
     head := next
     tail := if next = ring.tail then (ring.tail + 1) % size else ring.tail
     head_lt := Nat.mod_lt _ (Nat.zero_lt_of_lt ring.head_lt)
     tail_lt := by
      split
      · exact Nat.mod_lt _ (Nat.zero_lt_of_lt ring.head_lt)
      · exact ring.tail_lt },
    next = ring.tail)

/-- The oldest element, if there is one, and the ring without it. -/
def pop (ring : DropRing α size) : Option (α × DropRing α size) :=
  if ring.head = ring.tail then none
  else
    some (ring.cells ring.tail,
      { ring with
        tail := (ring.tail + 1) % size
        tail_lt := Nat.mod_lt _ (Nat.zero_lt_of_lt ring.head_lt) })

def count (ring : DropRing α size) : Nat := (ring.head + (size - ring.tail)) % size

/-- What is popped by so many pops, as far as there are elements. -/
def popMany : (wanted : Nat) → DropRing α size → List α × DropRing α size
  | 0, ring => ([], ring)
  | wanted + 1, ring =>
      match ring.pop with
      | none => ([], ring)
      | some (value, rest) => ((value :: (popMany wanted rest).1), (popMany wanted rest).2)

def contents (ring : DropRing α size) : List α := (popMany size ring).1

def empty (cells : Nat → α) (positive : 0 < size) : DropRing α size :=
  ⟨cells, 0, 0, positive, positive⟩

/-- A pop leaves fewer elements. -/
theorem count_pop_lt {ring rest : DropRing α size} {value : α}
    (popped : ring.pop = some (value, rest))
    : rest.count < ring.count := by
  have head := ring.head_lt
  have tail := ring.tail_lt
  rw [pop] at popped
  split at popped
  · cases popped
  next apart =>
    obtain rfl := (Prod.mk.inj (Option.some.inj popped)).2
    rw [count, count]
    dsimp only
    by_cases last : ring.tail + 1 = size
    · rw [last, Nat.mod_self, Nat.sub_zero, Nat.add_mod_right, Nat.mod_eq_of_lt head,
        Nat.mod_eq_of_lt (by omega)]
      omega
    · rw [Nat.mod_eq_of_lt (by omega : ring.tail + 1 < size)]
      by_cases wrapped : ring.head < ring.tail
      · rw [Nat.mod_eq_of_lt (by omega), Nat.mod_eq_of_lt (by omega)]
        omega
      · rw [(by omega : ring.head + (size - ring.tail) = ring.head - ring.tail + size),
          (by omega : ring.head + (size - (ring.tail + 1)) = ring.head - ring.tail - 1 + size),
          Nat.add_mod_right, Nat.add_mod_right, Nat.mod_eq_of_lt (by omega),
          Nat.mod_eq_of_lt (by omega)]
        omega

-- Windows

/-- A ring has the elements of a stream from a place on. -/
structure Window (ring : DropRing α size) (stream : List α) (first : Nat) : Prop where
  holds : Ring.Holds ring.cells size stream first
  inside : first ≤ stream.length
  room : stream.length < first + size
  head : ring.head = stream.length % size
  tail : ring.tail = first % size

variable {ring : DropRing α size} {stream : List α} {first : Nat}

theorem window_empty (cells : Nat → α) (positive : 0 < size) : Window (empty cells positive) [] 0 :=
  ⟨fun _ _ _ => nofun, Nat.le_refl _, by simpa using positive, (Nat.zero_mod _).symm,
    (Nat.zero_mod _).symm⟩

theorem Window.head_eq_tail_iff (window : Window ring stream first)
    : ring.head = ring.tail ↔ first = stream.length := by
  rw [window.head, window.tail]
  constructor
  · intro same
    by_contra apart
    have before := Nat.lt_of_le_of_ne window.inside apart
    exact Ring.mod_ne_mod before window.room same.symm
  · rintro rfl
    rfl

theorem Window.push_drops_iff (window : Window ring stream first) (value : α)
    : (ring.push value).2 = true ↔ stream.length + 1 = first + size := by
  have room := window.room
  have inside := window.inside
  have next : (ring.head + 1) % size = (stream.length + 1) % size := by
    rw [window.head, Nat.mod_add_mod]
  rw [push, decide_eq_true_iff, next, window.tail]
  constructor
  · intro same
    by_contra apart
    exact Ring.mod_ne_mod (by omega : first < stream.length + 1) (by omega) same.symm
  · intro full
    rw [full, Nat.add_mod_right]

theorem Window.push (window : Window ring stream first) (value : α)
    : Window (ring.push value).1 (stream ++ [value])
        (if (ring.push value).2 = true then first + 1 else first) := by
  have room := window.room
  have inside := window.inside
  have drops := window.push_drops_iff value
  have length : (stream ++ [value]).length = stream.length + 1 := by
    rw [List.length_append, List.length_singleton]
  have cells : (ring.push value).1.cells
      = Function.update ring.cells (stream.length % size) value := by
    rw [← window.head]
    rfl
  have head : (ring.push value).1.head = (stream ++ [value]).length % size := by
    rw [length, ← Nat.mod_add_mod, ← window.head]
    rfl
  have tail : (ring.push value).1.tail
      = if (ring.push value).2 = true then (first + 1) % size else first % size := by
    rw [← Nat.mod_add_mod, ← window.tail]
    exact (if_congr decide_eq_true_iff rfl rfl).symm
  by_cases full : (ring.push value).2 = true
  · have last := drops.mp full
    rw [if_pos full] at tail ⊢
    refine ⟨?_, by omega, by omega, head, tail⟩
    rw [cells]
    exact (window.holds.later (Nat.le_succ first)).push value (by omega)
  · have more : stream.length + 1 ≠ first + size := fun last => full (drops.mpr last)
    rw [if_neg full] at tail ⊢
    refine ⟨?_, by omega, by omega, head, tail⟩
    rw [cells]
    exact window.holds.push value room

theorem Window.pop_some (window : Window ring stream first) {value : α}
    (there : stream[first]? = some value)
    : ∃ rest, ring.pop = some (value, rest) ∧ Window rest stream (first + 1) := by
  obtain ⟨inside, -⟩ := List.getElem?_eq_some_iff.mp there
  have room := window.room
  have oldest : ring.cells ring.tail = value := by
    rw [window.tail]
    exact window.holds first value (Nat.le_refl first) there
  have apart : ring.head ≠ ring.tail := by
    rw [ne_eq, window.head_eq_tail_iff]
    omega
  refine ⟨_, by rw [pop, if_neg apart, oldest], ?_⟩
  refine ⟨window.holds.later (Nat.le_succ first), inside, by omega, window.head, ?_⟩
  change (ring.tail + 1) % size = (first + 1) % size
  rw [window.tail, Nat.mod_add_mod]

theorem Window.pop_none (window : Window ring stream first) (done : first = stream.length)
    : ring.pop = none := by
  rw [pop, if_pos (window.head_eq_tail_iff.mpr done)]

theorem Window.popMany (window : Window ring stream first) (wanted : Nat)
    : (popMany wanted ring).1 = (stream.drop first).take wanted
      ∧ Window (popMany wanted ring).2 stream (min (first + wanted) stream.length) := by
  induction wanted generalizing ring first with
  | zero =>
      rw [DropRing.popMany, Nat.add_zero, Nat.min_eq_left window.inside, List.take_zero]
      exact ⟨rfl, window⟩
  | succ wanted ih =>
      by_cases done : first = stream.length
      · rw [DropRing.popMany, window.pop_none done, Nat.min_eq_right (by omega), ← done,
          List.drop_eq_nil_iff.mpr (Nat.le_of_eq done.symm), List.take_nil]
        exact ⟨rfl, window⟩
      · have inside := Nat.lt_of_le_of_ne window.inside done
        obtain ⟨rest, popped, later⟩ :=
          window.pop_some (List.getElem?_eq_getElem inside)
        obtain ⟨taken, last⟩ := ih later
        rw [DropRing.popMany, popped]
        refine ⟨?_, ?_⟩
        · dsimp only
          rw [taken, List.drop_eq_getElem_cons inside, List.take_succ_cons]
        · rw [(by omega : first + (wanted + 1) = first + 1 + wanted)]
          exact last

theorem Window.contents (window : Window ring stream first)
    : ring.contents = stream.drop first := by
  have room := window.room
  rw [DropRing.contents, (window.popMany size).1, List.take_of_length_le]
  rw [List.length_drop]
  omega

theorem Window.pushMany (window : Window ring stream first) (values : List α)
    : Window (values.foldl (fun ring value => (ring.push value).1) ring) (stream ++ values)
        (max first (stream.length + values.length + 1 - size)) := by
  have positive : 0 < size := Nat.zero_lt_of_lt ring.head_lt
  induction values generalizing ring stream first with
  | nil =>
      have room := window.room
      rw [List.foldl_nil, List.append_nil, List.length_nil, Nat.add_zero,
        Nat.max_eq_left (by omega)]
      exact window
  | cons value values ih =>
      have room := window.room
      have drops := window.push_drops_iff value
      have later := ih (window.push value)
      have length : (stream ++ [value]).length = stream.length + 1 := by
        rw [List.length_append, List.length_singleton]
      rw [List.append_assoc, List.singleton_append, length] at later
      rw [List.foldl_cons, List.length_cons]
      convert later using 1
      split
      next full =>
          have last := drops.mp full
          omega
      next more =>
          have other : stream.length + 1 ≠ first + size := fun last => more (drops.mpr last)
          omega

end DropRing
