import Mathlib.Data.List.Nodup
import Mathlib.Tactic.Common

/-! Walks along a list that loses elements on the way. The cursor keeps the element it stands on,
but not the place: once that element is taken off the list, nothing follows it.
-/

namespace ListWalk

variable {α : Type} [DecidableEq α]

-- What follows an element

def behind (items : List α) (item : α) : List α := (items.dropWhile (· != item)).tail

theorem behind_cons_self (item : α) (rest : List α) : behind (item :: rest) item = rest := by
  simp [behind]

variable {item : α} {items : List α}

theorem behind_cons_of_ne {other : α} (apart : other ≠ item) (rest : List α)
    : behind (other :: rest) item = behind rest item := by
  simp [behind, apart]

theorem behind_of_not_mem (absent : item ∉ items) : behind items item = [] := by
  induction items with
  | nil => rfl
  | cons head rest ih =>
      obtain ⟨apart, inRest⟩ := not_or.mp (mt List.mem_cons.mpr absent)
      rw [behind_cons_of_ne (Ne.symm apart), ih inRest]

theorem behind_split {front back : List α} (absent : item ∉ front)
    : behind (front ++ item :: back) item = back := by
  induction front with
  | nil => exact behind_cons_self item back
  | cons head rest ih =>
      obtain ⟨apart, inRest⟩ := not_or.mp (mt List.mem_cons.mpr absent)
      rw [List.cons_append, behind_cons_of_ne (Ne.symm apart), ih inRest]

theorem exists_split (nodup : items.Nodup) (member : item ∈ items)
    : ∃ front, items = front ++ item :: behind items item ∧ item ∉ front := by
  obtain ⟨front, back, rfl⟩ := List.append_of_mem member
  have absent : item ∉ front := by
    intro inFront
    exact (List.disjoint_of_nodup_append nodup) inFront (List.mem_cons_self)
  exact ⟨front, by rw [behind_split absent], absent⟩

theorem not_mem_behind (nodup : items.Nodup) : item ∉ behind items item := by
  by_cases member : item ∈ items
  · obtain ⟨front, split, _⟩ := exists_split nodup member
    rw [split] at nodup
    exact (List.nodup_cons.mp nodup.of_append_right).1
  · simp [behind_of_not_mem member]

theorem behind_sublist (items : List α) (item : α) : (behind items item).Sublist items :=
  (List.tail_sublist _).trans (List.dropWhile_sublist _)

theorem behind_behind {rest : List α} {next : α} (nodup : items.Nodup)
    (follows : behind items item = next :: rest)
    : behind items next = rest := by
  have member : item ∈ items := by
    by_contra absent
    rw [behind_of_not_mem absent] at follows
    cases follows
  obtain ⟨front, split, _⟩ := exists_split nodup member
  rw [follows] at split
  rw [split] at nodup ⊢
  have absent : next ∉ front ++ [item] := by
    rw [← List.singleton_append, ← List.append_assoc] at nodup
    intro inFront
    exact (List.disjoint_of_nodup_append nodup) inFront (List.mem_cons_self)
  have same : front ++ item :: next :: rest = (front ++ [item]) ++ next :: rest := by simp
  rw [same, behind_split absent]

theorem behind_erase {gone : α} (nodup : items.Nodup) (apart : gone ≠ item)
    : behind (items.erase gone) item = (behind items item).erase gone := by
  induction items with
  | nil => rfl
  | cons head rest ih =>
      obtain ⟨absent, restNodup⟩ := List.nodup_cons.mp nodup
      by_cases same : head = gone
      · subst same
        have untouched : head ∉ behind rest item :=
          fun inside => absent ((behind_sublist rest item).subset inside)
        rw [List.erase_cons_head, behind_cons_of_ne apart, List.erase_of_not_mem untouched]
      · rw [List.erase_cons_tail (by simpa using same)]
        by_cases here : head = item
        · subst here
          rw [behind_cons_self, behind_cons_self]
        · rw [behind_cons_of_ne here, behind_cons_of_ne here, ih restNodup]

-- Walks

/-- A walk: what the list still has, the element the cursor stands on, what was delivered, and
what stood behind the cursor when its own element was taken away.
-/
structure Walk (α : Type) where
  items : List α
  cursor : Option α
  delivered : List α
  cutOff : List α

def start (items : List α) : Walk α := ⟨items, items.head?, [], []⟩

namespace Walk

/-- What the cursor still comes to if nothing more is taken away. -/
def ahead (walk : Walk α) : List α :=
  match walk.cursor with
  | none => []
  | some item => item :: behind walk.items item

/-- Deliver the element under the cursor and go on to the one behind it. -/
def advance (walk : Walk α) : Walk α :=
  match walk.cursor with
  | none => walk
  | some item =>
      { walk with
        cursor := (behind walk.items item).head?
        delivered := walk.delivered ++ [item] }

def remove (walk : Walk α) (gone : α) : Walk α :=
  { walk with
    items := walk.items.erase gone
    cutOff :=
      if walk.cursor = some gone then walk.cutOff ++ behind walk.items gone else walk.cutOff }

/-- What the walk has delivered and what it still comes to. -/
def course (walk : Walk α) : List α := walk.delivered ++ walk.ahead

/-- The invariant of a walk that started with a list. -/
structure Sound (initial : List α) (walk : Walk α) : Prop where
  nodup : walk.items.Nodup
  old : walk.items.Sublist initial
  course : walk.course.Sublist initial
  covers : ∀ item ∈ walk.items, item ∈ walk.course ∨ item ∈ walk.cutOff
  apart : ∀ item ∈ walk.cutOff, item ∉ walk.course

theorem Sound.start {items : List α} (nodup : items.Nodup) : (start items).Sound items := by
  have whole : (ListWalk.start items).course = items := by
    cases items with
    | nil => rfl
    | cons head rest => simp [Walk.course, ahead, ListWalk.start, behind_cons_self]
  constructor
  · exact nodup
  · exact List.Sublist.refl _
  · rw [whole]
  · intro item member
    rw [whole]
    exact Or.inl member
  · intro item member
    cases member

variable {initial : List α} {walk : Walk α}

theorem course_advance (nodup : walk.items.Nodup) : walk.advance.course = walk.course := by
  cases here : walk.cursor with
  | none => simp [advance, course, ahead, here]
  | some item =>
      cases follows : behind walk.items item with
      | nil => simp [advance, course, ahead, here, follows]
      | cons next rest => simp [advance, course, ahead, here, follows, behind_behind nodup follows]

theorem Sound.advance (sound : walk.Sound initial) : walk.advance.Sound initial := by
  have course := course_advance sound.nodup
  have items : walk.advance.items = walk.items := by
    unfold Walk.advance
    cases walk.cursor <;> rfl
  have cutOff : walk.advance.cutOff = walk.cutOff := by
    unfold Walk.advance
    cases walk.cursor <;> rfl
  constructor
  · rw [items]
    exact sound.nodup
  · rw [items]
    exact sound.old
  · rw [course]
    exact sound.course
  · rw [items, course, cutOff]
    exact sound.covers
  · rw [course, cutOff]
    exact sound.apart

theorem ahead_remove_cursor {gone : α} (nodup : walk.items.Nodup)
    (here : walk.cursor = some gone)
    : (walk.remove gone).ahead = [gone] := by
  have absent : gone ∉ walk.items.erase gone := nodup.not_mem_erase
  simp [remove, ahead, here, behind_of_not_mem absent]

theorem ahead_remove_of_ne {gone : α} (nodup : walk.items.Nodup) (apart : walk.cursor ≠ some gone)
    : (walk.remove gone).ahead = walk.ahead.erase gone := by
  unfold ahead remove
  cases here : walk.cursor with
  | none => rfl
  | some item =>
      have different : gone ≠ item := by
        rintro rfl
        exact apart here
      rw [List.erase_cons_tail (by simpa using different.symm)]
      simp only [behind_erase nodup different]

theorem Sound.remove (sound : walk.Sound initial) (initialNodup : initial.Nodup) (gone : α)
    : (walk.remove gone).Sound initial := by
  have courseNodup : walk.course.Nodup := sound.course.nodup initialNodup
  have less : (walk.remove gone).items.Sublist walk.items := List.erase_sublist
  by_cases here : walk.cursor = some gone
  · have nowAhead := ahead_remove_cursor sound.nodup here
    have wasAhead : walk.ahead = gone :: behind walk.items gone := by simp [ahead, here]
    have cutOff : (walk.remove gone).cutOff = walk.cutOff ++ behind walk.items gone := by
      simp [Walk.remove, here]
    have shorter : (walk.remove gone).course.Sublist walk.course := by
      simp only [Walk.course, nowAhead, wasAhead]
      exact List.Sublist.append_left ((List.nil_sublist _).cons_cons gone) _
    constructor
    · exact less.nodup sound.nodup
    · exact less.trans sound.old
    · exact shorter.trans sound.course
    · intro item member
      rw [cutOff, List.mem_append]
      rcases sound.covers item (less.subset member) with onCourse | lost
      · simp only [Walk.course, nowAhead, wasAhead, List.mem_append, List.mem_cons,
          List.not_mem_nil, or_false] at onCourse ⊢
        tauto
      · exact Or.inr (Or.inl lost)
    · intro item member onCourse
      rw [cutOff, List.mem_append] at member
      rcases member with lost | cut
      · exact sound.apart item lost (shorter.subset onCourse)
      · simp only [Walk.course, nowAhead, List.mem_append, List.mem_singleton] at onCourse
        rcases onCourse with delivered | rfl
        · rw [Walk.course, wasAhead] at courseNodup
          exact (List.disjoint_of_nodup_append courseNodup) delivered (List.mem_cons_of_mem _ cut)
        · exact not_mem_behind sound.nodup cut
  · have nowAhead := ahead_remove_of_ne sound.nodup here
    have cutOff : (walk.remove gone).cutOff = walk.cutOff := by simp [Walk.remove, here]
    have shorter : (walk.remove gone).course.Sublist walk.course := by
      simp only [Walk.course, nowAhead]
      exact List.Sublist.append_left List.erase_sublist _
    constructor
    · exact less.nodup sound.nodup
    · exact less.trans sound.old
    · exact shorter.trans sound.course
    · intro item member
      have stays : item ≠ gone := by
        rintro rfl
        exact sound.nodup.not_mem_erase member
      rw [cutOff]
      refine (sound.covers item (less.subset member)).imp_left ?_
      simp only [Walk.course, nowAhead, List.mem_append]
      exact Or.imp_right (List.mem_erase_of_ne stays).mpr
    · intro item member onCourse
      rw [cutOff] at member
      exact sound.apart item member (shorter.subset onCourse)

theorem Sound.delivered_nodup (sound : walk.Sound initial) (initialNodup : initial.Nodup)
    : walk.delivered.Nodup :=
  (sound.course.nodup initialNodup).of_append_left

theorem Sound.complete_iff (sound : walk.Sound initial) (initialNodup : initial.Nodup)
    (ended : walk.cursor = none)
    : (∀ item ∈ initial, item ∈ walk.items → walk.delivered.count item = 1)
      ↔ ∀ item ∈ walk.cutOff, item ∉ walk.items := by
  have whole : walk.course = walk.delivered := by simp [Walk.course, ahead, ended]
  constructor
  · intro complete item lost stays
    have once := complete item (sound.old.subset stays) stays
    apply sound.apart item lost
    rw [whole]
    exact List.count_pos_iff.mp (by omega)
  · intro spared item _ stays
    apply List.count_eq_one_of_mem (sound.delivered_nodup initialNodup)
    rw [← whole]
    exact (sound.covers item stays).resolve_right (fun lost => spared item lost stays)

/-- The walk has ended, or has delivered one element for each of so many advances. -/
def Paced (walk : Walk α) (advances : Nat) : Prop :=
  walk.cursor = none ∨ walk.delivered.length = advances

theorem Paced.advance {advances : Nat} (paced : walk.Paced advances)
    : walk.advance.Paced (advances + 1) := by
  unfold Walk.advance
  cases here : walk.cursor with
  | none => exact Or.inl here
  | some item =>
      have delivered := paced.resolve_left (by simp [here])
      exact Or.inr (by simp [delivered])

theorem Sound.delivered_lt (sound : walk.Sound initial) (here : walk.cursor = some item)
    : walk.delivered.length < initial.length := by
  have bound := sound.course.length_le
  simp only [Walk.course, ahead, here, List.length_append, List.length_cons] at bound
  omega

theorem Sound.ends (sound : walk.Sound initial) {advances : Nat} (paced : walk.Paced advances)
    (enough : initial.length ≤ advances)
    : walk.cursor = none := by
  rcases paced with ended | delivered
  · exact ended
  · cases here : walk.cursor with
    | none => rfl
    | some item =>
        have less := sound.delivered_lt here
        omega

end Walk

end ListWalk
