import Mathlib.Algebra.Ring.Int.Defs
import Mathlib.Algebra.Ring.Nat
import Mathlib.Data.List.Perm.Basic
import Mathlib.Tactic.Common

/-! The free ranges of the kernel heap: `vmfree_insert` and `vmfree_take` of `vmalloc.c`. A range
that is put in is merged with all that it overlaps or touches, and a run is taken from the front of
a range. Addresses are words of 32 bits.
-/

namespace Panuti.KernelHeap

def PAGE_SIZE : Nat := 4096
def VM_FREE_MAX : Nat := 256

def word (value : Nat) : Nat := value % 2 ^ 32

/-- `vm_free_t`. -/
structure VmFree where
  vaddr : Nat
  npages : Nat
deriving Repr, DecidableEq

/-- `vmfree[i] = vmfree[--vmfree_count]`. -/
def dropAt (entries : List VmFree) (i : Nat) : List VmFree :=
  match entries.getLast? with
  | none => entries
  | some last => (entries.set i last).dropLast

/-- The loop in `vmfree_insert`, which begins again behind every entry it takes in. There is no
result when it needs more turns.
-/
def vmfreeMerge : (turns i lo hi : Nat) → List VmFree → Option (Nat × Nat × List VmFree)
  | 0, _, _, _, _ => none
  | turns + 1, i, lo, hi, entries =>
      match entries[i]? with
      | none => some (lo, hi, entries)
      | some entry =>
          let eStart := entry.vaddr
          let eEnd := word (eStart + word (entry.npages * PAGE_SIZE))
          if lo ≤ eEnd ∧ eStart ≤ hi then
            vmfreeMerge turns 0 (if eStart < lo then eStart else lo)
              (if hi < eEnd then eEnd else hi) (dropAt entries i)
          else vmfreeMerge turns (i + 1) lo hi entries

/-- `vmfree_insert`. A range is lost when the list is full. -/
def vmfreeInsert (vaddr npages : Nat) (entries : List VmFree) : Option (List VmFree) :=
  if npages = 0 then some entries
  else
    let turns := (entries.length + 1) * (entries.length + 1)
    (vmfreeMerge turns 0 vaddr (word (vaddr + word (npages * PAGE_SIZE))) entries).map
      fun (lo, hi, entries) =>
        if VM_FREE_MAX ≤ entries.length then entries
        else entries ++ [⟨lo, word (2 ^ 32 + hi - lo) / PAGE_SIZE⟩]

/-- The loop in `vmfree_take`: the first of the shortest entries that are long enough. -/
def vmfreeBest (npages : Nat) : List VmFree → Nat → Option (Nat × VmFree) → Option (Nat × VmFree)
  | [], _, best => best
  | entry :: rest, i, best =>
      let better :=
        npages ≤ entry.npages && best.all (fun (_, found) => entry.npages < found.npages)
      vmfreeBest npages rest (i + 1) (if better then some (i, entry) else best)

/-- `vmfree_take`: 0 where no entry is long enough. -/
def vmfreeTake (npages : Nat) (entries : List VmFree) : Nat × List VmFree :=
  match vmfreeBest npages entries 0 none with
  | none => (0, entries)
  | some (best, entry) =>
      if entry.npages = npages then (entry.vaddr, dropAt entries best)
      else
        (entry.vaddr,
          entries.set best ⟨word (entry.vaddr + word (npages * PAGE_SIZE)), entry.npages - npages⟩)

-- Free ranges

def VmFree.stop (entry : VmFree) : Nat := entry.vaddr + entry.npages * PAGE_SIZE

/-- A range of whole pages, not empty, whose end is a word. -/
structure VmFree.Whole (entry : VmFree) : Prop where
  aligned : entry.vaddr % PAGE_SIZE = 0
  some' : 0 < entry.npages
  inside : entry.stop < 2 ^ 32

/-- Two ranges neither overlap nor touch. -/
def VmFree.Apart (one two : VmFree) : Prop := one.stop < two.vaddr ∨ two.stop < one.vaddr

structure Separate (entries : List VmFree) : Prop where
  whole : ∀ entry ∈ entries, entry.Whole
  apart : entries.Pairwise VmFree.Apart

/-- An address is in a range. -/
def VmFree.Holds (entry : VmFree) (place : Nat) : Prop :=
  entry.vaddr ≤ place ∧ place < entry.stop

def Has (entries : List VmFree) (place : Nat) : Prop := ∃ entry ∈ entries, entry.Holds place

variable {entries other rest : List VmFree} {entry : VmFree} {i npages : Nat}
    {best : Option (Nat × VmFree)}

theorem Separate.perm (separate : Separate entries) (perm : other.Perm entries) : Separate other :=
  ⟨fun entry member => separate.whole entry (perm.mem_iff.mp member),
    (perm.pairwise_iff fun apart => Or.symm apart).mpr separate.apart⟩

theorem Separate.cons_iff
    : Separate (entry :: entries)
      ↔ entry.Whole ∧ (∀ other ∈ entries, entry.Apart other) ∧ Separate entries := by
  constructor
  · rintro ⟨whole, apart⟩
    obtain ⟨here, later⟩ := List.forall_mem_cons.mp whole
    obtain ⟨apartHere, apartLater⟩ := List.pairwise_cons.mp apart
    exact ⟨here, apartHere, later, apartLater⟩
  · rintro ⟨here, apartHere, later, apartLater⟩
    exact ⟨List.forall_mem_cons.mpr ⟨here, later⟩,
      List.pairwise_cons.mpr ⟨apartHere, apartLater⟩⟩

theorem has_cons {place : Nat}
    : Has (entry :: entries) place ↔ entry.Holds place ∨ Has entries place :=
  List.exists_mem_cons_iff ..

theorem has_perm (perm : other.Perm entries) (place : Nat) : Has other place ↔ Has entries place :=
  exists_congr fun _ => and_congr_left' perm.mem_iff

theorem dropAt_perm (here : entries[i]? = some entry)
    : (entry :: dropAt entries i).Perm entries := by
  obtain ⟨inside, rfl⟩ := List.getElem?_eq_some_iff.mp here
  rcases List.eq_nil_or_concat entries with rfl | ⟨front, last, rfl⟩
  · simp at inside
  · simp only [List.concat_eq_append, List.length_append, List.length_singleton] at inside ⊢
    simp only [dropAt, List.getLast?_append, List.getLast?_singleton, Option.some_or]
    rcases Nat.lt_or_ge i front.length with before | behind
    · rw [List.set_append_left _ _ before, List.dropLast_concat, List.getElem_append_left before]
      have moved := (List.set_perm_cons_eraseIdx before last).cons (front[i])
      refine moved.trans ?_
      have whole := List.getElem_cons_eraseIdx_perm before
      refine ((List.Perm.swap _ _ _).trans (whole.cons last)).trans ?_
      exact (List.perm_append_singleton last front).symm
    · obtain rfl : i = front.length := by omega
      simp only [List.set_append_right _ _ (Nat.le_refl _), Nat.sub_self, List.set_cons_zero,
        List.dropLast_concat, List.getElem_concat_length]
      exact (List.perm_append_singleton last front).symm

theorem set_perm_dropAt (here : entries[i]? = some entry) (other : VmFree)
    : (entries.set i other).Perm (other :: dropAt entries i) := by
  have inside := (List.getElem?_eq_some_iff.mp here).1
  refine (List.set_perm_cons_eraseIdx inside _).trans (List.Perm.cons _ ?_)
  have erased := List.getElem_cons_eraseIdx_perm inside
  rw [(List.getElem?_eq_some_iff.mp here).2] at erased
  exact (List.perm_cons entry).mp (erased.trans (dropAt_perm here).symm)

theorem dropAt_length (here : entries[i]? = some entry)
    : (dropAt entries i).length + 1 = entries.length := by
  simpa using (dropAt_perm here).length_eq

-- Insertions

/-- What `vmfree_insert` has when its loop ends: a range that touches none of the entries that are
left, and covers with them what the one it began with did with all of them.
-/
structure Merged (lo hi : Nat) (entries : List VmFree) (lo' hi' : Nat) (left : List VmFree) : Prop
    where
  separate : Separate left
  aligned : lo' % PAGE_SIZE = 0 ∧ hi' % PAGE_SIZE = 0
  proper : lo' < hi' ∧ hi' < 2 ^ 32
  clear : ∀ entry ∈ left, entry.stop < lo' ∨ hi' < entry.vaddr
  fewer : left.length ≤ entries.length
  covers
    : ∀ place, (lo' ≤ place ∧ place < hi') ∨ Has left place
        ↔ (lo ≤ place ∧ place < hi) ∨ Has entries place

theorem VmFree.Whole.word_stop (whole : entry.Whole)
    : word (entry.vaddr + word (entry.npages * PAGE_SIZE)) = entry.stop := by
  have inside := whole.inside
  rw [VmFree.stop] at inside ⊢
  rw [word, word, Nat.add_mod_mod, Nat.mod_eq_of_lt inside]

/-- The loop ends within its turns, and has merged whatever touches the range. -/
theorem vmfreeMerge_spec {turns lo hi : Nat} (separate : Separate entries)
    (aligned : lo % PAGE_SIZE = 0 ∧ hi % PAGE_SIZE = 0) (proper : lo < hi ∧ hi < 2 ^ 32)
    (passed : ∀ entry ∈ entries.take i, entry.stop < lo ∨ hi < entry.vaddr)
    (enough : entries.length * (entries.length + 1) + (entries.length - i) < turns)
    : ∃ lo' hi' left, vmfreeMerge turns i lo hi entries = some (lo', hi', left)
        ∧ Merged lo hi entries lo' hi' left := by
  induction turns generalizing i lo hi entries with
  | zero => exact absurd enough (Nat.not_lt_zero _)
  | succ turns ih =>
      rw [vmfreeMerge]
      cases here : entries[i]? with
      | none =>
          have last : entries.length ≤ i := List.getElem?_eq_none_iff.mp here
          rw [List.take_of_length_le last] at passed
          exact ⟨lo, hi, entries, rfl, separate, aligned, proper, passed, Nat.le_refl _,
            fun _ => Iff.rfl⟩
      | some entry =>
          have length : i < entries.length := (List.getElem?_eq_some_iff.mp here).1
          have whole := separate.whole entry (List.mem_of_getElem? here)
          dsimp only
          rw [whole.word_stop]
          by_cases touches : lo ≤ entry.stop ∧ entry.vaddr ≤ hi
          · rw [if_pos touches]
            have perm := dropAt_perm here
            have shorter := dropAt_length here
            obtain ⟨_, _, rest⟩ := Separate.cons_iff.mp (separate.perm perm)
            have stop : entry.stop = entry.vaddr + entry.npages * PAGE_SIZE := rfl
            have inside := whole.inside
            have ends : entry.stop % PAGE_SIZE = 0 := by
              rw [stop, Nat.add_mul_mod_self_right]
              exact whole.aligned
            have sizes : (dropAt entries i).length * ((dropAt entries i).length + 1)
                + ((dropAt entries i).length - 0) < turns := by
              generalize (dropAt entries i).length = m at shorter
              rw [← shorter] at enough length
              have product : (m + 1) * (m + 1 + 1) = m * (m + 1) + 2 * (m + 1) := by
                rw [Nat.add_mul, Nat.mul_add m (m + 1) 1]
                omega
              omega
            have alignedNew : (if entry.vaddr < lo then entry.vaddr else lo) % PAGE_SIZE = 0
                ∧ (if hi < entry.stop then entry.stop else hi) % PAGE_SIZE = 0 := by
              have start := whole.aligned
              constructor <;> split <;> omega
            have properNew : (if entry.vaddr < lo then entry.vaddr else lo)
                  < (if hi < entry.stop then entry.stop else hi)
                ∧ (if hi < entry.stop then entry.stop else hi) < 2 ^ 32 := by
              constructor <;> split <;> try split
              all_goals omega
            obtain ⟨lo', hi', left, found, merged⟩ :=
              ih rest alignedNew properNew (by simp) sizes
            refine ⟨lo', hi', left, found, merged.separate, merged.aligned, merged.proper,
              merged.clear, by have fewer := merged.fewer; omega, fun place => ?_⟩
            rw [merged.covers place, ← has_perm perm, has_cons, ← or_assoc]
            refine or_congr_left ?_
            rw [VmFree.Holds]
            split <;> split <;> omega
          · rw [if_neg touches]
            refine ih separate aligned proper ?_ (by omega)
            intro other before
            rw [List.take_add_one, here, Option.toList_some, List.mem_append,
              List.mem_singleton] at before
            rcases before with before | rfl
            · exact passed other before
            · omega

theorem vmfreeInsert_spec {vaddr : Nat} (separate : Separate entries)
    (aligned : vaddr % PAGE_SIZE = 0) (inside : vaddr + npages * PAGE_SIZE < 2 ^ 32)
    (room : entries.length < VM_FREE_MAX)
    : ∃ later, vmfreeInsert vaddr npages entries = some later ∧ Separate later
        ∧ ∀ place, Has later place
          ↔ Has entries place ∨ vaddr ≤ place ∧ place < vaddr + npages * PAGE_SIZE := by
  rw [vmfreeInsert]
  by_cases none' : npages = 0
  · rw [if_pos none', none']
    refine ⟨entries, rfl, separate, fun place => (or_iff_left ?_).symm⟩
    omega
  rw [if_neg none']
  have ends : word (vaddr + word (npages * PAGE_SIZE)) = vaddr + npages * PAGE_SIZE := by
    rw [word, word, Nat.add_mod_mod, Nat.mod_eq_of_lt inside]
  have positive : 0 < npages * PAGE_SIZE := Nat.mul_pos (Nat.pos_of_ne_zero none') (by decide)
  have turns : entries.length * (entries.length + 1) + (entries.length - 0)
      < (entries.length + 1) * (entries.length + 1) := by
    rw [Nat.add_mul entries.length 1, Nat.one_mul]
    omega
  have alignedBoth : vaddr % PAGE_SIZE = 0 ∧ (vaddr + npages * PAGE_SIZE) % PAGE_SIZE = 0 :=
    ⟨aligned, by rwa [Nat.add_mul_mod_self_right]⟩
  have properBoth : vaddr < vaddr + npages * PAGE_SIZE
      ∧ vaddr + npages * PAGE_SIZE < 2 ^ 32 := ⟨by omega, inside⟩
  obtain ⟨lo, hi, left, found, merged⟩ :=
    vmfreeMerge_spec (i := 0) separate alignedBoth properBoth (by simp) turns
  obtain ⟨proper, small⟩ := merged.proper
  obtain ⟨alignedLo, alignedHi⟩ := merged.aligned
  have fewer := merged.fewer
  have count : word (2 ^ 32 + hi - lo) = hi - lo := by
    rw [word]
    omega
  have stop : VmFree.stop ⟨lo, (hi - lo) / PAGE_SIZE⟩ = hi := by
    simp only [VmFree.stop, PAGE_SIZE] at alignedLo alignedHi ⊢
    omega
  dsimp only
  rw [ends, found, Option.map_some]
  dsimp only
  rw [if_neg (by omega), count]
  have last := List.perm_append_singleton ⟨lo, (hi - lo) / PAGE_SIZE⟩ left
  refine ⟨_, rfl, (Separate.cons_iff.mpr ⟨⟨alignedLo, ?_, ?_⟩, ?_, merged.separate⟩).perm last, ?_⟩
  · simp only [PAGE_SIZE] at alignedLo alignedHi ⊢
    omega
  · rw [stop]
    exact small
  · intro other member
    rw [VmFree.Apart, stop]
    exact (merged.clear other member).symm
  · intro place
    rw [has_perm last, has_cons, VmFree.Holds, stop, merged.covers, or_comm]

-- Runs that are taken

theorem vmfreeBest_spec (whole front : List VmFree) (split : whole = front ++ rest)
    (counted : i = front.length)
    (sound : ∀ at' entry, best = some (at', entry)
      → whole[at']? = some entry ∧ npages ≤ entry.npages)
    {place : Nat} (found : vmfreeBest npages rest i best = some (place, entry))
    : whole[place]? = some entry ∧ npages ≤ entry.npages := by
  induction rest generalizing front i best with
  | nil => exact sound place entry found
  | cons head tail ih =>
      refine ih (front ++ [head]) (by simp [split]) (by simp [counted]) ?_ found
      intro at' other chosen
      split at chosen
      · rename_i better
        obtain ⟨rfl, rfl⟩ : i = at' ∧ head = other := by simpa using chosen
        simp only [Bool.and_eq_true, decide_eq_true_eq] at better
        refine ⟨?_, better.1⟩
        rw [split, counted, List.getElem?_append_right (Nat.le_refl _), Nat.sub_self]
        rfl
      · exact sound at' other chosen

theorem vmfreeBest_none (none' : vmfreeBest npages rest i best = none)
    : best = none ∧ ∀ entry ∈ rest, entry.npages < npages := by
  induction rest generalizing i best with
  | nil => exact ⟨none', nofun⟩
  | cons head tail ih =>
      obtain ⟨before, later⟩ := ih none'
      split at before
      next => cases before
      next worse =>
          subst before
          refine ⟨rfl, List.forall_mem_cons.mpr ⟨?_, later⟩⟩
          simpa using worse

/-- A run was free, and all that is still free is what was free besides. -/
structure RunTaken (entries : List VmFree) (vaddr npages : Nat) (left : List VmFree) : Prop where
  free : ∀ place, vaddr ≤ place ∧ place < vaddr + npages * PAGE_SIZE → Has entries place
  rest
    : ∀ place, Has left place
        ↔ Has entries place ∧ ¬(vaddr ≤ place ∧ place < vaddr + npages * PAGE_SIZE)

/-- What `vmfree_take` answers: no range is long enough, or a run is no longer free. -/
theorem vmfreeTake_spec (separate : Separate entries) (npages : Nat)
    : Separate (vmfreeTake npages entries).2
      ∧ (vmfreeTake npages entries = (0, entries) ∧ (∀ entry ∈ entries, entry.npages < npages)
        ∨ RunTaken entries (vmfreeTake npages entries).1 npages
            (vmfreeTake npages entries).2) := by
  rw [vmfreeTake]
  cases best : vmfreeBest npages entries 0 none with
  | none => exact ⟨separate, .inl ⟨rfl, (vmfreeBest_none best).2⟩⟩
  | some found =>
      obtain ⟨at', entry⟩ := found
      obtain ⟨here, enough⟩ := vmfreeBest_spec entries [] rfl rfl
        (fun _ _ chosen => by cases chosen) best
      have perm := dropAt_perm here
      obtain ⟨whole, apart, rest⟩ := Separate.cons_iff.mp (separate.perm perm)
      have stop : entry.stop = entry.vaddr + entry.npages * PAGE_SIZE := rfl
      have size := Nat.mul_le_mul_right PAGE_SIZE enough
      have inside := whole.inside
      have others (place : Nat) (has : Has (dropAt entries at') place)
          : ¬(entry.vaddr ≤ place ∧ place < entry.stop) := by
        obtain ⟨other, member, from', to'⟩ := has
        rcases apart other member with before | behind <;> omega
      have run (place : Nat)
          (among : entry.vaddr ≤ place ∧ place < entry.vaddr + npages * PAGE_SIZE)
          : Has entries place :=
        (has_perm perm place).mp (has_cons.mpr (.inl ⟨among.1, by omega⟩))
      dsimp only
      by_cases same : entry.npages = npages
      · rw [if_pos same]
        refine ⟨rest, .inr ⟨run, fun place => ?_⟩⟩
        rw [← has_perm perm, has_cons, VmFree.Holds, stop, same]
        rw [stop, same] at others
        exact ⟨fun has => ⟨.inr has, others place has⟩, fun both => both.1.resolve_left both.2⟩
      · rw [if_neg same]
        have remains : (entry.npages - npages) * PAGE_SIZE
            = entry.npages * PAGE_SIZE - npages * PAGE_SIZE := Nat.sub_mul ..
        have small : word (entry.vaddr + word (npages * PAGE_SIZE))
            = entry.vaddr + npages * PAGE_SIZE := by
          rw [word, word, Nat.add_mod_mod, Nat.mod_eq_of_lt (by omega)]
        rw [small]
        -- The entry that stays is the end of the one that was there.
        have moved := set_perm_dropAt here
          ⟨entry.vaddr + npages * PAGE_SIZE, entry.npages - npages⟩
        have stopToo : VmFree.stop ⟨entry.vaddr + npages * PAGE_SIZE, entry.npages - npages⟩
            = entry.stop := by
          simp only [VmFree.stop, remains]
          omega
        refine ⟨(Separate.cons_iff.mpr ⟨⟨?_, ?_, ?_⟩, ?_, rest⟩).perm moved,
          .inr ⟨run, fun place => ?_⟩⟩
        · rw [Nat.add_mul_mod_self_right]
          exact whole.aligned
        · dsimp only
          omega
        · rwa [stopToo]
        · intro other member
          rw [VmFree.Apart, stopToo]
          rcases apart other member with before | behind
          · exact .inl before
          · exact .inr (by dsimp only; omega)
        · rw [has_perm moved, has_cons, ← has_perm perm place, has_cons, VmFree.Holds,
            VmFree.Holds, stopToo]
          dsimp only
          have apartHere := others place
          by_cases has : Has (dropAt entries at') place
          · have away := apartHere has
            simp only [has, or_true, true_and, true_iff]
            omega
          · simp only [has, or_false]
            omega

-- Runs

/-- The free lists that calls lead to, from the empty one of `vmalloc_init`. An insertion is of
whole pages whose end is a word, and finds room in the list.
-/
inductive Reachable : List VmFree → Prop where
  | init : Reachable []
  | insert {entries later : List VmFree} {vaddr npages : Nat} (before : Reachable entries)
      (aligned : vaddr % PAGE_SIZE = 0) (inside : vaddr + npages * PAGE_SIZE < 2 ^ 32)
      (room : entries.length < VM_FREE_MAX)
      (done : vmfreeInsert vaddr npages entries = some later)
      : Reachable later
  | take {entries : List VmFree} (npages : Nat) (before : Reachable entries)
      : Reachable (vmfreeTake npages entries).2

theorem Reachable.separate (reachable : Reachable entries) : Separate entries := by
  induction reachable with
  | init => exact ⟨nofun, List.Pairwise.nil⟩
  | insert _ aligned inside room done separate =>
      obtain ⟨other, ends, separateToo, _⟩ := vmfreeInsert_spec separate aligned inside room
      rw [done] at ends
      exact Option.some.inj ends ▸ separateToo
  | take npages _ separate => exact (vmfreeTake_spec separate npages).1

/-- In every run the ranges neither overlap nor touch, an insertion ends and adds just its range,
and a run that is taken was free and is all that is no longer so.
-/
theorem vmfree_runs {entries : List VmFree} (reachable : Reachable entries)
    : Separate entries
      ∧ (∀ vaddr npages, vaddr % PAGE_SIZE = 0 → vaddr + npages * PAGE_SIZE < 2 ^ 32
        → entries.length < VM_FREE_MAX
        → ∃ later, vmfreeInsert vaddr npages entries = some later ∧ Separate later
          ∧ ∀ place, Has later place
            ↔ Has entries place ∨ vaddr ≤ place ∧ place < vaddr + npages * PAGE_SIZE)
      ∧ ∀ npages, Separate (vmfreeTake npages entries).2
        ∧ (vmfreeTake npages entries = (0, entries)
            ∧ (∀ entry ∈ entries, entry.npages < npages)
          ∨ RunTaken entries (vmfreeTake npages entries).1 npages
              (vmfreeTake npages entries).2) :=
  ⟨reachable.separate,
    fun _ _ aligned inside room => vmfreeInsert_spec reachable.separate aligned inside room,
    vmfreeTake_spec reachable.separate⟩

/-- A page and the one behind it are put in, and make up one range. -/
theorem vmfree_two_pages : Separate [⟨4096, 2⟩] := by
  have first : vmfreeInsert 8192 1 [] = some [⟨8192, 1⟩] := by decide
  have second : vmfreeInsert 4096 1 [⟨8192, 1⟩] = some [⟨4096, 2⟩] := by decide
  exact (vmfree_runs (.insert (.insert .init (by decide) (by decide) (by decide) first)
    (by decide) (by decide) (by decide) second)).1

end Panuti.KernelHeap
