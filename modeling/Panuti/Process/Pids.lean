import Mathlib.Data.List.Nodup
import Mathlib.Data.List.Range
import Panuti.Process.Tasks

/-! PIDs in every run: `task_alloc_pid` hands out the lowest number that no task on
`task_list` has, so a PID is new exactly when every PID handed out before is still on the
list.
-/

namespace Panuti.Process

open Panuti.Kernel (TaskState lowestFree)

-- The lowest free number

theorem lowestFree_spec (pids : List Nat) (fuel candidate : Nat)
    : candidate ≤ lowestFree pids fuel candidate
      ∧ (∀ pid, candidate ≤ pid → pid < lowestFree pids fuel candidate → pid ∈ pids)
      ∧ (lowestFree pids fuel candidate ∈ pids
        → lowestFree pids fuel candidate = candidate + fuel) := by
  induction fuel generalizing candidate with
  | zero =>
      refine ⟨Nat.le_refl _, ?_, fun _ => rfl⟩
      intro pid above below
      exact absurd below (Nat.not_lt.mpr above)
  | succ fuel ih =>
      simp only [lowestFree]
      split
      · rename_i taken
        obtain ⟨above, between, last⟩ := ih (candidate + 1)
        refine ⟨by omega, ?_, ?_⟩
        · intro pid low high
          rcases Nat.eq_or_lt_of_le low with same | beyond
          · rw [← same]
            exact taken
          · exact between pid beyond high
        · intro member
          rw [last member]
          omega
      · rename_i free
        refine ⟨Nat.le_refl _, ?_, fun member => absurd member free⟩
        intro pid above below
        exact absurd below (Nat.not_lt.mpr above)

theorem lowestFree_not_mem (pids : List Nat) : lowestFree pids pids.length 1 ∉ pids := by
  intro member
  obtain ⟨_, between, last⟩ := lowestFree_spec pids pids.length 1
  have reached := last member
  have inside : List.range' 1 (pids.length + 1) ⊆ pids := by
    intro pid inRange
    rw [List.mem_range'_1] at inRange
    by_cases same : pid = lowestFree pids pids.length 1
    · rw [same]
      exact member
    · exact between pid inRange.1 (by omega)
  have long := (List.Nodup.subperm (List.nodup_range' 1) inside).length_le
  rw [List.length_range'] at long
  omega

-- What a step does to the PIDs

/-- Every task that is left has the PID it had, and no PID was handed out. -/
structure KeepsPids (world after : World) : Prop where
  tasks
    : ∀ task now, after.tasks.get task = some now
      → ∃ was, world.tasks.get task = some was ∧ now.pid = was.pid
  given : after.given = world.given
  next : after.tasks.next = world.tasks.next

theorem KeepsPids.refl (world : World) : KeepsPids world world :=
  ⟨fun _ now present => ⟨now, present, rfl⟩, rfl, rfl⟩

variable {world : World}

theorem KeepsPids.trans {middle after : World} (first : KeepsPids world middle)
    (second : KeepsPids middle after)
    : KeepsPids world after where
  tasks := by
    intro task now present
    obtain ⟨between, there, same⟩ := second.tasks task now present
    obtain ⟨was, origin, sameToo⟩ := first.tasks task between there
    exact ⟨was, origin, same.trans sameToo⟩
  given := second.given.trans first.given
  next := second.next.trans first.next

theorem keepsPids_modify (world : World) (task : Nat) (change : Task → Task)
    (same : ∀ was, (change was).pid = was.pid)
    : KeepsPids world (world.modify task change) := by
  refine ⟨?_, rfl, rfl⟩
  intro other now present
  obtain ⟨was, there, rfl⟩ := Arena.get_modify_eq_some present
  refine ⟨was, there, ?_⟩
  split
  · exact same was
  · rfl

theorem keepsPids_free (world : World) (task : Nat) (list : List Nat)
    : KeepsPids world { world with tasks := world.tasks.free task, list } := by
  refine ⟨?_, rfl, rfl⟩
  intro other now present
  exact ⟨now, (Arena.get_free_eq_some.mp present).2, rfl⟩

theorem keepsPids_answer (world : World) (answer : Answer)
    : KeepsPids world (world.answer answer) := by
  have kept := keepsPids_modify world answer.waiter
    (fun task => { task with pidWaitingOn := 0, control := .user }) (fun _ => rfl)
  exact ⟨kept.tasks, kept.given, kept.next⟩

theorem keepsPids_waitPass (world : World) (who target : Nat) (goal : Option Nat)
    : KeepsPids world (waitPass world who target goal) := by
  simp only [waitPass]
  split
  · exact keepsPids_answer world _
  split
  · exact KeepsPids.refl world
  split
  · exact (keepsPids_answer world _).trans (keepsPids_free _ _ _)
  · apply keepsPids_modify
    intro was
    rfl

theorem keepsPids_wakeWaiters (world : World) (pid : Nat)
    : KeepsPids world (taskWakeWaiters world pid) := by
  simp only [taskWakeWaiters]
  generalize world.list = list
  induction list generalizing world with
  | nil => exact KeepsPids.refl world
  | cons task rest ih =>
      rw [List.foldl_cons]
      refine KeepsPids.trans ?_ (ih _)
      apply keepsPids_modify
      intro was
      split <;> rfl

/-- A step that allocates no task keeps the PIDs. -/
theorem keepsPids_step (world : World) (event : Event)
    (noAlloc : ∀ who room, event ≠ .alloc who room)
    : KeepsPids world (world.step event) := by
  cases event with
  | wait who target =>
      simp only [World.step]
      split
      · split
        · exact keepsPids_waitPass world who target none
        · exact KeepsPids.refl world
      · exact KeepsPids.refl world
  | rewait who =>
      simp only [World.step]
      split
      · split
        · exact keepsPids_waitPass world who _ _
        · exact KeepsPids.refl world
      · exact KeepsPids.refl world
  | exit who exitCode =>
      simp only [World.step]
      split
      · split
        · rename_i task _ _
          have ended := keepsPids_modify world who
            (fun task => { task with state := .terminated, exitCode }) (fun _ => rfl)
          have woken := ended.trans (keepsPids_wakeWaiters _ task.pid)
          exact ⟨woken.tasks, woken.given, woken.next⟩
        · exact KeepsPids.refl world
      · exact KeepsPids.refl world
  | alloc who room => exact absurd rfl (noAlloc who room)
  | fail who =>
      simp only [World.step]
      split
      · split
        · have left := keepsPids_modify world who (fun task => { task with control := .user })
            (fun _ => rfl)
          exact left.trans (keepsPids_free _ _ _)
        · exact KeepsPids.refl world
      · exact KeepsPids.refl world
  | pushRead who =>
      simp only [World.step]
      split
      · split
        · apply keepsPids_modify
          intro was
          rfl
        · exact KeepsPids.refl world
      · exact KeepsPids.refl world
  | pushWrite who =>
      simp only [World.step]
      split
      · split
        · rename_i child head _
          have left := keepsPids_modify world who (fun task => { task with control := .user })
            (fun _ => rfl)
          have pushed : KeepsPids world
              { world.modify who (fun task => { task with control := .user }) with
                list := child :: world.list.dropWhile (fun task => some task ≠ head) } :=
            ⟨left.tasks, left.given, left.next⟩
          exact pushed.trans (keepsPids_modify _ child
            (fun task => { task with control := .user }) (fun _ => rfl))
        · exact KeepsPids.refl world
      · exact KeepsPids.refl world
  | block who =>
      simp only [World.step]
      split
      · split
        · apply keepsPids_modify
          intro was
          rfl
        · exact KeepsPids.refl world
      · exact KeepsPids.refl world
  | wake who =>
      apply keepsPids_modify
      intro was
      split <;> rfl

theorem keepsPids_allocTask (world : World) (room : Bool)
    : KeepsPids world (taskAllocTask world room).2 := by
  simp only [taskAllocTask]
  split
  · exact keepsPids_free world _ _
  · exact KeepsPids.refl world

def World.Allocates (world : World) (who : Nat) (room : Bool) : Prop :=
  (∃ task, world.acting who = some task ∧ task.control = .user)
  ∧ (taskAllocTask world room).1 = true

theorem step_alloc {who : Nat} {room : Bool} (allocates : world.Allocates who room)
    : (world.step (.alloc who room)).given
        = world.given ++ [taskAllocPid (taskAllocTask world room).2]
      ∧ (world.step (.alloc who room)).tasks.next = world.tasks.next + 1
      ∧ ∀ task now, (world.step (.alloc who room)).tasks.get task = some now
        → task = world.tasks.next ∧ now.pid = taskAllocPid (taskAllocTask world room).2
          ∨ ∃ was, world.tasks.get task = some was ∧ now.pid = was.pid := by
  obtain ⟨⟨task, acts, inUser⟩, allocated⟩ := allocates
  have kept := keepsPids_allocTask world room
  simp only [World.step, acts, if_pos inUser, taskAllocCommon]
  generalize taskAllocTask world room = outcome at allocated kept ⊢
  obtain ⟨fine, middle⟩ := outcome
  obtain rfl : fine = true := allocated
  simp only []
  refine ⟨?_, ?_, ?_⟩
  · rw [← kept.given]
    rfl
  · rw [← kept.next]
    rfl
  intro other now present
  obtain ⟨was, there, rfl⟩ := Arena.get_modify_eq_some present
  have samePid : (if other = who then { was with control := .creating middle.tasks.next }
      else was).pid = was.pid := by
    split <;> rfl
  rw [samePid]
  by_cases new : other = middle.tasks.next
  · left
    rw [new, Arena.get_alloc_self] at there
    exact ⟨new.trans kept.next, by rw [← Option.some.inj there]⟩
  · right
    rw [Arena.get_alloc_of_ne new] at there
    exact kept.tasks other was there

theorem keepsPids_of_not_allocates {who : Nat} {room : Bool} (fails : ¬world.Allocates who room)
    : KeepsPids world (world.step (.alloc who room)) := by
  simp only [World.step]
  split
  · rename_i task acts
    split
    · rename_i inUser
      have kept := keepsPids_allocTask world room
      simp only [taskAllocCommon]
      have notAllocated : (taskAllocTask world room).1 ≠ true :=
        fun allocated => fails ⟨⟨task, acts, inUser⟩, allocated⟩
      generalize taskAllocTask world room = outcome at kept notAllocated ⊢
      obtain ⟨fine, middle⟩ := outcome
      cases fine with
      | true => exact absurd rfl notAllocated
      | false => exact kept
    · exact KeepsPids.refl world
  · exact KeepsPids.refl world

-- Runs

/-- Every step of the run is made where `allowed` admits it. -/
def Throughout (allowed : World → Event → Prop) : World → List Event → Prop
  | _, [] => True
  | world, event :: rest => allowed world event ∧ Throughout allowed (world.step event) rest

/-- Where a PID is handed out, every PID handed out before belongs to a task that is still on
`task_list` behind `task_alloc_task`.
-/
def Event.AllListed (world : World) : Event → Prop
  | .alloc who room =>
      world.Allocates who room
      → ∀ pid ∈ world.given, pid ∈ (taskAllocTask world room).2.pids
  | _ => True

/-- So far the PIDs from 1 on were handed out, each once, in the order of the tasks. -/
structure World.Dense (world : World) : Prop where
  nodup : world.given.Nodup
  low : ∀ pid ∈ world.given, 1 ≤ pid ∧ pid ≤ world.given.length
  full : ∀ pid, 1 ≤ pid → pid ≤ world.given.length → pid ∈ world.given
  next : world.tasks.next = world.given.length
  pids : ∀ task now, world.tasks.get task = some now → world.given[task]? = some now.pid

theorem World.Dense.keeps {after : World} (dense : world.Dense) (keeps : KeepsPids world after)
    : after.Dense := by
  obtain ⟨nodup, low, full, next, pids⟩ := dense
  rw [← keeps.given] at nodup low full next pids
  refine ⟨nodup, low, full, keeps.next.trans next, ?_⟩
  intro task now present
  obtain ⟨was, there, same⟩ := keeps.tasks task now present
  rw [same]
  exact pids task was there

theorem World.Dense.listed (dense : world.Dense) {pid : Nat} (member : pid ∈ world.pids)
    : pid ∈ world.given := by
  obtain ⟨task, _, found⟩ := List.mem_filterMap.mp member
  obtain ⟨now, present, rfl⟩ := Option.map_eq_some_iff.mp found
  exact List.mem_of_getElem? (dense.pids task now present)

/-- No two tasks were given the same PID: neither two that are there now, live, being created
or not collected, nor two at different times.
-/
structure World.UniquePids (world : World) : Prop where
  never : world.given.Nodup
  apart
    : ∀ task other now otherNow, world.tasks.get task = some now
      → world.tasks.get other = some otherNow
      → now.pid = otherNow.pid
      → task = other

theorem World.Dense.unique (dense : world.Dense) : world.UniquePids := by
  refine ⟨dense.nodup, ?_⟩
  intro task other now otherNow present presentOther same
  have first := dense.pids task now present
  have second := dense.pids other otherNow presentOther
  rw [same] at first
  obtain ⟨below, _⟩ := List.getElem?_eq_some_iff.mp first
  exact (List.getElem?_inj below dense.nodup).mp (first.trans second.symm)

theorem World.Dense.alloc {world : World} {who : Nat} {room : Bool} (dense : world.Dense)
    (allocates : world.Allocates who room)
    : ((world.step (.alloc who room)).given.Nodup
        ↔ ∀ pid ∈ world.given, pid ∈ (taskAllocTask world room).2.pids)
      ∧ ((world.step (.alloc who room)).given.Nodup
        → (world.step (.alloc who room)).Dense) := by
  obtain ⟨given, next, tasks⟩ := step_alloc allocates
  have kept := keepsPids_allocTask world room
  have denseMiddle := dense.keeps kept
  have free := lowestFree_not_mem (taskAllocTask world room).2.pids
  obtain ⟨positive, below, _⟩ := lowestFree_spec (taskAllocTask world room).2.pids
    (taskAllocTask world room).2.pids.length 1
  have isPid : taskAllocPid (taskAllocTask world room).2
      = lowestFree (taskAllocTask world room).2.pids
          (taskAllocTask world room).2.pids.length 1 := rfl
  rw [← isPid] at free positive below
  generalize taskAllocPid (taskAllocTask world room).2 = pid at given tasks free positive below
  have newIff : (world.step (.alloc who room)).given.Nodup ↔ pid ∉ world.given := by
    rw [given, ← List.concat_eq_append, List.nodup_concat]
    exact ⟨fun both => both.1, fun new => ⟨new, dense.nodup⟩⟩
  refine ⟨newIff.trans ⟨?_, ?_⟩, ?_⟩
  · intro new other member
    obtain ⟨otherPositive, _⟩ := dense.low other member
    apply below other otherPositive
    have high : world.given.length < pid := by
      by_contra low
      exact new (dense.full pid positive (by omega))
    have := (dense.low other member).2
    omega
  · intro allListed member
    exact free (allListed pid member)
  · intro nodup
    have new := newIff.mp nodup
    have high : world.given.length < pid := by
      by_contra low
      exact new (dense.full pid positive (by omega))
    have isNext : pid = world.given.length + 1 := by
      by_contra apart
      have inside := below (world.given.length + 1) (by omega) (by omega)
      have inGiven := denseMiddle.listed inside
      rw [kept.given] at inGiven
      have := (dense.low _ inGiven).2
      omega
    refine ⟨nodup, ?_, ?_, ?_, ?_⟩
    · intro other member
      rw [given, List.mem_append, List.mem_singleton] at member
      rw [given, List.length_append, List.length_singleton]
      rcases member with was | rfl
      · have := dense.low other was
        omega
      · omega
    · intro other low high
      rw [given, List.length_append, List.length_singleton] at high
      rw [given, List.mem_append, List.mem_singleton]
      by_cases last : other = pid
      · exact Or.inr last
      · exact Or.inl (dense.full other low (by omega))
    · rw [next, given, List.length_append, List.length_singleton, dense.next]
    · intro task now present
      rw [given]
      rcases tasks task now present with ⟨isNew, samePid⟩ | ⟨was, there, same⟩
      · rw [isNew, dense.next, List.getElem?_concat_length, samePid]
      · have old := dense.pids task was there
        obtain ⟨below, _⟩ := List.getElem?_eq_some_iff.mp old
        rw [List.getElem?_append_left below, old, same]

theorem given_prefix_step (world : World) (event : Event)
    : world.given <+: (world.step event).given := by
  by_cases isAlloc : ∃ who room, event = .alloc who room
  · obtain ⟨who, room, rfl⟩ := isAlloc
    by_cases allocates : world.Allocates who room
    · rw [(step_alloc allocates).1]
      exact List.prefix_append _ _
    · rw [(keepsPids_of_not_allocates allocates).given]
  · have kept := keepsPids_step world event (fun who room same => isAlloc ⟨who, room, same⟩)
    rw [kept.given]

theorem given_prefix_run (world : World) (events : List Event)
    : world.given <+: (world.run events).given := by
  induction events generalizing world with
  | nil => exact List.prefix_rfl
  | cons event rest ih => exact (given_prefix_step world event).trans (ih (world.step event))

theorem World.Dense.run (dense : world.Dense) (events : List Event)
    : (world.run events).UniquePids ↔ Throughout Event.AllListed world events := by
  induction events generalizing world with
  | nil => exact ⟨fun _ => trivial, fun _ => dense.unique⟩
  | cons event rest ih =>
      have later := given_prefix_run (world.step event) rest
      by_cases isAlloc : ∃ who room, event = .alloc who room ∧ world.Allocates who room
      · obtain ⟨who, room, rfl, allocates⟩ := isAlloc
        obtain ⟨newIff, denseAfter⟩ := dense.alloc allocates
        have fineIff : Event.AllListed world (.alloc who room)
            ↔ (world.step (.alloc who room)).given.Nodup :=
          ⟨fun fine => newIff.mpr (fine allocates), fun nodup _ => newIff.mp nodup⟩
        simp only [World.run, List.foldl_cons, Throughout, fineIff]
        constructor
        · intro unique
          have now := unique.never.sublist later.sublist
          exact ⟨now, (ih (denseAfter now)).mp unique⟩
        · rintro ⟨now, fine⟩
          exact (ih (denseAfter now)).mpr fine
      · have kept : KeepsPids world (world.step event) := by
          by_cases triesAlloc : ∃ who room, event = .alloc who room
          · obtain ⟨who, room, rfl⟩ := triesAlloc
            exact keepsPids_of_not_allocates
              (fun allocates => isAlloc ⟨who, room, rfl, allocates⟩)
          · exact keepsPids_step world event (fun who room same => triesAlloc ⟨who, room, same⟩)
        have fine : Event.AllListed world event := by
          cases event with
          | alloc who room =>
              intro allocates
              exact absurd ⟨who, room, rfl, allocates⟩ isAlloc
          | _ => trivial
        simp only [World.run, List.foldl_cons, Throughout, fine, true_and]
        exact ih (dense.keeps kept)

theorem boot_dense (tasks : Nat) : (World.boot tasks).Dense := by
  induction tasks with
  | zero =>
      refine ⟨List.nodup_nil, ?_, ?_, rfl, ?_⟩
      · intro pid member
        cases member
      · intro pid positive none_given
        have none_given : pid ≤ 0 := none_given
        omega
      · intro task now present
        cases present
  | succ tasks ih =>
      have length (count : Nat) : (World.boot count).given.length = count := by
        induction count with
        | zero => rfl
        | succ count ih => simp only [World.boot, List.length_append, List.length_singleton, ih]
      obtain ⟨nodup, low, full, next, pids⟩ := ih
      rw [length] at low full
      have given : (World.boot (tasks + 1)).given = (World.boot tasks).given ++ [tasks + 1] := rfl
      refine ⟨?_, ?_, ?_, ?_, ?_⟩
      · rw [given, ← List.concat_eq_append, List.nodup_concat]
        refine ⟨fun member => ?_, nodup⟩
        have := (low _ member).2
        omega
      · intro pid member
        rw [length]
        rw [given, List.mem_append, List.mem_singleton] at member
        rcases member with was | rfl
        · have := low pid was
          omega
        · omega
      · intro pid positive high
        rw [length] at high
        rw [given, List.mem_append, List.mem_singleton]
        by_cases last : pid = tasks + 1
        · exact Or.inr last
        · exact Or.inl (full pid positive (by omega))
      · rw [length]
        have one_more : (World.boot (tasks + 1)).tasks.next = (World.boot tasks).tasks.next + 1 :=
          rfl
        rw [one_more, next, length]
      · intro task now present
        rw [given]
        by_cases new : task = (World.boot tasks).tasks.next
        · have here : (World.boot (tasks + 1)).tasks.get task
              = some ⟨tasks + 1, .ready, 0, 0, .user⟩ := by
            rw [new]
            exact Arena.get_alloc_self _ _
          rw [here] at present
          rw [new, next, List.getElem?_concat_length, ← Option.some.inj present]
        · have there : (World.boot tasks).tasks.get task = some now := by
            rw [← present]
            exact (Arena.get_alloc_of_ne new _).symm
          have old := pids task now there
          obtain ⟨below, _⟩ := List.getElem?_eq_some_iff.mp old
          rw [List.getElem?_append_left below, old]

/-- In every run, all PIDs handed out are different if and only if every PID that is handed
out finds all PIDs handed out before on `task_list`.
-/
theorem pids_distinct_iff (tasks : Nat) (events : List Event)
    : ((World.boot tasks).run events).UniquePids
      ↔ Throughout Event.AllListed (World.boot tasks) events :=
  (boot_dense tasks).run events

/-- Two tasks are creating a child each, and the first child is not on the list yet. -/
theorem pids_repeat : ¬∀ tasks events, ((World.boot tasks).run events).UniquePids := by
  intro unique
  exact absurd (unique 2 [.alloc 0 true, .alloc 1 true]).never (by decide)

end Panuti.Process
