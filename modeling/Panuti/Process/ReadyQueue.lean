import Mathlib.Data.List.Perm.Basic
import Mathlib.Logic.Function.Basic
import Panuti.Library.LinkRing
import Panuti.Library.Runs

/-! The ready queue of the scheduler, `sched.c`: a singly linked ring of tasks, with a pointer to
one of them. Tasks are numbered by their addresses, `0` is the null pointer, and every function
runs with interrupts disabled.
-/

namespace Panuti.Process.ReadyQueue

open IntrusiveList

/-- `task_state_t`. -/
inductive TaskState where
  | none'
  | ready
  | running
  | blocked
  | terminated
deriving Repr, DecidableEq

/-- `ready_queue`, `current` and `sched_initialized`, and the `next` and `state` of every task. -/
structure Sched where
  readyQueue : Nat
  current : Nat
  initialized : Bool
  next : Nat → Nat
  state : Nat → TaskState

def schedAdd (s : Sched) (task : Nat) : Sched :=
  if s.readyQueue = 0 then
    { s with readyQueue := task, next := Function.update s.next task task }
  else
    { s with
      next := Function.update (Function.update s.next task (s.next s.readyQueue)) s.readyQueue task }

/-- The loop of `sched_remove`: it goes on to the node in front of the task or of the queue. -/
def nodeBefore (next : Nat → Nat) (task queue : Nat) : (turns n : Nat) → Option Nat
  | 0, _ => none
  | turns + 1, n =>
      if next n ≠ task ∧ next n ≠ queue then nodeBefore next task queue turns (next n) else some n

/-- `sched_remove`. There is no outcome when the loop needs more turns. -/
def schedRemove (turns : Nat) (s : Sched) (task : Nat) : Option Sched :=
  if task = 0 then some s
  else if s.readyQueue = 0 then some s
  else if s.readyQueue = task ∧ s.next task = task then
    some { s with readyQueue := 0, next := Function.update s.next task 0 }
  else
    (nodeBefore s.next task s.readyQueue turns s.readyQueue).map fun n =>
      let next := if s.next n = task then Function.update s.next n (s.next task) else s.next
      { s with
        readyQueue := if s.readyQueue = task then n else s.readyQueue
        next := Function.update next task 0 }

/-- The states once the current task has given up the processor. -/
def yielded (s : Sched) : Nat → TaskState :=
  if s.state s.current = .running then Function.update s.state s.current .ready else s.state

/-- The loop of `sched_schedule`: a task that is ready, or a panic where the loop gets back to the
task it came from.
-/
def findReady (state : Nat → TaskState) (link : Nat → Nat) (prev : Nat)
    : (turns next : Nat) → Option (Option Nat)
  | 0, _ => none
  | turns + 1, next =>
      if state next ≠ .ready then
        if next = prev then some none else findReady state link prev turns (link next)
      else some (some next)

/-- `sched_schedule`. There is no outcome when the loop needs more turns, and no scheduler in the
outcome when it panics.
-/
def schedSchedule (turns : Nat) (s : Sched) : Option (Option Sched) :=
  if s.initialized = false then some (some s)
  else if s.current = 0 then
    some (some { s with
      current := s.readyQueue
      state := Function.update s.state s.readyQueue .running })
  else
    (findReady (yielded s) s.next s.current turns (s.next s.current)).map fun found =>
      found.map fun next =>
        { s with current := next, state := Function.update (yielded s) next .running }

/-- The calls that change the queue. -/
inductive Call where
  | add (task : Nat)
  | remove (task : Nat)

def step (turns : Nat) (s : Sched) : Call → Option Sched
  | .add task => some (schedAdd s task)
  | .remove task => schedRemove turns s task

-- What the queue holds

/-- The tasks that were added and not removed since. -/
def taken (tasks : List Nat) : Call → List Nat
  | .add task => task :: tasks
  | .remove task => tasks.erase task

/-- Tasks are added when they are not in the queue. -/
def Allowed (tasks : List Nat) : Call → Prop
  | .add task => task ≠ 0 ∧ task ∉ tasks
  | .remove _ => True

/-- The queue is one ring of exactly these tasks, or empty. -/
def Queued (s : Sched) (tasks : List Nat) : Prop :=
  s.readyQueue = 0 ∧ tasks = []
    ∨ ∃ rest, Circle s.next s.readyQueue rest ∧ (s.readyQueue :: rest).Perm tasks

variable {s : Sched} {tasks : List Nat} {turns : Nat}

theorem Queued.of_circle {rest : List Nat} {head : Nat} (circle : Circle s.next head rest)
    (perm : (head :: rest).Perm tasks) (member : s.readyQueue ∈ head :: rest)
    : Queued s tasks := by
  obtain ⟨others, turned, same⟩ := circle.turn_to member
  exact .inr ⟨others, turned, same.trans perm⟩

theorem Queued.circle (queued : Queued s tasks) {task : Nat} (member : task ∈ tasks)
    : ∃ others, Circle s.next task others ∧ (task :: others).Perm tasks := by
  rcases queued with ⟨_, rfl⟩ | ⟨rest, circle, perm⟩
  · cases member
  · obtain ⟨others, turned, same⟩ := circle.turn_to (perm.mem_iff.mpr member)
    exact ⟨others, turned, same.trans perm⟩

theorem schedAdd_queued {task : Nat} (queued : Queued s tasks) (real : task ≠ 0)
    (fresh : task ∉ tasks)
    : Queued (schedAdd s task) (task :: tasks) := by
  rw [schedAdd]
  rcases queued with ⟨empty, rfl⟩ | ⟨rest, circle, perm⟩
  · rw [if_pos empty]
    exact .inr ⟨[], .single (Function.update_self ..) real, .refl _⟩
  · have there : s.readyQueue ≠ 0 := fun null => circle.real (null ▸ List.mem_cons_self)
    have outside : task ∉ s.readyQueue :: rest := fun member => fresh (perm.mem_iff.mp member)
    have apart : task ≠ s.readyQueue := fun same => outside (same ▸ List.mem_cons_self)
    rw [if_neg there]
    refine .inr ⟨task :: rest, circle.insert outside real ?_ ?_ fun other member => ?_, ?_⟩
    · exact Function.update_self ..
    · dsimp only
      rw [Function.update_of_ne apart, Function.update_self]
    · have notHead : other ≠ s.readyQueue := fun same =>
        (List.nodup_cons.mp circle.once).1 (same ▸ member)
      have notTask : other ≠ task := fun same =>
        outside (List.mem_cons_of_mem _ (same ▸ member))
      dsimp only
      rw [Function.update_of_ne notHead, Function.update_of_ne notTask]
    · exact (List.Perm.swap task s.readyQueue rest).trans (perm.cons task)

theorem nodeBefore_spec {next : Nat → Nat} (task : Nat) {queue n : Nat} {later : List Nat}
    (links : Segment next n (n :: later) queue) (apart : queue ∉ later)
    (enough : later.length < turns)
    : ∃ p ∈ n :: later, nodeBefore next task queue turns n = some p
      ∧ (task ∈ later ∧ next p = task ∨ task ∉ later ∧ next p = queue) := by
  induction later generalizing n turns with
  | nil =>
      obtain ⟨turns, rfl⟩ := Nat.exists_eq_add_of_lt enough
      have back : next n = queue := links.2
      refine ⟨n, List.mem_cons_self, ?_, .inr ⟨List.not_mem_nil, back⟩⟩
      rw [nodeBefore, if_neg fun both => both.2 back]
  | cons second later ih =>
      obtain ⟨turns, rfl⟩ := Nat.exists_eq_add_of_lt enough
      have on : next n = second := links.2.1
      rw [nodeBefore, on]
      by_cases found : second = task
      · refine ⟨n, List.mem_cons_self, ?_, .inl ⟨found ▸ List.mem_cons_self, on.trans found⟩⟩
        rw [if_neg fun both => both.1 found]
      · have other : second ≠ queue := fun same => apart (same ▸ List.mem_cons_self)
        rw [if_pos ⟨found, other⟩]
        have onward : Segment next second (second :: later) queue := on ▸ links.2
        have fewer : later.length < (second :: later).length + turns := by
          rw [List.length_cons]
          omega
        obtain ⟨p, member, ends, stops⟩ := ih onward
          (fun among => apart (List.mem_cons_of_mem second among)) fewer
        refine ⟨p, List.mem_cons_of_mem n member, ends, ?_⟩
        rwa [List.mem_cons, or_iff_right (Ne.symm found)]

/-- `sched_remove` ends, and the queue is the ring of the other tasks. -/
theorem schedRemove_queued (queued : Queued s tasks) (enough : tasks.length ≤ turns) (task : Nat)
    : ∃ later, schedRemove turns s task = some later ∧ Queued later (tasks.erase task) := by
  rw [schedRemove]
  by_cases null : task = 0
  · rw [if_pos null]
    refine ⟨s, rfl, ?_⟩
    have absent : task ∉ tasks := by
      intro member
      obtain ⟨others, circle, _⟩ := queued.circle member
      exact circle.real (null ▸ List.mem_cons_self)
    rwa [List.erase_of_not_mem absent]
  rw [if_neg null]
  rcases queued with ⟨empty, rfl⟩ | ⟨rest, circle, perm⟩
  · rw [if_pos empty]
    exact ⟨s, rfl, .inl ⟨empty, List.erase_nil task⟩⟩
  have there : s.readyQueue ≠ 0 := fun null => circle.real (null ▸ List.mem_cons_self)
  have length : rest.length + 1 = tasks.length := perm.length_eq
  rw [if_neg there]
  by_cases only : s.readyQueue = task ∧ s.next task = task
  · rw [if_pos only]
    obtain ⟨rfl, own⟩ := only
    obtain rfl := circle.alone own
    refine ⟨_, rfl, .inl ⟨rfl, ?_⟩⟩
    rw [← List.singleton_perm.mp perm, List.erase_cons_head]
  rw [if_neg only]
  have outside := (List.nodup_cons.mp circle.once).1
  have fewer : rest.length < turns := by omega
  obtain ⟨p, member, ends, stops⟩ := nodeBefore_spec task circle.links outside fewer
  rw [ends]
  refine ⟨_, rfl, ?_⟩
  by_cases among : task ∈ s.readyQueue :: rest
  · have before : s.next p = task := by
      rcases List.mem_cons.mp among with rfl | later
      · exact (stops.resolve_left fun both => outside both.1).2
      · exact (stops.resolve_right fun both => both.1 later).2
    obtain ⟨others, turned, same⟩ := circle.turn_to member
    cases others with
    | nil =>
        -- A ring of one node is the case above.
        have own : s.next p = p := turned.links.2
        obtain rfl := own.symm.trans before
        have head : s.readyQueue = p :=
          List.mem_singleton.mp (same.mem_iff.mpr List.mem_cons_self)
        exact absurd ⟨head, own⟩ only
    | cons second others =>
        obtain rfl : task = second := before.symm.trans turned.links.2.1
        obtain ⟨out, once⟩ := List.nodup_cons.mp turned.once
        obtain ⟨outToo, _⟩ := List.nodup_cons.mp once
        have left : (p :: others).Perm (tasks.erase task) := by
          have swapped := (List.Perm.swap p task others).trans (same.trans perm)
          exact (List.cons_perm_iff_perm_erase.mp swapped).2
        have apart : p ≠ task := fun equal => out (equal ▸ List.mem_cons_self)
        dsimp only
        rw [if_pos before]
        refine Queued.of_circle (turned.unlink ?_ fun other member => ?_) left ?_
        · dsimp only
          rw [Function.update_of_ne apart, Function.update_self]
        · have notTask : other ≠ task := fun equal => outToo (equal ▸ member)
          have notPrev : other ≠ p := fun equal =>
            out (List.mem_cons_of_mem task (equal ▸ member))
          dsimp only
          rw [Function.update_of_ne notTask, Function.update_of_ne notPrev]
        · dsimp only
          by_cases head : s.readyQueue = task
          · rw [if_pos head]
            exact List.mem_cons_self
          · rw [if_neg head]
            have inside := same.mem_iff.mpr (List.mem_cons_self (a := s.readyQueue) (l := rest))
            rcases List.mem_cons.mp inside with equal | later
            · exact equal ▸ List.mem_cons_self
            · exact List.mem_cons_of_mem p ((List.mem_cons.mp later).resolve_left head)
  · have absent : task ∉ tasks := fun member => among (perm.mem_iff.mpr member)
    obtain ⟨elsewhere, notHead⟩ := not_or.mp (mt List.mem_cons.mpr among)
    have back : s.next p = s.readyQueue := (stops.resolve_left fun both => notHead both.1).2
    dsimp only
    rw [back, if_neg (Ne.symm elsewhere), if_neg (Ne.symm elsewhere),
      List.erase_of_not_mem absent]
    refine .inr ⟨rest, circle.congr fun node inside => ?_, perm⟩
    exact Function.update_of_ne (fun equal : node = task => among (equal ▸ inside)) ..

-- Runs

theorem step_queued (queued : Queued s tasks) (enough : tasks.length ≤ turns) (call : Call)
    (allowed : Allowed tasks call)
    : ∃ later, step turns s call = some later ∧ Queued later (taken tasks call) := by
  cases call with
  | add task => exact ⟨_, rfl, schedAdd_queued queued allowed.1 allowed.2⟩
  | remove task => exact schedRemove_queued queued enough task

theorem taken_length (tasks : List Nat) (call : Call)
    : (taken tasks call).length ≤ tasks.length + 1 := by
  cases call with
  | add task => exact Nat.le_refl _
  | remove task => exact Nat.le_succ_of_le (List.length_erase_le ..)

theorem run_queued (queued : Queued s tasks) {calls : List Call}
    (enough : tasks.length + calls.length ≤ turns)
    (allowed : Runs.Throughout taken Allowed tasks calls)
    : ∃ later, calls.foldlM (step turns) s = some later
      ∧ Queued later (Runs.run taken tasks calls)
      ∧ (Runs.run taken tasks calls).length ≤ turns := by
  induction calls generalizing s tasks with
  | nil => exact ⟨s, rfl, queued, enough⟩
  | cons call calls ih =>
      rw [List.length_cons] at enough
      have longer := taken_length tasks call
      have few : tasks.length ≤ turns := by omega
      obtain ⟨middle, first, there⟩ := step_queued queued few call allowed.1
      have room : (taken tasks call).length + calls.length ≤ turns := by omega
      obtain ⟨later, others, ends⟩ := ih there room allowed.2
      refine ⟨later, ?_, ends⟩
      rw [List.foldlM_cons, first]
      exact others

-- The search

theorem findReady_spec {state : Nat → TaskState} {link : Nat → Nat} {prev next : Nat}
    {nodes : List Nat} (links : Segment link next nodes prev) (apart : prev ∉ nodes)
    (enough : nodes.length < turns)
    : findReady state link prev turns next
      = some ((nodes ++ [prev]).find? (state · = .ready)) := by
  induction nodes generalizing next turns with
  | nil =>
      obtain ⟨turns, rfl⟩ := Nat.exists_eq_add_of_lt enough
      obtain rfl : next = prev := links
      rw [findReady, if_pos rfl, List.nil_append, List.find?_singleton]
      by_cases ready : state next = .ready <;> simp [ready]
  | cons node nodes ih =>
      obtain ⟨turns, rfl⟩ := Nat.exists_eq_add_of_lt enough
      obtain ⟨rfl, onward⟩ := links
      rw [findReady, List.cons_append]
      by_cases ready : state next = .ready
      · rw [if_neg (not_not.mpr ready), List.find?_cons_of_pos (by simpa using ready)]
      · have other : next ≠ prev := fun same => apart (same ▸ List.mem_cons_self)
        rw [if_pos ready, if_neg other, List.find?_cons_of_neg (by simpa using ready)]
        exact ih onward (fun among => apart (List.mem_cons_of_mem next among))
          (by rw [List.length_cons]; omega)

theorem schedSchedule_queued (queued : Queued s tasks) (enough : tasks.length ≤ turns)
    (initialized : s.initialized = true) (member : s.current ∈ tasks)
    : ∃ outcome, schedSchedule turns s = some outcome
      ∧ (outcome = none ↔ ∀ task ∈ tasks, yielded s task ≠ .ready)
      ∧ ∀ later ∈ outcome, later.current ∈ tasks ∧ yielded s later.current = .ready
        ∧ later.state = Function.update (yielded s) later.current .running
        ∧ Queued later tasks := by
  obtain ⟨others, circle, perm⟩ := queued.circle member
  have real : s.current ≠ 0 := fun null => circle.real (null ▸ List.mem_cons_self)
  have length : others.length + 1 = tasks.length := perm.length_eq
  have inQueue {task : Nat} : task ∈ others ++ [s.current] ↔ task ∈ tasks := by
    rw [← perm.mem_iff, List.mem_append, List.mem_singleton, List.mem_cons, or_comm]
  rw [schedSchedule, if_neg (Bool.eq_false_iff.not.mpr (not_not.mpr initialized)), if_neg real,
    findReady_spec circle.links.2 (List.nodup_cons.mp circle.once).1 (by omega)]
  refine ⟨_, rfl, ?_, fun later found => ?_⟩
  · rw [Option.map_eq_none_iff, List.find?_eq_none]
    constructor
    · intro none' task among ready
      exact none' task (inQueue.mpr among) (decide_eq_true ready)
    · intro none' task among ready
      exact none' task (inQueue.mp among) (of_decide_eq_true ready)
  · obtain ⟨next, first, rfl⟩ := Option.map_eq_some_iff.mp found
    have ready := List.find?_some first
    exact ⟨inQueue.mp (List.mem_of_find?_eq_some first), of_decide_eq_true ready, rfl, queued⟩

/-- Whatever tasks are added and removed, the queue is one ring of those added and not removed
since, and from any of them `sched_schedule` ends with one that is ready, whenever there is one.
-/
theorem sched_runs {s : Sched} (empty : s.readyQueue = 0) {calls : List Call}
    (allowed : Runs.Throughout taken Allowed [] calls) {turns : Nat}
    (enough : calls.length ≤ turns)
    : ∃ later, calls.foldlM (step turns) s = some later
      ∧ Queued later (Runs.run taken [] calls)
      ∧ ∀ (state : Nat → TaskState) (prev : Nat), prev ∈ Runs.run taken [] calls →
        let called := { later with state := state, current := prev, initialized := true }
        ∃ outcome, schedSchedule turns called = some outcome
          ∧ (outcome = none ↔ ∀ task ∈ Runs.run taken [] calls, yielded called task ≠ .ready)
          ∧ ∀ next ∈ outcome, next.current ∈ Runs.run taken [] calls
            ∧ yielded called next.current = .ready
            ∧ next.state = Function.update (yielded called) next.current .running
            ∧ Queued next (Runs.run taken [] calls) := by
  have start : Queued s [] := .inl ⟨empty, rfl⟩
  have room : ([] : List Nat).length + calls.length ≤ turns := by
    rwa [List.length_nil, Nat.zero_add]
  obtain ⟨later, ends, queued, few⟩ := run_queued start room allowed
  refine ⟨later, ends, queued, fun state prev member => ?_⟩
  have called : Queued { later with state := state, current := prev, initialized := true }
      (Runs.run taken [] calls) := queued
  exact schedSchedule_queued called few rfl member

/-- Two tasks are added, the one that the queue points to is removed, and so is one that is not in
the queue.
-/
theorem sched_two_added
    : ∃ later, [.add 16, .add 32, .remove 16, .remove 48].foldlM (step 4)
        ⟨0, 0, false, fun _ => 0, fun _ => .ready⟩ = some later
      ∧ Queued later [32] := by
  have allowed : Runs.Throughout taken Allowed []
      [.add 16, .add 32, .remove 16, .remove 48] :=
    ⟨⟨by decide, by decide⟩, ⟨by decide, by decide⟩, trivial, trivial, trivial⟩
  have room : [Call.add 16, .add 32, .remove 16, .remove 48].length ≤ 4 := by decide
  obtain ⟨later, ends, queued, _⟩ :=
    sched_runs (s := ⟨0, 0, false, fun _ => 0, fun _ => .ready⟩) rfl allowed room
  exact ⟨later, ends, queued⟩

end Panuti.Process.ReadyQueue
