import Panuti.Kernel.Task
import Panuti.Library.Arena

/-! `task_list`, PIDs and `WAIT` under preemption. A step is what runs with interrupts
disabled; between steps any task may run. Tasks are numbered, and no number is used twice, so
that a recycled slot or PID is told apart from the task that had it.
-/

namespace Panuti.Process

open Panuti.Kernel (TaskState lowestFree)

-- State

/-- Where a task stands between the sections that run with interrupts disabled. -/
inductive Control where
  /-- Not on `task_list` yet: being created. -/
  | unborn
  /-- In user code, or about to enter a system call. -/
  | user
  /-- In the loop of `syshandler_wait`, which found the task `goal` under the PID `target`. -/
  | waiting (target goal : Nat)
  /-- In `task_procreate`, with the allocated child. -/
  | creating (child : Nat)
  /-- Between the two stores of `task_list_push`, the first of which read `head`. -/
  | pushing (child : Nat) (head : Option Nat)
deriving Repr, DecidableEq

structure Task where
  pid : Nat
  state : TaskState
  exitCode : Nat
  pidWaitingOn : Nat
  control : Control
deriving Repr, DecidableEq

/-- A task's exit, with the tasks that were blocked in `WAIT` for it. -/
structure Exit where
  task : Nat
  pid : Nat
  code : Nat
  waiters : List Nat
deriving Repr, DecidableEq

/-- What a `WAIT` returned: the code of the task it collected, or `NOTFOUND`. `goal` is the
task that had the PID when the caller began to wait, if it had to.
-/
structure Answer where
  waiter : Nat
  target : Nat
  goal : Option Nat
  collected : Option (Nat × Nat)
deriving Repr, DecidableEq

/-- All tasks, `task_list`, the PIDs handed out so far, the exits and the answers. -/
structure World where
  tasks : Arena Task
  list : List Nat
  given : List Nat
  exits : List Exit
  answers : List Answer

-- The functions of task.c

def World.holds (world : World) (test : Task → Bool) (task : Nat) : Bool :=
  (world.tasks.get task).any test

def World.pids (world : World) : List Nat :=
  world.list.filterMap (fun task => (world.tasks.get task).map Task.pid)

def taskHasWaiter (world : World) (pid : Nat) : Bool :=
  world.list.any (world.holds (fun task => task.pidWaitingOn == pid))

/-- The task `task_alloc_task` recycles, if there is one. -/
def recycled (world : World) : Option Nat :=
  world.list.find? (world.holds (fun task =>
    decide (task.state = .terminated) && !taskHasWaiter world task.pid))

/-- Tear a task down, take it off `task_list` and free it. -/
def World.destroy (world : World) (task : Nat) : World :=
  { world with tasks := world.tasks.free task, list := world.list.erase task }

/-- `task_alloc_task`, where `room` is the allocator's answer. -/
def taskAllocTask (world : World) (room : Bool) : Bool × World :=
  match recycled world with
  | some task => (true, world.destroy task)
  | none => (room, world)

def taskAllocPid (world : World) : Nat := lowestFree world.pids world.pids.length 1

/-- The first task of this PID on `task_list`. -/
def World.find (world : World) (pid : Nat) : Option Nat :=
  world.list.find? (world.holds (fun task => task.pid == pid))

def World.modify (world : World) (task : Nat) (change : Task → Task) : World :=
  { world with tasks := world.tasks.modify task change }

def taskWakeWaiters (world : World) (pid : Nat) : World :=
  world.list.foldl (fun world task => world.modify task (fun task =>
    if task.state = .blocked ∧ task.pidWaitingOn = pid then
      { task with state := .ready, pidWaitingOn := 0 }
    else task)) world

-- Steps

def World.acting (world : World) (who : Nat) : Option Task :=
  (world.tasks.get who).filter (fun task =>
    decide (task.state = .ready ∨ task.state = .running))

/-- `syshandler_wait` returns. -/
def World.answer (world : World) (answer : Answer) : World :=
  { world.modify answer.waiter (fun task => { task with pidWaitingOn := 0, control := .user })
    with answers := world.answers ++ [answer] }

/-- One pass of the loop in `syshandler_wait`, with `task_wait_pid`. -/
def waitPass (world : World) (who target : Nat) (goal : Option Nat) : World :=
  match world.find target with
  | none => world.answer ⟨who, target, goal, none⟩
  | some found =>
      match world.tasks.get found with
      | none => world
      | some task =>
          if task.state = .terminated then
            (world.answer ⟨who, target, goal, some (found, task.exitCode)⟩).destroy found
          else
            world.modify who (fun task =>
              { task with
                state := .blocked
                pidWaitingOn := target
                control := .waiting target (goal.getD found) })

/-- The waiters `syshandler_exit` wakes. -/
def World.blockedOn (world : World) (pid : Nat) : List Nat :=
  world.list.filter (world.holds (fun task =>
    decide (task.state = .blocked ∧ task.pidWaitingOn = pid)))

def syshandlerExit (world : World) (who : Nat) (task : Task) (exitCode : Nat) : World :=
  let ended := world.modify who (fun task => { task with state := .terminated, exitCode })
  { taskWakeWaiters ended task.pid with
    exits := world.exits ++ [⟨who, task.pid, exitCode, ended.blockedOn task.pid⟩] }

/-- The section of `task_alloc_common` that runs with interrupts disabled. -/
def taskAllocCommon (world : World) (who : Nat) (room : Bool) : World :=
  match taskAllocTask world room with
  | (false, world) => world
  | (true, world) =>
      let pid := taskAllocPid world
      let child := world.tasks.next
      let world := { world with
        tasks := world.tasks.alloc ⟨pid, .ready, 0, 0, .unborn⟩
        given := world.given ++ [pid] }
      world.modify who (fun task => { task with control := .creating child })

inductive Event where
  | wait (who target : Nat)
  | rewait (who : Nat)
  | exit (who exitCode : Nat)
  | alloc (who : Nat) (room : Bool)
  | fail (who : Nat)
  | pushRead (who : Nat)
  | pushWrite (who : Nat)
  | block (who : Nat)
  | wake (who : Nat)

/-- One step of the task `who`. `fail` is a failure of `task_procreate` behind the
allocation; `block` and `wake` are those of a task that does not wait for another one, as in
a pipe or asleep.
-/
def World.step (world : World) : Event → World
  | .wait who target =>
      match world.acting who with
      | some task =>
          if task.control = .user ∧ target ≠ task.pid then waitPass world who target none
          else world
      | none => world
  | .rewait who =>
      match world.acting who with
      | some task =>
          match task.control with
          | .waiting target goal => waitPass world who target (some goal)
          | _ => world
      | none => world
  | .exit who exitCode =>
      match world.acting who with
      | some task =>
          if task.control = .user then syshandlerExit world who task exitCode else world
      | none => world
  | .alloc who room =>
      match world.acting who with
      | some task => if task.control = .user then taskAllocCommon world who room else world
      | none => world
  | .fail who =>
      match world.acting who with
      | some task =>
          match task.control with
          | .creating child =>
              let world := world.modify who (fun task => { task with control := .user })
              { world with tasks := world.tasks.free child }
          | _ => world
      | none => world
  | .pushRead who =>
      match world.acting who with
      | some task =>
          match task.control with
          | .creating child =>
              world.modify who (fun task =>
                { task with control := .pushing child world.list.head? })
          | _ => world
      | none => world
  | .pushWrite who =>
      match world.acting who with
      | some task =>
          match task.control with
          | .pushing child head =>
              let world := world.modify who (fun task => { task with control := .user })
              -- what was pushed since the first store is on no list any more
              let world := { world with
                list := child :: world.list.dropWhile (fun task => some task ≠ head) }
              world.modify child (fun task => { task with control := .user })
          | _ => world
      | none => world
  | .block who =>
      match world.acting who with
      | some task =>
          if task.control = .user then
            world.modify who (fun task => { task with state := .blocked })
          else world
      | none => world
  | .wake who =>
      world.modify who (fun task =>
        if task.state = .blocked ∧ task.control = .user then { task with state := .ready }
        else task)

/-- The tasks made at boot have the PIDs from 1 on and the last one made comes first. -/
def World.boot : Nat → World
  | 0 => ⟨Arena.empty, [], [], [], []⟩
  | tasks + 1 =>
      let world := World.boot tasks
      { world with
        tasks := world.tasks.alloc ⟨tasks + 1, .ready, 0, 0, .user⟩
        list := world.tasks.next :: world.list
        given := world.given ++ [tasks + 1] }

def World.run (world : World) (events : List Event) : World := events.foldl World.step world

end Panuti.Process
