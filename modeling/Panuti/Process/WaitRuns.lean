import Panuti.Process.Collections

/-! Every run of `WAIT`, exit and procreate in which no allocation takes what a `WAIT` still
has a right to.
-/

namespace Panuti.Process

open Panuti.Kernel (TaskState)

-- What WAIT promises

/-- Exit codes are delivered once, to a task that waited, and are never those of another task. -/
structure World.DeliversOnce (world : World) : Prop where
  /-- Until it is collected, an exit code is what a `WAIT` for the PID returns. -/
  retrievable
    : ∀ exit ∈ world.exits, ¬world.Collected exit.task
      → ∀ who goal, (waitPass world who exit.pid goal).answers
        = world.answers ++ [⟨who, exit.pid, goal, some (exit.task, exit.code)⟩]
  /-- No exit code is returned twice. -/
  once : world.collections.Nodup
  /-- A returned code is that of the task that had the PID, also when the `WAIT` began. -/
  right
    : ∀ answer ∈ world.answers, ∀ task code, answer.collected = some (task, code)
      → (∀ goal, answer.goal = some goal → goal = task)
        ∧ ∃ exit ∈ world.exits, exit.task = task ∧ exit.code = code ∧ exit.pid = answer.target
  /-- The code goes to one of the tasks that were blocked for it. -/
  toWaiter
    : ∀ exit ∈ world.exits, exit.waiters ≠ []
      → ∀ answer ∈ world.answers, ∀ code, answer.collected = some (exit.task, code)
      → answer.waiter ∈ exit.waiters
  /-- Each of them has returned or is on its way out of the loop. -/
  waiters
    : ∀ exit ∈ world.exits, ∀ waiter ∈ exit.waiters,
        (∃ now, world.tasks.get waiter = some now
          ∧ now.control = .waiting exit.pid exit.task
          ∧ now.state ≠ .blocked)
        ∨ world.Returned waiter exit.task
  /-- Once they all have, one of them returned the code. -/
  delivered
    : ∀ exit ∈ world.exits, exit.waiters ≠ []
      → (∀ waiter ∈ exit.waiters, world.Returned waiter exit.task)
      → ∃ answer ∈ world.answers, answer.waiter ∈ exit.waiters
        ∧ answer.collected = some (exit.task, exit.code)

section Promise

variable {world : World}

theorem World.Fair.retrievable (fair : world.Fair) {exit : Exit} (member : exit ∈ world.exits)
    (waits : ¬world.Collected exit.task) (who : Nat) (goal : Option Nat)
    : (Process.waitPass world who exit.pid goal).answers
      = world.answers ++ [⟨who, exit.pid, goal, some (exit.task, exit.code)⟩] := by
  rcases fair.delivers.exits exit member with ⟨now, present, ended, pid, code⟩ | ⟨_, collected⟩
  · have user := (fair.delivers.ended exit.task now present ended).1
    have found := fair.listed.find_some present (by simp [user])
    rw [pid] at found
    simp only [Process.waitPass, found, present, if_pos ended, code]
    rfl
  · exact absurd collected waits

theorem World.Fair.deliversOnce (fair : world.Fair) : world.DeliversOnce := by
  have collector {exit : Exit} (member : exit ∈ world.exits) (waited : exit.waiters ≠ [])
      {answer : Answer} (inAnswers : answer ∈ world.answers) {code : Nat}
      (collects : answer.collected = some (exit.task, code))
      : answer.waiter ∈ exit.waiters ∧ code = exit.code := by
    obtain ⟨_, _, _, other, inExits, same, isCode, _, woken⟩ :=
      fair.delivers.collected answer inAnswers exit.task code collects
    have isExit : exit = other := fair.delivers.exit_unique member inExits same.symm
    rw [← isExit] at woken isCode
    exact ⟨woken.resolve_left waited, isCode.symm⟩
  constructor
  · intro exit member waits who goal
    exact fair.retrievable member waits who goal
  · exact fair.delivers.once
  · intro answer member task code collects
    obtain ⟨_, _, isGoal, exit, inExits, same, isCode, pid, _⟩ :=
      fair.delivers.collected answer member task code collects
    refine ⟨?_, exit, inExits, same, isCode, pid⟩
    intro goal hasGoal
    rcases isGoal with noGoal | isTask
    · rw [noGoal] at hasGoal
      cases hasGoal
    · exact Option.some.inj (hasGoal.symm.trans isTask)
  · intro exit member waited answer inAnswers code collects
    exact (collector member waited inAnswers collects).1
  · intro exit member waiter woken
    rcases fair.delivers.waiters exit member waiter woken with ⟨now, present, waiting⟩ | returned
    · refine Or.inl ⟨now, present, waiting, ?_⟩
      intro blocked
      rcases fair.delivers.awaits waiter now exit.pid exit.task present waiting with
        ⟨found, foundThere, _, _, runs, _⟩ | ⟨_, _, _, _, awake, _⟩ | ⟨_, _, awake, _⟩
      · rcases fair.delivers.exits exit member with ⟨was, there, ended, _⟩ | ⟨gone, _⟩
        · obtain rfl : found = was := Option.some.inj (foundThere.symm.trans there)
          exact runs ended
        · rw [foundThere] at gone
          cases gone
      · exact awake blocked
      · exact awake blocked
    · exact Or.inr returned
  · intro exit member waited allReturned
    obtain ⟨waiter, isWaiter⟩ := List.exists_mem_of_ne_nil _ waited
    obtain ⟨returned, inReturned, _, isGoal⟩ := allReturned waiter isWaiter
    obtain ⟨answer, inAnswers, code, collects⟩ :=
      fair.delivers.missed returned inReturned exit.task isGoal
    obtain ⟨isCollector, isCode⟩ := collector member waited inAnswers collects
    rw [isCode] at collects
    exact ⟨answer, inAnswers, isCollector, collects⟩

end Promise

-- Runs

/-- The step takes nothing a `WAIT` has a right to: an allocation recycles no task and hands
out a PID no task has or waits for, a task is listed on the head of `task_list` it read, and no
newcomer collects the task that woken tasks are about to collect.
-/
def Event.Careful (world : World) : Event → Prop
  | .alloc who room => world.Allocates who room → world.Unused room
  | .pushWrite who =>
      ∀ task child head, world.acting who = some task → task.control = .pushing child head
        → world.list.head? = head
  | .wait who target =>
      ∀ task found foundNow, world.acting who = some task → task.control = .user
        → world.find target = some found
        → world.tasks.get found = some foundNow
        → foundNow.state = .terminated
        → ∀ other now, world.tasks.get other = some now → now.control ≠ .waiting target found
  | _ => True

variable {world : World}

theorem World.Fair.wait {who target : Nat} (fair : world.Fair)
    (careful : Event.Careful world (.wait who target))
    : (world.step (.wait who target)).Fair := by
  refine fair.of_acting fun task acts present runs => ?_
  split
  · rename_i both
    apply fair.waitPass present (not_terminated_of_runs runs)
    left
    refine ⟨both.1, rfl, both.2, ?_⟩
    intro found foundNow search there ended
    exact careful task found foundNow acts both.1 search there ended
  · exact fair

theorem World.Fair.rewait {who : Nat} (fair : world.Fair) : (world.step (.rewait who)).Fair := by
  refine fair.of_acting fun task _ present runs => ?_
  split
  · rename_i target goal waiting
    apply fair.waitPass present (not_terminated_of_runs runs)
    exact Or.inr ⟨goal, waiting, rfl⟩
  · exact fair

theorem World.Fair.step {world : World} (fair : world.Fair) (event : Event)
    (careful : Event.Careful world event)
    : (world.step event).Fair := by
  cases event with
  | wait who target => exact fair.wait careful
  | rewait who => exact fair.rewait
  | exit who exitCode =>
      simp only [World.step]
      split
      · rename_i task acts
        obtain ⟨present, runs⟩ := World.acting_some acts
        split
        · rename_i user
          exact fair.exit present (not_terminated_of_runs runs).1 user
        · exact fair
      · exact fair
  | alloc who room => exact fair.alloc careful
  | fail who => exact fair.fail
  | pushRead who => exact fair.pushRead
  | pushWrite who => exact fair.pushWrite careful
  | block who => exact fair.block
  | wake who => exact fair.wake

theorem World.Fair.run (fair : world.Fair) (events : List Event)
    (careful : Throughout Event.Careful world events)
    : (world.run events).Fair := by
  induction events generalizing world with
  | nil => exact fair
  | cons event rest ih => exact ih (fair.step event careful.1) careful.2

theorem boot_task (tasks : Nat) {task : Nat} {now : Task}
    (present : (World.boot tasks).tasks.get task = some now)
    : now = ⟨task + 1, .ready, 0, 0, .user⟩ ∧ task < tasks := by
  have nextIs (count : Nat) : (World.boot count).tasks.next = count := by
    induction count with
    | zero => rfl
    | succ count ih => rw [World.boot, Arena.alloc_next, ih]
  induction tasks with
  | zero => cases present
  | succ tasks ih =>
      by_cases isLast : task = (World.boot tasks).tasks.next
      · have here : (World.boot (tasks + 1)).tasks.get task
            = some ⟨tasks + 1, .ready, 0, 0, .user⟩ := by
          rw [isLast]
          exact Arena.get_alloc_self _ _
        rw [here] at present
        rw [nextIs] at isLast
        subst isLast
        exact ⟨(Option.some.inj present).symm, by omega⟩
      · have there : (World.boot tasks).tasks.get task = some now := by
          rw [← present]
          exact (Arena.get_alloc_of_ne isLast _).symm
        obtain ⟨same, below⟩ := ih there
        exact ⟨same, by omega⟩

theorem boot_list (tasks : Nat)
    : (World.boot tasks).list.Nodup
      ∧ ∀ task, task ∈ (World.boot tasks).list
        ↔ ∃ now, (World.boot tasks).tasks.get task = some now := by
  induction tasks with
  | zero =>
      refine ⟨List.nodup_nil, ?_⟩
      intro task
      constructor
      · intro member
        cases member
      · rintro ⟨now, present⟩
        cases present
  | succ tasks ih =>
      obtain ⟨nodup, listed⟩ := ih
      have list : (World.boot (tasks + 1)).list
          = (World.boot tasks).tasks.next :: (World.boot tasks).list := rfl
      rw [list]
      constructor
      · refine List.nodup_cons.mpr ⟨?_, nodup⟩
        intro member
        obtain ⟨now, present⟩ := (listed _).mp member
        exact Arena.ne_next present rfl
      · intro task
        rw [List.mem_cons, listed]
        by_cases isLast : task = (World.boot tasks).tasks.next
        · subst isLast
          exact ⟨fun _ => ⟨_, Arena.get_alloc_self _ _⟩, fun _ => Or.inl rfl⟩
        · have same : (World.boot (tasks + 1)).tasks.get task = (World.boot tasks).tasks.get task :=
            Arena.get_alloc_of_ne isLast _
          rw [same]
          simp [isLast]

theorem boot_exits (tasks : Nat)
    : (World.boot tasks).exits = [] ∧ (World.boot tasks).answers = [] := by
  induction tasks with
  | zero => exact ⟨rfl, rfl⟩
  | succ tasks ih => exact ih

theorem boot_fair (tasks : Nat) : (World.boot tasks).Fair := by
  obtain ⟨noExits, noAnswers⟩ := boot_exits tasks
  obtain ⟨nodup, listed⟩ := boot_list tasks
  have isUser {task : Nat} {now : Task} (present : (World.boot tasks).tasks.get task = some now)
      : now.control = .user ∧ now.state = .ready ∧ now.pidWaitingOn = 0 ∧ now.pid = task + 1 := by
    obtain ⟨rfl, _⟩ := boot_task tasks present
    exact ⟨rfl, rfl, rfl, rfl⟩
  have noMaker {who child : Nat} {now : Task}
      (present : (World.boot tasks).tasks.get who = some now)
      : ¬now.control.Makes child := by
    rw [(isUser present).1]
    exact not_makes_user
  constructor
  · refine ⟨?_, nodup, ?_, ?_, ?_, ?_⟩
    · intro task
      rw [listed]
      constructor
      · rintro ⟨now, present⟩
        exact ⟨now, present, by simp [(isUser present).1]⟩
      · rintro ⟨now, present, _⟩
        exact ⟨now, present⟩
    · intro who now child present makes
      exact absurd makes (noMaker present)
    · intro who other now otherNow child present _ makes _
      exact absurd makes (noMaker present)
    · intro task other now otherNow present presentOther same
      have pid := (isUser present).2.2.2
      have pidOther := (isUser presentOther).2.2.2
      omega
    · intro task now present
      have pid := (isUser present).2.2.2
      omega
  · constructor
    · intro task now present _
      exact (isUser present).2.2.1
    · intro task now present ended
      rw [(isUser present).2.1] at ended
      cases ended
    · intro task now target goal present waiting
      rw [(isUser present).1] at waiting
      cases waiting
    · simp [noExits]
    · simp [noExits]
    · simp [noAnswers]
    · simp [noAnswers]
    · simp [World.collections, noAnswers]
    · simp [noExits]

/-- In every run of careful steps, `WAIT` delivers each exit code once and to the right task. -/
theorem waits_deliver (tasks : Nat) (events : List Event)
    (careful : Throughout Event.Careful (World.boot tasks) events)
    : ((World.boot tasks).run events).DeliversOnce :=
  ((boot_fair tasks).run events careful).deliversOnce

/-- Two tasks wait for a third, which exits. -/
theorem waits_deliver_two
    : ((World.boot 3).run [.wait 0 3, .wait 1 3, .exit 2 7, .rewait 0, .rewait 1]).DeliversOnce := by
  apply waits_deliver 3
  refine ⟨?_, ?_, trivial, trivial, trivial, trivial⟩
  · intro task found foundNow _ _ search there ended
    obtain rfl : found = 2 := Option.some.inj (search.symm.trans (by decide))
    obtain ⟨rfl, _⟩ := boot_task 3 there
    cases ended
  · intro task found foundNow _ _ search there ended
    obtain rfl : found = 2 := Option.some.inj (search.symm.trans (by decide))
    have runs : foundNow = ⟨3, .ready, 0, 0, .user⟩ :=
      Option.some.inj (there.symm.trans (by decide))
    rw [runs] at ended
    cases ended

/-- A task waits for another one, which exits; before the woken task runs again, a third one
creates a task in the slot of the second.
-/
theorem waits_lose : ¬∀ tasks events, ((World.boot tasks).run events).DeliversOnce := by
  intro delivers
  have answers
      : ((World.boot 3).run [.wait 0 2, .exit 1 7, .alloc 2 true, .rewait 0]).answers
        = [⟨0, 2, some 1, none⟩] := by decide
  obtain ⟨answer, member, _, collects⟩ :=
    (delivers 3 [.wait 0 2, .exit 1 7, .alloc 2 true, .rewait 0]).delivered
      ⟨1, 2, 7, [0]⟩ (by decide) (by decide) (by
        intro waiter isWaiter
        obtain rfl : waiter = 0 := by simpa using isWaiter
        exact ⟨⟨0, 2, some 1, none⟩, by decide, rfl, rfl⟩)
  rw [answers, List.mem_singleton] at member
  rw [member] at collects
  cases collects

end Panuti.Process
