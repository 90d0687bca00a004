import Panuti.Process.Pids

/-! `WAIT` in every run. What an exit leaves stays until one `WAIT` collects it, and the tasks
that were blocked in `WAIT` get it once, as long as no allocation recycles a terminated task
or hands out a PID that is waited for.
-/

namespace Panuti.Process

open Panuti.Kernel (TaskState lowestFree)

-- The task list

def Control.Makes (control : Control) (child : Nat) : Prop :=
  control = .creating child ∨ ∃ head, control = .pushing child head

/-- The task is in the loop of `syshandler_wait`. -/
def Control.Waits (control : Control) : Prop := ∃ target goal, control = .waiting target goal

/-- `task_list` holds every task but those being created, and no two tasks share a PID. -/
structure World.Listed (world : World) : Prop where
  listed
    : ∀ task, task ∈ world.list
      ↔ ∃ now, world.tasks.get task = some now ∧ now.control ≠ .unborn
  nodup : world.list.Nodup
  child
    : ∀ who now child, world.tasks.get who = some now → now.control.Makes child
      → ∃ made, world.tasks.get child = some made ∧ made.control = .unborn
  oneMaker
    : ∀ who other now otherNow child, world.tasks.get who = some now
      → world.tasks.get other = some otherNow
      → now.control.Makes child
      → otherNow.control.Makes child
      → who = other
  apart
    : ∀ task other now otherNow, world.tasks.get task = some now
      → world.tasks.get other = some otherNow
      → now.pid = otherNow.pid
      → task = other
  positive : ∀ task now, world.tasks.get task = some now → 1 ≤ now.pid

section Find

variable {world : World} {pid : Nat}

theorem World.Listed.find_some (listed : world.Listed) {task : Nat} {now : Task}
    (present : world.tasks.get task = some now) (born : now.control ≠ .unborn)
    : world.find now.pid = some task := by
  cases search : world.find now.pid with
  | none =>
      have none_found := List.find?_eq_none.mp search task
        ((listed.listed task).mpr ⟨now, present, born⟩)
      simp [World.holds, present] at none_found
  | some other =>
      have isNamed := List.find?_some search
      simp only [World.holds, Option.any_eq_true] at isNamed
      obtain ⟨found, there, same⟩ := isNamed
      rw [listed.apart other task found now there present (by simpa using same)]

theorem World.find_spec {task : Nat} (found : world.find pid = some task)
    : task ∈ world.list ∧ ∃ now, world.tasks.get task = some now ∧ now.pid = pid := by
  have isNamed := List.find?_some found
  simp only [World.holds, Option.any_eq_true] at isNamed
  obtain ⟨now, present, same⟩ := isNamed
  exact ⟨List.mem_of_find?_eq_some found, now, present, by simpa using same⟩

end Find

-- Exits and answers

/-- Some `WAIT` returned the code of this task. -/
def World.Collected (world : World) (task : Nat) : Prop :=
  ∃ answer ∈ world.answers, ∃ code, answer.collected = some (task, code)

/-- The `WAIT` in which `waiter` waited for this task returned. -/
def World.Returned (world : World) (waiter task : Nat) : Prop :=
  ∃ answer ∈ world.answers, answer.waiter = waiter ∧ answer.goal = some task

/-- The task a waiting task waits for runs, or ended and woke it, or was collected. -/
def World.Awaits (world : World) (who : Nat) (now : Task) (target goal : Nat) : Prop :=
  (∃ found, world.tasks.get goal = some found
    ∧ found.pid = target
    ∧ found.control ≠ .unborn
    ∧ found.state ≠ .terminated
    ∧ now.state = .blocked
    ∧ now.pidWaitingOn = target)
  ∨ (∃ found, world.tasks.get goal = some found
    ∧ found.pid = target
    ∧ found.state = .terminated
    ∧ now.state ≠ .blocked
    ∧ ∃ exit ∈ world.exits, exit.task = goal ∧ who ∈ exit.waiters)
  ∨ (world.tasks.get goal = none
    ∧ world.Collected goal
    ∧ now.state ≠ .blocked
    ∧ ∀ other found, world.tasks.get other = some found → found.pid ≠ target)

def World.collections (world : World) : List Nat :=
  world.answers.filterMap (fun answer => answer.collected.map Prod.fst)

/-- What `WAIT` delivered so far is right, and what is left is there to be delivered. -/
structure World.Delivers (world : World) : Prop where
  quiet
    : ∀ task now, world.tasks.get task = some now → ¬now.control.Waits → now.pidWaitingOn = 0
  ended
    : ∀ task now, world.tasks.get task = some now → now.state = .terminated
      → now.control = .user
        ∧ ∃ exit ∈ world.exits, exit.task = task ∧ exit.pid = now.pid ∧ exit.code = now.exitCode
  awaits
    : ∀ task now target goal, world.tasks.get task = some now
      → now.control = .waiting target goal
      → world.Awaits task now target goal
  exits
    : ∀ exit ∈ world.exits,
        (∃ now, world.tasks.get exit.task = some now
          ∧ now.state = .terminated
          ∧ now.pid = exit.pid
          ∧ now.exitCode = exit.code)
        ∨ world.tasks.get exit.task = none ∧ world.Collected exit.task
  exitOnce : (world.exits.map Exit.task).Nodup
  collected
    : ∀ answer ∈ world.answers, ∀ task code, answer.collected = some (task, code)
      → world.tasks.get task = none
        ∧ task < world.tasks.next
        ∧ (answer.goal = none ∨ answer.goal = some task)
        ∧ ∃ exit ∈ world.exits, exit.task = task
          ∧ exit.code = code
          ∧ exit.pid = answer.target
          ∧ (exit.waiters = [] ∨ answer.waiter ∈ exit.waiters)
  missed
    : ∀ answer ∈ world.answers, ∀ goal, answer.goal = some goal → world.Collected goal
  once : world.collections.Nodup
  waiters
    : ∀ exit ∈ world.exits, ∀ waiter ∈ exit.waiters,
        (∃ now, world.tasks.get waiter = some now
          ∧ now.control = .waiting exit.pid exit.task)
        ∨ world.Returned waiter exit.task

-- Steps that wait for nobody

/-- A task unchanged, or one that does not wait changed outside of what `WAIT` looks at. -/
structure Alike (was now : Task) : Prop where
  same : was.control.Waits ∨ now.control.Waits → now = was
  pid : now.pid = was.pid
  exitCode : now.exitCode = was.exitCode
  pidWaitingOn : now.pidWaitingOn = was.pidWaitingOn
  terminated : now.state = .terminated ↔ was.state = .terminated
  born : was.control ≠ .unborn → now.control ≠ .unborn
  ended : was.state = .terminated → now.control = was.control

theorem Alike.refl (task : Task) : Alike task task :=
  ⟨fun _ => rfl, rfl, rfl, rfl, Iff.rfl, fun born => born, fun _ => rfl⟩

structure World.Newcomer (world : World) (task : Nat) (now : Task) : Prop where
  place : world.tasks.next ≤ task
  unborn : now.control = .unborn
  quiet : now.pidWaitingOn = 0
  live : now.state ≠ .terminated
  unawaited
    : ∀ other otherNow goal, world.tasks.get other = some otherNow
      → otherNow.control ≠ .waiting now.pid goal

theorem not_waits_of_unborn {control : Control} (unborn : control = .unborn) : ¬control.Waits := by
  rintro ⟨target, goal, same⟩
  rw [unborn] at same
  cases same

theorem not_waits_of_user {control : Control} (user : control = .user) : ¬control.Waits := by
  rintro ⟨target, goal, same⟩
  rw [user] at same
  cases same

/-- Steps that change tasks only outside of what `WAIT` looks at, create one nobody waits for
or drop one that was never listed.
-/
theorem World.Delivers.congr {world after : World} (delivers : world.Delivers)
    (old
      : ∀ task now, after.tasks.get task = some now
        → (∃ was, world.tasks.get task = some was ∧ Alike was now) ∨ world.Newcomer task now)
    (kept
      : ∀ task was, world.tasks.get task = some was → was.control ≠ .unborn
        → ∃ now, after.tasks.get task = some now ∧ Alike was now)
    (next : world.tasks.next ≤ after.tasks.next) (exits : after.exits = world.exits)
    (answers : after.answers = world.answers)
    : after.Delivers := by
  have collected (task : Nat) : after.Collected task ↔ world.Collected task := by
    rw [World.Collected, World.Collected, answers]
  have stillNone {task : Nat} (absent : world.tasks.get task = none)
      (below : task < world.tasks.next)
      : after.tasks.get task = none := by
    cases present : after.tasks.get task with
    | none => rfl
    | some now =>
        rcases old task now present with ⟨was, there, _⟩ | new
        · rw [absent] at there
          cases there
        · exact absurd below (Nat.not_lt.mpr new.place)
  have collectedBelow {task : Nat} (isCollected : world.Collected task)
      : task < world.tasks.next := by
    obtain ⟨answer, member, code, same⟩ := isCollected
    exact (delivers.collected answer member task code same).2.1
  constructor
  · intro task now present quiet
    rcases old task now present with ⟨was, there, alike⟩ | new
    · rw [alike.pidWaitingOn]
      apply delivers.quiet task was there
      intro waits
      rw [alike.same (Or.inl waits)] at quiet
      exact quiet waits
    · exact new.quiet
  · intro task now present terminated
    rcases old task now present with ⟨was, there, alike⟩ | new
    · have wasEnded := alike.terminated.mp terminated
      obtain ⟨user, exit, member, same, pid, code⟩ := delivers.ended task was there wasEnded
      rw [alike.ended wasEnded, alike.pid, alike.exitCode, exits]
      exact ⟨user, exit, member, same, pid, code⟩
    · exact absurd terminated new.live
  · intro task now target goal present waiting
    rcases old task now present with ⟨was, there, alike⟩ | new
    · obtain rfl := alike.same (Or.inr ⟨target, goal, waiting⟩)
      rcases delivers.awaits task now target goal there waiting with
        ⟨found, here, pid, born, runs, blocked⟩ | ⟨found, here, pid, ended, awake, woken⟩
        | ⟨gone, isCollected, awake, noPid⟩
      · obtain ⟨foundNow, hereNow, alikeFound⟩ := kept goal found here born
        refine Or.inl ⟨foundNow, hereNow, alikeFound.pid.trans pid, alikeFound.born born, ?_,
          blocked⟩
        intro terminated
        exact runs (alikeFound.terminated.mp terminated)
      · have user := (delivers.ended goal found here ended).1
        obtain ⟨foundNow, hereNow, alikeFound⟩ := kept goal found here (by simp [user])
        refine Or.inr (Or.inl ⟨foundNow, hereNow, alikeFound.pid.trans pid,
          alikeFound.terminated.mpr ended, awake, ?_⟩)
        rw [exits]
        exact woken
      · refine Or.inr (Or.inr ⟨stillNone gone (collectedBelow isCollected),
          (collected goal).mpr isCollected, awake, ?_⟩)
        intro other found hereNow
        rcases old other found hereNow with ⟨wasOther, thereOther, alikeOther⟩ | new
        · rw [alikeOther.pid]
          exact noPid other wasOther thereOther
        · intro same
          apply new.unawaited task now goal there
          rw [same]
          exact waiting
    · exact absurd ⟨target, goal, waiting⟩ (not_waits_of_unborn new.unborn)
  · intro exit member
    rw [exits] at member
    rw [collected]
    rcases delivers.exits exit member with ⟨was, there, ended, pid, code⟩ | ⟨gone, isCollected⟩
    · have user := (delivers.ended exit.task was there ended).1
      obtain ⟨now, present, alike⟩ := kept exit.task was there (by simp [user])
      exact Or.inl ⟨now, present, alike.terminated.mpr ended, alike.pid.trans pid,
        alike.exitCode.trans code⟩
    · exact Or.inr ⟨stillNone gone (collectedBelow isCollected), isCollected⟩
  · rw [exits]
    exact delivers.exitOnce
  · intro answer member task code same
    rw [answers] at member
    obtain ⟨gone, below, rest⟩ := delivers.collected answer member task code same
    rw [exits]
    exact ⟨stillNone gone below, by omega, rest⟩
  · intro answer member goal same
    rw [answers] at member
    rw [collected]
    exact delivers.missed answer member goal same
  · rw [World.collections, answers]
    exact delivers.once
  · intro exit member waiter woken
    rw [exits] at member
    rcases delivers.waiters exit member waiter woken with ⟨was, there, waiting⟩ | returned
    · obtain ⟨now, present, alike⟩ := kept waiter was there (by simp [waiting])
      left
      refine ⟨now, present, ?_⟩
      rw [alike.same (Or.inl ⟨_, _, waiting⟩)]
      exact waiting
    · right
      rw [World.Returned, answers]
      exact returned

theorem World.acting_some {world : World} {who : Nat} {task : Task}
    (acts : world.acting who = some task)
    : world.tasks.get who = some task ∧ (task.state = .ready ∨ task.state = .running) := by
  obtain ⟨present, runs⟩ := Option.filter_eq_some_iff.mp acts
  exact ⟨present, by simpa using runs⟩

theorem not_terminated_of_runs {state : TaskState} (runs : state = .ready ∨ state = .running)
    : state ≠ .terminated ∧ state ≠ .blocked := by
  rcases runs with rfl | rfl
  · exact ⟨by simp, by simp⟩
  · exact ⟨by simp, by simp⟩

section Modify

variable {world : World} {who : Nat} {change : Task → Task}

theorem World.Delivers.modify (delivers : world.Delivers)
    (alike : ∀ was, world.tasks.get who = some was → Alike was (change was))
    : (world.modify who change).Delivers := by
  apply delivers.congr
  · intro task now present
    obtain ⟨was, there, rfl⟩ := Arena.get_modify_eq_some present
    left
    refine ⟨was, there, ?_⟩
    split
    · rename_i same
      rw [same] at there
      exact alike was there
    · exact Alike.refl was
  · intro task was there _
    by_cases same : task = who
    · rw [same] at there ⊢
      exact ⟨change was, by simp [World.modify, there], alike was there⟩
    · refine ⟨was, ?_, Alike.refl was⟩
      rw [← there]
      exact Arena.get_modify_of_ne same
  · exact Nat.le_refl _
  · rfl
  · rfl

/-- The child waits to be listed, and nobody else creates it. -/
def World.MadeBy (world : World) (maker child : Nat) : Prop :=
  (∃ made, world.tasks.get child = some made ∧ made.control = .unborn)
  ∧ ∀ other now, other ≠ maker → world.tasks.get other = some now → ¬now.control.Makes child

theorem World.Listed.madeBy (listed : world.Listed) {maker child : Nat} {now : Task}
    (present : world.tasks.get maker = some now) (made : now.control.Makes child)
    : world.MadeBy maker child := by
  refine ⟨listed.child maker now child present made, ?_⟩
  intro other otherNow apart presentOther madeToo
  exact apart (listed.oneMaker other maker otherNow now child presentOther present madeToo made)

/-- A change of one task that neither lists nor unlists it. -/
theorem World.Listed.modify (listed : world.Listed)
    (pid : ∀ was, world.tasks.get who = some was → (change was).pid = was.pid)
    (born
      : ∀ was, world.tasks.get who = some was
        → ((change was).control = .unborn ↔ was.control = .unborn))
    (makes
      : ∀ was child, world.tasks.get who = some was → (change was).control.Makes child
        → world.MadeBy who child)
    : (world.modify who change).Listed := by
  have old {task : Nat} {now : Task} (present : (world.modify who change).tasks.get task = some now)
      : ∃ was, world.tasks.get task = some was
          ∧ now.pid = was.pid
          ∧ (now.control = .unborn ↔ was.control = .unborn)
          ∧ ∀ child, now.control.Makes child → world.MadeBy task child := by
    obtain ⟨was, there, rfl⟩ := Arena.get_modify_eq_some present
    refine ⟨was, there, ?_⟩
    split
    · rename_i same
      rw [same] at there
      refine ⟨pid was there, born was there, ?_⟩
      intro child made
      rw [same]
      exact makes was child there made
    · exact ⟨rfl, Iff.rfl, fun child made => listed.madeBy there made⟩
  have kept {task : Nat} {was : Task} (there : world.tasks.get task = some was)
      : ∃ now, (world.modify who change).tasks.get task = some now
          ∧ (now.control = .unborn ↔ was.control = .unborn) := by
    by_cases same : task = who
    · rw [same] at there ⊢
      exact ⟨change was, by simp [World.modify, there], born was there⟩
    · refine ⟨was, ?_, Iff.rfl⟩
      rw [← there]
      exact Arena.get_modify_of_ne same
  constructor
  · intro task
    have sameList : (world.modify who change).list = world.list := rfl
    rw [sameList, listed.listed]
    constructor
    · rintro ⟨was, there, isBorn⟩
      obtain ⟨now, present, same⟩ := kept there
      exact ⟨now, present, fun unborn => isBorn (same.mp unborn)⟩
    · rintro ⟨now, present, isBorn⟩
      obtain ⟨was, there, _, same, _⟩ := old present
      exact ⟨was, there, fun unborn => isBorn (same.mpr unborn)⟩
  · exact listed.nodup
  · intro maker now child present made
    obtain ⟨_, _, _, _, wasMade⟩ := old present
    obtain ⟨⟨before, thereChild, unborn⟩, _⟩ := wasMade child made
    obtain ⟨after, presentChild, same⟩ := kept thereChild
    exact ⟨after, presentChild, same.mpr unborn⟩
  · intro first second now otherNow child present presentOther made madeToo
    obtain ⟨_, _, _, _, wasMade⟩ := old present
    obtain ⟨wasOther, thereOther, _, _, _⟩ := old presentOther
    by_contra apart
    by_cases isWho : second = who
    · obtain ⟨_, _, _, _, wasMadeToo⟩ := old presentOther
      obtain ⟨wasFirst, thereFirst, _, _, _⟩ := old present
      have firstNotWho : first ≠ who := fun same => apart (same.trans isWho.symm)
      have sameFirst : (world.modify who change).tasks.get first = world.tasks.get first :=
        Arena.get_modify_of_ne firstNotWho
      rw [sameFirst] at present
      exact (wasMadeToo child madeToo).2 first now apart present made
    · have sameSecond : (world.modify who change).tasks.get second = world.tasks.get second :=
        Arena.get_modify_of_ne isWho
      rw [sameSecond] at presentOther
      exact (wasMade child made).2 second otherNow (fun same => apart same.symm) presentOther
        madeToo
  · intro task other now otherNow present presentOther same
    obtain ⟨was, there, pidSame, _⟩ := old present
    obtain ⟨wasOther, thereOther, pidSameOther, _⟩ := old presentOther
    exact listed.apart task other was wasOther there thereOther
      (pidSame.symm.trans (same.trans pidSameOther))
  · intro task now present
    obtain ⟨was, there, pidSame, _⟩ := old present
    rw [pidSame]
    exact listed.positive task was there

end Modify

structure World.Fair (world : World) : Prop where
  listed : world.Listed
  delivers : world.Delivers

section Steps

variable {world : World} {child who : Nat}

theorem not_makes_user : ¬Control.user.Makes child := by
  rintro (same | ⟨head, same⟩)
  · cases same
  · cases same

theorem alike_of_quiet {was now : Task} (quiet : ¬was.control.Waits) (quietNow : ¬now.control.Waits)
    (pid : now.pid = was.pid) (exitCode : now.exitCode = was.exitCode)
    (pidWaitingOn : now.pidWaitingOn = was.pidWaitingOn)
    (live : was.state ≠ .terminated) (liveNow : now.state ≠ .terminated)
    (born : now.control ≠ .unborn)
    : Alike was now where
  same := by
    rintro (waits | waits)
    · exact absurd waits quiet
    · exact absurd waits quietNow
  pid := pid
  exitCode := exitCode
  pidWaitingOn := pidWaitingOn
  terminated := ⟨fun ended => absurd ended liveNow, fun ended => absurd ended live⟩
  born := fun _ => born
  ended := fun ended => absurd ended live

theorem World.Fair.of_acting {turn : Task → World} (fair : world.Fair)
    (each
      : ∀ task, world.acting who = some task → world.tasks.get who = some task
        → task.state = .ready ∨ task.state = .running → (turn task).Fair)
    : World.Fair (match world.acting who with | some task => turn task | none => world) := by
  cases acts : world.acting who with
  | none => exact fair
  | some task => exact each task acts (World.acting_some acts).1 (World.acting_some acts).2

theorem World.Fair.block (fair : world.Fair) : (world.step (.block who)).Fair := by
  refine fair.of_acting fun task _ present runs => ?_
  split
  · rename_i user
    have live := (not_terminated_of_runs runs).1
    refine ⟨fair.listed.modify (fun _ _ => rfl) (fun _ _ => Iff.rfl)
      (fun _ _ there made => fair.listed.madeBy there made), fair.delivers.modify ?_⟩
    intro was there
    obtain rfl : task = was := Option.some.inj (present.symm.trans there)
    exact alike_of_quiet (not_waits_of_user user) (not_waits_of_user user) rfl rfl rfl live
      (by simp) (by simp [user])
  · exact fair

theorem World.Fair.wake (fair : world.Fair) : (world.step (.wake who)).Fair := by
  simp only [World.step]
  refine ⟨fair.listed.modify ?_ ?_ ?_, fair.delivers.modify ?_⟩
  · intro was _
    split <;> rfl
  · intro was _
    split <;> rfl
  · intro was child there made
    apply fair.listed.madeBy there
    split at made
    · exact made
    · exact made
  · intro was _
    split
    · rename_i both
      exact alike_of_quiet (not_waits_of_user both.2) (not_waits_of_user both.2) rfl rfl rfl
        (by simp [both.1]) (by simp) (by simp [both.2])
    · exact Alike.refl was

theorem World.Fair.pushRead (fair : world.Fair) : (world.step (.pushRead who)).Fair := by
  refine fair.of_acting fun task _ present runs => ?_
  split
  · rename_i child creating
    have only {was : Task} (there : world.tasks.get who = some was)
        : was.control = .creating child ∧ was.state ≠ .terminated := by
      obtain rfl : task = was := Option.some.inj (present.symm.trans there)
      exact ⟨creating, (not_terminated_of_runs runs).1⟩
    refine ⟨fair.listed.modify (fun _ _ => rfl) ?_ ?_, fair.delivers.modify ?_⟩
    · intro was there
      simp [(only there).1]
    · intro was other there made
      apply fair.listed.madeBy there
      rcases made with same | ⟨head, same⟩
      · cases same
      · cases same
        exact Or.inl (only there).1
    · intro was there
      obtain ⟨isCreating, live⟩ := only there
      refine alike_of_quiet ?_ ?_ rfl rfl rfl live live (by simp)
      · rintro ⟨target, goal, same⟩
        rw [isCreating] at same
        cases same
      · rintro ⟨target, goal, same⟩
        cases same
  · exact fair

def World.Orphan (world : World) (child : Nat) : Prop :=
  (∃ made, world.tasks.get child = some made ∧ made.control = .unborn)
  ∧ ∀ other now, world.tasks.get other = some now → ¬now.control.Makes child

/-- A creator that leaves `task_procreate` leaves its child behind. -/
theorem World.Fair.leave {task : Task} (fair : world.Fair)
    (present : world.tasks.get who = some task) (made : task.control.Makes child)
    (live : task.state ≠ .terminated)
    : (world.modify who (fun task => { task with control := .user })).Fair
      ∧ (world.modify who (fun task => { task with control := .user })).Orphan child := by
  have only {was : Task} (there : world.tasks.get who = some was) : was = task :=
    Option.some.inj (there.symm.trans present)
  have notUnborn : task.control ≠ .unborn := by
    intro unborn
    rw [unborn] at made
    rcases made with same | ⟨head, same⟩
    · cases same
    · cases same
  have notWaits : ¬task.control.Waits := by
    rintro ⟨target, goal, waiting⟩
    rw [waiting] at made
    rcases made with same | ⟨head, same⟩
    · cases same
    · cases same
  obtain ⟨⟨childTask, childHere, unborn⟩, noOther⟩ := fair.listed.madeBy present made
  have apart : child ≠ who := by
    rintro rfl
    obtain rfl := only childHere
    exact notUnborn unborn
  refine ⟨⟨fair.listed.modify (fun _ _ => rfl) ?_ ?_, fair.delivers.modify ?_⟩, ?_, ?_⟩
  · intro was there
    obtain rfl := only there
    simp [notUnborn]
  · intro was other _ makes
    exact absurd makes not_makes_user
  · intro was there
    obtain rfl := only there
    exact alike_of_quiet notWaits (not_waits_of_user rfl) rfl rfl rfl live live (by simp)
  · refine ⟨childTask, ?_, unborn⟩
    rw [← childHere]
    exact Arena.get_modify_of_ne apart
  · intro other now here makes
    by_cases isWho : other = who
    · subst isWho
      obtain ⟨was, _, rfl⟩ := Arena.get_modify_eq_some here
      rw [if_pos rfl] at makes
      exact not_makes_user makes
    · have unchanged : (world.modify who (fun task => { task with control := .user })).tasks.get
          other = world.tasks.get other := Arena.get_modify_of_ne isWho
      rw [unchanged] at here
      exact noOther other now isWho here makes

/-- An orphan is freed. -/
theorem World.Fair.drop (fair : world.Fair) (orphan : world.Orphan child)
    : World.Fair { world with tasks := world.tasks.free child } := by
  obtain ⟨⟨childTask, childHere, unborn⟩, nobody⟩ := orphan
  have old {task : Nat} {now : Task} (here : (world.tasks.free child).get task = some now)
      : task ≠ child ∧ world.tasks.get task = some now := Arena.get_free_eq_some.mp here
  have kept {task : Nat} {now : Task} (there : world.tasks.get task = some now)
      (apart : task ≠ child)
      : (world.tasks.free child).get task = some now := Arena.get_free_eq_some.mpr ⟨apart, there⟩
  have notChild {task : Nat} {now : Task} (there : world.tasks.get task = some now)
      (born : now.control ≠ .unborn)
      : task ≠ child := by
    rintro rfl
    obtain rfl : childTask = now := Option.some.inj (childHere.symm.trans there)
    exact born unborn
  constructor
  · constructor
    · intro task
      rw [fair.listed.listed]
      constructor
      · rintro ⟨now, there, born⟩
        exact ⟨now, kept there (notChild there born), born⟩
      · rintro ⟨now, here, born⟩
        exact ⟨now, (old here).2, born⟩
    · exact fair.listed.nodup
    · intro maker now other here makes
      obtain ⟨made, there, isUnborn⟩ := fair.listed.child maker now other (old here).2 makes
      refine ⟨made, kept there ?_, isUnborn⟩
      rintro rfl
      exact nobody maker now (old here).2 makes
    · intro first second now otherNow other here hereOther
      exact fair.listed.oneMaker first second now otherNow other (old here).2 (old hereOther).2
    · intro first second now otherNow here hereOther
      exact fair.listed.apart first second now otherNow (old here).2 (old hereOther).2
    · intro task now here
      exact fair.listed.positive task now (old here).2
  · refine fair.delivers.congr ?_ ?_ ?_ ?_ ?_
    · intro task now here
      exact Or.inl ⟨now, (old here).2, Alike.refl now⟩
    · intro task was there born
      exact ⟨was, kept there (notChild there born), Alike.refl was⟩
    · exact Nat.le_refl _
    · rfl
    · rfl

/-- An orphan comes onto the list. -/
theorem World.Fair.birth (fair : world.Fair) (orphan : world.Orphan child)
    : (({ world with list := child :: world.list } : World).modify child
        (fun task => { task with control := .user })).Fair := by
  obtain ⟨⟨childTask, childHere, unborn⟩, nobody⟩ := orphan
  have live : childTask.state ≠ .terminated := by
    intro ended
    have user := (fair.delivers.ended child childTask childHere ended).1
    rw [unborn] at user
    cases user
  have alike : Alike childTask { childTask with control := .user } :=
    alike_of_quiet (not_waits_of_unborn unborn) (not_waits_of_user rfl) rfl rfl rfl live live
      (by simp)
  have gets (task : Nat)
      : (({ world with list := child :: world.list } : World).modify child
          (fun task => { task with control := .user })).tasks.get task
        = if task = child then some { childTask with control := .user }
          else world.tasks.get task := by
    by_cases isChild : task = child
    · subst isChild
      simp [World.modify, childHere]
    · rw [if_neg isChild]
      exact Arena.get_modify_of_ne isChild
  have sameList : (({ world with list := child :: world.list } : World).modify child
      (fun task => { task with control := .user })).list = child :: world.list := rfl
  have old {task : Nat} {now : Task}
      (here : (({ world with list := child :: world.list } : World).modify child
          (fun task => { task with control := .user })).tasks.get task = some now)
      : ∃ was, world.tasks.get task = some was
          ∧ Alike was now
          ∧ (now.control ≠ .unborn ↔ task = child ∨ was.control ≠ .unborn)
          ∧ ∀ other, now.control.Makes other → was.control.Makes other ∧ other ≠ child := by
    rw [gets] at here
    split at here
    · rename_i isChild
      obtain rfl := Option.some.inj here
      refine ⟨childTask, by rw [isChild]; exact childHere, alike, by simp [isChild], ?_⟩
      intro other makes
      exact absurd makes not_makes_user
    · rename_i apart
      refine ⟨now, here, Alike.refl now, by simp [apart], ?_⟩
      intro other makes
      refine ⟨makes, ?_⟩
      rintro rfl
      exact nobody task now here makes
  have kept {task : Nat} {was : Task} (there : world.tasks.get task = some was)
      : ∃ now, (({ world with list := child :: world.list } : World).modify child
          (fun task => { task with control := .user })).tasks.get task = some now
          ∧ Alike was now
          ∧ (task ≠ child → now = was) := by
    rw [gets]
    by_cases isChild : task = child
    · subst isChild
      obtain rfl : childTask = was := Option.some.inj (childHere.symm.trans there)
      exact ⟨_, if_pos rfl, alike, fun apart => absurd rfl apart⟩
    · exact ⟨was, by rw [if_neg isChild, there], Alike.refl was, fun _ => rfl⟩
  constructor
  · constructor
    · intro task
      rw [sameList, List.mem_cons, fair.listed.listed]
      constructor
      · rintro (rfl | ⟨was, there, born⟩)
        · exact ⟨_, by rw [gets, if_pos rfl], by simp⟩
        · obtain ⟨now, here, alikeNow, _⟩ := kept there
          exact ⟨now, here, alikeNow.born born⟩
      · rintro ⟨now, here, born⟩
        obtain ⟨was, there, _, bornIff, _⟩ := old here
        rcases bornIff.mp born with isChild | wasBorn
        · exact Or.inl isChild
        · exact Or.inr ⟨was, there, wasBorn⟩
    · rw [sameList]
      refine List.nodup_cons.mpr ⟨?_, fair.listed.nodup⟩
      intro member
      obtain ⟨now, there, born⟩ := (fair.listed.listed child).mp member
      obtain rfl : childTask = now := Option.some.inj (childHere.symm.trans there)
      exact born unborn
    · intro maker now other here makes
      obtain ⟨was, there, _, _, wasMakes⟩ := old here
      obtain ⟨wasMade, notChild⟩ := wasMakes other makes
      obtain ⟨made, madeThere, isUnborn⟩ := fair.listed.child maker was other there wasMade
      obtain ⟨madeNow, madeHere, _, same⟩ := kept madeThere
      refine ⟨madeNow, madeHere, ?_⟩
      rw [same notChild]
      exact isUnborn
    · intro first second now otherNow other here hereOther makes makesToo
      obtain ⟨was, there, _, _, wasMakes⟩ := old here
      obtain ⟨wasOther, thereOther, _, _, wasMakesToo⟩ := old hereOther
      exact fair.listed.oneMaker first second was wasOther other there thereOther
        (wasMakes other makes).1 (wasMakesToo other makesToo).1
    · intro first second now otherNow here hereOther same
      obtain ⟨was, there, alikeFirst, _⟩ := old here
      obtain ⟨wasOther, thereOther, alikeSecond, _⟩ := old hereOther
      exact fair.listed.apart first second was wasOther there thereOther
        (alikeFirst.pid.symm.trans (same.trans alikeSecond.pid))
    · intro task now here
      obtain ⟨was, there, alikeTask, _⟩ := old here
      rw [alikeTask.pid]
      exact fair.listed.positive task was there
  · refine fair.delivers.congr ?_ ?_ ?_ ?_ ?_
    · intro task now here
      obtain ⟨was, there, alikeTask, _⟩ := old here
      exact Or.inl ⟨was, there, alikeTask⟩
    · intro task was there _
      obtain ⟨now, here, alikeTask, _⟩ := kept there
      exact ⟨now, here, alikeTask⟩
    · exact Nat.le_refl _
    · rfl
    · rfl

theorem World.Fair.fail (fair : world.Fair) : (world.step (.fail who)).Fair := by
  refine fair.of_acting fun task _ present runs => ?_
  split
  · rename_i child creating
    obtain ⟨left, orphan⟩ := fair.leave present (Or.inl creating)
      (not_terminated_of_runs runs).1
    exact left.drop orphan
  · exact fair

theorem World.Fair.pushWrite (fair : world.Fair)
    (unchanged
      : ∀ task child head, world.acting who = some task → task.control = .pushing child head
        → world.list.head? = head)
    : (world.step (.pushWrite who)).Fair := by
  refine fair.of_acting fun task acts present runs => ?_
  split
  · rename_i child head pushing
    have sameHead := unchanged task child head acts pushing
    have whole : world.list.dropWhile (fun task => some task ≠ head) = world.list := by
      cases shape : world.list with
      | nil => rfl
      | cons first rest =>
          rw [shape, List.head?_cons] at sameHead
          rw [← sameHead]
          simp
    obtain ⟨left, orphan⟩ := fair.leave present (Or.inr ⟨head, pushing⟩)
      (not_terminated_of_runs runs).1
    have born := left.birth orphan
    have sameList : (world.modify who (fun task => { task with control := .user })).list
        = world.list := rfl
    dsimp only
    rw [sameList, whole]
    exact born
  · exact fair

/-- The allocation recycles no task, and hands out a PID that no task has or waits for. -/
def World.Unused (world : World) (room : Bool) : Prop :=
  recycled world = none
  ∧ ∀ task now, world.tasks.get task = some now
    → now.pid ≠ taskAllocPid (taskAllocTask world room).2
      ∧ ∀ goal, now.control ≠ .waiting (taskAllocPid (taskAllocTask world room).2) goal

/-- A new task with an unused PID is an orphan until its creator takes it. -/
theorem World.Fair.add {pid : Nat} {given : List Nat} (fair : world.Fair) (positive : 1 ≤ pid)
    (unused
      : ∀ task now, world.tasks.get task = some now
        → now.pid ≠ pid ∧ ∀ goal, now.control ≠ .waiting pid goal)
    : World.Fair
        { world with tasks := world.tasks.alloc ⟨pid, .ready, 0, 0, .unborn⟩, given }
      ∧ World.Orphan
        { world with tasks := world.tasks.alloc ⟨pid, .ready, 0, 0, .unborn⟩, given }
        world.tasks.next := by
  have old {task : Nat} {now : Task}
      (here : (world.tasks.alloc ⟨pid, .ready, 0, 0, .unborn⟩).get task = some now)
      : task = world.tasks.next ∧ now = ⟨pid, .ready, 0, 0, .unborn⟩
        ∨ world.tasks.get task = some now := by
    by_cases isNew : task = world.tasks.next
    · rw [isNew, Arena.get_alloc_self] at here
      exact Or.inl ⟨isNew, (Option.some.inj here).symm⟩
    · rw [Arena.get_alloc_of_ne isNew] at here
      exact Or.inr here
  have kept {task : Nat} {now : Task} (there : world.tasks.get task = some now)
      : (world.tasks.alloc ⟨pid, .ready, 0, 0, .unborn⟩).get task = some now :=
    Arena.get_alloc_of_some there
  have unbornMakes {child : Nat} : ¬Control.unborn.Makes child := by
    rintro (same | ⟨head, same⟩)
    · cases same
    · cases same
  refine ⟨⟨?_, ?_⟩, ⟨_, Arena.get_alloc_self _ _, rfl⟩, ?_⟩
  · constructor
    · intro task
      rw [fair.listed.listed]
      constructor
      · rintro ⟨now, there, born⟩
        exact ⟨now, kept there, born⟩
      · rintro ⟨now, here, born⟩
        rcases old here with ⟨_, rfl⟩ | there
        · exact absurd rfl born
        · exact ⟨now, there, born⟩
    · exact fair.listed.nodup
    · intro maker now child here makes
      rcases old here with ⟨_, rfl⟩ | there
      · exact absurd makes unbornMakes
      · obtain ⟨made, madeThere, unborn⟩ := fair.listed.child maker now child there makes
        exact ⟨made, kept madeThere, unborn⟩
    · intro first second now otherNow child here hereOther makes makesToo
      rcases old here with ⟨_, rfl⟩ | there
      · exact absurd makes unbornMakes
      · rcases old hereOther with ⟨_, rfl⟩ | thereOther
        · exact absurd makesToo unbornMakes
        · exact fair.listed.oneMaker first second now otherNow child there thereOther makes
            makesToo
    · intro first second now otherNow here hereOther same
      rcases old here with ⟨isNew, rfl⟩ | there
      · rcases old hereOther with ⟨isNewToo, rfl⟩ | thereOther
        · rw [isNew, isNewToo]
        · exact absurd same.symm (unused second otherNow thereOther).1
      · rcases old hereOther with ⟨_, rfl⟩ | thereOther
        · exact absurd same (unused first now there).1
        · exact fair.listed.apart first second now otherNow there thereOther same
    · intro task now here
      rcases old here with ⟨_, rfl⟩ | there
      · exact positive
      · exact fair.listed.positive task now there
  · refine fair.delivers.congr ?_ ?_ ?_ ?_ ?_
    · intro task now here
      rcases old here with ⟨isNew, rfl⟩ | there
      · refine Or.inr ⟨Nat.le_of_eq isNew.symm, rfl, rfl, by simp, ?_⟩
        intro other otherNow goal thereOther
        exact (unused other otherNow thereOther).2 goal
      · exact Or.inl ⟨now, there, Alike.refl now⟩
    · intro task was there _
      exact ⟨was, kept there, Alike.refl was⟩
    · exact Nat.le_succ _
    · rfl
    · rfl
  · intro other now here makes
    rcases old here with ⟨_, rfl⟩ | there
    · exact unbornMakes makes
    · obtain ⟨made, madeThere, _⟩ := fair.listed.child other now _ there makes
      exact Arena.ne_next madeThere rfl

theorem World.Fair.adopt {task : Task} (fair : world.Fair)
    (present : world.tasks.get who = some task) (user : task.control = .user)
    (live : task.state ≠ .terminated) (orphan : world.Orphan child)
    : (world.modify who (fun task => { task with control := .creating child })).Fair := by
  have only {was : Task} (there : world.tasks.get who = some was) : was = task :=
    Option.some.inj (there.symm.trans present)
  refine ⟨fair.listed.modify (fun _ _ => rfl) ?_ ?_, fair.delivers.modify ?_⟩
  · intro was there
    obtain rfl := only there
    simp [user]
  · intro was other _ makes
    rcases makes with same | ⟨head, same⟩
    · obtain rfl : child = other := by simpa using same
      exact ⟨orphan.1, fun maker now _ here => orphan.2 maker now here⟩
    · cases same
  · intro was there
    obtain rfl := only there
    refine alike_of_quiet (not_waits_of_user user) ?_ rfl rfl rfl live live (by simp)
    rintro ⟨target, goal, same⟩
    cases same

theorem World.Fair.alloc {who : Nat} {room : Bool} (fair : world.Fair)
    (unused : world.Allocates who room → world.Unused room)
    : (world.step (.alloc who room)).Fair := by
  by_cases allocates : world.Allocates who room
  · obtain ⟨nothing, fresh⟩ := unused allocates
    obtain ⟨⟨task, acts, user⟩, allocated⟩ := allocates
    obtain ⟨present, runs⟩ := World.acting_some acts
    have sameWorld : taskAllocTask world room = (room, world) := by
      simp only [taskAllocTask, nothing]
    rw [sameWorld] at allocated fresh
    obtain rfl : room = true := allocated
    have positive : 1 ≤ taskAllocPid world :=
      (lowestFree_spec world.pids world.pids.length 1).1
    simp only [World.step, acts, if_pos user, taskAllocCommon, sameWorld] at fresh ⊢
    obtain ⟨added, orphan⟩ := fair.add positive fresh
    exact added.adopt (Arena.get_alloc_of_some present) user (not_terminated_of_runs runs).1
      orphan
  · simp only [World.step]
    split
    · rename_i task acts
      split
      · rename_i user
        have notAllocated : (taskAllocTask world room).1 ≠ true :=
          fun allocated => allocates ⟨⟨task, acts, user⟩, allocated⟩
        simp only [taskAllocCommon]
        cases search : recycled world with
        | some old => simp [taskAllocTask, search] at notAllocated
        | none =>
            simp only [taskAllocTask, search] at notAllocated ⊢
            obtain rfl : room = false := by simpa using notAllocated
            exact fair
      · exact fair
    · exact fair

end Steps

end Panuti.Process
