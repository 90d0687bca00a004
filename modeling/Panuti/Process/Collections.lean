import Panuti.Process.Waits

/-! The steps that deliver: a `WAIT` that blocks or returns, and an exit that wakes its
waiters.
-/

namespace Panuti.Process

open Panuti.Kernel (TaskState)

section Steps

variable {world : World}

-- Waiting

variable {task : Task}

theorem World.Delivers.woken (delivers : world.Delivers) {who target goal : Nat}
    (present : world.tasks.get who = some task) (waiting : task.control = .waiting target goal)
    (awake : task.state ≠ .blocked)
    : (∃ found, world.tasks.get goal = some found
        ∧ found.pid = target
        ∧ found.state = .terminated
        ∧ ∃ exit ∈ world.exits, exit.task = goal ∧ who ∈ exit.waiters)
      ∨ (world.tasks.get goal = none
        ∧ world.Collected goal
        ∧ ∀ other found, world.tasks.get other = some found → found.pid ≠ target) := by
  rcases delivers.awaits who task target goal present waiting with
    ⟨_, _, _, _, _, blocked, _⟩ | ⟨found, here, pid, ended, _, exit⟩
    | ⟨gone, collected, _, noPid⟩
  · exact absurd blocked awake
  · exact Or.inl ⟨found, here, pid, ended, exit⟩
  · exact Or.inr ⟨gone, collected, noPid⟩

/-- A `WAIT` returns: with the code of a task that is freed, or without one. -/
theorem World.Delivers.answered {after : World} {who target : Nat} {goal : Option Nat}
    {collected : Option (Nat × Nat)} (delivers : world.Delivers) (listed : world.Listed)
    (present : world.tasks.get who = some task) (live : task.state ≠ .terminated)
    (gets
      : ∀ other now, after.tasks.get other = some now
        ↔ (∀ code, collected ≠ some (other, code))
          ∧ (other = who ∧ now = { task with pidWaitingOn := 0, control := .user }
            ∨ other ≠ who ∧ world.tasks.get other = some now))
    (next : after.tasks.next = world.tasks.next) (exits : after.exits = world.exits)
    (answers : after.answers = world.answers ++ [⟨who, target, goal, collected⟩])
    (goals : ∀ waited other, task.control = .waiting waited other → goal = some other)
    (missed
      : ∀ waited, goal = some waited
        → world.Collected waited ∨ ∃ code, collected = some (waited, code))
    (right
      : ∀ other code, collected = some (other, code)
        → ∃ now, world.tasks.get other = some now
          ∧ now.state = .terminated
          ∧ now.exitCode = code
          ∧ now.pid = target
          ∧ (goal = none ∨ goal = some other)
          ∧ ∀ exit ∈ world.exits, exit.task = other → exit.waiters = [] ∨ who ∈ exit.waiters)
    : after.Delivers := by
  have old {other : Nat} {now : Task} (here : after.tasks.get other = some now)
      : (other = who ∧ now = { task with pidWaitingOn := 0, control := .user })
        ∨ other ≠ who ∧ world.tasks.get other = some now := ((gets other now).mp here).2
  have stillNone {other : Nat} (absent : world.tasks.get other = none)
      : after.tasks.get other = none := by
    cases here : after.tasks.get other with
    | none => rfl
    | some now =>
        rcases old here with ⟨rfl, _⟩ | ⟨_, there⟩
        · rw [present] at absent
          cases absent
        · rw [absent] at there
          cases there
  have freed {other code : Nat} (isCollected : collected = some (other, code))
      : after.tasks.get other = none := by
    cases here : after.tasks.get other with
    | none => rfl
    | some now => exact absurd isCollected (((gets other now).mp here).1 code)
  have answerNew : (⟨who, target, goal, collected⟩ : Answer) ∈ after.answers := by
    rw [answers]
    exact List.mem_append_right _ (List.mem_singleton_self _)
  have answerOld {answer : Answer} (member : answer ∈ world.answers)
      : answer ∈ after.answers := by
    rw [answers]
    exact List.mem_append_left _ member
  have answerCases {answer : Answer} (member : answer ∈ after.answers)
      : answer ∈ world.answers ∨ answer = ⟨who, target, goal, collected⟩ := by
    rw [answers, List.mem_append, List.mem_singleton] at member
    exact member
  have moreCollected {other : Nat} (was : world.Collected other) : after.Collected other := by
    obtain ⟨answer, member, code, same⟩ := was
    exact ⟨answer, answerOld member, code, same⟩
  have newCollected {other code : Nat} (isCollected : collected = some (other, code))
      : after.Collected other := ⟨_, answerNew, code, isCollected⟩
  have notWho {other code : Nat} (isCollected : collected = some (other, code))
      : other ≠ who := by
    rintro rfl
    obtain ⟨now, there, ended, _⟩ := right other code isCollected
    obtain rfl : task = now := Option.some.inj (present.symm.trans there)
    exact live ended
  constructor
  · intro other now here quiet
    rcases old here with ⟨_, rfl⟩ | ⟨_, there⟩
    · rfl
    · exact delivers.quiet other now there quiet
  · intro other now here ended
    rw [exits]
    rcases old here with ⟨_, rfl⟩ | ⟨_, there⟩
    · exact absurd ended live
    · exact delivers.ended other now there ended
  · intro other now waited waitedFor here waiting
    rcases old here with ⟨_, rfl⟩ | ⟨_, there⟩
    · cases waiting
    · rcases delivers.awaits other now waited waitedFor there waiting with
        ⟨found, foundThere, pid, born, runs, blocked⟩
        | ⟨found, foundThere, pid, ended, awake, woken⟩
        | ⟨gone, isCollected, awake, noPid⟩
      · left
        have notFreed (code : Nat) : collected ≠ some (waitedFor, code) := by
          intro same
          obtain ⟨found', there', ended', _⟩ := right waitedFor code same
          obtain rfl : found = found' := Option.some.inj (foundThere.symm.trans there')
          exact runs ended'
        by_cases isWho : waitedFor = who
        · subst isWho
          obtain rfl : task = found := Option.some.inj (present.symm.trans foundThere)
          exact ⟨_, (gets _ _).mpr ⟨notFreed, Or.inl ⟨rfl, rfl⟩⟩, pid, by simp, live, blocked⟩
        · exact ⟨found, (gets _ _).mpr ⟨notFreed, Or.inr ⟨isWho, foundThere⟩⟩, pid, born, runs,
            blocked⟩
      · right
        have isNotWho : waitedFor ≠ who := by
          rintro rfl
          obtain rfl : task = found := Option.some.inj (present.symm.trans foundThere)
          exact live ended
        by_cases isFreed : ∃ code, collected = some (waitedFor, code)
        · obtain ⟨code, same⟩ := isFreed
          refine Or.inr ⟨freed same, newCollected same, awake, ?_⟩
          intro third thirdNow thirdHere samePid
          rcases old thirdHere with ⟨rfl, rfl⟩ | ⟨_, thirdThere⟩
          · exact isNotWho
              (listed.apart waitedFor third found task foundThere present (pid.trans samePid.symm))
          · have isThird := listed.apart third waitedFor thirdNow found thirdThere foundThere
              (samePid.trans pid.symm)
            rw [isThird, freed same] at thirdHere
            cases thirdHere
        · refine Or.inl ⟨found, (gets _ _).mpr ⟨?_, Or.inr ⟨isNotWho, foundThere⟩⟩, pid, ended,
            awake, ?_⟩
          · intro code same
            exact isFreed ⟨code, same⟩
          · rw [exits]
            exact woken
      · refine Or.inr (Or.inr ⟨stillNone gone, moreCollected isCollected, awake, ?_⟩)
        intro third thirdNow thirdHere
        rcases old thirdHere with ⟨rfl, rfl⟩ | ⟨_, thirdThere⟩
        · exact noPid third task present
        · exact noPid third thirdNow thirdThere
  · intro exit member
    rw [exits] at member
    rcases delivers.exits exit member with ⟨now, there, ended, same⟩ | ⟨gone, isCollected⟩
    · by_cases isFreed : ∃ code, collected = some (exit.task, code)
      · obtain ⟨code, isCollected⟩ := isFreed
        exact Or.inr ⟨freed isCollected, newCollected isCollected⟩
      · refine Or.inl ⟨now, (gets _ _).mpr ⟨?_, Or.inr ⟨?_, there⟩⟩, ended, same⟩
        · intro code isCollected
          exact isFreed ⟨code, isCollected⟩
        · rintro isWho
          rw [isWho, present] at there
          obtain rfl := Option.some.inj there
          exact live ended
    · exact Or.inr ⟨stillNone gone, moreCollected isCollected⟩
  · rw [exits]
    exact delivers.exitOnce
  · intro answer member other code same
    rw [exits, next]
    rcases answerCases member with inOld | rfl
    · obtain ⟨gone, rest⟩ := delivers.collected answer inOld other code same
      exact ⟨stillNone gone, rest⟩
    · obtain ⟨now, there, ended, isCode, pid, isGoal, woken⟩ := right other code same
      obtain ⟨_, exit, inExits, isTask, samePid, sameCode⟩ := delivers.ended other now there ended
      exact ⟨freed same, Arena.lt_next there, isGoal, exit, inExits, isTask,
        sameCode.trans isCode, samePid.trans pid, woken exit inExits isTask⟩
  · intro answer member waited same
    rcases answerCases member with inOld | rfl
    · exact moreCollected (delivers.missed answer inOld waited same)
    · rcases missed waited same with was | ⟨code, isCollected⟩
      · exact moreCollected was
      · exact newCollected isCollected
  · rw [World.collections, answers, List.filterMap_append]
    cases shape : collected with
    | none =>
        simpa [World.collections] using delivers.once
    | some result =>
        obtain ⟨other, code⟩ := result
        have new : other ∉ world.collections := by
          intro member
          obtain ⟨answer, inAnswers, same⟩ := List.mem_filterMap.mp member
          obtain ⟨⟨_, otherCode⟩, isCollected, rfl⟩ := Option.map_eq_some_iff.mp same
          have gone := (delivers.collected answer inAnswers _ otherCode isCollected).1
          obtain ⟨now, there, _⟩ := right _ code shape
          rw [gone] at there
          cases there
        have added : (world.collections.concat other).Nodup :=
          List.nodup_concat _ _ |>.mpr ⟨new, delivers.once⟩
        simpa [World.collections, List.concat_eq_append] using added
  · intro exit member waiter woken
    rw [exits] at member
    rcases delivers.waiters exit member waiter woken with ⟨now, there, waiting⟩ | returned
    · by_cases isWho : waiter = who
      · subst isWho
        obtain rfl : task = now := Option.some.inj (present.symm.trans there)
        exact Or.inr ⟨_, answerNew, rfl, goals _ _ waiting⟩
      · refine Or.inl ⟨now, (gets _ _).mpr ⟨?_, Or.inr ⟨isWho, there⟩⟩, waiting⟩
        intro code same
        obtain ⟨other, otherThere, ended, _⟩ := right waiter code same
        obtain rfl : now = other := Option.some.inj (there.symm.trans otherThere)
        have user := (delivers.ended waiter now there ended).1
        rw [user] at waiting
        cases waiting
    · obtain ⟨answer, inAnswers, same⟩ := returned
      exact Or.inr ⟨answer, answerOld inAnswers, same⟩

theorem World.Listed.destroy {task : Nat} {now : Task} (listed : world.Listed)
    (present : world.tasks.get task = some now) (born : now.control ≠ .unborn)
    : (world.destroy task).Listed := by
  have old {other : Nat} {was : Task} (here : (world.destroy task).tasks.get other = some was)
      : other ≠ task ∧ world.tasks.get other = some was := Arena.get_free_eq_some.mp here
  constructor
  · intro other
    have member : other ∈ (world.destroy task).list ↔ other ≠ task ∧ other ∈ world.list :=
      listed.nodup.mem_erase_iff
    rw [member, listed.listed]
    constructor
    · rintro ⟨apart, was, there, isBorn⟩
      exact ⟨was, Arena.get_free_eq_some.mpr ⟨apart, there⟩, isBorn⟩
    · rintro ⟨was, here, isBorn⟩
      exact ⟨(old here).1, was, (old here).2, isBorn⟩
  · exact listed.nodup.erase task
  · intro maker was child here makes
    obtain ⟨made, there, unborn⟩ := listed.child maker was child (old here).2 makes
    refine ⟨made, Arena.get_free_eq_some.mpr ⟨?_, there⟩, unborn⟩
    rintro rfl
    obtain rfl : now = made := Option.some.inj (present.symm.trans there)
    exact born unborn
  · intro first second was otherWas child here hereOther
    exact listed.oneMaker first second was otherWas child (old here).2 (old hereOther).2
  · intro first second was otherWas here hereOther
    exact listed.apart first second was otherWas (old here).2 (old hereOther).2
  · intro other was here
    exact listed.positive other was (old here).2

theorem World.answer_get {answer : Answer} {now : Task} {other : Nat}
    (present : world.tasks.get answer.waiter = some task)
    : (world.answer answer).tasks.get other = some now
      ↔ other = answer.waiter ∧ now = { task with pidWaitingOn := 0, control := .user }
        ∨ other ≠ answer.waiter ∧ world.tasks.get other = some now := by
  by_cases isWaiter : other = answer.waiter
  · subst isWaiter
    simp [World.answer, World.modify, present, eq_comm]
  · have unchanged : (world.answer answer).tasks.get other = world.tasks.get other :=
      Arena.get_modify_of_ne isWaiter
    rw [unchanged]
    simp [isWaiter]

/-- The loop of `syshandler_wait` begins, or the task in it was woken. -/
def World.MayPass (world : World) (target : Nat) (goal : Option Nat) (task : Task) : Prop :=
  (task.control = .user ∧ goal = none ∧ target ≠ task.pid
    ∧ ∀ found foundNow, world.find target = some found
      → world.tasks.get found = some foundNow
      → foundNow.state = .terminated
      → ∀ other now, world.tasks.get other = some now → now.control ≠ .waiting target found)
  ∨ ∃ waited, task.control = .waiting target waited ∧ goal = some waited

section MayPass

variable {who target : Nat} {goal : Option Nat} {task : Task}

theorem World.MayPass.born (may : world.MayPass target goal task) : task.control ≠ .unborn := by
  rcases may with ⟨user, _⟩ | ⟨waited, waiting, _⟩
  · simp [user]
  · simp [waiting]

theorem World.MayPass.goal_of_waiting {waited other : Nat}
    (may : world.MayPass target goal task) (waiting : task.control = .waiting waited other)
    : goal = some other := by
  rcases may with ⟨user, _⟩ | ⟨wanted, waitingToo, isGoal⟩
  · rw [user] at waiting
    cases waiting
  · rw [waitingToo] at waiting
    cases waiting
    exact isGoal

theorem World.MayPass.goal_found {found waited : Nat} (may : world.MayPass target goal task)
    (fair : world.Fair) (present : world.tasks.get who = some task)
    (awake : task.state ≠ .blocked) (search : world.find target = some found)
    (isGoal : goal = some waited)
    : waited = found := by
  obtain ⟨_, foundNow, there, pid⟩ := World.find_spec search
  have waiting : task.control = .waiting target waited := by
    rcases may with ⟨_, noGoal, _⟩ | ⟨wanted, waiting, hasGoal⟩
    · rw [noGoal] at isGoal
      cases isGoal
    · rw [waiting, Option.some.inj (hasGoal.symm.trans isGoal)]
  rcases fair.delivers.woken present waiting awake with
    ⟨other, otherThere, otherPid, _⟩ | ⟨_, _, noPid⟩
  · exact fair.listed.apart waited found other foundNow otherThere there
      (otherPid.trans pid.symm)
  · exact absurd pid (noPid found foundNow there)

end MayPass

theorem World.Delivers.exit_unique {exit other : Exit} (delivers : world.Delivers)
    (member : exit ∈ world.exits) (memberToo : other ∈ world.exits)
    (same : exit.task = other.task)
    : exit = other :=
  List.inj_on_of_nodup_map delivers.exitOnce member memberToo same

theorem World.Delivers.pid_of_exit {exit : Exit} {task : Nat} {now : Task}
    (delivers : world.Delivers) (member : exit ∈ world.exits) (isTask : exit.task = task)
    (present : world.tasks.get task = some now)
    : now.pid = exit.pid := by
  rcases delivers.exits exit member with ⟨was, there, _, pid, _⟩ | ⟨gone, _⟩
  · rw [isTask] at there
    obtain rfl : now = was := Option.some.inj (present.symm.trans there)
    exact pid
  · rw [isTask, present] at gone
    cases gone

theorem World.Listed.answer {answer : Answer} (listed : world.Listed)
    (present : world.tasks.get answer.waiter = some task) (born : task.control ≠ .unborn)
    : (world.answer answer).Listed := by
  have modified : (world.modify answer.waiter (fun task =>
      { task with pidWaitingOn := 0, control := .user })).Listed := by
    apply listed.modify
    · intro was _
      rfl
    · intro was there
      obtain rfl : task = was := Option.some.inj (present.symm.trans there)
      simp [born]
    · intro was child _ makes
      exact absurd makes not_makes_user
  exact ⟨modified.listed, modified.nodup, modified.child, modified.oneMaker, modified.apart,
    modified.positive⟩

variable {who target : Nat} {goal : Option Nat}

/-- `WAIT` finds nobody under the PID. -/
theorem World.Fair.missed (fair : world.Fair) (present : world.tasks.get who = some task)
    (awake : task.state ≠ .terminated ∧ task.state ≠ .blocked)
    (may : world.MayPass target goal task) (nobody : world.find target = none)
    : (world.answer ⟨who, target, goal, none⟩).Fair := by
  refine ⟨fair.listed.answer present may.born, ?_⟩
  refine fair.delivers.answered fair.listed present awake.1 ?_ rfl rfl rfl ?_ ?_ ?_
  · intro other now
    rw [World.answer_get present]
    simp
  · intro waited other waiting
    exact may.goal_of_waiting waiting
  · intro waited isGoal
    rcases may with ⟨_, noGoal, _⟩ | ⟨wanted, waiting, hasGoal⟩
    · rw [noGoal] at isGoal
      cases isGoal
    · obtain rfl : wanted = waited := Option.some.inj (hasGoal.symm.trans isGoal)
      left
      rcases fair.delivers.woken present waiting awake.2 with
        ⟨found, there, pid, ended, _⟩ | ⟨_, collected, _⟩
      · have user := (fair.delivers.ended wanted found there ended).1
        have isFound := fair.listed.find_some there (by simp [user])
        rw [pid, nobody] at isFound
        cases isFound
      · exact collected
  · intro other code same
    cases same

/-- `WAIT` finds a terminated task under the PID. -/
theorem World.Fair.collects {found : Nat} {foundNow : Task} (fair : world.Fair)
    (present : world.tasks.get who = some task)
    (awake : task.state ≠ .terminated ∧ task.state ≠ .blocked)
    (may : world.MayPass target goal task) (search : world.find target = some found)
    (there : world.tasks.get found = some foundNow) (ended : foundNow.state = .terminated)
    : ((world.answer ⟨who, target, goal, some (found, foundNow.exitCode)⟩).destroy found).Fair := by
  obtain ⟨_, named, thereNamed, pid⟩ := World.find_spec search
  obtain rfl : foundNow = named := Option.some.inj (there.symm.trans thereNamed)
  have foundUser := (fair.delivers.ended found foundNow there ended).1
  have apart : found ≠ who := by
    rintro rfl
    obtain rfl : task = foundNow := Option.some.inj (present.symm.trans there)
    exact awake.1 ended
  have answered : (world.answer ⟨who, target, goal, some (found, foundNow.exitCode)⟩).tasks.get
      found = some foundNow := (World.answer_get present).mpr (Or.inr ⟨apart, there⟩)
  refine ⟨(fair.listed.answer present may.born).destroy answered (by simp [foundUser]), ?_⟩
  refine fair.delivers.answered fair.listed present awake.1 ?_ rfl rfl rfl ?_ ?_ ?_
  · intro other now
    have split : ((world.answer ⟨who, target, goal, some (found, foundNow.exitCode)⟩).destroy
        found).tasks.get other = some now
          ↔ other ≠ found ∧ (world.answer
            ⟨who, target, goal, some (found, foundNow.exitCode)⟩).tasks.get other = some now :=
      Arena.get_free_eq_some
    rw [split, World.answer_get present]
    simp [eq_comm]
  · intro waited other waiting
    exact may.goal_of_waiting waiting
  · intro waited isGoal
    right
    rw [may.goal_found fair present awake.2 search isGoal]
    exact ⟨_, rfl⟩
  · intro other code same
    obtain ⟨rfl, rfl⟩ : found = other ∧ foundNow.exitCode = code := by simpa using same
    refine ⟨foundNow, there, ended, rfl, pid, ?_, ?_⟩
    · cases goal with
      | none => exact Or.inl rfl
      | some waited =>
          right
          rw [may.goal_found fair present awake.2 search rfl]
    · intro exit member isFound
      rcases may with ⟨_, _, _, noWaiter⟩ | ⟨waited, waiting, isGoal⟩
      · left
        apply List.eq_nil_iff_forall_not_mem.mpr
        intro waiter woken
        rcases fair.delivers.waiters exit member waiter woken with
          ⟨now, here, waits⟩ | ⟨answer, inAnswers, _, hasGoal⟩
        · have samePid := fair.delivers.pid_of_exit member isFound there
          rw [isFound, ← samePid, pid] at waits
          exact noWaiter found foundNow search there ended waiter now here waits
        · rw [isFound] at hasGoal
          obtain ⟨earlier, inEarlier, code, isCollected⟩ :=
            fair.delivers.missed answer inAnswers found hasGoal
          have gone := (fair.delivers.collected earlier inEarlier found code isCollected).1
          rw [there] at gone
          cases gone
      · right
        have isWaited := World.MayPass.goal_found (Or.inr ⟨waited, waiting, isGoal⟩) fair present
          awake.2 search isGoal
        rcases fair.delivers.woken present waiting awake.2 with
          ⟨_, _, _, _, other, inExits, isTask, woken⟩ | ⟨gone, _, _⟩
        · have sameExit : exit = other := fair.delivers.exit_unique member inExits
            (isFound.trans (isWaited.symm.trans isTask.symm))
          rw [sameExit]
          exact woken
        · rw [isWaited, there] at gone
          cases gone

/-- `WAIT` finds a running task under the PID, and blocks. -/
theorem World.Fair.waits {found : Nat} {foundNow : Task} (fair : world.Fair)
    (present : world.tasks.get who = some task) (live : task.state ≠ .terminated)
    (user : task.control = .user) (notSelf : target ≠ task.pid)
    (search : world.find target = some found) (there : world.tasks.get found = some foundNow)
    (runs : foundNow.state ≠ .terminated)
    : (world.modify who (fun task =>
        { task with
          state := .blocked
          pidWaitingOn := target
          control := .waiting target found })).Fair := by
  obtain ⟨inList, named, thereNamed, pid⟩ := World.find_spec search
  obtain rfl : foundNow = named := Option.some.inj (there.symm.trans thereNamed)
  have foundBorn : foundNow.control ≠ .unborn := by
    obtain ⟨now, here, born⟩ := (fair.listed.listed found).mp inList
    obtain rfl : foundNow = now := Option.some.inj (there.symm.trans here)
    exact born
  have apart : found ≠ who := by
    rintro rfl
    obtain rfl : task = foundNow := Option.some.inj (present.symm.trans there)
    exact notSelf pid.symm
  have only {was : Task} (here : world.tasks.get who = some was) : was = task :=
    Option.some.inj (here.symm.trans present)
  let after := world.modify who (fun task =>
    { task with
      state := .blocked
      pidWaitingOn := target
      control := .waiting target found })
  have old {other : Nat} {now : Task} (here : after.tasks.get other = some now)
      : (other = who ∧ now = { task with
          state := .blocked
          pidWaitingOn := target
          control := .waiting target found })
        ∨ other ≠ who ∧ world.tasks.get other = some now := by
    obtain ⟨was, wasThere, rfl⟩ := Arena.get_modify_eq_some here
    split
    · rename_i isWho
      rw [isWho] at wasThere
      exact Or.inl ⟨isWho, by rw [only wasThere]⟩
    · rename_i isNot
      exact Or.inr ⟨isNot, wasThere⟩
  have keptWho : after.tasks.get who
      = some { task with
          state := .blocked
          pidWaitingOn := target
          control := .waiting target found } := by
    simp [after, World.modify, present]
  have kept {other : Nat} (isNot : other ≠ who)
      : after.tasks.get other = world.tasks.get other :=
    Arena.get_modify_of_ne isNot
  have keptNone {other : Nat} (gone : world.tasks.get other = none)
      : after.tasks.get other = none := by
    rw [kept, gone]
    rintro rfl
    rw [present] at gone
    cases gone
  constructor
  · apply fair.listed.modify
    · intro was _
      rfl
    · intro was here
      simp [only here, user]
    · intro was child _ makes
      rcases makes with same | ⟨head, same⟩
      · cases same
      · cases same
  · constructor
    · intro other now here quiet
      rcases old here with ⟨_, rfl⟩ | ⟨_, wasThere⟩
      · exact absurd ⟨target, found, rfl⟩ quiet
      · exact fair.delivers.quiet other now wasThere quiet
    · intro other now here ended
      rcases old here with ⟨_, rfl⟩ | ⟨_, wasThere⟩
      · cases ended
      · exact fair.delivers.ended other now wasThere ended
    · intro other now waited goal here waiting
      rcases old here with ⟨_, rfl⟩ | ⟨_, wasThere⟩
      · cases waiting
        exact Or.inl ⟨foundNow, (kept apart).trans there, pid, foundBorn, runs, rfl, rfl⟩
      · rcases fair.delivers.awaits other now waited goal wasThere waiting with
          ⟨goalNow, goalThere, goalPid, born, goalRuns, blocked⟩
          | ⟨goalNow, goalThere, goalPid, ended, awake, woken⟩
          | ⟨gone, isCollected, awake, noPid⟩
        · left
          by_cases isWho : goal = who
          · subst isWho
            obtain rfl := only goalThere
            exact ⟨_, keptWho, goalPid, by simp, by simp, blocked⟩
          · exact ⟨goalNow, (kept isWho).trans goalThere, goalPid, born, goalRuns, blocked⟩
        · refine Or.inr (Or.inl ⟨goalNow, (kept ?_).trans goalThere, goalPid, ended, awake,
            woken⟩)
          rintro rfl
          obtain rfl := only goalThere
          exact live ended
        · refine Or.inr (Or.inr ⟨keptNone gone, isCollected, awake, ?_⟩)
          intro third thirdNow thirdHere
          rcases old thirdHere with ⟨_, rfl⟩ | ⟨_, thirdThere⟩
          · exact noPid who task present
          · exact noPid third thirdNow thirdThere
    · intro exit member
      rcases fair.delivers.exits exit member with ⟨now, wasThere, ended, same⟩ | ⟨gone, rest⟩
      · refine Or.inl ⟨now, (kept ?_).trans wasThere, ended, same⟩
        rintro isWho
        rw [isWho] at wasThere
        obtain rfl := only wasThere
        exact live ended
      · exact Or.inr ⟨keptNone gone, rest⟩
    · exact fair.delivers.exitOnce
    · intro answer member other code same
      obtain ⟨gone, rest⟩ := fair.delivers.collected answer member other code same
      exact ⟨keptNone gone, rest⟩
    · exact fair.delivers.missed
    · exact fair.delivers.once
    · intro exit member waiter woken
      rcases fair.delivers.waiters exit member waiter woken with ⟨now, here, waiting⟩ | returned
      · refine Or.inl ⟨now, (kept ?_).trans here, waiting⟩
        rintro rfl
        rw [only here, user] at waiting
        cases waiting
      · exact Or.inr returned

/-- One pass of the loop of `syshandler_wait`. -/
theorem World.Fair.waitPass (fair : world.Fair) (present : world.tasks.get who = some task)
    (awake : task.state ≠ .terminated ∧ task.state ≠ .blocked)
    (may : world.MayPass target goal task)
    : (waitPass world who target goal).Fair := by
  unfold Process.waitPass
  split
  · rename_i nobody
    exact fair.missed present awake may nobody
  · rename_i found search
    split
    · exact fair
    · rename_i foundNow there
      split
      · rename_i ended
        exact fair.collects present awake may search there ended
      · rename_i runs
        rcases may with ⟨user, noGoal, notSelf, _⟩ | ⟨waited, waiting, isGoal⟩
        · rw [noGoal]
          exact fair.waits present awake.1 user notSelf search there runs
        · have isFound := World.MayPass.goal_found (Or.inr ⟨waited, waiting, isGoal⟩) fair present
            awake.2 search isGoal
          rcases fair.delivers.woken present waiting awake.2 with
            ⟨other, otherThere, _, ended, _⟩ | ⟨gone, _, _⟩
          · rw [isFound] at otherThere
            obtain rfl : foundNow = other := Option.some.inj (there.symm.trans otherThere)
            exact absurd ended runs
          · rw [isFound, there] at gone
            cases gone

-- Exit

/-- What `task_wake_waiters` does to a task. -/
def Task.woken (pid : Nat) (task : Task) : Task :=
  if task.state = .blocked ∧ task.pidWaitingOn = pid then
    { task with state := .ready, pidWaitingOn := 0 }
  else task

theorem Task.woken_same (pid : Nat) (task : Task)
    : (task.woken pid).pid = task.pid
      ∧ (task.woken pid).exitCode = task.exitCode
      ∧ (task.woken pid).control = task.control
      ∧ ((task.woken pid).state = .terminated ↔ task.state = .terminated) := by
  unfold Task.woken
  split
  · rename_i both
    simp [both.1]
  · simp

theorem Task.woken_idem {pid : Nat} : (task.woken pid).woken pid = task.woken pid := by
  unfold Task.woken
  split <;> simp_all

theorem wakeAll_get (pid : Nat) (tasks : List Nat) (start : World) (task : Nat)
    : (tasks.foldl (fun world task => world.modify task (Task.woken pid)) start).tasks.get task
      = if task ∈ tasks then (start.tasks.get task).map (Task.woken pid)
        else start.tasks.get task := by
  induction tasks generalizing start with
  | nil => simp
  | cons first rest ih =>
      rw [List.foldl_cons, ih]
      by_cases isFirst : task = first
      · subst isFirst
        have idem : Task.woken pid ∘ Task.woken pid = Task.woken pid := by
          funext other
          exact Task.woken_idem
        simp [World.modify, Option.map_map, idem]
      · have unchanged : (start.modify first (Task.woken pid)).tasks.get task
            = start.tasks.get task := Arena.get_modify_of_ne isFirst
        rw [unchanged]
        simp [isFirst]

theorem wakeAll_same (pid : Nat) (tasks : List Nat) (start : World)
    : ∃ woken, tasks.foldl (fun world task => world.modify task (Task.woken pid)) start
        = { start with tasks := woken }
      ∧ woken.next = start.tasks.next := by
  induction tasks generalizing start with
  | nil => exact ⟨start.tasks, rfl, rfl⟩
  | cons first rest ih => exact ih (start.modify first (Task.woken pid))

theorem World.Listed.wakeAll (pid : Nat) (tasks : List Nat) (listed : world.Listed)
    : (tasks.foldl (fun world task => world.modify task (Task.woken pid)) world).Listed := by
  induction tasks generalizing world with
  | nil => exact listed
  | cons first rest ih =>
      apply ih
      apply listed.modify
      · intro was _
        exact (Task.woken_same _ _).1
      · intro was _
        rw [(Task.woken_same _ _).2.2.1]
      · intro was child there makes
        rw [(Task.woken_same _ _).2.2.1] at makes
        exact listed.madeBy there makes

section Exits

variable {who : Nat} {task : Task}

theorem woken_of_quiet {pid : Nat} {now : Task} (positive : 1 ≤ pid) (quiet : now.pidWaitingOn = 0)
    : now.woken pid = now := by
  rw [Task.woken, if_neg]
  rintro ⟨_, same⟩
  omega

/-- An exit ends one task and wakes those that wait for it. -/
theorem syshandlerExit_get (fair : world.Fair) (present : world.tasks.get who = some task)
    (code other : Nat) (now : Task)
    : (syshandlerExit world who task code).tasks.get other = some now
      ↔ other = who ∧ now = { task with state := .terminated, exitCode := code }
        ∨ other ≠ who ∧ ∃ was, world.tasks.get other = some was ∧ now = was.woken task.pid := by
  have positive := fair.listed.positive who task present
  have isFold : (syshandlerExit world who task code).tasks
      = (world.list.foldl (fun world other => world.modify other (Task.woken task.pid))
          (world.modify who (fun task =>
            { task with state := .terminated, exitCode := code }))).tasks := rfl
  rw [isFold, wakeAll_get]
  by_cases isWho : other = who
  · subst isWho
    have ends : ({ task with state := .terminated, exitCode := code } : Task).woken task.pid
        = { task with state := .terminated, exitCode := code } := by
      simp [Task.woken]
    simp [World.modify, present, ends, eq_comm]
  · have unchanged : (world.modify who (fun task =>
          { task with state := .terminated, exitCode := code })).tasks.get other
        = world.tasks.get other := Arena.get_modify_of_ne isWho
    rw [unchanged]
    simp only [isWho, false_and, not_false_eq_true, true_and, false_or, ne_eq]
    split
    · simp [eq_comm]
    · rename_i unlisted
      constructor
      · intro there
        refine ⟨now, there, (woken_of_quiet positive ?_).symm⟩
        apply fair.delivers.quiet other now there
        rintro ⟨target, goal, waiting⟩
        exact unlisted ((fair.listed.listed other).mpr ⟨now, there, by simp [waiting]⟩)
      · rintro ⟨was, there, rfl⟩
        rw [woken_of_quiet positive]
        · exact there
        · apply fair.delivers.quiet other was there
          rintro ⟨target, goal, waiting⟩
          exact unlisted ((fair.listed.listed other).mpr ⟨was, there, by simp [waiting]⟩)

variable {code : Nat}

theorem World.Fair.blockedOn (fair : world.Fair) (present : world.tasks.get who = some task)
    {waiter : Nat}
    (woken
      : waiter ∈ (world.modify who (fun task =>
          { task with state := .terminated, exitCode := code })).blockedOn task.pid)
    : waiter ≠ who
      ∧ ∃ now, world.tasks.get waiter = some now
        ∧ now.control = .waiting task.pid who := by
  obtain ⟨_, isBlocked⟩ := List.mem_filter.mp woken
  simp only [World.holds, Option.any_eq_true, decide_eq_true_eq] at isBlocked
  obtain ⟨now, here, blocked, waitsOn⟩ := isBlocked
  obtain ⟨was, there, rfl⟩ := Arena.get_modify_eq_some here
  split at blocked
  · cases blocked
  · rename_i apart
    rw [if_neg apart] at waitsOn
    refine ⟨apart, was, there, ?_⟩
    have waits : was.control.Waits := by
      by_contra quiet
      have nothing := fair.delivers.quiet waiter was there quiet
      have positive := fair.listed.positive who task present
      omega
    obtain ⟨target, goal, waiting⟩ := waits
    rcases fair.delivers.awaits waiter was target goal there waiting with
      ⟨found, foundThere, pid, _, _, _, onTarget⟩ | ⟨_, _, _, _, awake, _⟩ | ⟨_, _, awake, _⟩
    · have isPid : target = task.pid := onTarget.symm.trans waitsOn
      have isWho := fair.listed.apart goal who found task foundThere present (pid.trans isPid)
      rw [waiting, isPid, isWho]
    · exact absurd blocked awake
    · exact absurd blocked awake

theorem World.Fair.mem_blockedOn (fair : world.Fair) {waiter pid : Nat} {now : Task}
    (apart : waiter ≠ who) (present : world.tasks.get waiter = some now)
    (born : now.control ≠ .unborn) (blocked : now.state = .blocked) (onPid : now.pidWaitingOn = pid)
    : waiter ∈ (world.modify who (fun task =>
        { task with state := .terminated, exitCode := code })).blockedOn pid := by
  refine List.mem_filter.mpr ⟨(fair.listed.listed waiter).mpr ⟨now, present, born⟩, ?_⟩
  have unchanged : (world.modify who (fun task =>
        { task with state := .terminated, exitCode := code })).tasks.get waiter
      = world.tasks.get waiter := Arena.get_modify_of_ne apart
  rw [World.holds, unchanged, present]
  simp [blocked, onPid]

/-- `syshandler_exit`. -/
theorem World.Fair.exit (fair : world.Fair) (present : world.tasks.get who = some task)
    (live : task.state ≠ .terminated) (user : task.control = .user)
    : (syshandlerExit world who task code).Fair := by
  have gets := syshandlerExit_get fair present code
  obtain ⟨woken, isWoken, sameNext⟩ := wakeAll_same task.pid world.list
    (world.modify who (fun task => { task with state := .terminated, exitCode := code }))
  have ended : (world.modify who (fun task =>
      { task with state := .terminated, exitCode := code })).Listed := by
    apply fair.listed.modify
    · intro was _
      rfl
    · intro was _
      rfl
    · intro was child there makes
      exact fair.listed.madeBy there makes
  have listed := ended.wakeAll task.pid world.list
  have shape : syshandlerExit world who task code
      = { world with
          tasks := woken
          exits := world.exits ++ [⟨who, task.pid, code,
            (world.modify who (fun task =>
              { task with state := .terminated, exitCode := code })).blockedOn task.pid⟩] } := by
    have isFold : taskWakeWaiters
        (world.modify who (fun task => { task with state := .terminated, exitCode := code }))
        task.pid
      = world.list.foldl (fun world task' => world.modify task' (Task.woken task.pid))
        (world.modify who (fun task => { task with state := .terminated, exitCode := code })) :=
      rfl
    rw [syshandlerExit, isFold, isWoken]
    rfl
  rw [isWoken] at listed
  have only {was : Task} (there : world.tasks.get who = some was) : was = task :=
    Option.some.inj (there.symm.trans present)
  have stillCollected {other : Nat} (was : world.Collected other)
      : (syshandlerExit world who task code).Collected other := by
    rw [shape]
    exact was
  have exitNew : (⟨who, task.pid, code,
        (world.modify who (fun task =>
          { task with state := .terminated, exitCode := code })).blockedOn task.pid⟩ : Exit)
      ∈ (syshandlerExit world who task code).exits :=
    List.mem_append_right _ (List.mem_singleton_self _)
  have exitOld {exit : Exit} (member : exit ∈ world.exits)
      : exit ∈ (syshandlerExit world who task code).exits := List.mem_append_left _ member
  have exitCases {exit : Exit} (member : exit ∈ (syshandlerExit world who task code).exits)
      : exit ∈ world.exits ∨ exit = ⟨who, task.pid, code,
        (world.modify who (fun task =>
          { task with state := .terminated, exitCode := code })).blockedOn task.pid⟩ := by
    rcases List.mem_append.mp member with inOld | isNew
    · exact Or.inl inOld
    · exact Or.inr (List.mem_singleton.mp isNew)
  have whoHere : (syshandlerExit world who task code).tasks.get who
      = some { task with state := .terminated, exitCode := code } :=
    (gets who _).mpr (Or.inl ⟨rfl, rfl⟩)
  have kept {other : Nat} {was : Task} (apart : other ≠ who)
      (there : world.tasks.get other = some was)
      : (syshandlerExit world who task code).tasks.get other = some (was.woken task.pid) :=
    (gets other _).mpr (Or.inr ⟨apart, was, there, rfl⟩)
  have keptAwake {other : Nat} {was : Task} (apart : other ≠ who)
      (there : world.tasks.get other = some was) (awake : was.state ≠ .blocked)
      : (syshandlerExit world who task code).tasks.get other = some was := by
    rw [kept apart there, Task.woken, if_neg]
    rintro ⟨blocked, _⟩
    exact awake blocked
  have keptNone {other : Nat} (gone : world.tasks.get other = none)
      : (syshandlerExit world who task code).tasks.get other = none := by
    cases here : (syshandlerExit world who task code).tasks.get other with
    | none => rfl
    | some now =>
        rcases (gets other now).mp here with ⟨rfl, _⟩ | ⟨_, was, there, _⟩
        · rw [present] at gone
          cases gone
        · rw [gone] at there
          cases there
  constructor
  · rw [shape]
    exact ⟨listed.listed, listed.nodup, listed.child, listed.oneMaker, listed.apart,
      listed.positive⟩
  · constructor
    · intro other now here quiet
      rcases (gets other now).mp here with ⟨_, rfl⟩ | ⟨_, was, there, rfl⟩
      · exact fair.delivers.quiet who task present (by rw [user]; exact not_waits_of_user rfl)
      · rw [(Task.woken_same _ _).2.2.1] at quiet
        have nothing := fair.delivers.quiet other was there quiet
        rw [woken_of_quiet (fair.listed.positive who task present) nothing]
        exact nothing
    · intro other now here isEnded
      rcases (gets other now).mp here with ⟨isWho, rfl⟩ | ⟨_, was, there, rfl⟩
      · exact ⟨user, _, exitNew, isWho.symm, rfl, rfl⟩
      · obtain ⟨pid, exitCode, control, terminated⟩ :=
          Task.woken_same task.pid was
        obtain ⟨isUser, exit, member, same⟩ :=
          fair.delivers.ended other was there (terminated.mp isEnded)
        rw [control, pid, exitCode]
        exact ⟨isUser, exit, exitOld member, same⟩
    · intro other now target goal here waiting
      rcases (gets other now).mp here with ⟨_, rfl⟩ | ⟨apart, was, there, rfl⟩
      · have isWaiting : task.control = .waiting target goal := waiting
        rw [user] at isWaiting
        cases isWaiting
      · rw [(Task.woken_same _ _).2.2.1] at waiting
        rcases fair.delivers.awaits other was target goal there waiting with
          ⟨found, foundThere, pid, born, runs, blocked, onTarget⟩
          | ⟨found, foundThere, pid, isEnded, awake, exit, member, same⟩
          | ⟨gone, isCollected, awake, noPid⟩
        · by_cases isWho : goal = who
          · subst isWho
            obtain rfl := only foundThere
            refine Or.inr (Or.inl ⟨_, whoHere, pid, rfl, ?_, _, exitNew, rfl, ?_⟩)
            · rw [Task.woken, if_pos ⟨blocked, onTarget.trans pid.symm⟩]
              simp
            · exact fair.mem_blockedOn apart there (by simp [waiting]) blocked
                (onTarget.trans pid.symm)
          · have notTarget : target ≠ task.pid := fun same =>
              isWho (fair.listed.apart goal who found task foundThere present (pid.trans same))
            have untouched : was.woken task.pid = was := by
              rw [Task.woken, if_neg]
              rintro ⟨_, onPid⟩
              exact notTarget (onTarget.symm.trans onPid)
            obtain ⟨foundPid, _, foundControl, terminated⟩ :=
              Task.woken_same task.pid found
            rw [untouched]
            refine Or.inl ⟨_, kept isWho foundThere, foundPid.trans pid, ?_, ?_, blocked,
              onTarget⟩
            · rw [foundControl]
              exact born
            · rw [ne_eq, terminated]
              exact runs
        · have untouched : was.woken task.pid = was := by
            rw [Task.woken, if_neg]
            rintro ⟨blocked, _⟩
            exact awake blocked
          have notWho : goal ≠ who := by
            rintro rfl
            obtain rfl := only foundThere
            exact live isEnded
          rw [untouched]
          exact Or.inr (Or.inl ⟨found, keptAwake notWho foundThere (by simp [isEnded]), pid,
            isEnded, awake, exit, exitOld member, same⟩)
        · have untouched : was.woken task.pid = was := by
            rw [Task.woken, if_neg]
            rintro ⟨blocked, _⟩
            exact awake blocked
          rw [untouched]
          refine Or.inr (Or.inr ⟨keptNone gone, stillCollected isCollected, awake, ?_⟩)
          intro third thirdNow thirdHere
          rcases (gets third thirdNow).mp thirdHere with ⟨_, rfl⟩ | ⟨_, wasThird, thirdThere, rfl⟩
          · exact noPid who task present
          · rw [(Task.woken_same _ _).1]
            exact noPid third wasThird thirdThere
    · intro exit member
      rcases exitCases member with inOld | rfl
      · rcases fair.delivers.exits exit inOld with ⟨was, there, isEnded, same⟩ | ⟨gone, rest⟩
        · refine Or.inl ⟨was, keptAwake ?_ there (by simp [isEnded]), isEnded, same⟩
          intro isWho
          rw [isWho] at there
          obtain rfl := only there
          exact live isEnded
        · exact Or.inr ⟨keptNone gone, stillCollected rest⟩
      · exact Or.inl ⟨_, whoHere, rfl, rfl, rfl⟩
    · have exits : (syshandlerExit world who task code).exits.map Exit.task
          = (world.exits.map Exit.task).concat who := by
        rw [List.concat_eq_append]
        exact List.map_append
      rw [exits, List.nodup_concat]
      refine ⟨?_, fair.delivers.exitOnce⟩
      intro member
      obtain ⟨exit, inExits, isWho⟩ := List.mem_map.mp member
      rcases fair.delivers.exits exit inExits with ⟨was, there, isEnded, _⟩ | ⟨gone, _⟩
      · rw [isWho] at there
        obtain rfl := only there
        exact live isEnded
      · rw [isWho, present] at gone
        cases gone
    · intro answer member other isCode same
      have inOld : answer ∈ world.answers := by
        rw [shape] at member
        exact member
      obtain ⟨gone, below, goal, exit, inExits, rest⟩ :=
        fair.delivers.collected answer inOld other isCode same
      refine ⟨keptNone gone, ?_, goal, exit, exitOld inExits, rest⟩
      rw [shape]
      exact Nat.lt_of_lt_of_eq below sameNext.symm
    · rw [shape]
      exact fair.delivers.missed
    · rw [shape]
      exact fair.delivers.once
    · intro exit member waiter isWaiter
      rcases exitCases member with inOld | rfl
      · rcases fair.delivers.waiters exit inOld waiter isWaiter with
          ⟨was, there, waiting⟩ | returned
        · refine Or.inl ⟨_, kept ?_ there, (Task.woken_same _ _).2.2.1.trans waiting⟩
          rintro rfl
          rw [only there, user] at waiting
          cases waiting
        · right
          rw [shape]
          exact returned
      · obtain ⟨apart, was, there, waiting⟩ := fair.blockedOn present isWaiter
        exact Or.inl ⟨_, kept apart there, (Task.woken_same _ _).2.2.1.trans waiting⟩

end Exits

end Steps

end Panuti.Process
