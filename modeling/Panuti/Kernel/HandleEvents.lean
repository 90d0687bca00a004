import Mathlib.Data.List.InsertIdx
import Panuti.Kernel.Ownership

/-! The handle system calls as events of a system of tasks. Every event keeps the accounts of
handles and objects, if it drops no descriptor of an opened object that a stream shares.
-/

namespace Panuti.Kernel

-- Systems and their events

def Task.handles (task : Task) : List Handle :=
  openHandles task.fdtable ++ (task.inStreams ++ task.outStreams)

def fdsOf (tasks : List Task) : List Handle :=
  tasks.flatMap (fun task => openHandles task.fdtable)

def streamsOf (tasks : List Task) : List Handle :=
  tasks.flatMap (fun task => task.inStreams ++ task.outStreams)

/-- A system call of the task at `place`, with the answers of everything outside the handle
code.
-/
inductive Event where
  | open (place : Nat) (found : Option Resolved) (growth : Bool) (result : Except Errno Unit)
  | pipeCreate (place : Nat) (room : PipeRoom)
  | close (place fd : Nat)
  | procreate (place : Nat) (env : ProcreateEnv) (insFds outsFds : List Nat)
  | exit (place exitCode : Nat)
  | wait (place target : Nat)

def System.step (kernel : System) : Event → System
  | .open place found growth result => (syshandlerOpen kernel place found growth result).2
  | .pipeCreate place room => (pipeCreatePair kernel place room).2
  | .close place fd => (syshandlerClose kernel place fd).2
  | .procreate place env insFds outsFds => (taskProcreate kernel place env insFds outsFds).2
  | .exit place exitCode => syshandlerExit kernel place exitCode
  | .wait place target => (syshandlerWait kernel place target).2

/-- No inode of the registry is a pipe: pipes have no name. -/
def NoPipe (found : Option Resolved) : Prop :=
  ∀ resolved, found = some resolved → resolved.type ≠ .pipe

def Event.Admissible : Event → Prop
  | .open _ found _ _ => NoPipe found
  | .procreate _ env _ _ => NoPipe env.console ∧ NoPipe env.keyboard
  | _ => True

/-- No stream of another task has a copy of an opened object that the task at `place` holds
in a descriptor.
-/
def System.Separate (kernel : System) (place : Nat) : Prop :=
  ∀ task, kernel.tasks[place]? = some task
  → ∀ handle ∈ openHandles task.fdtable,
      Unshared (streamsOf (kernel.tasks.eraseIdx place)) handle

/-- The event drops no descriptor of an opened object while a stream has a copy of it:
neither by `close` nor by reaping or recycling a task.
-/
def Event.Unshared (kernel : System) : Event → Prop
  | .close place fd =>
      ∀ task handle, kernel.runnable place = some task
      → returnHslot task.fdtable fd = some handle
      → Kernel.Unshared (streamsOf kernel.tasks) handle
  | .procreate place env _ _ =>
      ∀ caller, kernel.runnable place = some caller
      → env.image = .ok ()
      → ∀ old, recycled kernel.tasks = some old → kernel.Separate old
  | .wait place target =>
      ∀ caller found task, kernel.runnable place = some caller
      → kernel.tasks.findIdx? (fun task => task.pid == target) = some found
      → kernel.tasks[found]? = some task
      → task.state = .terminated
      → kernel.Separate found
  | _ => True

/-- Some task holds the object: a descriptor or a stream refers to it, or, for a pipe, to
one of its ends.
-/
def System.Held (kernel : System) (object : Nat) : Prop :=
  ∃ task ∈ kernel.tasks, ∃ handle ∈ task.handles, ∃ target, handle.impl = some target
    ∧ (target = object ∨ ∃ write, (kernel.objects target).kind = .pipeEnd object write)

/-- No handle of a task refers to a released object, and every object is released exactly
once, when its last holder goes.
-/
structure System.Owned (kernel : System) : Prop where
  alive
    : ∀ task ∈ kernel.tasks, ∀ handle ∈ task.handles, ∀ object,
        handle.impl = some object → (kernel.objects object).releases = 0
  kept : ∀ object < kernel.created, kernel.Held object → (kernel.objects object).releases = 0
  released
    : ∀ object < kernel.created,
        ¬kernel.Held object → (kernel.objects object).releases = 1

/-- The invariant of a run: the accounts of all tasks agree with the objects. -/
def System.Accounted (kernel : System) : Prop :=
  Accounts kernel.objects kernel.created (fdsOf kernel.tasks) (streamsOf kernel.tasks)

-- Accounts give ownership

variable {tasks front back : List Task} {handle : Handle} {task : Task} {kernel : System}
    {place : Nat} {room : Bool} {found : Option Resolved}

theorem mem_fdsOf : handle ∈ fdsOf tasks ↔ ∃ task ∈ tasks, handle ∈ openHandles task.fdtable := by
  simp [fdsOf]

theorem mem_streamsOf
    : handle ∈ streamsOf tasks
      ↔ ∃ task ∈ tasks, handle ∈ task.inStreams ++ task.outStreams := by
  simp [streamsOf]

theorem liveEnds_pos {objects : Objects} {pipe : Nat} (positive : 0 < liveEnds objects pipe)
    : ∃ pipeEnd write, (objects pipeEnd).kind = .pipeEnd pipe write
        ∧ (objects pipeEnd).releases = 0 := by
  have one (pipeEnd : Nat) (live : endLive objects pipe pipeEnd ≠ 0)
      : ∃ write, (objects pipeEnd).kind = .pipeEnd pipe write
          ∧ (objects pipeEnd).releases = 0 := by
    simp only [endLive] at live
    cases shape : (objects pipeEnd).kind with
    | opened => simp [shape] at live
    | pipe => simp [shape] at live
    | pipeEnd owner write =>
        simp only [shape, ne_eq, ite_eq_right_iff, not_forall] at live
        obtain ⟨⟨rfl, unreleased⟩, _⟩ := live
        exact ⟨write, rfl, unreleased⟩
  by_cases first : endLive objects pipe (pipe + 1) = 0
  · have second : endLive objects pipe (pipe + 2) ≠ 0 := by
      simp only [liveEnds, first] at positive
      omega
    obtain ⟨write, kind, unreleased⟩ := one _ second
    exact ⟨_, write, kind, unreleased⟩
  · obtain ⟨write, kind, unreleased⟩ := one _ first
    exact ⟨_, write, kind, unreleased⟩

theorem mem_handles (member : task ∈ tasks) (held : handle ∈ task.handles)
    : handle ∈ fdsOf tasks ∨ handle ∈ streamsOf tasks := by
  rcases List.mem_append.mp held with isFd | isStream
  · exact Or.inl (mem_fdsOf.mpr ⟨task, member, isFd⟩)
  · exact Or.inr (mem_streamsOf.mpr ⟨task, member, isStream⟩)

theorem held_of_refs {object : Nat}
    (positive
      : 0 < refs (fdsOf kernel.tasks) object + refs (streamsOf kernel.tasks) object)
    : ∃ task ∈ kernel.tasks, ∃ handle ∈ task.handles, handle.impl = some object := by
  have split : 0 < refs (fdsOf kernel.tasks) object
      ∨ 0 < refs (streamsOf kernel.tasks) object := by omega
  rcases split with isFd | isStream
  · obtain ⟨handle, member, refers⟩ := refs_pos.mp isFd
    obtain ⟨task, present, held⟩ := mem_fdsOf.mp member
    exact ⟨task, present, handle, List.mem_append_left _ held, refers⟩
  · obtain ⟨handle, member, refers⟩ := refs_pos.mp isStream
    obtain ⟨task, present, held⟩ := mem_streamsOf.mp member
    exact ⟨task, present, handle, List.mem_append_right _ held, refers⟩

theorem System.Accounted.alive (accounted : kernel.Accounted) {object : Nat}
    (member : task ∈ kernel.tasks) (held : handle ∈ task.handles)
    (refers : handle.impl = some object)
    : object < kernel.created ∧ (kernel.objects object).releases = 0 := by
  have places := mem_handles member held
  have below := accounted.fd_created (List.mem_append.mpr places) refers
  have positive : 0 < refs (fdsOf kernel.tasks) object
      ∨ 0 < refs (streamsOf kernel.tasks) object := by
    rcases places with isFd | isStream
    · exact Or.inl (refs_pos.mpr ⟨handle, isFd, refers⟩)
    · exact Or.inr (refs_pos.mpr ⟨handle, isStream, refers⟩)
  refine ⟨below, ?_⟩
  have settled := accounted.balanced.settled object below
  cases shape : (kernel.objects object).kind with
  | opened =>
      rcases (settled_opened shape).mp settled with ⟨unreleased, _⟩ | ⟨_, noFds, noStreams⟩
      · exact unreleased
      · omega
  | pipeEnd pipe write =>
      rcases (settled_pipeEnd shape).mp settled with
        ⟨unreleased, _⟩ | ⟨_, noFds, noStreams⟩
      · exact unreleased
      · omega
  | pipe =>
      obtain ⟨noFds, noStreams, _⟩ := (settled_pipe shape).mp settled
      omega

theorem System.Accounted.owned (accounted : kernel.Accounted) : kernel.Owned := by
  refine ⟨?_, ?_, ?_⟩
  · intro task member handle held object refers
    exact (accounted.alive member held refers).2
  · rintro object below ⟨task, member, handle, held, target, refers, rfl | ⟨write, kind⟩⟩
    · exact (accounted.alive member held refers).2
    · obtain ⟨targetBelow, unreleased⟩ := accounted.alive member held refers
      obtain ⟨_, isPipe, place⟩ :=
        accounted.balanced.paired target targetBelow object write kind
      have live : endLive kernel.objects object target = 1 := by
        simp [endLive, kind, unreleased]
      have positive : 0 < liveEnds kernel.objects object := by
        have first := endLive_nonneg kernel.objects object (object + 1)
        have second := endLive_nonneg kernel.objects object (object + 2)
        simp only [liveEnds]
        rcases place with rfl | rfl <;> omega
      rcases ((settled_pipe isPipe).mp (accounted.balanced.settled object below)).2.2 with
        ⟨open_, _⟩ | ⟨_, dead⟩
      · exact open_
      · omega
  · intro object below unheld
    have unreferred : ¬0 < refs (fdsOf kernel.tasks) object
        + refs (streamsOf kernel.tasks) object := by
      intro positive
      obtain ⟨task, member, handle, held, refers⟩ := held_of_refs positive
      exact unheld ⟨task, member, handle, held, object, refers, Or.inl rfl⟩
    have settled := accounted.balanced.settled object below
    cases shape : (kernel.objects object).kind with
    | opened =>
        rcases (settled_opened shape).mp settled with ⟨_, one⟩ | ⟨released, _⟩
        · omega
        · exact released
    | pipeEnd pipe write =>
        rcases (settled_pipeEnd shape).mp settled with ⟨_, _, positive⟩ | ⟨released, _⟩
        · exact absurd positive unreferred
        · exact released
    | pipe =>
        rcases ((settled_pipe shape).mp settled).2.2 with ⟨_, _, positive⟩ | ⟨released, _⟩
        · obtain ⟨pipeEnd, write, kind, unreleased⟩ := liveEnds_pos positive
          have endBelow : pipeEnd < kernel.created := by
            by_contra beyond
            simp [(accounted.balanced.beyond pipeEnd (by omega)).1] at kind
          rcases (settled_pipeEnd kind).mp (accounted.balanced.settled pipeEnd endBelow) with
            ⟨_, _, referred⟩ | ⟨gone, _⟩
          · obtain ⟨task, member, handle, held, refers⟩ := held_of_refs referred
            exact absurd
              ⟨task, member, handle, held, pipeEnd, refers, Or.inr ⟨write, kind⟩⟩ unheld
          · omega
        · exact released

-- One event keeps the accounts

theorem fdsOf_middle (front back : List Task) (task : Task)
    : (fdsOf (front ++ task :: back)).Perm
        (openHandles task.fdtable ++ fdsOf (front ++ back)) := by
  simp only [fdsOf, List.flatMap_append, List.flatMap_cons]
  exact List.perm_append_comm_assoc _ _ _

theorem streamsOf_middle (front back : List Task) (task : Task)
    : (streamsOf (front ++ task :: back)).Perm
        ((task.inStreams ++ task.outStreams) ++ streamsOf (front ++ back)) := by
  simp only [streamsOf, List.flatMap_append, List.flatMap_cons]
  exact List.perm_append_comm_assoc _ _ _

theorem System.runnable_split (running : kernel.runnable place = some task)
    : ∃ front back, kernel.tasks = front ++ task :: back ∧ front.length = place := by
  simp only [System.runnable] at running
  cases present : kernel.tasks[place]? with
  | none => simp [present] at running
  | some other =>
      simp only [present] at running
      split at running
      · obtain rfl := Option.some.inj running
        exact split_at present
      · cases running

theorem System.Accounted.at_task (accounted : kernel.Accounted)
    (split : kernel.tasks = front ++ task :: back)
    : Accounts kernel.objects kernel.created
        (openHandles task.fdtable ++ fdsOf (front ++ back))
        (streamsOf (front ++ task :: back)) := by
  have accounts := accounted
  rw [System.Accounted, split] at accounts
  exact accounts.perm (fdsOf_middle front back task) (List.Perm.refl _)

theorem System.accounted_setTable {table : FdTable} (split : tasks = front ++ task :: back)
    (same : kernel.tasks = tasks)
    (accounts
      : Accounts kernel.objects kernel.created (openHandles table ++ fdsOf (front ++ back))
          (streamsOf (front ++ task :: back)))
    : (kernel.setTable front.length task table).Accounted := by
  have streams : streamsOf (front ++ { task with fdtable := table } :: back)
      = streamsOf (front ++ task :: back) := by
    simp [streamsOf]
  simp only [System.Accounted, System.setTable, same, split, set_split, streams]
  exact accounts.perm (fdsOf_middle front back { task with fdtable := table }).symm
    (List.Perm.refl _)

theorem System.accounted_fill {type : InodeType} {des : Nat} {table : FdTable}
    (split : tasks = front ++ task :: back) (same : kernel.tasks = tasks)
    (claim : handleAlloc task.fdtable type room = some (des, table))
    (accounts
      : Accounts kernel.objects kernel.created
          (handle :: (openHandles task.fdtable ++ fdsOf (front ++ back)))
          (streamsOf (front ++ task :: back)))
    : (kernel.setTable front.length task (fillSlot table des handle)).Accounted :=
  System.accounted_setTable split same
    (accounts.perm ((fillSlot_perm claim handle).append_right _).symm (List.Perm.refl _))

theorem System.Accounted.open {growth : Bool} {result : Except Errno Unit}
    (accounted : kernel.Accounted) (noPipe : NoPipe found)
    : (syshandlerOpen kernel place found growth result).2.Accounted := by
  simp only [syshandlerOpen]
  cases running : kernel.runnable place with
  | none => exact accounted
  | some task =>
      cases found with
      | none => exact accounted
      | some found =>
          cases claim : handleAlloc task.fdtable found.type growth with
          | none => simpa only [claim] using accounted
          | some claimed =>
              obtain ⟨des, table⟩ := claimed
              simp only [claim]
              obtain ⟨front, back, split, rfl⟩ := System.runnable_split running
              have here := accounted.at_task split
              have notPipe := noPipe found rfl
              have notPipeOps : found.ops ≠ .pipe := by
                simp only [Resolved.ops]
                split <;> simp
              cases result with
              | error code =>
                  apply System.accounted_setTable split rfl
                  rw [handleFree_claimed claim]
                  exact here
              | ok _ =>
                  cases frees : found.ops.frees with
                  | true =>
                      simp only [if_true, System.kmalloc]
                      exact System.accounted_fill split rfl claim
                        (here.add_opened notPipe rfl frees rfl)
                  | false =>
                      simp only [Bool.false_eq_true, if_false]
                      exact System.accounted_fill split rfl claim
                        (here.add_plain
                          (Or.inr ⟨notPipe, found.ops, rfl, notPipeOps, by simp [frees],
                            fun _ => rfl⟩) rfl)

theorem System.Accounted.close {fd : Nat} (accounted : kernel.Accounted)
    (unshared : (Event.close place fd).Unshared kernel)
    : (syshandlerClose kernel place fd).2.Accounted := by
  simp only [syshandlerClose]
  cases running : kernel.runnable place with
  | none => exact accounted
  | some task =>
      cases found : returnHslot task.fdtable fd with
      | none => simpa only [found] using accounted
      | some handle =>
          simp only [found]
          obtain ⟨front, back, split, rfl⟩ := System.runnable_split running
          have here := accounted.at_task split
          have lone := unshared task handle running found
          rw [split] at lone
          refine System.accounted_setTable split ?_ ?_
          · rfl
          · exact (here.perm ((handleFree_perm found).append_right _)
              (List.Perm.refl _)).close lone

theorem System.Accounted.failed_pipe {made : System} {freed : List Nat}
    (accounted : kernel.Accounted) (grows : kernel.created < made.created)
    (few : made.created ≤ kernel.created + 3)
    (old : ∀ object < kernel.created, made.objects object = kernel.objects object)
    (atPipe : made.objects kernel.created = ⟨.pipe, 2, 0⟩)
    (ends
      : ∀ object, kernel.created < object → object < made.created
        → ∃ write, made.objects object = ⟨.pipeEnd kernel.created write, 1, 0⟩)
    (beyond
      : ∀ object, made.created ≤ object → made.objects object = kernel.objects object)
    (once
      : ∀ object, kernel.created ≤ object → object < made.created → freed.count object = 1)
    (only : ∀ object ∈ freed, kernel.created ≤ object ∧ object < made.created)
    (tasks : made.tasks = kernel.tasks)
    : (made.kfreeAll freed).Accounted := by
  have kept : Accounts (freed.foldl kfree made.objects) made.created (fdsOf kernel.tasks)
      (streamsOf kernel.tasks) :=
    Accounts.failed_pipe accounted grows few old atPipe ends beyond once only
  rw [← tasks] at kept
  exact kept

theorem System.Accounted.failed_one (accounted : kernel.Accounted)
    : ((kernel.kmalloc .pipe 2).2.kfreeAll [kernel.created]).Accounted := by
  refine accounted.failed_pipe ?_ ?_ ?_ ?_ ?_ ?_ ?_ ?_ rfl
  · simp [System.kmalloc]
  · simp [System.kmalloc]
  · intro object below
    exact Function.update_of_ne (by omega) _ _
  · exact Function.update_self _ _ _
  · simp only [System.kmalloc]
    omega
  · intro object beyond
    simp only [System.kmalloc] at beyond
    exact Function.update_of_ne (by omega) _ _
  · intro object low high
    simp only [System.kmalloc] at high
    obtain rfl : object = kernel.created := by omega
    simp
  · simp [System.kmalloc]

theorem System.Accounted.failed_two (accounted : kernel.Accounted) (write : Bool)
    : (((kernel.kmalloc .pipe 2).2.kmalloc (.pipeEnd kernel.created write) 1).2.kfreeAll
        [kernel.created + 1, kernel.created]).Accounted := by
  refine accounted.failed_pipe ?_ ?_ ?_ ?_ ?_ ?_ ?_ ?_ rfl
  · simp only [System.kmalloc]
    omega
  · simp [System.kmalloc]
  · intro object below
    simp only [System.kmalloc]
    rw [Function.update_of_ne (by omega), Function.update_of_ne (by omega)]
  · simp only [System.kmalloc]
    rw [Function.update_of_ne (by omega), Function.update_self]
  · intro object low high
    simp only [System.kmalloc] at high
    obtain rfl : object = kernel.created + 1 := by omega
    exact ⟨write, Function.update_self _ _ _⟩
  · intro object beyond
    simp only [System.kmalloc] at beyond ⊢
    rw [Function.update_of_ne (by omega), Function.update_of_ne (by omega)]
  · intro object low high
    simp only [System.kmalloc] at high
    obtain rfl | rfl : object = kernel.created ∨ object = kernel.created + 1 := by omega
    · simp
    · simp
  · intro object member
    simp only [List.mem_cons, List.not_mem_nil, or_false] at member
    simp only [System.kmalloc]
    omega

/-- A pipe and both its ends, made and freed. -/
theorem System.Accounted.failed_three (accounted : kernel.Accounted)
    : ((((kernel.kmalloc .pipe 2).2.kmalloc (.pipeEnd kernel.created false) 1).2.kmalloc
          (.pipeEnd kernel.created true) 1).2.kfreeAll
        [kernel.created + 1, kernel.created + 2, kernel.created]).Accounted := by
  refine accounted.failed_pipe ?_ ?_ ?_ ?_ ?_ ?_ ?_ ?_ rfl
  · simp only [System.kmalloc]
    omega
  · simp [System.kmalloc]
  · intro object below
    simp only [System.kmalloc]
    rw [Function.update_of_ne (by omega), Function.update_of_ne (by omega),
      Function.update_of_ne (by omega)]
  · simp only [System.kmalloc]
    rw [Function.update_of_ne (by omega), Function.update_of_ne (by omega),
      Function.update_self]
  · intro object low high
    simp only [System.kmalloc] at high ⊢
    obtain rfl | rfl : object = kernel.created + 1 ∨ object = kernel.created + 2 := by omega
    · exact ⟨false, by rw [Function.update_of_ne (by omega), Function.update_self]⟩
    · exact ⟨true, Function.update_self _ _ _⟩
  · intro object beyond
    simp only [System.kmalloc] at beyond ⊢
    rw [Function.update_of_ne (by omega), Function.update_of_ne (by omega),
      Function.update_of_ne (by omega)]
  · intro object low high
    simp only [System.kmalloc] at high
    obtain rfl | rfl | rfl : object = kernel.created ∨ object = kernel.created + 1
        ∨ object = kernel.created + 2 := by omega
    · simp
    · simp
    · simp
  · intro object member
    simp only [List.mem_cons, List.not_mem_nil, or_false] at member
    simp only [System.kmalloc]
    omega

theorem System.Accounted.pipeCreate {room : PipeRoom} (accounted : kernel.Accounted)
    : (pipeCreatePair kernel place room).2.Accounted := by
  simp only [pipeCreatePair]
  cases running : kernel.runnable place with
  | none => exact accounted
  | some task =>
      obtain ⟨front, back, split, rfl⟩ := System.runnable_split running
      have here := accounted.at_task split
      obtain ⟨pipe, readEnd, writeEnd, readSlot, writeSlot⟩ := room
      cases pipe with
      | false => exact accounted
      | true =>
          cases readEnd with
          | false =>
              cases writeEnd with
              | false => exact accounted.failed_one
              | true => exact accounted.failed_two true
          | true =>
              cases writeEnd with
              | false => exact accounted.failed_two false
              | true =>
                  simp only [System.kmalloc]
                  cases claim : handleAlloc task.fdtable .pipe readSlot with
                  | none => exact accounted.failed_three
                  | some claimed =>
                      obtain ⟨rDes, middle⟩ := claimed
                      simp only []
                      cases claimToo : handleAlloc middle .pipe writeSlot with
                      | none =>
                          have failed := accounted.failed_three
                          refine System.accounted_setTable split rfl ?_
                          rw [handleFree_claimed claim]
                          exact failed.at_task split
                      | some claimedToo =>
                          obtain ⟨wDes, table⟩ := claimedToo
                          refine System.accounted_setTable split rfl ?_
                          exact here.add_pipe.perm
                            ((fillSlots_perm claim claimToo _ _).append_right _).symm
                            (List.Perm.refl _)

theorem System.Accounted.destroy (accounted : kernel.Accounted) (separate : kernel.Separate place)
    : (kernel.destroy place).Accounted := by
  simp only [System.destroy]
  cases present : kernel.tasks[place]? with
  | none => exact accounted
  | some task =>
      have apart := separate task present
      obtain ⟨front, back, split, rfl⟩ := split_at present
      have erased : kernel.tasks.eraseIdx front.length = front ++ back := by
        rw [split, eraseIdx_split]
      rw [erased] at apart
      have here : Accounts kernel.objects kernel.created
          (openHandles task.fdtable ++ fdsOf (front ++ back))
          ((task.inStreams ++ task.outStreams) ++ streamsOf (front ++ back)) :=
        (accounted.at_task split).perm (List.Perm.refl _) (streamsOf_middle front back task)
      rw [erased]
      exact (here.teardown apart).1

theorem Accounts.defaultStream {fds streams : List Handle}
    (accounts : Accounts kernel.objects kernel.created fds streams) (noPipe : NoPipe found)
    : let outcome := defaultStream kernel found
      Accounts outcome.2.objects outcome.2.created fds (outcome.1 ++ streams)
      ∧ outcome.2.tasks = kernel.tasks := by
  cases found with
  | none => exact ⟨accounts, rfl⟩
  | some resolved => exact ⟨accounts.add_stream_plain (noPipe resolved rfl) rfl, rfl⟩

theorem System.Accounted.allocTask (accounted : kernel.Accounted)
    (separate : ∀ old, recycled kernel.tasks = some old → kernel.Separate old)
    : (taskAllocTask kernel room).2.Accounted := by
  simp only [taskAllocTask]
  cases found : recycled kernel.tasks with
  | none => exact accounted
  | some old => exact accounted.destroy (separate old found)

theorem System.runnable_kept (running : kernel.runnable place = some task)
    : task ∈ (taskAllocTask kernel room).2.tasks := by
  obtain ⟨front, back, split, rfl⟩ := System.runnable_split running
  have present : kernel.tasks[front.length]? = some task := by
    rw [split]
    simp
  have alive : task.state = .ready ∨ task.state = .running := by
    by_contra idle
    simp [System.runnable, present, idle] at running
  simp only [taskAllocTask]
  cases found : recycled kernel.tasks with
  | none => exact List.mem_of_getElem? present
  | some old =>
      obtain ⟨below, ended, _⟩ := List.findIdx?_eq_some_iff_getElem.mp found
      have terminated : kernel.tasks[old].state = .terminated := by
        simp only [Bool.and_eq_true, decide_eq_true_eq] at ended
        exact ended.1
      have apart : front.length ≠ old := by
        rintro rfl
        rw [List.getElem?_eq_getElem below, Option.some.injEq] at present
        rw [← present, terminated] at alive
        simp at alive
      have erased : (kernel.destroy old).tasks = kernel.tasks.eraseIdx old := by
        simp [System.destroy, List.getElem?_eq_getElem below]
      rw [erased]
      exact List.mem_eraseIdx_iff_getElem?.mpr ⟨front.length, apart, present⟩

theorem System.Accounted.dropped {child : Task}
    (accounts
      : Accounts kernel.objects kernel.created (fdsOf tasks)
          ((child.inStreams ++ child.outStreams) ++ streamsOf tasks))
    (same : kernel.tasks = tasks) (empty : child.fdtable = [])
    : (teardown kernel child).Accounted := by
  have none_open : openHandles child.fdtable = [] := by
    rw [empty]
    rfl
  have here : Accounts kernel.objects kernel.created
      (openHandles child.fdtable ++ fdsOf tasks)
      ((child.inStreams ++ child.outStreams) ++ streamsOf tasks) := by
    rw [none_open]
    exact accounts
  obtain ⟨kept, _, unchanged⟩ := here.teardown (by simp [none_open])
  rw [System.Accounted, unchanged, same]
  exact kept

/-- `procreate` keeps the accounts, however the caller's descriptors are wired into the
child's streams and wherever the call fails.
-/
theorem System.Accounted.procreate {env : ProcreateEnv} {insFds outsFds : List Nat}
    (accounted : kernel.Accounted) (admissible : NoPipe env.console ∧ NoPipe env.keyboard)
    (unshared : (Event.procreate place env insFds outsFds).Unshared kernel)
    : (taskProcreate kernel place env insFds outsFds).2.Accounted := by
  simp only [taskProcreate]
  cases running : kernel.runnable place with
  | none => exact accounted
  | some caller =>
      cases image : env.image with
      | error code => exact accounted
      | ok _ =>
          have listed : caller ∈ (taskAllocTask kernel env.room).2.tasks :=
            System.runnable_kept running
          have allocated : (taskAllocTask kernel env.room).2.Accounted :=
            accounted.allocTask (unshared caller running image)
          simp only []
          generalize taskAllocTask kernel env.room = allocation at listed allocated ⊢
          obtain ⟨got, kernel⟩ := allocation
          by_cases refused : got = false ∨ env.stack = false
          · simpa only [if_pos refused] using allocated
          simp only [if_neg refused]
          obtain ⟨withOuts, outTasks⟩ := Accounts.defaultStream allocated admissible.1
          generalize defaultStream kernel env.console = console at withOuts outTasks ⊢
          obtain ⟨outs, afterOuts⟩ := console
          obtain ⟨withIns, inTasks⟩ := withOuts.defaultStream admissible.2
          generalize defaultStream afterOuts env.keyboard = keyboard at withIns inTasks ⊢
          obtain ⟨ins, afterIns⟩ := keyboard
          have tasks : afterIns.tasks = kernel.tasks := inTasks.trans outTasks
          have atStart : Accounts afterIns.objects afterIns.created (fdsOf kernel.tasks)
              ((ins ++ outs) ++ streamsOf kernel.tasks) := by
            rw [List.append_assoc]
            exact withIns
          cases env.setup with
          | error code => exact System.Accounted.dropped atStart tasks rfl
          | ok _ =>
              have held : ∀ handle ∈ openHandles caller.fdtable,
                  handle ∈ fdsOf kernel.tasks := fun handle member =>
                mem_fdsOf.mpr ⟨caller, listed, member⟩
              simp only []
              generalize start : { afterIns with
                inodeRefs := inodeRef afterIns.inodeRefs caller.cwd } = begun
              have begunTasks : begun.tasks = kernel.tasks := by rw [← start, tasks]
              have atIns : Accounts begun.objects begun.created (fdsOf kernel.tasks)
                  (([] ++ ins) ++ (outs ++ streamsOf kernel.tasks)) := by
                rw [← start]
                exact withIns
              have wired := atIns.installStreams insFds held
              generalize installStreams caller.fdtable begun [] ins insFds = first at wired ⊢
              obtain ⟨fine, newIns, middle⟩ := first
              obtain ⟨wiredIns, wiredTasks⟩ := wired
              have middleTasks : middle.tasks = kernel.tasks := wiredTasks.trans begunTasks
              cases fine with
              | false =>
                  refine System.Accounted.dropped ?_ middleTasks rfl
                  rw [List.append_assoc]
                  exact wiredIns
              | true =>
                  have atOuts : Accounts middle.objects middle.created (fdsOf kernel.tasks)
                      (([] ++ outs) ++ (newIns ++ streamsOf kernel.tasks)) :=
                    wiredIns.perm (List.Perm.refl _) (List.perm_append_comm_assoc _ _ _)
                  have wiredToo := atOuts.installStreams outsFds held
                  simp only [Bool.true_eq_false, if_false]
                  generalize installStreams caller.fdtable middle [] outs outsFds = second
                    at wiredToo ⊢
                  obtain ⟨fineToo, newOuts, last⟩ := second
                  obtain ⟨wiredOuts, lastTasks⟩ := wiredToo
                  have atEnd : Accounts last.objects last.created (fdsOf kernel.tasks)
                      ((newIns ++ newOuts) ++ streamsOf kernel.tasks) := by
                    rw [List.append_assoc]
                    exact wiredOuts.perm (List.Perm.refl _) (List.perm_append_comm_assoc _ _ _)
                  cases fineToo with
                  | false =>
                      exact System.Accounted.dropped atEnd (lastTasks.trans middleTasks) rfl
                  | true =>
                      have same : last.tasks = kernel.tasks := lastTasks.trans middleTasks
                      simp only [Bool.true_eq_false, if_false, System.Accounted, fdsOf,
                        streamsOf, List.flatMap_cons, same]
                      exact atEnd

/-- What a task holds: its descriptor table and its streams. -/
def Task.holds (task : Task) : FdTable × List Handle × List Handle :=
  (task.fdtable, task.inStreams, task.outStreams)

section Holds

variable {tasks changed : List Task} (same : changed.map Task.holds = tasks.map Task.holds)
include same

theorem fdsOf_congr : fdsOf changed = fdsOf tasks := by
  have mapped (list : List Task)
      : fdsOf list = (list.map Task.holds).flatMap (fun held => openHandles held.1) := by
    simp [fdsOf, Task.holds, List.flatMap_map]
  rw [mapped, mapped, same]

theorem streamsOf_congr : streamsOf changed = streamsOf tasks := by
  have mapped (list : List Task)
      : streamsOf list
        = (list.map Task.holds).flatMap (fun held => held.2.1 ++ held.2.2) := by
    simp [streamsOf, Task.holds, List.flatMap_map]
  rw [mapped, mapped, same]

end Holds

theorem System.Accounted.congr (accounted : kernel.Accounted)
    (same : tasks.map Task.holds = kernel.tasks.map Task.holds)
    : ({ kernel with tasks } : System).Accounted := by
  simp only [System.Accounted, fdsOf_congr same, streamsOf_congr same]
  exact accounted

theorem System.Separate.congr (separate : kernel.Separate place)
    (same : tasks.map Task.holds = kernel.tasks.map Task.holds)
    : ({ kernel with tasks } : System).Separate place := by
  intro task present handle held
  have erased : (tasks.eraseIdx place).map Task.holds
      = (kernel.tasks.eraseIdx place).map Task.holds := by
    rw [← List.eraseIdx_map, ← List.eraseIdx_map, same]
  have mapped : (kernel.tasks.map Task.holds)[place]? = some task.holds := by
    rw [← same, List.getElem?_map, present]
    rfl
  obtain ⟨old, presentOld, holds⟩ := by simpa using mapped
  have sameTable : old.fdtable = task.fdtable := congrArg Prod.fst holds
  rw [streamsOf_congr erased]
  exact separate old presentOld handle (by rw [sameTable]; exact held)

theorem set_holds {changed : Task} (present : tasks[place]? = some task)
    (same : changed.holds = task.holds)
    : (tasks.set place changed).map Task.holds = tasks.map Task.holds := by
  obtain ⟨front, back, rfl, rfl⟩ := split_at present
  simp [same]

theorem wakeWaiters_holds (tasks : List Task) (pid : Nat)
    : (wakeWaiters tasks pid).map Task.holds = tasks.map Task.holds := by
  simp only [wakeWaiters, List.map_map, List.map_inj_left, Function.comp]
  intro task _
  split <;> rfl

theorem System.runnable_present (running : kernel.runnable place = some task)
    : kernel.tasks[place]? = some task := by
  obtain ⟨front, back, split, rfl⟩ := System.runnable_split running
  rw [split]
  simp

theorem System.Accounted.exit {exitCode : Nat} (accounted : kernel.Accounted)
    : (syshandlerExit kernel place exitCode).Accounted := by
  simp only [syshandlerExit]
  cases running : kernel.runnable place with
  | none => exact accounted
  | some task =>
      apply accounted.congr
      rw [wakeWaiters_holds]
      exact set_holds (System.runnable_present running) rfl

theorem System.Accounted.wait {target : Nat} (accounted : kernel.Accounted)
    (unshared : (Event.wait place target).Unshared kernel)
    : (syshandlerWait kernel place target).2.Accounted := by
  simp only [syshandlerWait]
  cases running : kernel.runnable place with
  | none => exact accounted
  | some caller =>
      have present := System.runnable_present running
      simp only []
      by_cases itself : target = caller.pid
      · simpa only [if_pos itself] using accounted
      simp only [if_neg itself]
      cases found : kernel.tasks.findIdx? (fun task => task.pid == target) with
      | none => exact accounted.congr (set_holds present rfl)
      | some place' =>
          simp only []
          cases there : kernel.tasks[place']? with
          | none => exact accounted
          | some task =>
              by_cases ended : task.state = .terminated
              · simp only [if_pos ended]
                have separate := unshared caller place' task running found there ended
                have same
                    : (kernel.tasks.set place { caller with pidWaitingOn := 0 }).map
                        Task.holds
                      = kernel.tasks.map Task.holds := set_holds present rfl
                exact (accounted.congr same).destroy (separate.congr same)
              · simp only [if_neg ended]
                exact accounted.congr (set_holds present rfl)

theorem System.Accounted.step {kernel : System} {event : Event}
    (accounted : kernel.Accounted) (admissible : event.Admissible)
    (unshared : event.Unshared kernel)
    : (kernel.step event).Accounted := by
  cases event with
  | «open» place found growth result => exact accounted.open admissible
  | pipeCreate place room => exact accounted.pipeCreate
  | close place fd => exact accounted.close unshared
  | procreate place env insFds outsFds => exact accounted.procreate admissible unshared
  | exit place exitCode => exact accounted.exit
  | wait place target => exact accounted.wait unshared

end Panuti.Kernel
