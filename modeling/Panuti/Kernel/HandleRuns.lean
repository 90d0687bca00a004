import Panuti.Kernel.HandleEvents

/-! Runs of the handle system calls by any tasks in any order, and what they keep: handles
refer to objects that were not released, and every object is released exactly once, when its
last holder goes.
-/

namespace Panuti.Kernel

-- Runs

/-- A task that has opened nothing and whose streams are devices. -/
def Task.Fresh (task : Task) : Prop :=
  openHandles task.fdtable = []
  ∧ ∀ stream ∈ task.inStreams ++ task.outStreams,
      stream.type ≠ .pipe ∧ stream.impl = none

/-- The systems reached from one whose tasks are fresh, by events that `allowed` admits. -/
inductive Run (allowed : System → Event → Prop) : System → Prop where
  | start (tasks : List Task) (inodeRefs : Nat → Int) (fresh : ∀ task ∈ tasks, task.Fresh)
      : Run allowed ⟨fun _ => ⟨.opened, 0, 0⟩, 0, inodeRefs, tasks⟩
  | step {kernel : System} {event : Event}
      (reached : Run allowed kernel)
      (admissible : event.Admissible)
      (fine : allowed kernel event)
      : Run allowed (kernel.step event)

theorem Run.start_accounted {tasks : List Task} {inodeRefs : Nat → Int}
    (fresh : ∀ task ∈ tasks, task.Fresh)
    : System.Accounted ⟨fun _ => ⟨.opened, 0, 0⟩, 0, inodeRefs, tasks⟩ := by
  have noFds : fdsOf tasks = [] := by
    simp only [fdsOf, List.flatMap_eq_nil_iff]
    intro task member
    exact (fresh task member).1
  have plain : ∀ stream ∈ streamsOf tasks, stream.type ≠ .pipe ∧ stream.impl = none := by
    intro stream member
    obtain ⟨task, present, held⟩ := mem_streamsOf.mp member
    exact (fresh task present).2 stream held
  have noRefs (object : Nat) : refs (streamsOf tasks) object = 0 := by
    by_contra some_left
    obtain ⟨stream, member, refers⟩ := refs_pos.mp (Nat.pos_of_ne_zero some_left)
    rw [(plain stream member).2] at refers
    cases refers
  refine ⟨⟨?_, ?_, ?_⟩, ?_, ?_⟩
  · intro object below
    exact absurd below (Nat.not_lt_zero object)
  · intro pipeEnd below
    exact absurd below (Nat.not_lt_zero pipeEnd)
  · intro object _
    exact ⟨rfl, by simp [noFds], noRefs object⟩
  · simp [noFds]
  · intro stream member
    exact Or.inr ⟨(plain stream member).1, by simp [(plain stream member).2]⟩

theorem Run.accounted {kernel : System} (run : Run (fun kernel e => e.Unshared kernel) kernel)
    : kernel.Accounted := by
  induction run with
  | start tasks inodeRefs fresh => exact Run.start_accounted fresh
  | step reached admissible unshared accounted => exact accounted.step admissible unshared

/-- In every run in which no descriptor of an opened object is dropped while a stream of
another task has a copy of it, handles refer to unreleased objects, and every object is
released exactly once, when its last holder goes.
Witness: the accounts of descriptors and streams balance after every event.
-/
theorem Run.ownership {kernel : System}
    (run : Run (fun kernel event => event.Unshared kernel) kernel)
    : kernel.Owned :=
  run.accounted.owned

def firstTask : Task := ⟨1, .running, [], none, [], [], 0, 0⟩

/-- A device that allocates an object in every open, such as `/dev/kmsg`. -/
def kmsg : Resolved := ⟨7, .dvc, false, true⟩

/-- Loading an image succeeds, and no default stream resolves. -/
def quietEnv : ProcreateEnv := ⟨.ok (), true, true, none, none, .ok ()⟩

theorem firstTask_fresh : ∀ task ∈ [firstTask], task.Fresh := by
  simp [Task.Fresh, firstTask, openHandles]

/-- One task opens a device and closes it again. -/
theorem ownership_small
    : System.Owned
        (((⟨fun _ => ⟨.opened, 0, 0⟩, 0, fun _ => 0, [firstTask]⟩ : System).step
          (.open 0 (some kmsg) true (.ok ()))).step (.close 0 0)) := by
  apply Run.ownership
  refine Run.step (Run.step (Run.start [firstTask] (fun _ => 0) firstTask_fresh) ?_ ?_) ?_ ?_
  · simp [Event.Admissible, NoPipe, kmsg]
  · trivial
  · trivial
  · intro task handle _ _ _ object _ stream member
    simp [streamsOf, System.step, syshandlerOpen, System.runnable, firstTask, handleAlloc,
      fdtableGrow, kmsg, Resolved.ops, HandleOps.frees, System.kmalloc, System.setTable,
      MAX_HANDLES] at member

/-- A task opens the device, hands it to a child as its input and closes its descriptor. -/
def sharedClosed : System :=
  (((⟨fun _ => ⟨.opened, 0, 0⟩, 0, fun _ => 0, [firstTask]⟩ : System).step
    (.open 0 (some kmsg) true (.ok ()))).step
    (.procreate 0 quietEnv [0] [])).step (.close 1 0)

/-- The child's input then refers to the released object. -/
theorem ownership_fails : ¬∀ kernel, Run (fun _ _ => True) kernel → kernel.Owned := by
  intro owned
  have run : Run (fun _ _ => True) sharedClosed := by
    refine Run.step (Run.step (Run.step
      (Run.start [firstTask] (fun _ => 0) firstTask_fresh) ?_ ?_) ?_ ?_) ?_ ?_
    · simp [Event.Admissible, NoPipe, kmsg]
    · trivial
    · simp [Event.Admissible, NoPipe, quietEnv]
    · trivial
    · trivial
    · trivial
  have child : sharedClosed.tasks[0]?.map Task.inStreams
      = some [⟨.dvc, some 0, some (.device true), some 7⟩] := by decide
  have released : (sharedClosed.objects 0).releases = 1 := by decide
  obtain ⟨task, present, streams⟩ := by simpa using child
  have held : (⟨.dvc, some 0, some (.device true), some 7⟩ : Handle) ∈ task.handles := by
    simp [Task.handles, streams]
  have alive := (owned sharedClosed run).alive task (List.mem_of_getElem? present) _ held 0 rfl
  rw [released] at alive
  exact absurd alive (by decide)

end Panuti.Kernel
