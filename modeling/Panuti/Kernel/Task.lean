import Panuti.Kernel.Handle

/-! Tasks, their descriptor tables and streams, and the system calls that create, share and
drop handles: `open`, `pipe_create`, `close`, `procreate`, `exit` and `wait`.
Every call runs as one step. What the registry, the loader and the allocators answer is an
argument of the call.
-/

namespace Panuti.Kernel

-- State

inductive TaskState where
  | ready
  | running
  | blocked
  | terminated
deriving Repr, DecidableEq

/-- `task_t`. The streams are the first `no_in_streams` and `no_out_streams` entries of the
arrays; the entries behind them are never read.
-/
structure Task where
  pid : Nat
  state : TaskState
  fdtable : FdTable
  cwd : Option Nat
  inStreams : List Handle
  outStreams : List Handle
  exitCode : Nat
  pidWaitingOn : Nat
deriving Repr, DecidableEq

/-- The kernel's objects, the reference counts of inodes, and `task_list`. Object numbers
from `created` on are not in use yet.
-/
structure System where
  objects : Objects
  created : Nat
  inodeRefs : Nat → Int
  tasks : List Task

def inodeRef (refs : Nat → Int) (inode : Option Nat) : Nat → Int :=
  match inode with
  | some inode => Function.update refs inode (refs inode + 1)
  | none => refs

def inodeUnref (refs : Nat → Int) (inode : Option Nat) : Nat → Int :=
  match inode with
  | some inode => Function.update refs inode (refs inode - 1)
  | none => refs

def System.kmalloc (kernel : System) (kind : ObjectKind) (refcount : Int) : Nat × System :=
  (kernel.created,
    { kernel with
      objects := Function.update kernel.objects kernel.created ⟨kind, refcount, 0⟩
      created := kernel.created + 1 })

/-- The task at a place of the list, if it can run. -/
def System.runnable (kernel : System) (place : Nat) : Option Task :=
  match kernel.tasks[place]? with
  | some task => if task.state = .ready ∨ task.state = .running then some task else none
  | none => none

def System.setTable (kernel : System) (place : Nat) (task : Task) (table : FdTable)
    : System :=
  { kernel with tasks := kernel.tasks.set place { task with fdtable := table } }

-- open, close and pipe_create

/-- What `registry_resolve` finds: the inode, its type, whether it lies on a mounted file
system, and the operations of a device.
-/
structure Resolved where
  inode : Nat
  type : InodeType
  mounted : Bool
  perOpen : Bool
deriving Repr, DecidableEq

/-- The operations `open` gives a handle for the inode. -/
def Resolved.ops (found : Resolved) : HandleOps :=
  match found.type, found.mounted with
  | .dir, _ => .dirHandle
  | .block, _ => .blockHandle
  | _, true => .fsFile
  | _, false => .device found.perOpen

/-- `syshandler_open`. `growth` is the allocator's answer to growing the table and `result`
the answer of the inode's own open: an allocation failure or a refusal by the device.
-/
def syshandlerOpen (kernel : System) (place : Nat) (found : Option Resolved)
    (growth : Bool) (result : Except Errno Unit) : Except Errno Nat × System :=
  match kernel.runnable place with
  | none => (.error .plainErr, kernel)
  | some task =>
      match found with
      | none => (.error .notFound, kernel)
      | some found =>
          match handleAlloc task.fdtable found.type growth with
          | none => (.error .noFds, kernel)
          | some (des, table) =>
              match result with
              | .error code =>
                  (.error code, kernel.setTable place task (handleFree table des))
              | .ok () =>
                  let (impl, kernel) :=
                    if found.ops.frees then
                      let (object, kernel) := kernel.kmalloc .opened 0
                      (some object, kernel)
                    else (none, kernel)
                  let handle := ⟨found.type, impl, some found.ops, some found.inode⟩
                  let kernel := { kernel with
                    inodeRefs := inodeRef kernel.inodeRefs (some found.inode) }
                  (.ok des, kernel.setTable place task (fillSlot table des handle))

def syshandlerClose (kernel : System) (place fd : Nat) : Except Errno Unit × System :=
  match kernel.runnable place with
  | none => (.error .plainErr, kernel)
  | some task =>
      match returnHslot task.fdtable fd with
      | none => (.error .badFd, kernel)
      | some handle =>
          let kernel := { kernel with
            objects := closeHandle kernel.objects handle
            inodeRefs := inodeUnref kernel.inodeRefs handle.inode }
          (.ok (), kernel.setTable place task (handleFree task.fdtable fd))

/-- The allocator's answers to `pipe_create_pair`, in the order it asks. -/
structure PipeRoom where
  pipe : Bool
  readEnd : Bool
  writeEnd : Bool
  readSlot : Bool
  writeSlot : Bool
deriving Repr, DecidableEq

/-- Give back what `pipe_create_pair` allocated before it failed. -/
def System.kfreeAll (kernel : System) (objects : List Nat) : System :=
  { kernel with objects := objects.foldl kfree kernel.objects }

/-- `pipe_create_pair`: a pipe of two references and its two ends, in two descriptors. -/
def pipeCreatePair (kernel : System) (place : Nat) (room : PipeRoom)
    : Except Errno (Nat × Nat) × System :=
  match kernel.runnable place with
  | none => (.error .plainErr, kernel)
  | some task =>
      if room.pipe = false then (.error .plainErr, kernel)
      else
        let (pipe, kernel) := kernel.kmalloc .pipe 2
        let (readEnd, kernel) :=
          if room.readEnd then
            let (object, kernel) := kernel.kmalloc (.pipeEnd pipe false) 1
            ([object], kernel)
          else ([], kernel)
        let (writeEnd, kernel) :=
          if room.writeEnd then
            let (object, kernel) := kernel.kmalloc (.pipeEnd pipe true) 1
            ([object], kernel)
          else ([], kernel)
        match readEnd, writeEnd with
        | [readObject], [writeObject] =>
            match handleAlloc task.fdtable .pipe room.readSlot with
            | none => (.error .noFds, kernel.kfreeAll [readObject, writeObject, pipe])
            | some (rDes, table) =>
                match handleAlloc table .pipe room.writeSlot with
                | none =>
                    (.error .noFds,
                      (kernel.kfreeAll [readObject, writeObject, pipe]).setTable place task
                        (handleFree table rDes))
                | some (wDes, table) =>
                    let table := fillSlot table rDes
                      ⟨.pipe, some readObject, some .pipe, none⟩
                    let table := fillSlot table wDes
                      ⟨.pipe, some writeObject, some .pipe, none⟩
                    (.ok (rDes, wDes), kernel.setTable place task table)
        | _, _ => (.error .plainErr, kernel.kfreeAll (readEnd ++ writeEnd ++ [pipe]))

-- Streams and teardown

/-- `stream_unref`: pipe ends are counted; everything else is pinned by its inode. -/
def streamUnref (kernel : System) (handle : Handle) : System :=
  if handle.type = .pipe then
    match handle.impl with
    | some pipeEnd => { kernel with objects := pipeEndUnref kernel.objects pipeEnd }
    | none => kernel
  else { kernel with inodeRefs := inodeUnref kernel.inodeRefs handle.inode }

/-- The reference `install_stream` takes for the copy of a handle. -/
def streamRef (kernel : System) (handle : Handle) : System :=
  if handle.type = .pipe then
    match handle.impl with
    | some pipeEnd => { kernel with objects := pipeEndRef kernel.objects pipeEnd }
    | none => kernel
  else { kernel with inodeRefs := inodeRef kernel.inodeRefs handle.inode }

/-- `task_release_handles`, over the handles of the slots in use. -/
def releaseHandles (kernel : System) (handles : List Handle) : System :=
  handles.foldl (fun kernel handle =>
    { kernel with
      objects := closeHandle kernel.objects handle
      inodeRefs := inodeUnref kernel.inodeRefs handle.inode }) kernel

/-- What `task_teardown` and `procreate_cleanup` release of a task's handles and streams. -/
def teardown (kernel : System) (task : Task) : System :=
  let kernel := releaseHandles kernel (openHandles task.fdtable)
  let kernel := (task.inStreams ++ task.outStreams).foldl streamUnref kernel
  { kernel with inodeRefs := inodeUnref kernel.inodeRefs task.cwd }

-- procreate, exit and wait

/-- `task_has_waiter`. -/
def hasWaiter (tasks : List Task) (pid : Nat) : Bool :=
  tasks.any (fun task => task.pidWaitingOn == pid)

/-- The place of the task `task_alloc_task` recycles, if there is one. -/
def recycled (tasks : List Task) : Option Nat :=
  tasks.findIdx? (fun task =>
    decide (task.state = .terminated) && !hasWaiter tasks task.pid)

/-- Tear down the task at a place of the list and take it off the list. -/
def System.destroy (kernel : System) (place : Nat) : System :=
  match kernel.tasks[place]? with
  | some task => { teardown kernel task with tasks := kernel.tasks.eraseIdx place }
  | none => kernel

/-- `task_alloc_task`: recycle a terminated task nobody waits for, or allocate. -/
def taskAllocTask (kernel : System) (room : Bool) : Bool × System :=
  match recycled kernel.tasks with
  | some place => (true, kernel.destroy place)
  | none => (room, kernel)

/-- The lowest number from `candidate` on that is no listed task's pid. -/
def lowestFree (pids : List Nat) : Nat → Nat → Nat
  | 0, candidate => candidate
  | fuel + 1, candidate =>
      if candidate ∈ pids then lowestFree pids fuel (candidate + 1) else candidate

def taskAllocPid (tasks : List Task) : Nat :=
  lowestFree (tasks.map Task.pid) tasks.length 1

/-- `handle_build` for a resolved device node: the registered object, no open. -/
def handleBuild (found : Resolved) : Handle :=
  ⟨found.type, none, some (.device found.perOpen), some found.inode⟩

def defaultStream (kernel : System) (found : Option Resolved) : List Handle × System :=
  match found with
  | some found =>
      ([handleBuild found],
        { kernel with inodeRefs := inodeRef kernel.inodeRefs (some found.inode) })
  | none => ([], kernel)

/-- The loop over `install_stream`: each descriptor of the caller in turn replaces the
stream that stands at its index, if one does. `done` are the streams installed so far and
`rest` the ones still standing behind them.
-/
def installStreams (caller : FdTable) (kernel : System) (installed rest : List Handle)
    : List Nat → Bool × List Handle × System
  | [] => (true, installed ++ rest, kernel)
  | fd :: fds =>
      match returnHslot caller fd with
      | none => (false, installed ++ rest, kernel)
      | some handle =>
          let kernel := rest.head?.elim kernel (streamUnref kernel)
          let kernel := streamRef kernel handle
          installStreams caller kernel (installed ++ [handle]) rest.tail fds

/-- What `task_procreate` depends on outside the handle code: the answers of the registry
and the loader up to parsing the image, the allocator's for the task and for its kernel
stack and address space, the devices of the default streams, and the set-up of the image
and the user stack.
-/
structure ProcreateEnv where
  image : Except Errno Unit
  room : Bool
  stack : Bool
  console : Option Resolved
  keyboard : Option Resolved
  setup : Except Errno Unit
deriving Repr, DecidableEq

/-- `task_procreate` with the caller's descriptors for the child's streams. -/
def taskProcreate (kernel : System) (place : Nat) (env : ProcreateEnv)
    (insFds outsFds : List Nat) : Except Errno Nat × System :=
  match kernel.runnable place with
  | none => (.error .plainErr, kernel)
  | some caller =>
      match env.image with
      | .error code => (.error code, kernel)
      | .ok () =>
          let (allocated, kernel) := taskAllocTask kernel env.room
          if allocated = false ∨ env.stack = false then (.error .noMem, kernel)
          else
            let pid := taskAllocPid kernel.tasks
            let (outs, kernel) := defaultStream kernel env.console
            let (ins, kernel) := defaultStream kernel env.keyboard
            let kernel := { kernel with
              inodeRefs := inodeRef kernel.inodeRefs caller.cwd }
            let child : Task := ⟨pid, .ready, [], caller.cwd, ins, outs, 0, 0⟩
            match env.setup with
            | .error code => (.error code, teardown kernel child)
            | .ok () =>
                let (fine, ins, kernel) :=
                  installStreams caller.fdtable kernel [] ins insFds
                if fine = false then
                  (.error .badFd, teardown kernel { child with inStreams := ins })
                else
                  let (fine, outs, kernel) :=
                    installStreams caller.fdtable kernel [] outs outsFds
                  let child := { child with inStreams := ins, outStreams := outs }
                  if fine = false then (.error .badFd, teardown kernel child)
                  else (.ok pid, { kernel with tasks := child :: kernel.tasks })

/-- `task_wake_waiters`. -/
def wakeWaiters (tasks : List Task) (pid : Nat) : List Task :=
  tasks.map (fun task =>
    if task.state = .blocked ∧ task.pidWaitingOn = pid then
      { task with state := .ready, pidWaitingOn := 0 }
    else task)

def syshandlerExit (kernel : System) (place exitCode : Nat) : System :=
  match kernel.runnable place with
  | none => kernel
  | some task =>
      let ended := { task with state := .terminated, exitCode }
      { kernel with tasks := wakeWaiters (kernel.tasks.set place ended) task.pid }

/-- One pass of the loop in `syshandler_wait`: collect a terminated task, fail, or block. -/
def syshandlerWait (kernel : System) (place target : Nat) : Except Errno (Option Nat) × System :=
  match kernel.runnable place with
  | none => (.error .plainErr, kernel)
  | some caller =>
      if target = caller.pid then (.error .plainErr, kernel)
      else
        match kernel.tasks.findIdx? (fun task => task.pid == target) with
        | none =>
            (.error .notFound,
              { kernel with tasks := kernel.tasks.set place { caller with pidWaitingOn := 0 } })
        | some found =>
            match kernel.tasks[found]? with
            | some task =>
                if task.state = .terminated then
                  let kernel := { kernel with
                    tasks := kernel.tasks.set place { caller with pidWaitingOn := 0 } }
                  (.ok (some task.exitCode), kernel.destroy found)
                else
                  (.ok none,
                    { kernel with
                      tasks := kernel.tasks.set place
                        { caller with state := .blocked, pidWaitingOn := target } })
            | none => (.error .notFound, kernel)

end Panuti.Kernel
