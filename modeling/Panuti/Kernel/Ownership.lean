import Panuti.Kernel.Accounting
import Panuti.Kernel.Descriptors

/-! Who holds which object: every handle of a task in the list refers to an object that was
not released, and every object is released exactly once, when its last holder goes. It holds
in every run in which no descriptor of an opened object is dropped while a stream still has
a copy of it.
-/

namespace Panuti.Kernel

-- Accounts of a list of handles

/-- The handle of a descriptor agrees with the object it refers to. -/
def Handle.FdTyped (objects : Objects) (handle : Handle) : Prop :=
  handle.type = .pipe
      ∧ handle.ops = some .pipe
      ∧ (∃ pipeEnd pipe write, handle.impl = some pipeEnd
          ∧ (objects pipeEnd).kind = .pipeEnd pipe write)
  ∨ handle.type ≠ .pipe
      ∧ ∃ ops, handle.ops = some ops
        ∧ ops ≠ .pipe
        ∧ (ops.frees = true
            → ∃ object, handle.impl = some object ∧ (objects object).kind = .opened)
        ∧ (ops.frees = false → handle.impl = none)

/-- The handle of a stream agrees with the object it refers to, if any. -/
def Handle.StreamTyped (objects : Objects) (handle : Handle) : Prop :=
  handle.type = .pipe
      ∧ (∃ pipeEnd pipe write, handle.impl = some pipeEnd
          ∧ (objects pipeEnd).kind = .pipeEnd pipe write)
  ∨ handle.type ≠ .pipe
      ∧ ∀ object, handle.impl = some object → (objects object).kind = .opened

/-- Objects, the handles of descriptors and those of streams agree. -/
structure Accounts (objects : Objects) (created : Nat) (fds streams : List Handle) : Prop where
  balanced : Balanced objects created (refs fds) (refs streams)
  fdsTyped : ∀ handle ∈ fds, handle.FdTyped objects
  streamsTyped : ∀ handle ∈ streams, handle.StreamTyped objects

variable {objects : Objects} {handle : Handle} {created : Nat} {fds streams : List Handle}

theorem Handle.FdTyped.stream (typed : handle.FdTyped objects) : handle.StreamTyped objects := by
  rcases typed with ⟨isPipe, _, pipeEnd⟩ | ⟨notPipe, ops, _, _, frees, keeps⟩
  · exact Or.inl ⟨isPipe, pipeEnd⟩
  · refine Or.inr ⟨notPipe, ?_⟩
    intro object refers
    cases opened : ops.frees with
    | true =>
        obtain ⟨other, same, kind⟩ := frees opened
        obtain rfl : object = other := by simpa [refers] using same
        exact kind
    | false => simp [keeps opened] at refers

theorem Handle.FdTyped.congr {changed : Objects} (typed : handle.FdTyped objects)
    (kinds
      : ∀ object, handle.impl = some object
        → (changed object).kind = (objects object).kind)
    : handle.FdTyped changed := by
  rcases typed with ⟨isPipe, ops, pipeEnd, pipe, write, refers, kind⟩
    | ⟨notPipe, ops, hasOps, different, frees, keeps⟩
  · exact Or.inl ⟨isPipe, ops, pipeEnd, pipe, write, refers, (kinds pipeEnd refers).trans kind⟩
  · refine Or.inr ⟨notPipe, ops, hasOps, different, ?_, keeps⟩
    intro opens
    obtain ⟨object, refers, kind⟩ := frees opens
    exact ⟨object, refers, (kinds object refers).trans kind⟩

theorem Handle.StreamTyped.congr {changed : Objects} (typed : handle.StreamTyped objects)
    (kinds
      : ∀ object, handle.impl = some object
        → (changed object).kind = (objects object).kind)
    : handle.StreamTyped changed := by
  rcases typed with ⟨isPipe, pipeEnd, pipe, write, refers, kind⟩ | ⟨notPipe, opened⟩
  · exact Or.inl ⟨isPipe, pipeEnd, pipe, write, refers, (kinds pipeEnd refers).trans kind⟩
  · refine Or.inr ⟨notPipe, ?_⟩
    intro object refers
    exact (kinds object refers).trans (opened object refers)

theorem Accounts.perm {fds' streams' : List Handle}
    (accounts : Accounts objects created fds streams) (fdsPerm : fds.Perm fds')
    (streamsPerm : streams.Perm streams')
    : Accounts objects created fds' streams' := by
  have sameFds : refs fds' = refs fds := funext (fun object => (refs_perm fdsPerm object).symm)
  have sameStreams : refs streams' = refs streams :=
    funext (fun object => (refs_perm streamsPerm object).symm)
  refine ⟨?_, ?_, ?_⟩
  · rw [sameFds, sameStreams]
    exact accounts.balanced
  · intro handle member
    exact accounts.fdsTyped handle (fdsPerm.mem_iff.mpr member)
  · intro handle member
    exact accounts.streamsTyped handle (streamsPerm.mem_iff.mpr member)

theorem Accounts.fd_created {object : Nat} (accounts : Accounts objects created fds streams)
    (member : handle ∈ fds ++ streams) (refers : handle.impl = some object)
    : object < created := by
  by_contra beyond
  have none_left := accounts.balanced.beyond object (by omega)
  rcases List.mem_append.mp member with isFd | isStream
  · have := refs_pos.mpr ⟨handle, isFd, refers⟩
    omega
  · have := refs_pos.mpr ⟨handle, isStream, refers⟩
    omega

-- Kinds never change

theorem kind_kfree (objects : Objects) (object other : Nat)
    : (kfree objects object other).kind = (objects other).kind := by
  by_cases here : other = object
  · subst here
    simp [kfree]
  · rw [kfree, Function.update_of_ne here]

theorem kind_setCount (objects : Objects) (object : Nat) (count : Int) (other : Nat)
    : (Function.update objects object { objects object with refcount := count } other).kind
      = (objects other).kind := by
  by_cases here : other = object
  · subst here
    simp
  · rw [Function.update_of_ne here]

theorem kind_pipeEndRelease (objects : Objects) (pipeEnd other : Nat)
    : (pipeEndRelease objects pipeEnd other).kind = (objects other).kind := by
  cases shape : (objects pipeEnd).kind with
  | opened => simp only [pipeEndRelease, shape]
  | pipe => simp only [pipeEndRelease, shape]
  | pipeEnd pipe write =>
      simp only [pipeEndRelease, shape]
      rw [kind_kfree]
      split
      · rw [kind_kfree, kind_setCount]
      · rw [kind_setCount]

theorem kind_pipeEndUnref (objects : Objects) (pipeEnd other : Nat)
    : (pipeEndUnref objects pipeEnd other).kind = (objects other).kind := by
  simp only [pipeEndUnref]
  split
  · exact kind_setCount objects pipeEnd _ other
  · rw [kind_pipeEndRelease, kind_setCount]

theorem closeHandle_cases (objects : Objects) (handle : Handle)
    : (∃ pipeEnd, closeHandle objects handle = pipeEndUnref objects pipeEnd)
      ∨ (∃ object, closeHandle objects handle = kfree objects object)
      ∨ closeHandle objects handle = objects := by
  obtain ⟨type, impl, ops, inode⟩ := handle
  cases ops with
  | none => exact Or.inr (Or.inr rfl)
  | some ops =>
      cases impl with
      | none => exact Or.inr (Or.inr (by cases ops <;> rfl))
      | some object =>
          cases ops with
          | pipe => exact Or.inl ⟨object, rfl⟩
          | dirHandle => exact Or.inr (Or.inl ⟨object, rfl⟩)
          | blockHandle => exact Or.inr (Or.inl ⟨object, rfl⟩)
          | fsFile => exact Or.inr (Or.inl ⟨object, rfl⟩)
          | device perOpen =>
              cases perOpen with
              | true => exact Or.inr (Or.inl ⟨object, rfl⟩)
              | false => exact Or.inr (Or.inr rfl)

theorem kind_closeHandle (objects : Objects) (handle : Handle) (other : Nat)
    : (closeHandle objects handle other).kind = (objects other).kind := by
  rcases closeHandle_cases objects handle with ⟨pipeEnd, same⟩ | ⟨object, same⟩ | same
  · rw [same, kind_pipeEndUnref]
  · rw [same, kind_kfree]
  · rw [same]

-- Opening, closing and sharing one handle

theorem Accounts.add_plain (accounts : Accounts objects created fds streams)
    (typed : handle.FdTyped objects) (plain : handle.impl = none)
    : Accounts objects created (handle :: fds) streams := by
  have same : refs (handle :: fds) = refs fds := by
    funext object
    simp [refs_cons, plain]
  refine ⟨by rw [same]; exact accounts.balanced, ?_, accounts.streamsTyped⟩
  intro other member
  rcases List.mem_cons.mp member with rfl | old
  · exact typed
  · exact accounts.fdsTyped other old

theorem Accounts.add_stream_plain (accounts : Accounts objects created fds streams)
    (notPipe : handle.type ≠ .pipe) (plain : handle.impl = none)
    : Accounts objects created fds (handle :: streams) := by
  have same : refs (handle :: streams) = refs streams := by
    funext object
    simp [refs_cons, plain]
  refine ⟨by rw [same]; exact accounts.balanced, accounts.fdsTyped, ?_⟩
  intro other member
  rcases List.mem_cons.mp member with rfl | old
  · exact Or.inr ⟨notPipe, by simp [plain]⟩
  · exact accounts.streamsTyped other old

theorem Accounts.add_opened {ops : HandleOps} (accounts : Accounts objects created fds streams)
    (notPipe : handle.type ≠ .pipe) (hasOps : handle.ops = some ops) (frees : ops.frees = true)
    (refers : handle.impl = some created)
    : Accounts (Function.update objects created ⟨.opened, 0, 0⟩) (created + 1)
        (handle :: fds) streams := by
  have fresh := accounts.balanced.beyond created (Nat.le_refl _)
  have kinds (object : Nat)
      : (Function.update objects created ⟨.opened, 0, 0⟩ object).kind
        = (objects object).kind := by
    by_cases here : object = created
    · subst here
      simp [fresh.1]
    · rw [Function.update_of_ne here]
  refine ⟨accounts.balanced.create ?_ ?_, ?_, ?_⟩
  · simp [refs_cons, refers, fresh.2.1]
  · intro object here
    have apart : ¬created = object := fun same => here same.symm
    simp [refs_cons, refers, apart]
  · intro other member
    rcases List.mem_cons.mp member with rfl | old
    · refine Or.inr ⟨notPipe, ops, hasOps, ?_, ?_, ?_⟩
      · rintro rfl
        simp [HandleOps.frees] at frees
      · intro _
        exact ⟨created, refers, by simp⟩
      · simp [frees]
    · exact (accounts.fdsTyped other old).congr (fun object _ => kinds object)
  · intro other member
    exact (accounts.streamsTyped other member).congr (fun object _ => kinds object)

/-- No stream has a copy of the object the handle would free. -/
def Unshared (streams : List Handle) (handle : Handle) : Prop :=
  handle.type ≠ .pipe
  → ∀ object, handle.impl = some object → ∀ stream ∈ streams, stream.impl ≠ some object

theorem Unshared.refs_eq {object : Nat} (unshared : Unshared streams handle)
    (notPipe : handle.type ≠ .pipe) (refers : handle.impl = some object)
    : refs streams object = 0 := by
  by_contra some_left
  obtain ⟨stream, member, same⟩ := refs_pos.mp (Nat.pos_of_ne_zero some_left)
  exact unshared notPipe object refers stream member same

theorem Accounts.close (accounts : Accounts objects created (handle :: fds) streams)
    (unshared : Unshared streams handle)
    : Accounts (closeHandle objects handle) created fds streams := by
  have kinds := kind_closeHandle objects handle
  refine ⟨?_, ?_, ?_⟩
  · have elsewhere (object : Nat) (apart : handle.impl ≠ some object)
        : refs fds object = refs (handle :: fds) object := by
      simp [refs_cons, apart]
    rcases accounts.fdsTyped handle (by simp) with
      ⟨_, isPipe, pipeEnd, pipe, write, refers, kind⟩
      | ⟨notPipe, ops, hasOps, different, frees, keeps⟩
    · have below := accounts.fd_created (by simp) refers
      simp only [closeHandle, isPipe, refers]
      apply accounts.balanced.pipeEndUnref below kind
      · simp [refs_cons, refers]
        omega
      · intro other apart
        exact ⟨elsewhere other (by simpa [refers] using fun same => apart same.symm), rfl⟩
    · cases opened : ops.frees with
      | true =>
          obtain ⟨object, refers, kind⟩ := frees opened
          have below := accounts.fd_created (by simp) refers
          have freed : closeHandle objects handle = kfree objects object := by
            cases ops <;> simp_all [closeHandle, HandleOps.frees]
          rw [freed]
          apply accounts.balanced.free below kind
          · simp [refs_cons, refers]
          · exact unshared.refs_eq notPipe refers
          · intro other apart
            exact elsewhere other (by simpa [refers] using fun same => apart same.symm)
      | false =>
          have plain := keeps opened
          have untouched : closeHandle objects handle = objects := by
            cases ops <;> simp_all [closeHandle, HandleOps.frees]
          have same : refs fds = refs (handle :: fds) :=
            funext (fun object => elsewhere object (by simp [plain]))
          rw [untouched, same]
          exact accounts.balanced
  · intro other member
    exact (accounts.fdsTyped other (by simp [member])).congr (fun object _ => kinds object)
  · intro other member
    exact (accounts.streamsTyped other member).congr (fun object _ => kinds object)

-- Streams

theorem kind_pipeEndRef (objects : Objects) (pipeEnd other : Nat)
    : (pipeEndRef objects pipeEnd other).kind = (objects other).kind :=
  kind_setCount objects pipeEnd _ other

section Frames

variable (kernel : System) (handle : Handle)

@[simp] theorem streamRef_created : (streamRef kernel handle).created = kernel.created := by
  simp only [streamRef]
  split
  · split <;> rfl
  · rfl

@[simp] theorem streamRef_tasks : (streamRef kernel handle).tasks = kernel.tasks := by
  simp only [streamRef]
  split
  · split <;> rfl
  · rfl

@[simp] theorem streamUnref_created : (streamUnref kernel handle).created = kernel.created := by
  simp only [streamUnref]
  split
  · split <;> rfl
  · rfl

@[simp] theorem streamUnref_tasks : (streamUnref kernel handle).tasks = kernel.tasks := by
  simp only [streamUnref]
  split
  · split <;> rfl
  · rfl

end Frames

variable {kernel : System} {dropped : List Handle}

theorem Accounts.streamRef (accounts : Accounts kernel.objects kernel.created fds streams)
    (held : handle ∈ fds)
    : Accounts (streamRef kernel handle).objects kernel.created fds
        (handle :: streams) := by
  have typed := accounts.fdsTyped handle held
  have elsewhere (object : Nat) (apart : handle.impl ≠ some object)
      : refs (handle :: streams) object = refs streams object := by
    simp [refs_cons, apart]
  rcases typed.stream with ⟨isPipe, pipeEnd, pipe, write, refers, kind⟩ | ⟨notPipe, opened⟩
  · have below := accounts.fd_created (List.mem_append_left _ held) refers
    have positive := refs_pos.mpr ⟨handle, held, refers⟩
    have kinds := kind_pipeEndRef kernel.objects pipeEnd
    simp only [Kernel.streamRef, isPipe, if_true, refers]
    refine ⟨?_, ?_, ?_⟩
    · apply accounts.balanced.pipeEndRef below kind (by omega)
      · simp [refs_cons, refers]
      · intro other apart
        exact elsewhere other (by simpa [refers] using fun same => apart same.symm)
    · intro other member
      exact (accounts.fdsTyped other member).congr (fun object _ => kinds object)
    · intro other member
      rcases List.mem_cons.mp member with rfl | old
      · exact typed.stream.congr (fun object _ => kinds object)
      · exact (accounts.streamsTyped other old).congr (fun object _ => kinds object)
  · simp only [Kernel.streamRef, notPipe, if_false]
    refine ⟨?_, accounts.fdsTyped, ?_⟩
    · cases refers : handle.impl with
      | none =>
          have same : refs (handle :: streams) = refs streams :=
            funext (fun object => elsewhere object (by simp [refers]))
          rw [same]
          exact accounts.balanced
      | some object =>
          have below := accounts.fd_created (List.mem_append_left _ held) refers
          apply accounts.balanced.restream below (opened object refers)
          · exact Or.inl (refs_pos.mpr ⟨handle, held, refers⟩)
          · intro other apart
            exact elsewhere other (by simpa [refers] using fun same => apart same.symm)
    · intro other member
      rcases List.mem_cons.mp member with rfl | old
      · exact typed.stream
      · exact accounts.streamsTyped other old

/-- Dropping a stream keeps the accounts. -/
theorem Accounts.streamUnref
    (accounts : Accounts kernel.objects kernel.created fds (handle :: streams))
    : Accounts (streamUnref kernel handle).objects kernel.created fds streams := by
  have elsewhere (object : Nat) (apart : handle.impl ≠ some object)
      : refs streams object = refs (handle :: streams) object := by
    simp [refs_cons, apart]
  rcases accounts.streamsTyped handle (by simp) with
    ⟨isPipe, pipeEnd, pipe, write, refers, kind⟩ | ⟨notPipe, opened⟩
  · have below := accounts.fd_created (by simp) refers
    have kinds := kind_pipeEndUnref kernel.objects pipeEnd
    simp only [Kernel.streamUnref, isPipe, if_true, refers]
    refine ⟨?_, ?_, ?_⟩
    · apply accounts.balanced.pipeEndUnref below kind
      · simp [refs_cons, refers]
        omega
      · intro other apart
        exact ⟨rfl, elsewhere other (by simpa [refers] using fun same => apart same.symm)⟩
    · intro other member
      exact (accounts.fdsTyped other member).congr (fun object _ => kinds object)
    · intro other member
      exact (accounts.streamsTyped other (by simp [member])).congr (fun object _ => kinds object)
  · simp only [Kernel.streamUnref, notPipe, if_false]
    refine ⟨?_, accounts.fdsTyped, fun other member =>
      accounts.streamsTyped other (by simp [member])⟩
    cases refers : handle.impl with
    | none =>
        have same : refs streams = refs (handle :: streams) :=
          funext (fun object => elsewhere object (by simp [refers]))
        rw [same]
        exact accounts.balanced
    | some object =>
        have below := accounts.fd_created (by simp) refers
        apply accounts.balanced.restream below (opened object refers)
        · exact Or.inr (by simp [refs_cons])
        · intro other apart
          exact elsewhere other (by simpa [refers] using fun same => apart same.symm)

-- Releasing everything a task holds

/-- The streams of pipe ends, whose references are counted. -/
def counted (streams : List Handle) : List Handle :=
  streams.filter (fun stream => stream.type = .pipe)

theorem Accounts.drop_uncounted
    (accounts : Accounts kernel.objects kernel.created fds (dropped ++ streams))
    : Accounts kernel.objects kernel.created fds (counted dropped ++ streams) := by
  induction dropped generalizing streams with
  | nil => exact accounts
  | cons handle rest ih =>
      by_cases isPipe : handle.type = .pipe
      · have later := ih (accounts.perm (List.Perm.refl _) List.perm_middle.symm)
        have same : counted (handle :: rest) = handle :: counted rest := by
          simp [counted, isPipe]
        rw [same]
        exact later.perm (List.Perm.refl _) List.perm_middle
      · have same : counted (handle :: rest) = counted rest := by
          simp [counted, isPipe]
        have dropped := accounts.streamUnref
        rw [Kernel.streamUnref, if_neg isPipe] at dropped
        rw [same]
        exact ih dropped

theorem Accounts.streamUnrefs
    (accounts : Accounts kernel.objects kernel.created fds (counted dropped ++ streams))
    : let after := dropped.foldl Kernel.streamUnref kernel
      Accounts after.objects after.created fds streams
      ∧ after.created = kernel.created
      ∧ after.tasks = kernel.tasks := by
  induction dropped generalizing kernel with
  | nil => exact ⟨accounts, rfl, rfl⟩
  | cons handle rest ih =>
      have first : Accounts (Kernel.streamUnref kernel handle).objects
          (Kernel.streamUnref kernel handle).created fds (counted rest ++ streams) := by
        rw [streamUnref_created]
        by_cases isPipe : handle.type = .pipe
        · have same : counted (handle :: rest) = handle :: counted rest := by
            simp [counted, isPipe]
          rw [same] at accounts
          exact accounts.streamUnref
        · have same : counted (handle :: rest) = counted rest := by
            simp [counted, isPipe]
          rw [same] at accounts
          rw [Kernel.streamUnref, if_neg isPipe]
          exact accounts
      obtain ⟨kept, created, tasks⟩ := ih first
      exact ⟨kept, created.trans (streamUnref_created _ _),
        tasks.trans (streamUnref_tasks _ _)⟩

theorem Accounts.releaseHandles {handles : List Handle}
    (accounts : Accounts kernel.objects kernel.created (handles ++ fds) streams)
    (unshared : ∀ handle ∈ handles, Unshared streams handle)
    : let after := releaseHandles kernel handles
      Accounts after.objects after.created fds streams
      ∧ after.created = kernel.created
      ∧ after.tasks = kernel.tasks := by
  induction handles generalizing kernel with
  | nil => exact ⟨accounts, rfl, rfl⟩
  | cons handle rest ih =>
      have first := accounts.close (unshared handle (by simp))
      exact ih first (fun other member => unshared other (by simp [member]))

theorem Accounts.teardown {task : Task}
    (accounts
      : Accounts kernel.objects kernel.created (openHandles task.fdtable ++ fds)
          ((task.inStreams ++ task.outStreams) ++ streams))
    (unshared : ∀ handle ∈ openHandles task.fdtable, Unshared streams handle)
    : let after := teardown kernel task
      Accounts after.objects after.created fds streams
      ∧ after.created = kernel.created
      ∧ after.tasks = kernel.tasks := by
  have uncounted := accounts.drop_uncounted
  obtain ⟨released, created, tasks⟩ := uncounted.releaseHandles (by
    intro handle member notPipe object refers stream inStreams same
    rcases List.mem_append.mp inStreams with own | other
    · have isPipe : stream.type = .pipe := by
        simpa [counted] using (List.mem_filter.mp own).2
      rcases uncounted.streamsTyped stream inStreams with
        ⟨_, pipeEnd, pipe, write, refersToo, kind⟩ | ⟨notPipeToo, _⟩
      · obtain rfl : object = pipeEnd := by simpa [same] using refersToo
        rcases (uncounted.fdsTyped handle (by simp [member])).stream with
          ⟨isPipeToo, _⟩ | ⟨_, opened⟩
        · exact notPipe isPipeToo
        · simp [opened object refers] at kind
      · exact notPipeToo isPipe
    · exact unshared handle member notPipe object refers stream other same)
  obtain ⟨dropped, createdToo, tasksToo⟩ := released.streamUnrefs
  exact ⟨dropped, createdToo.trans created, tasksToo.trans tasks⟩

-- Installing streams

theorem Accounts.installStreams {caller : FdTable} {installed rest : List Handle}
    (accounts : Accounts kernel.objects kernel.created fds ((installed ++ rest) ++ streams))
    (descriptors : List Nat) (held : ∀ handle ∈ openHandles caller, handle ∈ fds)
    : let outcome := installStreams caller kernel installed rest descriptors
      Accounts outcome.2.2.objects outcome.2.2.created fds (outcome.2.1 ++ streams)
      ∧ outcome.2.2.tasks = kernel.tasks := by
  induction descriptors generalizing kernel installed rest with
  | nil => exact ⟨accounts, rfl⟩
  | cons fd later ih =>
      simp only [Kernel.installStreams]
      cases found : returnHslot caller fd with
      | none => exact ⟨accounts, rfl⟩
      | some handle =>
          have member := held handle (returnHslot_mem found)
          cases rest with
          | nil =>
              have shared := accounts.streamRef member
              have order : (handle :: ((installed ++ []) ++ streams)).Perm
                  (((installed ++ [handle]) ++ []) ++ streams) := by
                rw [List.append_nil, List.append_nil, List.append_assoc]
                exact List.perm_middle.symm
              have first : Accounts (Kernel.streamRef kernel handle).objects
                  (Kernel.streamRef kernel handle).created fds
                  (((installed ++ [handle]) ++ []) ++ streams) := by
                rw [streamRef_created]
                exact shared.perm (List.Perm.refl _) order
              obtain ⟨kept, tasks⟩ := ih first
              exact ⟨kept, tasks.trans (streamRef_tasks _ _)⟩
          | cons old others =>
              have front : ((installed ++ old :: others) ++ streams).Perm
                  (old :: ((installed ++ others) ++ streams)) := by
                rw [List.append_assoc, List.append_assoc]
                exact List.perm_middle
              have dropped := (accounts.perm (List.Perm.refl _) front).streamUnref
              rw [← streamUnref_created kernel old] at dropped
              have shared := dropped.streamRef member
              have order : (handle :: ((installed ++ others) ++ streams)).Perm
                  (((installed ++ [handle]) ++ others) ++ streams) := by
                simpa using List.perm_middle.symm
              have first : Accounts
                  (Kernel.streamRef (Kernel.streamUnref kernel old) handle).objects
                  (Kernel.streamRef (Kernel.streamUnref kernel old) handle).created fds
                  (((installed ++ [handle]) ++ others) ++ streams) := by
                rw [streamRef_created]
                exact shared.perm (List.Perm.refl _) order
              obtain ⟨kept, tasks⟩ := ih first
              exact ⟨kept, tasks.trans
                ((streamRef_tasks _ _).trans (streamUnref_tasks _ _))⟩

-- Pipes

/-- A pipe with both its ends, each held by one descriptor. -/
theorem Accounts.add_pipe (accounts : Accounts objects created fds streams)
    : Accounts
        (Function.update
          (Function.update (Function.update objects created ⟨.pipe, 2, 0⟩) (created + 1)
            ⟨.pipeEnd created false, 1, 0⟩)
          (created + 2) ⟨.pipeEnd created true, 1, 0⟩)
        (created + 3)
        (⟨.pipe, some (created + 2), some .pipe, none⟩
          :: ⟨.pipe, some (created + 1), some .pipe, none⟩ :: fds)
        streams := by
  generalize result : Function.update
    (Function.update (Function.update objects created ⟨.pipe, 2, 0⟩) (created + 1)
      ⟨.pipeEnd created false, 1, 0⟩)
    (created + 2) ⟨.pipeEnd created true, 1, 0⟩ = changed
  have atPipe : changed created = ⟨.pipe, 2, 0⟩ := by
    rw [← result, Function.update_of_ne (by omega), Function.update_of_ne (by omega),
      Function.update_self]
  have atRead : changed (created + 1) = ⟨.pipeEnd created false, 1, 0⟩ := by
    rw [← result, Function.update_of_ne (by omega), Function.update_self]
  have atWrite : changed (created + 2) = ⟨.pipeEnd created true, 1, 0⟩ := by
    rw [← result, Function.update_self]
  have elsewhere (object : Nat) (apart : object < created ∨ created + 3 ≤ object)
      : changed object = objects object := by
    rw [← result, Function.update_of_ne (by omega), Function.update_of_ne (by omega),
      Function.update_of_ne (by omega)]
  have unheard (object : Nat) (late : created ≤ object)
      : refs fds object = 0 ∧ refs streams object = 0 :=
    (accounts.balanced.beyond object late).2
  have kinds (handle : Handle) (object : Nat) (refers : handle.impl = some object)
      (member : handle ∈ fds ++ streams)
      : (changed object).kind = (objects object).kind := by
    rw [elsewhere object (Or.inl (accounts.fd_created member refers))]
  refine ⟨?_, ?_, ?_⟩
  · apply accounts.balanced.extend (by omega)
    · intro object below
      refine ⟨elsewhere object (Or.inl below), ?_⟩
      have first : ¬created + 1 = object := by omega
      have second : ¬created + 2 = object := by omega
      simp [refs_cons, first, second]
    · intro object low high
      obtain rfl | rfl | rfl : object = created ∨ object = created + 1
          ∨ object = created + 2 := by omega
      · refine (settled_pipe (by rw [atPipe])).mpr ⟨?_, (unheard _ low).2, ?_⟩
        · simp [refs_cons, (unheard _ low).1]
        · have two : liveEnds changed object = 2 := by
            simp [liveEnds, endLive, atRead, atWrite]
          exact Or.inl ⟨by rw [atPipe], by rw [atPipe, two], by rw [two]; decide⟩
      · refine (settled_pipeEnd (by rw [atRead])).mpr (Or.inl ⟨by rw [atRead], ?_, ?_⟩)
        · simp [atRead, refs_cons, unheard _ low]
        · simp [refs_cons, unheard _ low]
      · refine (settled_pipeEnd (by rw [atWrite])).mpr (Or.inl ⟨by rw [atWrite], ?_, ?_⟩)
        · simp [atWrite, refs_cons, unheard _ low]
        · simp [refs_cons, unheard _ low]
    · intro pipeEnd low high pipe write shape
      obtain rfl | rfl | rfl : pipeEnd = created ∨ pipeEnd = created + 1
          ∨ pipeEnd = created + 2 := by omega
      · simp [atPipe] at shape
      · obtain ⟨rfl, _⟩ : created = pipe ∧ false = write := by simpa [atRead] using shape
        exact ⟨by omega, by omega, by rw [atPipe], Or.inl rfl⟩
      · obtain ⟨rfl, _⟩ : created = pipe ∧ true = write := by simpa [atWrite] using shape
        exact ⟨by omega, by omega, by rw [atPipe], Or.inr rfl⟩
    · intro object late
      rw [elsewhere object (Or.inr late)]
      have first : ¬created + 1 = object := by omega
      have second : ¬created + 2 = object := by omega
      have fresh := accounts.balanced.beyond object (by omega)
      exact ⟨fresh.1, by simp [refs_cons, first, second, fresh.2.1]⟩
  · intro handle member
    simp only [List.mem_cons] at member
    rcases member with rfl | rfl | old
    · exact Or.inl ⟨rfl, rfl, created + 2, created, true, rfl, by rw [atWrite]⟩
    · exact Or.inl ⟨rfl, rfl, created + 1, created, false, rfl, by rw [atRead]⟩
    · exact (accounts.fdsTyped handle old).congr
        (fun object refers => kinds handle object refers (by simp [old]))
  · intro handle member
    exact (accounts.streamsTyped handle member).congr
      (fun object refers => kinds handle object refers (by simp [member]))

theorem Accounts.add_released {changed : Objects} {grown : Nat}
    (accounts : Accounts objects created fds streams) (grows : created ≤ grown)
    (old : ∀ object < created, changed object = objects object)
    (released : ∀ object, created ≤ object → object < grown → (changed object).releases = 1)
    (paired : Paired changed created grown)
    (beyond : ∀ object, grown ≤ object → (changed object).kind = .opened)
    : Accounts changed grown fds streams := by
  have kinds (handle : Handle) (object : Nat) (refers : handle.impl = some object)
      (member : handle ∈ fds ++ streams)
      : (changed object).kind = (objects object).kind := by
    rw [old object (accounts.fd_created member refers)]
  refine ⟨accounts.balanced.extend_released grows old released paired beyond, ?_, ?_⟩
  · intro handle member
    exact (accounts.fdsTyped handle member).congr
      (fun object refers => kinds handle object refers (by simp [member]))
  · intro handle member
    exact (accounts.streamsTyped handle member).congr
      (fun object refers => kinds handle object refers (by simp [member]))

theorem foldl_kfree (objects : Objects) (freed : List Nat) (object : Nat)
    : freed.foldl kfree objects object
      = { objects object with
          releases := (objects object).releases + freed.count object } := by
  induction freed generalizing objects with
  | nil => rfl
  | cons first rest ih =>
      rw [List.foldl_cons, ih, List.count_cons]
      by_cases here : first = object
      · subst here
        simp [kfree]
        omega
      · have apart : object ≠ first := fun same => here same.symm
        simp [kfree, here, Function.update_of_ne apart]

theorem Accounts.failed_pipe {made : Objects} {grown : Nat} {freed : List Nat}
    (accounts : Accounts objects created fds streams) (grows : created < grown)
    (few : grown ≤ created + 3) (old : ∀ object < created, made object = objects object)
    (atPipe : made created = ⟨.pipe, 2, 0⟩)
    (ends
      : ∀ object, created < object → object < grown
        → ∃ write, made object = ⟨.pipeEnd created write, 1, 0⟩)
    (beyond : ∀ object, grown ≤ object → made object = objects object)
    (once : ∀ object, created ≤ object → object < grown → freed.count object = 1)
    (only : ∀ object ∈ freed, created ≤ object ∧ object < grown)
    : Accounts (freed.foldl kfree made) grown fds streams := by
  have elsewhere (object : Nat) (apart : object < created ∨ grown ≤ object)
      : freed.foldl kfree made object = made object := by
    have none_freed : freed.count object = 0 := by
      apply List.count_eq_zero_of_not_mem
      intro member
      have := only object member
      omega
    rw [foldl_kfree, none_freed]
    rfl
  apply accounts.add_released (by omega)
  · intro object below
    rw [elsewhere object (Or.inl below), old object below]
  · intro object low high
    rw [foldl_kfree, once object low high]
    rcases Nat.eq_or_lt_of_le low with rfl | later
    · simp [atPipe]
    · obtain ⟨write, made⟩ := ends object later high
      simp [made]
  · intro pipeEnd low high pipe write shape
    rw [foldl_kfree] at shape
    rcases Nat.eq_or_lt_of_le low with rfl | later
    · simp [atPipe] at shape
    · obtain ⟨flag, made⟩ := ends pipeEnd later high
      obtain ⟨rfl, _⟩ : created = pipe ∧ flag = write := by simpa [made] using shape
      refine ⟨Nat.le_refl _, grows, ?_, by omega⟩
      rw [foldl_kfree, atPipe]
  · intro object late
    rw [elsewhere object (Or.inr late), beyond object late]
    exact (accounts.balanced.beyond object (by omega)).1

end Panuti.Kernel
