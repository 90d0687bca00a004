import Panuti.Kernel.Task

/-! Accounts of the objects behind handles: how many descriptors and how many streams refer
to each object, and when reference counts and releases agree with these numbers. Each
operation on a handle or a stream keeps the accounts balanced.
-/

namespace Panuti.Kernel

-- References

/-- The number of handles that refer to the object. -/
def refs (handles : List Handle) (object : Nat) : Nat :=
  handles.countP (fun handle => handle.impl == some object)

@[simp] theorem refs_nil (object : Nat) : refs [] object = 0 := rfl

theorem refs_cons (handle : Handle) (handles : List Handle) (object : Nat)
    : refs (handle :: handles) object
      = refs handles object + if handle.impl = some object then 1 else 0 := by
  simp [refs, List.countP_cons]

theorem refs_perm {left right : List Handle} (perm : left.Perm right) (object : Nat)
    : refs left object = refs right object :=
  perm.countP_eq _

theorem refs_pos {handles : List Handle} {object : Nat}
    : 0 < refs handles object ↔ ∃ handle ∈ handles, handle.impl = some object := by
  simp [refs, List.countP_pos_iff]

/-- A pipe end that was not released yet counts one. -/
def endLive (objects : Objects) (pipe pipeEnd : Nat) : Int :=
  match (objects pipeEnd).kind with
  | .pipeEnd owner _ => if owner = pipe ∧ (objects pipeEnd).releases = 0 then 1 else 0
  | _ => 0

/-- The ends of a pipe that were not released yet. -/
def liveEnds (objects : Objects) (pipe : Nat) : Int :=
  endLive objects pipe (pipe + 1) + endLive objects pipe (pipe + 2)

/-- The reference count and the releases of one object agree with the number of
descriptors (`fds`) and of streams (`streams`) that refer to it.
-/
def Settled (objects : Objects) (fds streams : Nat → Nat) (object : Nat) : Prop :=
  match (objects object).kind with
  | .opened =>
      (objects object).releases = 0 ∧ fds object = 1
      ∨ (objects object).releases = 1 ∧ fds object = 0 ∧ streams object = 0
  | .pipeEnd _ _ =>
      (objects object).releases = 0
          ∧ (objects object).refcount = fds object + streams object
          ∧ 0 < fds object + streams object
      ∨ (objects object).releases = 1 ∧ fds object = 0 ∧ streams object = 0
  | .pipe =>
      fds object = 0
      ∧ streams object = 0
      ∧ ((objects object).releases = 0
            ∧ (objects object).refcount = liveEnds objects object
            ∧ 0 < liveEnds objects object
          ∨ (objects object).releases = 1 ∧ liveEnds objects object = 0)

/-- All objects created so far are settled, and ends belong to pipes. -/
structure Balanced (objects : Objects) (created : Nat) (fds streams : Nat → Nat) : Prop where
  settled : ∀ object < created, Settled objects fds streams object
  paired
    : ∀ pipeEnd < created, ∀ pipe write, (objects pipeEnd).kind = .pipeEnd pipe write
      → pipe < created
        ∧ (objects pipe).kind = .pipe
        ∧ (pipeEnd = pipe + 1 ∨ pipeEnd = pipe + 2)
  beyond
    : ∀ object, created ≤ object
      → (objects object).kind = .opened ∧ fds object = 0 ∧ streams object = 0

section Clauses

variable {objects : Objects} {fds streams : Nat → Nat} {object : Nat}

theorem settled_opened (shape : (objects object).kind = .opened)
    : Settled objects fds streams object
      ↔ (objects object).releases = 0 ∧ fds object = 1
        ∨ (objects object).releases = 1 ∧ fds object = 0 ∧ streams object = 0 := by
  simp only [Settled, shape]

theorem settled_pipeEnd {pipe : Nat} {write : Bool}
    (shape : (objects object).kind = .pipeEnd pipe write)
    : Settled objects fds streams object
      ↔ (objects object).releases = 0
            ∧ (objects object).refcount = fds object + streams object
            ∧ 0 < fds object + streams object
        ∨ (objects object).releases = 1 ∧ fds object = 0 ∧ streams object = 0 := by
  simp only [Settled, shape]

theorem settled_pipe (shape : (objects object).kind = .pipe)
    : Settled objects fds streams object
      ↔ fds object = 0
        ∧ streams object = 0
        ∧ ((objects object).releases = 0
              ∧ (objects object).refcount = liveEnds objects object
              ∧ 0 < liveEnds objects object
            ∨ (objects object).releases = 1 ∧ liveEnds objects object = 0) := by
  simp only [Settled, shape]

end Clauses

variable {objects changed : Objects} {fds streams fds' streams' : Nat → Nat}
    {object pipe created pipeEnd : Nat} {write : Bool}

theorem Settled.congr (settled : Settled objects fds streams object)
    (same : changed object = objects object)
    (sameRefs : fds' object = fds object ∧ streams' object = streams object)
    (live : liveEnds changed object = liveEnds objects object)
    : Settled changed fds' streams' object := by
  simpa only [Settled, same, sameRefs, live] using settled

-- Live ends

theorem liveEnds_congr (kind : ∀ object, (changed object).kind = (objects object).kind)
    (releases
      : ∀ object write, (objects object).kind = .pipeEnd pipe write
        → (changed object).releases = (objects object).releases)
    : liveEnds changed pipe = liveEnds objects pipe := by
  have same (pipeEnd : Nat)
      : endLive changed pipe pipeEnd = endLive objects pipe pipeEnd := by
    simp only [endLive, kind]
    cases shape : (objects pipeEnd).kind with
    | pipeEnd owner write =>
        by_cases mine : owner = pipe
        · subst mine
          simp [releases pipeEnd write shape]
        · simp [mine]
    | opened => rfl
    | pipe => rfl
  simp only [liveEnds, same]

theorem endLive_nonneg (objects : Objects) (pipe pipeEnd : Nat)
    : 0 ≤ endLive objects pipe pipeEnd := by
  simp only [endLive]
  split
  · split <;> simp
  · simp

theorem liveEnds_nonneg (objects : Objects) (pipe : Nat) : 0 ≤ liveEnds objects pipe := by
  have first := endLive_nonneg objects pipe (pipe + 1)
  have second := endLive_nonneg objects pipe (pipe + 2)
  simp only [liveEnds]
  omega

theorem Balanced.change_one (balanced : Balanced objects created fds streams)
    (below : object < created) (kind : (changed object).kind = (objects object).kind)
    (elsewhere : ∀ other, other ≠ object → changed other = objects other)
    (sameRefs
      : ∀ other, other ≠ object
        → fds' other = fds other ∧ streams' other = streams other)
    (released
      : ∀ pipe write, (objects object).kind = .pipeEnd pipe write
        → (changed object).releases = (objects object).releases)
    (settled : Settled changed fds' streams' object)
    : Balanced changed created fds' streams' := by
  have kinds (other : Nat) : (changed other).kind = (objects other).kind := by
    by_cases here : other = object
    · subst here
      exact kind
    · rw [elsewhere other here]
  have live (pipe : Nat) : liveEnds changed pipe = liveEnds objects pipe := by
    apply liveEnds_congr kinds
    intro other write shape
    by_cases here : other = object
    · subst here
      exact released pipe write shape
    · rw [elsewhere other here]
  constructor
  · intro other otherBelow
    by_cases here : other = object
    · subst here
      exact settled
    · exact (balanced.settled other otherBelow).congr (elsewhere other here)
        (sameRefs other here) (live other)
  · intro pipeEnd endBelow pipe write shape
    rw [kinds] at shape ⊢
    exact balanced.paired pipeEnd endBelow pipe write shape
  · intro other beyond
    have here : other ≠ object := by omega
    rw [kinds, (sameRefs other here).1, (sameRefs other here).2]
    exact balanced.beyond other beyond

-- Objects of an open

/-- The pipe ends among the objects created since belong to pipes among them. -/
def Paired (changed : Objects) (created grown : Nat) : Prop :=
  ∀ pipeEnd, created ≤ pipeEnd → pipeEnd < grown
    → ∀ pipe write, (changed pipeEnd).kind = .pipeEnd pipe write
    → created ≤ pipe
      ∧ pipe < grown
      ∧ (changed pipe).kind = .pipe
      ∧ (pipeEnd = pipe + 1 ∨ pipeEnd = pipe + 2)

theorem Balanced.extend {grown : Nat} (balanced : Balanced objects created fds streams)
    (grows : created ≤ grown)
    (old : ∀ object < created, changed object = objects object ∧ fds' object = fds object)
    (settled
      : ∀ object, created ≤ object → object < grown → Settled changed fds' streams object)
    (paired : Paired changed created grown)
    (beyond : ∀ object, grown ≤ object → (changed object).kind = .opened ∧ fds' object = 0)
    : Balanced changed grown fds' streams := by
  have live (pipe : Nat) (below : pipe < created)
      : liveEnds changed pipe = liveEnds objects pipe := by
    have same (pipeEnd : Nat)
        : endLive changed pipe pipeEnd = endLive objects pipe pipeEnd := by
      rcases Nat.lt_or_ge pipeEnd created with early | late
      · simp only [endLive, (old pipeEnd early).1]
      · have was : endLive objects pipe pipeEnd = 0 := by
          simp [endLive, (balanced.beyond pipeEnd late).1]
        rw [was]
        simp only [endLive]
        cases shape : (changed pipeEnd).kind with
        | opened => rfl
        | pipe => rfl
        | pipeEnd owner write =>
            have apart : owner ≠ pipe := by
              rcases Nat.lt_or_ge pipeEnd grown with new | fresh
              · have := (paired pipeEnd late new owner write shape).1
                omega
              · simp [(beyond pipeEnd fresh).1] at shape
            simp [apart]
    simp only [liveEnds, same]
  constructor
  · intro object below
    rcases Nat.lt_or_ge object created with early | late
    · exact (balanced.settled object early).congr (old object early).1
        ⟨(old object early).2, rfl⟩ (live object early)
    · exact settled object late below
  · intro pipeEnd below pipe write shape
    rcases Nat.lt_or_ge pipeEnd created with early | late
    · rw [(old pipeEnd early).1] at shape
      obtain ⟨small, isPipe, place⟩ := balanced.paired pipeEnd early pipe write shape
      exact ⟨by omega, by rw [(old pipe small).1]; exact isPipe, place⟩
    · exact (paired pipeEnd late below pipe write shape).2
  · intro object late
    have fresh := balanced.beyond object (by omega)
    exact ⟨(beyond object late).1, (beyond object late).2, fresh.2.2⟩

theorem Balanced.create (balanced : Balanced objects created fds streams) (one : fds' created = 1)
    (same : ∀ object, object ≠ created → fds' object = fds object)
    : Balanced (Function.update objects created ⟨.opened, 0, 0⟩) (created + 1) fds'
        streams := by
  apply balanced.extend (Nat.le_succ created)
  · intro object below
    have apart : object ≠ created := by omega
    exact ⟨Function.update_of_ne apart _ _, same object apart⟩
  · intro object low high
    obtain rfl : object = created := by omega
    exact (settled_opened (by simp)).mpr (Or.inl ⟨by simp, one⟩)
  · intro pipeEnd low high pipe write shape
    obtain rfl : pipeEnd = created := by omega
    simp at shape
  · intro object beyond
    have apart : object ≠ created := by omega
    have fresh := balanced.beyond object (by omega)
    rw [Function.update_of_ne apart, same object apart]
    exact ⟨fresh.1, fresh.2.1⟩

theorem Balanced.extend_released {grown : Nat} (balanced : Balanced objects created fds streams)
    (grows : created ≤ grown) (old : ∀ object < created, changed object = objects object)
    (released : ∀ object, created ≤ object → object < grown → (changed object).releases = 1)
    (paired : Paired changed created grown)
    (beyond : ∀ object, grown ≤ object → (changed object).kind = .opened)
    : Balanced changed grown fds streams := by
  apply balanced.extend grows (fun object below => ⟨old object below, rfl⟩) ?_ paired
  · intro object late
    exact ⟨beyond object late, (balanced.beyond object (by omega)).2.1⟩
  · intro object low high
    obtain ⟨_, noFds, noStreams⟩ := balanced.beyond object low
    have gone := released object low high
    cases shape : (changed object).kind with
    | opened => exact (settled_opened shape).mpr (Or.inr ⟨gone, noFds, noStreams⟩)
    | pipeEnd pipe write =>
        exact (settled_pipeEnd shape).mpr (Or.inr ⟨gone, noFds, noStreams⟩)
    | pipe =>
        have dead (pipeEnd : Nat) (behind : created ≤ pipeEnd)
            : endLive changed object pipeEnd = 0 := by
          rcases Nat.lt_or_ge pipeEnd grown with new | fresh
          · simp only [endLive, released pipeEnd behind new]
            split <;> simp
          · simp [endLive, beyond pipeEnd fresh]
        refine (settled_pipe shape).mpr ⟨noFds, noStreams, Or.inr ⟨gone, ?_⟩⟩
        simp only [liveEnds, dead (object + 1) (by omega), dead (object + 2) (by omega)]
        rfl

theorem Balanced.free {objects : Objects} {created object : Nat}
    {fds streams fds' : Nat → Nat}
    (balanced : Balanced objects created fds streams)
    (below : object < created) (shape : (objects object).kind = .opened)
    (held : fds object = fds' object + 1) (unshared : streams object = 0)
    (same : ∀ other, other ≠ object → fds' other = fds other)
    : Balanced (kfree objects object) created fds' streams := by
  apply balanced.change_one below
  · simp [kfree]
  · intro other here
    exact Function.update_of_ne here _ _
  · intro other here
    exact ⟨same other here, rfl⟩
  · simp [shape]
  · rw [settled_opened (by simp [kfree, shape])]
    rcases (settled_opened shape).mp (balanced.settled object below) with
      ⟨unreleased, one⟩ | ⟨_, none, _⟩
    · exact Or.inr ⟨by simp [kfree, unreleased], by omega, unshared⟩
    · omega

theorem Balanced.restream (balanced : Balanced objects created fds streams)
    (below : object < created) (shape : (objects object).kind = .opened)
    (held : 0 < fds object ∨ streams' object ≤ streams object)
    (same : ∀ other, other ≠ object → streams' other = streams other)
    : Balanced objects created fds streams' := by
  apply balanced.change_one below rfl
  · intro other _
    rfl
  · intro other here
    exact ⟨rfl, same other here⟩
  · intro _ _ _
    rfl
  · rw [settled_opened shape]
    rcases (settled_opened shape).mp (balanced.settled object below) with
      live | ⟨released, none, unshared⟩
    · exact Or.inl live
    · exact Or.inr ⟨released, none, by omega⟩

-- Pipe ends

theorem Balanced.pipeEndRef (balanced : Balanced objects created fds streams)
    (below : pipeEnd < created) (shape : (objects pipeEnd).kind = .pipeEnd pipe write)
    (held : 0 < fds pipeEnd + streams pipeEnd) (more : streams' pipeEnd = streams pipeEnd + 1)
    (same : ∀ other, other ≠ pipeEnd → streams' other = streams other)
    : Balanced (pipeEndRef objects pipeEnd) created fds streams' := by
  apply balanced.change_one below
  · simp [Kernel.pipeEndRef]
  · intro other here
    exact Function.update_of_ne here _ _
  · intro other here
    exact ⟨rfl, same other here⟩
  · simp [Kernel.pipeEndRef]
  · rw [settled_pipeEnd (by simpa [Kernel.pipeEndRef] using shape)]
    rcases (settled_pipeEnd shape).mp (balanced.settled pipeEnd below) with
      ⟨unreleased, count, _⟩ | ⟨_, noFds, noStreams⟩
    · refine Or.inl ⟨by simpa [Kernel.pipeEndRef] using unreleased, ?_, by omega⟩
      simp [Kernel.pipeEndRef, count, more]
      omega
    · omega

theorem liveEnds_release (shape : (objects pipeEnd).kind = .pipeEnd pipe write)
    (place : pipeEnd = pipe + 1 ∨ pipeEnd = pipe + 2) (unreleased : (objects pipeEnd).releases = 0)
    (kind : ∀ object, (changed object).kind = (objects object).kind)
    (released : (changed pipeEnd).releases = 1)
    (releases
      : ∀ object, object ≠ pipeEnd → object ≠ pipe
        → (changed object).releases = (objects object).releases)
    : liveEnds changed pipe = liveEnds objects pipe - 1 := by
  have gone : endLive changed pipe pipeEnd = 0 := by
    simp [endLive, kind, shape, released]
  have was : endLive objects pipe pipeEnd = 1 := by
    simp [endLive, shape, unreleased]
  have kept (other : Nat) (apart : other ≠ pipeEnd) (notPipe : other ≠ pipe)
      : endLive changed pipe other = endLive objects pipe other := by
    simp only [endLive, kind, releases other apart notPipe]
  simp only [liveEnds]
  rcases place with rfl | rfl
  · rw [gone, was, kept (pipe + 2) (by omega) (by omega)]
    omega
  · rw [gone, was, kept (pipe + 1) (by omega) (by omega)]
    omega

theorem pipeEndUnref_last (shape : (objects pipeEnd).kind = .pipeEnd pipe write)
    (apart : pipe ≠ pipeEnd) (last : (objects pipeEnd).refcount - 1 ≤ 0)
    : let after := pipeEndUnref objects pipeEnd
      after pipeEnd
          = ⟨.pipeEnd pipe write, (objects pipeEnd).refcount - 1,
              (objects pipeEnd).releases + 1⟩
      ∧ after pipe
          = ⟨(objects pipe).kind, (objects pipe).refcount - 1,
              (objects pipe).releases + if (objects pipe).refcount - 1 = 0 then 1 else 0⟩
      ∧ ∀ other, other ≠ pipeEnd → other ≠ pipe → after other = objects other := by
  have stop : ¬(objects pipeEnd).refcount - 1 > 0 := by omega
  simp only [pipeEndUnref, stop, if_false, pipeEndRelease, Function.update_self, shape,
    Function.update_of_ne apart]
  by_cases zero : (objects pipe).refcount - 1 = 0
  · simp only [zero, if_true, kfree]
    refine ⟨?_, ?_, ?_⟩
    · simp [Function.update_of_ne apart.symm]
    · simp [Function.update_of_ne apart]
    · intro other notEnd notPipe
      simp [Function.update_of_ne notEnd, Function.update_of_ne notPipe]
  · simp only [zero, if_false, kfree]
    refine ⟨?_, ?_, ?_⟩
    · simp [Function.update_of_ne apart.symm]
    · simp [Function.update_of_ne apart]
    · intro other notEnd notPipe
      simp [Function.update_of_ne notEnd, Function.update_of_ne notPipe]

theorem Balanced.pipeEndUnref (balanced : Balanced objects created fds streams)
    (below : pipeEnd < created) (shape : (objects pipeEnd).kind = .pipeEnd pipe write)
    (fewer : fds pipeEnd + streams pipeEnd = fds' pipeEnd + streams' pipeEnd + 1)
    (same
      : ∀ other, other ≠ pipeEnd → fds' other = fds other ∧ streams' other = streams other)
    : Balanced (pipeEndUnref objects pipeEnd) created fds' streams' := by
  obtain ⟨pipeBelow, pipeShape, place⟩ := balanced.paired pipeEnd below pipe write shape
  rcases (settled_pipeEnd shape).mp (balanced.settled pipeEnd below) with
    ⟨unreleased, count, _⟩ | ⟨_, noFds, noStreams⟩
  swap
  · omega
  by_cases last : fds' pipeEnd + streams' pipeEnd = 0
  · have apart : pipe ≠ pipeEnd := by omega
    obtain ⟨atEnd, atPipe, elsewhere⟩ := pipeEndUnref_last shape apart (by omega)
    generalize Kernel.pipeEndUnref objects pipeEnd = changed at atEnd atPipe elsewhere ⊢
    have kinds (other : Nat) : (changed other).kind = (objects other).kind := by
      by_cases isEnd : other = pipeEnd
      · rw [isEnd, atEnd, shape]
      · by_cases isPipe : other = pipe
        · rw [isPipe, atPipe]
        · rw [elsewhere other isEnd isPipe]
    have fewerEnds : liveEnds changed pipe = liveEnds objects pipe - 1 := by
      apply liveEnds_release shape place unreleased kinds
      · rw [atEnd, unreleased]
      · intro other isEnd isPipe
        rw [elsewhere other isEnd isPipe]
    have otherEnds (owner : Nat) (different : owner ≠ pipe)
        : liveEnds changed owner = liveEnds objects owner := by
      apply liveEnds_congr kinds
      intro other writeOther otherShape
      have isEnd : other ≠ pipeEnd := by
        rintro rfl
        rw [shape] at otherShape
        exact different (by injection otherShape with owners; exact owners.symm)
      have isPipe : other ≠ pipe := by
        rintro rfl
        simp [pipeShape] at otherShape
      rw [elsewhere other isEnd isPipe]
    constructor
    · intro other otherBelow
      by_cases isEnd : other = pipeEnd
      · subst isEnd
        rw [settled_pipeEnd (by rw [kinds]; exact shape)]
        exact Or.inr ⟨by rw [atEnd, unreleased], by omega, by omega⟩
      · by_cases isPipe : other = pipe
        · subst isPipe
          obtain ⟨noFds, noStreams, state⟩ :=
            (settled_pipe pipeShape).mp (balanced.settled other otherBelow)
          rw [settled_pipe (by rw [kinds]; exact pipeShape), fewerEnds, atPipe,
            (same other isEnd).1, (same other isEnd).2]
          refine ⟨noFds, noStreams, ?_⟩
          rcases state with ⟨open_, ends, some_ends⟩ | ⟨_, none_left⟩
          · simp only [open_, ends]
            by_cases zero : liveEnds objects other - 1 = 0
            · exact Or.inr ⟨by simp [zero], zero⟩
            · exact Or.inl ⟨by simp [zero], trivial, by omega⟩
          · have : 0 ≤ liveEnds changed other := liveEnds_nonneg changed other
            omega
        · exact (balanced.settled other otherBelow).congr (elsewhere other isEnd isPipe)
            (same other isEnd) (otherEnds other isPipe)
    · intro other otherBelow owner writeOther otherShape
      rw [kinds] at otherShape ⊢
      exact balanced.paired other otherBelow owner writeOther otherShape
    · intro other beyond
      have isEnd : other ≠ pipeEnd := by omega
      rw [kinds, (same other isEnd).1, (same other isEnd).2]
      exact balanced.beyond other beyond
  · have more : (objects pipeEnd).refcount - 1 > 0 := by omega
    simp only [Kernel.pipeEndUnref, more, if_true]
    apply balanced.change_one below
    · simp
    · intro other here
      exact Function.update_of_ne here _ _
    · exact same
    · simp
    · rw [settled_pipeEnd (by simpa using shape)]
      refine Or.inl ⟨by simpa using unreleased, ?_, by omega⟩
      simp [count]
      omega

end Panuti.Kernel
