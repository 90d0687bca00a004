import Mathlib.Data.List.Nodup
import Panuti.Pur.Numbering

/-! `pur_exec` and `pur_exec_plan`: which descriptors the commands of a wired expression are started
with, and what `-n` prints of them.
-/

namespace Panuti.Pur

open Library

-- What the shell asks for

/-- `pur_exec_status_t`, apart from what stops the wiring. -/
inductive ExecStatus where
  | ok
  | notfound
  | isdir
  | pipeCreate
  | procreate
  | builtin
deriving Repr, DecidableEq

/-- `PUR_DEFAULT_IN`. -/
def defaultIn : String := "/dvc/kbd/line"

/-- `PUR_DEFAULT_OUT`. -/
def defaultOut : String := "/dvc/console"

/-- What the shell asks of the system. A descriptor that it is given is none of those it has: a
slot of the table that is not in use.
-/
structure System where
  /-- The descriptors that the shell has before it runs a statement. -/
  held : List Nat
  /-- `check_leaf` of a command's name, with nothing for `PUR_EXEC_OK`. -/
  checks : List UInt8 → Option ExecStatus
  /-- `handle_open`, with nothing for an error. -/
  opens : String → (held : List Nat) → Option { fd : Nat // fd ∉ held }
  /-- `panutisysf_pipe_create`: the end to read and the end to write. -/
  pipes : (held : List Nat)
    → Option { ends : Nat × Nat // ends.1 ∉ held ∧ ends.2 ∉ held ∧ ends.1 ≠ ends.2 }
  /-- Whether `procreate` starts the command of a leaf. -/
  starts : Nat → Bool

/-- `in_count`, `out_count`, `in_fd` and `out_fd`, and the descriptors of `edges`. A slot that is not
written for this statement holds what an earlier one left there, which is nothing here.
-/
structure Streams where
  inCount : Nat → Nat
  outCount : Nat → Nat
  inFd : Nat → Nat → Option Nat
  outFd : Nat → Nat → Option Nat
  pipes : List (Nat × Nat)
  held : List Nat

/-- The streams behind `wire_graph`. -/
def Wires.streams (wires : Wires) (held : List Nat) : Streams :=
  { inCount := wires.inCount
    outCount := wires.outCount
    inFd := fun _ _ => none
    outFd := fun _ _ => none
    pipes := []
    held := held }

def fill (slots : Nat → Nat → Option Nat) (leaf stream fd : Nat) : Nat → Nat → Option Nat :=
  fun l s => if l = leaf ∧ s = stream then some fd else slots l s

def setOne (counts : Nat → Nat) (leaf : Nat) : Nat → Nat :=
  fun l => if l = leaf then 1 else counts l

/-- The first half of a turn of `wire_defaults`. -/
def wireDefaultIn (system : System) (leaf : Nat) (streams : Streams) : Option Streams :=
  if streams.inCount leaf = 0 then
    match system.opens defaultIn streams.held with
    | none => none
    | some fd =>
        some
          { streams with
            inFd := fill streams.inFd leaf 0 fd.1
            inCount := setOne streams.inCount leaf
            held := fd.1 :: streams.held }
  else some streams

/-- The second half of a turn of `wire_defaults`. -/
def wireDefaultOut (system : System) (leaf : Nat) (streams : Streams) : Option Streams :=
  if streams.outCount leaf = 0 then
    match system.opens defaultOut streams.held with
    | none => none
    | some fd =>
        some
          { streams with
            outFd := fill streams.outFd leaf 0 fd.1
            outCount := setOne streams.outCount leaf
            held := fd.1 :: streams.held }
  else some streams

/-- `wire_defaults`, for the leaves from one on. -/
def wireDefaults (system : System) : List Nat → Streams → Option Streams
  | [], streams => some streams
  | leaf :: leaves, streams => do
      let streams ← wireDefaultIn system leaf streams
      let streams ← wireDefaultOut system leaf streams
      wireDefaults system leaves streams

/-- `create_pipes`, for the edges from one on. -/
def createPipes (system : System) : List Edge → Streams → Option Streams
  | [], streams => some streams
  | edge :: edges, streams =>
      match system.pipes streams.held with
      | none => none
      | some ends =>
          createPipes system edges
            { streams with
              outFd := fill streams.outFd edge.src edge.srcStream ends.1.2
              inFd := fill streams.inFd edge.dst edge.dstStream ends.1.1
              pipes := streams.pipes ++ [ends.1]
              held := ends.1.1 :: ends.1.2 :: streams.held }

-- Starting the commands

/-- The first `in_count` descriptors of a leaf's `in_fd`. -/
def Streams.ins (streams : Streams) (leaf : Nat) : List (Option Nat) :=
  (List.range (streams.inCount leaf)).map (streams.inFd leaf)

/-- The first `out_count` descriptors of a leaf's `out_fd`. -/
def Streams.outs (streams : Streams) (leaf : Nat) : List (Option Nat) :=
  (List.range (streams.outCount leaf)).map (streams.outFd leaf)

/-- What `procreate` is given, as far as it reads: so many descriptors of both kinds as the counts
say.
-/
structure Call where
  argv : List (List UInt8)
  ins : List (Option Nat)
  outs : List (Option Nat)
deriving Repr, DecidableEq

/-- What `pur_exec` gives back, and what it called `procreate` with. -/
structure Execution where
  status : ExecStatus
  calls : List Call
deriving Repr, DecidableEq

/-- `pur_leaf_argv` of a leaf that there is. -/
def argvOf (line : List UInt8) (ast : Ast) (leaf : Nat) : List (List UInt8) :=
  (purLeafArgv line ast leaf).getD []

def isBuiltin (name : List UInt8) : Bool :=
  name = letters ['h', 'e', 'l', 'p'] || name = letters ['e', 'x', 'i', 't']
    || name = letters ['c', 'd']

/-- The turn of a leaf in the loop that looks for built-ins, with nothing for one that goes on. -/
def refuseBuiltin : List (List UInt8) → Option ExecStatus
  | [] => some .notfound
  | name :: _ => if isBuiltin name then some .builtin else none

def checkLeaf (system : System) : List (List UInt8) → Option ExecStatus
  | [] => some .notfound
  | name :: _ => system.checks name

def startAll (system : System) (line : List UInt8) (ast : Ast) (streams : Streams)
    : List Nat → List Call → Execution
  | [], calls => ⟨.ok, calls⟩
  | leaf :: leaves, calls =>
      let call := ⟨argvOf line ast leaf, streams.ins leaf, streams.outs leaf⟩
      if system.starts leaf then startAll system line ast streams leaves (calls ++ [call])
      else ⟨.procreate, calls ++ [call]⟩

/-- `pur_exec`, behind the wiring. What a built-in does is left out, and so is the waiting. -/
def execWired (system : System) (line : List UInt8) (ast : Ast) (wires : Wires) : Execution :=
  let leaves := List.range ast.leaves.length
  if ast.leaves.length = 0 then ⟨.ok, []⟩
  else if wires.edges = [] ∧ ast.leaves.length = 1 ∧ (argvOf line ast 0).head?.any isBuiltin then
    ⟨.ok, []⟩
  else
    match leaves.findSome? (fun leaf => refuseBuiltin (argvOf line ast leaf)) with
    | some status => ⟨status, []⟩
    | none =>
        match leaves.findSome? (fun leaf => checkLeaf system (argvOf line ast leaf)) with
        | some status => ⟨status, []⟩
        | none =>
            match wireDefaults system leaves (wires.streams system.held) with
            | none => ⟨.procreate, []⟩
            | some streams =>
                match createPipes system wires.edges streams with
                | none => ⟨.pipeCreate, []⟩
                | some streams => startAll system line ast streams leaves []

def purExec (system : System) (line : List UInt8) (ast : Ast) (root : Nat)
    : Except Fault Execution := do
  let wires ← wireGraph ast root
  return execWired system line ast wires

/-- A line of `-n`. -/
structure Planned where
  name : List UInt8
  ins : Nat
  outs : Nat
deriving Repr, DecidableEq

def purExecPlan (line : List UInt8) (ast : Ast) (root : Nat) : Except Fault (List Planned) := do
  let wires ← wireGraph ast root
  return (List.range ast.leaves.length).map fun leaf =>
    { name := (argvOf line ast leaf).head?.getD (letters ['?'])
      ins := wires.inCount leaf
      outs := wires.outCount leaf }

-- Slots

theorem fill_self (slots : Nat → Nat → Option Nat) (leaf stream fd : Nat)
    : fill slots leaf stream fd leaf stream = some fd :=
  if_pos ⟨rfl, rfl⟩

variable {slots : Nat → Nat → Option Nat} {leaf : Nat} {counts : Nat → Nat} {system : System}
    {before later : Streams} {edges : List Edge} {at' number : Edge → Nat}

theorem fill_other {stream fd l s : Nat} (other : l = leaf → s ≠ stream)
    : fill slots leaf stream fd l s = slots l s :=
  if_neg fun ⟨same, at'⟩ => other same at'

theorem setOne_self (counts : Nat → Nat) (leaf : Nat) : setOne counts leaf leaf = 1 :=
  if_pos rfl

theorem setOne_other {l : Nat} (other : l ≠ leaf) : setOne counts leaf l = counts l :=
  if_neg other

-- Default streams

/-- What `wire_defaults` does for one kind of stream: a leaf that has none gets one, with a
descriptor that is open, and a leaf that has some keeps them.
-/
structure Defaulted (leaves : List Nat) (counts later : Nat → Nat)
    (slots filled : Nat → Nat → Option Nat) (held : List Nat)
    : Prop where
  count : ∀ leaf ∈ leaves, later leaf = max 1 (counts leaf)
  slot : ∀ leaf ∈ leaves, counts leaf = 0 → ∃ fd ∈ held, filled leaf 0 = some fd
  keeps : ∀ leaf, counts leaf ≠ 0 → later leaf = counts leaf ∧ filled leaf = slots leaf

theorem Defaulted.nil (counts : Nat → Nat) (slots : Nat → Nat → Option Nat) (held : List Nat)
    : Defaulted [] counts counts slots slots held :=
  ⟨nofun, nofun, fun _ _ => ⟨rfl, rfl⟩⟩

/-- A leaf before others. -/
theorem Defaulted.cons {leaf : Nat} {leaves : List Nat} {counts middle later : Nat → Nat}
    {slots between filled : Nat → Nat → Option Nat} {held more : List Nat}
    (first : Defaulted [leaf] counts middle slots between held)
    (rest : Defaulted leaves middle later between filled more)
    (others : ∀ l, l ≠ leaf → middle l = counts l) (subset : held ⊆ more)
    : Defaulted (leaf :: leaves) counts later slots filled more := by
  have one := first.count leaf (List.mem_cons_self ..)
  have stays := rest.keeps leaf (by omega)
  refine ⟨?_, ?_, ?_⟩
  · intro l member
    by_cases same : l = leaf
    · subst same
      rw [stays.1, one]
    · rw [rest.count l ((List.mem_cons.mp member).resolve_left same), others l same]
  · intro l member zero
    by_cases same : l = leaf
    · subst same
      obtain ⟨fd, open', found⟩ := first.slot l (List.mem_cons_self ..) zero
      exact ⟨fd, subset open', by rw [stays.2, found]⟩
    · exact rest.slot l ((List.mem_cons.mp member).resolve_left same) (by rw [others l same, zero])
  · intro l some'
    obtain ⟨count, slot⟩ := first.keeps l some'
    obtain ⟨countToo, slotToo⟩ := rest.keeps l (by rw [count]; exact some')
    exact ⟨countToo.trans count, slotToo.trans slot⟩

/-- What `wire_defaults` does to streams of both kinds. -/
structure DefaultedBoth (leaves : List Nat) (before later : Streams) : Prop where
  ins : Defaulted leaves before.inCount later.inCount before.inFd later.inFd later.held
  outs : Defaulted leaves before.outCount later.outCount before.outFd later.outFd later.held
  held : before.held ⊆ later.held
  pipes : later.pipes = before.pipes

theorem Defaulted.one {fd : Nat} {held : List Nat} (none' : counts leaf = 0) (open' : fd ∈ held)
    : Defaulted [leaf] counts (setOne counts leaf) slots (fill slots leaf 0 fd) held := by
  refine ⟨?_, ?_, ?_⟩
  · intro l member
    rw [List.mem_singleton.mp member, setOne_self, none']
    rfl
  · intro l member _
    rw [List.mem_singleton.mp member]
    exact ⟨fd, open', fill_self slots leaf 0 fd⟩
  · intro l some'
    have other : l ≠ leaf := fun same => some' (same ▸ none')
    exact ⟨setOne_other other, funext fun s => fill_other fun same => absurd same other⟩

theorem Defaulted.keep {held : List Nat} (some' : counts leaf ≠ 0)
    : Defaulted [leaf] counts counts slots slots held := by
  refine ⟨?_, ?_, fun _ _ => ⟨rfl, rfl⟩⟩
  · intro l member
    rw [List.mem_singleton.mp member]
    omega
  · intro l member zero
    rw [List.mem_singleton.mp member] at zero
    exact absurd zero some'

theorem wireDefaultIn_some (done : wireDefaultIn system leaf before = some later)
    : Defaulted [leaf] before.inCount later.inCount before.inFd later.inFd later.held
      ∧ (∀ l, l ≠ leaf → later.inCount l = before.inCount l)
      ∧ before.held ⊆ later.held
      ∧ later.outCount = before.outCount ∧ later.outFd = before.outFd
      ∧ later.pipes = before.pipes := by
  rw [wireDefaultIn] at done
  split at done
  next none' =>
    split at done
    · cases done
    next fd _ =>
      cases done
      exact ⟨.one none' (List.mem_cons_self ..), fun _ => setOne_other, List.subset_cons_self ..,
        rfl, rfl, rfl⟩
  next some' =>
    cases done
    exact ⟨.keep some', fun _ _ => rfl, List.Subset.refl _, rfl, rfl, rfl⟩

theorem wireDefaultOut_some (done : wireDefaultOut system leaf before = some later)
    : Defaulted [leaf] before.outCount later.outCount before.outFd later.outFd later.held
      ∧ (∀ l, l ≠ leaf → later.outCount l = before.outCount l)
      ∧ before.held ⊆ later.held
      ∧ later.inCount = before.inCount ∧ later.inFd = before.inFd
      ∧ later.pipes = before.pipes := by
  rw [wireDefaultOut] at done
  split at done
  next none' =>
    split at done
    · cases done
    next fd _ =>
      cases done
      exact ⟨.one none' (List.mem_cons_self ..), fun _ => setOne_other, List.subset_cons_self ..,
        rfl, rfl, rfl⟩
  next some' =>
    cases done
    exact ⟨.keep some', fun _ _ => rfl, List.Subset.refl _, rfl, rfl, rfl⟩

theorem wireDefaults_some {leaves : List Nat}
    (done : wireDefaults system leaves before = some later)
    : DefaultedBoth leaves before later := by
  induction leaves generalizing before with
  | nil =>
      cases done
      exact ⟨.nil .., .nil .., List.Subset.refl _, rfl⟩
  | cons leaf leaves ih =>
      rw [wireDefaults] at done
      obtain ⟨one, doneIn, done⟩ := Option.bind_eq_some_iff.mp done
      obtain ⟨two, doneOut, done⟩ := Option.bind_eq_some_iff.mp done
      obtain ⟨ins, othersIn, heldIn, outCount, outFd, pipesIn⟩ := wireDefaultIn_some doneIn
      obtain ⟨outs, othersOut, heldOut, inCount, inFd, pipesOut⟩ := wireDefaultOut_some doneOut
      have rest := ih done
      rw [← inCount, ← inFd] at ins
      rw [outCount, outFd] at outs
      refine ⟨?_, ?_, ?_, ?_⟩
      · refine ins.cons rest.ins ?_ (List.Subset.trans heldOut rest.held)
        intro l other
        rw [inCount, othersIn l other]
      · refine outs.cons rest.outs ?_ rest.held
        intro l other
        rw [othersOut l other, outCount]
      · exact List.Subset.trans heldIn (List.Subset.trans heldOut rest.held)
      · rw [rest.pipes, pipesOut, pipesIn]

-- Pipes

/-- Slots of one kind before and after the descriptors of a row were put into theirs. -/
structure Placed (row : List ((Nat × Nat) × Nat)) (slots filled : Nat → Nat → Option Nat)
    : Prop where
  mine : ∀ entry ∈ row, filled entry.1.1 entry.1.2 = some entry.2
  others : ∀ leaf stream, (∀ entry ∈ row, entry.1 ≠ (leaf, stream))
    → filled leaf stream = slots leaf stream

theorem Placed.cons {leaf stream fd : Nat} {row : List ((Nat × Nat) × Nat)}
    {slots filled : Nat → Nat → Option Nat}
    (rest : Placed row (fill slots leaf stream fd) filled)
    (apart : ∀ entry ∈ row, entry.1 ≠ (leaf, stream))
    : Placed (((leaf, stream), fd) :: row) slots filled := by
  constructor
  · intro entry member
    rcases List.mem_cons.mp member with rfl | member
    · exact (rest.others leaf stream apart).trans (fill_self slots leaf stream fd)
    · exact rest.mine entry member
  · intro l s other
    rw [rest.others l s fun entry member => other entry (List.mem_cons_of_mem _ member)]
    apply fill_other
    rintro rfl rfl
    exact other _ (List.mem_cons_self ..) rfl

/-- The ends of some pipes are all different, and none of them was open before. -/
structure Fresh (held : List Nat) (made : List (Nat × Nat)) : Prop where
  reads : (made.map Prod.fst).Nodup
  writes : (made.map Prod.snd).Nodup
  apart : ∀ one ∈ made, ∀ two ∈ made, one.1 ≠ two.2
  readsNew : ∀ ends ∈ made, ends.1 ∉ held
  writesNew : ∀ ends ∈ made, ends.2 ∉ held

theorem Fresh.cons {held : List Nat} {made : List (Nat × Nat)} {ends : Nat × Nat}
    (fresh : Fresh (ends.1 :: ends.2 :: held) made)
    (new : ends.1 ∉ held ∧ ends.2 ∉ held ∧ ends.1 ≠ ends.2)
    : Fresh held (ends :: made) := by
  have reads (one : Nat × Nat) (member : one ∈ made)
      : one.1 ≠ ends.1 ∧ one.1 ≠ ends.2 ∧ one.1 ∉ held := by
    simpa only [List.mem_cons, not_or] using fresh.readsNew one member
  have writes (one : Nat × Nat) (member : one ∈ made)
      : one.2 ≠ ends.1 ∧ one.2 ≠ ends.2 ∧ one.2 ∉ held := by
    simpa only [List.mem_cons, not_or] using fresh.writesNew one member
  refine ⟨?_, ?_, ?_, ?_, ?_⟩
  · refine List.nodup_cons.mpr ⟨fun member => ?_, fresh.reads⟩
    obtain ⟨one, among, same⟩ := List.mem_map.mp member
    exact (reads one among).1 same
  · refine List.nodup_cons.mpr ⟨fun member => ?_, fresh.writes⟩
    obtain ⟨one, among, same⟩ := List.mem_map.mp member
    exact (writes one among).2.1 same
  · intro one memberOne two memberTwo
    rcases List.mem_cons.mp memberOne with sameOne | memberOne
    · rcases List.mem_cons.mp memberTwo with sameTwo | memberTwo
      · rw [sameOne, sameTwo]
        exact new.2.2
      · rw [sameOne]
        exact (writes two memberTwo).1.symm
    · rcases List.mem_cons.mp memberTwo with sameTwo | memberTwo
      · rw [sameTwo]
        exact (reads one memberOne).2.1
      · exact fresh.apart one memberOne two memberTwo
  · intro one member
    rcases List.mem_cons.mp member with rfl | member
    · exact new.1
    · exact (reads one member).2.2
  · intro one member
    rcases List.mem_cons.mp member with rfl | member
    · exact new.2.1
    · exact (writes one member).2.2

/-- The slots that edges have at their sources, with the ends to write. -/
def sourceRow (edges : List Edge) (made : List (Nat × Nat)) : List ((Nat × Nat) × Nat) :=
  (edges.zip made).map fun entry => ((entry.1.src, entry.1.srcStream), entry.2.2)

/-- The slots that edges have at their targets, with the ends to read. -/
def targetRow (edges : List Edge) (made : List (Nat × Nat)) : List ((Nat × Nat) × Nat) :=
  (edges.zip made).map fun entry => ((entry.1.dst, entry.1.dstStream), entry.2.1)

/-- What `create_pipes` does for some edges. -/
structure Piped (edges : List Edge) (before later : Streams) (made : List (Nat × Nat)) : Prop where
  length : made.length = edges.length
  pipes : later.pipes = before.pipes ++ made
  inCount : later.inCount = before.inCount
  outCount : later.outCount = before.outCount
  sources : Placed (sourceRow edges made) before.outFd later.outFd
  targets : Placed (targetRow edges made) before.inFd later.inFd
  fresh : Fresh before.held made

theorem createPipes_some (sources : (edges.map fun edge => (edge.src, edge.srcStream)).Nodup)
    (targets : (edges.map fun edge => (edge.dst, edge.dstStream)).Nodup)
    (done : createPipes system edges before = some later)
    : ∃ made, Piped edges before later made := by
  induction edges generalizing before with
  | nil =>
      cases done
      exact ⟨[], rfl, (List.append_nil _).symm, rfl, rfl, ⟨nofun, fun _ _ _ => rfl⟩,
        ⟨nofun, fun _ _ _ => rfl⟩, ⟨List.nodup_nil, List.nodup_nil, nofun, nofun, nofun⟩⟩
  | cons edge edges ih =>
      rw [createPipes] at done
      split at done
      · cases done
      next ends _ =>
        obtain ⟨notSource, sources⟩ := List.nodup_cons.mp sources
        obtain ⟨notTarget, targets⟩ := List.nodup_cons.mp targets
        obtain ⟨made, piped⟩ := ih sources targets done
        refine ⟨ends.1 :: made, ?_, ?_, piped.inCount, piped.outCount, ?_, ?_, ?_⟩
        · rw [List.length_cons, List.length_cons, piped.length]
        · rw [piped.pipes, List.append_assoc, List.singleton_append]
        · refine piped.sources.cons ?_
          intro entry member same
          obtain ⟨⟨other, _⟩, among, rfl⟩ := List.mem_map.mp member
          exact notSource (List.mem_map.mpr ⟨other, (List.of_mem_zip among).1, same⟩)
        · refine piped.targets.cons ?_
          intro entry member same
          obtain ⟨⟨other, _⟩, among, rfl⟩ := List.mem_map.mp member
          exact notTarget (List.mem_map.mpr ⟨other, (List.of_mem_zip among).1, same⟩)
        · exact piped.fresh.cons ends.2

-- The descriptors of a leaf

theorem slots_nodup {count : Nat → Nat} (distinct : edges.Nodup)
    (numbers : ∀ leaf, (edges.filter fun edge => at' edge = leaf).map number
      = List.range (count leaf))
    : (edges.map fun edge => (at' edge, number edge)).Nodup := by
  refine List.Nodup.map_on ?_ distinct
  intro one memberOne two memberTwo same
  obtain ⟨here, numbered⟩ := Prod.mk.inj same
  have nodup : ((edges.filter fun edge => at' edge = at' two).map number).Nodup := by
    rw [numbers]
    exact List.nodup_range
  exact List.inj_on_of_nodup_map nodup
    (List.mem_filter.mpr ⟨memberOne, decide_eq_true here⟩)
    (List.mem_filter.mpr ⟨memberTwo, decide_eq_true rfl⟩) numbered

theorem slots_eq {made : List (Nat × Nat)} {ending : Nat × Nat → Nat}
    {filled : Nat → Nat → Option Nat} {count : Nat} (long : made.length = edges.length)
    (numbers : (edges.filter fun edge => at' edge = leaf).map number = List.range count)
    (mine : ∀ entry ∈ edges.zip made,
      filled (at' entry.1) (number entry.1) = some (ending entry.2))
    : (List.range count).map (filled leaf)
      = ((edges.zip made).filter fun entry => at' entry.1 = leaf).map
          fun entry => some (ending entry.2) := by
  have whole : (edges.zip made).map Prod.fst = edges := List.map_fst_zip (Nat.le_of_eq long.symm)
  have filtered : (edges.filter fun edge => at' edge = leaf)
      = ((edges.zip made).filter fun entry => at' entry.1 = leaf).map Prod.fst := by
    conv_lhs => rw [← whole, List.filter_map]
    rfl
  rw [← numbers, filtered, List.map_map, List.map_map]
  apply List.map_congr_left
  intro entry member
  obtain ⟨among, here⟩ := List.mem_filter.mp member
  have here : at' entry.1 = leaf := of_decide_eq_true here
  have held := mine entry among
  rw [here] at held
  exact held

/-- What the slots of one kind hold for a leaf: one default stream if it has no edges, otherwise the
ends of the pipes of its edges.
-/
structure Supplied (edges : List Edge) (made : List (Nat × Nat)) (at' : Edge → Nat)
    (ending : Nat × Nat → Nat) (held : List Nat) (leaf : Nat) (slots : List (Option Nat))
    : Prop where
  default : (∀ edge ∈ edges, at' edge ≠ leaf) → ∃ fd ∈ held, slots = [some fd]
  piped : (∃ edge ∈ edges, at' edge = leaf)
    → slots = ((edges.zip made).filter fun entry => at' entry.1 = leaf).map
        fun entry => some (ending entry.2)

section

variable {edges : List Edge} {made : List (Nat × Nat)} {at' : Edge → Nat}
  {ending : Nat × Nat → Nat} {held : List Nat} {leaf : Nat} {slots : List (Option Nat)}

theorem Supplied.length (supplied : Supplied edges made at' ending held leaf slots)
    (long : made.length = edges.length)
    : slots.length = max 1 (edges.filter fun edge => at' edge = leaf).length := by
  by_cases some' : ∃ edge ∈ edges, at' edge = leaf
  · have whole : (edges.zip made).map Prod.fst = edges := List.map_fst_zip (Nat.le_of_eq long.symm)
    have positive : 0 < (edges.filter fun edge => at' edge = leaf).length := by
      obtain ⟨edge, among, here⟩ := some'
      exact List.length_pos_of_mem (List.mem_filter.mpr ⟨among, decide_eq_true here⟩)
    rw [Nat.max_eq_right positive, supplied.piped some', List.length_map]
    conv_rhs => rw [← whole, List.filter_map, List.length_map]
    rfl
  · have none' (edge : Edge) (among : edge ∈ edges) : at' edge ≠ leaf :=
      fun here => some' ⟨edge, among, here⟩
    obtain ⟨fd, -, same⟩ := supplied.default none'
    have empty : (edges.filter fun edge => at' edge = leaf) = [] := by
      simpa [List.filter_eq_nil_iff] using none'
    rw [same, empty]
    rfl

theorem Supplied.mem (supplied : Supplied edges made at' ending held leaf slots)
    {slot : Option Nat} (member : slot ∈ slots)
    : ∃ fd, slot = some fd
        ∧ (fd ∈ held ∨ ∃ entry ∈ edges.zip made, at' entry.1 = leaf ∧ fd = ending entry.2) := by
  by_cases some' : ∃ edge ∈ edges, at' edge = leaf
  · rw [supplied.piped some'] at member
    obtain ⟨entry, among, rfl⟩ := List.mem_map.mp member
    obtain ⟨among, here⟩ := List.mem_filter.mp among
    exact ⟨_, rfl, Or.inr ⟨entry, among, of_decide_eq_true here, rfl⟩⟩
  · obtain ⟨fd, open', same⟩ :=
      supplied.default fun edge among here => some' ⟨edge, among, here⟩
    rw [same] at member
    exact ⟨fd, List.mem_singleton.mp member, Or.inl open'⟩

theorem Supplied.count_eq (supplied : Supplied edges made at' ending held leaf slots)
    (long : made.length = edges.length) (nodup : (made.map ending).Nodup)
    (new : ∀ ends ∈ made, ending ends ∉ held) {entry : Edge × (Nat × Nat)}
    (member : entry ∈ edges.zip made)
    : slots.count (some (ending entry.2)) = if leaf = at' entry.1 then 1 else 0 := by
  have isEdge := (List.of_mem_zip member).1
  have isPipe := (List.of_mem_zip member).2
  have nodup : ((edges.zip made).map fun entry => ending entry.2).Nodup := by
    have ends : (edges.zip made).map Prod.snd = made := List.map_snd_zip (Nat.le_of_eq long)
    rw [← ends, List.map_map] at nodup
    exact nodup
  by_cases here : leaf = at' entry.1
  · rw [if_pos here, supplied.piped ⟨entry.1, isEdge, here.symm⟩]
    apply List.count_eq_one_of_mem
    · have all : ((edges.zip made).map fun entry => some (ending entry.2)).Nodup := by
        have some' := List.Nodup.map (fun _ _ => Option.some.inj) nodup
        rwa [List.map_map] at some'
      exact all.sublist (List.filter_sublist.map _)
    · exact List.mem_map_of_mem (List.mem_filter.mpr ⟨member, decide_eq_true here.symm⟩)
  · rw [if_neg here]
    apply List.count_eq_zero_of_not_mem
    intro among
    obtain ⟨fd, same, open' | ⟨other, isOther, there, same'⟩⟩ := supplied.mem among
    · cases same
      exact new _ isPipe open'
    · cases same
      have same := List.inj_on_of_nodup_map nodup member isOther same'
      exact here (by rw [same, there])

end

/-- Default streams and pipes supply every leaf. -/
theorem Defaulted.supplied {made : List (Nat × Nat)} {ending : Nat × Nat → Nat} {held : List Nat}
    {leaves : List Nat} {later : Nat → Nat} {filled final : Nat → Nat → Option Nat}
    (defaulted : Defaulted leaves counts later slots filled held) (inside : leaf ∈ leaves)
    (numbers : (edges.filter fun edge => at' edge = leaf).map number = List.range (counts leaf))
    (long : made.length = edges.length)
    (placed : Placed
      ((edges.zip made).map fun entry => ((at' entry.1, number entry.1), ending entry.2))
      filled final)
    : Supplied edges made at' ending held leaf ((List.range (later leaf)).map (final leaf)) := by
  have counted : counts leaf = (edges.filter fun edge => at' edge = leaf).length := by
    rw [← List.length_map (f := number), numbers, List.length_range]
  constructor
  · intro none'
    have zero : counts leaf = 0 := by
      rw [counted, List.length_eq_zero_iff, List.filter_eq_nil_iff]
      exact fun edge among here => none' edge among (of_decide_eq_true here)
    obtain ⟨fd, open', found⟩ := defaulted.slot leaf inside zero
    have stays : final leaf 0 = filled leaf 0 := by
      apply placed.others
      intro entry member same
      obtain ⟨⟨edge, ends⟩, among, rfl⟩ := List.mem_map.mp member
      exact none' edge (List.of_mem_zip among).1 (Prod.mk.inj same).1
    refine ⟨fd, open', ?_⟩
    rw [defaulted.count leaf inside, zero, ← found, ← stays]
    rfl
  · rintro ⟨edge, among, here⟩
    have positive : counts leaf ≠ 0 := by
      rw [counted]
      exact Nat.ne_of_gt (List.length_pos_of_mem (List.mem_filter.mpr ⟨among, decide_eq_true here⟩))
    rw [(defaulted.keeps leaf positive).1]
    exact slots_eq long numbers fun entry member =>
      placed.mine _ (List.mem_map_of_mem member)

-- What the commands are started with

/-- The descriptors of the leaves of a wiring: as many as there are edges, or one, all of them
written, and the two ends of a pipe at the leaves of its edge and nowhere else.
-/
structure Handed (ast : Ast) (wires : Wires) (streams : Streams) : Prop where
  insLength : ∀ leaf < ast.leaves.length,
    (streams.ins leaf).length = max 1 (wires.into leaf).length
  outsLength : ∀ leaf < ast.leaves.length,
    (streams.outs leaf).length = max 1 (wires.outOf leaf).length
  insFilled : ∀ leaf < ast.leaves.length, none ∉ streams.ins leaf
  outsFilled : ∀ leaf < ast.leaves.length, none ∉ streams.outs leaf
  pipes : streams.pipes.length = wires.edges.length
  written : ∀ entry ∈ wires.edges.zip streams.pipes, ∀ leaf < ast.leaves.length,
    (streams.outs leaf).count (some entry.2.2) = (if leaf = entry.1.src then 1 else 0)
      ∧ some entry.2.2 ∉ streams.ins leaf
  read : ∀ entry ∈ wires.edges.zip streams.pipes, ∀ leaf < ast.leaves.length,
    (streams.ins leaf).count (some entry.2.1) = (if leaf = entry.1.dst then 1 else 0)
      ∧ some entry.2.1 ∉ streams.outs leaf

/-- The streams that a numbered wiring is given. -/
theorem Numbered.handed {ast : Ast} {wires : Wires} {one streams : Streams}
    (numbered : Numbered wires)
    (defaults : wireDefaults system (List.range ast.leaves.length) (wires.streams system.held)
      = some one)
    (created : createPipes system wires.edges one = some streams)
    : Handed ast wires streams := by
  have both := wireDefaults_some defaults
  have distinct : wires.edges.Nodup := numbered.distinct.of_map _
  obtain ⟨made, piped⟩ := createPipes_some (slots_nodup distinct numbered.sources)
    (slots_nodup distinct numbered.targets) created
  have pipes : streams.pipes = made := by
    rw [piped.pipes, both.pipes]
    rfl
  have fresh := piped.fresh
  have outs (leaf : Nat) (inside : leaf < ast.leaves.length)
      : Supplied wires.edges made Edge.src Prod.snd one.held leaf (streams.outs leaf) := by
    rw [Streams.outs, piped.outCount]
    exact both.outs.supplied (List.mem_range.mpr inside) (numbered.sources leaf) piped.length
      piped.sources
  have ins (leaf : Nat) (inside : leaf < ast.leaves.length)
      : Supplied wires.edges made Edge.dst Prod.fst one.held leaf (streams.ins leaf) := by
    rw [Streams.ins, piped.inCount]
    exact both.ins.supplied (List.mem_range.mpr inside) (numbered.targets leaf) piped.length
      piped.targets
  refine ⟨?_, ?_, ?_, ?_, ?_, ?_, ?_⟩
  · exact fun leaf inside => (ins leaf inside).length piped.length
  · exact fun leaf inside => (outs leaf inside).length piped.length
  · intro leaf inside member
    obtain ⟨fd, same, -⟩ := (ins leaf inside).mem member
    cases same
  · intro leaf inside member
    obtain ⟨fd, same, -⟩ := (outs leaf inside).mem member
    cases same
  · rw [pipes, piped.length]
  · rw [pipes]
    intro entry member leaf inside
    have isPipe := (List.of_mem_zip member).2
    refine ⟨(outs leaf inside).count_eq piped.length fresh.writes fresh.writesNew member, ?_⟩
    intro among
    obtain ⟨fd, same, open' | ⟨other, isOther, -, same'⟩⟩ := (ins leaf inside).mem among
    · exact fresh.writesNew _ isPipe (Option.some.inj same ▸ open')
    · exact fresh.apart _ (List.of_mem_zip isOther).2 _ isPipe
        (same'.symm.trans (Option.some.inj same).symm)
  · rw [pipes]
    intro entry member leaf inside
    have isPipe := (List.of_mem_zip member).2
    refine ⟨(ins leaf inside).count_eq piped.length fresh.reads fresh.readsNew member, ?_⟩
    intro among
    obtain ⟨fd, same, open' | ⟨other, isOther, -, same'⟩⟩ := (outs leaf inside).mem among
    · exact fresh.readsNew _ isPipe (Option.some.inj same ▸ open')
    · exact fresh.apart _ isPipe _ (List.of_mem_zip isOther).2
        ((Option.some.inj same).trans same')

/-- What `procreate` is called with for a leaf. -/
def Streams.call (streams : Streams) (line : List UInt8) (ast : Ast) (leaf : Nat) : Call :=
  ⟨argvOf line ast leaf, streams.ins leaf, streams.outs leaf⟩

theorem startAll_calls (system : System) (line : List UInt8) (ast : Ast) (streams : Streams)
    (leaves : List Nat) (calls : List Call)
    : (startAll system line ast streams leaves calls).calls
        <+: calls ++ leaves.map (streams.call line ast) := by
  induction leaves generalizing calls with
  | nil => exact ⟨[], by rw [startAll, List.map_nil]⟩
  | cons leaf leaves ih =>
      rw [List.map_cons, List.append_cons, startAll]
      split
      · exact ih _
      · exact List.prefix_append ..

theorem execWired_calls (system : System) (line : List UInt8) {ast : Ast} {wires : Wires}
    (numbered : Numbered wires)
    : (execWired system line ast wires).calls = []
      ∨ ∃ streams, Handed ast wires streams
        ∧ (execWired system line ast wires).calls
            <+: (List.range ast.leaves.length).map (streams.call line ast) := by
  rw [execWired]
  split
  · exact Or.inl rfl
  split
  · exact Or.inl rfl
  split
  · exact Or.inl rfl
  split
  · exact Or.inl rfl
  split
  · exact Or.inl rfl
  next one defaults =>
    split
    · exact Or.inl rfl
    next streams created =>
      exact Or.inr ⟨streams, numbered.handed defaults created,
        startAll_calls system line ast streams _ []⟩

/-- Of an expression that is wired the edges are all different, go forward and are numbered from 0 on
at both of their leaves; `-n` prints how many there are at a leaf; and what is started has so many
streams, or one, with the ends of a pipe at the leaves of its edge.
-/
theorem purExec_numbers {grants : Nat → Bool} {parsed : Parsed} {index root : Nat} {ast : Ast}
    {wires : Wires} (loaded : purParseLoad grants parsed index = .ok (root, ast))
    (wired : wireGraph ast root = .ok wires) (system : System) (line : List UInt8)
    : (wires.edges.map fun edge => (edge.src, edge.dst)).Nodup
      ∧ (∀ edge ∈ wires.edges, edge.src < edge.dst ∧ edge.dst < ast.leaves.length)
      ∧ (∀ leaf, (wires.outOf leaf).map Edge.srcStream = List.range (wires.outOf leaf).length
          ∧ (wires.into leaf).map Edge.dstStream = List.range (wires.into leaf).length)
      ∧ (∃ plan, purExecPlan line ast root = .ok plan
          ∧ plan.map (fun planned => (planned.ins, planned.outs))
            = (List.range ast.leaves.length).map fun leaf =>
                ((wires.into leaf).length, (wires.outOf leaf).length))
      ∧ ∃ execution, purExec system line ast root = .ok execution
          ∧ (execution.calls = []
            ∨ ∃ streams, Handed ast wires streams
              ∧ execution.calls
                <+: (List.range ast.leaves.length).map (streams.call line ast)) := by
  have numbered := (wireGraph_numbered ast root).value wired
  refine ⟨numbered.distinct, wireGraph_forward loaded wired, ?_, ?_, ?_⟩
  · intro leaf
    rw [numbered.sources, numbered.targets, numbered.outCount_eq, numbered.inCount_eq]
    exact ⟨rfl, rfl⟩
  · rw [purExecPlan, wired]
    refine ⟨_, rfl, ?_⟩
    rw [List.map_map]
    apply List.map_congr_left
    intro leaf _
    rw [← numbered.outCount_eq, ← numbered.inCount_eq]
    rfl
  · rw [purExec, wired]
    exact ⟨_, rfl, execWired_calls system line numbered⟩

def lowestFree (held : List Nat) : Option { fd : Nat // fd ∉ held } :=
  ((List.range (held.length + 1)).filter fun fd => decide (fd ∉ held)).attach.head?.map fun fd =>
    ⟨fd.1, by simpa using (List.mem_filter.mp fd.2).2⟩

/-- A system that has every command and opens everything, at the lowest descriptor. -/
def roomySystem : System where
  held := [0, 1]
  checks := fun _ => none
  opens := fun _ held => lowestFree held
  pipes := fun held =>
    match lowestFree held with
    | none => none
    | some rfd =>
        match lowestFree (rfd.1 :: held) with
        | none => none
        | some wfd =>
            some ⟨(rfd.1, wfd.1), rfd.2, fun member => wfd.2 (List.mem_cons_of_mem _ member),
              fun same => wfd.2 (List.mem_cons.mpr (Or.inl same.symm))⟩
  starts := fun _ => true

/-- `a>b` starts `a` with the end to write of a pipe, and `b` with the end to read. -/
example : purExec roomySystem [0x61, 0, 0x62, 0] pipePools 2
    = .ok ⟨.ok, [⟨[[0x61]], [some 2], [some 5]⟩, ⟨[[0x62]], [some 4], [some 3]⟩]⟩ := by
  rfl

theorem purExec_numbers_small
    : ∃ wires, wireGraph pipePools 2 = .ok wires
      ∧ (∀ edge ∈ wires.edges, edge.src < edge.dst ∧ edge.dst < 2)
      ∧ ∃ execution, purExec roomySystem pipeLine.line pipePools 2 = .ok execution := by
  have loaded : purParseLoad grantAll pipeLine 0 = .ok (2, pipePools) := by decide +kernel
  obtain ⟨wires, wired⟩ := @exists_ok _ _ (wireGraph pipePools 2) (by decide)
  obtain ⟨-, forward, -, -, execution, ran, -⟩ :=
    purExec_numbers loaded wired roomySystem pipeLine.line
  exact ⟨wires, wired, forward, execution, ran⟩

end Panuti.Pur
