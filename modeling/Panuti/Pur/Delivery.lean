import Panuti.Pur.Commands
import Panuti.Pur.Located
import Panuti.Pur.Wiring

/-! Which pipes of an expression reach a command: those inside the sides of a pipe always do, and
the outermost one when its right side has a command that takes a stream from outside.
-/

namespace Panuti.Pur

open Library

-- Trees and their pipes

/-- The commands that the output of a tree comes from. -/
def Tree.ends {α : Type} : Tree α → List α
  | .leaf command => [command]
  | .group members => members.flatMap Tree.ends
  | .pipe _ right => right.ends

def Tree.pipes {α : Type} : Tree α → List (Tree α × Tree α)
  | .leaf _ => []
  | .group members => members.flatMap Tree.pipes
  | .pipe left right => left.pipes ++ (right.pipes ++ [(left, right)])

def Tree.command {α : Type} : Tree α → List α
  | .leaf command => [command]
  | _ => []

/-- The commands of a group's member that take a stream from outside. -/
def Tree.bareSides {α : Type} : Tree α → List α
  | .leaf command => [command]
  | .group _ => []
  | .pipe left right => left.command ++ right.command

def Tree.bare {α : Type} : Tree α → List α
  | .group members => members.flatMap Tree.bareSides
  | tree => tree.bareSides

variable {α : Type} {tree left right : Tree Nat} {joined joinedToo : Nat → Nat → Prop}
    {wires : Wires} {ast : Ast} {n : Nat}

theorem Tree.ends_subset (tree : Tree α) : tree.ends ⊆ tree.leaves := by
  induction tree using Tree.induct with
  | leaf command => simp [Tree.ends, Tree.leaves]
  | group members ih =>
      intro leaf member
      rw [Tree.ends] at member
      rw [Tree.leaves]
      obtain ⟨tree, among, member⟩ := List.mem_flatMap.mp member
      exact List.mem_flatMap.mpr ⟨tree, among, ih tree among member⟩
  | pipe left right ihLeft ihRight =>
      intro leaf member
      rw [Tree.ends] at member
      rw [Tree.leaves]
      exact List.mem_append_right _ (ihRight member)

theorem Tree.command_subset (tree : Tree α) : tree.command ⊆ tree.leaves := by
  cases tree with
  | leaf command => simp [Tree.command, Tree.leaves]
  | group members => exact List.nil_subset _
  | pipe left right => exact List.nil_subset _

theorem Tree.bareSides_subset (tree : Tree α) : tree.bareSides ⊆ tree.leaves := by
  cases tree with
  | leaf command => simp [Tree.bareSides, Tree.leaves]
  | group members => exact List.nil_subset _
  | pipe left right =>
      intro leaf member
      rw [Tree.leaves]
      rcases List.mem_append.mp member with member | member
      · exact List.mem_append_left _ (left.command_subset member)
      · exact List.mem_append_right _ (right.command_subset member)

theorem Tree.bare_subset (tree : Tree α) : tree.bare ⊆ tree.leaves := by
  cases tree with
  | leaf command => exact (Tree.leaf command).bareSides_subset
  | group members =>
      intro leaf member
      rw [Tree.leaves]
      obtain ⟨tree, among, member⟩ := List.mem_flatMap.mp member
      exact List.mem_flatMap.mpr ⟨tree, among, tree.bareSides_subset member⟩
  | pipe left right => exact (Tree.pipe left right).bareSides_subset

theorem Tree.Proper.ends_ne_nil (proper : tree.Proper) : tree.ends ≠ [] := by
  induction tree using Tree.induct with
  | leaf command => simp [Tree.ends]
  | group members ih =>
      rw [Tree.Proper] at proper
      obtain ⟨first, rest, rfl⟩ := List.exists_cons_of_ne_nil proper.1
      have some := ih first (List.mem_cons_self ..) (proper.2 first (List.mem_cons_self ..))
      rw [Tree.ends, List.flatMap_cons]
      simp [some]
  | pipe left right ihLeft ihRight =>
      rw [Tree.Proper] at proper
      rw [Tree.ends]
      exact ihRight proper.2.1

theorem Tree.Proper.pipe_mem (proper : tree.Proper) (member : (left, right) ∈ tree.pipes)
    : (Tree.pipe left right).Proper ∧ left.leaves ⊆ tree.leaves ∧ right.leaves ⊆ tree.leaves := by
  induction tree using Tree.induct with
  | leaf command => simp [Tree.pipes] at member
  | group members ih =>
      rw [Tree.Proper] at proper
      rw [Tree.pipes] at member
      obtain ⟨tree, among, member⟩ := List.mem_flatMap.mp member
      obtain ⟨inner, inLeft, inRight⟩ := ih tree among (proper.2 tree among) member
      have part : tree.leaves ⊆ (Tree.group members).leaves := by
        rw [Tree.leaves]
        exact fun leaf within => List.mem_flatMap.mpr ⟨tree, among, within⟩
      exact ⟨inner, List.Subset.trans inLeft part, List.Subset.trans inRight part⟩
  | pipe first second ihFirst ihSecond =>
      have parts := proper
      rw [Tree.Proper] at parts
      rw [Tree.pipes] at member
      rw [Tree.leaves]
      rcases List.mem_append.mp member with member | member
      · obtain ⟨inner, inLeft, inRight⟩ := ihFirst parts.1 member
        exact ⟨inner, List.Subset.trans inLeft (List.subset_append_left ..),
          List.Subset.trans inRight (List.subset_append_left ..)⟩
      rcases List.mem_append.mp member with member | member
      · obtain ⟨inner, inLeft, inRight⟩ := ihSecond parts.2.1 member
        exact ⟨inner, List.Subset.trans inLeft (List.subset_append_right ..),
          List.Subset.trans inRight (List.subset_append_right ..)⟩
      · cases List.mem_singleton.mp member
        exact ⟨proper, List.subset_append_left .., List.subset_append_right ..⟩

-- Edges that are added

def Wires.Has (wires : Wires) (src dst : Nat) : Prop :=
  ∃ edge ∈ wires.edges, edge.src = src ∧ edge.dst = dst

/-- The edges after are those before and some between different leaves. -/
def Gains (joined : Nat → Nat → Prop) (wires later : Wires) : Prop :=
  ∀ src dst, later.Has src dst ↔ wires.Has src dst ∨ (src ≠ dst ∧ joined src dst)

theorem Gains.none (wires : Wires) (nothing : ∀ src dst, ¬ joined src dst)
    : Gains joined wires wires := by
  intro src dst
  simp [nothing src dst]

theorem Gains.trans {middle later : Wires} (gains : Gains joined wires middle)
    (gainsToo : Gains joinedToo middle later)
    : Gains (fun src dst => joined src dst ∨ joinedToo src dst) wires later := by
  intro src dst
  rw [gainsToo src dst, gains src dst, or_assoc, and_or_left]

theorem Gains.congr {later : Wires} (gains : Gains joined wires later)
    (same : ∀ src dst, joined src dst ↔ joinedToo src dst)
    : Gains joinedToo wires later := by
  intro src dst
  rw [gains src dst, same src dst]

def Fault.Limit (fault : Fault) : Prop := fault = .pipes ∨ fault = .streams

theorem addEdge_settles (src dst : Nat) (wires : Wires)
    : Settles Fault.Limit (Gains (fun s d => s = src ∧ d = dst) wires) (addEdge src dst wires) := by
  rw [addEdge]
  split
  next same =>
    intro s d
    constructor
    · exact Or.inl
    · rintro (has | ⟨differ, rfl, rfl⟩)
      · exact has
      · exact absurd same differ
  split
  next differ there =>
    obtain ⟨edge, among, is⟩ := List.any_eq_true.mp there
    have is : edge.src = src ∧ edge.dst = dst := of_decide_eq_true is
    intro s d
    constructor
    · exact Or.inl
    · rintro (has | ⟨_, rfl, rfl⟩)
      · exact has
      · exact ⟨edge, among, is⟩
  split
  · exact Or.inl rfl
  split
  · exact Or.inr rfl
  next differ _ _ _ =>
    intro s d
    simp only [Wires.Has, List.mem_append, List.mem_singleton]
    constructor
    · rintro ⟨edge, among | rfl, rfl, rfl⟩
      · exact Or.inl ⟨edge, among, rfl, rfl⟩
      · exact Or.inr ⟨differ, rfl, rfl⟩
    · rintro (⟨edge, among, is⟩ | ⟨_, rfl, rfl⟩)
      · exact ⟨edge, Or.inl among, is⟩
      · exact ⟨_, Or.inr rfl, rfl, rfl⟩

theorem deliverLeaf_settles (srcs : List Nat) (leaf : Nat) (wires : Wires)
    : Settles Fault.Limit (Gains (fun s d => s ∈ srcs ∧ d ∈ [leaf]) wires)
        (deliverLeaf srcs leaf wires) := by
  have run : Settles Fault.Limit
      (fun later => Gains (fun s d => s ∈ srcs ∧ d ∈ [leaf]) wires later)
      (srcs.foldlM (fun wires src => addEdge src leaf wires) wires) := by
    apply Settles.foldlM
      (fun before later => Gains (fun s d => s ∈ before ∧ d ∈ [leaf]) wires later)
    · exact .none wires (by simp)
    · intro before src wires' _ gains
      apply (addEdge_settles src leaf wires').mono (fun _ => id)
      intro later more
      apply (gains.trans more).congr
      intro s d
      simp only [List.mem_append, List.mem_singleton]
      constructor
      · rintro (⟨member, rfl⟩ | ⟨rfl, rfl⟩)
        · exact ⟨Or.inl member, rfl⟩
        · exact ⟨Or.inr rfl, rfl⟩
      · rintro ⟨member | rfl, rfl⟩
        · exact Or.inl ⟨member, rfl⟩
        · exact Or.inr ⟨rfl, rfl⟩
  exact run

-- Walks over the nodes

theorem Ast.Numbers.leaf {ast : Ast} {n leaf : Nat} (numbers : ast.Numbers n (.leaf leaf))
    : ast.node n = .ok ⟨.leaf, leaf, 0, 0⟩ := by
  simp only [Ast.Numbers, Ast.Yields] at numbers
  obtain ⟨_, found, rfl⟩ := numbers
  rw [Ast.node, found]

theorem Ast.Numbers.group {ast : Ast} {n : Nat} {members : List (Tree Nat)}
    (numbers : ast.Numbers n (.group members))
    : ∃ first, ast.node n = .ok ⟨.group, first, members.length, 0⟩
        ∧ ast.YieldsAll (fun leaf number => leaf = number)
          (ast.groupMembers ⟨.group, first, members.length, 0⟩) members := by
  simp only [Ast.Numbers, Ast.Yields] at numbers
  obtain ⟨first, found, -, all⟩ := numbers
  refine ⟨first, ?_, all⟩
  rw [Ast.node, found]

theorem Ast.Numbers.pipe (numbers : ast.Numbers n (.pipe left right))
    : ∃ first rhs, ast.node n = .ok ⟨.expr, first, 0, rhs⟩ ∧ ast.Numbers first left
        ∧ ast.Numbers rhs right := by
  simp only [Ast.Numbers, Ast.Yields] at numbers
  obtain ⟨first, rhs, found, numbersLeft, numbersRight⟩ := numbers
  refine ⟨first, rhs, ?_, numbersLeft, numbersRight⟩
  rw [Ast.node, found]

theorem foldlM_members {ε σ : Type} {holds : Nat → α → Prop} {fails : ε → Prop}
    {step : σ → Nat → Except ε σ} (done : List (Tree α) → σ → Prop) {nodes : List Nat}
    {trees : List (Tree α)} {s : σ} (all : ast.YieldsAll holds nodes trees) (start : done [] s)
    (turn : ∀ before n tree s, tree ∈ trees → ast.Yields holds n tree → done before s
      → Settles fails (done (before ++ [tree])) (step s n))
    : Settles fails (done trees) (nodes.foldlM step s) := by
  obtain ⟨pairs, rfl, rfl, each⟩ : ∃ pairs : List (Nat × Tree α), pairs.map Prod.fst = nodes
      ∧ pairs.map Prod.snd = trees ∧ ∀ pair ∈ pairs, ast.Yields holds pair.1 pair.2 := by
    clear start turn
    induction nodes generalizing trees with
    | nil =>
        cases trees with
        | nil => exact ⟨[], rfl, rfl, nofun⟩
        | cons tree trees => simp only [Ast.YieldsAll] at all
    | cons n nodes ih =>
        cases trees with
        | nil => simp only [Ast.YieldsAll] at all
        | cons tree trees =>
            simp only [Ast.YieldsAll] at all
            obtain ⟨pairs, rfl, rfl, each⟩ := ih all.2
            refine ⟨(n, tree) :: pairs, rfl, rfl, ?_⟩
            intro pair member
            rcases List.mem_cons.mp member with rfl | member
            · exact all.1
            · exact each pair member
  rw [List.foldlM_map]
  apply Settles.foldlM (fun before s => done (before.map Prod.snd) s) start
  intro before pair s member held
  rw [List.map_append, List.map_singleton]
  exact turn _ pair.1 pair.2 s (List.mem_map_of_mem member) (each pair member) held

theorem Tree.exists_fuel {tree : Tree α} {fuel : Nat} (enough : tree.height ≤ fuel)
    : ∃ more, fuel = more + 1 := by
  have positive : 0 < tree.height := by
    cases tree <;> rw [Tree.height] <;> exact Nat.succ_pos _
  exact ⟨fuel - 1, by omega⟩

/-- The outputs of a tree are its ends. -/
theorem outputsCollect_settles (ast : Ast) (tree : Tree Nat)
    : ∀ (fuel n : Nat) (out : List Nat), ast.Numbers n tree → tree.height ≤ fuel
      → Settles Fault.Limit (fun later => later = out ++ tree.ends)
          (outputsCollect ast fuel n out) := by
  induction tree using Tree.induct with
  | leaf leaf =>
      intro fuel n out numbers enough
      obtain ⟨fuel, rfl⟩ := Tree.exists_fuel enough
      rw [outputsCollect, numbers.leaf]
      change Settles _ _ (if maxLeaves ≤ out.length then _ else _)
      split
      · exact Or.inr rfl
      · rw [Tree.ends]
        rfl
  | group members ih =>
      intro fuel n out numbers enough
      obtain ⟨fuel, rfl⟩ := Tree.exists_fuel enough
      obtain ⟨first, found, all⟩ := numbers.group
      rw [outputsCollect, found, Tree.ends]
      apply foldlM_members (fun before later => later = out ++ before.flatMap Tree.ends) all
      · simp
      · rintro before member tree out' among numbers rfl
        have small := Tree.height_member among
        apply (ih tree among fuel member _ numbers (by omega)).mono (fun _ => id)
        rintro later rfl
        simp
  | pipe left right _ ih =>
      intro fuel n out numbers enough
      obtain ⟨fuel, rfl⟩ := Tree.exists_fuel enough
      obtain ⟨first, rhs, found, -, numbersRight⟩ := numbers.pipe
      rw [outputsCollect, found, Tree.ends]
      rw [Tree.height] at enough
      exact ih fuel rhs out numbersRight (by omega)

theorem deliverInternal_settles (ast : Ast) (srcs : List Nat) (tree : Tree Nat)
    : ∀ (fuel n : Nat) (wires : Wires), ast.Numbers n tree → tree.height ≤ fuel
      → Settles Fault.Limit (Gains (fun s d => s ∈ srcs ∧ d ∈ tree.ends) wires)
          (deliverInternal ast srcs fuel n wires) := by
  induction tree using Tree.induct with
  | leaf leaf =>
      intro fuel n wires numbers enough
      obtain ⟨fuel, rfl⟩ := Tree.exists_fuel enough
      rw [deliverInternal, numbers.leaf, Tree.ends]
      exact deliverLeaf_settles srcs leaf wires
  | group members ih =>
      intro fuel n wires numbers enough
      obtain ⟨fuel, rfl⟩ := Tree.exists_fuel enough
      obtain ⟨first, found, all⟩ := numbers.group
      rw [deliverInternal, found, Tree.ends]
      apply foldlM_members
        (fun before later =>
          Gains (fun s d => s ∈ srcs ∧ d ∈ before.flatMap Tree.ends) wires later) all
      · exact .none wires (by simp)
      · intro before member tree wires' among numbers gains
        have small := Tree.height_member among
        apply (ih tree among fuel member wires' numbers (by omega)).mono (fun _ => id)
        intro later more
        apply (gains.trans more).congr
        intro s d
        rw [List.flatMap_append, List.mem_append, List.flatMap_singleton, and_or_left]
  | pipe left right _ ih =>
      intro fuel n wires numbers enough
      obtain ⟨fuel, rfl⟩ := Tree.exists_fuel enough
      obtain ⟨first, rhs, found, -, numbersRight⟩ := numbers.pipe
      rw [deliverInternal, found, Tree.ends]
      rw [Tree.height] at enough
      exact ih fuel rhs wires numbersRight (by omega)

theorem deliverBare_settles (numbers : ast.Numbers n tree) (srcs : List Nat) (wires : Wires)
    : Settles Fault.Limit (Gains (fun s d => s ∈ srcs ∧ d ∈ tree.command) wires)
        (deliverBare ast srcs n wires) := by
  rw [deliverBare]
  cases tree with
  | leaf leaf =>
      rw [numbers.leaf]
      exact deliverLeaf_settles srcs leaf wires
  | group members =>
      obtain ⟨first, found, -⟩ := numbers.group
      rw [found]
      exact Gains.none wires (by simp [Tree.command])
  | pipe left right =>
      obtain ⟨first, rhs, found, -⟩ := numbers.pipe
      rw [found]
      exact Gains.none wires (by simp [Tree.command])

theorem wireBareSides_settles (numbers : ast.Numbers n (.pipe left right)) (srcs : List Nat)
    (wires : Wires)
    : Settles Fault.Limit
        (Gains (fun s d => s ∈ srcs ∧ d ∈ (Tree.pipe left right).bareSides) wires)
        (wireBareSides ast srcs n wires) := by
  obtain ⟨first, rhs, found, numbersLeft, numbersRight⟩ := numbers.pipe
  rw [wireBareSides, found]
  apply (deliverBare_settles numbersLeft srcs wires).bind
  intro middle gains
  apply (deliverBare_settles numbersRight srcs middle).mono (fun _ => id)
  intro later more
  apply (gains.trans more).congr
  intro s d
  rw [Tree.bareSides, List.mem_append, and_or_left]

/-- From outside an expression its bare commands are reached. -/
theorem deliverExternal_settles (numbers : ast.Numbers n tree) (srcs : List Nat) (wires : Wires)
    : Settles Fault.Limit (Gains (fun s d => s ∈ srcs ∧ d ∈ tree.bare) wires)
        (deliverExternal ast srcs n wires) := by
  cases tree with
  | leaf leaf =>
      rw [deliverExternal, numbers.leaf]
      exact deliverLeaf_settles srcs leaf wires
  | group members =>
      obtain ⟨first, found, all⟩ := numbers.group
      rw [deliverExternal, found]
      apply foldlM_members
        (fun before later =>
          Gains (fun s d => s ∈ srcs ∧ d ∈ before.flatMap Tree.bareSides) wires later) all
      · exact .none wires (by simp)
      · intro before member tree wires' among numbers gains
        refine (?_ : Settles Fault.Limit
          (Gains (fun s d => s ∈ srcs ∧ d ∈ tree.bareSides) wires') _).mono (fun _ => id)
            fun later more => ?_
        · cases tree with
          | leaf leaf =>
              have numbers : ast.Numbers member (.leaf leaf) := numbers
              rw [numbers.leaf]
              exact deliverLeaf_settles srcs leaf wires'
          | group inner =>
              have numbers : ast.Numbers member (.group inner) := numbers
              obtain ⟨first, found, -⟩ := numbers.group
              rw [found]
              exact Gains.none wires' (by simp [Tree.bareSides])
          | pipe left right =>
              have numbers : ast.Numbers member (.pipe left right) := numbers
              obtain ⟨first, rhs, found, -⟩ := numbers.pipe
              rw [found]
              exact wireBareSides_settles numbers srcs wires'
        · apply (gains.trans more).congr
          intro s d
          rw [List.flatMap_append, List.mem_append, List.flatMap_singleton, and_or_left]
  | pipe left right =>
      obtain ⟨first, rhs, found, -⟩ := numbers.pipe
      rw [deliverExternal, found]
      exact wireBareSides_settles numbers srcs wires

def joinedBy (pipes : List (Tree Nat × Tree Nat)) (src dst : Nat) : Prop :=
  ∃ pipe ∈ pipes, src ∈ pipe.1.ends ∧ dst ∈ pipe.2.ends

theorem joinedBy_append (pipes more : List (Tree Nat × Tree Nat)) (src dst : Nat)
    : joinedBy (pipes ++ more) src dst ↔ joinedBy pipes src dst ∨ joinedBy more src dst := by
  simp only [joinedBy, List.mem_append, or_and_right, exists_or]

/-- Every pipe of an expression that is not the outermost is wired. -/
theorem wireInternals_settles (ast : Ast) (tree : Tree Nat)
    : ∀ (fuel n : Nat) (wires : Wires), ast.Numbers n tree → tree.height ≤ fuel
      → Settles Fault.Limit (Gains (joinedBy tree.pipes) wires)
          (wireInternals ast fuel n true wires) := by
  induction tree using Tree.induct with
  | leaf leaf =>
      intro fuel n wires numbers enough
      obtain ⟨fuel, rfl⟩ := Tree.exists_fuel enough
      rw [wireInternals, numbers.leaf]
      exact Gains.none wires (by simp [joinedBy, Tree.pipes])
  | group members ih =>
      intro fuel n wires numbers enough
      obtain ⟨fuel, rfl⟩ := Tree.exists_fuel enough
      obtain ⟨first, found, all⟩ := numbers.group
      rw [wireInternals, found, Tree.pipes]
      apply foldlM_members
        (fun before later => Gains (joinedBy (before.flatMap Tree.pipes)) wires later) all
      · exact .none wires (by simp [joinedBy])
      · intro before member tree wires' among numbers gains
        have small := Tree.height_member among
        apply (ih tree among fuel member wires' numbers (by omega)).mono (fun _ => id)
        intro later more
        apply (gains.trans more).congr
        intro s d
        rw [List.flatMap_append, joinedBy_append, List.flatMap_singleton]
  | pipe left right ihLeft ihRight =>
      intro fuel n wires numbers enough
      obtain ⟨fuel, rfl⟩ := Tree.exists_fuel enough
      obtain ⟨first, rhs, found, numbersLeft, numbersRight⟩ := numbers.pipe
      rw [wireInternals, found]
      rw [Tree.height] at enough
      apply (ihLeft fuel first wires numbersLeft (by omega)).bind
      intro one gainsLeft
      apply (ihRight fuel rhs one numbersRight (by omega)).bind
      intro two gainsRight
      apply (outputsCollect_settles ast left fuel first [] numbersLeft (by omega)).bind
      rintro outs rfl
      apply (deliverInternal_settles ast _ right fuel rhs two numbersRight (by omega)).mono
        (fun _ => id)
      intro later gains
      apply ((gainsLeft.trans gainsRight).trans gains).congr
      intro s d
      rw [Tree.pipes, joinedBy_append, joinedBy_append, or_assoc]
      simp [joinedBy]

-- The whole expression

def Tree.Joins : Tree Nat → Nat → Nat → Prop
  | .pipe left right, src, dst =>
      joinedBy (left.pipes ++ right.pipes) src dst ∨ (src ∈ left.ends ∧ dst ∈ right.bare)
  | _, _, _ => False

theorem Wires.not_has_resetState (src dst : Nat) : ¬ resetState.Has src dst := by
  rintro ⟨edge, among, -⟩
  exact List.not_mem_nil among

/-- The edges of a wiring, which only a limit can stop. -/
theorem wireGraph_settles {root : Nat} (numbers : ast.Numbers root tree)
    (located : Located 0 ast tree)
    : Settles Fault.Limit (Gains tree.Joins resetState) (wireGraph ast root) := by
  have some : ast.leaves.length ≠ 0 := by
    obtain ⟨leaf, rest, ends⟩ := List.exists_cons_of_ne_nil located.proper.ends_ne_nil
    have := located.leaves leaf (tree.ends_subset (ends ▸ List.mem_cons_self ..))
    omega
  rw [wireGraph, if_neg some]
  cases tree with
  | leaf leaf =>
      rw [numbers.leaf]
      exact Gains.none resetState (fun _ _ => id)
  | group members =>
      obtain ⟨first, found, -⟩ := numbers.group
      rw [found]
      exact Gains.none resetState (fun _ _ => id)
  | pipe left right =>
      have height := located.height
      obtain ⟨fuel, enough⟩ := Tree.exists_fuel height
      rw [Tree.height] at height
      obtain ⟨first, rhs, found, numbersLeft, numbersRight⟩ := numbers.pipe
      have internals : Settles Fault.Limit (Gains (joinedBy (left.pipes ++ right.pipes)) resetState)
          (wireInternals ast ast.nodes.length root false resetState) := by
        rw [enough, wireInternals, found]
        apply (wireInternals_settles ast left fuel first resetState numbersLeft (by omega)).bind
        intro one gainsLeft
        apply (wireInternals_settles ast right fuel rhs one numbersRight (by omega)).bind
        intro two gainsRight
        apply (gainsLeft.trans gainsRight).congr
        intro s d
        rw [joinedBy_append]
      rw [found]
      apply internals.bind
      intro wires gains
      apply (outputsCollect_settles ast left _ first [] numbersLeft (by omega)).bind
      rintro outs rfl
      apply (deliverExternal_settles numbersRight _ wires).mono (fun _ => id)
      intro later more
      exact gains.trans more

/-- Every pipe delivers from each end of its left side, and no edge is there otherwise. -/
def Delivers (tree : Tree Nat) (wires : Wires) : Prop :=
  (∀ pipe ∈ tree.pipes, ∀ src ∈ pipe.1.ends, ∃ dst ∈ pipe.2.leaves, wires.Has src dst)
    ∧ ∀ src dst, wires.Has src dst
      → ∃ pipe ∈ tree.pipes, src ∈ pipe.1.ends ∧ dst ∈ pipe.2.leaves

/-- There is no pipe, or the whole is one and its right side has a command that takes a stream from
outside.
-/
def Tree.Heard : Tree Nat → Prop
  | .pipe _ right => right.bare ≠ []
  | tree => tree.pipes = []

theorem Tree.Proper.ne_of_mem (proper : (Tree.pipe left right).Proper) {src dst : Nat}
    (inLeft : src ∈ left.leaves) (inRight : dst ∈ right.leaves)
    : src ≠ dst := by
  rw [Tree.Proper] at proper
  rintro rfl
  exact proper.2.2 src inLeft inRight

theorem delivers_empty_iff (proper : tree.Proper) (none : ∀ src dst, ¬ wires.Has src dst)
    : Delivers tree wires ↔ tree.pipes = [] := by
  constructor
  · rintro ⟨delivers, -⟩
    apply List.eq_nil_iff_forall_not_mem.mpr
    rintro ⟨left, right⟩ member
    have parts := (proper.pipe_mem member).1
    rw [Tree.Proper] at parts
    obtain ⟨src, rest, ends⟩ := List.exists_cons_of_ne_nil parts.1.ends_ne_nil
    obtain ⟨dst, -, has⟩ := delivers (left, right) member src (by
      dsimp only
      rw [ends]
      exact List.mem_cons_self ..)
    exact none src dst has
  · intro noPipes
    refine ⟨?_, fun src dst has => absurd has (none src dst)⟩
    rw [noPipes]
    exact List.forall_mem_nil _

/-- The wiring of a pipe delivers when its right side takes a stream from outside. -/
theorem delivers_pipe_iff (proper : (Tree.pipe left right).Proper)
    (edges : ∀ src dst, wires.Has src dst ↔ src ≠ dst ∧ (Tree.pipe left right).Joins src dst)
    : Delivers (.pipe left right) wires ↔ right.bare ≠ [] := by
  have parts := proper
  rw [Tree.Proper] at parts
  have inside {pipe : Tree Nat × Tree Nat} (member : pipe ∈ left.pipes ++ right.pipes)
      : pipe ∈ (Tree.pipe left right).pipes := by
    rw [Tree.pipes, ← List.append_assoc]
    exact List.mem_append_left _ member
  have outermost : (left, right) ∈ (Tree.pipe left right).pipes := by
    rw [Tree.pipes]
    simp
  constructor
  · rintro ⟨delivers, -⟩ deaf
    obtain ⟨src, rest, ends⟩ := List.exists_cons_of_ne_nil parts.1.ends_ne_nil
    have isEnd : src ∈ left.ends := ends ▸ List.mem_cons_self ..
    obtain ⟨dst, inRight, has⟩ := delivers _ outermost src isEnd
    have inLeft := left.ends_subset isEnd
    -- the edge is not due to a pipe inside a side, whose leaves are all on that side
    rcases ((edges src dst).mp has).2 with ⟨⟨one, two⟩, member, isSrc, isDst⟩ | ⟨-, isBare⟩
    · rcases List.mem_append.mp member with member | member
      · have within := (parts.1.pipe_mem member).2.2 (two.ends_subset isDst)
        exact parts.2.2 dst within inRight
      · have within := (parts.2.1.pipe_mem member).2.1 (one.ends_subset isSrc)
        exact parts.2.2 src inLeft within
    · rw [deaf] at isBare
      exact List.not_mem_nil isBare
  · intro heard
    constructor
    · intro pipe member src isSrc
      rw [Tree.pipes, ← List.append_assoc] at member
      rcases List.mem_append.mp member with member | member
      · obtain ⟨one, two⟩ := pipe
        have inner := (proper.pipe_mem (inside member)).1
        have sides := inner
        rw [Tree.Proper] at sides
        obtain ⟨dst, rest, ends⟩ := List.exists_cons_of_ne_nil sides.2.1.ends_ne_nil
        have isDst : dst ∈ two.ends := ends ▸ List.mem_cons_self ..
        have inTwo := two.ends_subset isDst
        refine ⟨dst, inTwo, (edges src dst).mpr ⟨?_, Or.inl ⟨_, member, isSrc, isDst⟩⟩⟩
        exact inner.ne_of_mem (one.ends_subset isSrc) inTwo
      · cases List.mem_singleton.mp member
        obtain ⟨dst, rest, bare⟩ := List.exists_cons_of_ne_nil heard
        have isBare : dst ∈ right.bare := bare ▸ List.mem_cons_self ..
        have inRight := right.bare_subset isBare
        refine ⟨dst, inRight, (edges src dst).mpr ⟨?_, Or.inr ⟨isSrc, isBare⟩⟩⟩
        exact proper.ne_of_mem (left.ends_subset isSrc) inRight
    · intro src dst has
      rcases ((edges src dst).mp has).2 with ⟨⟨one, two⟩, member, isSrc, isDst⟩ | ⟨isSrc, isBare⟩
      · exact ⟨_, inside member, isSrc, two.ends_subset isDst⟩
      · exact ⟨_, outermost, isSrc, right.bare_subset isBare⟩

/-- A wiring that is made delivers what every pipe carries just when there is no pipe, or the whole
is a pipe whose right side takes a stream from outside.
-/
theorem wireGraph_delivers_iff {grants : Nat → Bool} {parsed : Parsed} {index root : Nat}
    {ast : Ast} {wires : Wires} (loaded : purParseLoad grants parsed index = .ok (root, ast))
    (wired : wireGraph ast root = .ok wires)
    : ∃ tree, ast.Numbers root tree ∧ (Delivers tree wires ↔ tree.Heard) := by
  obtain ⟨tree, numbers, located⟩ := purParseLoad_adds loaded
  refine ⟨tree, numbers, ?_⟩
  have gains := (wireGraph_settles numbers located).value wired
  have edges (src dst : Nat) : wires.Has src dst ↔ src ≠ dst ∧ tree.Joins src dst := by
    rw [gains src dst]
    exact or_iff_right (Wires.not_has_resetState src dst)
  cases tree with
  | leaf leaf =>
      exact delivers_empty_iff located.proper (fun src dst has => ((edges src dst).mp has).2)
  | group members =>
      exact delivers_empty_iff located.proper (fun src dst has => ((edges src dst).mp has).2)
  | pipe left right => exact delivers_pipe_iff located.proper edges

/-- `a>b`, cut into its words. -/
def pipeLine : Parsed :=
  ⟨[0x61, 0, 0x62, 0], [([⟨.word, 0, 1⟩, ⟨.gt, 1, 1⟩, ⟨.word, 2, 1⟩], .none)], noPools⟩

/-- The pools with `a>b` in them. -/
def pipePools : Ast :=
  ⟨[⟨.leaf, 0, 0, 0⟩, ⟨.leaf, 1, 0, 0⟩, ⟨.expr, 0, 0, 1⟩], [⟨0, 1⟩, ⟨1, 1⟩], [0, 2], [], 5⟩

theorem wireGraph_delivers_small
    : purParseLoad grantAll pipeLine 0 = .ok (2, pipePools)
      ∧ ∃ wires tree, wireGraph pipePools 2 = .ok wires ∧ pipePools.Numbers 2 tree
        ∧ (Delivers tree wires ↔ tree.Heard) := by
  have loaded : purParseLoad grantAll pipeLine 0 = .ok (2, pipePools) := by decide +kernel
  obtain ⟨wires, wired⟩ := @exists_ok _ _ (wireGraph pipePools 2) (by decide)
  obtain ⟨tree, numbers, iff⟩ := wireGraph_delivers_iff loaded wired
  exact ⟨loaded, wires, tree, wired, numbers, iff⟩

/-- The pools with `(a>b;c)` in them. -/
def groupPools (asked : Nat) : Ast :=
  ⟨[⟨.leaf, 0, 0, 0⟩, ⟨.leaf, 1, 0, 0⟩, ⟨.expr, 0, 0, 1⟩, ⟨.leaf, 2, 0, 0⟩, ⟨.group, 0, 2, 0⟩],
    [⟨0, 1⟩, ⟨1, 1⟩, ⟨2, 1⟩], [1, 3, 5], [2, 3], asked⟩

/-- `(a>b;c)`, cut into its words. -/
def groupLine : Parsed :=
  ⟨[0x28, 0x61, 0, 0x62, 0, 0x63, 0, 0],
    [([⟨.lparen, 0, 1⟩, ⟨.word, 1, 1⟩, ⟨.gt, 2, 1⟩, ⟨.word, 3, 1⟩, ⟨.semi, 4, 1⟩, ⟨.word, 5, 1⟩,
      ⟨.rparen, 6, 1⟩], .none)],
    groupPools 11⟩

/-- In `(a>b;c)` the output of `a` goes nowhere, though the wiring is made. -/
theorem wireGraph_group_drops
    : purParseCommand grantAll grantAll (letters ['(', 'a', '>', 'b', ';', 'c', ')']) noPools
        = .ok groupLine
      ∧ purParseLoad grantAll groupLine 0 = .ok (4, groupPools 22)
      ∧ wireGraph (groupPools 22) 4 = .ok resetState
      ∧ (groupPools 22).Numbers 4 (.group [.pipe (.leaf 0) (.leaf 1), .leaf 2])
      ∧ ¬ Delivers (.group [.pipe (.leaf 0) (.leaf 1), .leaf 2]) resetState := by
  refine ⟨by decide +kernel, by decide +kernel, by rfl, ?_, ?_⟩
  · simp [Ast.Numbers, Ast.Yields, Ast.YieldsAll, groupPools]
  · rintro ⟨delivers, -⟩
    obtain ⟨dst, -, has⟩ := delivers (.leaf 0, .leaf 1) (by simp [Tree.pipes]) 0
      (by simp [Tree.ends])
    exact Wires.not_has_resetState 0 dst has

end Panuti.Pur
