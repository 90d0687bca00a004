import Panuti.Pur.Delivery

/-! The edges of a wiring: no two between the same leaves, every one from a leaf to a later one, and
numbered at each leaf from 0 on, in the order they were added.
-/

namespace Panuti.Pur

open Library

-- Edges that are numbered

def Wires.into (wires : Wires) (leaf : Nat) : List Edge :=
  wires.edges.filter (fun edge => edge.dst = leaf)

def Wires.outOf (wires : Wires) (leaf : Nat) : List Edge :=
  wires.edges.filter (fun edge => edge.src = leaf)

/-- No two edges are between the same leaves, and those at a leaf are numbered from 0 to its count,
which is not reached.
-/
structure Numbered (wires : Wires) : Prop where
  distinct : (wires.edges.map fun edge => (edge.src, edge.dst)).Nodup
  sources : ∀ leaf, (wires.outOf leaf).map Edge.srcStream = List.range (wires.outCount leaf)
  targets : ∀ leaf, (wires.into leaf).map Edge.dstStream = List.range (wires.inCount leaf)

theorem numbered_resetState : Numbered resetState :=
  ⟨List.nodup_nil, fun _ => rfl, fun _ => rfl⟩

variable {wires : Wires}

theorem Numbered.outCount_eq (numbered : Numbered wires) (leaf : Nat)
    : wires.outCount leaf = (wires.outOf leaf).length := by
  rw [← List.length_map (f := Edge.srcStream), numbered.sources, List.length_range]

theorem Numbered.inCount_eq (numbered : Numbered wires) (leaf : Nat)
    : wires.inCount leaf = (wires.into leaf).length := by
  rw [← List.length_map (f := Edge.dstStream), numbered.targets, List.length_range]

theorem map_filter_concat {edges : List Edge} {edge : Edge} {at' number : Edge → Nat}
    {leaf count : Nat}
    (numbers : (edges.filter (fun e => at' e = leaf)).map number = List.range count)
    (next : at' edge = leaf → number edge = count)
    : ((edges ++ [edge]).filter (fun e => at' e = leaf)).map number
      = List.range (if leaf = at' edge then count + 1 else count) := by
  rw [List.filter_append, List.map_append, numbers]
  rw [List.filter_singleton]
  by_cases here : at' edge = leaf
  · rw [if_pos here.symm, decide_eq_true here, cond_true, List.map_singleton, next here,
      List.range_succ]
  · rw [if_neg (Ne.symm here), decide_eq_false here, cond_false, List.map_nil, List.append_nil]

theorem Numbered.addEdge (numbered : Numbered wires) (src dst : Nat)
    : Settles (fun _ => True) Numbered (addEdge src dst wires) := by
  rw [Pur.addEdge]
  split
  · exact numbered
  split
  · exact numbered
  next fresh =>
    split
    · trivial
    split
    · trivial
    refine ⟨?_, ?_, ?_⟩
    · dsimp only
      rw [List.map_append, List.map_singleton]
      refine List.nodup_append.mpr ⟨numbered.distinct, List.pairwise_singleton .., ?_⟩
      intro pair member other same
      rw [List.mem_singleton.mp same]
      obtain ⟨edge, among, rfl⟩ := List.mem_map.mp member
      intro equal
      obtain ⟨isSrc, isDst⟩ := Prod.mk.inj equal
      exact fresh (List.any_eq_true.mpr ⟨edge, among, decide_eq_true ⟨isSrc, isDst⟩⟩)
    · intro leaf
      exact map_filter_concat (numbered.sources leaf) (fun here => by rw [← here])
    · intro leaf
      exact map_filter_concat (numbered.targets leaf) (fun here => by rw [← here])

-- The walks add edges only

def Kept (holds : Wires → Prop) : Prop :=
  ∀ src dst wires, holds wires → Settles (fun _ => True) holds (addEdge src dst wires)

theorem foldlM_keeps {ε σ α : Type} {holds : σ → Prop} {step : σ → α → Except ε σ}
    (turn : ∀ s a, holds s → Settles (fun _ => True) holds (step s a)) (as : List α) {s : σ}
    (held : holds s)
    : Settles (fun _ => True) holds (as.foldlM step s) :=
  Settles.foldlM (fun _ => holds) held (fun _ a s _ => turn s a)

theorem settles_node {holds : Wires → Prop} (ast : Ast) {n : Nat}
    {next : Node → Except Fault Wires} (later : ∀ p, Settles (fun _ => True) holds (next p))
    : Settles (fun _ => True) holds (ast.node n >>= next) := by
  cases ast.node n with
  | error fault => trivial
  | ok p => exact later p

section

variable {holds : Wires → Prop} (kept : Kept holds) (ast : Ast) (srcs : List Nat)

include kept

theorem Kept.deliverLeaf (leaf : Nat) (held : holds wires)
    : Settles (fun _ => True) holds (deliverLeaf srcs leaf wires) :=
  foldlM_keeps (fun wires src => kept src leaf wires) srcs held

theorem Kept.deliverInternal (fuel : Nat)
    : ∀ (n : Nat) {wires : Wires}, holds wires
      → Settles (fun _ => True) holds (deliverInternal ast srcs fuel n wires) := by
  induction fuel with
  | zero =>
      intro n wires held
      trivial
  | succ fuel ih =>
      intro n wires held
      rw [Pur.deliverInternal]
      apply settles_node ast
      intro p
      cases p.kind with
      | leaf => exact kept.deliverLeaf srcs p.first held
      | group => exact foldlM_keeps (fun _ member => ih member) _ held
      | expr => exact ih p.rhs held

theorem Kept.deliverBare (n : Nat) (held : holds wires)
    : Settles (fun _ => True) holds (deliverBare ast srcs n wires) := by
  rw [Pur.deliverBare]
  apply settles_node ast
  intro p
  split
  · exact kept.deliverLeaf srcs p.first held
  · exact held

theorem Kept.wireBareSides (n : Nat) (held : holds wires)
    : Settles (fun _ => True) holds (wireBareSides ast srcs n wires) := by
  rw [Pur.wireBareSides]
  apply settles_node ast
  intro p
  apply (kept.deliverBare ast srcs p.first held).bind
  intro middle held
  exact kept.deliverBare ast srcs p.rhs held

theorem Kept.deliverExternal (n : Nat) (held : holds wires)
    : Settles (fun _ => True) holds (deliverExternal ast srcs n wires) := by
  rw [Pur.deliverExternal]
  apply settles_node ast
  intro p
  cases p.kind with
  | leaf => exact kept.deliverLeaf srcs p.first held
  | group =>
      refine foldlM_keeps (fun wires member held => ?_) _ held
      apply settles_node ast
      intro m
      cases m.kind with
      | leaf => exact kept.deliverLeaf srcs m.first held
      | group => exact held
      | expr => exact kept.wireBareSides ast srcs member held
  | expr => exact kept.wireBareSides ast srcs n held

theorem Kept.wireInternals (fuel : Nat)
    : ∀ (n : Nat) (wireSelf : Bool) {wires : Wires}, holds wires
      → Settles (fun _ => True) holds (wireInternals ast fuel n wireSelf wires) := by
  induction fuel with
  | zero =>
      intro n wireSelf wires held
      trivial
  | succ fuel ih =>
      intro n wireSelf wires held
      rw [Pur.wireInternals]
      apply settles_node ast
      intro p
      cases p.kind with
      | leaf => exact held
      | group => exact foldlM_keeps (fun _ member => ih member true) _ held
      | expr =>
          apply (ih p.first true held).bind
          intro one held
          apply (ih p.rhs true held).bind
          intro two held
          cases wireSelf with
          | false => exact held
          | true =>
              apply (settles_any (outputsCollect ast fuel p.first [])).bind
              intro outs _
              exact kept.deliverInternal ast outs fuel p.rhs held

theorem Kept.wireGraph (start : holds resetState) (root : Nat)
    : Settles (fun _ => True) holds (wireGraph ast root) := by
  rw [Pur.wireGraph]
  split
  · exact start
  apply settles_node ast
  intro p
  split
  · exact start
  apply (kept.wireInternals ast _ root false start).bind
  intro wires held
  apply (settles_any (outputsCollect ast ast.nodes.length p.first [])).bind
  intro outs _
  exact kept.deliverExternal ast outs p.rhs held

end

theorem wireGraph_numbered (ast : Ast) (root : Nat)
    : Settles (fun _ => True) Numbered (wireGraph ast root) :=
  Kept.wireGraph (fun src dst _ numbered => numbered.addEdge src dst) ast numbered_resetState root

-- Edges go forward

theorem Tree.Forward.joined {tree : Tree Nat} (forward : tree.Forward) {src dst : Nat}
    (joined : joinedBy tree.pipes src dst)
    : src < dst ∧ dst ∈ tree.leaves := by
  obtain ⟨⟨left, right⟩, member, isSrc, isDst⟩ := joined
  dsimp only at isSrc isDst
  induction tree using Tree.induct with
  | leaf command => simp [Tree.pipes] at member
  | group members ih =>
      rw [Tree.Forward] at forward
      rw [Tree.pipes] at member
      obtain ⟨tree, among, member⟩ := List.mem_flatMap.mp member
      obtain ⟨before, inside⟩ := ih tree among (forward tree among) member
      rw [Tree.leaves]
      exact ⟨before, List.mem_flatMap.mpr ⟨tree, among, inside⟩⟩
  | pipe first second ihFirst ihSecond =>
      rw [Tree.Forward] at forward
      obtain ⟨forwardFirst, forwardSecond, across⟩ := forward
      rw [Tree.pipes] at member
      rw [Tree.leaves]
      rcases List.mem_append.mp member with member | member
      · obtain ⟨before, inside⟩ := ihFirst forwardFirst member
        exact ⟨before, List.mem_append_left _ inside⟩
      rcases List.mem_append.mp member with member | member
      · obtain ⟨before, inside⟩ := ihSecond forwardSecond member
        exact ⟨before, List.mem_append_right _ inside⟩
      · cases List.mem_singleton.mp member
        have inside := right.ends_subset isDst
        exact ⟨across src (left.ends_subset isSrc) dst inside, List.mem_append_right _ inside⟩

theorem Tree.Forward.joins {tree : Tree Nat} (forward : tree.Forward) {src dst : Nat}
    (joins : tree.Joins src dst)
    : src < dst ∧ dst ∈ tree.leaves := by
  cases tree with
  | leaf command => exact joins.elim
  | group members => exact joins.elim
  | pipe left right =>
      rcases joins with inner | ⟨isEnd, isBare⟩
      · apply forward.joined
        rw [Tree.pipes, ← List.append_assoc, joinedBy_append]
        exact Or.inl inner
      · rw [Tree.Forward] at forward
        have inside := right.bare_subset isBare
        rw [Tree.leaves]
        exact ⟨forward.2.2 src (left.ends_subset isEnd) dst inside, List.mem_append_right _ inside⟩

theorem wireGraph_forward {grants : Nat → Bool} {parsed : Parsed} {index root : Nat} {ast : Ast}
    (loaded : purParseLoad grants parsed index = .ok (root, ast))
    (wired : wireGraph ast root = .ok wires)
    : ∀ edge ∈ wires.edges, edge.src < edge.dst ∧ edge.dst < ast.leaves.length := by
  obtain ⟨tree, numbers, located, forward⟩ := purParseLoad_forward loaded
  have gains := (wireGraph_settles numbers located).value wired
  intro edge among
  rcases (gains edge.src edge.dst).mp ⟨edge, among, rfl, rfl⟩ with nothing | ⟨-, joins⟩
  · exact absurd nothing (Wires.not_has_resetState _ _)
  · obtain ⟨before, inside⟩ := forward.joins joins
    exact ⟨before, (located.leaves _ inside).2⟩

end Panuti.Pur
