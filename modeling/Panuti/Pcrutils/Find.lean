import Mathlib.Data.List.Nodup
import Mathlib.Data.List.Perm.Subperm
import Panuti.Kernel.Handle
import Panuti.Pcrutils.Glob
import Panuti.Pcrutils.Seq

/-! `find`: a walk over the directories below the start paths. Its filters are looked for in front
of the first path only; behind it they are start paths themselves.
-/

namespace Panuti.Pcrutils.Find

open Panuti.Kernel (InodeType)
open Panuti.Pcrutils.Seq (pcrOptionProvided)

def FIND_MAXDEPTH : Nat := 64

def SLASH : UInt8 := 47

def DOT : UInt8 := 46

/-- `-name` -/
def NAME : Bytes := [HYPHEN, 110, 97, 109, 101]

/-- `-type` -/
def TYPE : Bytes := [HYPHEN, 116, 121, 112, 101]

-- The utility

/-- What `handle_open` and `readdir` make of a path: the entries there, unless it does not open. -/
abbrev Listing := Bytes → Option (List (Bytes × InodeType))

/-- `name_pat` and `type_pat`, each of them where it was given. -/
structure Filters where
  name : Option Bytes
  type : Option InodeType

inductive ArgumentError where
  | needsValue (a : Bytes)
  | notAType (value : Bytes)
  | invalidOption (a : Bytes)

/-- What `find` prints at once: the path of a node, or one of its messages. -/
inductive Line where
  | help
  | arguments (error : ArgumentError)
  | node (path : Bytes)
  | tooDeep (path : Bytes)
  | cannotOpen (path : Bytes)

/-- A part of the walk: what it printed, and how many failures it met. -/
structure Walked where
  lines : List Line
  failed : Nat

def pcrPathJoin (base name : Bytes) : Bytes :=
  if base = [] then name
  else if base.getLast? = some SLASH then base ++ name
  else base ++ SLASH :: name

def hiddenDot (name : Bytes) : Bool := name = [DOT] || name = [DOT, DOT]

def wantEntry (filters : Filters) (name : Bytes) (type : InodeType) : Bool :=
  filters.name.all (pcrGlobMatch · name) && filters.type.all (type = ·)

/-- The loop of `walk` over the entries of a directory. -/
def entryLoop (filters : Filters) (descend : Bytes → Walked) (path : Bytes)
    : List (Bytes × InodeType) → Walked
  | [] => ⟨[], 0⟩
  | (name, type) :: entries =>
      let rest := entryLoop filters descend path entries
      if hiddenDot name then rest
      else
        let full := pcrPathJoin path name
        let line := if wantEntry filters name type then [Line.node full] else []
        let inner := if type = .dir then descend full else ⟨[], 0⟩
        ⟨line ++ inner.lines ++ rest.lines, inner.failed + rest.failed⟩

/-- `walk`. What it counts here is how many levels it may still go into, its own with them:
`FIND_MAXDEPTH + 1` less the depth.
-/
def walk (list : Listing) (filters : Filters) : (levels : Nat) → (path : Bytes) → Walked
  | 0, path => ⟨[.tooDeep path], 1⟩
  | levels + 1, path =>
      match list path with
      | none => ⟨[.cannotOpen path], 1⟩
      | some entries => entryLoop filters (walk list filters levels) path entries

/-- An argument that is not taken for an option. -/
def isPath (a : Bytes) : Bool := a.head? ≠ some HYPHEN || a.tail = []

/-- The types that a letter behind `-type` stands for. -/
def typeOf (value : Bytes) : Option InodeType :=
  if value = [102] then some .file else if value = [100] then some .dir else none

/-- The loop over the arguments: the filters, and what is left from the first path on. -/
def argumentLoop (filters : Filters) : List Bytes → Except ArgumentError (Filters × List Bytes)
  | [] => .ok (filters, [])
  | [a] =>
      if isPath a then .ok (filters, [a])
      else if a = NAME ∨ a = TYPE then .error (.needsValue a)
      else .error (.invalidOption a.tail)
  | a :: value :: args =>
      if isPath a then .ok (filters, a :: value :: args)
      else if a = NAME then argumentLoop { filters with name := some value } args
      else if a = TYPE then
        match typeOf value with
        | some type => argumentLoop { filters with type := some type } args
        | none => .error (.notAType value)
      else .error (.invalidOption a.tail)

/-- The walks from one start path after another. -/
def walks (list : Listing) (filters : Filters) : (starts : List Bytes) → Walked
  | [] => ⟨[], 0⟩
  | start :: starts =>
      let one := walk list filters (FIND_MAXDEPTH + 1) start
      let rest := walks list filters starts
      ⟨one.lines ++ rest.lines, one.failed + rest.failed⟩

/-- The current directory is walked when no path is given. -/
def startsOf (paths : List Bytes) : List Bytes := if paths = [] then [[DOT]] else paths

/-- What is printed for the arguments behind the name of the utility, and the result of `main`. -/
def find (list : Listing) (args : List Bytes) : List Line × Int :=
  if pcrOptionProvided args [104] then ([.help], 0)
  else
    match argumentLoop ⟨none, none⟩ args with
    | .error error => ([.arguments error], -1)
    | .ok (filters, paths) =>
        let walked := walks list filters (startsOf paths)
        (walked.lines, if walked.failed = 0 then 0 else -1)

-- What it is for

structure Node where
  path : Bytes
  name : Bytes
  type : InodeType

/-- The nodes below a path. -/
inductive Below (list : Listing) : (base : Bytes) → Node → Prop where
  | here {base name : Bytes} {type : InodeType} {entries : List (Bytes × InodeType)}
      (opens : list base = some entries) (among : (name, type) ∈ entries)
      (shown : hiddenDot name = false)
      : Below list base ⟨pcrPathJoin base name, name, type⟩
  | deeper {base name : Bytes} {node : Node} {entries : List (Bytes × InodeType)}
      (opens : list base = some entries) (among : (name, .dir) ∈ entries)
      (shown : hiddenDot name = false) (inside : Below list (pcrPathJoin base name) node)
      : Below list base node

/-- What a directory holds: names without a slash, each of them once. -/
structure Proper (entries : List (Bytes × InodeType)) : Prop where
  nodup : (entries.map Prod.fst).Nodup
  named : ∀ entry ∈ entries, entry.1 ≠ [] ∧ SLASH ∉ entry.1

/-- A tree of so many levels. -/
def Fits (list : Listing) : (levels : Nat) → (base : Bytes) → Prop
  | 0, _ => False
  | levels + 1, base =>
      ∃ entries, list base = some entries ∧ Proper entries
        ∧ ∀ name, (name, .dir) ∈ entries → hiddenDot name = false →
            Fits list levels (pcrPathJoin base name)

/-- The letters that `-type` takes. -/
inductive Letter where
  | f
  | d

def Letter.word : Letter → Bytes
  | f => [102]
  | d => [100]

def Letter.type : Letter → InodeType
  | f => .file
  | d => .dir

/-- The words that ask for the filters, in either order. -/
def Words (pattern : Option Bytes) (letter : Option Letter) (words : List Bytes) : Prop :=
  let names := pattern.toList.flatMap fun pattern => [NAME, pattern]
  let types := letter.toList.flatMap fun letter => [TYPE, letter.word]
  words = names ++ types ∨ words = types ++ names

/-- The node is one that the filters ask for. -/
def Wanted (pattern : Option Bytes) (letter : Option Letter) (node : Node) : Prop :=
  (∀ text ∈ pattern, pcrGlobMatch text node.name = true) ∧ ∀ one ∈ letter, node.type = one.type

def Line.path? : Line → Option Bytes
  | node path => some path
  | _ => none

/-- The wanted nodes below a start path, with each path once. -/
structure Part (list : Listing) (wanted : Node → Prop) (start : Bytes) (part : List Node)
    : Prop where
  nodup : (part.map Node.path).Nodup
  mem_iff : ∀ node, node ∈ part ↔ Below list start node ∧ wanted node

/-- Each of the wanted nodes below each of the start paths is printed, once, and no other. -/
def Lists (list : Listing) (starts : List Bytes) (wanted : Node → Prop) (lines : List Line)
    : Prop :=
  ∃ parts : List (List Node), lines.filterMap Line.path? = parts.flatten.map Node.path
    ∧ List.Forall₂ (Part list wanted) starts parts

-- The walk

variable {list : Listing} {levels : Nat} {base : Bytes} {node : Node}

/-- The nodes that an entry of a directory stands for. -/
def entryNodes (descend : Bytes → List Node) (base : Bytes) (entry : Bytes × InodeType)
    : List Node :=
  if hiddenDot entry.1 then []
  else
    ⟨pcrPathJoin base entry.1, entry.1, entry.2⟩
      :: if entry.2 = .dir then descend (pcrPathJoin base entry.1) else []

/-- The nodes that a walk comes to. -/
def nodesOf (list : Listing) : (levels : Nat) → (base : Bytes) → List Node
  | 0, _ => []
  | levels + 1, base =>
      ((list base).getD []).flatMap (entryNodes (nodesOf list levels) base)

theorem entryLoop_lines {filters : Filters} {descend : Bytes → Walked} {nodes : Bytes → List Node}
    (entries : List (Bytes × InodeType))
    (each : ∀ path, (descend path).lines.filterMap Line.path?
      = ((nodes path).filter fun node => wantEntry filters node.name node.type).map Node.path)
    : (entryLoop filters descend base entries).lines.filterMap Line.path?
      = ((entries.flatMap (entryNodes nodes base)).filter fun node =>
          wantEntry filters node.name node.type).map Node.path := by
  induction entries with
  | nil => rfl
  | cons entry entries ih =>
      rw [List.flatMap_cons, List.filter_append, List.map_append, ← ih, entryLoop, entryNodes]
      split
      · rfl
      · rw [List.filterMap_append, List.filterMap_append, List.filter_cons]
        refine congrArg (· ++ _) ?_
        have inner : (if entry.2 = .dir then descend (pcrPathJoin base entry.1)
              else ⟨[], 0⟩).lines.filterMap Line.path?
            = ((if entry.2 = .dir then nodes (pcrPathJoin base entry.1) else []).filter fun node =>
                wantEntry filters node.name node.type).map Node.path := by
          split
          · exact each _
          · rfl
        rw [inner]
        split <;> rfl

theorem walk_lines (list : Listing) (filters : Filters) (levels : Nat) (base : Bytes)
    : (walk list filters levels base).lines.filterMap Line.path?
      = ((nodesOf list levels base).filter fun node =>
          wantEntry filters node.name node.type).map Node.path := by
  induction levels generalizing base with
  | zero => rfl
  | succ levels ih =>
      rw [walk, nodesOf]
      cases list base with
      | none => rfl
      | some entries => exact entryLoop_lines entries ih

theorem walks_lines (list : Listing) (filters : Filters) (starts : List Bytes)
    : (walks list filters starts).lines.filterMap Line.path?
      = ((starts.flatMap (nodesOf list (FIND_MAXDEPTH + 1))).filter fun node =>
          wantEntry filters node.name node.type).map Node.path := by
  induction starts with
  | nil => rfl
  | cons start starts ih =>
      rw [walks, List.filterMap_append, walk_lines, ih, List.flatMap_cons, List.filter_append,
        List.map_append]

theorem mem_entryNodes {descend : Bytes → List Node} {entry : Bytes × InodeType}
    : node ∈ entryNodes descend base entry
      ↔ hiddenDot entry.1 = false
        ∧ (node = ⟨pcrPathJoin base entry.1, entry.1, entry.2⟩
          ∨ entry.2 = .dir ∧ node ∈ descend (pcrPathJoin base entry.1)) := by
  rw [entryNodes]
  cases hiddenDot entry.1 <;> by_cases dir : entry.2 = .dir <;> simp [dir]

theorem mem_nodesOf
    : node ∈ nodesOf list (levels + 1) base
      ↔ ∃ entries, list base = some entries
          ∧ ∃ entry ∈ entries, node ∈ entryNodes (nodesOf list levels) base entry := by
  rw [nodesOf]
  cases list base <;> simp

theorem Below.of_mem (member : node ∈ nodesOf list levels base) : Below list base node := by
  induction levels generalizing base with
  | zero => cases member
  | succ levels ih =>
      obtain ⟨entries, opens, ⟨name, type⟩, among, inside⟩ := mem_nodesOf.mp member
      obtain ⟨shown, rfl | ⟨dir, below⟩⟩ := mem_entryNodes.mp inside
      · exact .here opens among shown
      · obtain rfl : type = .dir := dir
        exact .deeper opens among shown (ih below)

theorem Below.mem (below : Below list base node) (fits : Fits list levels base)
    : node ∈ nodesOf list levels base := by
  induction below generalizing levels with
  | here opens among shown =>
      cases levels with
      | zero => exact fits.elim
      | succ levels =>
          exact mem_nodesOf.mpr ⟨_, opens, _, among, mem_entryNodes.mpr ⟨shown, Or.inl rfl⟩⟩
  | deeper opens among shown _ ih =>
      cases levels with
      | zero => exact fits.elim
      | succ levels =>
          obtain ⟨entries, same, _, each⟩ := fits
          obtain rfl := Option.some.inj (opens.symm.trans same)
          exact mem_nodesOf.mpr ⟨_, opens, _, among,
            mem_entryNodes.mpr ⟨shown, Or.inr ⟨rfl, ih (each _ among shown)⟩⟩⟩

theorem Below.nodesOf_ne_nil (below : Below list base node) (levels : Nat)
    : nodesOf list (levels + 1) base ≠ [] := by
  cases below with
  | here opens among shown | deeper opens among shown =>
      exact List.ne_nil_of_mem
        (mem_nodesOf.mpr ⟨_, opens, _, among, mem_entryNodes.mpr ⟨shown, Or.inl rfl⟩⟩)

-- The paths

/-- A path with the slash that a name goes behind. -/
def joint (base : Bytes) : Bytes :=
  if base = [] ∨ base.getLast? = some SLASH then base else base ++ [SLASH]

theorem pcrPathJoin_eq (base name : Bytes) : pcrPathJoin base name = joint base ++ name := by
  rw [pcrPathJoin, joint]
  by_cases none' : base = []
  · rw [if_pos none', if_pos (Or.inl none'), none', List.nil_append]
  · by_cases slash : base.getLast? = some SLASH
    · rw [if_neg none', if_pos slash, if_pos (Or.inr slash)]
    · rw [if_neg none', if_neg slash, if_neg (not_or.mpr ⟨none', slash⟩), List.append_assoc,
        List.singleton_append]

theorem joint_join {name : Bytes} (some' : name ≠ []) (plain : SLASH ∉ name)
    : joint (pcrPathJoin base name) = joint base ++ name ++ [SLASH] := by
  rw [pcrPathJoin_eq, joint, if_neg]
  rintro (none' | slash)
  · exact some' (List.append_eq_nil_iff.mp none').2
  · rw [List.getLast?_append_of_ne_nil _ some'] at slash
    exact plain (List.mem_of_getLast? slash)

theorem path_joint (fits : Fits list levels base) (member : node ∈ nodesOf list levels base)
    : ∃ more, node.path = joint base ++ more := by
  induction levels generalizing base with
  | zero => cases member
  | succ levels ih =>
      obtain ⟨entries, opens, proper, each⟩ := fits
      obtain ⟨_, same, ⟨name, type⟩, among, inside⟩ := mem_nodesOf.mp member
      obtain rfl := Option.some.inj (opens.symm.trans same)
      obtain ⟨shown, rfl | ⟨dir, below⟩⟩ := mem_entryNodes.mp inside
      · exact ⟨name, pcrPathJoin_eq base name⟩
      · obtain rfl : type = .dir := dir
        obtain ⟨more, goes⟩ := ih (each name among shown) below
        obtain ⟨some', plain⟩ := proper.named _ among
        rw [joint_join some' plain, List.append_assoc, List.append_assoc] at goes
        exact ⟨_, goes⟩

theorem takeWhile_name {name rest : Bytes} (plain : SLASH ∉ name)
    (behind : ∀ c ∈ rest.head?, c = SLASH)
    : (name ++ rest).takeWhile (· != SLASH) = name := by
  have inside : ∀ c ∈ name, (c != SLASH) = true := by
    intro c member
    refine bne_iff_ne.mpr ?_
    rintro rfl
    exact plain member
  rw [List.takeWhile_append_of_pos inside]
  cases rest with
  | nil => exact List.append_nil name
  | cons c rest =>
      rw [behind c rfl, List.takeWhile_cons_of_neg (by decide), List.append_nil]

theorem entryNodes_path {entry : Bytes × InodeType} (some' : entry.1 ≠ []) (plain : SLASH ∉ entry.1)
    (fits : entry.2 = .dir → hiddenDot entry.1 = false →
      Fits list levels (pcrPathJoin base entry.1))
    (member : node ∈ entryNodes (nodesOf list levels) base entry)
    : ∃ rest, node.path = joint base ++ (entry.1 ++ rest) ∧ ∀ c ∈ rest.head?, c = SLASH := by
  obtain ⟨shown, rfl | ⟨dir, below⟩⟩ := mem_entryNodes.mp member
  · refine ⟨[], ?_, nofun⟩
    rw [List.append_nil]
    exact pcrPathJoin_eq base entry.1
  · obtain ⟨more, goes⟩ := path_joint (fits dir shown) below
    refine ⟨SLASH :: more, ?_, fun c first => (Option.some.inj first).symm⟩
    rw [goes, joint_join some' plain]
    simp only [List.append_assoc, List.singleton_append]

/-- No path comes up twice. -/
theorem nodup_nodesOf (fits : Fits list levels base)
    : ((nodesOf list levels base).map Node.path).Nodup := by
  induction levels generalizing base with
  | zero => exact List.nodup_nil
  | succ levels ih =>
      obtain ⟨entries, opens, proper, each⟩ := fits
      rw [nodesOf, opens, Option.getD_some, List.map_flatMap, List.nodup_flatMap]
      have goes : ∀ entry ∈ entries, entry.2 = .dir → hiddenDot entry.1 = false →
          Fits list levels (pcrPathJoin base entry.1) := by
        rintro ⟨name, type⟩ among rfl shown
        exact each name among shown
      constructor
      · intro entry among
        obtain ⟨some', plain⟩ := proper.named entry among
        rw [entryNodes]
        split
        next => exact List.nodup_nil
        next shown =>
          split
          next dir =>
            have inner := goes entry among dir (Bool.eq_false_iff.mpr shown)
            refine List.nodup_cons.mpr ⟨fun member => ?_, ih inner⟩
            obtain ⟨node, below, same⟩ := List.mem_map.mp member
            obtain ⟨more, longer⟩ := path_joint inner below
            rw [same, joint_join some' plain, ← pcrPathJoin_eq] at longer
            have lengths := congrArg List.length longer
            simp at lengths
          next => exact List.nodup_singleton _
      · refine (List.pairwise_map.mp proper.nodup).imp_of_mem ?_
        intro one two first second differ path here there
        obtain ⟨node, inOne, rfl⟩ := List.mem_map.mp here
        obtain ⟨other, inTwo, same⟩ := List.mem_map.mp there
        obtain ⟨some', plain⟩ := proper.named one first
        obtain ⟨someToo, plainToo⟩ := proper.named two second
        obtain ⟨rest, path, behind⟩ := entryNodes_path some' plain (goes one first) inOne
        obtain ⟨more, pathToo, behindToo⟩ :=
          entryNodes_path someToo plainToo (goes two second) inTwo
        rw [path, pathToo] at same
        have names := List.append_cancel_left same
        refine differ ?_
        rw [← takeWhile_name plain behind, ← names, takeWhile_name plainToo behindToo]

-- The arguments

variable {pattern : Option Bytes} {letter : Option Letter} {words : List Bytes}

/-- `-h` -/
def HELP : Bytes := [HYPHEN, 104]

theorem help_iff {args : List Bytes} : pcrOptionProvided args [104] = true ↔ HELP ∈ args := by
  rw [pcrOptionProvided, List.any_eq_true]
  constructor
  · rintro ⟨a, member, is⟩
    obtain ⟨⟨first, _⟩, rest⟩ := by simpa only [Bool.and_eq_true, decide_eq_true_eq] using is
    obtain ⟨tail, rfl⟩ := List.head?_eq_some_iff.mp first
    obtain rfl : tail = [104] := rest
    exact member
  · exact fun member => ⟨HELP, member, rfl⟩

theorem Words.help_iff (asks : Words pattern letter words)
    : HELP ∈ words ↔ pattern = some HELP := by
  have other : HELP ≠ NAME ∧ HELP ≠ TYPE ∧ ∀ letter : Letter, HELP ≠ letter.word :=
    ⟨by decide, by decide, by rintro ⟨⟩ <;> decide⟩
  obtain ⟨notName, notType, notWord⟩ := other
  rcases asks with rfl | rfl <;> cases pattern <;> cases letter <;>
    simp [notName, notType, notWord, eq_comm]

variable {paths : List Bytes} {lines : List Line} {want : Node → Bool}

theorem argumentLoop_paths {filters : Filters} (first : ∀ path ∈ paths.head?, isPath path = true)
    : argumentLoop filters paths = .ok (filters, paths) := by
  cases paths with
  | nil => rfl
  | cons path paths =>
      cases paths with
      | nil | cons => exact if_pos (first path rfl)

theorem Words.argumentLoop (asks : Words pattern letter words)
    (first : ∀ path ∈ paths.head?, isPath path = true)
    : argumentLoop ⟨none, none⟩ (words ++ paths)
      = .ok (⟨pattern, letter.map Letter.type⟩, paths) := by
  have type (filters : Filters) (letter : Letter) (args : List Bytes)
      : Find.argumentLoop filters (TYPE :: letter.word :: args)
        = Find.argumentLoop { filters with type := some letter.type } args := by
    cases letter <;> rfl
  have name (filters : Filters) (text : Bytes) (args : List Bytes)
      : Find.argumentLoop filters (NAME :: text :: args)
        = Find.argumentLoop { filters with name := some text } args :=
    rfl
  rcases asks with rfl | rfl <;> cases pattern <;> cases letter <;>
    simp [argumentLoop_paths first, type, name]

theorem wantEntry_iff
    : wantEntry ⟨pattern, letter.map Letter.type⟩ node.name node.type = true
      ↔ Wanted pattern letter node := by
  cases pattern <;> cases letter <;> simp [wantEntry, Wanted]

-- What is printed

variable {starts : List Bytes} {wanted : Node → Prop}

theorem lists_nil_iff (none' : lines.filterMap Line.path? = [])
    : Lists list starts wanted lines
      ↔ ∀ start ∈ starts, ∀ node, Below list start node → ¬ wanted node := by
  constructor
  · rintro ⟨parts, same, each⟩
    have empty := List.map_eq_nil_iff.mp (same.symm.trans none')
    have nothing := List.flatten_eq_nil_iff.mp empty
    clear same empty
    induction each with
    | nil => exact nofun
    | cons one _ ih =>
        intro start among
        rcases List.mem_cons.mp among with rfl | later
        · intro node below wants
          have member := (one.mem_iff node).mpr ⟨below, wants⟩
          rw [nothing _ List.mem_cons_self] at member
          cases member
        · exact ih (fun part member => nothing part (List.mem_cons_of_mem _ member)) start later
  · intro nothing
    refine ⟨starts.map fun _ => [], ?_, ?_⟩
    · rw [none', List.flatten_eq_nil_iff.mpr (by simp), List.map_nil]
    · refine List.forall₂_map_right_iff.mpr (List.forall₂_same.mpr fun start among => ?_)
      exact ⟨List.nodup_nil,
        fun node => ⟨nofun, fun ⟨below, wants⟩ => absurd wants (nothing start among node below)⟩⟩

theorem lists_filter (fits : ∀ start ∈ starts, Fits list (FIND_MAXDEPTH + 1) start)
    (same : ∀ node, want node = true ↔ wanted node)
    (prints : lines.filterMap Line.path?
      = ((starts.flatMap (nodesOf list (FIND_MAXDEPTH + 1))).filter want).map Node.path)
    : Lists list starts wanted lines := by
  refine ⟨starts.map fun start => (nodesOf list (FIND_MAXDEPTH + 1) start).filter want, ?_, ?_⟩
  · rw [prints, List.filter_flatMap, List.flatMap_def]
  · refine List.forall₂_map_right_iff.mpr (List.forall₂_same.mpr fun start among => ⟨?_, ?_⟩)
    · exact (nodup_nodesOf (fits start among)).sublist (List.filter_sublist.map Node.path)
    · intro node
      rw [List.mem_filter, same]
      exact and_congr_left fun _ => ⟨Below.of_mem, fun below => below.mem (fits start among)⟩

theorem wanted_of_length {parts : List (List Node)}
    (each : List.Forall₂ (Part list wanted) starts parts)
    (fits : ∀ start ∈ starts, Fits list (FIND_MAXDEPTH + 1) start)
    : parts.flatten.length ≤ (starts.flatMap (nodesOf list (FIND_MAXDEPTH + 1))).length
      ∧ ((starts.flatMap (nodesOf list (FIND_MAXDEPTH + 1))).length ≤ parts.flatten.length →
          ∀ start ∈ starts, ∀ node, Below list start node → wanted node) := by
  induction each with
  | nil => exact ⟨Nat.le_refl _, fun _ => nofun⟩
  | @cons start part starts parts one _ ih =>
      obtain ⟨atMost, allWanted⟩ := ih fun start among => fits start (List.mem_cons_of_mem _ among)
      have here := fits start List.mem_cons_self
      have within : part.Subperm (nodesOf list (FIND_MAXDEPTH + 1) start) :=
        (List.Nodup.of_map _ one.nodup).subperm fun node member =>
          ((one.mem_iff node).mp member).1.mem here
      have short := within.length_le
      rw [List.flatten_cons, List.flatMap_cons, List.length_append, List.length_append]
      refine ⟨Nat.add_le_add short atMost, fun long => List.forall_mem_cons.mpr ⟨?_, ?_⟩⟩
      · intro node below
        have perm := within.perm_of_length_le (by omega)
        exact ((one.mem_iff node).mp (perm.mem_iff.mpr (below.mem here))).2
      · exact allWanted (by omega)

theorem lists_unread_iff (fits : ∀ start ∈ starts, Fits list (FIND_MAXDEPTH + 1) start)
    (same : ∀ node, want node = true ↔ wanted node)
    (prints : lines.filterMap Line.path?
      = ((starts ++ words).flatMap (nodesOf list (FIND_MAXDEPTH + 1))).map Node.path)
    : Lists list starts wanted lines
      ↔ (∀ start ∈ starts, ∀ node, Below list start node → wanted node)
        ∧ ∀ word ∈ words, ∀ node, ¬ Below list word node := by
  rw [List.flatMap_append, List.map_append] at prints
  constructor
  · rintro ⟨parts, printsToo, each⟩
    obtain ⟨atMost, allWanted⟩ := wanted_of_length each fits
    have lengths := congrArg List.length (prints.symm.trans printsToo)
    rw [List.length_append, List.length_map, List.length_map, List.length_map] at lengths
    refine ⟨allWanted (by omega), fun word among node below => ?_⟩
    have nothing : words.flatMap (nodesOf list (FIND_MAXDEPTH + 1)) = [] :=
      List.eq_nil_of_length_eq_zero (by omega)
    exact below.nodesOf_ne_nil FIND_MAXDEPTH (List.flatMap_eq_nil_iff.mp nothing word among)
  · rintro ⟨allWanted, nothing⟩
    refine lists_filter fits same ?_
    have empty : words.flatMap (nodesOf list (FIND_MAXDEPTH + 1)) = [] :=
      List.flatMap_eq_nil_iff.mpr fun word among =>
        List.eq_nil_iff_forall_not_mem.mpr fun node member =>
          nothing word among node (Below.of_mem member)
    have kept : (starts.flatMap (nodesOf list (FIND_MAXDEPTH + 1))).filter want
        = starts.flatMap (nodesOf list (FIND_MAXDEPTH + 1)) := by
      refine List.filter_eq_self.mpr fun node member => (same node).mpr ?_
      obtain ⟨start, among, inside⟩ := List.mem_flatMap.mp member
      exact allWanted start among node (Below.of_mem inside)
    rw [prints, empty, kept, List.map_nil, List.append_nil]

/-- `find` lists what it should just where the filters come first, or leave nothing out and name
nothing; with `-h` among the words there must be nothing to list.
-/
theorem find_lists_iff {paths : List Bytes} (front : Bool)
    (first : ∀ path ∈ paths.head?, isPath path = true)
    (asks : Words pattern letter words)
    (fits : ∀ start ∈ startsOf paths, Fits list (FIND_MAXDEPTH + 1) start)
    : Lists list (startsOf paths) (Wanted pattern letter)
        (find list (if front then words ++ paths else paths ++ words)).1
      ↔ if pattern = some HELP ∨ HELP ∈ paths then
          ∀ start ∈ startsOf paths, ∀ node, Below list start node → ¬ Wanted pattern letter node
        else
          front = true ∨ paths = []
            ∨ (∀ start ∈ paths, ∀ node, Below list start node → Wanted pattern letter node)
              ∧ ∀ word ∈ words, ∀ node, ¬ Below list word node := by
  have helps : HELP ∈ (if front then words ++ paths else paths ++ words)
      ↔ pattern = some HELP ∨ HELP ∈ paths := by
    rw [← asks.help_iff]
    cases front <;> simp [or_comm]
  by_cases help : pattern = some HELP ∨ HELP ∈ paths
  · rw [if_pos help, find, if_pos (help_iff.mpr (helps.mpr help))]
    exact lists_nil_iff rfl
  · rw [if_neg help, find, if_neg (mt (fun is => helps.mp (help_iff.mp is)) help)]
    by_cases before : front = true ∨ paths = []
    · have args : (if front then words ++ paths else paths ++ words) = words ++ paths := by
        rcases before with rfl | rfl
        · rfl
        · cases front <;> simp
      rw [args, asks.argumentLoop first]
      refine iff_of_true ?_ (before.elim Or.inl fun none' => Or.inr (Or.inl none'))
      exact lists_filter fits (fun node => wantEntry_iff) (walks_lines list _ _)
    · obtain ⟨behind, some'⟩ := not_or.mp before
      obtain rfl := Bool.eq_false_iff.mpr behind
      have starts : startsOf paths = paths := if_neg some'
      have unread : argumentLoop ⟨none, none⟩ (paths ++ words)
          = .ok (⟨none, none⟩, paths ++ words) := by
        refine argumentLoop_paths ?_
        rwa [List.head?_append_of_ne_nil _ some']
      have spelled : startsOf (paths ++ words) = paths ++ words :=
        if_neg fun none' => some' (List.append_eq_nil_iff.mp none').1
      have prints := walks_lines list ⟨none, none⟩ (paths ++ words)
      have all (nodes : List Node)
          : nodes.filter (fun node => wantEntry ⟨none, none⟩ node.name node.type) = nodes :=
        List.filter_eq_self.mpr fun _ _ => rfl
      rw [all] at prints
      rw [if_neg Bool.false_ne_true, unread, starts]
      dsimp only
      rw [spelled, lists_unread_iff (starts ▸ fits) (fun node => wantEntry_iff) prints]
      exact ⟨fun holds => Or.inr (Or.inr holds),
        fun holds => (holds.resolve_left Bool.false_ne_true).resolve_left some'⟩

/-- A root directory with one file in it. -/
def oneFile : Listing := fun path => if path = [SLASH] then some [([97], .file)] else none

theorem oneFile_fits : ∀ start ∈ startsOf [[SLASH]], Fits oneFile (FIND_MAXDEPTH + 1) start :=
  List.forall_mem_singleton.mpr ⟨_, rfl, ⟨by decide, by decide⟩, by simp⟩

theorem find_lists_files
    : Lists oneFile (startsOf [[SLASH]]) (Wanted none (some .f))
        (find oneFile [TYPE, Letter.f.word, [SLASH]]).1 :=
  (find_lists_iff true (by decide) (Or.inl rfl) oneFile_fits).mpr
    (by rw [if_neg (by decide)]; exact Or.inl rfl)

/-- `find / -type d` prints a file. -/
theorem find_behind
    : ¬ ∀ (list : Listing) (paths words : List Bytes) (pattern : Option Bytes)
        (letter : Option Letter) (front : Bool),
        (∀ path ∈ paths.head?, isPath path = true) → Words pattern letter words →
          (∀ start ∈ startsOf paths, Fits list (FIND_MAXDEPTH + 1) start) →
            Lists list (startsOf paths) (Wanted pattern letter)
              (find list (if front then words ++ paths else paths ++ words)).1 := by
  intro always
  obtain ⟨parts, prints, each⟩ :=
    always oneFile [[SLASH]] [TYPE, Letter.d.word] none (some .d) false (by decide) (Or.inl rfl)
      oneFile_fits
  have printed : [SLASH, 97] ∈ parts.flatten.map Node.path := by
    rw [← prints]
    decide
  obtain ⟨node, member, _⟩ := List.mem_map.mp printed
  obtain ⟨part, _, one, none', rfl⟩ := List.forall₂_cons_left_iff.mp each
  cases none'
  obtain ⟨below, _, isDir⟩ := (one.mem_iff node).mp (by simpa using member)
  obtain rfl := List.mem_singleton.mp (below.mem (oneFile_fits _ List.mem_cons_self))
  cases isDir .d rfl

end Panuti.Pcrutils.Find
