import Panuti.Cp.Growth

/-! What `copy_tree` visits. It goes through the entries of the source as it finds them, while it
makes entries in the destination: if this is in the source, it copies what it has made itself.
-/

namespace Panuti.Cp

open Panuti.Native (Name Path dot dotdot splitLast)
open Relation (ReflTransGen)

-- Joined paths

theorem walkComponents_append (s : System) (start : Nat) (before after : List Name)
    : s.walkComponents start (before ++ after)
      = (s.walkComponents start before).bind fun middle => s.walkComponents middle after := by
  induction before generalizing start with
  | nil => rfl
  | cons component rest ih =>
      rw [List.cons_append, System.walkComponents, System.walkComponents]
      split
      next => exact ih start
      next =>
          split
          next child _ => exact ih child
          next => rfl

variable {name : Name} {dir : Nat} {entries all : List (Name × Nat)}

theorem walk_join (s : System) (start : Nat) (base : Path) (plain : '/' ∉ name) (some' : base ≠ [])
    : s.walkComponents start ((pathJoin base name).splitOn '/')
      = (s.walkComponents start (base.splitOn '/')).bind fun dir =>
        s.walkComponents dir [name] := by
  have single : name.splitOn '/' = [name] := List.splitOn_eq_singleton plain
  rw [pathJoin, if_neg some']
  by_cases slash : base.getLast? = some '/'
  · rw [if_pos slash]
    obtain ⟨front, rfl⟩ := List.getLast?_eq_some_iff.mp slash
    have skip (middle : Option Nat)
        : (middle.bind fun dir => s.walkComponents dir [[]]) = middle := by
      cases middle with
      | none => rfl
      | some dir => rfl
    rw [List.append_assoc, List.singleton_append, List.splitOn_append_cons_self,
      List.splitOn_append_cons_self, single, walkComponents_append, walkComponents_append]
    exact congrArg (fun middle => Option.bind middle _) (skip _).symm
  · rw [if_neg slash, List.splitOn_append_cons_self, single, walkComponents_append]

theorem resolve_join {s : System} {base : Path} {child : Nat} (resolves : s.resolve base = some dir)
    (plain : '/' ∉ name) (named : name ≠ []) (there : (s.entries dir).lookup name = some child)
    : s.resolve (pathJoin base name) = some child := by
  rw [System.resolve] at resolves
  split at resolves
  next => cases resolves
  next some' =>
      dsimp only at resolves
      split at resolves
      next found walks =>
          have isDir : found = dir := by
            split at resolves
            next => cases resolves
            next => exact Option.some.inj resolves
          subst isDir
          have joined : ∃ front, pathJoin base name = base ++ front ∧ pathJoin base name ≠ []
              ∧ (pathJoin base name).getLast? ≠ some '/' := by
            rw [pathJoin, if_neg some']
            have last : (name.getLast? : Option Char) ≠ some '/' := fun same =>
              plain (List.mem_of_getLast? same)
            split
            next =>
                refine ⟨name, rfl, List.append_ne_nil_of_left_ne_nil some' _, ?_⟩
                rw [List.getLast?_append_of_ne_nil _ named]
                exact last
            next =>
                refine ⟨'/' :: name, rfl, List.append_ne_nil_of_left_ne_nil some' _, ?_⟩
                rw [List.getLast?_append_of_ne_nil _ (List.cons_ne_nil _ _),
                  List.getLast?_cons_of_ne_nil named]
                exact last
          obtain ⟨front, same, some'', last⟩ := joined
          have head : (pathJoin base name).head? = base.head? := by
            rw [same, List.head?_append_of_ne_nil _ some']
          rw [System.resolve, if_neg some'']
          dsimp only
          rw [head, walk_join s _ base plain some', walks]
          dsimp only [Option.bind_some, System.walkComponents]
          rw [if_neg named, there]
          dsimp only
          rw [if_neg fun all => last all.2.1]
      next => cases resolves

-- What is visited

/-- A call of `copy_tree` or of `copy_file`. -/
def Call.isVisit : Call → Bool
  | .tree _ => true
  | .file _ => true
  | _ => false

/-- The calls of `copy_tree` and of `copy_file` so far. -/
def System.visits (s : System) : List Call := s.log.filter Call.isVisit

/-- Distinct names that are not empty and have no slash. -/
structure WellNamed (entries : List (Name × Nat)) : Prop where
  distinct : (entries.map Prod.fst).Nodup
  plain : ∀ entry ∈ entries, '/' ∉ entry.1 ∧ entry.1 ≠ []

/-- Entries of a finite tree, with what is below them: a call of `copy_tree` for each directory and
one of `copy_file` for everything else, in their order.
-/
inductive Spans (s : System) : List (Name × Nat) → List Call → Prop
  | nil : Spans s [] []
  | dots {name : Name} {inode : Nat} {rest : List (Name × Nat)} {visits : List Call}
      (isDots : name = dot ∨ name = dotdot) (spans : Spans s rest visits)
      : Spans s ((name, inode) :: rest) visits
  | dir {name : Name} {inode : Nat} {entries rest : List (Name × Nat)}
      {below visits : List Call} (proper : ¬ (name = dot ∨ name = dotdot))
      (there : s.nodes.get inode = some (.dir entries)) (named : WellNamed entries)
      (inside : Spans s entries below) (spans : Spans s rest visits)
      : Spans s ((name, inode) :: rest) (.tree (some inode) :: below ++ visits)
  | leaf {name : Name} {inode : Nat} {node : Node} {rest : List (Name × Nat)}
      {visits : List Call} (proper : ¬ (name = dot ∨ name = dotdot))
      (there : s.nodes.get inode = some node) (isLeaf : s.isDir inode = false)
      (spans : Spans s rest visits)
      : Spans s ((name, inode) :: rest) (.file (some inode) :: visits)

theorem visits_of_log {s later : System} {calls : List Call} (log : later.log = s.log ++ calls)
    : later.visits = s.visits ++ calls.filter Call.isVisit := by
  rw [System.visits, System.visits, log, List.filter_append]

theorem visits_note (s : System) (call : Call)
    : (s.note call).visits = s.visits ++ [call].filter Call.isVisit :=
  List.filter_append _ _

theorem Makes.visits {s later : System} (makes : Makes s later) : later.visits = s.visits := by
  rcases makes.log with same | ⟨dir, more⟩
  · rw [System.visits, System.visits, same]
  · rw [visits_of_log more]
    exact List.append_nil _

/-- `make_dir` visits nothing. -/
theorem makeDir_visits (s : System) (path : Path) : (makeDir s path).2.visits = s.visits := by
  have look := isDirectory_system s path
  rw [makeDir]
  split
  next later same =>
      rw [same] at look
      obtain rfl : later = s.tick := look
      rfl
  next later same =>
      rw [same] at look
      obtain rfl : later = s.tick := look
      have made := (make_makes s.tick path fun parent =>
        .dir [(dot, s.tick.nodes.next), (dotdot, parent)]).visits
      change (s.tick.mkdir path).2.visits = s.tick.visits at made
      split
      next later same' =>
          rw [same'] at made
          exact made
      next later same' =>
          rw [same'] at made
          have again := isDirectory_system later path
          split
          next last found =>
              rw [found] at again
              obtain rfl : last = later.tick := again
              exact made
          next last found =>
              rw [found] at again
              obtain rfl : last = later.tick := again
              exact made

/-- `copy_file` visits its source. -/
theorem copyFile_visits (s : System) (src dst : Path)
    : (copyFile s src dst).2.visits = s.visits ++ [.file (s.resolve src)] := by
  have noted : (s.note (.file (s.resolve src))).visits = s.visits ++ [.file (s.resolve src)] :=
    visits_note s _
  have made := (make_makes (s.note (.file (s.resolve src))).tick dst fun _ => .file []).visits
  have run := copyFile_run s src dst
  generalize copyFile s src dst = result at run ⊢
  cases run with
  | same => exact noted
  | noSource => exact noted
  | noTarget makes =>
      subst makes
      exact made.trans noted
  | @opened made' resized later source target wiped success _ sourceThere makes targetThere resize
      loop returns =>
      subst makes returns
      have wipes := (resize_touches
        ((s.note (.file (s.resolve src))).tick.mkfile dst).2.tick target).log
      rw [resize] at wipes
      have copies := (copyLoop_touches
        (resized.note (.opened source target (decide (s.nodes.next ≤ target)) wiped)) source target
        ((resized.data source).length + 1) 0).log
      rw [loop] at copies
      have log : later.log
          = ((s.note (.file (s.resolve src))).tick.mkfile dst).2.log
            ++ [.opened source target (decide (s.nodes.next ≤ target)) wiped] :=
        copies.trans (congrArg (· ++ _) wipes)
      have all := (visits_of_log log).trans ((List.append_nil _).trans (made.trans noted))
      cases success with
      | false => exact all
      | true =>
          have more : (later.note (.copied source target)).visits = later.visits :=
            (visits_note later _).trans (List.append_nil _)
          exact more.trans all

-- A tree that gets no entries

def Safe (inTree : Nat → Prop) (s : System) : Prop := ∀ dir, .made dir ∈ s.log → ¬ inTree dir

variable {start s later : System} {inTree : Nat → Prop}

theorem Safe.before (safe : Safe inTree later) (grows : Grows s later) : Safe inTree s :=
  fun dir made => safe dir (grows.log.subset made)

theorem Safe.frozen (safe : Safe inTree s) (grows : Grows start s) (among : inTree dir)
    (there : start.nodes.get dir = some (.dir entries))
    : s.nodes.get dir = some (.dir entries) := by
  obtain ⟨more, there', -, made⟩ := grows.dirs dir entries there
  have none' : more = [] := by
    by_contra some'
    exact safe dir (made some') among
  rw [there', none']
  rfl

theorem readdir_frozen (same : s.entries dir = all)
    : s.readdir ⟨dir, entries, all.length⟩
      = (if s.fate.fails then none
          else
            match entries with
            | [] => none
            | entry :: rest => some (entry, ⟨dir, rest, all.length⟩),
          s.tick) := by
  rw [System.readdir]
  dsimp only
  rw [same, Nat.sub_self, List.take_zero, List.filter_nil, List.append_nil]
  split
  next => rfl
  next =>
      cases entries with
      | nil => rfl
      | cons entry rest => rfl

theorem WellNamed.lookup {before rest : List (Name × Nat)} {inode : Nat} (named : WellNamed all)
    (parts : all = before ++ (name, inode) :: rest)
    : all.lookup name = some inode := by
  have distinct := named.distinct
  rw [parts, List.map_append, List.map_cons] at distinct
  have absent : before.lookup name = none := by
    refine List.lookup_eq_none_iff.mpr fun entry among => ?_
    rw [bne_iff_ne]
    rintro rfl
    exact (List.nodup_append.mp distinct).2.2 _ (List.mem_map_of_mem among) _ List.mem_cons_self
      rfl
  rw [parts, List.lookup_append, absent, List.lookup_cons_self]
  rfl

/-- A call has come to its end, and has visited some of these in their order: all of them when no
call of the kernel fails and it reports success.
-/
def Covers (start s : System) (o : Outcome) (visits : List Call) : Prop :=
  o.finished = true
  ∧ ∃ seen, o.system.visits = s.visits ++ seen ∧ seen.Sublist visits
    ∧ ((∀ n, (start.fates n).fails = false) → o.rc = 0 → seen = visits)

/-- The loop over these entries covers what is below them, with so much fuel for its calls. -/
def LoopCovers (start : System) (inTree : Nat → Prop) (fuel : Nat) (entries : List (Name × Nat))
    (visits : List Call) : Prop :=
  ∀ turns, entries.length < turns → ∀ (s : System) (src dst : Path) (dir : Nat)
    (before : List (Name × Nat)) (failed : Bool),
    Grows start s → s.resolve src = some dir
      → start.nodes.get dir = some (.dir (before ++ entries)) → WellNamed (before ++ entries)
      → inTree dir
      → let o := copyEntries (copyTree fuel) src dst turns s
          ⟨dir, entries, (before ++ entries).length⟩ failed
        Safe inTree o.system → Covers start s o visits

theorem Covers.failed {o : Outcome} {visits : List Call} (finished : o.finished = true)
    (same : o.system.visits = s.visits) (rc : o.rc = -1)
    : Covers start s o visits := by
  refine ⟨finished, [], ?_, List.nil_sublist _, fun _ success => ?_⟩
  · rw [same, List.append_nil]
  · rw [rc] at success
    cases success

theorem copyTree_covers {fuel : Nat} {below : List Call}
    (inside : LoopCovers start inTree fuel entries below) (enough : entries.length < fuel)
    {inode : Nat} (there : start.nodes.get inode = some (.dir entries)) (named : WellNamed entries)
    (among : inTree inode) (grows : Grows start s) {src dst : Path}
    (resolves : s.resolve src = some inode)
    (safe : Safe inTree (copyTree (fuel + 1) s src dst).system)
    : Covers start s (copyTree (fuel + 1) s src dst) (.tree (some inode) :: below) := by
  have noted := (grows.trans (.note s (.tree (some inode)))).trans (.asks _)
  have visit : (s.note (.tree (some inode))).tick.visits = s.visits ++ [.tree (some inode)] :=
    visits_note s _
  have opened := (s.note (.tree (s.resolve src))).handleOpen_system src
  rw [copyTree] at safe ⊢
  rw [resolves] at safe opened ⊢
  split at safe
  next last same =>
      rw [same] at opened
      obtain rfl : last = _ := opened
      refine ⟨rfl, [.tree (some inode)], visit, ?_, fun _ => by rintro ⟨⟩⟩
      exact List.singleton_sublist.mpr List.mem_cons_self
  next dir last same =>
      rw [same] at opened
      obtain rfl : last = _ := opened
      have growing := grows_run (copyEntries_does (copyTree_does fuel) src dst fuel
        (s.note (.tree (some inode))).tick ((s.note (.tree (some inode))).tick.openDir dir) false)
      have safe' := safe.before growing
      have there' := safe'.frozen noted among there
      have found := (System.handleOpen_some _ (congrArg Prod.fst same)).1
      have resolves' : (s.note (.tree (some inode))).resolve src = some inode :=
        (Grows.note s _).resolve resolves there'
      obtain rfl := Option.some.inj (found.symm.trans resolves')
      have same' : (s.note (.tree (some dir))).tick.entries dir = entries :=
        (System.isDir_of_get there').2
      rw [System.openDir, same'] at safe ⊢
      have covers := inside fuel enough _ src dst dir [] false noted
        ((Grows.asks _).resolve resolves' there') there named among safe
      rw [List.nil_append] at covers
      obtain ⟨finished, seen, visits, part, whole⟩ := covers
      refine ⟨finished, .tree (some dir) :: seen, ?_, part.cons_cons _, fun able success => ?_⟩
      · rw [visits, visit, List.append_assoc]
        rfl
      · rw [whole able success]

theorem copyEntries_failed (tree : System → Path → Path → Outcome) (src dst : Path) (turns : Nat)
    (s : System) (h : DirHandle)
    : (copyEntries tree src dst turns s h true).rc ≠ 0
      ∨ (copyEntries tree src dst turns s h true).finished = false := by
  induction turns generalizing s h with
  | zero => exact .inr rfl
  | succ turns ih =>
      rw [copyEntries]
      split
      next =>
          refine .inl ?_
          dsimp only
          decide
      next =>
          split
          next => exact ih _ _
          next =>
              dsimp only
              split
              next => exact ih _ _
              next unfinished => exact .inr (Bool.eq_false_iff.mpr unfinished)

section Turns

variable (tree : System → Path → Path → Outcome) (src dst : Path) (turns : Nat) {dir : Nat}
  {all : List (Name × Nat)} (rest : List (Name × Nat)) (failed : Bool)

theorem copyEntries_nil (same : s.entries dir = all)
    : copyEntries tree src dst (turns + 1) s ⟨dir, [], all.length⟩ failed
      = ⟨true, if failed then -1 else 0, s.tick⟩ := by
  rw [copyEntries, readdir_frozen same, ite_self]

theorem copyEntries_cons (same : s.entries dir = all) (entry : Name × Nat)
    : copyEntries tree src dst (turns + 1) s ⟨dir, entry :: rest, all.length⟩ failed
      = if s.fate.fails then ⟨true, if failed then -1 else 0, s.tick⟩
        else if entry.1 = dot ∨ entry.1 = dotdot then
          copyEntries tree src dst turns s.tick ⟨dir, rest, all.length⟩ failed
        else
          let copied := copyEntry tree s.tick src dst entry
          if copied.finished then
            copyEntries tree src dst turns copied.system ⟨dir, rest, all.length⟩
              (failed || copied.rc ≠ 0)
          else copied := by
  rw [copyEntries, readdir_frozen same]
  by_cases fails : s.fate.fails = true
  · rw [if_pos fails, if_pos fails]
  · rw [if_neg fails, if_neg fails]

end Turns

theorem Grows.able (grows : Grows start s) (able : ∀ n, (start.fates n).fails = false)
    : ¬ s.fate.fails = true := by
  rw [System.fate, grows.fates, able]
  exact Bool.false_ne_true

variable {fuel inode : Nat}

/-- An entry that is covered, and then the rest of the loop. -/
theorem loop_covers {rest : List (Name × Nat)} {first more : List Call}
    (proper : ¬ (name = dot ∨ name = dotdot))
    (covers : ∀ (s : System) (src dst : Path), Grows start s
      → s.resolve (pathJoin src name) = some inode
      → let o := copyEntry (copyTree fuel) s src dst (name, inode)
        Safe inTree o.system → Covers start s o first)
    (loop : LoopCovers start inTree fuel rest more)
    : LoopCovers start inTree fuel ((name, inode) :: rest) (first ++ more) := by
  intro turns enough s src dst dir before failed grows resolves there named among o safe
  obtain ⟨turns, rfl⟩ := Nat.exists_eq_succ_of_ne_zero (Nat.ne_zero_of_lt enough)
  have growing := grows_run (copyEntries_does (copyTree_does fuel) src dst (turns + 1) s
    ⟨dir, (name, inode) :: rest, (before ++ (name, inode) :: rest).length⟩ failed)
  have there' := (safe.before growing).frozen grows among there
  have same := (System.isDir_of_get there').2
  have turn := copyEntries_cons (copyTree fuel) src dst turns rest failed same (name, inode)
  dsimp only at turn
  rw [if_neg proper] at turn
  change Safe inTree (copyEntries (copyTree fuel) src dst (turns + 1) s _ failed).system at safe
  change Covers start s (copyEntries (copyTree fuel) src dst (turns + 1) s _ failed) _
  rw [turn] at safe ⊢
  by_cases fails : s.fate.fails = true
  · rw [if_pos fails]
    refine ⟨rfl, [], (List.append_nil _).symm, List.nil_sublist _, fun able => ?_⟩
    exact absurd fails (grows.able able)
  · rw [if_neg fails] at safe ⊢
    have resolves' : s.tick.resolve (pathJoin src name) = some inode := by
      obtain ⟨plain, some'⟩ := named.plain (name, inode)
        (List.mem_append_right _ List.mem_cons_self)
      refine resolve_join ((Grows.asks s).resolve resolves there') plain some' ?_
      change (s.entries dir).lookup name = some inode
      rw [same]
      exact named.lookup rfl
    have grows' := grows.trans (.asks s)
    have growing' := grows_run (copyEntry_does (copyTree_does fuel) s.tick src dst (name, inode))
    cases finished : (copyEntry (copyTree fuel) s.tick src dst (name, inode)).finished with
    | false =>
        rw [finished, if_neg Bool.false_ne_true] at safe
        have done := (covers s.tick src dst grows' resolves' safe).1
        exact absurd (finished.symm.trans done) Bool.false_ne_true
    | true =>
        rw [finished, if_pos rfl] at safe
        rw [if_pos rfl]
        have growsOn := grows_run (copyEntries_does (copyTree_does fuel) src dst turns
          (copyEntry (copyTree fuel) s.tick src dst (name, inode)).system
          ⟨dir, rest, (before ++ (name, inode) :: rest).length⟩
          (failed || decide ((copyEntry (copyTree fuel) s.tick src dst (name, inode)).rc ≠ 0)))
        obtain ⟨-, seen, visits, part, whole⟩ :=
          covers s.tick src dst grows' resolves' (safe.before growsOn)
        have resolvesOn := ((Grows.asks s).trans growing').resolve resolves there'
        have tail := loop turns (by rw [List.length_cons] at enough; omega) _ src dst dir
          (before ++ [(name, inode)])
          (failed || decide ((copyEntry (copyTree fuel) s.tick src dst (name, inode)).rc ≠ 0))
          (grows'.trans growing') resolvesOn
        rw [← List.append_cons] at tail
        obtain ⟨ended, seen', visits', part', whole'⟩ := tail there named among safe
        refine ⟨ended, seen ++ seen', ?_, part.append part', fun able success => ?_⟩
        · rw [visits', visits, List.append_assoc]
          rfl
        · rw [whole' able success]
          refine congrArg (· ++ more) (whole able ?_)
          by_contra wrong
          have bad
              : (failed
                || decide ((copyEntry (copyTree fuel) s.tick src dst (name, inode)).rc ≠ 0))
                = true := by
            rw [decide_eq_true wrong, Bool.or_true]
          rw [bad] at success ended
          rcases copyEntries_failed (copyTree fuel) src dst turns _ _ with noSuccess | unended
          · exact noSuccess success
          · exact absurd (unended.symm.trans ended) Bool.false_ne_true

theorem leaf_covers (tree : System → Path → Path → Outcome) {node : Node}
    (there : start.nodes.get inode = some node) (isLeaf : start.isDir inode = false)
    (src dst : Path) (grows : Grows start s) (resolves : s.resolve (pathJoin src name) = some inode)
    : Covers start s (copyEntry tree s src dst (name, inode)) [.file (some inode)] := by
  rw [copyEntry]
  by_cases fails : s.fate.fails = true
  · rw [if_pos fails]
    exact .failed rfl rfl rfl
  · obtain ⟨node', there', leaf⟩ := grows.others inode node there isLeaf
    have resolves' := (Grows.asks s).resolve resolves there'
    have visits := copyFile_visits s.tick (pathJoin src name) (pathJoin dst name)
    have noDir : ¬ s.tick.isDir inode = true := by
      change ¬ s.isDir inode = true
      rw [leaf]
      exact Bool.false_ne_true
    rw [if_neg fails]
    dsimp only
    rw [if_neg noDir]
    rw [resolves'] at visits
    exact ⟨rfl, _, visits, List.Sublist.refl _, fun _ _ => rfl⟩

theorem dir_covers {below : List Call} (inside : LoopCovers start inTree fuel entries below)
    (enough : entries.length < fuel) (there : start.nodes.get inode = some (.dir entries))
    (named : WellNamed entries) (among : inTree inode) (src dst : Path) (grows : Grows start s)
    (resolves : s.resolve (pathJoin src name) = some inode)
    (safe : Safe inTree (copyEntry (copyTree (fuel + 1)) s src dst (name, inode)).system)
    : Covers start s (copyEntry (copyTree (fuel + 1)) s src dst (name, inode))
        (.tree (some inode) :: below) := by
  have safe' := safe.before (grows_run (copyEntry_does (copyTree_does (fuel + 1)) s src dst _))
  have there' := safe'.frozen grows among there
  have isDir : s.tick.isDir inode = true := (System.isDir_of_get there').1
  have made := grows_run (makeDir_does s.tick (pathJoin dst name))
  have visits := makeDir_visits s.tick (pathJoin dst name)
  rw [copyEntry] at safe ⊢
  by_cases fails : s.fate.fails = true
  · rw [if_pos fails]
    exact .failed rfl rfl rfl
  · rw [if_neg fails] at safe ⊢
    dsimp only at safe ⊢
    rw [if_pos isDir] at safe ⊢
    generalize makeDir s.tick (pathJoin dst name) = result at made visits safe ⊢
    split at safe
    next later =>
        have covers := copyTree_covers inside enough there named among
          ((grows.trans (.asks s)).trans made)
          (((Grows.asks s).trans made).resolve resolves there') safe
        obtain ⟨finished, seen, visits', rest⟩ := covers
        exact ⟨finished, seen, visits'.trans (congrArg (· ++ seen) visits), rest⟩
    next => exact .failed rfl visits rfl

/-- The tree of the source is covered, as long as none of its directories gets an entry. -/
theorem spans_covers (inTree : Nat → Prop) {visits : List Call} (spans : Spans start entries visits)
    (among : ∀ dir, .tree (some dir) ∈ visits → inTree dir)
    : ∃ enough, ∀ fuel, enough ≤ fuel → LoopCovers start inTree fuel entries visits := by
  induction spans with
  | nil =>
      refine ⟨0, fun fuel _ => ?_⟩
      intro turns enough s src dst dir before failed grows resolves there named among o safe
      obtain ⟨turns, rfl⟩ := Nat.exists_eq_succ_of_ne_zero (Nat.ne_zero_of_lt enough)
      have growing := grows_run (copyEntries_does (copyTree_does fuel) src dst (turns + 1) s
        ⟨dir, [], (before ++ []).length⟩ failed)
      have there' := (safe.before growing).frozen grows among there
      have turn := copyEntries_nil (copyTree fuel) src dst turns failed
        (System.isDir_of_get there').2
      change Covers start s (copyEntries (copyTree fuel) src dst (turns + 1) s _ failed) _
      rw [turn]
      exact ⟨rfl, [], (List.append_nil _).symm, List.nil_sublist _, fun _ _ => rfl⟩
  | @dots name inode rest visits isDots spans ih =>
      obtain ⟨enough, covers⟩ := ih among
      refine ⟨enough, fun fuel more => ?_⟩
      intro turns enough s src dst dir before failed grows resolves there named among o safe
      obtain ⟨turns, rfl⟩ := Nat.exists_eq_succ_of_ne_zero (Nat.ne_zero_of_lt enough)
      have growing := grows_run (copyEntries_does (copyTree_does fuel) src dst (turns + 1) s
        ⟨dir, (name, inode) :: rest, (before ++ (name, inode) :: rest).length⟩ failed)
      have there' := (safe.before growing).frozen grows among there
      have turn := copyEntries_cons (copyTree fuel) src dst turns rest failed
        (System.isDir_of_get there').2 (name, inode)
      dsimp only at turn
      rw [if_pos isDots] at turn
      change Safe inTree (copyEntries (copyTree fuel) src dst (turns + 1) s _ failed).system at safe
      change Covers start s (copyEntries (copyTree fuel) src dst (turns + 1) s _ failed) _
      rw [turn] at safe ⊢
      by_cases fails : s.fate.fails = true
      · rw [if_pos fails]
        refine ⟨rfl, [], (List.append_nil _).symm, List.nil_sublist _, fun able => ?_⟩
        exact absurd fails (grows.able able)
      · rw [if_neg fails] at safe ⊢
        have tail := covers fuel more turns (by rw [List.length_cons] at enough; omega) s.tick src
          dst dir (before ++ [(name, inode)]) failed (grows.trans (.asks s))
          ((Grows.asks s).resolve resolves there')
        rw [← List.append_cons] at tail
        exact tail there named among safe
  | @dir name inode entries rest below visits proper there named inside spans ih ih' =>
      have self : inTree inode := among inode (List.mem_append_left _ List.mem_cons_self)
      obtain ⟨enough, covers⟩ := ih fun dir member =>
        among dir (List.mem_append_left _ (List.mem_cons_of_mem _ member))
      obtain ⟨enough', covers'⟩ := ih' fun dir member =>
        among dir (List.mem_append_right _ member)
      refine ⟨max enough' (enough + entries.length + 2), fun fuel more => ?_⟩
      obtain ⟨fuel, rfl⟩ := Nat.exists_eq_succ_of_ne_zero
        (show fuel ≠ 0 by omega)
      exact loop_covers proper
        (fun s src dst grows resolves safe => dir_covers (covers fuel (by omega)) (by omega) there
          named self src dst grows resolves safe)
        (covers' (fuel + 1) (by omega))
  | @leaf name inode node rest visits proper there isLeaf spans ih =>
      obtain ⟨enough, covers⟩ := ih fun dir member => among dir (List.mem_cons_of_mem _ member)
      refine ⟨enough, fun fuel more => ?_⟩
      exact loop_covers proper
        (fun s src dst grows resolves _ => leaf_covers (copyTree fuel) there isLeaf src dst grows
          resolves)
        (covers fuel more)

-- A run of cp -r

/-- A call of `copy_tree`. -/
def Call.isTree : Call → Bool
  | .tree _ => true
  | _ => false

/-- A finite tree of directories below one of them, with the calls that copy it; no directory is in
it twice.
-/
structure DirectoryTree (s : System) (top : Nat) (visits : List Call) : Prop where
  spans : ∃ entries below, s.nodes.get top = some (.dir entries) ∧ WellNamed entries
    ∧ Spans s entries below ∧ visits = .tree (some top) :: below
  once : (visits.filter Call.isTree).Nodup

theorem Spans.reset {visits : List Call} (spans : Spans s entries visits) (log : List Call)
    : Spans { s with log := log } entries visits := by
  induction spans with
  | nil => exact .nil
  | dots isDots _ ih => exact .dots isDots ih
  | dir proper there named _ _ ih ih' => exact .dir proper there named ih ih'
  | leaf proper there isLeaf _ ih => exact .leaf proper there isLeaf ih

theorem walkComponents_reset (s : System) (log : List Call) (current : Nat)
    (components : List Name)
    : ({ s with log := log } : System).walkComponents current components
      = s.walkComponents current components := by
  induction components generalizing current with
  | nil => rfl
  | cons component rest ih =>
      rw [System.walkComponents, System.walkComponents]
      split
      next => exact ih current
      next =>
          have same : ({ s with log := log } : System).entries current = s.entries current := rfl
          rw [same]
          split
          next child _ => exact ih child
          next => rfl

theorem resolve_reset (s : System) (log : List Call) (path : Path)
    : ({ s with log := log } : System).resolve path = s.resolve path := by
  rw [System.resolve, System.resolve]
  dsimp only
  rw [walkComponents_reset]
  rfl

theorem copySource_covers {below : List Call} (inside : LoopCovers start inTree fuel entries below)
    (enough : entries.length < fuel) {top : Nat} (there : start.nodes.get top = some (.dir entries))
    (named : WellNamed entries) (among : inTree top) (grows : Grows start s) {src dest : Path}
    {destIsDir : Bool} (resolves : s.resolve src = some top)
    (safe : Safe inTree (copySource (fuel + 1) true s src dest destIsDir).system)
    : Covers start s (copySource (fuel + 1) true s src dest destIsDir)
        (.tree (some top) :: below) := by
  have safe' := safe.before (grows_run (copySource_does (fuel + 1) true s src dest destIsDir))
  have there' := safe'.frozen grows among there
  have stat := s.stat_system src
  rw [copySource] at safe ⊢
  split at safe
  next later same =>
      rw [same] at stat
      obtain rfl : later = s.tick := stat
      exact .failed rfl rfl rfl
  next inode later same =>
      rw [same] at stat
      obtain rfl : later = s.tick := stat
      have found := (System.handleOpen_some s (congrArg Prod.fst same)).1
      obtain rfl := Option.some.inj (found.symm.trans resolves)
      have isDir : s.tick.isDir inode = true := (System.isDir_of_get there').1
      have recurses : ¬ (s.tick.isDir inode && !true) = true := by
        rw [Bool.not_true, Bool.and_false]
        exact Bool.false_ne_true
      dsimp only at safe ⊢
      rw [if_neg recurses] at safe ⊢
      split at safe
      next refused =>
          rw [if_pos refused]
          exact .failed rfl rfl rfl
      next accepted =>
          rw [if_neg accepted]
          have isDir' : s.tick.tick.isDir inode = true := isDir
          rw [if_pos isDir'] at safe ⊢
          have made := grows_run (makeDir_does s.tick.tick
            (if destIsDir = true then pathJoin dest (baseName src) else dest))
          have visits := makeDir_visits s.tick.tick
            (if destIsDir = true then pathJoin dest (baseName src) else dest)
          generalize makeDir s.tick.tick
            (if destIsDir = true then pathJoin dest (baseName src) else dest) = result
            at made visits safe ⊢
          have asks := (Grows.asks s).trans (.asks s.tick)
          split at safe
          next last =>
              have covers := copyTree_covers inside enough there named among
                ((grows.trans asks).trans made) ((asks.trans made).resolve resolves there') safe
              obtain ⟨finished, seen, visits', rest⟩ := covers
              exact ⟨finished, seen, visits'.trans (congrArg (· ++ seen) visits), rest⟩
          next => exact .failed rfl visits rfl

theorem main_one (fuel : Nat) (recurse : Bool) (s : System) (src dest : Path)
    : let o := main fuel recurse s [src] dest
      let copied := copySource fuel recurse ({ s with log := [] } : System).tick src dest
        (isDirectory { s with log := [] } dest).1
      o.finished = copied.finished ∧ o.system = copied.system
        ∧ (o.finished = true → o.rc = 0 → copied.rc = 0) := by
  have look := isDirectory_system { s with log := [] } dest
  rcases answer : isDirectory { s with log := [] } dest with ⟨destIsDir, later⟩
  rw [answer] at look
  obtain rfl : later = ({ s with log := [] } : System).tick := look
  have turn : main fuel recurse s [src] dest
      = copySources fuel recurse dest destIsDir ({ s with log := [] } : System).tick false
          [src] := by
    rw [main, if_neg (List.cons_ne_nil _ _)]
    dsimp only
    rw [answer]
    exact if_neg fun both => absurd both.1 (Nat.lt_irrefl 1)
  intro o copied
  have one : o = if copied.finished then
        ⟨true, if false || decide (copied.rc ≠ 0) then -1 else 0, copied.system⟩
      else copied :=
    turn
  rw [one]
  by_cases finished : copied.finished = true
  · rw [if_pos finished]
    refine ⟨finished.symm, rfl, fun _ zero => ?_⟩
    by_contra wrong
    dsimp only at zero
    rw [Bool.false_or, if_pos (decide_eq_true wrong)] at zero
    cases zero
  · rw [if_neg finished]
    exact ⟨rfl, rfl, fun _ => id⟩

/-- `cp -r` comes to its end and copies every entry of the source at most once, and without a
failure just once, and nothing else, if no directory of the source gets an entry.
-/
theorem tree_copied_once (s : System) (src dest : Path) {top : Nat} {visits : List Call}
    (resolves : s.resolve src = some top) (tree : DirectoryTree s top visits)
    : ∃ enough, ∀ fuel, enough ≤ fuel →
        let o := main fuel true s [src] dest
        (∀ dir, .made dir ∈ o.system.log → .tree (some dir) ∉ visits)
          → o.finished = true ∧ o.system.visits.Sublist visits
            ∧ (o.system.visits.filter Call.isTree).Nodup
            ∧ ((∀ n, (s.fates n).fails = false) → o.rc = 0 → o.system.visits = visits) := by
  obtain ⟨entries, below, there, named, spans, rfl⟩ := tree.spans
  obtain ⟨enough, inside⟩ := spans_covers
    (fun dir => .tree (some dir) ∈ .tree (some top) :: below) (spans.reset [])
    fun dir among => List.mem_cons_of_mem _ among
  refine ⟨enough + entries.length + 2, fun fuel more => ?_⟩
  obtain ⟨fuel, rfl⟩ := Nat.exists_eq_succ_of_ne_zero (show fuel ≠ 0 by omega)
  obtain ⟨finished, system, success⟩ := main_one (fuel + 1) true s src dest
  intro o safe
  have covers := copySource_covers (s := ({ s with log := [] } : System).tick)
    (inside fuel (by omega)) (by omega) there named List.mem_cons_self (Grows.asks _)
    ((Grows.asks _).resolve ((resolve_reset s [] src).trans resolves) there) (system ▸ safe)
  obtain ⟨ended, seen, visits, part, whole⟩ := covers
  rw [← system] at visits
  rw [← finished] at ended
  have all : o.system.visits = seen := visits
  rw [all]
  refine ⟨ended, part, tree.once.sublist (part.filter _), fun able rc => ?_⟩
  exact whole able (success ended rc)

/-- A root directory with the empty directory `a`, where every call succeeds and no directory lists
what was made after it was opened, as in the native tree.
-/
def oneDirectory : System where
  nodes := (Arena.empty.alloc (.dir [(['a'], 1), (dot, 0), (dotdot, 0)])).alloc
    (.dir [(dot, 1), (dotdot, 0)])
  root := 0
  cwd := 0
  fates _ := ⟨false, 128, fun _ => false⟩
  clock := 0
  log := []

theorem directoryTree_a : DirectoryTree oneDirectory 1 [.tree (some 1)] := by
  refine ⟨⟨[(dot, 1), (dotdot, 0)], [], rfl, ⟨by decide, by decide⟩, ?_, rfl⟩, by decide⟩
  exact .dots (.inl rfl) (.dots (.inr rfl) .nil)

/-- A copy of `a` to a directory beside it. -/
theorem a_copied_once
    : ∃ enough, ∀ fuel, enough ≤ fuel →
        let o := main fuel true oneDirectory [['/', 'a']] ['/', 'b']
        (∀ dir, .made dir ∈ o.system.log → .tree (some dir) ∉ [Call.tree (some 1)])
          → o.finished = true ∧ o.system.visits.Sublist [.tree (some 1)]
            ∧ (o.system.visits.filter Call.isTree).Nodup
            ∧ ((∀ n, (oneDirectory.fates n).fails = false) → o.rc = 0
              → o.system.visits = [.tree (some 1)]) :=
  tree_copied_once oneDirectory ['/', 'a'] ['/', 'b'] (by decide) directoryTree_a

/-- A copy of `a` into itself copies the directory that it has made there. -/
theorem copy_copied
    : ¬ ∀ (s : System) (src dest : Path) (top : Nat) (visits : List Call),
      s.resolve src = some top → DirectoryTree s top visits
        → ∃ enough, ∀ fuel, enough ≤ fuel →
          let o := main fuel true s [src] dest
          o.finished = true ∧ o.system.visits.Sublist visits := by
  intro always
  obtain ⟨enough, covers⟩ := always oneDirectory ['/', 'a'] ['/', 'a', '/', 'b'] 1
    [.tree (some 1)] (by decide) directoryTree_a
  have part := (covers (max enough 3) (Nat.le_max_left _ _)).2
  have system := (main_one (max enough 3) true oneDirectory ['/', 'a'] ['/', 'a', '/', 'b']).2.1
  -- the directory is made, and then the tree is copied
  have begun (fuel : Nat)
      : copySource fuel true oneDirectory.tick ['/', 'a'] ['/', 'a', '/', 'b'] false
        = copyTree fuel (makeDir oneDirectory.tick.tick.tick ['/', 'a', '/', 'b']).2 ['/', 'a']
            ['/', 'a', '/', 'b'] := by
    rfl
  have early : .tree (some 2)
      ∈ (copyTree 3 (makeDir oneDirectory.tick.tick.tick ['/', 'a', '/', 'b']).2 ['/', 'a']
          ['/', 'a', '/', 'b']).system.log := by
    decide
  have late := (copyTree_before (Nat.le_max_right enough 3) _ _ _).log.subset early
  rw [← begun] at late
  change (main (max enough 3) true oneDirectory _ _).system.visits.Sublist _ at part
  rw [system] at part
  have visited := part.subset (List.mem_filter.mpr ⟨late, rfl⟩)
  exact absurd (List.mem_singleton.mp visited) (by decide)

end Panuti.Cp
