import Panuti.Cp.Frames

/-! What cp does to the contents of files. The two paths of `copy_file` are compared as they are
spelt, and the destination is wiped before the source is read: a destination that is a source file
under another spelling or another name is lost. A destination that could not be wiped keeps what it
has beyond the copy.
-/

namespace Panuti.Cp

open Panuti.Native (Name Path dot dotdot splitLast)
open Relation (ReflTransGen)

-- The loop of a copy

theorem writeAt_end (contents bytes : List UInt8)
    : System.writeAt contents contents.length bytes = contents ++ bytes := by
  rw [System.writeAt, List.take_length, Nat.sub_self, List.replicate_zero, List.append_nil,
    List.drop_eq_nil_of_le (by omega), List.append_nil]

variable {target turns source pos inode : Nat} {contents bytes : List UInt8}

theorem handleWrite_end {s later : System} {taken : Nat}
    (there : s.nodes.get target = some (.file contents)) (positive : taken ≠ 0)
    (wrote : s.handleWrite target contents.length bytes = (taken, later))
    : taken ≤ bytes.length
      ∧ later.nodes.get target = some (.file (contents ++ bytes.take taken)) := by
  rw [System.handleWrite] at wrote
  dsimp only at wrote
  split at wrote
  next => exact absurd (Prod.mk.inj wrote).1.symm positive
  next =>
      rw [there] at wrote
      obtain ⟨rfl, rfl⟩ := Prod.mk.inj wrote
      have same : bytes.take (bytes.take s.fate.count).length = bytes.take s.fate.count := by
        rw [List.length_take]
        exact List.take_eq_take_min.symm
      refine ⟨List.length_take_le' _ _, ?_⟩
      dsimp only
      rw [Arena.get_modify_self, there, same, writeAt_end]
      rfl

theorem pcrHandleWriteAll_end {s later : System}
    (there : s.nodes.get target = some (.file contents))
    (wrote : pcrHandleWriteAll s target turns contents.length bytes = (true, later))
    : later.nodes.get target = some (.file (contents ++ bytes)) := by
  induction turns generalizing s contents bytes with
  | zero =>
      cases bytes with
      | nil =>
          obtain rfl := (Prod.mk.inj wrote).2
          rw [List.append_nil]
          exact there
      | cons byte rest => exact absurd (Prod.mk.inj wrote).1 nofun
  | succ turns ih =>
      cases bytes with
      | nil =>
          obtain rfl := (Prod.mk.inj wrote).2
          rw [List.append_nil]
          exact there
      | cons byte rest =>
          rw [pcrHandleWriteAll] at wrote
          split at wrote
          next => exact absurd (Prod.mk.inj wrote).1 nofun
          next taken middle same =>
              obtain ⟨within, more⟩ := handleWrite_end there (Nat.succ_ne_zero taken) same
              have length : (contents ++ (byte :: rest).take (taken + 1)).length
                  = contents.length + (taken + 1) := by
                rw [List.length_append, List.length_take, Nat.min_eq_left within]
              rw [← length] at wrote
              have all := ih more wrote
              rw [List.append_assoc, List.take_append_drop] at all
              exact all
          next => exact List.cons_ne_nil _ _

theorem handleRead_file {s : System} {len : Nat}
    (there : s.nodes.get source = some (.file contents)) (some' : 0 < len)
    (read : (s.handleRead source pos len).1 = some bytes)
    : bytes <+: contents.drop pos ∧ (bytes = [] → contents.length ≤ pos) := by
  rw [System.handleRead] at read
  dsimp only at read
  split at read
  next => cases read
  next =>
      rw [there] at read
      obtain rfl := Option.some.inj read
      constructor
      · exact (List.take_prefix _ _).trans (List.take_prefix _ _)
      · intro none'
        have length := congrArg List.length none'
        rw [List.length_take, List.length_take, List.length_drop, List.length_nil] at length
        omega

theorem copyLoop_copies {s later : System} (apart : source ≠ target)
    (there : s.nodes.get source = some (.file contents)) (within : pos ≤ contents.length)
    (copied : s.nodes.get target = some (.file (contents.take pos)))
    (done : copyLoop s source target turns pos = (true, later))
    : later.nodes.get target = some (.file contents) := by
  induction turns generalizing s pos with
  | zero => exact absurd (Prod.mk.inj done).1 nofun
  | succ turns ih =>
      have left := s.handleRead_system source pos CP_BUFSZ
      rw [copyLoop] at done
      split at done
      next => exact absurd (Prod.mk.inj done).1 nofun
      next middle same =>
          obtain rfl := (Prod.mk.inj done).2
          rw [same] at left
          obtain rfl : middle = s.tick := left
          have stop := (handleRead_file there (by decide) (congrArg Prod.fst same)).2 rfl
          rw [List.take_of_length_le stop] at copied
          exact copied
      next byte bytes middle same =>
          rw [same] at left
          obtain rfl : middle = s.tick := left
          obtain ⟨rest, next⟩ := (handleRead_file there (by decide) (congrArg Prod.fst same)).1
          split at done
          next => exact absurd (Prod.mk.inj done).1 nofun
          next written same' =>
              have length : (contents.take pos).length = pos := by
                rw [List.length_take, Nat.min_eq_left within]
              have touched := pcrHandleWriteAll_touches s.tick target (bytes.length + 1) pos
                (byte :: bytes)
              rw [same'] at touched
              rw [← length] at same'
              have more := pcrHandleWriteAll_end (s := s.tick) copied same'
              have total := congrArg List.length next
              rw [List.length_append, List.length_drop, List.length_cons] at total
              have part : (byte :: bytes ++ rest).take (bytes.length + 1) = byte :: bytes :=
                List.take_left' rfl
              refine ih ((touched.others source apart).trans there) (by omega) ?_ done
              rw [more, List.take_add, ← next, part]

-- The turns of the loops

-- A call of `copy_file`

def Call.Quiet : Call → Prop
  | .opened _ _ _ _ => False
  | .copied _ _ => False
  | _ => True

/-- From one state to the other no contents have changed. -/
structure Quiet (s later : System) : Prop where
  log : ∃ calls : List Call, later.log = s.log ++ calls ∧ ∀ call ∈ calls, call.Quiet
  nodes : ∀ inode node, s.nodes.get inode = some node
    → (∃ node', later.nodes.get inode = some node')
      ∧ ∀ contents, later.nodes.get inode = some (.file contents)
        ↔ s.nodes.get inode = some (.file contents)

theorem Quiet.asks (s : System) : Quiet s s.tick :=
  ⟨⟨[], (List.append_nil _).symm, nofun⟩, fun _ node there => ⟨⟨node, there⟩, fun _ => Iff.rfl⟩⟩

theorem Quiet.note (s : System) {call : Call} (quiet : call.Quiet) : Quiet s (s.note call) := by
  refine ⟨⟨[call], rfl, ?_⟩, fun _ node there => ⟨⟨node, there⟩, fun _ => Iff.rfl⟩⟩
  intro other among
  obtain rfl := List.mem_singleton.mp among
  exact quiet

theorem Makes.quiet {s later : System} (makes : Makes s later) : Quiet s later := by
  constructor
  · rcases makes.log with same | ⟨dir, more⟩
    · exact ⟨[], by rw [same, List.append_nil], nofun⟩
    · refine ⟨[.made dir], more, fun call among => ?_⟩
      obtain rfl := List.mem_singleton.mp among
      trivial
  · intro inode node there
    obtain ⟨node', there', -⟩ := makes.node there
    exact ⟨⟨node', there'⟩, makes.file there⟩

theorem Quiet.trans {first second third : System} (before : Quiet first second)
    (after : Quiet second third)
    : Quiet first third := by
  constructor
  · obtain ⟨calls, log, quiet⟩ := before.log
    obtain ⟨more, log', quiet'⟩ := after.log
    refine ⟨calls ++ more, by rw [log', log, List.append_assoc], fun call among => ?_⟩
    exact (List.mem_append.mp among).elim (quiet call) (quiet' call)
  · intro inode node there
    obtain ⟨⟨node', there'⟩, same⟩ := before.nodes inode node there
    obtain ⟨present, same'⟩ := after.nodes inode node' there'
    exact ⟨present, fun contents => (same' contents).trans (same contents)⟩

/-- What a call of `copy_file` comes to: it changes no contents; or it opens two inodes, and then
changes the contents of the target only, and leaves it with those of the source when it reports
success, the two are apart and the target was empty.
-/
inductive Copies (s later : System) : Prop
  | quiet (quiet : Quiet s later)
  | opened (middle : System) (quiet : Quiet s middle) (source target : Nat) (fresh wiped : Bool)
      (success : Bool)
      (log : later.log = middle.log ++ .opened source target fresh wiped
        :: if success then [.copied source target] else [])
      (others : ∀ inode, inode ≠ target → later.nodes.get inode = middle.nodes.get inode)
      (sourceThere : ∃ node, s.nodes.get source = some node)
      (targetThere : ∃ node, later.nodes.get target = some node)
      (isFresh : fresh = true → s.nodes.get target = none)
      (copied : success = true → source ≠ target → fresh = true ∨ wiped = true
        → ∀ contents, middle.nodes.get source = some (.file contents)
        → later.nodes.get target = some (.file contents))

theorem mkfile_fresh {s : System} {path : Path} {node : Node} (fresh : s.nodes.next ≤ inode)
    (there : (s.mkfile path).2.nodes.get inode = some node)
    : node = .file [] := by
  have absent : s.nodes.get inode = none := Arena.get_beyond fresh
  have nothing (there : s.nodes.get inode = some node) : node = .file [] :=
    absurd (absent.symm.trans there) nofun
  rw [System.mkfile, System.make] at there
  split at there
  next => exact nothing there
  next =>
      split at there
      next => exact nothing there
      next dir name _ =>
          split at there
          next => exact nothing there
          next possible =>
              have apart : inode ≠ dir := by
                rintro rfl
                refine possible (.inl ?_)
                rw [System.isDir, absent]
              rw [System.link] at there
              dsimp only at there
              rw [Arena.get_modify_of_ne apart, Arena.get_alloc] at there
              split at there
              next => exact (Option.some.inj there).symm
              next => exact nothing there

theorem resize_file {s : System} (there : s.nodes.get inode = some (.file contents))
    : (s.resize inode).2.nodes.get inode
      = some (.file (if (s.resize inode).1 then [] else contents)) := by
  rw [System.resize]
  split
  next => exact there
  next =>
      rw [there]
      dsimp only
      rw [Arena.get_modify_self, there]
      rfl

theorem file_of_resize {s : System} (wiped : (s.resize inode).1 = true)
    : ∃ contents, s.nodes.get inode = some (.file contents) := by
  rw [System.resize] at wiped
  split at wiped
  next => cases wiped
  next =>
      split at wiped
      next contents there => exact ⟨contents, there⟩
      next => cases wiped

/-- The part of `copy_file` that copies. -/
theorem copy_opened {s : System} {fresh : Bool}
    (empty : fresh = true → s.nodes.get target = some (.file []))
    (targetThere : ∃ node, s.nodes.get target = some node) {wiped success : Bool}
    {resized later : System} (resize : s.resize target = (wiped, resized))
    (loop : copyLoop (resized.note (.opened source target fresh wiped)) source target
      ((resized.data source).length + 1) 0 = (success, later))
    : later.log = s.log ++ [.opened source target fresh wiped]
      ∧ (∀ inode, inode ≠ target → later.nodes.get inode = s.nodes.get inode)
      ∧ (∃ node, later.nodes.get target = some node)
      ∧ (success = true → source ≠ target → fresh = true ∨ wiped = true
        → ∀ contents, s.nodes.get source = some (.file contents)
        → later.nodes.get target = some (.file contents)) := by
  have first := resize_touches s target
  have second := copyLoop_touches (resized.note (.opened source target fresh wiped)) source target
    ((resized.data source).length + 1) 0
  rw [resize] at first
  rw [loop] at second
  refine ⟨?_, fun inode apart => (second.others inode apart).trans (first.others inode apart),
    ?_, ?_⟩
  · rw [second.log]
    exact congrArg (· ++ _) first.log
  · obtain ⟨node, there⟩ := targetThere
    obtain ⟨node', there'⟩ := first.target node there
    exact second.target node' there'
  · rintro rfl apart made contents there
    have wipe : resized.nodes.get target = some (.file []) := by
      have same : (s.resize target).2.nodes.get target = some (.file []) := by
        rcases made with isFresh | isWiped
        · rw [resize_file (empty isFresh), ite_self]
        · have resizes : (s.resize target).1 = true := by
            rw [resize]
            exact isWiped
          obtain ⟨old, before⟩ := file_of_resize resizes
          rw [resize_file before, if_pos resizes]
      rw [resize] at same
      exact same
    exact copyLoop_copies (s := resized.note (.opened source target fresh wiped)) apart
      ((first.others source apart).trans there) (Nat.zero_le _) wipe loop

theorem copyFile_copies (s : System) (src dst : Path) : Copies s (copyFile s src dst).2 := by
  have quiet : (Call.file (s.resolve src)).Quiet := trivial
  have noted := Quiet.note s quiet
  have quiet := (noted.trans (.asks _)).trans (make_makes _ dst fun _ => .file []).quiet
  have run := copyFile_run s src dst
  generalize copyFile s src dst = result at run ⊢
  cases run with
  | same => exact .quiet noted
  | noSource => exact .quiet (noted.trans (.asks _))
  | noTarget makes =>
      subst makes
      exact .quiet (quiet.trans (.asks _))
  | @opened made resized later source target wiped success _ sourceThere makes targetThere resize
      loop returns =>
      have middle : Quiet s made.tick := makes ▸ quiet.trans (.asks _)
      have isFresh (beyond : decide (s.nodes.next ≤ target) = true)
          : s.nodes.get target = none :=
        Arena.get_beyond (of_decide_eq_true beyond)
      have empty (beyond : decide (s.nodes.next ≤ target) = true)
          : made.tick.nodes.get target = some (.file []) := by
        obtain ⟨node, there⟩ := targetThere
        have file := there
        rw [← makes] at file
        rw [mkfile_fresh (s := (s.note (.file (s.resolve src))).tick) (of_decide_eq_true beyond)
          file] at there
        exact there
      obtain ⟨log, others, there, copied⟩ := copy_opened empty targetThere resize loop
      subst returns
      cases success with
      | false =>
          exact .opened made.tick middle source target _ wiped false log others sourceThere there
            isFresh nofun
      | true =>
          refine .opened made.tick middle source target _ wiped true ?_ others sourceThere there
            isFresh copied
          change later.log ++ [.copied source target] = _
          rw [log, List.append_assoc]
          rfl

-- A run of cp

inductive System.Reaches (s : System) (top : Nat) : Nat → Prop
  | here : s.Reaches top top
  | entry {dir inode : Nat} {name : Name} (reaches : s.Reaches top dir)
      (among : (name, inode) ∈ s.entries dir) (proper : name ≠ dot ∧ name ≠ dotdot)
      : s.Reaches top inode

/-- A regular file that cp is to copy: a source, or in the tree of one. -/
def SourceFile (s : System) (sources : List Path) (inode : Nat) : Prop :=
  (∃ contents, s.nodes.get inode = some (.file contents))
  ∧ ∃ src ∈ sources, ∃ top, s.resolve src = some top ∧ s.Reaches top inode

/-- A target that `copy_file` opens was made for it; or it was wiped, and it is not the source, no
file that is to be copied and none that was opened before.
-/
def Clear (s : System) (sources : List Path) (before : List Call) : Call → Prop
  | .opened source target fresh wiped =>
      fresh = true
      ∨ wiped = true ∧ target ≠ source ∧ ¬ SourceFile s sources target
        ∧ ∀ source' target' fresh' wiped', .opened source' target' fresh' wiped' ∈ before
          → target ≠ source' ∧ target ≠ target'
  | _ => True

/-- All files that are to be copied are as they were, and a target of a copy that was reported has
the contents of its source, if this is a regular file.
-/
structure Undamaged (start : System) (sources : List Path) (s : System) : Prop where
  sources : ∀ inode contents, SourceFile start sources inode
    → start.nodes.get inode = some (.file contents) → s.nodes.get inode = some (.file contents)
  targets : ∀ source target, .copied source target ∈ s.log
    → ∀ contents, s.nodes.get source = some (.file contents)
      → s.nodes.get target = some (.file contents)

/-- What holds in a run of cp whose targets are clear. -/
structure Whole (start : System) (sources : List Path) (s : System) : Prop
    extends Undamaged start sources s where
  opened : ∀ source target fresh wiped, .opened source target fresh wiped ∈ s.log
    → (∃ node, s.nodes.get source = some node) ∧ ∃ node, s.nodes.get target = some node
  copied : ∀ source target, .copied source target ∈ s.log
    → ∃ fresh wiped, .opened source target fresh wiped ∈ s.log

variable {start : System} {sources : List Path} {s later : System}

theorem Whole.quiet (whole : Whole start sources s) (quiet : Quiet s later)
    : Whole start sources later := by
  obtain ⟨calls, log, silent⟩ := quiet.log
  have opened {source target : Nat} {fresh wiped : Bool}
      (among : .opened source target fresh wiped ∈ later.log)
      : .opened source target fresh wiped ∈ s.log := by
    rw [log] at among
    exact (List.mem_append.mp among).resolve_right fun new => silent _ new
  have copied {source target : Nat} (among : .copied source target ∈ later.log)
      : .copied source target ∈ s.log := by
    rw [log] at among
    exact (List.mem_append.mp among).resolve_right fun new => silent _ new
  refine ⟨⟨fun inode contents file there => ?_, fun source target among contents => ?_⟩,
    fun source target fresh wiped among => ?_, fun source target among => ?_⟩
  · have kept := whole.sources inode contents file there
    exact ((quiet.nodes inode _ kept).2 contents).mpr kept
  · obtain ⟨fresh, wiped, opens⟩ := whole.copied source target (copied among)
    obtain ⟨⟨node, sourceThere⟩, node', targetThere⟩ := whole.opened _ _ _ _ opens
    rw [(quiet.nodes source node sourceThere).2, (quiet.nodes target node' targetThere).2]
    exact whole.targets source target (copied among) contents
  · obtain ⟨⟨node, sourceThere⟩, node', targetThere⟩ := whole.opened _ _ _ _ (opened among)
    exact ⟨(quiet.nodes source node sourceThere).1, (quiet.nodes target node' targetThere).1⟩
  · obtain ⟨fresh, wiped, opens⟩ := whole.copied source target (copied among)
    refine ⟨fresh, wiped, ?_⟩
    rw [log]
    exact List.mem_append_left _ opens

/-- A copy to a clear target does no damage. -/
theorem Whole.copies (whole : Whole start sources s) (copies : Copies s later)
    (clear : ∀ before call after, later.log = before ++ call :: after
      → Clear start sources before call)
    : Whole start sources later := by
  cases copies with
  | quiet quiet => exact whole.quiet quiet
  | opened middle quiet source target fresh wiped success log others sourceThere targetThere isFresh
      copied =>
      have before := whole.quiet quiet
      obtain ⟨node, sourceThere⟩ := sourceThere
      obtain ⟨node', sourceThere'⟩ := (quiet.nodes source node sourceThere).1
      have isClear := clear middle.log _ _ log
      -- a fresh target was nowhere before
      have untouched {inode : Nat} {node : Node} (there : s.nodes.get inode = some node)
          (isFresh' : fresh = true)
          : inode ≠ target := by
        rintro rfl
        exact absurd ((isFresh isFresh').symm.trans there) nofun
      have emptied : fresh = true ∨ wiped = true := isClear.imp_right And.left
      have apart : source ≠ target := by
        rcases isClear with isFresh' | ⟨-, others', -⟩
        · exact untouched sourceThere isFresh'
        · exact others'.symm
      have file {inode : Nat} (file : SourceFile start sources inode) : inode ≠ target := by
        rcases isClear with isFresh' | ⟨-, -, noFile, -⟩
        · obtain ⟨contents, there⟩ := file.1
          exact untouched (whole.sources inode contents file there) isFresh'
        · rintro rfl
          exact noFile file
      have early {a b : Nat} {f w : Bool} (among : .opened a b f w ∈ middle.log)
          : a ≠ target ∧ b ≠ target := by
        rcases isClear with isFresh' | ⟨-, -, -, noOpened⟩
        · obtain ⟨calls, log', silent⟩ := quiet.log
          rw [log'] at among
          have old := (List.mem_append.mp among).resolve_right fun new => silent _ new
          obtain ⟨⟨first, firstThere⟩, second, secondThere⟩ := whole.opened _ _ _ _ old
          exact ⟨untouched firstThere isFresh', untouched secondThere isFresh'⟩
        · exact ⟨(noOpened a b f w among).1.symm, (noOpened a b f w among).2.symm⟩
      have openedCases {a b : Nat} {f w : Bool} (among : .opened a b f w ∈ later.log)
          : .opened a b f w ∈ middle.log ∨ a = source ∧ b = target := by
        rw [log] at among
        rcases List.mem_append.mp among with old | new
        · exact .inl old
        · rcases List.mem_cons.mp new with same | tail
          · exact .inr ⟨(Call.opened.inj same).1, (Call.opened.inj same).2.1⟩
          · split at tail
            next => exact absurd (List.mem_singleton.mp tail) nofun
            next => cases tail
      have copiedCases {a b : Nat} (among : .copied a b ∈ later.log)
          : .copied a b ∈ middle.log ∨ success = true ∧ a = source ∧ b = target := by
        rw [log] at among
        rcases List.mem_append.mp among with old | new
        · exact .inl old
        · rcases List.mem_cons.mp new with same | tail
          · cases same
          · split at tail
            next succeeded =>
                obtain ⟨rfl, rfl⟩ := Call.copied.inj (List.mem_singleton.mp tail)
                exact .inr ⟨succeeded, rfl, rfl⟩
            next => cases tail
      refine ⟨⟨fun inode contents isFile there => ?_, fun a b among contents there => ?_⟩,
        fun a b f w among => ?_, fun a b among => ?_⟩
      · rw [others inode (file isFile)]
        exact before.sources inode contents isFile there
      · rcases copiedCases among with old | ⟨succeeded, rfl, rfl⟩
        · obtain ⟨f, w, opens⟩ := before.copied a b old
          rw [others a (early opens).1] at there
          rw [others b (early opens).2]
          exact before.targets a b old contents there
        · rw [others a apart] at there
          exact copied succeeded apart emptied contents there
      · rcases openedCases among with old | ⟨rfl, rfl⟩
        · rw [others a (early old).1, others b (early old).2]
          exact before.opened a b f w old
        · rw [others a apart]
          exact ⟨⟨node', sourceThere'⟩, targetThere⟩
      · rw [log]
        rcases copiedCases among with old | ⟨-, rfl, rfl⟩
        · obtain ⟨f, w, opens⟩ := before.copied a b old
          exact ⟨f, w, List.mem_append_left _ opens⟩
        · exact ⟨fresh, wiped, List.mem_append_right _ List.mem_cons_self⟩

theorem Does.log (does : Does s later) : s.log <+: later.log := by
  cases does with
  | asks => exact List.prefix_rfl
  | enters dir => exact List.prefix_append _ _
  | makes path =>
      rcases (make_makes s path _).log with same | ⟨dir, more⟩
      · exact same ▸ List.prefix_rfl
      · exact more ▸ List.prefix_append _ _
  | copies src dst =>
      cases copyFile_copies s src dst with
      | quiet quiet =>
          obtain ⟨calls, log, -⟩ := quiet.log
          exact log ▸ List.prefix_append _ _
      | opened middle quiet source target fresh wiped success log =>
          obtain ⟨calls, log', -⟩ := quiet.log
          rw [log, log', List.append_assoc]
          exact List.prefix_append _ _

theorem whole_run (run : ReflTransGen Does s later) (whole : Whole start sources s)
    (clear : ∀ before call after, later.log = before ++ call :: after
      → Clear start sources before call)
    : Whole start sources later := by
  induction run with
  | refl => exact whole
  | tail run does ih =>
      have kept := ih fun before call after parts => by
        obtain ⟨more, all⟩ := does.log
        refine clear before call (after ++ more) ?_
        rw [← all, parts, List.append_assoc, List.cons_append]
      cases does with
      | asks => exact kept.quiet (.asks _)
      | enters dir => exact kept.quiet (.note _ trivial)
      | makes path => exact kept.quiet (make_makes _ _ _).quiet
      | copies src dst => exact kept.copies (copyFile_copies _ src dst) clear

/-- No run of cp damages what it copies, and its reported copies are whole, if `copy_file` opens no
targets but those that are made for it, and those that it can wipe and that are neither its source
nor a file to be copied nor one that it opened before.
-/
theorem cp_damages_nothing (fuel : Nat) (recurse : Bool) (start : System) (sources : List Path)
    (dest : Path)
    (clear : ∀ before call after,
      (main fuel recurse start sources dest).system.log = before ++ call :: after
        → Clear start sources before call)
    : Undamaged start sources (main fuel recurse start sources dest).system := by
  have begin' : Whole start sources { start with log := [] } :=
    ⟨⟨fun _ _ _ there => there, nofun⟩, nofun, nofun⟩
  exact (whole_run (main_does fuel recurse start sources dest) begin' clear).toUndamaged

/-- A root directory with the file `f`, where every call comes to all its bytes. -/
def oneFile : System where
  nodes := (Arena.empty.alloc (.dir [(['f'], 1), (dot, 0), (dotdot, 0)])).alloc (.file [1, 2, 3])
  root := 0
  cwd := 0
  fates _ := ⟨false, 128, fun _ => false⟩
  clock := 0
  log := []

/-- A copy to a new file. -/
theorem damages_nothing_new
    : Undamaged oneFile [['/', 'f']] (main 1 false oneFile [['/', 'f']] ['/', 'g']).system := by
  refine cp_damages_nothing 1 false oneFile [['/', 'f']] ['/', 'g']
    fun before call after parts => ?_
  have allFresh
      : ∀ call ∈ (main 1 false oneFile [['/', 'f']] ['/', 'g']).system.log,
        ∀ source target fresh wiped, call = .opened source target fresh wiped → fresh = true := by
    have log : (main 1 false oneFile [['/', 'f']] ['/', 'g']).system.log
        = [.file (some 1), .made 0, .opened 1 2 true true, .copied 1 2] := by
      decide
    rw [log]
    simp
  rw [parts] at allFresh
  have fresh := allFresh call (List.mem_append_right _ List.mem_cons_self)
  cases call with
  | opened source target isFresh wiped => exact .inl (fresh source target isFresh wiped rfl)
  | tree dir => trivial
  | file source => trivial
  | made parent => trivial
  | copied source target => trivial

/-- A copy of a file to itself under another spelling wipes it. -/
theorem other_spelling_wiped
    : ¬ ∀ (fuel : Nat) (recurse : Bool) (start : System) (sources : List Path) (dest : Path),
      Undamaged start sources (main fuel recurse start sources dest).system := by
  intro always
  have kept := (always 1 false oneFile [['/', 'f']] ['/', '.', '/', 'f']).sources 1 [1, 2, 3]
    ⟨⟨_, rfl⟩, _, List.mem_singleton_self _, 1, by decide, .here⟩ rfl
  revert kept
  decide

end Panuti.Cp
