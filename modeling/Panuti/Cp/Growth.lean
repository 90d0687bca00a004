import Panuti.Cp.Frames

/-! How the namespace grows in a run of cp: directories only get entries with new names, so that a
path goes on to name what it named, and a directory without a new entry is as it was.
-/

namespace Panuti.Cp

open Panuti.Native (Name Path dot dotdot splitLast)
open Relation (ReflTransGen)

/-- From one state to the other directories got entries with new names, and nothing was lost. -/
structure Grows (s later : System) : Prop where
  root : later.root = s.root
  cwd : later.cwd = s.cwd
  fates : later.fates = s.fates
  log : s.log <+: later.log
  dirs : ∀ dir entries, s.nodes.get dir = some (.dir entries)
    → ∃ more, later.nodes.get dir = some (.dir (more ++ entries))
      ∧ (∀ entry ∈ more, entries.lookup entry.1 = none)
      ∧ (more ≠ [] → .made dir ∈ later.log)
  others : ∀ inode node, s.nodes.get inode = some node → s.isDir inode = false
    → ∃ node', later.nodes.get inode = some node' ∧ later.isDir inode = false

theorem Grows.refl (s : System) : Grows s s where
  root := rfl
  cwd := rfl
  fates := rfl
  log := List.prefix_rfl
  dirs _ entries there := ⟨[], there, nofun, absurd rfl⟩
  others _ node there leaf := ⟨node, there, leaf⟩

variable {entries : List (Name × Nat)} {more tree : System → Path → Path → Outcome}
    {s later : System} {dir : Nat}

theorem lookup_append {more : List (Name × Nat)} {name : Name}
    (absent : (more ++ entries).lookup name = none)
    : entries.lookup name = none := by
  rw [List.lookup_append] at absent
  exact (Option.or_eq_none_iff.mp absent).2

theorem Grows.trans {first second third : System} (before : Grows first second)
    (after : Grows second third)
    : Grows first third where
  root := after.root.trans before.root
  cwd := after.cwd.trans before.cwd
  fates := after.fates.trans before.fates
  log := before.log.trans after.log
  dirs dir entries there := by
    obtain ⟨more, there', new, made⟩ := before.dirs dir entries there
    obtain ⟨more', there'', new', made'⟩ := after.dirs dir _ there'
    refine ⟨more' ++ more, ?_, fun entry among => ?_, fun some' => ?_⟩
    · rw [there'', List.append_assoc]
    · exact (List.mem_append.mp among).elim (fun later => lookup_append (new' entry later))
        (new entry)
    · by_cases early : more = []
      · refine made' fun late => some' ?_
        rw [early, late, List.append_nil]
      · exact after.log.subset (made early)
  others inode node there leaf := by
    obtain ⟨node', there', leaf'⟩ := before.others inode node there leaf
    exact after.others inode node' there' leaf'

theorem Grows.asks (s : System) : Grows s s.tick :=
  ⟨rfl, rfl, rfl, List.prefix_rfl, fun _ _ there => ⟨[], there, nofun, absurd rfl⟩,
    fun _ node there leaf => ⟨node, there, leaf⟩⟩

theorem Grows.note (s : System) (call : Call) : Grows s (s.note call) :=
  ⟨rfl, rfl, rfl, List.prefix_append _ _, fun _ _ there => ⟨[], there, nofun, absurd rfl⟩,
    fun _ node there leaf => ⟨node, there, leaf⟩⟩

theorem System.isDir_of_get (there : s.nodes.get dir = some (.dir entries))
    : s.isDir dir = true ∧ s.entries dir = entries := by
  rw [System.isDir, System.entries, there]
  exact ⟨rfl, rfl⟩

theorem System.get_of_isDir (isDir : s.isDir dir = true)
    : s.nodes.get dir = some (.dir (s.entries dir)) := by
  rw [System.isDir] at isDir
  rw [System.entries]
  split at isDir
  next entries there => rw [there]
  next => cases isDir

theorem Touches.grows {target : Nat} (touches : Touches target s later)
    : Grows s later where
  root := touches.root
  cwd := touches.cwd
  fates := touches.fates
  log := touches.log ▸ List.prefix_rfl
  dirs dir entries there := by
    refine ⟨[], ?_, nofun, absurd rfl⟩
    by_cases self : dir = target
    · subst self
      rcases touches.file with same | ⟨_, _, file, -⟩
      · exact same.trans there
      · exact absurd (there.symm.trans file) nofun
    · exact (touches.others dir self).trans there
  others inode node there leaf := by
    by_cases self : inode = target
    · subst self
      rcases touches.file with same | ⟨_, contents, -, file⟩
      · refine ⟨node, same.trans there, ?_⟩
        rw [System.isDir, same]
        exact leaf
      · refine ⟨.file contents, file, ?_⟩
        rw [System.isDir, file]
    · refine ⟨node, (touches.others inode self).trans there, ?_⟩
      rw [System.isDir, touches.others inode self]
      exact leaf

theorem Makes.grows (makes : Makes s later) : Grows s later := by
  cases makes with
  | nothing => exact .asks s
  | entry parent name node isDir free =>
      have kept (inode : Nat) (before : Node) (there : s.nodes.get inode = some before) :=
        get_link (s := s.tick) there parent name node
      refine ⟨rfl, rfl, rfl, List.prefix_append _ _, fun dir entries there => ?_,
        fun inode before there leaf => ?_⟩
      · by_cases self : dir = parent
        · refine ⟨[(name, s.nodes.next)], ?_, fun entry among => ?_, fun _ => ?_⟩
          · rw [kept dir _ there, if_pos self]
            rfl
          · obtain rfl := List.mem_singleton.mp among
            rw [← self, (System.isDir_of_get there).2] at free
            exact free
          · exact self ▸ List.mem_append_right _ List.mem_cons_self
        · refine ⟨[], ?_, nofun, absurd rfl⟩
          rw [kept dir _ there, if_neg self]
          rfl
      · have other : inode ≠ parent := by
          rintro rfl
          exact absurd (isDir.symm.trans leaf) nofun
        have same := kept inode before there
        rw [if_neg other] at same
        refine ⟨before, same, ?_⟩
        rw [System.isDir] at leaf ⊢
        rw [same, ← there]
        exact leaf

theorem copyFile_grows (s : System) (src dst : Path) : Grows s (copyFile s src dst).2 := by
  have noted := Grows.note s (.file (s.resolve src))
  have made := (noted.trans (.asks _)).trans (make_makes _ dst fun _ => .file []).grows
  have run := copyFile_run s src dst
  generalize copyFile s src dst = result at run ⊢
  cases run with
  | same => exact noted
  | noSource => exact noted.trans (.asks _)
  | noTarget makes =>
      subst makes
      exact made.trans (.asks _)
  | @opened made' resized later source target wiped success _ sourceThere makes targetThere resize
      loop returns =>
      subst makes returns
      have wipes := (resize_touches
        ((s.note (.file (s.resolve src))).tick.mkfile dst).2.tick target).grows
      rw [resize] at wipes
      have copies := (copyLoop_touches
        (resized.note (.opened source target (decide (s.nodes.next ≤ target)) wiped)) source target
        ((resized.data source).length + 1) 0).grows
      rw [loop] at copies
      have all := ((made.trans (.asks _)).trans wipes).trans ((Grows.note resized _).trans copies)
      cases success with
      | false => exact all
      | true => exact all.trans (.note later _)

theorem Does.grows (does : Does s later) : Grows s later := by
  cases does with
  | asks => exact .asks s
  | enters dir => exact .note s _
  | makes path => exact (make_makes s path _).grows
  | copies src dst => exact copyFile_grows s src dst

theorem grows_run (run : ReflTransGen Does s later) : Grows s later := by
  induction run with
  | refl => exact .refl s
  | tail _ does ih => exact ih.trans does.grows

-- Paths

theorem Grows.lookup (grows : Grows s later) {child : Nat} {name : Name}
    (there : (s.entries dir).lookup name = some child)
    : (later.entries dir).lookup name = some child := by
  by_cases isDir : s.isDir dir = true
  · obtain ⟨more, there', new, -⟩ := grows.dirs dir _ (System.get_of_isDir isDir)
    rw [(System.isDir_of_get there').2, List.lookup_append]
    have absent : more.lookup name = none := by
      refine List.lookup_eq_none_iff.mpr fun entry among => ?_
      rw [bne_iff_ne]
      rintro rfl
      exact absurd ((new entry among).symm.trans there) nofun
    rw [absent]
    exact there
  · rw [System.entries] at there
    rw [System.isDir] at isDir
    split at there
    next entries found =>
        rw [found] at isDir
        exact absurd rfl isDir
    next => cases there

theorem Grows.isDir (grows : Grows s later) {inode : Nat} {node : Node}
    (there : s.nodes.get inode = some node)
    : later.isDir inode = s.isDir inode := by
  cases isDir : s.isDir inode with
  | true =>
      obtain ⟨more, there', -, -⟩ := grows.dirs inode _ (System.get_of_isDir isDir)
      exact (System.isDir_of_get there').1
  | false =>
      obtain ⟨node', -, leaf⟩ := grows.others inode node there isDir
      exact leaf

theorem Grows.walkComponents (grows : Grows s later) (components : List Name) {start found : Nat}
    (walks : s.walkComponents start components = some found)
    : later.walkComponents start components = some found := by
  induction components generalizing start with
  | nil => exact walks
  | cons component rest ih =>
      rw [System.walkComponents] at walks ⊢
      split at walks
      next blank =>
          rw [if_pos blank]
          exact ih walks
      next named =>
          rw [if_neg named]
          split at walks
          next child there =>
              rw [grows.lookup there]
              exact ih walks
          next => cases walks

theorem Grows.resolve (grows : Grows s later) {path : Path} {inode : Nat} {node : Node}
    (resolves : s.resolve path = some inode) (there : s.nodes.get inode = some node)
    : later.resolve path = some inode := by
  rw [System.resolve] at resolves ⊢
  split at resolves
  next => cases resolves
  next some' =>
      dsimp only at resolves ⊢
      rw [if_neg some', grows.root, grows.cwd]
      split at resolves
      next found walks =>
          rw [grows.walkComponents _ walks]
          dsimp only
          split at resolves
          next => cases resolves
          next named =>
              obtain rfl := Option.some.inj resolves
              rw [grows.isDir there, if_neg named]
      next => cases resolves

-- More fuel

/-- A call that has come to its end comes to the same with more fuel, and one that has not goes on
from there.
-/
structure Outcome.Before (o more : Outcome) : Prop where
  same : o.finished = true → more = o
  log : o.system.log <+: more.system.log

theorem Outcome.Before.refl (o : Outcome) : o.Before o := ⟨fun _ => rfl, List.prefix_rfl⟩

theorem copyEntry_before (before : ∀ s src dst, (tree s src dst).Before (more s src dst))
    (s : System) (src dst : Path) (entry : Name × Nat)
    : (copyEntry tree s src dst entry).Before (copyEntry more s src dst entry) := by
  rw [copyEntry, copyEntry]
  split
  next => exact .refl _
  next =>
      dsimp only
      split
      next =>
          split
          next => exact before _ _ _
          next => exact .refl _
      next => exact .refl _

theorem copyEntries_before (before : ∀ s src dst, (tree s src dst).Before (more s src dst))
    (does : ∀ s src dst, ReflTransGen Does s (more s src dst).system) (src dst : Path)
    {turns turns' : Nat} (fewer : turns ≤ turns') (s : System) (h : DirHandle) (failed : Bool)
    : (copyEntries tree src dst turns s h failed).Before
        (copyEntries more src dst turns' s h failed) := by
  induction turns generalizing turns' s h failed with
  | zero => exact ⟨nofun, (grows_run (copyEntries_does does src dst turns' s h failed)).log⟩
  | succ turns ih =>
      obtain ⟨turns', rfl⟩ := Nat.exists_eq_succ_of_ne_zero (Nat.ne_zero_of_lt fewer)
      rw [copyEntries, copyEntries]
      split
      next => exact .refl _
      next entry h later _ =>
          split
          next => exact ih (Nat.le_of_succ_le_succ fewer) _ _ _
          next =>
              have copied := copyEntry_before before later src dst entry
              dsimp only
              by_cases finished : (copyEntry tree later src dst entry).finished = true
              · rw [copied.same finished, if_pos finished, if_pos finished]
                exact ih (Nat.le_of_succ_le_succ fewer) _ _ _
              · rw [if_neg finished]
                refine ⟨fun ended => absurd ended finished, copied.log.trans ?_⟩
                split
                next => exact (grows_run (copyEntries_does does src dst turns' _ h _)).log
                next => exact List.prefix_rfl

theorem copyTree_before {fuel fuel' : Nat} (less : fuel ≤ fuel') (s : System) (src dst : Path)
    : (copyTree fuel s src dst).Before (copyTree fuel' s src dst) := by
  induction fuel generalizing fuel' s src dst with
  | zero => exact ⟨nofun, (grows_run (copyTree_does fuel' s src dst)).log⟩
  | succ fuel ih =>
      obtain ⟨fuel', rfl⟩ := Nat.exists_eq_succ_of_ne_zero (Nat.ne_zero_of_lt less)
      have less' := Nat.le_of_succ_le_succ less
      rw [copyTree, copyTree]
      split
      next => exact .refl _
      next =>
          exact copyEntries_before (fun s src dst => ih less' s src dst) (copyTree_does fuel') src
            dst less' _ _ _

end Panuti.Cp
