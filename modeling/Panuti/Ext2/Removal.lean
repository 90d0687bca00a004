import Panuti.Ext2.Emptiness

/-! Removing and replacing names of an ext2 volume: `ext2_unlink` and `ext2_rename`, with what
the calls they make on the volume come to, and the check of a directory as it is computed. Of
what they leave behind, the model keeps the return value, whether the name is gone from its
directory, and the inode that was handed to `ext2_inode_retire`.
-/

namespace Panuti.Ext2

open ByteMemory RecordChain

def PANUTIERRNO_PLAINERR : Int := -2147483648
def PANUTIERRNO_UNSUPPORTEDOP : Int := -2147483646
def PANUTIERRNO_NOTFOUND : Int := -2147483645
def PANUTIERRNO_NOTSUPPORTED : Int := -2147483641
def PANUTIERRNO_EXISTS : Int := -2147483640
def PANUTIERRNO_BUSY : Int := -2147483639
def PANUTIERRNO_INVALIDARG : Int := -2147483637

/-- `ext2_inode_hdr_t` with the count of its names. -/
structure LinkedHdr extends InodeHdr where
  linksCount : Nat

def InodeHdr.isDir (hdr : InodeHdr) : Bool := hdr.mode &&& EXT2_S_IFMT == EXT2_S_IFDIR

-- ext2_unlink

/-- What `ext2_unlink` finds: the checks of its arguments, the inodes as they are read, what the
check of a directory meets, and whether the writes succeed. `addsBack` is whether
`ext2_dirent_add` could put the name back, where it is called.
-/
structure UnlinkCalls where
  readOnly : Bool
  ofVolume : Bool
  dir : Option LinkedHdr
  found : Option Nat
  target : Option LinkedHdr
  room : Bool
  probe : Probe
  removes : Bool
  writesTarget : Bool
  writesDir : Bool
  retires : Bool
  addsBack : Bool

/-- What `ext2_unlink` returns and leaves behind. -/
structure Unlinked where
  ret : Int
  gone : Bool
  retired : Option Nat
deriving Repr, DecidableEq

def Unlinked.refused (ret : Int) : Unlinked := ⟨ret, false, none⟩

/-- The end of `ext2_unlink` for a target that was deleted already. -/
def unlinkDead (calls : UnlinkCalls) : Unlinked :=
  if calls.removes = false then .refused PANUTIERRNO_PLAINERR
  else if calls.writesDir = false then ⟨PANUTIERRNO_PLAINERR, true, none⟩
  else ⟨0, true, none⟩

/-- The end of `ext2_unlink` for a target that is live, once its check was passed. -/
def unlinkLive (calls : UnlinkCalls) (dih : LinkedHdr) (inum : Nat) (tgt : LinkedHdr)
    : Unlinked :=
  let drop := if tgt.isDir then 2 else 1
  if calls.removes = false then .refused PANUTIERRNO_PLAINERR
  else if tgt.isDir ∧ dih.linksCount ≤ 1 then ⟨PANUTIERRNO_PLAINERR, !calls.addsBack, none⟩
  else if drop < tgt.linksCount then
    if calls.writesTarget = false then ⟨PANUTIERRNO_PLAINERR, !calls.addsBack, none⟩
    else if calls.writesDir = false then ⟨PANUTIERRNO_PLAINERR, !calls.addsBack, none⟩
    else ⟨0, true, none⟩
  else if calls.retires then
    if calls.writesDir then ⟨0, true, some inum⟩ else ⟨PANUTIERRNO_PLAINERR, true, some inum⟩
  else ⟨PANUTIERRNO_PLAINERR, !calls.addsBack, some inum⟩

def Image.ext2Unlink (image : Image) (name : Name) (calls : UnlinkCalls) : Option Unlinked :=
  if calls.readOnly then some (.refused PANUTIERRNO_NOTSUPPORTED)
  else if direntNameOk name = false then some (.refused PANUTIERRNO_INVALIDARG)
  else if calls.ofVolume = false then some (.refused PANUTIERRNO_INVALIDARG)
  else if name = dot ∨ name = dotDot then some (.refused PANUTIERRNO_UNSUPPORTEDOP)
  else
    match calls.dir with
    | none => some (.refused PANUTIERRNO_NOTFOUND)
    | some dih =>
        if dih.isDir = false then some (.refused PANUTIERRNO_NOTFOUND)
        else
          match calls.found with
          | none => some (.refused PANUTIERRNO_NOTFOUND)
          | some inum =>
              match calls.target with
              | none => some (.refused PANUTIERRNO_NOTFOUND)
              | some tgt =>
                  if tgt.dtime ≠ 0 then some (unlinkDead calls)
                  else if tgt.isDir then
                    (image.direntIsEmpty tgt.toInodeHdr calls.room calls.probe).map fun empty =>
                      match empty with
                      | none => .refused PANUTIERRNO_PLAINERR
                      | some false => .refused PANUTIERRNO_BUSY
                      | some true => unlinkLive calls dih inum tgt
                  else some (unlinkLive calls dih inum tgt)

/-- The call passes its checks and has the record of the name removed. -/
structure UnlinkCalls.Removes (image : Image) (name : Name) (calls : UnlinkCalls)
    (dih : LinkedHdr) (inum : Nat) (tgt : LinkedHdr) : Prop where
  writable : calls.readOnly = false
  nameOk : direntNameOk name = true
  ofVolume : calls.ofVolume = true
  plain : ¬(name = dot ∨ name = dotDot)
  dir : calls.dir = some dih
  isDir : dih.isDir = true
  found : calls.found = some inum
  target : calls.target = some tgt
  empty
    : tgt.dtime ≠ 0 ∨ tgt.isDir = false
      ∨ image.direntIsEmpty tgt.toInodeHdr calls.room calls.probe = some (some true)
  removes : calls.removes = true

def UnlinkCalls.completes (calls : UnlinkCalls) (dih tgt : LinkedHdr) : Bool :=
  if tgt.dtime ≠ 0 then calls.writesDir
  else if tgt.isDir ∧ dih.linksCount ≤ 1 then false
  else if (if tgt.isDir then 2 else 1) < tgt.linksCount then calls.writesTarget && calls.writesDir
  else calls.retires && calls.writesDir

def UnlinkCalls.putsBack (calls : UnlinkCalls) (dih tgt : LinkedHdr) : Bool :=
  if tgt.dtime ≠ 0 then false
  else if tgt.isDir ∧ dih.linksCount ≤ 1 then calls.addsBack
  else if (if tgt.isDir then 2 else 1) < tgt.linksCount then calls.addsBack
  else !calls.retires && calls.addsBack

variable {calls : UnlinkCalls}

theorem UnlinkCalls.Removes.ran {image : Image} {name : Name} {dih tgt : LinkedHdr} {inum : Nat}
    (removes : calls.Removes image name dih inum tgt)
    : ∃ retired, image.ext2Unlink name calls
        = some ⟨if calls.completes dih tgt then 0 else PANUTIERRNO_PLAINERR,
          calls.completes dih tgt || !calls.putsBack dih tgt, retired⟩ := by
  obtain ⟨writable, nameOk, ofVolume, plain, dir, isDir, found, target, empty, removed⟩ := removes
  have reaches : image.ext2Unlink name calls
      = some (if tgt.dtime ≠ 0 then unlinkDead calls else unlinkLive calls dih inum tgt) := by
    simp only [Image.ext2Unlink, writable, nameOk, ofVolume, if_neg plain, dir, isDir, found,
      target]
    by_cases dead : tgt.dtime ≠ 0
    · simp [dead]
    · rcases empty with dead' | file | empty
      · exact absurd dead' dead
      · simp [dead, file]
      · by_cases isDir : tgt.isDir = true
        · simp [dead, isDir, empty]
        · simp [dead, isDir]
  rw [reaches]
  by_cases dead : tgt.dtime ≠ 0
  · simp only [if_pos dead, unlinkDead, removed, UnlinkCalls.completes, UnlinkCalls.putsBack]
    cases calls.writesDir with
    | false => exact ⟨none, rfl⟩
    | true => exact ⟨none, rfl⟩
  · simp only [if_neg dead, unlinkLive, removed, UnlinkCalls.completes, UnlinkCalls.putsBack]
    by_cases alone : tgt.isDir = true ∧ dih.linksCount ≤ 1
    · simp only [if_pos alone]
      exact ⟨none, rfl⟩
    · simp only [if_neg alone]
      by_cases more : (if tgt.isDir = true then 2 else 1) < tgt.linksCount
      · simp only [if_pos more]
        cases calls.writesTarget with
        | false => exact ⟨none, rfl⟩
        | true =>
            cases calls.writesDir with
            | false => exact ⟨none, rfl⟩
            | true => exact ⟨none, rfl⟩
      · simp only [if_neg more]
        cases calls.retires with
        | false => exact ⟨some inum, rfl⟩
        | true =>
            cases calls.writesDir with
            | false => exact ⟨some inum, rfl⟩
            | true => exact ⟨some inum, rfl⟩

/-- A call that has nothing removed fails and changes nothing. -/
theorem ext2Unlink_refused {image : Image} {name : Name}
    (nothing : ¬∃ dih inum tgt, calls.Removes image name dih inum tgt)
    : ∃ ret < 0, image.ext2Unlink name calls = some (.refused ret) := by
  unfold Image.ext2Unlink
  by_cases writable : calls.readOnly = true
  · exact ⟨_, by decide, if_pos writable⟩
  rw [if_neg writable]
  by_cases nameOk : direntNameOk name = false
  · exact ⟨_, by decide, if_pos nameOk⟩
  rw [if_neg nameOk]
  by_cases ofVolume : calls.ofVolume = false
  · exact ⟨_, by decide, if_pos ofVolume⟩
  rw [if_neg ofVolume]
  by_cases plain : name = dot ∨ name = dotDot
  · exact ⟨_, by decide, if_pos plain⟩
  rw [if_neg plain]
  cases dir : calls.dir with
  | none => exact ⟨_, by decide, rfl⟩
  | some dih =>
  simp only []
  by_cases isDir : dih.isDir = false
  · exact ⟨_, by decide, if_pos isDir⟩
  rw [if_neg isDir]
  cases found : calls.found with
  | none => exact ⟨_, by decide, rfl⟩
  | some inum =>
  cases target : calls.target with
  | none => exact ⟨_, by decide, rfl⟩
  | some tgt =>
  simp only [Bool.not_eq_true, Bool.not_eq_false] at writable nameOk ofVolume isDir
  have kept
      (empty
        : tgt.dtime ≠ 0 ∨ tgt.isDir = false
          ∨ image.direntIsEmpty tgt.toInodeHdr calls.room calls.probe = some (some true))
      : calls.removes = false := by
    by_contra removed
    rw [Bool.not_eq_false] at removed
    exact nothing ⟨dih, inum, tgt, writable, nameOk, ofVolume, plain, dir, isDir, found, target,
      empty, removed⟩
  have live (keeps : calls.removes = false)
      : unlinkLive calls dih inum tgt = .refused PANUTIERRNO_PLAINERR := by
    simp [unlinkLive, keeps]
  simp only []
  by_cases dead : tgt.dtime ≠ 0
  · have dropped : unlinkDead calls = .refused PANUTIERRNO_PLAINERR := by
      simp [unlinkDead, kept (.inl dead)]
    exact ⟨_, by decide, (if_pos dead).trans (congrArg some dropped)⟩
  rw [if_neg dead]
  by_cases isDirectory : tgt.isDir = true
  · rw [if_pos isDirectory]
    obtain ⟨reported, checked⟩ := image.direntIsEmpty_ends tgt.toInodeHdr calls.room calls.probe
    rw [checked]
    rcases reported with _ | _ | _
    · exact ⟨_, by decide, rfl⟩
    · exact ⟨_, by decide, rfl⟩
    · exact ⟨_, by decide, congrArg some (live (kept (.inr (.inr checked))))⟩
  · rw [if_neg isDirectory]
    rw [Bool.not_eq_true] at isDirectory
    exact ⟨_, by decide, congrArg some (live (kept (.inr (.inl isDirectory))))⟩

theorem ext2Unlink_ends (image : Image) (name : Name) (calls : UnlinkCalls)
    : ∃ done, image.ext2Unlink name calls = some done := by
  by_cases removes : ∃ dih inum tgt, calls.Removes image name dih inum tgt
  · obtain ⟨dih, inum, tgt, removes⟩ := removes
    obtain ⟨retired, ran⟩ := removes.ran
    exact ⟨_, ran⟩
  · obtain ⟨ret, _, ran⟩ := ext2Unlink_refused removes
    exact ⟨_, ran⟩

-- ext2_rename

/-- What `ext2_dirent_add` comes to: 0, `EXT2_DIRENT_EXISTS` and any other value. -/
inductive Added where
  | done
  | exists
  | failed
deriving Repr, DecidableEq

/-- What `ext2_rename` finds. `room` and `probe` are of its own check of the directory it
replaces, and `unlink` is what its call of `ext2_unlink` finds.
-/
structure RenameCalls where
  readOnly : Bool
  ofVolume : Bool
  oldInum : Nat
  newInum : Nat
  oldDir : Option LinkedHdr
  newDir : Option LinkedHdr
  found : Option Nat
  target : Option LinkedHdr
  inSubtree : Bool
  existing : Option Nat
  replaced : Option LinkedHdr
  room : Bool
  probe : Probe
  unlink : UnlinkCalls
  readsNewDir : Bool
  added : Added
  setsParent : Bool
  writesOldDir : Bool
  writesNewDir : Bool
  removesOld : Bool
  stampsOldDir : Bool
  stampsNewDir : Bool
  writesTarget : Bool

/-- What `ext2_rename` returns, and the inode it had retired. -/
structure Renamed where
  ret : Int
  retired : Option Nat
deriving Repr, DecidableEq

/-- The part of `ext2_rename` behind the replacement: the value it returns. -/
def renameMoves (calls : RenameCalls) (isDir crosses : Bool) : Int :=
  match calls.added with
  | .exists => PANUTIERRNO_EXISTS
  | .failed => PANUTIERRNO_PLAINERR
  | .done =>
      if isDir && crosses && !calls.setsParent then PANUTIERRNO_PLAINERR
      else if isDir && crosses && !(calls.writesOldDir && calls.writesNewDir) then
        PANUTIERRNO_PLAINERR
      else if calls.removesOld = false then PANUTIERRNO_PLAINERR
      else if !(isDir && crosses) && crosses && !calls.stampsOldDir then PANUTIERRNO_PLAINERR
      else if !(isDir && crosses) && !calls.stampsNewDir then PANUTIERRNO_PLAINERR
      else if calls.writesTarget = false then PANUTIERRNO_PLAINERR
      else 0

/-- The check of what is replaced; a file is not checked. -/
def Image.checkReplaced (image : Image) (dst : LinkedHdr) (calls : RenameCalls)
    : Option (Option Bool) :=
  if dst.isDir then image.direntIsEmpty dst.toInodeHdr calls.room calls.probe
  else some (some true)

/-- The replacement in `ext2_rename`: what it returns early, and the inode it had retired. -/
def Image.renameReplaces (image : Image) (newName : Name) (calls : RenameCalls)
    (inum : Nat) (isDir : Bool) : Option (Option Int × Option Nat) :=
  match calls.existing with
  | none => some (none, none)
  | some existing =>
      if existing = inum then some (some 0, none)
      else
        match calls.replaced with
        | none => some (some PANUTIERRNO_NOTFOUND, none)
        | some dst =>
            if dst.dtime ≠ 0 then some (some PANUTIERRNO_NOTFOUND, none)
            else if isDir ≠ dst.isDir then some (some PANUTIERRNO_UNSUPPORTEDOP, none)
            else
              match image.checkReplaced dst calls with
              | none => none
              | some none => some (some PANUTIERRNO_PLAINERR, none)
              | some (some false) => some (some PANUTIERRNO_BUSY, none)
              | some (some true) =>
                  (image.ext2Unlink newName calls.unlink).map fun rep =>
                    if rep.ret ≠ 0 then (some rep.ret, rep.retired)
                    else if calls.readsNewDir = false then
                      (some PANUTIERRNO_NOTFOUND, rep.retired)
                    else (none, rep.retired)

def Image.ext2Rename (image : Image) (oldName newName : Name) (calls : RenameCalls)
    : Option Renamed :=
  if calls.readOnly then some ⟨PANUTIERRNO_NOTSUPPORTED, none⟩
  else if direntNameOk oldName = false ∨ direntNameOk newName = false then
    some ⟨PANUTIERRNO_INVALIDARG, none⟩
  else if oldName = dot ∨ oldName = dotDot ∨ newName = dot ∨ newName = dotDot then
    some ⟨PANUTIERRNO_UNSUPPORTEDOP, none⟩
  else if calls.ofVolume = false then some ⟨PANUTIERRNO_INVALIDARG, none⟩
  else
    match calls.oldDir, calls.newDir with
    | some odih, some ndih =>
        if odih.isDir = false ∨ ndih.isDir = false then some ⟨PANUTIERRNO_NOTFOUND, none⟩
        else if calls.oldInum = calls.newInum ∧ oldName = newName then some ⟨0, none⟩
        else
          match calls.found, calls.target with
          | some inum, some tgt =>
              if tgt.dtime ≠ 0 then some ⟨PANUTIERRNO_NOTFOUND, none⟩
              else
                let crosses := calls.oldInum != calls.newInum
                if tgt.isDir && crosses && calls.inSubtree then some ⟨PANUTIERRNO_BUSY, none⟩
                else
                  (image.renameReplaces newName calls inum tgt.isDir).map fun (early, retired) =>
                    ⟨early.getD (renameMoves calls tgt.isDir crosses), retired⟩
          | _, _ => some ⟨PANUTIERRNO_NOTFOUND, none⟩
    | _, _ => some ⟨PANUTIERRNO_NOTFOUND, none⟩

-- A directory that is retired was found empty

/-- The call checks this directory, and its check meets this. -/
structure UnlinkCalls.Checks (calls : UnlinkCalls) (dir : InodeHdr) (room : Bool) (probe : Probe)
    : Prop where
  target : ∃ tgt, calls.target = some tgt ∧ tgt.toInodeHdr = dir
  room : calls.room = room
  probe : calls.probe = probe

namespace Image

variable {image : Image} {name newName : Name} {dir : InodeHdr} {room : Bool} {probe : Probe}

theorem ext2Unlink_retires {done : Unlinked} (checks : calls.Checks dir room probe)
    (isDir : dir.isDir = true) (ran : image.ext2Unlink name calls = some done)
    (retires : done.retired ≠ none)
    : image.direntIsEmpty dir room probe = some (some true) := by
  obtain ⟨⟨tgt, target, rfl⟩, rfl, rfl⟩ := checks
  unfold ext2Unlink at ran
  rw [target] at ran
  have refused {ret : Int} (same : some (Unlinked.refused ret) = some done) : False := by
    obtain rfl := Option.some.inj same
    exact retires rfl
  split at ran
  · exact (refused ran).elim
  split at ran
  · exact (refused ran).elim
  split at ran
  · exact (refused ran).elim
  split at ran
  · exact (refused ran).elim
  cases read : calls.dir with
  | none =>
      rw [read] at ran
      exact (refused ran).elim
  | some dih =>
      simp only [read] at ran
      split at ran
      · exact (refused ran).elim
      cases found : calls.found with
      | none =>
          rw [found] at ran
          exact (refused ran).elim
      | some inum =>
          simp only [found] at ran
          split at ran
          · obtain rfl := Option.some.inj ran
            unfold unlinkDead at retires
            split at retires
            · exact absurd rfl retires
            · split at retires <;> exact absurd rfl retires
          · obtain ⟨empty, checked, rfl⟩ := Option.map_eq_some_iff.mp ran
            rcases empty with _ | _ | _
            · exact absurd rfl retires
            · exact absurd rfl retires
            · exact checked

theorem renameReplaces_retires {calls : RenameCalls} {inum : Nat} {isDir : Bool}
    {early : Option Int} {retired : Option Nat}
    (ran : image.renameReplaces newName calls inum isDir = some (early, retired))
    (retires : retired ≠ none)
    : ∃ rep, image.ext2Unlink newName calls.unlink = some rep ∧ rep.retired = retired := by
  have refused {ret : Option Int} (same : some (ret, none) = some (early, retired)) : False := by
    obtain ⟨_, rfl⟩ := Prod.mk.inj (Option.some.inj same)
    exact retires rfl
  unfold renameReplaces at ran
  split at ran
  · exact (refused ran).elim
  split at ran
  · exact (refused ran).elim
  split at ran
  · exact (refused ran).elim
  split at ran
  · exact (refused ran).elim
  split at ran
  · exact (refused ran).elim
  split at ran
  · cases ran
  · exact (refused ran).elim
  · exact (refused ran).elim
  · obtain ⟨rep, unlinked, same⟩ := Option.map_eq_some_iff.mp ran
    refine ⟨rep, unlinked, ?_⟩
    split at same
    · exact (Prod.mk.inj same).2
    · split at same <;> exact (Prod.mk.inj same).2

theorem ext2Rename_retires {oldName : Name} {calls : RenameCalls} {done : Renamed}
    (ran : image.ext2Rename oldName newName calls = some done) (retires : done.retired ≠ none)
    : ∃ rep, image.ext2Unlink newName calls.unlink = some rep ∧ rep.retired = done.retired := by
  have refused {ret : Int} (same : some (Renamed.mk ret none) = some done) : False := by
    obtain rfl := Option.some.inj same
    exact retires rfl
  unfold ext2Rename at ran
  split at ran
  · exact (refused ran).elim
  split at ran
  · exact (refused ran).elim
  split at ran
  · exact (refused ran).elim
  split at ran
  · exact (refused ran).elim
  split at ran
  · split at ran
    · exact (refused ran).elim
    split at ran
    · exact (refused ran).elim
    split at ran
    · split at ran
      · exact (refused ran).elim
      dsimp only at ran
      split at ran
      · exact (refused ran).elim
      obtain ⟨⟨early, retired⟩, replaced, rfl⟩ := Option.map_eq_some_iff.mp ran
      exact renameReplaces_retires replaced retires
    · exact (refused ran).elim
  · exact (refused ran).elim

-- Which directories are never destroyed

/-- A check that meets this reports empty only where no mapped block of the directory holds a
live entry, and no call that relies on it has a directory retired that names one.
-/
structure NeverDestroyed (image : Image) (dir : InodeHdr) (room : Bool) (probe : Probe)
    : Prop where
  reports : image.direntIsEmpty dir room probe = some (some true) → ¬image.NamesLive dir
  unlinks
    : ∀ name calls done,
        calls.Checks dir room probe
        → dir.isDir = true
        → image.ext2Unlink name calls = some done
        → done.retired ≠ none
        → ¬image.NamesLive dir
  renames
    : ∀ oldName newName calls done,
        calls.unlink.Checks dir room probe
        → dir.isDir = true
        → image.ext2Rename oldName newName calls = some done
        → done.retired ≠ none
        → ¬image.NamesLive dir

/-- A directory that is not empty is kept exactly where the scan is shown an entry of it. -/
theorem neverDestroyed_iff (image : Image) (dir : InodeHdr) (room : Bool) (probe : Probe)
    : image.NeverDestroyed dir room probe ↔ image.ShownIfLive dir room probe := by
  constructor
  · intro kept isDir fits hasRoom live
    by_contra hidden
    have empty := (image.direntIsEmpty_true_iff dir room probe).mpr ⟨isDir, fits, hasRoom, hidden⟩
    exact kept.reports empty live
  · intro shown
    have reports : image.direntIsEmpty dir room probe = some (some true)
        → ¬image.NamesLive dir := by
      intro empty live
      obtain ⟨isDir, fits, hasRoom, hidden⟩ :=
        (image.direntIsEmpty_true_iff dir room probe).mp empty
      exact hidden (shown isDir fits hasRoom live)
    refine ⟨reports, ?_, ?_⟩
    · intro name calls done checks isDir ran retires
      exact reports (ext2Unlink_retires checks isDir ran retires)
    · intro oldName newName calls done checks isDir ran retires
      obtain ⟨rep, unlinked, same⟩ := ext2Rename_retires ran retires
      exact reports (ext2Unlink_retires checks isDir unlinked (same ▸ retires))

/-- The directory of one entry, where the read of its only block fails. -/
theorem oneEntry_destroyed
    : ¬(smallImage oneEntry).NeverDestroyed ((smallImage oneEntry).inode 2) true
        ⟨[.failed (fun _ => 0)], fun _ => 0, 0⟩ := by
  intro kept
  apply kept.reports
  · decide +kernel
  · refine ⟨0, 20, 0, by decide, by decide +kernel, .first, by decide, by decide +kernel, ?_, ?_⟩
    · decide +kernel
    · decide +kernel

end Image

end Panuti.Ext2
