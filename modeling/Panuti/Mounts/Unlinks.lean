import Panuti.Ext2.Removal
import Panuti.Mounts.Calls
import Panuti.Native.Replaces

/-! Whether `registry_unlink` reports what it did. In a mounted directory the driver removes the
name first, and then the call takes the name off the cached entries, where it need not be.
-/

namespace Panuti.Mounts

open Panuti.Kernel (HandleOps InodeType)
open Panuti.Native
open Panuti.Ext2 (Image LinkedHdr UnlinkCalls Unlinked)

def bytesOf (name : Name) : Ext2.Name := name.map (fun letter => UInt8.ofNat letter.toNat)

-- The driver's part

/-- The calls of `ext2_unlink` in this directory. -/
def callsIn (vfs : Vfs) (mount : Mount) (dir : Nat) (calls : UnlinkCalls) : UnlinkCalls :=
  { calls with ofVolume := vfs.ofVolume mount.fsImpl dir }

/-- What `fs_ops->unlink` returns and leaves on the medium. -/
def mediumUnlink (vfs : Vfs) (mount : Mount) (dir : Nat) (name : Name) (image : Image)
    (calls : UnlinkCalls) : Option Unlinked :=
  match mount.fsOps with
  | .ext2 => image.ext2Unlink (bytesOf name) (callsIn vfs mount dir calls)
  | .isofs => some (.refused (-1))
  | .fatfs => some (.refused (-1))

/-- What the call meets on its medium: `ext2_unlink` checks the volume and the name before it
looks at the directory.
-/
def mediumOf (name : Name) (image : Image) (calls : UnlinkCalls) : Medium where
  refuses :=
    if calls.readOnly then some Ext2.PANUTIERRNO_NOTSUPPORTED
    else if Ext2.direntNameOk (bytesOf name) = false then some PANUTIERRNO_INVALIDARG
    else none
  returns :=
    ((image.ext2Unlink (bytesOf name) { calls with ofVolume := true }).map Unlinked.ret).getD
      PANUTIERRNO_PLAINERR

theorem fsUnlink_mediumOf (vfs : Vfs) (mount : Mount) (dir : Nat) (name : Name) (image : Image)
    (calls : UnlinkCalls)
    : ∃ done, mediumUnlink vfs mount dir name image calls = some done
        ∧ fsUnlink vfs mount dir (mediumOf name image calls) = done.ret := by
  unfold mediumUnlink fsUnlink
  cases mount.fsOps with
  | isofs => exact ⟨_, rfl, rfl⟩
  | fatfs => exact ⟨_, rfl, rfl⟩
  | ext2 =>
      obtain ⟨done, ran⟩ := Ext2.ext2Unlink_ends image (bytesOf name) (callsIn vfs mount dir calls)
      refine ⟨done, ran, ?_⟩
      simp only [ext2OnDir, mediumOf]
      by_cases readOnly : calls.readOnly = true
      · have refused : (callsIn vfs mount dir calls).readOnly = true := readOnly
        rw [Image.ext2Unlink, if_pos refused] at ran
        obtain rfl := Option.some.inj ran
        simp only [if_pos readOnly]
        rfl
      by_cases badName : Ext2.direntNameOk (bytesOf name) = false
      · have writable : ¬(callsIn vfs mount dir calls).readOnly = true := readOnly
        rw [Image.ext2Unlink, if_neg writable, if_pos badName] at ran
        obtain rfl := Option.some.inj ran
        simp only [if_neg readOnly, if_pos badName]
        rfl
      simp only [if_neg readOnly, if_neg badName]
      by_cases inVolume : vfs.ofVolume mount.fsImpl dir = true
      · have same : callsIn vfs mount dir calls = { calls with ofVolume := true } := by
          rw [callsIn, inVolume]
        rw [if_pos inVolume, ← same, ran, Option.map_some, Option.getD_some]
      · have writable : ¬(callsIn vfs mount dir calls).readOnly = true := readOnly
        have outside : (callsIn vfs mount dir calls).ofVolume = false := by
          simpa [callsIn] using inVolume
        rw [Image.ext2Unlink, if_neg writable, if_neg badName, if_pos outside] at ran
        obtain rfl := Option.some.inj ran
        rw [if_neg inVolume]
        rfl

-- What the registry reports

/-- The mount whose driver `registry_unlink` calls, where its own checks are passed. -/
def callsDriver (vfs : Vfs) (dir : Nat) (name : Name) : Option Mount :=
  if vfs.reg.isDir dir = false then none
  else if isDotName name ∨ vfs.reg.isDeleted dir then none
  else if (registryFinddirent vfs.reg dir name).any vfs.covered then none
  else (vfs.mnt dir).bind vfs.mounts

/-- The filesystem has removed the name from the directory, and not put it back. -/
def FsRemoves (vfs : Vfs) (dir : Nat) (name : Name) (image : Image) (calls : UnlinkCalls)
    : Prop :=
  ∃ mount done, callsDriver vfs dir name = some mount
    ∧ mediumUnlink vfs mount dir name image calls = some done
    ∧ done.gone = true

/-- The call returns 0 exactly where the filesystem has removed the name; where it fails, the
name is still there.
-/
def ReportsUnlink (vfs : Vfs) (dir : Nat) (name : Name) (image : Image) (calls : UnlinkCalls)
    : Prop :=
  (registryUnlink vfs dir name (mediumOf name image calls)).1 = .ok ()
  ↔ FsRemoves vfs dir name image calls

/-- Where the driver removes the record of the name: if the steps behind it succeed, the name is
a cached one, and if they do not, the record is put back.
-/
def CachedOrPutBack (vfs : Vfs) (dir : Nat) (name : Name) (image : Image) (calls : UnlinkCalls)
    : Prop :=
  ∀ mount dih inum tgt, callsDriver vfs dir name = some mount
  → mount.fsOps = .ext2
  → (callsIn vfs mount dir calls).Removes image (bytesOf name) dih inum tgt
  → if calls.completes dih tgt then (registryFinddirent vfs.reg dir name).isSome
    else calls.putsBack dih tgt

variable {vfs : Vfs} {dir : Nat}

theorem registryUnlink_mounted {slot : Nat} {name : Name} {medium : Medium}
    (mounted : vfs.mnt dir = some slot)
    : (registryUnlink vfs dir name medium).1 = .ok ()
      ↔ ∃ mount, callsDriver vfs dir name = some mount
          ∧ 0 ≤ fsUnlink vfs mount dir medium
          ∧ (registryFinddirent vfs.reg dir name).isSome := by
  unfold registryUnlink callsDriver
  rw [mounted]
  by_cases notDir : vfs.reg.isDir dir = false
  · simp [notDir]
  by_cases refused : isDotName name = true ∨ vfs.reg.isDeleted dir = true
  · simp [notDir, refused]
  by_cases covered : (registryFinddirent vfs.reg dir name).any vfs.covered = true
  · simp [notDir, refused, covered]
  simp only [if_neg notDir, if_neg refused, if_neg covered, Option.bind_some]
  cases vfs.mounts slot with
  | none => simp
  | some mount =>
      by_cases failed : fsUnlink vfs mount dir medium < 0
      · simp [failed]
      · cases registryFinddirent vfs.reg dir name with
        | none => simp [failed]
        | some entry => simp [failed, Int.not_lt.mp failed]

theorem fsRemoves_iff {mount : Mount} {name : Name} {image : Image} {calls : UnlinkCalls}
    {done : Unlinked} (reached : callsDriver vfs dir name = some mount)
    (ran : mediumUnlink vfs mount dir name image calls = some done)
    : FsRemoves vfs dir name image calls ↔ done.gone = true := by
  constructor
  · rintro ⟨other, otherDone, reachedToo, ranToo, gone⟩
    obtain rfl := Option.some.inj (reached.symm.trans reachedToo)
    obtain rfl := Option.some.inj (ran.symm.trans ranToo)
    exact gone
  · exact fun gone => ⟨mount, done, reached, ran, gone⟩

theorem reportsUnlink_iff {slot : Nat} (mounted : vfs.mnt dir = some slot) (name : Name)
    (image : Image) (calls : UnlinkCalls)
    : ReportsUnlink vfs dir name image calls ↔ CachedOrPutBack vfs dir name image calls := by
  unfold ReportsUnlink
  rw [registryUnlink_mounted mounted]
  cases reached : callsDriver vfs dir name with
  | none =>
      have nothing : ¬FsRemoves vfs dir name image calls := by
        rintro ⟨mount, _, reachedToo, _⟩
        rw [reached] at reachedToo
        cases reachedToo
      refine ⟨fun _ mount _ _ _ reachedToo => ?_, fun _ => by simp [nothing]⟩
      rw [reached] at reachedToo
      cases reachedToo
  | some mount =>
      obtain ⟨done, ran, returned⟩ := fsUnlink_mediumOf vfs mount dir name image calls
      rw [fsRemoves_iff reached ran]
      simp only [Option.some.injEq, exists_eq_left', returned]
      by_cases removes : mount.fsOps = .ext2
          ∧ ∃ dih inum tgt, (callsIn vfs mount dir calls).Removes image (bytesOf name) dih inum tgt
      · obtain ⟨isExt2, dih, inum, tgt, removes⟩ := removes
        obtain ⟨retired, result⟩ := removes.ran
        have promise : CachedOrPutBack vfs dir name image calls
            ↔ if calls.completes dih tgt = true then
                (registryFinddirent vfs.reg dir name).isSome = true
              else calls.putsBack dih tgt = true := by
          constructor
          · exact fun kept => kept mount dih inum tgt reached isExt2 removes
          · intro kept other otherDih otherInum otherTgt reachedToo _ removesToo
            obtain rfl := Option.some.inj (reached.symm.trans reachedToo)
            obtain rfl := Option.some.inj (removes.dir.symm.trans removesToo.dir)
            obtain rfl := Option.some.inj (removes.target.symm.trans removesToo.target)
            exact kept
        rw [mediumUnlink, isExt2] at ran
        obtain rfl := Option.some.inj (result.symm.trans ran)
        rw [promise]
        have same : (callsIn vfs mount dir calls).completes dih tgt = calls.completes dih tgt := rfl
        have sameBack : (callsIn vfs mount dir calls).putsBack dih tgt
            = calls.putsBack dih tgt := rfl
        simp only [same, sameBack]
        cases calls.completes dih tgt with
        | true => simp
        | false =>
            have negative : ¬(0 : Int) ≤ Ext2.PANUTIERRNO_PLAINERR := by decide
            simp [negative]
      · have refused : done.gone = false ∧ done.ret < 0 := by
          unfold mediumUnlink at ran
          cases isExt2 : mount.fsOps with
          | isofs =>
              rw [isExt2] at ran
              obtain rfl := Option.some.inj ran
              exact ⟨rfl, by decide⟩
          | fatfs =>
              rw [isExt2] at ran
              obtain rfl := Option.some.inj ran
              exact ⟨rfl, by decide⟩
          | ext2 =>
              rw [isExt2] at ran
              obtain ⟨ret, negative, result⟩ :=
                Ext2.ext2Unlink_refused (fun found => removes ⟨isExt2, found⟩)
              obtain rfl := Option.some.inj (result.symm.trans ran)
              exact ⟨rfl, negative⟩
        have failed : ¬0 ≤ done.ret := Int.not_le.mpr refused.2
        refine ⟨?_, fun _ => by simp [refused.1, failed]⟩
        intro _ other dih inum tgt reachedToo isExt2 removesToo
        obtain rfl := Option.some.inj (reached.symm.trans reachedToo)
        exact absurd ⟨isExt2, dih, inum, tgt, removesToo⟩ removes

-- Native directories

/-- In a native directory the call returns 0 where it took the name away, and where it fails
nothing has changed.
-/
def ReportsNativeUnlink (reg : Registry) (dir : Nat) (name : Name) : Prop :=
  match Native.registryUnlink reg dir name with
  | (.error _, after) => after = reg
  | (.ok _, after) =>
      (∃ inode, reg.lookup dir name = some inode) ∧ after.lookup dir name = none

theorem reportsNativeUnlink {reg : Registry} {holds pins : Nat → Nat}
    (sound : Sound reg holds pins) (dir : Nat) (name : Name)
    : ReportsNativeUnlink reg dir name := by
  unfold ReportsNativeUnlink
  rcases registryUnlink_cases reg dir name with ⟨_, failed⟩ | ⟨entry, found, checks, ran⟩
  · rw [failed]
  · obtain ⟨isDir, _, search, has, rfl, plain, empty⟩ := checks
    rw [ran]
    refine ⟨⟨found.inode, ?_⟩, sound.dropped_lookup isDir has plain empty⟩
    rw [Registry.lookup, search, Option.bind_some, Registry.target, has.2, Option.map_some]

-- Both kinds of directory

/-- `registry_unlink` reports what it did in every native directory, and in a mounted one where
the name is cached once the driver has removed it.
-/
theorem unlink_reports_iff {vfs : Vfs} {dir slot : Nat} (mounted : vfs.mnt dir = some slot)
    (name : Name) (image : Image) (calls : UnlinkCalls) {space : Namespace}
    (run : Run Registry.Roomy space) (nativeDir : Nat) (nativeName : Name)
    : (ReportsUnlink vfs dir name image calls ↔ CachedOrPutBack vfs dir name image calls)
      ∧ ReportsNativeUnlink space.reg nativeDir nativeName :=
  ⟨reportsUnlink_iff mounted name image calls,
    reportsNativeUnlink run.good.sound nativeDir nativeName⟩

/-- An ext2 volume over `/a`, which was resolved once. -/
def overA : Vfs :=
  let vfs : Vfs := ⟨oneDirectory.reg, fun _ => none, fun _ => none, fun _ => none⟩
  let nothing (_ : Nat) : Answer := ⟨none, false, false, ⟨false, false⟩⟩
  (registryResolve (ext2Mount vfs ['/', 'a'] 7 nothing true true).2 0 ['/', 'a'] nothing).2

/-- The same volume once `/a/f` was looked up. -/
def overAKnown : Vfs :=
  (registryResolve overA 0 ['/', 'a', '/', 'f']
    (fun _ => ⟨some (11, false), true, true, ⟨true, true⟩⟩)).2

/-- The calls of an unlink of a file whose every step succeeds. -/
def calm : UnlinkCalls where
  readOnly := false
  ofVolume := true
  dir := some ⟨⟨0x41ED, 1024, 0, 0, 0, 0, fun _ => 0, 0, (by decide : 2 ^ 10 < 2 ^ 32)⟩, 2⟩
  found := some 11
  target := some ⟨⟨0x81A4, 0, 0, 0, 0, 0, fun _ => 0, 0, by decide⟩, 1⟩
  room := true
  probe := ⟨[], fun _ => 0, 0⟩
  removes := true
  writesTarget := true
  writesDir := true
  retires := true
  addsBack := true

/-- A name that was looked up before is unlinked, and the call says so. -/
theorem unlink_reports_known
    : (ReportsUnlink overAKnown 2 ['f'] (Image.smallImage Image.oneEntry) calm
        ↔ CachedOrPutBack overAKnown 2 ['f'] (Image.smallImage Image.oneEntry) calm)
      ∧ ReportsNativeUnlink oneDirectory.reg 0 ['a'] := by
  have mounted : overAKnown.mnt 2 = some 0 := by decide +kernel
  have run : Run Registry.Roomy oneDirectory := Run.step Run.start trivial registryInit_roomy
  exact unlink_reports_iff mounted ['f'] (Image.smallImage Image.oneEntry) calm run 0 ['a']

/-- A name that was never looked up is unlinked, and the call says -1. -/
theorem unlink_unknown_misreports
    : ¬ReportsUnlink overA 2 ['f'] (Image.smallImage Image.oneEntry) calm := by
  intro reports
  have removes : FsRemoves overA 2 ['f'] (Image.smallImage Image.oneEntry) calm := by
    refine ⟨⟨1, 2, .ext2, 7, 0⟩, ⟨0, true, some 11⟩, ?_, ?_, rfl⟩
    · decide +kernel
    · decide +kernel
  have failed
      : (registryUnlink overA 2 ['f']
          (mediumOf ['f'] (Image.smallImage Image.oneEntry) calm)).1 = .error .minusOne := by
    decide +kernel
  rw [ReportsUnlink, failed] at reports
  exact nomatch reports.mpr removes

end Panuti.Mounts
