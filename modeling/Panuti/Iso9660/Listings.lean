import Panuti.Iso9660.Extents

/-! On every volume that can be mounted the search and the listing agree about every directory,
whatever calls were made before: what one of them names, the other one names too.
-/

namespace Panuti.Iso9660

open Panuti.Library

/-- The result is no volume, or one with blocks as they have to be. -/
def Accepts (result : Except Fault (Option Isofs)) : Prop :=
  Settles (fun _ => True) (fun given => ∀ fs, given = some fs → fs.Blocks) result

theorem Accepts.bind {α : Type} {result : Except Fault α} {next : α → Except Fault (Option Isofs)}
    (later : ∀ a, Accepts (next a))
    : Accepts (result >>= next) := by
  cases result with
  | error fault => exact trivial
  | ok a => exact later a

theorem Accepts.refuses : Accepts (pure none) := nofun

theorem Accepts.takes {fs : Isofs} (blocks : fs.Blocks) : Accepts (pure (some fs)) := by
  rintro _ ⟨⟩
  exact blocks

theorem mountParameters_accepts (dev : BlockDev) (answers : Nat → Bool) (rootAnswers : Bool)
    : Accepts (mountParameters dev answers rootAnswers) := by
  unfold mountParameters
  generalize findPvd dev answers (dev.blockCount - 16) 16 [] none = found
  rcases found with _ | ⟨desc, _ | pvd⟩
  · exact .refuses
  · exact .refuses
  refine Accepts.bind fun mark => ?_
  refine iteInduction (fun _ => .refuses) fun _ => ?_
  refine Accepts.bind fun version => ?_
  refine iteInduction (fun _ => .refuses) fun _ => ?_
  refine Accepts.bind fun form => ?_
  refine iteInduction (fun _ => .refuses) fun _ => ?_
  refine Accepts.bind fun volumeSpaceSize => ?_
  refine Accepts.bind fun blockSize => ?_
  refine iteInduction (fun _ => .refuses) fun power => ?_
  refine iteInduction (fun _ => .refuses) fun _ => ?_
  refine Accepts.bind fun read => ?_
  cases read with
  | none => exact .refuses
  | some root =>
      refine iteInduction (fun _ => .refuses) fun _ => ?_
      refine iteInduction (fun _ => .refuses) fun small => ?_
      have blocks (lba length : Nat) (rockRidge : Bool) (skip : Nat)
          : Isofs.Blocks ⟨blockSize, volumeSpaceSize, lba, length, rockRidge, skip⟩ :=
        ⟨by simp only; omega, Nat.le_of_not_lt small⟩
      refine iteInduction (fun _ => .takes (blocks ..)) fun _ => ?_
      refine Accepts.bind fun first => ?_
      refine Accepts.bind fun skip => ?_
      cases skip with
      | none => exact .takes (blocks ..)
      | some lenSkp => exact .takes (blocks ..)

theorem mountParameters_blocks {dev : BlockDev} {answers : Nat → Bool} {rootAnswers : Bool}
    {fs : Isofs} (mounted : mountParameters dev answers rootAnswers = .ok (some fs))
    : fs.Blocks :=
  (mountParameters_accepts dev answers rootAnswers).value mounted fs rfl

-- Runs

/-- The caches that come to be on a mounted volume, whatever is called, and whether or not the
heap has room and the device answers.
-/
inductive Reached (fs : Isofs) (device : Nat → UInt8) : Dircache → Prop
  | mounted : Reached fs device emptyDircache
  | listed {cache later : Dircache} {dir : Directory} {cursor next : Nat} {medium : Medium}
      {result : ReaddirResult} (reached : Reached fs device cache)
      (call : isofsReaddir fs device cache dir cursor medium = .ok (result, next, later))
      : Reached fs device later
  | searched {cache later : Dircache} {dir : Directory} {name : Bytes} {medium : Medium}
      {room : InodeRoom} {found : Option IsofsDirent} (reached : Reached fs device cache)
      (call : isofsLookup fs device cache dir name medium room = .ok (found, later))
      : Reached fs device later

/-- Calls of `isofs_readdir` for one open directory, each with the cursor that the last one left:
the entries they hand out, and whether the last one says that there are no more. Other calls may
come between them.
-/
inductive Listing (fs : Isofs) (device : Nat → UInt8) (dir : Directory)
    : (cursor : Nat) → List DirentEntry → (complete : Bool) → Prop
  | stops {cursor : Nat} : Listing fs device dir cursor [] false
  | fails {cursor next : Nat} {cache later : Dircache} {medium : Medium}
      {entries : List DirentEntry} {complete : Bool} (reached : Reached fs device cache)
      (call : isofsReaddir fs device cache dir cursor medium = .ok (.failed, next, later))
      (rest : Listing fs device dir next entries complete)
      : Listing fs device dir cursor entries complete
  | finishes {cursor next : Nat} {cache later : Dircache} {medium : Medium}
      (reached : Reached fs device cache)
      (call : isofsReaddir fs device cache dir cursor medium = .ok (.finished, next, later))
      : Listing fs device dir cursor [] true
  | hands {cursor next : Nat} {cache later : Dircache} {medium : Medium} {handed : DirentEntry}
      {entries : List DirentEntry} {complete : Bool} (reached : Reached fs device cache)
      (call : isofsReaddir fs device cache dir cursor medium = .ok (.entry handed, next, later))
      (rest : Listing fs device dir next entries complete)
      : Listing fs device dir cursor (handed :: entries) complete

section Runs

variable {fs : Isofs} {device : Nat → UInt8} {cache : Dircache} {dir : Directory}

theorem Reached.coherent (blocks : fs.Blocks) (reached : Reached fs device cache)
    : cache.Coherent fs device := by
  induction reached with
  | mounted => exact emptyDircache_coherent fs device
  | listed _ call ih => exact ((isofsReaddir_safe blocks ih _ _).value call).1
  | searched _ call ih => exact ((isofsLookup_safe blocks ih _ _ _).value call).1

variable {cursor : Nat} {entries : List DirentEntry} {records : List (Nat × IsofsDirent)}

theorem Listing.entries_eq (blocks : fs.Blocks) {complete : Bool}
    (listing : Listing fs device dir cursor entries complete)
    (holds : fs.Holds device dir cursor records)
    : ∃ listed rest, records = listed ++ rest
      ∧ entries = listed.map (fun record => entryOf record.2) ∧ (complete = true → rest = []) := by
  induction listing generalizing records with
  | stops => exact ⟨[], records, rfl, rfl, nofun⟩
  | fails reached call _ ih =>
      obtain ⟨-, rfl⟩ := (isofsReaddir_safe blocks (reached.coherent blocks) _ _).value call
      exact ih holds
  | finishes reached call =>
      obtain ⟨-, none'⟩ := (isofsReaddir_safe blocks (reached.coherent blocks) _ _).value call
      exact ⟨[], records, rfl, rfl, fun _ => none' records holds⟩
  | hands reached call _ ih =>
      obtain ⟨-, -, dirent, rfl, first⟩ :=
        (isofsReaddir_safe blocks (reached.coherent blocks) _ _).value call
      obtain ⟨others, rfl⟩ := first records holds
      obtain ⟨listed, rest, rfl, rfl, whole⟩ := ih holds.tail
      exact ⟨_ :: listed, rest, rfl, rfl, whole⟩

theorem Listing.opens (blocks : fs.Blocks) {complete : Bool}
    (listing : Listing fs device dir cursor entries complete) (some' : entries ≠ [])
    : fs.Opens dir := by
  induction listing with
  | stops | finishes => exact absurd rfl some'
  | fails _ _ _ ih => exact ih some'
  | hands reached call _ _ =>
      exact ((isofsReaddir_safe blocks (reached.coherent blocks) _ _).value call).2.1

theorem Isofs.Opens.listing (blocks : fs.Blocks) (opens : fs.Opens dir)
    (holds : fs.Holds device dir cursor records)
    : ∃ entries, Listing fs device dir cursor entries true := by
  induction records generalizing cursor with
  | nil =>
      obtain ⟨⟨result, next, later⟩, call, _, tells⟩ :=
        (isofsReaddir_safe blocks (emptyDircache_coherent fs device) cursor
          ⟨true, true⟩).exists_value
      cases result with
      | failed => exact absurd rfl (isofsReaddir_gives opens call)
      | finished => exact ⟨[], .finishes .mounted call⟩
      | entry handed =>
          obtain ⟨-, dirent, -, first⟩ := tells
          obtain ⟨rest, same⟩ := first [] holds
          cases same
  | cons record records ih =>
      obtain ⟨⟨result, next, later⟩, call, _, tells⟩ :=
        (isofsReaddir_safe blocks (emptyDircache_coherent fs device) cursor
          ⟨true, true⟩).exists_value
      cases result with
      | failed => exact absurd rfl (isofsReaddir_gives opens call)
      | finished => cases tells _ holds
      | entry handed =>
          obtain ⟨-, dirent, -, first⟩ := tells
          obtain ⟨rest, same⟩ := first _ holds
          obtain ⟨rfl, rfl⟩ := List.cons.inj same
          obtain ⟨entries, listing⟩ := ih holds.tail
          exact ⟨handed :: entries, .hands .mounted call listing⟩

end Runs

/-- In every directory of every volume that can be mounted, the search and the listing meet no
fault. What the listing hands out is found under its name, and what is found is handed out by the
listings that go on to the end, of which there are some.
-/
theorem mounted_directories_agree {dev : BlockDev} {answers : Nat → Bool} {rootAnswers : Bool}
    {fs : Isofs} (mounted : mountParameters dev answers rootAnswers = .ok (some fs))
    (dir : Directory)
    : (∀ cache, Reached fs dev.content cache
        → (∀ name medium room, ∃ answer,
            isofsLookup fs dev.content cache dir name medium room = .ok answer)
          ∧ ∀ cursor medium, ∃ answer,
              isofsReaddir fs dev.content cache dir cursor medium = .ok answer)
      ∧ (∀ entries complete, Listing fs dev.content dir 0 entries complete
        → ∀ entry ∈ entries, cstring entry.name ≠ []
        → ∀ cache, Reached fs dev.content cache
        → ∃ dirent later, isofsLookup fs dev.content cache dir (cstring entry.name)
            ⟨true, true⟩ ⟨true, true, true⟩ = .ok (some dirent, later))
      ∧ ∀ cache name medium room dirent later, Reached fs dev.content cache
        → isofsLookup fs dev.content cache dir name medium room = .ok (some dirent, later)
        → (∃ entries, Listing fs dev.content dir 0 entries true)
          ∧ ∀ entries, Listing fs dev.content dir 0 entries true
            → ∃ entry ∈ entries, cstring entry.name = name := by
  have blocks := mountParameters_blocks mounted
  refine ⟨fun cache reached => ⟨fun name medium room => ?_, fun cursor medium => ?_⟩, ?_, ?_⟩
  · obtain ⟨answer, call, -⟩ :=
      (isofsLookup_safe blocks (reached.coherent blocks) name medium room).exists_value
    exact ⟨answer, call⟩
  · obtain ⟨answer, call, -⟩ :=
      (isofsReaddir_safe blocks (reached.coherent blocks) cursor medium).exists_value
    exact ⟨answer, call⟩
  · intro entries complete listing entry among named cache reached
    have opens := listing.opens blocks (List.ne_nil_of_mem among)
    obtain ⟨records, holds⟩ := blocks.holds dev.content opens.served 0
    obtain ⟨listed, rest, rfl, rfl, -⟩ := listing.entries_eq blocks holds
    obtain ⟨record, handed, rfl⟩ := List.mem_map.mp among
    rw [entryOf_name] at named ⊢
    have met : record ∈ listed ++ rest := List.mem_append_left rest handed
    have short : (cstring record.2.name).length < REG_MAX_NAME_LEN := by
      have buffer := holds.name met
      rw [← buffer.size]
      exact cstring_length buffer.ends
    exact isofsLookup_finds (reached.coherent blocks) opens
      ⟨⟨rfl, rfl, rfl⟩, List.length_pos_iff.mpr named, short⟩ holds ⟨record, met, rfl⟩
  · intro cache name medium room dirent later reached call
    obtain ⟨-, found⟩ :=
      (isofsLookup_safe blocks (reached.coherent blocks) name medium room).value call
    obtain ⟨named, opens, among⟩ := found dirent rfl
    obtain ⟨records, holds⟩ := blocks.holds dev.content opens.served 0
    obtain ⟨next, met⟩ := among records holds
    refine ⟨opens.listing blocks holds, fun entries listing => ?_⟩
    obtain ⟨listed, rest, rfl, rfl, whole⟩ := listing.entries_eq blocks holds
    rw [whole rfl, List.append_nil] at met
    refine ⟨entryOf dirent, List.mem_map.mpr ⟨_, met, rfl⟩, ?_⟩
    rw [entryOf_name, named]

/-- A device with a primary descriptor, and a root directory in block 18 with one file, `A.`. -/
def smallDevice : BlockDev where
  blockCount := 20
  blockSize := 2048
  content place :=
    match place with
    | 32768 => 1
    | 32769 => 'C'.toUInt8
    | 32770 => 'D'.toUInt8
    | 32771 | 32772 => '0'.toUInt8
    | 32773 => '1'.toUInt8
    | 32774 | 33649 => 1
    | 32848 => 20
    | 32897 => 8
    -- the root's record
    | 32924 => 34
    | 32926 => 18
    | 32935 => 8
    | 32949 => 2
    | 32956 => 1
    | 34816 => 255
    -- a record of the root
    | 36864 => 38
    | 36896 => 4
    | 36897 => 'A'.toUInt8
    | 36898 => '.'.toUInt8
    | 36899 => ';'.toUInt8
    | 36900 => '1'.toUInt8
    | _ => 0

/-- The file of the root is listed, and every listed name is found. -/
theorem smallDevice_directories_agree
    : ∃ fs entries complete,
        mountParameters smallDevice (fun _ => true) true = .ok (some fs)
        ∧ Listing fs smallDevice.content ⟨none⟩ 0 entries complete ∧ entries ≠ []
        ∧ ∀ entry ∈ entries, cstring entry.name ≠ []
          → ∃ dirent later, isofsLookup fs smallDevice.content emptyDircache ⟨none⟩
              (cstring entry.name) ⟨true, true⟩ ⟨true, true, true⟩ = .ok (some dirent, later) := by
  have accepted : (mountParameters smallDevice (fun _ => true) true).toOption
      = some (some ⟨2048, 20, 18, 2048, false, 0⟩) := by
    decide +kernel
  have listed : ((isofsReaddir ⟨2048, 20, 18, 2048, false, 0⟩ smallDevice.content emptyDircache
        ⟨none⟩ 0 ⟨true, true⟩).toOption.map (fun answer => answer.1))
      = some (.entry ⟨'A'.toUInt8 :: List.replicate 255 0, false, 0, 0⟩) := by
    decide +kernel
  cases mounted : mountParameters smallDevice (fun _ => true) true with
  | error fault =>
      rw [mounted] at accepted
      cases accepted
  | ok given =>
      rw [mounted] at accepted
      obtain rfl := Option.some.inj accepted
      obtain ⟨-, finds, -⟩ := mounted_directories_agree mounted ⟨none⟩
      cases call : isofsReaddir ⟨2048, 20, 18, 2048, false, 0⟩ smallDevice.content emptyDircache
          ⟨none⟩ 0 ⟨true, true⟩ with
      | error fault =>
          rw [call] at listed
          cases listed
      | ok answer =>
          rw [call] at listed
          obtain ⟨result, next, later⟩ := answer
          obtain rfl := Option.some.inj listed
          have listing := Listing.hands .mounted call .stops
          exact ⟨_, _, _, rfl, listing, List.cons_ne_nil _ _,
            fun entry among named => finds _ _ listing entry among named _ .mounted⟩

end Panuti.Iso9660
