import Mathlib.Order.Basic
import Panuti.Ext2.ListingSearch

/-! When a complete walk of `ext2_readdir` over a directory agrees with `ext2_dirent_find`. The
walk keeps going behind a record whose name it cannot trust, where the search of a block ends; it
lists names no path can carry; and its cursor has 32 bits.
-/

namespace Panuti.Ext2

open ByteMemory RecordChain

/-- What a listing has to show for an entry: its name, and the inode it names. -/
structure LiveEntry where
  name : Name
  type : InodeType
  child : InodeHdr

/-- The name as the caller of `ext2_readdir` reads it. -/
def LiveEntry.shown (entry : LiveEntry) : Name := entry.name.takeWhile (· ≠ 0)

namespace Image

variable {image : Image} {hdr : InodeHdr} {inum off : Nat} {held : Held} {offs : List Nat}

-- The records of a directory

/-- The live file or directory an inode number stands for. -/
def child (image : Image) (inum : Nat) : Option (InodeType × InodeHdr) :=
  if inum = 0 ∨ image.inodesCount < inum then none else liveChild (image.inode inum)

/-- The record at byte `off` of the directory, with the block it stands in. -/
def recordAt (image : Image) (hdr : InodeHdr) (off : Nat) : Option (Memory × DirentHdr) :=
  (image.dirBlock hdr (off / image.format.blockSize)).bind fun buf =>
    match image.format.direntAt buf (off % image.format.blockSize) with
    | some (.record d) => some (buf, d)
    | _ => none

/-- Where a walk goes on behind `off`: behind the record, or with the next block. -/
def behind (image : Image) (hdr : InodeHdr) (off : Nat) : Nat :=
  match image.recordAt hdr off with
  | some (_, d) => off + d.recLen
  | none => (off / image.format.blockSize + 1) * image.format.blockSize

/-- The live entry at `off`, where it names a live file or directory. -/
def entryAt (image : Image) (hdr : InodeHdr) (off : Nat) : Option LiveEntry :=
  (image.recordAt hdr off).bind fun (buf, d) =>
    if d.Sound then
      (image.child d.inode).map fun (type, child) =>
        ⟨buf.bytes (off % image.format.blockSize + HDR_LEN) d.nameLen, type, child⟩
    else none

/-- The records lead from `off` through these offsets to the end of the directory, which a
cursor of 32 bits can hold.
-/
inductive Leads (image : Image) (hdr : InodeHdr) : Nat → List Nat → Prop
  | done {off : Nat} (past : image.inodeSize hdr ≤ off) (small : off < 2 ^ 32)
    : Leads image hdr off []
  | on {off : Nat} {offs : List Nat} (inside : off < image.inodeSize hdr)
    (rest : Leads image hdr (image.behind hdr off) offs)
    : Leads image hdr off (off :: offs)

structure Shows (image : Image) (entry : LiveEntry) (out : DirentOut) : Prop where
  name : out.name = entry.name ++ [0]
  type : out.type = entry.type
  size : out.size = ((image.inodeLength entry.child).map (· % 2 ^ 32)).getD 0
  mtime : out.mtime = entry.child.mtime * 100
  ctime : out.ctime = entry.child.ctime * 100

-- What is held from call to call

/-- What is held is this directory as the image has it. -/
structure Open (image : Image) (inum : Nat) (held : Held) : Prop where
  inode : held.cachedDirInode = inum
  size : image.inodeLength (image.inode inum) = some held.cachedDirSize
  blocks : held.cachedDirBlocks = (image.inode inum).block
  buffer
    : ∀ index,
        held.cachedDirBlock = index + 1
        → image.dirBlock (image.inode inum) index = some held.dirBuf

/-- What is held of the directory, if anything is, is as the image has it. -/
def Coherent (image : Image) (inum : Nat) (held : Held) : Prop :=
  held.cachedDirInode = inum → image.Open inum held

/-- Nothing is modified between the calls of a walk: what is held stays coherent. -/
def Quiet (image : Image) (inum : Nat) (others : Nat → Held → Held) : Prop :=
  ∀ n held, image.Coherent inum held → image.Coherent inum (others n held)

structure Directory (image : Image) (inum : Nat) : Prop where
  positive : inum ≠ 0
  counted : inum ≤ image.inodesCount
  isDir : (image.inode inum).mode &&& EXT2_S_IFMT = EXT2_S_IFDIR

-- One turn

theorem behind_bounds (image : Image) (hdr : InodeHdr) (off : Nat)
    : off < image.behind hdr off
      ∧ image.behind hdr off ≤ (off / image.format.blockSize + 1) * image.format.blockSize := by
  have large := image.format.blockSize_bounds.1
  have whole := Nat.div_add_mod off image.format.blockSize
  have small := Nat.mod_lt off (show 0 < image.format.blockSize by omega)
  have next : (off / image.format.blockSize + 1) * image.format.blockSize
      = image.format.blockSize * (off / image.format.blockSize) + image.format.blockSize := by
    rw [Nat.add_mul, Nat.one_mul, Nat.mul_comm]
  unfold behind
  cases found : image.recordAt hdr off with
  | none =>
      simp only
      omega
  | some place =>
      obtain ⟨buf, d⟩ := place
      simp only [recordAt, Option.bind_eq_some_iff] at found
      obtain ⟨other, _, standing⟩ := found
      split at standing
      · rename_i e stands
        obtain ⟨positive, inside⟩ := Format.direntAt_moves _ _ _ _ stands
        obtain ⟨_, rfl⟩ : other = buf ∧ e = d := by simpa using standing
        simp only
        omega
      · cases standing

theorem Leads.lt (leads : image.Leads hdr off offs) : off < 2 ^ 32 := by
  induction leads with
  | done _ small => exact small
  | @on off _ _ _ ih =>
      have := (behind_bounds image hdr off).1
      omega

theorem Leads.ge (leads : image.Leads hdr off offs) : ∀ place ∈ offs, off ≤ place := by
  induction leads with
  | done _ _ => simp
  | @on off _ _ _ ih =>
      intro place here
      have moves := (behind_bounds image hdr off).1
      rcases List.mem_cons.mp here with rfl | later
      · exact Nat.le_refl _
      · have := ih place later
        omega

theorem Leads.increasing (leads : image.Leads hdr off offs) : offs.Pairwise (· < ·) := by
  induction leads with
  | done _ _ => exact List.Pairwise.nil
  | @on off _ _ rest ih =>
      refine List.Pairwise.cons ?_ ih
      intro place later
      have moves := (behind_bounds image hdr off).1
      have := rest.ge place later
      omega

theorem Open.loadBlock (opened : image.Open inum held) (index : Nat)
    : match image.dirBlock (image.inode inum) index with
      | none => image.loadBlock index held = none
      | some buf =>
          ∃ after, image.loadBlock index held = some after ∧ image.Open inum after
            ∧ after.dirBuf = buf ∧ after.atime = held.atime := by
  unfold Image.loadBlock
  rw [opened.blocks]
  by_cases loaded : held.cachedDirBlock = index + 1
  · rw [opened.buffer index loaded]
    exact ⟨held, by rw [if_neg (not_not.mpr loaded)], opened, rfl, rfl⟩
  · rw [if_pos loaded]
    cases read : image.dirBlock (image.inode inum) index with
    | none =>
        rw [dirBlock] at read
        simp only [read, Option.map_none]
    | some buf =>
        have mapped := read
        rw [dirBlock] at mapped
        refine ⟨{ held with dirBuf := buf, cachedDirBlock := index + 1 },
          by rw [mapped, Option.map_some, opened.blocks], ?_, rfl, rfl⟩
        refine ⟨opened.inode, opened.size, opened.blocks, ?_⟩
        intro other same
        obtain rfl : index = other := by simpa using same
        exact read

theorem Open.drop (opened : image.Open inum held)
    : image.Open inum { held with cachedDirBlock := 0 } :=
  ⟨opened.inode, opened.size, opened.blocks, fun _ loaded => by simp at loaded⟩

theorem readInode_child (image : Image) (held : Held) (number : Nat)
    : (image.readInode held number).bind liveChild
      = (image.child number).map
          fun (type, child) => (type, { child with atime := held.atime number }) := by
  unfold readInode child
  split
  · rfl
  · simp only [Option.bind_some, liveChild]
    split
    · rfl
    · split <;> rfl

theorem fillEntry_spec {buf : Memory} {inBlock : Nat} {d : DirentHdr} (type : InodeType)
    (child : InodeHdr) (atime : Nat)
    (stands : image.format.direntAt buf inBlock = some (.record d)) (sound : d.Sound)
    : ∃ out, image.fillEntry buf inBlock d type { child with atime := atime } = some out
        ∧ image.Shows ⟨buf.bytes (inBlock + HDR_LEN) d.nameLen, type, child⟩ out := by
  obtain ⟨_, inside⟩ := Format.direntAt_moves _ _ _ _ stands
  obtain ⟨long, _⟩ := Format.direntAt_record stands
  have short := Format.nameLen_le stands
  have fits := sound.2.2
  have whole : ¬DIRENT_NAME_MAX - 1 < d.nameLen := by
    simp only [DIRENT_NAME_MAX]
    omega
  have within : inBlock + HDR_LEN + d.nameLen ≤ image.format.blockSize := by omega
  simp only [fillEntry, if_neg whole, if_pos within]
  exact ⟨_, rfl, rfl, rfl, rfl, rfl, rfl⟩

/-- One turn looks at the offset, shows its live entry, if there is one, and goes on behind. -/
theorem Open.turn (opened : image.Open inum held) (off : Nat)
    : ∃ shown after,
        image.readdirTurn off held
          = some (shown, image.behind (image.inode inum) off % 2 ^ 32, after)
        ∧ image.Open inum after
        ∧ Option.Rel image.Shows (image.entryAt (image.inode inum) off) shown := by
  have loads := opened.loadBlock (off / image.format.blockSize)
  cases read : image.dirBlock (image.inode inum) (off / image.format.blockSize) with
  | none =>
      rw [read] at loads
      refine ⟨none, _, ?_, opened.drop, ?_⟩
      · simp only [readdirTurn, loads, behind, recordAt, read, Option.bind_none]
      · simp only [entryAt, recordAt, read, Option.bind_none]
        exact Option.Rel.none
  | some buf =>
      rw [read] at loads
      obtain ⟨after, loaded, opened, same, _⟩ := loads
      obtain ⟨slot, stands⟩ := Format.direntAt_readable image.format buf
        (off % image.format.blockSize)
      cases slot with
      | unused =>
          refine ⟨none, _, ?_, opened.drop, ?_⟩
          · simp only [readdirTurn, loaded, same, stands, behind, recordAt, read, Option.bind_some]
          · simp only [entryAt, recordAt, read, stands, Option.bind_some, Option.bind_none]
            exact Option.Rel.none
      | broken =>
          refine ⟨none, _, ?_, opened.drop, ?_⟩
          · simp only [readdirTurn, loaded, same, stands, behind, recordAt, read, Option.bind_some]
          · simp only [entryAt, recordAt, read, stands, Option.bind_some, Option.bind_none]
            exact Option.Rel.none
      | record d =>
          have found : image.recordAt (image.inode inum) off = some (buf, d) := by
            simp only [recordAt, read, stands, Option.bind_some]
          simp only [readdirTurn, loaded, same, stands, behind, found, entryAt, Option.bind_some,
            readInode_child]
          by_cases sound : d.Sound
          · have trusted : ¬(d.inode = 0 ∨ d.nameLen = 0 ∨ d.recLen - HDR_LEN < d.nameLen) := by
              obtain ⟨used, named, fits⟩ := sound
              omega
            rw [if_neg trusted, if_pos sound]
            cases image.child d.inode with
            | none => exact ⟨none, after, rfl, opened, Option.Rel.none⟩
            | some live =>
                obtain ⟨type, child⟩ := live
                obtain ⟨out, filled, shows⟩ := fillEntry_spec type child (after.atime d.inode)
                  stands sound
                refine ⟨some out, after, ?_, opened, Option.Rel.some shows⟩
                simp only [Option.map_some]
                rw [filled]
                rfl
          · have distrusted : d.inode = 0 ∨ d.nameLen = 0 ∨ d.recLen - HDR_LEN < d.nameLen := by
              simp only [DirentHdr.Sound] at sound
              omega
            rw [if_pos distrusted, if_neg sound]
            exact ⟨none, after, rfl, opened, Option.Rel.none⟩

-- One call

theorem readdirLoop_leads (leads : image.Leads (image.inode inum) off offs) (turns : Nat)
    (opened : image.Open inum held) (enough : offs.length < turns)
    : ∃ after, image.Open inum after
        ∧ ((offs.filterMap (image.entryAt (image.inode inum)) = []
            ∧ ∃ cursor, image.readdirLoop (image.inodeSize (image.inode inum)) turns off held
              = some (.done, cursor, after))
          ∨ ∃ entry out next rest,
              image.Leads (image.inode inum) next rest
              ∧ rest.length < offs.length
              ∧ offs.filterMap (image.entryAt (image.inode inum))
                = entry :: rest.filterMap (image.entryAt (image.inode inum))
              ∧ image.Shows entry out
              ∧ image.readdirLoop (image.inodeSize (image.inode inum)) turns off held
                = some (.entry out, next, after)) := by
  induction leads generalizing turns held with
  | @done off past _ =>
      obtain ⟨turns, rfl⟩ : ∃ less, turns = less + 1 := ⟨turns - 1, by simp at enough; omega⟩
      exact ⟨held, opened, Or.inl ⟨rfl, _, by rw [readdirLoop, if_neg (by omega)]⟩⟩
  | @on off rest inside leads ih =>
      obtain ⟨turns, rfl⟩ : ∃ less, turns = less + 1 := ⟨turns - 1, by simp at enough; omega⟩
      obtain ⟨shown, after, turned, openedAfter, shows⟩ := opened.turn off
      rw [Nat.mod_eq_of_lt leads.lt] at turned
      cases entry : image.entryAt (image.inode inum) off with
      | none =>
          rw [entry] at shows
          cases shows
          have shorter : rest.length < turns := by simpa using enough
          obtain ⟨last, openedLast, ends⟩ := ih turns openedAfter shorter
          refine ⟨last, openedLast, ?_⟩
          simp only [readdirLoop, if_pos inside, turned, List.filterMap_cons, entry]
          rcases ends with done | ⟨found, out, next, behind, leadsOn, less, rest⟩
          · exact Or.inl done
          · exact Or.inr ⟨found, out, next, behind, leadsOn, Nat.lt_succ_of_lt less, rest⟩
      | some found =>
          rw [entry] at shows
          cases shows with
          | some shows =>
              refine ⟨after, openedAfter, Or.inr ⟨found, _, _, rest, leads, ?_, ?_, shows, ?_⟩⟩
              · simp
              · simp only [List.filterMap_cons, entry]
              · simp only [readdirLoop, if_pos inside, turned]

theorem inodeLength_of_accepted
    (accepted : image.inodeSize hdr ≤ image.blocksCount * image.format.blockSize)
    : image.inodeLength hdr = some (image.inodeSize hdr) := by
  have bounded : ¬image.blocksCount * image.format.blockSize < image.inodeSize hdr := by omega
  simp only [inodeLength, if_neg bounded]

theorem inodeLength_some {len : Nat} (noted : image.inodeLength hdr = some len)
    : len = image.inodeSize hdr
      ∧ image.inodeSize hdr ≤ image.blocksCount * image.format.blockSize := by
  simp only [inodeLength] at noted
  split at noted
  · cases noted
  · rename_i bounded
    exact ⟨by simpa using noted.symm, by omega⟩

theorem Coherent.touchAtime (coherent : image.Coherent inum held) (now number : Nat)
    (read : InodeHdr)
    : image.Coherent inum (image.touchAtime now number read held) := by
  have moved (atime : Nat → Nat) : image.Coherent inum { held with atime := atime } := by
    intro here
    obtain ⟨inode, size, blocks, buffer⟩ := coherent here
    exact ⟨inode, size, blocks, buffer⟩
  unfold Image.touchAtime
  split
  · exact coherent
  · split
    · exact coherent
    · exact moved _

theorem Coherent.openDir (coherent : image.Coherent inum held) (read : InodeHdr)
    (size : image.inodeLength read = image.inodeLength (image.inode inum))
    (blocks : read.block = (image.inode inum).block)
    (accepted
      : image.inodeSize (image.inode inum) ≤ image.blocksCount * image.format.blockSize)
    : ∃ after, image.openDir inum read held = some after ∧ image.Open inum after := by
  have length := inodeLength_of_accepted accepted
  unfold Image.openDir
  by_cases here : held.cachedDirInode = inum
  · exact ⟨held, by rw [if_neg (not_not.mpr here)], coherent here⟩
  · rw [if_pos here, size, length, Option.map_some]
    exact ⟨_, rfl, rfl, length, blocks, fun _ loaded => by simp at loaded⟩

theorem readdir_spec (directory : image.Directory inum) (coherent : image.Coherent inum held)
    (accepted
      : image.inodeSize (image.inode inum) ≤ image.blocksCount * image.format.blockSize)
    (turns now cursor : Nat)
    : ∃ after, image.Open inum after
        ∧ image.readdir turns now inum cursor held
          = if image.inodeSize (image.inode inum) = 0 then some (.done, cursor, after)
            else
              image.readdirLoop (image.inodeSize (image.inode inum)) turns cursor after := by
  obtain ⟨positive, counted, isDir⟩ := directory
  have read : image.readInode held inum
      = some { image.inode inum with atime := held.atime inum } := by
    rw [readInode, if_neg (by omega)]
  obtain ⟨after, opens, opened⟩ := (coherent.touchAtime now inum
    { image.inode inum with atime := held.atime inum }).openDir
      { image.inode inum with atime := held.atime inum } rfl rfl accepted
  have size := (inodeLength_some opened.size).1
  refine ⟨after, opened, ?_⟩
  simp only [readdir, read, isDir, ne_eq, not_true_eq_false, if_false, opens, size]

-- A whole walk

variable {clock : Nat → Nat} {others : Nat → Held → Held}

theorem listing_leads (directory : image.Directory inum) (quiet : image.Quiet inum others)
    (accepted
      : image.inodeSize (image.inode inum) ≤ image.blocksCount * image.format.blockSize)
    (turns calls n : Nat) (coherent : image.Coherent inum held)
    (leads : image.Leads (image.inode inum) off offs) (enough : offs.length < turns)
    (enoughCalls : offs.length < calls)
    : ∃ listed, image.listing clock others turns inum calls n off held = some listed
        ∧ List.Forall₂ image.Shows (offs.filterMap (image.entryAt (image.inode inum)))
            listed := by
  induction calls generalizing n off offs held with
  | zero => omega
  | succ calls ih =>
      obtain ⟨opened, isOpen, called⟩ := readdir_spec directory coherent accepted turns (clock n) off
      by_cases empty : image.inodeSize (image.inode inum) = 0
      · rw [if_pos empty] at called
        cases leads with
        | done _ _ => exact ⟨[], by simp only [listing, called], List.Forall₂.nil⟩
        | on inside _ => omega
      · rw [if_neg empty] at called
        obtain ⟨after, isOpen, ends⟩ := readdirLoop_leads leads turns isOpen enough
        rcases ends with
          ⟨none, cursor, looped⟩ | ⟨entry, out, next, rest, leadsOn, less, split, shows, looped⟩
        · rw [looped] at called
          rw [none]
          exact ⟨[], by simp only [listing, called], List.Forall₂.nil⟩
        · rw [looped] at called
          obtain ⟨listed, walked, matching⟩ := ih (n + 1)
            (quiet n after (fun _ => isOpen)) leadsOn (by omega) (by omega)
          rw [split]
          exact ⟨out :: listed, by simp only [listing, called, walked, Option.map_some],
            List.Forall₂.cons shows matching⟩

-- A walk that ends has been led to the end

variable {listed : List DirentOut}

theorem accepted_of_listing {turns calls n cursor : Nat} (directory : image.Directory inum)
    (coherent : image.Coherent inum held)
    (walked : image.listing clock others turns inum calls n cursor held = some listed)
    : image.inodeSize (image.inode inum) ≤ image.blocksCount * image.format.blockSize := by
  obtain ⟨positive, counted, isDir⟩ := directory
  cases calls with
  | zero => cases walked
  | succ calls =>
      have read : image.readInode held inum
          = some { image.inode inum with atime := held.atime inum } := by
        rw [readInode, if_neg (by omega)]
      by_contra refused
      have length : image.inodeLength (image.inode inum) = none := by
        simp only [inodeLength]
        rw [if_pos (by omega)]
      have touched := coherent.touchAtime (clock n) inum
        { image.inode inum with atime := held.atime inum }
      have closed : image.openDir inum { image.inode inum with atime := held.atime inum }
          (image.touchAtime (clock n) inum { image.inode inum with atime := held.atime inum }
            held) = none := by
        unfold Image.openDir
        rw [if_pos (fun here => by have := (touched here).size; rw [length] at this; cases this)]
        have same : image.inodeLength { image.inode inum with atime := held.atime inum } = none :=
          length
        rw [same, Option.map_none]
      simp only [listing, readdir, read, isDir, ne_eq, not_true_eq_false, if_false, closed] at walked
      cases walked

-- Listing and lookup

/-- A complete walk ends and lists each live entry that names a live file or directory once, and
a name is in the listing where `ext2_dirent_find` finds an entry of it and that names one.
-/
def ListsAsFound (image : Image) (clock : Nat → Nat) (others : Nat → Held → Held) (inum : Nat)
    (held : Held) : Prop :=
  ∃ turns calls offs listed,
    image.listing clock others turns inum calls 0 0 held = some listed
    ∧ image.Leads (image.inode inum) 0 offs
    ∧ offs.Pairwise (· < ·)
    ∧ List.Forall₂ image.Shows (offs.filterMap (image.entryAt (image.inode inum))) listed
    ∧ ∀ name,
        name ∈ listed.map DirentOut.shown
        ↔ ∃ found, image.direntFind (image.inode inum) name = some (some found)
          ∧ (image.child found).isSome

/-- When the two agree: the volume holds the length; the records lead to the end of the directory
within the 32 bits of the cursor; every name that is listed is one a path can carry, and the
first record of it that a search comes to names a live inode too; and where the first record of
a name does, the name is listed as it is.
-/
structure Agreeing (image : Image) (hdr : InodeHdr) (offs : List Nat) : Prop where
  accepted : image.inodeSize hdr ≤ image.blocksCount * image.format.blockSize
  leads : image.Leads hdr 0 offs
  findable
    : ∀ off ∈ offs, ∀ entry ∈ image.entryAt hdr off,
        direntNameOk entry.shown = true
        ∧ ∃ first d, image.FirstBearer hdr entry.shown first d ∧ (image.child d.inode).isSome
  listed
    : ∀ name first d,
        direntNameOk name = true
        → image.FirstBearer hdr name first d
        → (image.child d.inode).isSome
        → ∃ off ∈ offs, ∃ entry ∈ image.entryAt hdr off, entry.shown = name

theorem Shows.shown {entry : LiveEntry} {out : DirentOut} (shows : image.Shows entry out)
    : out.shown = entry.shown := by
  unfold DirentOut.shown LiveEntry.shown
  rw [shows.name]
  induction entry.name with
  | nil => rfl
  | cons byte rest ih =>
      by_cases zero : byte = 0
      · simp [zero]
      · simpa [List.takeWhile_cons, zero] using ih

theorem mem_shown (matching
      : List.Forall₂ image.Shows (offs.filterMap (image.entryAt hdr)) listed)
    (name : Name)
    : name ∈ listed.map DirentOut.shown
      ↔ ∃ off ∈ offs, ∃ entry ∈ image.entryAt hdr off, entry.shown = name := by
  have names : listed.map DirentOut.shown
      = (offs.filterMap (image.entryAt hdr)).map LiveEntry.shown := by
    generalize offs.filterMap (image.entryAt hdr) = entries at matching
    induction matching with
    | nil => rfl
    | cons shows _ ih => rw [List.map_cons, List.map_cons, shows.shown, ih]
  rw [names]
  simp only [List.mem_map, List.mem_filterMap, Option.mem_def]
  constructor
  · rintro ⟨entry, ⟨off, here, stands⟩, same⟩
    exact ⟨off, here, entry, stands, same⟩
  · rintro ⟨off, here, entry, stands, same⟩
    exact ⟨entry, ⟨off, here, stands⟩, same⟩

theorem found_iff (directory : image.Directory inum)
    (accepted
      : image.inodeSize (image.inode inum) ≤ image.blocksCount * image.format.blockSize)
    (name : Name)
    : (∃ found, image.direntFind (image.inode inum) name = some (some found)
        ∧ (image.child found).isSome)
      ↔ direntNameOk name = true
        ∧ ∃ first d, image.FirstBearer (image.inode inum) name first d
          ∧ (image.child d.inode).isSome := by
  have fits : (image.inode inum).size ≤ image.blocksCount * image.format.blockSize := by
    refine Nat.le_trans ?_ accepted
    unfold inodeSize
    split
    · exact Nat.right_le_or
    · exact Nat.le_refl _
  obtain ⟨found, searched, first⟩ := direntFind_spec directory.isDir fits name
  constructor
  · rintro ⟨number, same, live⟩
    rw [searched] at same
    obtain ⟨ok, off, d, bears, rfl⟩ := (first number).mp (Option.some.inj same)
    exact ⟨ok, off, d, bears, live⟩
  · rintro ⟨ok, off, d, bears, live⟩
    have same := (first d.inode).mpr ⟨ok, off, d, bears, rfl⟩
    exact ⟨d.inode, by rw [searched, same], live⟩

theorem agreeing_of_listsAsFound (directory : image.Directory inum)
    (coherent : image.Coherent inum held)
    (agrees : image.ListsAsFound clock others inum held)
    : ∃ offs, image.Agreeing (image.inode inum) offs := by
  obtain ⟨turns, calls, offs, listed, walked, leads, _, matching, same⟩ := agrees
  have accepted := accepted_of_listing directory coherent walked
  refine ⟨offs, accepted, leads, ?_, ?_⟩
  · intro off here entry stands
    apply (found_iff directory accepted _).mp
    exact (same _).mp ((mem_shown matching _).mpr ⟨off, here, entry, stands, rfl⟩)
  · intro name first d ok bears live
    apply (mem_shown matching name).mp
    exact (same name).mpr ((found_iff directory accepted name).mpr ⟨ok, first, d, bears, live⟩)

/-- Listing a directory agrees with looking its names up exactly where the directory is of that
kind.
-/
theorem listing_agrees (directory : image.Directory inum) (quiet : image.Quiet inum others)
    (coherent : image.Coherent inum held)
    : image.ListsAsFound clock others inum held
      ↔ ∃ offs, image.Agreeing (image.inode inum) offs := by
  refine ⟨agreeing_of_listsAsFound directory coherent, ?_⟩
  rintro ⟨offs, accepted, leads, findable, listed⟩
  obtain ⟨shown, walked, matching⟩ := listing_leads directory quiet accepted (offs.length + 1)
    (offs.length + 1) 0 coherent leads (Nat.lt_succ_self _) (Nat.lt_succ_self _)
  refine ⟨_, _, offs, shown, walked, leads, leads.increasing, matching, ?_⟩
  intro name
  rw [mem_shown matching name, found_iff directory accepted name]
  constructor
  · rintro ⟨off, here, entry, stands, rfl⟩
    exact findable off here entry stands
  · rintro ⟨ok, first, d, bears, live⟩
    exact listed name first d ok bears live

-- Two small directories

/-- A volume of 64 blocks of 1 KiB: inode 2 is a directory of block 20, which holds these bytes,
and every other inode is a live file.
-/
def smallImage (buf : Memory) : Image where
  format := ⟨1024, true, Format.kilobyte⟩
  blocksCount := 64
  inodesCount := 16
  largeFiles := false
  readOnly := true
  disk := fun _ => buf
  inode := fun number =>
    ⟨if number = 2 then 0x41ED else 0x81A4, 1024, 0, 0, 0, 0, fun _ => 20, 0, by decide⟩

def nothingHeld : Held := ⟨fun _ => 0, 0, 0, 0, fun _ => 0, fun _ => 0⟩

def oneEntry : Memory :=
  Memory.store (fun _ => 0) 0 ((DirentHdr.mk 11 1024 1 1).bytes ++ [0x61])

/-- A record without a name, and an entry behind it. -/
def nameless : Memory :=
  Memory.store (fun _ => 0) 0
    ((DirentHdr.mk 12 12 0 1).bytes ++ [0, 0, 0, 0] ++ (DirentHdr.mk 11 1012 1 1).bytes ++ [0x61])

theorem smallImage_directory (buf : Memory) : (smallImage buf).Directory 2 :=
  ⟨by decide, show 2 ≤ 16 by decide,
    show (if 2 = 2 then 0x41ED else 0x81A4) &&& EXT2_S_IFMT = EXT2_S_IFDIR by decide⟩

theorem nothingHeld_coherent (buf : Memory) : (smallImage buf).Coherent 2 nothingHeld :=
  nofun

theorem oneEntry_bears {name : Name} {d : DirentHdr}
    (bears : (smallImage oneEntry).Bears ((smallImage oneEntry).inode 2) name off d)
    : off = 0 ∧ d = ⟨11, 1024, 1, 1⟩ ∧ name = [0x61] := by
  obtain ⟨within, buf, read, bears⟩ := bears
  have short : off / 1024 < 1 := within
  have block : off / (smallImage oneEntry).format.blockSize = 0 := Nat.lt_one_iff.mp within
  rw [block] at read
  obtain rfl : oneEntry = buf := Option.some.inj read
  have inside : off % 1024 < 1024 := bears_inside bears
  have stands : (smallImage oneEntry).format.direntAt oneEntry 0
      = some (.record ⟨11, 1024, 1, 1⟩) := by
    decide +kernel
  have first : off % 1024 = 0 := by
    rcases Nat.eq_zero_or_pos (off % 1024) with zero | later
    · exact zero
    · obtain ⟨e, standing, _, ends⟩ := Format.Trusted.first.behind_of_lt bears.trusted later
      rw [stands] at standing
      obtain rfl := Option.some.inj standing |> RecordChain.Slot.record.inj
      have past : 0 + 1024 ≤ off % 1024 := ends
      omega
  have here : off % (smallImage oneEntry).format.blockSize = 0 := first
  have standing := bears.stands
  rw [here, stands] at standing
  obtain rfl := Option.some.inj standing |> RecordChain.Slot.record.inj
  refine ⟨by omega, rfl, ?_⟩
  rw [← bears.named, here]
  decide +kernel

/-- A directory of one entry is listed as its name is found. -/
theorem listing_agrees_small
    : (smallImage oneEntry).ListsAsFound (fun _ => 0) (fun _ held => held) 2 nothingHeld := by
  apply (listing_agrees (smallImage_directory oneEntry) (fun _ _ coherent => coherent)
    (nothingHeld_coherent oneEntry)).mpr
  have bearer : (smallImage oneEntry).FirstBearer ((smallImage oneEntry).inode 2) [0x61] 0
      ⟨11, 1024, 1, 1⟩ := by
    refine ⟨⟨by decide, oneEntry, rfl, .first, by decide +kernel, by decide, by decide +kernel⟩, ?_⟩
    exact fun other _ _ => Nat.zero_le other
  have entry : (smallImage oneEntry).entryAt ((smallImage oneEntry).inode 2) 0
      = some ⟨[0x61], .file, (smallImage oneEntry).inode 11⟩ := by
    rfl
  refine ⟨[0], by decide, .on (by decide) (.done ?_ ?_), ?_, ?_⟩
  · decide +kernel
  · decide +kernel
  · intro off here found stands
    obtain rfl : off = 0 := by simpa using here
    rw [entry] at stands
    obtain rfl := Option.some.inj stands
    exact ⟨by decide, 0, _, bearer, by decide⟩
  · intro name first d _ bears _
    obtain ⟨rfl, rfl, rfl⟩ := oneEntry_bears bears.1
    exact ⟨0, by simp, _, entry, by decide⟩

/-- The name behind a record without a name is listed, and is not found. -/
theorem nameless_hides
    : ¬(smallImage nameless).ListsAsFound (fun _ => 0) (fun _ held => held) 2 nothingHeld := by
  rintro ⟨_, _, offs, listed, _, leads, _, matching, same⟩
  have next : (smallImage nameless).behind ((smallImage nameless).inode 2) 0 = 12 := by
    decide +kernel
  have here : 12 ∈ offs := by
    cases leads with
    | done past _ => exact absurd past (by decide)
    | on _ rest =>
        rw [next] at rest
        cases rest with
        | done past _ => exact absurd past (by decide)
        | on _ _ => simp
  have entry : (smallImage nameless).entryAt ((smallImage nameless).inode 2) 12
      = some ⟨[0x61], .file, (smallImage nameless).inode 11⟩ := by
    rfl
  obtain ⟨found, searched, _⟩ := (same [0x61]).mp
    ((mem_shown matching _).mpr ⟨12, here, _, entry, by decide⟩)
  have missed : (smallImage nameless).direntFind ((smallImage nameless).inode 2) [0x61]
      = some none := by
    decide +kernel
  rw [missed] at searched
  cases searched

end Image

end Panuti.Ext2
