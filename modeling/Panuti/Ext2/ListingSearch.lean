import Panuti.Ext2.Listing

/-! What `ext2_dirent_find` finds in a directory of arbitrary bytes: the first record of the name
that its loops come to.
-/

namespace Panuti.Ext2

open ByteMemory RecordChain

/-- A record that is in use and whose name lies inside of it. -/
def DirentHdr.Sound (d : DirentHdr) : Prop :=
  d.inode ≠ 0 ∧ d.nameLen ≠ 0 ∧ d.nameLen ≤ d.recLen - HDR_LEN

instance (d : DirentHdr) : Decidable d.Sound := by
  unfold DirentHdr.Sound
  infer_instance

namespace Format

variable {format : Format} {buf : Memory} {name : Name}

/-- The offsets of a block that a search comes to: it goes on behind a record that is sound or
not in use, and behind no other.
-/
inductive Trusted (format : Format) (buf : Memory) : Nat → Prop
  | first : Trusted format buf 0
  | behind {off : Nat} {d : DirentHdr} (before : Trusted format buf off)
    (stands : format.direntAt buf off = some (.record d)) (settled : d.inode = 0 ∨ d.Sound)
    : Trusted format buf (off + d.recLen)

/-- The record `d` at `off` has this name, and a search comes to it. -/
structure Bears (format : Format) (buf : Memory) (name : Name) (off : Nat) (d : DirentHdr)
    : Prop where
  trusted : format.Trusted buf off
  stands : format.direntAt buf off = some (.record d)
  sound : d.Sound
  named : buf.bytes (off + HDR_LEN) d.nameLen = name

-- The offsets a search comes to stand in one row

theorem Trusted.behind_of_lt {off later : Nat} (comes : format.Trusted buf off)
    (comesLater : format.Trusted buf later) (before : off < later)
    : ∃ d, format.direntAt buf off = some (.record d) ∧ (d.inode = 0 ∨ d.Sound)
        ∧ off + d.recLen ≤ later := by
  induction comesLater generalizing off with
  | first => omega
  | @behind last d _ stands settled ih =>
      -- no offset lies inside of the record at `last`
      have skips {place : Nat} (reached : format.Trusted buf place) (past : last < place)
          : last + d.recLen ≤ place := by
        induction reached with
        | first => omega
        | @behind inner e reached inside _ ihInner =>
            rcases Nat.lt_trichotomy inner last with less | same | more
            · obtain ⟨other, standing, _, ends⟩ := ih reached less
              rw [inside] at standing
              obtain rfl : e = other := by simpa using standing
              omega
            · subst same
              rw [inside] at stands
              obtain rfl : e = d := by simpa using stands
              exact Nat.le_refl _
            · have := ihInner more
              omega
      rcases Nat.lt_trichotomy off last with less | same | more
      · obtain ⟨other, standing, done, ends⟩ := ih comes less
        exact ⟨other, standing, done, by omega⟩
      · subst same
        exact ⟨d, stands, settled, Nat.le_refl _⟩
      · have := skips comes more
        omega

theorem look_spec {off : Nat} {d : DirentHdr}
    (stands : format.direntAt buf off = some (.record d))
    : ∃ seen, format.look buf name off d = some seen
        ∧ match seen with
          | .deleted => d.inode = 0
          | .malformed => d.inode ≠ 0 ∧ ¬d.Sound
          | .named => d.Sound ∧ buf.bytes (off + HDR_LEN) d.nameLen = name
          | .other => d.Sound ∧ buf.bytes (off + HDR_LEN) d.nameLen ≠ name := by
  obtain ⟨long, _, inside, _⟩ := direntAt_record stands
  unfold look
  by_cases unused : d.inode = 0
  · exact ⟨.deleted, by rw [if_pos unused], unused⟩
  rw [if_neg unused]
  by_cases bad : d.nameLen = 0 ∨ d.recLen - HDR_LEN < d.nameLen
  · refine ⟨.malformed, by rw [if_pos bad], unused, ?_⟩
    rintro ⟨_, some, fits⟩
    omega
  have sound : d.Sound := by
    simp only [not_or, Nat.not_lt] at bad
    exact ⟨unused, bad⟩
  rw [if_neg bad]
  by_cases long : d.nameLen = name.length
  · have within : off + HDR_LEN + name.length ≤ format.blockSize := by
      have fits := sound.2.2
      omega
    rw [if_pos long]
    simp only [sameName, if_pos within, Option.map_some]
    by_cases same : buf.bytes (off + HDR_LEN) name.length = name
    · exact ⟨.named, by simp [same], sound, by rw [long, same]⟩
    · exact ⟨.other, by simp [same], sound, by rw [long]; exact same⟩
  · refine ⟨.other, by rw [if_neg long], sound, ?_⟩
    intro same
    apply long
    rw [← same, Memory.length_bytes]

/-- The first record of the name in the block, or that there is none. -/
def FirstIn (format : Format) (buf : Memory) (name : Name) : Option (Nat × DirentHdr) → Prop
  | none => ∀ off d, ¬format.Bears buf name off d
  | some (off, d) =>
      format.Bears buf name off d
        ∧ ∀ other d', format.Bears buf name other d' → off ≤ other

def reported : Ended Unit (Option (Nat × DirentHdr)) → Option (Nat × DirentHdr)
  | .unused _ => none
  | .broken _ => none
  | .stopped found => found

/-- The search from an offset it comes to, where no record before has the name. -/
theorem search_walk (turns off : Nat) (ended : Ended Unit (Option (Nat × DirentHdr)))
    (comes : format.Trusted buf off)
    (missed : ∀ other d, format.Bears buf name other d → off ≤ other)
    (walked : walk (format.direntAt buf) DirentHdr.recLen (format.searchVisit buf name) turns
      off () = some ended)
    : format.FirstIn buf name (reported ended) := by
  induction turns generalizing off with
  | zero => cases walked
  | succ turns ih =>
      -- a search that comes no further has missed nothing
      have stuck
          (barred
            : ∀ d, format.direntAt buf off = some (.record d) → d.inode ≠ 0 ∧ ¬d.Sound)
          : ∀ other d, ¬format.Bears buf name other d := by
        intro other d bears
        rcases Nat.lt_or_ge off other with later | here
        · obtain ⟨e, stands, settled, _⟩ := comes.behind_of_lt bears.trusted later
          obtain ⟨used, malformed⟩ := barred e stands
          exact settled.elim used malformed
        · obtain rfl : off = other := Nat.le_antisymm (missed other d bears) here
          exact (barred d bears.stands).2 bears.sound
      obtain ⟨slot, stands⟩ := direntAt_readable format buf off
      cases slot with
      | unused =>
          simp only [walk, stands, Option.some.injEq] at walked
          subst walked
          exact stuck (fun d standing => by rw [stands] at standing; cases standing)
      | broken =>
          simp only [walk, stands, Option.some.injEq] at walked
          subst walked
          exact stuck (fun d standing => by rw [stands] at standing; cases standing)
      | record d =>
          have same {e : DirentHdr} (standing : format.direntAt buf off = some (.record e))
              : d = e := by
            rw [stands] at standing
            simpa using standing
          -- where this record is not of the name, the next to look at stands behind it
          have passes (settled : d.inode = 0 ∨ d.Sound)
              (unnamed : ¬(d.Sound ∧ buf.bytes (off + HDR_LEN) d.nameLen = name))
              : ∀ other e, format.Bears buf name other e → off + d.recLen ≤ other := by
            intro other e bears
            rcases Nat.lt_or_ge off other with later | here
            · obtain ⟨first, standing, _, ends⟩ := comes.behind_of_lt bears.trusted later
              rw [same standing]
              exact ends
            · obtain rfl : off = other := Nat.le_antisymm (missed other e bears) here
              obtain rfl := same bears.stands
              exact absurd ⟨bears.sound, bears.named⟩ unnamed
          obtain ⟨seen, looked, means⟩ := @look_spec format buf name off d stands
          simp only [walk, stands, searchVisit, looked, Option.map_some] at walked
          cases seen with
          | deleted =>
              exact ih _ (comes.behind stands (Or.inl means))
                (passes (Or.inl means) (fun named => named.1.1 means)) walked
          | other =>
              exact ih _ (comes.behind stands (Or.inr means.1))
                (passes (Or.inr means.1) (fun named => means.2 named.2)) walked
          | malformed =>
              simp only [Option.some.injEq] at walked
              subst walked
              exact stuck (fun e standing => by rw [← same standing]; exact means)
          | named =>
              simp only [Option.some.injEq] at walked
              subst walked
              exact ⟨⟨comes, stands, means.1, means.2⟩, missed⟩

theorem search_first (format : Format) (buf : Memory) (name : Name)
    : ∃ found, format.search buf name = some found ∧ format.FirstIn buf name found := by
  obtain ⟨found, searched, _⟩ := search_ends format buf name
  refine ⟨found, searched, ?_⟩
  rw [search, Option.map_eq_some_iff] at searched
  obtain ⟨ended, walked, rfl⟩ := searched
  have first := search_walk _ 0 ended .first (fun _ _ _ => Nat.zero_le _) walked
  cases ended <;> exact first

end Format

namespace Image

variable {image : Image} {hdr : InodeHdr} {name : Name}

/-- The record `d` at byte `off` of the directory has this name, and the search of its block
comes to it.
-/
def Bears (image : Image) (hdr : InodeHdr) (name : Name) (off : Nat) (d : DirentHdr) : Prop :=
  off / image.format.blockSize < image.searchedBlocks hdr
    ∧ ∃ buf, image.dirBlock hdr (off / image.format.blockSize) = some buf
      ∧ image.format.Bears buf name (off % image.format.blockSize) d

/-- The first record of the name that a search comes to. -/
def FirstBearer (image : Image) (hdr : InodeHdr) (name : Name) (off : Nat) (d : DirentHdr)
    : Prop :=
  image.Bears hdr name off d ∧ ∀ other e, image.Bears hdr name other e → off ≤ other

theorem FirstBearer.unique {one two : Nat} {d e : DirentHdr}
    (first : image.FirstBearer hdr name one d) (second : image.FirstBearer hdr name two e)
    : d = e := by
  obtain rfl : one = two :=
    Nat.le_antisymm (first.2 two e second.1) (second.2 one d first.1)
  obtain ⟨⟨_, buf, read, bears⟩, _⟩ := first
  obtain ⟨⟨_, other, readOther, bearsOther⟩, _⟩ := second
  obtain rfl : buf = other := by
    rw [read] at readOther
    exact Option.some.inj readOther
  have stands := bears.stands
  rw [bearsOther.stands] at stands
  simpa using stands.symm

theorem place_of_block (format : Format) (index : Nat) {off : Nat} (inside : off < format.blockSize)
    : (index * format.blockSize + off) / format.blockSize = index
      ∧ (index * format.blockSize + off) % format.blockSize = off := by
  have positive : 0 < format.blockSize := by omega
  rw [Nat.mul_comm]
  exact ⟨by rw [Nat.mul_add_div positive, Nat.div_eq_of_lt inside, Nat.add_zero],
    by rw [Nat.mul_add_mod, Nat.mod_eq_of_lt inside]⟩

theorem bears_inside {format : Format} {buf : Memory} {off : Nat} {d : DirentHdr}
    (bears : format.Bears buf name off d)
    : off < format.blockSize := by
  obtain ⟨positive, inside⟩ := Format.direntAt_moves format buf off d bears.stands
  omega

/-- The loop over the blocks finds the first record of the name in the blocks it goes through. -/
theorem findBlocks_spec (image : Image) (hdr : InodeHdr) (name : Name) (count index : Nat)
    (last : index + count = image.searchedBlocks hdr)
    (missed
      : ∀ off d, image.Bears hdr name off d → index ≤ off / image.format.blockSize)
    : ∃ found, image.findBlocks hdr name count index = some found
        ∧ ∀ inum, found = some inum ↔ ∃ off d, image.FirstBearer hdr name off d ∧ d.inode = inum := by
  induction count generalizing index with
  | zero =>
      refine ⟨none, rfl, ?_⟩
      intro inum
      refine ⟨nofun, ?_⟩
      rintro ⟨off, d, ⟨bears, _⟩, _⟩
      have := missed off d bears
      have := bears.1
      omega
  | succ count ih =>
      cases read : image.dirBlock hdr index with
      | none =>
          simp only [findBlocks, read]
          refine ih (index + 1) (by omega) ?_
          intro off d bears
          have least := missed off d bears
          rcases Nat.lt_or_ge index (off / image.format.blockSize) with later | here
          · exact later
          · obtain ⟨_, buf, readHere, _⟩ := bears
            rw [Nat.le_antisymm here least, read] at readHere
            cases readHere
      | some buf =>
          obtain ⟨found, searched, first⟩ := Format.search_first image.format buf name
          cases found with
          | none =>
              have none : image.format.direntFind buf name = some none := by
                rw [Format.direntFind, searched]
                rfl
              simp only [findBlocks, read, none]
              refine ih (index + 1) (by omega) ?_
              intro off d bears
              have least := missed off d bears
              rcases Nat.lt_or_ge index (off / image.format.blockSize) with later | here
              · exact later
              · obtain ⟨_, other, readHere, bears⟩ := bears
                rw [Nat.le_antisymm here least, read] at readHere
                obtain rfl := Option.some.inj readHere
                exact absurd bears (first _ d)
          | some place =>
              obtain ⟨off, d⟩ := place
              obtain ⟨bears, least⟩ := first
              have found : image.format.direntFind buf name = some (some d.inode) := by
                rw [Format.direntFind, searched]
                rfl
              have place := place_of_block image.format index (bears_inside bears)
              -- it is the first of the directory too: no block before has one
              have firstBearer : image.FirstBearer hdr name
                  (index * image.format.blockSize + off) d := by
                refine ⟨⟨by rw [place.1]; omega, buf, by rw [place.1, read],
                  by rw [place.2]; exact bears⟩, ?_⟩
                intro other e bearsOther
                have least' := missed other e bearsOther
                have whole := Nat.div_add_mod other image.format.blockSize
                rcases Nat.lt_or_ge index (other / image.format.blockSize) with later | here
                · have inside := bears_inside bears
                  have more : (index + 1) * image.format.blockSize
                      ≤ other / image.format.blockSize * image.format.blockSize :=
                    Nat.mul_le_mul_right _ later
                  rw [Nat.add_mul] at more
                  have commutes := Nat.mul_comm (other / image.format.blockSize)
                    image.format.blockSize
                  omega
                · have same := Nat.le_antisymm here least'
                  obtain ⟨_, otherBuf, readOther, bearsOther⟩ := bearsOther
                  rw [same, read] at readOther
                  obtain rfl := Option.some.inj readOther
                  have := least _ e bearsOther
                  rw [same, Nat.mul_comm] at whole
                  omega
              refine ⟨some d.inode, by simp only [findBlocks, read, found], ?_⟩
              intro inum
              constructor
              · intro same
                exact ⟨_, d, firstBearer, Option.some.inj same⟩
              · rintro ⟨_, e, first, rfl⟩
                rw [firstBearer.unique first]

theorem direntFind_spec (isDir : hdr.mode &&& EXT2_S_IFMT = EXT2_S_IFDIR)
    (fits : hdr.size ≤ image.blocksCount * image.format.blockSize) (name : Name)
    : ∃ found, image.direntFind hdr name = some found
        ∧ ∀ inum,
            found = some inum
            ↔ direntNameOk name = true
              ∧ ∃ off d, image.FirstBearer hdr name off d ∧ d.inode = inum := by
  have bounded : ¬image.blocksCount * image.format.blockSize < hdr.size := by omega
  cases ok : direntNameOk name with
  | false => exact ⟨none, by simp [direntFind, isDir, ok], by simp⟩
  | true =>
      obtain ⟨found, searched, first⟩ := findBlocks_spec image hdr name
        (image.searchedBlocks hdr) 0 (by omega) (fun _ _ _ => Nat.zero_le _)
      refine ⟨found, by simp [direntFind, isDir, ok, bounded, searched], ?_⟩
      intro inum
      rw [first inum]
      exact ⟨fun firstBearer => ⟨rfl, firstBearer⟩, And.right⟩

end Image

end Panuti.Ext2
