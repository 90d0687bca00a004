import Panuti.Memory.Vmm

/-! The ELF loader: `elf32_parse` over the bytes of a file, and `elf_load_segments`, which fills
new frames through a scratch page and maps them into an address space.
-/

namespace Panuti.Elf

open Panuti.Vmm

-- elf32.c

inductive ElfError where
  | tooSmall
  | badMagic
  | wrongClass
  | wrongEndian
  | wrongType
  | wrongMachine
  | phdrOutOfBounds
  | tooManySegments
deriving Repr, DecidableEq

/-- `elf_loadable_segment_t`. -/
structure Segment where
  vaddr : Nat
  offset : Nat
  filesz : Nat
  memsz : Nat
  flags : Nat
deriving Repr, DecidableEq

def EHDR_SIZE : Nat := 52
def PHDR_SIZE : Nat := 32

def byteAt (data : List UInt8) (place : Nat) : Nat := (data.getD place 0).toNat

def halfAt (data : List UInt8) (place : Nat) : Nat :=
  byteAt data place + 256 * byteAt data (place + 1)

def wordAt (data : List UInt8) (place : Nat) : Nat :=
  halfAt data place + 65536 * halfAt data (place + 2)

/-- The loop over the program headers: `left` of them from the `i`-th on, where the segments
`segs` were found before.
-/
def parsePhdrs (data : List UInt8) (phoff phentsize maxSegs : Nat)
    : (left i : Nat) → List Segment → Except ElfError (List Segment)
  | 0, _, segs => .ok segs
  | left + 1, i, segs =>
      let phdr := phoff + i * phentsize
      if wordAt data phdr ≠ 1 then parsePhdrs data phoff phentsize maxSegs left (i + 1) segs
      else if data.length < wordAt data (phdr + 4) + wordAt data (phdr + 16) then
        .error .phdrOutOfBounds
      else if maxSegs ≤ segs.length then .error .tooManySegments
      else
        let segment := ⟨wordAt data (phdr + 8), wordAt data (phdr + 4), wordAt data (phdr + 16),
          wordAt data (phdr + 20), wordAt data (phdr + 24)⟩
        parsePhdrs data phoff phentsize maxSegs left (i + 1) (segs ++ [segment])

/-- `elf32_parse`: the loadable segments and the entry point. -/
def elf32Parse (data : List UInt8) (maxSegs : Nat) : Except ElfError (List Segment × Nat) :=
  if data.length < EHDR_SIZE then .error .tooSmall
  else if byteAt data 0 ≠ 0x7F ∨ byteAt data 1 ≠ 0x45 ∨ byteAt data 2 ≠ 0x4C
      ∨ byteAt data 3 ≠ 0x46 then
    .error .badMagic
  else if byteAt data 4 ≠ 1 then .error .wrongClass
  else if byteAt data 5 ≠ 1 then .error .wrongEndian
  else if halfAt data 16 ≠ 2 then .error .wrongType
  else if halfAt data 18 ≠ 3 then .error .wrongMachine
  else
    let phoff := wordAt data 28
    let phentsize := halfAt data 42
    let phnum := halfAt data 44
    if data.length < phoff + phentsize * phnum then .error .phdrOutOfBounds
    else if phentsize < PHDR_SIZE then .error .phdrOutOfBounds
    else
      match parsePhdrs data phoff phentsize maxSegs phnum 0 [] with
      | .error code => .error code
      | .ok segs => .ok (segs, wordAt data 24)

-- elf.c

def MAX_SEG_PAGES : Nat := 256
def ELF_LOAD_SCRATCH : Nat := 0xC0A00000
def PF_W : Nat := 2

def Segment.pageStart (seg : Segment) : Nat := seg.vaddr % 2 ^ 32 / PAGE_SIZE * PAGE_SIZE

def Segment.inPageOff (seg : Segment) : Nat := seg.vaddr % 2 ^ 32 - seg.pageStart

def Segment.span (seg : Segment) : Nat := seg.inPageOff + seg.memsz

def Segment.numPages (seg : Segment) : Nat := (seg.span + PAGE_SIZE - 1) / PAGE_SIZE

def Segment.mapFlags (seg : Segment) : Nat :=
  if seg.flags &&& PF_W ≠ 0 then PAGE_PRESENT ||| PAGE_USER ||| PAGE_RW
  else PAGE_PRESENT ||| PAGE_USER

/-- The loop that collects the frames of a segment, the first ones first. -/
def allocFrames (machine : Machine) (frames : List Nat) : Nat → Bool × List Nat × Machine
  | 0 => (true, frames, machine)
  | left + 1 =>
      let (phys, machine) := pmmAllocp machine
      if phys = 0 then (false, frames, frames.foldl pmmFreep machine)
      else allocFrames machine (frames ++ [phys]) left

/-- The loop that fills one page: `left` bytes from `off` on, or fewer where the segment ends. -/
def copyBytes (data : List UInt8) (seg : Segment) (p : Nat) (machine : Machine)
    : (left off : Nat) → Option Machine
  | 0, _ => some machine
  | left + 1, off =>
      let segByte := p * PAGE_SIZE + off - seg.inPageOff
      if seg.memsz ≤ segByte then some machine
      else
        let byte :=
          if segByte < seg.filesz then data.getD ((seg.offset + segByte) % 2 ^ 32) 0 else 0
        match machine.writeByte (ELF_LOAD_SCRATCH + off) byte with
        | none => none
        | some machine => copyBytes data seg p machine left (off + 1)

/-- Fill the frame of the `p`-th page through the scratch page. -/
def fillFrame (data : List UInt8) (seg : Segment) (machine : Machine) (p phys : Nat)
    : Option Machine :=
  let start := if p = 0 then seg.inPageOff else 0
  match vmmMap machine ELF_LOAD_SCRATCH phys (PAGE_PRESENT ||| PAGE_RW) with
  | none => none
  | some machine =>
      match copyBytes data seg p machine (PAGE_SIZE - start) start with
      | none => none
      | some machine => vmmUnmap machine ELF_LOAD_SCRATCH

/-- The loop over the pages of a segment, from the `p`-th on. -/
def fillFrames (data : List UInt8) (seg : Segment) (machine : Machine) (p : Nat)
    : List Nat → Option Machine
  | [] => some machine
  | phys :: rest =>
      match fillFrame data seg machine p phys with
      | none => none
      | some machine => fillFrames data seg machine (p + 1) rest

/-- One turn of the loop in `elf_load_segments`: `false` when it returns -1. -/
def loadSegment (machine : Machine) (addrSpace : Nat) (data : List UInt8) (seg : Segment)
    : Option (Bool × Machine) :=
  if MAX_SEG_PAGES * PAGE_SIZE < seg.span then some (false, machine)
  else
    match allocFrames machine [] seg.numPages with
    | (false, _, machine) => some (false, machine)
    | (true, frames, machine) =>
        match vmmMapInRun machine addrSpace seg.pageStart frames seg.mapFlags with
        | none => none
        | some machine =>
            (fillFrames data seg machine 0 frames).map (fun machine => (true, machine))

def elfLoadSegments (machine : Machine) (addrSpace : Nat) (data : List UInt8)
    : List Segment → Option (Bool × Machine)
  | [] => some (true, machine)
  | seg :: rest =>
      match loadSegment machine addrSpace data seg with
      | none => none
      | some (false, machine) => some (false, machine)
      | some (true, machine) => elfLoadSegments machine addrSpace data rest

/-- What `task_procreate` does with the bytes of a file: `false` where it gives up. -/
def loadImage (machine : Machine) (addrSpace : Nat) (data : List UInt8)
    : Option (Bool × Machine) :=
  match elf32Parse data 16 with
  | .error _ => some (false, machine)
  | .ok (segs, _) => elfLoadSegments machine addrSpace data segs

end Panuti.Elf
