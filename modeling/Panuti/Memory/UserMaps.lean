import Panuti.Library.Word32
import Panuti.Memory.FreeRuns

/-! Anonymous user memory: what `vmm.c` does for it, and the system calls MMAPAN and MUNMAP. There
is no result where the kernel faults.
-/

namespace Panuti.Vmm

open ByteMemory PageTable

def PAGE_DIR_TEMP_MAP : Nat := 0xC0800000

-- vmm.c

/-- `vmm_get_phys`: the frame of a mapped page, or 0. -/
def vmmGetPhys (machine : Machine) (virtAddr : Nat) : Option Nat := do
  let pde ← machine.readWord (currentPageDir + 4 * (virtAddr / 2 ^ 22))
  if present pde = false then some 0
  else
    let pte ← machine.readWord
      (pteGetTable (virtAddr / 2 ^ 22) + 4 * (virtAddr / 2 ^ 12 % 1024))
    if present pte = false then some 0 else some (frame pte)

def vmmZeroFrame (machine : Machine) (phys : Nat) : Option Machine := do
  let machine ← vmmMap machine PAGE_DIR_TEMP_MAP phys PAGE_RW
  let found ← vmmGetPhys machine PAGE_DIR_TEMP_MAP
  let machine ← (if found = phys then machine.zeroPage PAGE_DIR_TEMP_MAP else some machine)
  vmmUnmap machine PAGE_DIR_TEMP_MAP

/-- The loop of `vmm_map_zeroed_run`: `false` where a page could not be mapped. -/
def mapZeroed (flags : Nat) (machine : Machine) (virt : Nat)
    : List Nat → Option (Bool × Machine)
  | [] => some (true, machine)
  | phys :: rest => do
      let machine ← vmmZeroFrame machine phys
      let machine ← vmmMap machine virt phys flags
      let found ← vmmGetPhys machine virt
      if found ≠ phys then some (false, machine)
      else mapZeroed flags machine ((virt + PAGE_SIZE) % 2 ^ 32) rest

/-- The loop that unmaps a run whose mapping failed. -/
def unmapRun (machine : Machine) (virt : Nat) : (count : Nat) → Option Machine
  | 0 => some machine
  | count + 1 => do
      let machine ← vmmUnmap machine virt
      unmapRun machine ((virt + PAGE_SIZE) % 2 ^ 32) count

/-- `vmm_map_zeroed_run`: `false` where it returns -1. -/
def vmmMapZeroedRun (machine : Machine) (virt : Nat) (phys : List Nat) (flags : Nat)
    : Option (Bool × Machine) := do
  let (mapped, machine) ← mapZeroed flags machine virt phys
  if mapped then some (true, machine)
  else
    let machine ← unmapRun machine virt phys.length
    some (false, machine)

def vmmUnmapRunFree (machine : Machine) (virt : Nat) : (count : Nat) → Option Machine
  | 0 => some machine
  | count + 1 => do
      let frame ← vmmGetPhys machine virt
      let machine ← (if frame ≠ 0 then do
          let machine ← vmmUnmap machine virt
          some (pmmFreep machine frame)
        else some machine)
      vmmUnmapRunFree machine ((virt + PAGE_SIZE) % 2 ^ 32) count

-- mmapan.c and munmap.c

def MMAPAN_CHUNK : Nat := 64
def MMAPAN_MAX : Nat := 16 * 1024 * 1024

def MMAPAN_PROT_READ : Nat := 1
def MMAPAN_PROT_WRITE : Nat := 2
def MMAPAN_PROT_EXEC : Nat := 4

/-- The codes of the errors, `PANUTIERRORCODE` of 6 and 10. -/
def PANUTIERRNO_INVALIDADDR : Nat := 0x80000006
def PANUTIERRNO_NOMEM : Nat := 0x8000000A

/-- The loop that collects the frames of a chunk: as many as there are. -/
def takeFrames (machine : Machine) : (left : Nat) → List Nat × Machine
  | 0 => ([], machine)
  | left + 1 =>
      let (frame, machine) := pmmAllocp machine
      if frame = 0 then ([], machine)
      else
        let (rest, machine) := takeFrames machine left
        (frame :: rest, machine)

/-- `(len + 0xFFF) >> 12`. -/
def pagesFor (len : Nat) : Nat := (len + 0xFFF) % 2 ^ 32 / 2 ^ 12

def mmapanFlags (prot : Nat) : Nat :=
  let flags := PAGE_PRESENT
  let flags :=
    if prot &&& (MMAPAN_PROT_READ ||| MMAPAN_PROT_WRITE) ≠ 0 then flags ||| PAGE_USER else flags
  if prot &&& MMAPAN_PROT_WRITE ≠ 0 then flags ||| PAGE_RW else flags

/-- The loop over the chunks: the base, or the code of the error. Every turn maps a page. -/
def mmapanLoop (base npages flags : Nat)
    : (turns : Nat) → (machine : Machine) → (mapped : Nat) → Option (Except Nat Nat × Machine)
  | 0, _, _ => none
  | turns + 1, machine, mapped =>
      if npages ≤ mapped then some (.ok base, machine)
      else
        let chunk := min (npages - mapped) MMAPAN_CHUNK
        let vbase := (base + mapped * 2 ^ 12) % 2 ^ 32
        let (phys, machine) := takeFrames machine chunk
        if phys.length < chunk then do
          let machine := phys.foldl pmmFreep machine
          let machine ← vmmUnmapRunFree machine base mapped
          some (.error PANUTIERRNO_NOMEM, machine)
        else do
          let (installed, machine) ← vmmMapZeroedRun machine vbase phys flags
          if installed then mmapanLoop base npages flags turns machine (mapped + chunk)
          else
            let machine := phys.foldl pmmFreep machine
            let machine ← vmmUnmapRunFree machine base mapped
            some (.error PANUTIERRNO_NOMEM, machine)

/-- `syshandler_mmapan`: the base of the pages, or the code of the error. -/
def syshandlerMmapan (machine : Machine) (len prot hint : Nat)
    : Option (Except Nat Nat × Machine) :=
  if prot &&& (0xFFFFFFFF - (MMAPAN_PROT_READ ||| MMAPAN_PROT_WRITE ||| MMAPAN_PROT_EXEC)) ≠ 0 then
    some (.error PANUTIERRNO_INVALIDADDR, machine)
  else if len = 0 ∨ MMAPAN_MAX < len then some (.error PANUTIERRNO_INVALIDADDR, machine)
  else do
    let npages := pagesFor len
    let base ← vmmFindFreeRun machine npages hint
    if base = 0 then some (.error PANUTIERRNO_NOMEM, machine)
    else mmapanLoop base npages (mmapanFlags prot) (npages + 1) machine 0

def kernelIsUserRange (buf len : Nat) : Bool :=
  if len = 0 then true
  else
    let last := (buf + len) % 2 ^ 32
    USER_SPACE_BASE ≤ buf && buf ≤ last && last ≤ USER_SPACE_END

/-- `syshandler_munmap`: 0, or the code of the error. -/
def syshandlerMunmap (machine : Machine) (addr len : Nat) : Option (Nat × Machine) :=
  if len = 0 then some (PANUTIERRNO_INVALIDADDR, machine)
  else if addr % 4096 ≠ 0 then some (PANUTIERRNO_INVALIDADDR, machine)
  else if kernelIsUserRange addr len = false then some (PANUTIERRNO_INVALIDADDR, machine)
  else do
    let machine ← vmmUnmapRunFree machine addr (pagesFor len)
    some (0, machine)

end Panuti.Vmm
