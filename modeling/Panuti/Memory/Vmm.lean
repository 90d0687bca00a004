import Panuti.Library.PageTable

/-! Physical frames and page tables: `pmm.c` and the mapping functions of `vmm.c`. Tables are
written through the recursive entry of the directory that `cr3` names; an access to a page that
is not mapped is a fault, and a fault in the kernel ends the system.
-/

namespace Panuti.Vmm

open ByteMemory PageTable

def PAGE_SIZE : Nat := 4096
def RECURSIVE_TABLE_BASE : Nat := 0xFFC00000
def RECURSIVE_PDE_INDEX : Nat := 1023
def USER_SPACE_BASE : Nat := 0x08048000
def USER_SPACE_END : Nat := 0xC0000000

def PAGE_PRESENT : Nat := 1
def PAGE_RW : Nat := 2
def PAGE_USER : Nat := 4

/-- Physical memory, the current directory, the bitmap of frames with its cursor, and the pages
`vmm_map` was called for so far, each with the directory that was current.
-/
structure Machine where
  memory : Memory
  cr3 : Nat
  frames : Nat
  free : Nat → Bool
  cursor : Nat
  mapped : List (Nat × Nat)

-- pmm.c

/-- The first free page from `start` on. -/
def Machine.firstFree (machine : Machine) (start : Nat) : Option Nat :=
  (List.range' start (machine.frames - start)).find? machine.free

def Machine.take (machine : Machine) (page : Nat) : Machine :=
  { machine with cursor := page + 1, free := Function.update machine.free page false }

/-- `pmm_allocp`: the address of a free frame, or 0. -/
def pmmAllocp (machine : Machine) : Nat × Machine :=
  match machine.firstFree machine.cursor with
  | some page => (page * PAGE_SIZE, machine.take page)
  | none =>
      match machine.firstFree 0 with
      | some page => (page * PAGE_SIZE, machine.take page)
      | none => (0, { machine with cursor := 0 })

def pmmFreep (machine : Machine) (address : Nat) : Machine :=
  if address = 0 then machine
  else
    let page := address / PAGE_SIZE
    if machine.frames ≤ page then machine
    else
      { machine with
        cursor := if page < machine.cursor then page else machine.cursor
        free := Function.update machine.free page true }

-- Accesses through the page tables

def Machine.readWord (machine : Machine) (address : Nat) : Option Nat :=
  (translate machine.memory machine.cr3 address).map machine.memory.word

def Machine.writeWord (machine : Machine) (address value : Nat) : Option Machine :=
  (translate machine.memory machine.cr3 address).map (fun physical =>
    { machine with memory := machine.memory.setWord physical value })

def Machine.writeByte (machine : Machine) (address : Nat) (byte : UInt8) : Option Machine :=
  (translate machine.memory machine.cr3 address).map (fun physical =>
    { machine with memory := Function.update machine.memory physical byte })

/-- `memset` of one page to zero. -/
def Machine.zeroPage (machine : Machine) (address : Nat) : Option Machine :=
  (translate machine.memory machine.cr3 address).map (fun physical =>
    { machine with memory := machine.memory.fill physical PAGE_SIZE 0 })

-- vmm.c

def pteGetTable (pdeI : Nat) : Nat := RECURSIVE_TABLE_BASE + pdeI * 0x1000

def currentPageDir : Nat := RECURSIVE_TABLE_BASE + RECURSIVE_PDE_INDEX * PAGE_SIZE

/-- The first half of `vmm_map`: `true` when there is a table for the directory entry. -/
def provideTable (machine : Machine) (pdeI flags : Nat) : Option (Bool × Machine) :=
  match machine.readWord (currentPageDir + 4 * pdeI) with
  | none => none
  | some pde =>
      if present pde = false then
        let (pgtablePhys, machine) := pmmAllocp machine
        if pgtablePhys = 0 then some (false, machine)
        else
          match machine.writeWord (currentPageDir + 4 * pdeI)
              (pgtablePhys ||| PAGE_PRESENT ||| PAGE_RW ||| (flags &&& PAGE_USER)) with
          | none => none
          | some machine => (machine.zeroPage (pteGetTable pdeI)).map (fun machine => (true, machine))
      else if flags &&& PAGE_USER ≠ 0 then
        (machine.writeWord (currentPageDir + 4 * pdeI) (pde ||| PAGE_USER)).map
          (fun machine => (true, machine))
      else some (true, machine)

def vmmMap (machine : Machine) (virtAddr physAddr flags : Nat) : Option Machine :=
  let machine := { machine with mapped := machine.mapped ++ [(machine.cr3, virtAddr)] }
  match provideTable machine (virtAddr / 2 ^ 22) flags with
  | none => none
  | some (false, machine) => some machine
  | some (true, machine) =>
      machine.writeWord (pteGetTable (virtAddr / 2 ^ 22) + 4 * (virtAddr / 2 ^ 12 % 1024))
        (physAddr ||| flags ||| PAGE_PRESENT)

def vmmUnmap (machine : Machine) (virtAddr : Nat) : Option Machine :=
  match machine.readWord (currentPageDir + 4 * (virtAddr / 2 ^ 22)) with
  | none => none
  | some pde =>
      if present pde = false then some machine
      else machine.writeWord (pteGetTable (virtAddr / 2 ^ 22) + 4 * (virtAddr / 2 ^ 12 % 1024)) 0

/-- The loop of `vmm_map_in_run`; the sum of addresses is a sum of 32 bits. -/
def vmmMapRun (machine : Machine) (virtAddr : Nat) (flags : Nat) : List Nat → Option Machine
  | [] => some machine
  | phys :: rest =>
      match vmmMap machine virtAddr phys flags with
      | none => none
      | some machine => vmmMapRun machine ((virtAddr + PAGE_SIZE) % 2 ^ 32) flags rest

def vmmMapInRun (machine : Machine) (addrSpace virtAddr : Nat) (phys : List Nat) (flags : Nat)
    : Option Machine :=
  if addrSpace = 0 ∨ phys = [] then some machine
  else
    let savedCr3 := machine.cr3
    (vmmMapRun { machine with cr3 := addrSpace } virtAddr flags phys).map
      (fun machine => { machine with cr3 := savedCr3 })

end Panuti.Vmm
