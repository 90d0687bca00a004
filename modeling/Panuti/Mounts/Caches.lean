import Panuti.Mounts.Calls
import Panuti.Native.Tree

/-! Dropping references and removing names only takes entries and inodes away. -/

namespace Panuti.Mounts

open Panuti.Kernel (HandleOps InodeType)
open Panuti.Native

/-- Inodes and entries may be gone and lists may be shorter; nothing was added. -/
structure Sheds (reg changed : Registry) : Prop where
  inode
    : ∀ inode node, changed.inodes.get inode = some node
      → ∃ was, reg.inodes.get inode = some was
        ∧ node.type = was.type
        ∧ node.children.Sublist was.children
  entry
    : ∀ entry found, changed.dirents.get entry = some found
      → ∃ was, reg.dirents.get entry = some was
        ∧ found.name = was.name
        ∧ found.inode = was.inode
  nextInode : changed.inodes.next = reg.inodes.next
  nextEntry : changed.dirents.next = reg.dirents.next
  sameRoot : changed.root = reg.root

theorem Sheds.refl (reg : Registry) : Sheds reg reg where
  inode _ node present := ⟨node, present, rfl, List.Sublist.refl _⟩
  entry _ found present := ⟨found, present, rfl, rfl⟩
  nextInode := rfl
  nextEntry := rfl
  sameRoot := rfl

theorem Sheds.trans {reg middle changed : Registry} (first : Sheds reg middle)
    (second : Sheds middle changed)
    : Sheds reg changed where
  inode := by
    intro inode node present
    obtain ⟨between, there, type, children⟩ := second.inode inode node present
    obtain ⟨was, thereToo, typeToo, childrenToo⟩ := first.inode inode between there
    exact ⟨was, thereToo, type.trans typeToo, children.trans childrenToo⟩
  entry := by
    intro entry found present
    obtain ⟨between, there, name, inode⟩ := second.entry entry found present
    obtain ⟨was, thereToo, nameToo, inodeToo⟩ := first.entry entry between there
    exact ⟨was, thereToo, name.trans nameToo, inode.trans inodeToo⟩
  nextInode := second.nextInode.trans first.nextInode
  nextEntry := second.nextEntry.trans first.nextEntry
  sameRoot := second.sameRoot.trans first.sameRoot

theorem Sheds.modifyInode (reg : Registry) (inode : Nat) (change : Inode → Inode)
    (type : ∀ node, (change node).type = node.type)
    (children : ∀ node, (change node).children.Sublist node.children)
    : Sheds reg (reg.modifyInode inode change) where
  inode := by
    intro other changed present
    obtain ⟨was, there, rfl⟩ := Arena.get_modify_eq_some present
    refine ⟨was, there, ?_⟩
    split
    · exact ⟨type was, children was⟩
    · exact ⟨rfl, List.Sublist.refl _⟩
  entry _ found present := ⟨found, present, rfl, rfl⟩
  nextInode := rfl
  nextEntry := rfl
  sameRoot := rfl

theorem Sheds.modifyDirent (reg : Registry) (entry : Nat) (change : Dirent → Dirent)
    (name : ∀ found, (change found).name = found.name)
    (inode : ∀ found, (change found).inode = found.inode)
    : Sheds reg (reg.modifyDirent entry change) where
  inode _ node present := ⟨node, present, rfl, List.Sublist.refl _⟩
  entry := by
    intro other changed present
    obtain ⟨was, there, rfl⟩ := Arena.get_modify_eq_some present
    refine ⟨was, there, ?_⟩
    split
    · exact ⟨name was, inode was⟩
    · exact ⟨rfl, rfl⟩
  nextInode := rfl
  nextEntry := rfl
  sameRoot := rfl

theorem Sheds.freeEntry (reg : Registry) (entry count : Nat)
    : Sheds reg { reg with dirents := reg.dirents.free entry, direntCount := count } where
  inode _ node present := ⟨node, present, rfl, List.Sublist.refl _⟩
  entry _ found present := ⟨found, (Arena.get_free_eq_some.mp present).2, rfl, rfl⟩
  nextInode := rfl
  nextEntry := rfl
  sameRoot := rfl

theorem Sheds.freeInode (reg : Registry) (inode count : Nat)
    : Sheds reg { reg with inodes := reg.inodes.free inode, inodeCount := count } where
  inode _ node present :=
    ⟨node, (Arena.get_free_eq_some.mp present).2, rfl, List.Sublist.refl _⟩
  entry _ found present := ⟨found, present, rfl, rfl⟩
  nextInode := rfl
  nextEntry := rfl
  sameRoot := rfl

theorem Sheds.direntRef (reg : Registry) (entry : Nat) : Sheds reg (direntRef reg entry) := by
  apply Sheds.modifyDirent
  · intro found
    split <;> rfl
  · intro found
    split <;> rfl

section Dropping

variable {unref : Registry → Nat → Registry}

theorem Sheds.direntPut (sheds : ∀ reg inode, Sheds reg (unref reg inode)) (reg : Registry)
    (entry : Nat) (drop : Bool)
    : Sheds reg (direntPut unref reg entry drop) := by
  simp only [Native.direntPut]
  split
  · exact Sheds.refl reg
  split
  · exact Sheds.modifyDirent reg entry _ (fun _ => rfl) (fun _ => rfl)
  split
  · exact (Sheds.freeEntry reg entry _).trans (sheds _ _)
  · exact Sheds.freeEntry reg entry _

theorem Sheds.registryDestroy (sheds : ∀ reg inode, Sheds reg (unref reg inode))
    (reg : Registry) (inode : Nat) (node : Inode)
    : Sheds reg (registryDestroy unref reg inode node) := by
  have puts (entries : List Nat) (start : Registry)
      : Sheds start (entries.foldl
          (fun reg entry =>
            Native.direntPut unref reg entry (decide (reg.target entry ≠ some inode)))
          start) := by
    induction entries generalizing start with
    | nil => exact Sheds.refl start
    | cons entry rest ih => exact (Sheds.direntPut sheds start entry _).trans (ih _)
  simp only [Native.registryDestroy]
  split
  · exact (puts _ _).trans (Sheds.freeInode _ inode _)
  · exact Sheds.freeInode _ inode _

end Dropping

theorem inodeUnrefDepth_sheds (depth : Nat) (reg : Registry) (inode : Nat)
    : Sheds reg (inodeUnrefDepth depth reg inode) := by
  induction depth generalizing reg inode with
  | zero => exact Sheds.refl reg
  | succ depth ih =>
      simp only [inodeUnrefDepth]
      split
      · exact Sheds.refl reg
      rename_i node here
      have lowered : Sheds reg
          (reg.modifyInode inode (fun other => { other with refcount := node.refcount - 1 })) :=
        Sheds.modifyInode reg inode _ (fun _ => rfl) (fun _ => List.Sublist.refl _)
      split
      · exact lowered
      · exact lowered.trans (Sheds.registryDestroy ih _ inode _)

theorem Sheds.inodeUnref (reg : Registry) (inode : Nat) : Sheds reg (inodeUnref reg inode) :=
  inodeUnrefDepth_sheds _ reg inode

theorem Sheds.direntUnref (reg : Registry) (entry : Nat) : Sheds reg (direntUnref reg entry) :=
  Sheds.direntPut Sheds.inodeUnref reg entry true

theorem Sheds.direntDetach {reg after : Registry} {dir entry : Nat} {name : Name}
    (detached : direntDetach reg dir name = some (entry, after))
    : Sheds reg after := by
  simp only [Native.direntDetach] at detached
  split at detached
  · obtain ⟨rfl, rfl⟩ := Option.some.inj detached
    exact Sheds.modifyInode reg dir _ (fun _ => rfl) (fun _ => List.erase_sublist)
  · cases detached

theorem Sheds.markDeleted (reg : Registry) (entry : Nat) : Sheds reg (markDeleted reg entry) := by
  simp only [Native.markDeleted]
  split
  · split
    · exact Sheds.modifyInode reg _ _ (fun _ => rfl) (fun _ => List.Sublist.refl _)
    · exact Sheds.refl reg
  · exact Sheds.refl reg

theorem Sheds.registryUnlink (reg : Registry) (dir : Nat) (name : Name)
    : Sheds reg (Native.registryUnlink reg dir name).2 := by
  simp only [Native.registryUnlink]
  split
  · exact Sheds.refl reg
  split
  · exact Sheds.refl reg
  split
  · exact Sheds.refl reg
  split
  · exact Sheds.refl reg
  split
  · exact Sheds.refl reg
  split
  · exact Sheds.refl reg
  · rename_i detached
    exact ((Sheds.direntDetach detached).trans (Sheds.markDeleted _ _)).trans
      (Sheds.direntUnref _ _)

end Panuti.Mounts
