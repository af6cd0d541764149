import Bes.Lib.FileLock

/-! The open files of one process and its advisory locks. A lock belongs to the
process and the file, not to the descriptor it was set through: a request through
any descriptor on the file replaces it, and closing any of them drops it. -/
namespace Bes.Lib.RecordLock
open Lib.FileLock Function

structure Files where
  opened : List (Nat × Nat)
  lock : Nat → Option LockKind

namespace Files

variable (files : Files)

def inodeOf (fd : Nat) : Option Nat := files.opened.lookup fd

def add (fd inode : Nat) : Files := { files with opened := files.opened ++ [(fd, inode)] }

def setLock (fd : Nat) (kind : Option LockKind) : Option Files :=
  (files.inodeOf fd).map fun inode =>
    { files with lock := update files.lock inode kind }

def close (fd : Nat) : Files :=
  match files.inodeOf fd with
  | none => files
  | some inode =>
      { opened := files.opened.filter fun entry => decide (entry.1 ≠ fd)
        lock := update files.lock inode none }

variable {files}

theorem lock_setLock_none (hset : files.setLock fd none = some after) (file : Nat) :
    after.lock file = none ↔ files.lock file = none ∨ files.inodeOf fd = some file := by
  obtain ⟨inode, hino, rfl⟩ := Option.map_eq_some_iff.mp hset
  by_cases hfil : file = inode
  · simp [hfil, hino]
  · simp [update_of_ne hfil, hino, Ne.symm hfil]

theorem lock_setLock_some (hset : files.setLock fd (some kind) = some after) (file : Nat) :
    after.lock file = none ↔ files.lock file = none ∧ files.inodeOf fd ≠ some file := by
  obtain ⟨inode, hino, rfl⟩ := Option.map_eq_some_iff.mp hset
  by_cases hfil : file = inode
  · simp [hfil, hino]
  · simp [update_of_ne hfil, hino, Ne.symm hfil]

theorem lock_close (fd file : Nat) : (files.close fd).lock file = none ↔
      files.lock file = none ∨ files.inodeOf fd = some file := by
  unfold close
  cases hino : files.inodeOf fd with
  | none => simp
  | some inode =>
    by_cases hfil : file = inode
    · simp [hfil]
    · simp [update_of_ne hfil, Ne.symm hfil]

end Files

end Bes.Lib.RecordLock
