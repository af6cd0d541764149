import Bes.Lib.FileLock
import Bes.Lib.WaitFor

/-! Processes that use one cache as its documentation asks: they read a cached file,
add one, or purge one, again and again. The control file and the files of the
cache are locked through blocking requests, and one process may hold the first
while it waits for the second or the other way round. A step is a lock, an unlock,
or what happens between two of them. -/
namespace Bes.Cache.ClientProtocol
open Lib.Run Lib.FileLock Lib.WaitFor

variable {File : Type}

/-- The control file; the files of the cache have other numbers. -/
def control : Nat := 0

/-- A file that the process has created, and whether it goes on to `update_and_purge`. -/
structure Own (File : Type) where
  file : File
  inode : Nat
  purges : Bool
deriving DecidableEq

/-- What `m_collect_cache_dir_info` lists. The control file is among it. -/
inductive Entry (File : Type)
  | control
  | file (name : File)
deriving DecidableEq

inductive Phase (File : Type)
  | idle
  | readLockCache (file : File)
  | readOpen (file : File)
  | readLockFile (inode : Nat)
  | readUnlockCache (inode : Nat)
  | reading (inode : Nat)
  | createLockCache (file : File) (purges : Bool)
  | createOpen (file : File) (purges : Bool)
  | createLockFile (own : Own File)
  | createUnlockCache (own : Own File)
  | writing (own : Own File)
  | infoLockCache (own : Own File)
  | infoUnlockCache (own : Own File)
  | purgeLockCache (own : Own File)
  | purgeScan (own : Own File)
  | purgeLoop (own : Own File) (entries : List (Entry File))
  | purgeUnlock (own : Own File) (entry : Entry File) (inode : Nat) (entries : List (Entry File))
  | purgeUnlockCache (own : Own File)
  | purgeFileLockCache (file : File)
  | purgeFileOpen (file : File)
  | purgeFileLock (file : File) (inode : Nat)
  | purgeFileUnlock (file : File) (inode : Nat)
  | purgeFileSizeLock
  | purgeFileSizeUnlock
  | leaving (held : Option LockKind)
deriving DecidableEq

structure Process (File : Type) where
  phase : Phase File := .idle
  locks : Nat → Option LockKind := fun _ => none

/-- What the processes share: the names in the cache directory with their files. -/
structure Shared (File : Type) where
  directory : List (File × Nat) := []
  nextInode : Nat := 1
  controlListed : Bool := true

structure System (File : Type) where
  shared : Shared File
  processes : List (Process File)

def System.locksOn (system : System File) (inode : Nat) : List (Option LockKind) :=
  system.processes.map fun process => process.locks inode

/-- The request that a process makes with `F_SETLKW`. `exclusive_to_shared_lock` is
the one of `writing`. -/
def Phase.request : Phase File → Option (Nat × LockKind)
  | .readLockCache _ => some (control, .read)
  | .readLockFile inode => some (inode, .read)
  | .createLockCache _ _ => some (control, .write)
  | .createLockFile own => some (own.inode, .write)
  | .writing own => some (own.inode, .read)
  | .infoLockCache _ => some (control, .write)
  | .purgeLockCache _ => some (control, .write)
  | .purgeFileLockCache _ => some (control, .write)
  | .purgeFileLock _ inode => some (inode, .write)
  | .purgeFileSizeLock => some (control, .read)
  | _ => none

def Phase.granted : Phase File → Phase File
  | .readLockCache file => .readOpen file
  | .readLockFile inode => .readUnlockCache inode
  | .createLockCache file purges => .createOpen file purges
  | .createLockFile own => .createUnlockCache own
  | .writing own => .infoLockCache own
  | .infoLockCache own => .infoUnlockCache own
  | .purgeLockCache own => .purgeScan own
  | .purgeFileLockCache file => .purgeFileOpen file
  | .purgeFileLock file inode => .purgeFileUnlock file inode
  | .purgeFileSizeLock => .purgeFileSizeUnlock
  | phase => phase

def Process.setLock (process : Process File) (inode : Nat) (kind : Option LockKind)
    (phase : Phase File) : Process File :=
  ⟨phase, Function.update process.locks inode kind⟩

@[simp] theorem setLock_phase (process : Process File) (inode : Nat) (kind : Option LockKind)
    (phase : Phase File) : (process.setLock inode kind phase).phase = phase := rfl

@[simp] theorem setLock_locks (process : Process File) (inode : Nat) (kind : Option LockKind)
    (phase : Phase File) :
    (process.setLock inode kind phase).locks = Function.update process.locks inode kind := rfl

/-- Process `p` waits for a lock that process `q` has. -/
def WaitsFor (system : System File) (p q : Nat) : Prop :=
  ∃ waiting ∈ system.processes[p]?, ∃ other ∈ system.processes[q]?, p ≠ q ∧
    ∃ request ∈ waiting.phase.request, ¬ Compatible request.2 (other.locks request.1)

def DeadlockFree (system : System File) : Prop := ¬ Deadlocked (WaitsFor system)

section

variable [DecidableEq File]

def unlink (shared : Shared File) : Entry File → Shared File
  | .control => { shared with controlListed := false }
  | .file name =>
      { shared with directory := shared.directory.filter fun entry => decide (entry.1 ≠ name) }

def create (shared : Shared File) (file : File) : Shared File :=
  { shared with
    directory := shared.directory ++ [(file, shared.nextInode)]
    nextInode := shared.nextInode + 1 }

def inodeOf (shared : Shared File) : Entry File → Option Nat
  | .control => if shared.controlListed then some control else none
  | .file name => shared.directory.lookup name

/-- One round of the loop in `update_and_purge`, with the lock that does not block.
Where it is refused, the descriptor is closed, which drops any lock on the file. -/
def purgeRound (shared : Shared File) (process : Process File) (grants : Nat → Bool)
    (own : Own File) (entry : Entry File) (entries : List (Entry File)) : Process File :=
  match inodeOf shared entry with
  | none => { process with phase := .purgeLoop own entries }
  | some inode =>
      if grants inode then
        process.setLock inode (some .write) (.purgeUnlock own entry inode entries)
      else process.setLock inode none (.purgeLoop own entries)

/-- A step that is not a blocking request: an `open`, an unlock, or the removal of a
file and the unlock after it. `grants` tells which files can be locked for writing
at once. -/
def advance (shared : Shared File) (process : Process File) (grants : Nat → Bool) :
    Option (Shared File × Process File) :=
  match process.phase with
  | .readOpen file =>
      match shared.directory.lookup file with
      | none => some (shared, { process with phase := .leaving (some .read) })
      | some inode => some (shared, { process with phase := .readLockFile inode })
  | .readUnlockCache inode => some (shared, process.setLock control none (.reading inode))
  -- `unlock_and_close`
  | .reading inode => some (shared, process.setLock inode none .idle)
  | .createOpen file purges =>
      match shared.directory.lookup file with
      | some _ => some (shared, { process with phase := .leaving (some .write) })
      | none => some (create shared file,
          { process with phase := .createLockFile ⟨file, shared.nextInode, purges⟩ })
  | .createUnlockCache own => some (shared, process.setLock control none (.writing own))
  | .infoUnlockCache own => some (shared, process.setLock control none
      (if own.purges then .purgeLockCache own else .reading own.inode))
  | .purgeLoop own [] => some (shared, { process with phase := .purgeUnlockCache own })
  | .purgeLoop own (entry :: entries) =>
      some (shared, purgeRound shared process grants own entry entries)
  | .purgeUnlock own entry inode entries =>
      some (unlink shared entry, process.setLock inode none (.purgeLoop own entries))
  | .purgeUnlockCache own => some (shared, process.setLock control none (.reading own.inode))
  | .purgeFileOpen file =>
      match shared.directory.lookup file with
      | none => some (shared, { process with phase := .leaving (some .write) })
      | some inode => some (shared, { process with phase := .purgeFileLock file inode })
  | .purgeFileUnlock file inode =>
      some (unlink shared (.file file), process.setLock inode none .purgeFileSizeLock)
  -- `get_cache_size` has unlocked the control file before the size is written
  | .purgeFileSizeUnlock => some (shared, process.setLock control none (.leaving none))
  | .leaving _ => some (shared, process.setLock control none .idle)
  | _ => none

inductive Operation (File : Type)
  | read (file : File)
  | create (file : File) (purges : Bool)
  | purge (file : File)
deriving DecidableEq

def Operation.start : Operation File → Phase File
  | .read file => .readLockCache file
  | .create file purges => .createLockCache file purges
  | .purge file => .purgeFileLockCache file

/-- A step. `scan` carries the entries that the loop of `update_and_purge` comes to
before the cache is small enough. -/
inductive Choice (File : Type)
  | call (operation : Operation File)
  | lock
  | next
  | scan (entries : List (Entry File))
deriving DecidableEq

def processStep (system : System File) (p : Nat) (process : Process File) :
    Choice File → Option (Shared File × Process File)
  | .call operation =>
      if process.phase = .idle then
        some (system.shared, { process with phase := operation.start })
      else none
  | .lock =>
      match process.phase.request with
      | none => none
      | some (inode, kind) =>
          if Grants (system.locksOn inode) p kind then
            some (system.shared, process.setLock inode (some kind) process.phase.granted)
          else none
  | .next => advance system.shared process
      fun inode => decide (Grants (system.locksOn inode) p .write)
  | .scan entries =>
      match process.phase with
      | .purgeScan own =>
          if ∀ entry ∈ entries, entry ≠ .file own.file then
            some (system.shared, { process with phase := .purgeLoop own entries })
          else none
      | _ => none

def step (system : System File) (event : Nat × Choice File) : Option (System File) := do
  let process ← system.processes[event.1]?
  let (shared, process) ← processStep system event.1 process event.2
  some ⟨shared, system.processes.set event.1 process⟩

def initial (numProcesses : Nat) : System File := ⟨{}, List.replicate numProcesses {}⟩

def Phase.pending : Phase File → Option Nat
  | .createLockFile own => some own.inode
  | .createUnlockCache own => some own.inode
  | .writing own => some own.inode
  | .infoLockCache own => some own.inode
  | .infoUnlockCache own => if own.purges then some own.inode else none
  | .purgeLockCache own => some own.inode
  | _ => none

/-- `purge_file` does not come to the `open` of a file whose creator has still to lock
the control file. -/
def carefulFor (shared : Shared File) (other : Phase File) : Phase File → Bool
  | .purgeFileOpen file =>
      match shared.directory.lookup file with
      | none => true
      | some inode => decide (other.pending ≠ some inode)
  | _ => true

def Careful (system : System File) (event : Nat × Choice File) : Prop :=
  ∀ process ∈ system.processes[event.1]?, ∀ q < system.processes.length, q ≠ event.1 →
    ∀ other ∈ system.processes[q]?, carefulFor system.shared other.phase process.phase = true

instance (system : System File) : DecidablePred (Careful system) := fun event =>
  inferInstanceAs (Decidable (∀ process ∈ system.processes[event.1]?,
    ∀ q < system.processes.length, q ≠ event.1 → ∀ other ∈ system.processes[q]?,
      carefulFor system.shared other.phase process.phase = true))

end

end Bes.Cache.ClientProtocol
