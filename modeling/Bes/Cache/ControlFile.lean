import Bes.Lib.FileLock

/-! Processes that share one cache directory and the control file in which the
size of the cache is recorded. A step is one system call of one process: a lock
request on the control file, a read, a write, a `stat` or an `unlink`. Between two
steps any other process may take its own. -/
namespace Bes.Cache.ControlFile
open Lib.Run Lib.FileLock

/-- A file of the cache. `registered` is not stored anywhere: it records that the
file's size has been added to the control file. -/
structure CacheFile where
  name : String
  size : UInt64
  registered : Bool := false
deriving DecidableEq

/-- What the processes share. `controlListed` tells whether the control file can
still be found in the directory. -/
structure Shared where
  stored : UInt64
  files : List CacheFile
  controlListed : Bool
deriving DecidableEq

structure Config where
  maxCacheSize : UInt64
  targetSize : UInt64

/-- One megabyte, and 80 % of it. -/
def megabyte : Config := ⟨1048576, 838860⟩

def Config.isUnlimited (config : Config) : Bool := config.maxCacheSize = 0

def Config.cacheTooBig (config : Config) (currentSize : UInt64) : Bool :=
  config.maxCacheSize < currentSize

/-- An entry that `m_collect_cache_dir_info` finds. Its test for the control file
compares a bare name with a full path and never holds. -/
inductive Listed
  | control
  | file (name : String) (size : UInt64)
deriving DecidableEq

/-- The control file holds one `unsigned long long`. -/
def Listed.size : Listed → UInt64
  | .control => 8
  | .file _ size => size

def listing (shared : Shared) : List Listed :=
  (if shared.controlListed then [.control] else []) ++
    shared.files.map fun file => .file file.name file.size

def find (files : List CacheFile) (name : String) : Option CacheFile :=
  files.find? fun file => decide (file.name = name)

def unlink (files : List CacheFile) (name : String) : List CacheFile :=
  files.filter fun file => decide (file.name ≠ name)

def register (files : List CacheFile) (name : String) : List CacheFile :=
  files.map fun file => if file.name = name then { file with registered := true } else file

inductive Phase
  | idle
  | createLock (name : String) (size : UInt64)
  | createOpen (name : String) (size : UInt64)
  | updateLock (name : String)
  | updateRead (name : String)
  | updateStat (name : String) (currentSize : UInt64)
  | updateWrite (name : String) (currentSize : UInt64)
  | sizeLock
  | sizeRead
  | purgeLock (name : String)
  | purgeOpen (name : String)
  | purgeStat (name : String)
  | purgeUnlink (name : String) (size : UInt64)
  | purgeSizeLock (size : UInt64)
  | purgeSizeRead (size : UInt64)
  | purgeSizeUnlock (size currentSize : UInt64)
  | purgeWrite (cacheSize : UInt64)
  | updatePurgeLock (newFile : String)
  | updatePurgeScan (newFile : String)
  | updatePurgeLoop (newFile : String) (contents : List Listed) (computedSize : UInt64)
  | updatePurgeWrite (computedSize : UInt64)
  | unlock
deriving DecidableEq

structure Process where
  phase : Phase := .idle
  lock : Option LockKind := none
deriving DecidableEq

inductive Operation
  | createAndLock (name : String) (size : UInt64)
  | updateCacheInfo (name : String)
  | getCacheSize
  | purgeFile (name : String)
  | updateAndPurge (newFile : String)

def Operation.start (config : Config) : Operation → Phase
  | .createAndLock name size => .createLock name size
  | .updateCacheInfo name => .updateLock name
  | .getCacheSize => .sizeLock
  | .purgeFile name => .purgeLock name
  | .updateAndPurge newFile => if config.isUnlimited then .idle else .updatePurgeLock newFile

/-- A step. `scan` carries the entries of the directory in the order of their
access times, and `round` whether the file at hand can be locked at once. -/
inductive Choice
  | call (operation : Operation)
  | next
  | scan (contents : List Listed)
  | round (available : Bool)

/-- The removal of one entry in the loop of `update_and_purge`. For the control
file the unlock of the new descriptor also drops the lock on the cache. -/
def purgeListed (shared : Shared) (process : Process) (computedSize : UInt64) (newFile : String)
    (rest : List Listed) : Listed → Shared × Process
  | .control =>
      ({ shared with controlListed := false },
        ⟨.updatePurgeLoop newFile rest (computedSize - Listed.control.size), none⟩)
  | .file name size =>
      ({ shared with files := unlink shared.files name },
        { process with phase := .updatePurgeLoop newFile rest (computedSize - size) })

def Purgeable (shared : Shared) (newFile : String) : Listed → Prop
  | .control => shared.controlListed = true
  | .file name _ => name ≠ newFile ∧ (find shared.files name).isSome

instance (shared : Shared) (newFile : String) : DecidablePred (Purgeable shared newFile)
  | .control => inferInstanceAs (Decidable (_ = _))
  | .file _ _ => inferInstanceAs (Decidable (_ ≠ _ ∧ _))

/-- One round of the loop in `update_and_purge`. -/
def purgeRound (config : Config) (shared : Shared) (process : Process) (newFile : String)
    (contents : List Listed) (computedSize : UInt64) (available : Bool) : Shared × Process :=
  match contents with
  | [] => (shared, { process with phase := .updatePurgeWrite computedSize })
  | entry :: rest =>
      if computedSize ≤ config.targetSize then
        (shared, { process with phase := .updatePurgeWrite computedSize })
      else if Purgeable shared newFile entry ∧ available then
        purgeListed shared process computedSize newFile rest entry
      else (shared, { process with phase := .updatePurgeLoop newFile rest computedSize })

/-- `lock_cache_write` and `lock_cache_read`; a request that has to wait is not
enabled. -/
def lockCache (locks : List (Option LockKind)) (p : Nat) (shared : Shared) (kind : LockKind)
    (phase : Phase) : Option (Shared × Process) :=
  if Grants locks p kind then some (shared, ⟨phase, some kind⟩) else none

/-- The next system call of a process, where nothing has to be chosen. An error
leads to the catch block, whose only action is `unlock_cache`. -/
def nextCall (locks : List (Option LockKind)) (p : Nat) (shared : Shared) (process : Process) :
    Option (Shared × Process) :=
  match process.phase with
  | .createLock name size => lockCache locks p shared .write (.createOpen name size)
  | .createOpen name size =>
      match find shared.files name with
      | some _ => some (shared, { process with phase := .unlock })
      | none => some ({ shared with files := shared.files ++ [{ name := name, size := size }] },
          { process with phase := .unlock })
  | .updateLock name => lockCache locks p shared .write (.updateRead name)
  | .updateRead name => some (shared, { process with phase := .updateStat name shared.stored })
  | .updateStat name currentSize =>
      match find shared.files name with
      | none => some (shared, { process with phase := .unlock })
      | some file =>
          some (shared, { process with phase := .updateWrite name (currentSize + file.size) })
  | .updateWrite name currentSize =>
      some ({ shared with stored := currentSize, files := register shared.files name },
        { process with phase := .unlock })
  | .sizeLock => lockCache locks p shared .read .sizeRead
  | .sizeRead => some (shared, { process with phase := .unlock })
  | .purgeLock name => lockCache locks p shared .write (.purgeOpen name)
  | .purgeOpen name =>
      match find shared.files name with
      | none => some (shared, { process with phase := .unlock })
      | some _ => some (shared, { process with phase := .purgeStat name })
  | .purgeStat name =>
      match find shared.files name with
      | none => some (shared, { process with phase := .purgeUnlink name 0 })
      | some file => some (shared, { process with phase := .purgeUnlink name file.size })
  | .purgeUnlink name size =>
      match find shared.files name with
      | none => some (shared, { process with phase := .unlock })
      | some _ => some ({ shared with files := unlink shared.files name },
          { process with phase := .purgeSizeLock size })
  -- `get_cache_size` replaces the write lock by a read lock, and then drops it
  | .purgeSizeLock size => lockCache locks p shared .read (.purgeSizeRead size)
  | .purgeSizeRead size =>
      some (shared, { process with phase := .purgeSizeUnlock size shared.stored })
  | .purgeSizeUnlock size currentSize => some (shared, ⟨.purgeWrite (currentSize - size), none⟩)
  | .purgeWrite cacheSize =>
      some ({ shared with stored := cacheSize }, { process with phase := .unlock })
  | .updatePurgeLock newFile => lockCache locks p shared .write (.updatePurgeScan newFile)
  | .updatePurgeWrite computedSize =>
      some ({ shared with stored := computedSize }, { process with phase := .unlock })
  | .unlock => some (shared, {})
  | .idle | .updatePurgeScan _ | .updatePurgeLoop _ _ _ => none

def processStep (config : Config) (locks : List (Option LockKind)) (p : Nat) (shared : Shared)
    (process : Process) : Choice → Option (Shared × Process)
  | .call operation =>
      if process.phase = .idle then
        some (shared, { process with phase := operation.start config })
      else none
  | .next => nextCall locks p shared process
  | .scan contents =>
      match process.phase with
      | .updatePurgeScan newFile =>
          if contents.Perm (listing shared) then
            let computedSize := (contents.map Listed.size).sum
            some (shared, { process with
              phase := if config.cacheTooBig computedSize
                then .updatePurgeLoop newFile contents computedSize
                else .updatePurgeWrite computedSize })
          else none
      | _ => none
  | .round available =>
      match process.phase with
      | .updatePurgeLoop newFile contents computedSize =>
          some (purgeRound config shared process newFile contents computedSize available)
      | _ => none

structure System where
  shared : Shared
  processes : List Process
deriving DecidableEq

def System.locks (system : System) : List (Option LockKind) := system.processes.map Process.lock

def step (config : Config) (system : System) (event : Nat × Choice) : Option System := do
  let process ← system.processes[event.1]?
  let (shared, process) ← processStep config system.locks event.1 system.shared process event.2
  some ⟨shared, system.processes.set event.1 process⟩

/-- A new cache. The control file may have been moved out of the directory while
the processes keep it open. -/
def initial (numProcesses : Nat) (controlListed : Bool) : System :=
  ⟨⟨0, [], controlListed⟩, List.replicate numProcesses {}⟩

def total (files : List CacheFile) : Nat :=
  ((files.filter CacheFile.registered).map fun file => file.size.toNat).sum

def SizeRecorded (system : System) : Prop :=
  (∀ process ∈ system.processes, process.phase = .idle) →
    system.shared.stored.toNat = total system.shared.files

/-- The process has given up its lock in `get_cache_size` and has still to write
the size in `purge_file`. -/
def Phase.exposed : Phase → Bool
  | .purgeWrite _ => true
  | _ => false

/-- No other process is between the unlock in `get_cache_size` and the write in
`purge_file`. -/
def noneExposed (system : System) (p : Nat) : Bool :=
  decide (∀ q < system.processes.length, q ≠ p → ∀ other ∈ system.processes[q]?,
    other.phase.exposed = false)

/-- What a process must find where it is about to take a lock, to add a size, to
remove a file or to scan the directory. -/
def carefulFor (system : System) (p : Nat) : Phase → Bool
  | .updateLock _ => noneExposed system p
  | .purgeLock _ => noneExposed system p
  | .updatePurgeLock _ => noneExposed system p
  | .updateStat name _ => decide (∀ file ∈ find system.shared.files name,
      file.registered = false ∧ total system.shared.files + file.size.toNat < 2 ^ 64)
  | .purgeUnlink name _ => decide (∀ file ∈ find system.shared.files name, file.registered = true)
  | .updatePurgeScan _ => decide (system.shared.controlListed = false ∧
      ∀ file ∈ system.shared.files, file.registered = true)
  | _ => true

def Careful (system : System) (event : Nat × Choice) : Prop :=
  ∀ process ∈ system.processes[event.1]?, carefulFor system event.1 process.phase = true

instance (system : System) : DecidablePred (Careful system) := fun event =>
  inferInstanceAs (Decidable (∀ process ∈ system.processes[event.1]?,
    carefulFor system event.1 process.phase = true))

end Bes.Cache.ControlFile
