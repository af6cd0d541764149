import Bes.Cache.DescriptorTable
import Bes.Lib.RecordLock

/-! The lock on the control file over the operations of one process, with every
system call failing where it likes. An operation is the list of the calls it has
still to make. Each call knows how many `try` blocks stand around it; their
handlers are all the same, `unlock_cache` and a rethrow. The sizes that the
operations compute are the subject of `Bes.Cache.ControlFile`. -/
namespace Bes.Cache.ControlLock
open Lib.Run Lib.FileLock Lib.RecordLock Option
open Cache.ControlFile Cache.DescriptorTable

inductive Errno
  | eexist
  | enoent
  | eagain
  | eacces
  | other (code : Nat)
deriving DecidableEq

/-- A file that `m_collect_cache_dir_info` finds. -/
structure Entry where
  name : String
  size : UInt64
deriving DecidableEq

/-- The four functions that open a file of the cache and lock it:
`createLockedFile`, `getSharedLock`, `get_exclusive_lock` and, at an entry of the
loop in `update_and_purge`, `get_exclusive_lock_nb`. -/
inductive Acquire
  | created (target : String)
  | shared (target : String)
  | exclusive (file : String)
  | exclusiveNb (newFile : String) (entry : Entry) (rest : List Entry) (computedSize : UInt64)
deriving DecidableEq

inductive PlainCall
  | rewind
  | readSize
  | writeSize
  | stat (file : String)
  | unlink (file : String)
deriving DecidableEq

inductive Call
  | lockCache (kind : LockKind)
  | unlockCache
  | plain (call : PlainCall)
  | sizeOf (file : String)
  | scan (newFile : String)
  | openFile (acquire : Acquire)
  | lockFile (acquire : Acquire) (fd : Nat)
  | toShared (fd : Nat)
  | unlockFile (fd : Nat)
  | closeFile (fd : Nat)
  | closeRecorded (file : String) (fd : Nat)
deriving DecidableEq

/-- A call and the number of `try` blocks around it. -/
structure Instr where
  depth : Nat
  call : Call
deriving DecidableEq

def inTry (depth : Nat) (calls : List Call) : List Instr := calls.map (Instr.mk depth)

/-- Where the process is: between operations, before the first call of the list, or
in a handler with `outer` handlers around it. -/
inductive Phase
  | idle
  | running (code : List Instr)
  | unwinding (outer : Nat)
deriving DecidableEq

/-- The cache object and its process. A cache that was not initialised has a
number for `d_cache_info_fd` that no file is open under. -/
structure LockingCache where
  cacheInfoFd : Nat
  locks : List (String × Nat)
  files : Files
  phase : Phase

inductive Answer
  | ok
  | descriptor (fd inode : Nat)
  | entries (contents : List Entry)
  | fails (errno : Errno)
deriving DecidableEq

def Acquire.file : Acquire → String
  | .created target => target
  | .shared target => target
  | .exclusive file => file
  | .exclusiveNb _ entry _ _ => entry.name

def Acquire.kind : Acquire → LockKind
  | .shared _ => .read
  | _ => .write

/-- The error of `open` for which the function returns false. -/
def Acquire.absent : Acquire → Errno
  | .created _ => .eexist
  | _ => .enoent

/-- The errors of `fcntl` for which the function returns false. -/
def Acquire.unavailable : Acquire → List Errno
  | .exclusiveNb _ _ _ _ => [.eagain, .eacces]
  | _ => []

/-- `O_CREAT | O_EXCL`: the file is a new one. -/
def Acquire.creates : Acquire → Bool
  | .created _ => true
  | _ => false

/-- The next call of the loop in `update_and_purge`. -/
def purgeLoop (config : Config) (newFile : String) : List Entry → UInt64 → List Call
  | [], _ => []
  | entry :: rest, computedSize =>
      if computedSize ≤ config.targetSize then []
      else if entry.name = newFile then purgeLoop config newFile rest computedSize
      else [.openFile (.exclusiveNb newFile entry rest computedSize)]

def getCacheSize (depth : Nat) : List Instr :=
  inTry (depth + 1) [.lockCache .read, .plain .rewind, .plain .readSize, .unlockCache]

def Acquire.afterRefusal (config : Config) (depth : Nat) : Acquire → List Instr
  | .exclusiveNb newFile _ rest computedSize =>
      inTry depth (purgeLoop config newFile rest computedSize)
  | _ => []

def Acquire.afterLock (config : Config) (depth fd : Nat) : Acquire → List Instr
  | .created _ => []
  | .shared _ => []
  | .exclusive file =>
      inTry depth [.sizeOf file, .plain (.unlink file), .unlockFile fd, .closeFile fd] ++
        getCacheSize depth ++ inTry depth [.plain .rewind, .plain .writeSize]
  | .exclusiveNb newFile entry rest computedSize =>
      inTry depth ([.plain (.unlink entry.name), .unlockFile fd, .closeFile fd] ++
        purgeLoop config newFile rest (computedSize - entry.size))

def resume (cache : LockingCache) : List Instr → LockingCache
  | [] => { cache with phase := .idle }
  | instr :: code => { cache with phase := .running (instr :: code) }

def raise (cache : LockingCache) : Nat → LockingCache
  | 0 => { cache with phase := .idle }
  | outer + 1 => { cache with phase := .unwinding outer }

/-- A round of the loop in `unlock_and_close`. -/
def unlockNext (cache : LockingCache) (depth : Nat) (file : String) (rest : List Instr) :
    LockingCache :=
  match removeDescriptor cache.locks file with
  | none => resume cache rest
  | some (fd, locks) =>
      resume { cache with locks := locks }
        (inTry depth [.unlockFile fd, .closeRecorded file fd] ++ rest)

def fcntl (cache : LockingCache) (fd : Nat) (kind : Option LockKind) : Option LockingCache :=
  (cache.files.setLock fd kind).map fun files => { cache with files := files }

def closeFd (cache : LockingCache) (fd : Nat) : LockingCache := { cache with files := cache.files.close fd }

def record (cache : LockingCache) (file : String) (fd : Nat) : LockingCache :=
  { cache with locks := recordDescriptor cache.locks file fd }

/-- A new descriptor has a number that was not in use, and a new file is not one
that the process has open. -/
def Grantable (cache : LockingCache) (acquire : Acquire) (fd inode : Nat) : Prop :=
  cache.files.inodeOf fd = none ∧
    (acquire.creates = true → ∀ entry ∈ cache.files.opened, entry.2 ≠ inode)

instance (cache : LockingCache) (acquire : Acquire) (fd inode : Nat) :
    Decidable (Grantable cache acquire fd inode) :=
  inferInstanceAs (Decidable (_ ∧ _))

def afterCall (config : Config) (cache : LockingCache) (depth : Nat) (rest : List Instr) :
    Call → Answer → Option LockingCache
  | .lockCache kind, .ok =>
      (fcntl cache cache.cacheInfoFd (some kind)).map fun cache => resume cache rest
  | .unlockCache, .ok =>
      (fcntl cache cache.cacheInfoFd none).map fun cache => resume cache rest
  | .plain _, .ok => some (resume cache rest)
  -- a file whose size cannot be had counts as empty
  | .sizeOf _, .ok => some (resume cache rest)
  | .sizeOf _, .fails _ => some (resume cache rest)
  | .scan newFile, .entries contents =>
      let computedSize := (contents.map Entry.size).sum
      let code := if config.cacheTooBig computedSize
        then purgeLoop config newFile contents computedSize else []
      some (resume cache (inTry depth code ++ rest))
  | .openFile acquire, .descriptor fd inode =>
      if Grantable cache acquire fd inode then
        some (resume { cache with files := cache.files.add fd inode }
          (inTry depth [.lockFile acquire fd] ++ rest))
      else none
  | .openFile acquire, .fails errno =>
      if errno = acquire.absent then
        some (resume cache (acquire.afterRefusal config depth ++ rest))
      else some (raise cache depth)
  | .lockFile acquire fd, .ok =>
      (fcntl cache fd (some acquire.kind)).map fun cache =>
        resume (record cache acquire.file fd) (acquire.afterLock config depth fd ++ rest)
  | .lockFile acquire fd, .fails errno =>
      if errno ∈ acquire.unavailable then
        some (resume (closeFd cache fd) (acquire.afterRefusal config depth ++ rest))
      else some (raise (closeFd cache fd) depth)
  | .toShared fd, .ok => (fcntl cache fd (some .read)).map fun cache => resume cache rest
  | .unlockFile fd, .ok => (fcntl cache fd none).map fun cache => resume cache rest
  | .closeFile fd, .ok => some (resume (closeFd cache fd) rest)
  | .closeRecorded file fd, .ok => some (unlockNext (closeFd cache fd) depth file rest)
  | _, .fails _ => some (raise cache depth)
  | _, _ => none

inductive Operation
  | createAndLock (target : String)
  | getReadLock (target : String)
  | exclusiveToSharedLock (fd : Nat)
  | updateCacheInfo (target : String)
  | getCacheSize
  | cacheTooBig (currentSize : UInt64)
  | updateAndPurge (newFile : String)
  | purgeFile (file : String)
  | unlockAndClose (file : String)
deriving DecidableEq

def start (config : Config) (cache : LockingCache) : Operation → LockingCache
  | .createAndLock target =>
      resume cache (inTry 0 [.lockCache .write, .openFile (.created target), .unlockCache])
  | .getReadLock target =>
      resume cache (inTry 0 [.lockCache .read, .openFile (.shared target), .unlockCache])
  | .exclusiveToSharedLock fd => resume cache (inTry 0 [.toShared fd])
  | .updateCacheInfo target =>
      resume cache (inTry 1 [.lockCache .write, .plain .rewind, .plain .readSize,
        .plain (.stat target), .plain .rewind, .plain .writeSize, .unlockCache])
  | .getCacheSize => resume cache (ControlLock.getCacheSize 0)
  | .cacheTooBig _ => resume cache []
  | .updateAndPurge newFile =>
      if config.isUnlimited then resume cache []
      else resume cache (inTry 1 [.lockCache .write, .scan newFile, .plain .rewind,
        .plain .writeSize, .unlockCache])
  | .purgeFile file =>
      resume cache (inTry 1 [.lockCache .write, .openFile (.exclusive file), .unlockCache])
  | .unlockAndClose file => unlockNext cache 0 file []

inductive Event
  | call (operation : Operation)
  | answer (answer : Answer)
deriving DecidableEq

def step (config : Config) (cache : LockingCache) (event : Event) : Option LockingCache :=
  match cache.phase, event with
  | .idle, .call operation => some (start config cache operation)
  | .running (instr :: rest), .answer answer =>
      afterCall config cache instr.depth rest instr.call answer
  | .unwinding outer, .answer .ok =>
      (fcntl cache cache.cacheInfoFd none).map fun cache => raise cache outer
  | .unwinding outer, .answer (.fails _) => some (raise cache outer)
  | _, _ => none

def NoLeak (control : Nat) (cache : LockingCache) : Prop :=
  cache.phase = .idle → cache.files.lock control = none

def unlocked (control : Nat) (cache : LockingCache) : Bool :=
  decide (cache.files.lock control = none)

def onControl (control : Nat) (cache : LockingCache) (fd : Nat) : Bool :=
  decide (cache.files.inodeOf fd = some control)

/-- The unlock of `d_cache_info_fd` leaves no lock on the control file. -/
def unlocks (control : Nat) (cache : LockingCache) : Answer → Bool
  | .ok => unlocked control cache || onControl control cache cache.cacheInfoFd
  | _ => unlocked control cache

/-- What a call outside every `try` block has to bring, as its failure ends the
operation at once. -/
def safeOutside (control : Nat) (cache : LockingCache) : Call → Answer → Bool
  | .openFile acquire, .fails errno => decide (errno = acquire.absent) || unlocked control cache
  | .lockFile _ fd, .fails _ => unlocked control cache || onControl control cache fd
  | .unlockCache, answer => unlocks control cache answer
  | .toShared fd, .ok => !onControl control cache fd
  | _, _ => true

/-- The answer leaves no lock behind where it ends the operation: it answers a call
outside every `try` block, the unlock at the end, or the unlock in the outermost
handler. -/
def careful (control : Nat) (cache : LockingCache) (event : Event) : Bool :=
  match cache.phase, event with
  | .running (⟨0, call⟩ :: _), .answer answer => safeOutside control cache call answer
  | .running [⟨_ + 1, .unlockCache⟩], .answer .ok => unlocks control cache .ok
  | .unwinding 0, .answer answer => unlocks control cache answer
  | _, _ => true

def Careful (control : Nat) (cache : LockingCache) (event : Event) : Prop :=
  careful control cache event = true

instance (control : Nat) (cache : LockingCache) : DecidablePred (Careful control cache) :=
  fun event => inferInstanceAs (Decidable (careful control cache event = true))

/-- `createLockedFile` and `getSharedLock`, which are called outside `try` blocks. -/
def Acquire.simple : Acquire → Bool
  | .created _ | .shared _ => true
  | _ => false

/-- The lists of calls that occur. Outside `try` blocks they are the remainders of
four short operations; `unlocked` says that the control file is not locked. -/
inductive Fits (unlocked : Prop) : List Instr → Prop
  | lockCache (kind : LockKind) (acquire : Acquire) (hsimple : acquire.simple = true)
      (hunlocked : unlocked) :
      Fits unlocked (inTry 0 [.lockCache kind, .openFile acquire, .unlockCache])
  | openFile (acquire : Acquire) (hsimple : acquire.simple = true) :
      Fits unlocked (inTry 0 [.openFile acquire, .unlockCache])
  | lockFile (acquire : Acquire) (fd : Nat) (hsimple : acquire.simple = true) :
      Fits unlocked (inTry 0 [.lockFile acquire fd, .unlockCache])
  | unlockCache : Fits unlocked (inTry 0 [.unlockCache])
  | toShared (fd : Nat) (hunlocked : unlocked) : Fits unlocked (inTry 0 [.toShared fd])
  | unlockFile (file : String) (fd : Nat) (hunlocked : unlocked) :
      Fits unlocked (inTry 0 [.unlockFile fd, .closeRecorded file fd])
  | closeRecorded (file : String) (fd : Nat) (hunlocked : unlocked) :
      Fits unlocked (inTry 0 [.closeRecorded file fd])
  | guarded (front : List Instr) (hdepth : ∀ instr ∈ front, 0 < instr.depth) :
      Fits unlocked (front ++ inTry 1 [.unlockCache])

def Fitting (control : Nat) (cache : LockingCache) : Prop :=
  ∀ code, cache.phase = .running code → Fits (cache.files.lock control = none) code

section

variable {config : Config} {control : Nat} {cache : LockingCache}

@[simp] theorem resume_cons (instr : Instr) (code : List Instr) :
    (resume cache (instr :: code)).phase = .running (instr :: code) := rfl

@[simp] theorem resume_nil : (resume cache []).phase = .idle := rfl

@[simp] theorem resume_files (code : List Instr) : (resume cache code).files = cache.files := by
  cases code <;> rfl

theorem noLeak_resume_nil : NoLeak control (resume cache []) ↔ cache.files.lock control = none := by
  simp [NoLeak]

theorem noLeak_resume_cons (instr : Instr) (code : List Instr) :
    NoLeak control (resume cache (instr :: code)) := by
  simp [NoLeak]

theorem noLeak_raise_zero : NoLeak control (raise cache 0) ↔ cache.files.lock control = none := by
  simp [NoLeak, raise]

theorem noLeak_raise_succ (outer : Nat) : NoLeak control (raise cache (outer + 1)) := by
  simp [NoLeak, raise]

theorem fitting_resume_nil : Fitting control (resume cache []) := by
  simp [Fitting]

theorem fitting_resume (hfits : Fits (cache.files.lock control = none) code) :
    Fitting control (resume cache code) := by
  cases code with
  | nil => exact fitting_resume_nil
  | cons instr code =>
    intro other hother
    rw [resume_cons, Phase.running.injEq] at hother
    rw [← hother, resume_files]
    exact hfits

theorem fitting_raise (depth : Nat) : Fitting control (raise cache depth) := by
  cases depth <;> simp [Fitting, raise]

def Deeper (depth : Nat) (code : List Instr) : Prop := ∀ instr ∈ code, depth ≤ instr.depth

variable {depth fd : Nat} {answer : Answer}

theorem deeper_inTry {inner : Nat} (hle : depth ≤ inner) (calls : List Call) :
    Deeper depth (inTry inner calls) := by
  intro instr hins
  obtain ⟨call, -, rfl⟩ := List.mem_map.mp hins
  exact hle

theorem Deeper.append (hfirst : Deeper depth first)
    (hsecond : Deeper depth second) : Deeper depth (first ++ second) := by
  intro instr hins
  exact (List.mem_append.mp hins).elim (hfirst instr) (hsecond instr)

theorem deeper_afterRefusal (depth : Nat) (acquire : Acquire) :
    Deeper depth (acquire.afterRefusal config depth) := by
  cases acquire with
  | exclusiveNb newFile entry rest computedSize => exact deeper_inTry le_rfl _
  | _ => exact deeper_inTry le_rfl []

theorem deeper_afterLock (depth fd : Nat) (acquire : Acquire) :
    Deeper depth (acquire.afterLock config depth fd) := by
  cases acquire with
  | exclusive file =>
    apply Deeper.append _ (deeper_inTry le_rfl _)
    exact (deeper_inTry le_rfl _).append (deeper_inTry (Nat.le_succ depth) _)
  | exclusiveNb newFile entry rest computedSize => exact deeper_inTry le_rfl _
  | _ => exact deeper_inTry le_rfl []

def Continues (depth : Nat) (rest : List Instr) (cache' : LockingCache) : Prop :=
  (∃ next, cache' = raise next depth) ∨
    ∃ pushed next, Deeper depth pushed ∧ cache' = resume next (pushed ++ rest)

theorem continues_raise (depth : Nat) (rest : List Instr) :
    Continues depth rest (raise cache depth) := .inl ⟨cache, rfl⟩

theorem continues_resume (depth : Nat) (rest : List Instr) : Continues depth rest (resume cache rest) :=
  .inr ⟨[], cache, deeper_inTry le_rfl [], rfl⟩

theorem continues_push (hdee : Deeper depth pushed)
    (rest : List Instr) : Continues depth rest (resume cache (pushed ++ rest)) :=
  .inr ⟨pushed, cache, hdee, rfl⟩

theorem continues_unlockNext (depth : Nat) (file : String) (rest : List Instr) :
    Continues depth rest (unlockNext cache depth file rest) := by
  unfold unlockNext
  split
  · exact continues_resume depth rest
  · exact continues_push (deeper_inTry le_rfl _) rest

theorem afterCall_continues (hafter : afterCall config cache depth rest call answer = some cache') :
    Continues depth rest cache' := by
  cases answer with
  | ok =>
    cases call
    case lockCache | unlockCache | toShared | unlockFile =>
      obtain ⟨next, -, rfl⟩ := map_eq_some_iff.mp hafter
      exact continues_resume depth rest
    case plain | sizeOf | closeFile =>
      cases hafter
      exact continues_resume depth rest
    case lockFile =>
      obtain ⟨next, -, rfl⟩ := map_eq_some_iff.mp hafter
      exact continues_push (deeper_afterLock depth _ _) rest
    case closeRecorded =>
      cases hafter
      exact continues_unlockNext depth _ rest
    case scan | openFile => contradiction
  | descriptor fd inode =>
    cases call
    case openFile =>
      rw [afterCall] at hafter
      split at hafter
      · cases hafter
        exact continues_push (deeper_inTry le_rfl _) rest
      · contradiction
    all_goals contradiction
  | entries contents =>
    cases call
    case scan =>
      cases hafter
      exact continues_push (deeper_inTry le_rfl _) rest
    all_goals contradiction
  | fails errno =>
    cases call
    case sizeOf =>
      cases hafter
      exact continues_resume depth rest
    case openFile | lockFile =>
      rw [afterCall] at hafter
      split at hafter
      · cases hafter
        exact continues_push (deeper_afterRefusal depth _) rest
      · cases hafter
        exact continues_raise depth rest
    -- every other failure is thrown
    all_goals
      cases hafter
      exact continues_raise depth rest

theorem fcntl_eq_some (hfcn : fcntl cache fd kind = some cache') :
    ∃ files, cache.files.setLock fd kind = some files ∧ cache' = { cache with files := files } := by
  obtain ⟨files, hfil, rfl⟩ := map_eq_some_iff.mp hfcn
  exact ⟨files, hfil, rfl⟩

theorem unlocked_iff : unlocked control cache = true ↔ cache.files.lock control = none := by
  simp [unlocked]

theorem onControl_iff : onControl control cache fd = true ↔ cache.files.inodeOf fd = some control := by
  simp [onControl]

theorem unlocks_ok_iff (hfcn : fcntl cache cache.cacheInfoFd none = some cache') :
    cache'.files.lock control = none ↔ unlocks control cache .ok = true := by
  obtain ⟨files, hfil, rfl⟩ := fcntl_eq_some hfcn
  rw [Files.lock_setLock_none hfil, unlocks, Bool.or_eq_true, unlocked_iff, onControl_iff]

/-- What a step must show: the calls that remain are known, and the lock is gone at
the end exactly when the answer was a careful one. -/
def StepSound (control : Nat) (cache' : LockingCache) (careful : Bool) : Prop :=
  Fitting control cache' ∧ (NoLeak control cache' ↔ careful = true)

theorem stepSound_go_on (hfits : Fits (cache.files.lock control = none) (instr :: code)) :
    StepSound control (resume cache (instr :: code)) true :=
  ⟨fitting_resume hfits, iff_of_true (noLeak_resume_cons instr code) rfl⟩

theorem stepSound_return {careful : Bool} (hiff : cache.files.lock control = none ↔ careful = true) :
    StepSound control (resume cache []) careful :=
  ⟨fitting_resume_nil, noLeak_resume_nil.trans hiff⟩

theorem stepSound_throw {careful : Bool} (hiff : cache.files.lock control = none ↔ careful = true) :
    StepSound control (raise cache 0) careful :=
  ⟨fitting_raise 0, noLeak_raise_zero.trans hiff⟩

theorem Acquire.simple_spec (config : Config) {acquire : Acquire} (hsim : acquire.simple = true) :
    (∀ depth, acquire.afterRefusal config depth = []) ∧
    (∀ depth fd, acquire.afterLock config depth fd = []) ∧ acquire.unavailable = [] := by
  cases acquire <;> simp_all [Acquire.simple, Acquire.afterRefusal, Acquire.afterLock,
    Acquire.unavailable]

theorem openFile_sound (hsim : acquire.simple = true)
    (hafter : afterCall config cache 0 (inTry 0 [.unlockCache]) (.openFile acquire) answer = some cache') :
    StepSound control cache' (safeOutside control cache (.openFile acquire) answer) := by
  obtain ⟨href, -, -⟩ := Acquire.simple_spec config hsim
  cases answer with
  | descriptor fd inode =>
    simp only [afterCall] at hafter
    split at hafter
    · cases hafter
      exact stepSound_go_on (.lockFile acquire fd hsim)
    · cases hafter
  | fails errno =>
    simp only [afterCall, href] at hafter
    by_cases habs : errno = acquire.absent
    · rw [if_pos habs] at hafter
      cases hafter
      rw [safeOutside, decide_eq_true habs, Bool.true_or]
      exact stepSound_go_on .unlockCache
    · rw [if_neg habs] at hafter
      cases hafter
      exact stepSound_throw (by simp [safeOutside, habs, unlocked])
  | ok | entries _ => cases hafter

theorem lockFile_sound (hsim : acquire.simple = true)
    (hafter : afterCall config cache 0 (inTry 0 [.unlockCache]) (.lockFile acquire fd) answer =
      some cache') :
    StepSound control cache' (safeOutside control cache (.lockFile acquire fd) answer) := by
  obtain ⟨-, hlock, huna⟩ := Acquire.simple_spec config hsim
  cases answer with
  | ok =>
    simp only [afterCall, hlock] at hafter
    obtain ⟨next, -, rfl⟩ := map_eq_some_iff.mp hafter
    exact stepSound_go_on .unlockCache
  | fails errno =>
    simp only [afterCall, huna, List.not_mem_nil, if_false, some.injEq] at hafter
    subst hafter
    apply stepSound_throw
    -- the descriptor just opened is closed, which drops a lock on its file
    rw [closeFd, Files.lock_close, safeOutside, Bool.or_eq_true, unlocked_iff, onControl_iff]
  | descriptor _ _ | entries _ => cases hafter

theorem unlockCache_sound (hafter : afterCall config cache 0 [] .unlockCache answer = some cache') :
    StepSound control cache' (safeOutside control cache .unlockCache answer) := by
  cases answer with
  | ok =>
    obtain ⟨next, hnext, rfl⟩ := map_eq_some_iff.mp hafter
    exact stepSound_return (unlocks_ok_iff hnext)
  | fails errno =>
    cases hafter
    exact stepSound_throw unlocked_iff.symm
  | descriptor _ _ | entries _ => cases hafter

theorem toShared_sound (hunl : cache.files.lock control = none)
    (hafter : afterCall config cache 0 [] (.toShared fd) answer = some cache') :
    StepSound control cache' (safeOutside control cache (.toShared fd) answer) := by
  cases answer with
  | ok =>
    obtain ⟨next, hnext, rfl⟩ := map_eq_some_iff.mp hafter
    obtain ⟨files, hfil, rfl⟩ := fcntl_eq_some hnext
    apply stepSound_return
    rw [Files.lock_setLock_some hfil]
    simp [safeOutside, onControl, hunl]
  | fails errno =>
    cases hafter
    exact stepSound_throw (by simp [safeOutside, hunl])
  | descriptor _ _ | entries _ => cases hafter

theorem unlockNext_sound (hunl : cache.files.lock control = none) (file : String) :
    StepSound control (unlockNext cache 0 file []) true := by
  unfold unlockNext
  split
  · exact stepSound_return (by simp [hunl])
  · exact stepSound_go_on (.unlockFile file _ hunl)

theorem outside_sound (hfits : Fits (cache.files.lock control = none) (⟨0, call⟩ :: rest))
    (hafter : afterCall config cache 0 rest call answer = some cache') :
    StepSound control cache' (safeOutside control cache call answer) := by
  generalize hcod : (⟨0, call⟩ :: rest : List Instr) = code at hfits
  cases hfits with
  | lockCache kind acquire hsimple hunlocked =>
    cases hcod
    cases answer with
    | ok =>
      obtain ⟨next, -, rfl⟩ := map_eq_some_iff.mp hafter
      exact stepSound_go_on (.openFile acquire hsimple)
    | fails errno =>
      cases hafter
      exact stepSound_throw (by simp [safeOutside, hunlocked])
    | descriptor _ _ | entries _ => cases hafter
  | openFile acquire hsimple =>
    cases hcod
    exact openFile_sound hsimple hafter
  | lockFile acquire fd hsimple =>
    cases hcod
    exact lockFile_sound hsimple hafter
  | unlockCache =>
    cases hcod
    exact unlockCache_sound hafter
  | toShared fd hunlocked =>
    cases hcod
    exact toShared_sound hunlocked hafter
  | unlockFile file fd hunlocked =>
    cases hcod
    cases answer with
    | ok =>
      obtain ⟨next, hnext, rfl⟩ := map_eq_some_iff.mp hafter
      obtain ⟨files, hfil, rfl⟩ := fcntl_eq_some hnext
      have hsti := (Files.lock_setLock_none hfil control).mpr (.inl hunlocked)
      exact stepSound_go_on (.closeRecorded file fd hsti)
    | fails errno =>
      cases hafter
      exact stepSound_throw (by simp [safeOutside, hunlocked])
    | descriptor _ _ | entries _ => cases hafter
  | closeRecorded file fd hunlocked =>
    cases hcod
    cases answer with
    | ok =>
      cases hafter
      exact unlockNext_sound ((Files.lock_close fd control).mpr (.inl hunlocked)) file
    | fails errno =>
      cases hafter
      exact stepSound_throw (by simp [safeOutside, hunlocked])
    | descriptor _ _ | entries _ => cases hafter
  | guarded front hdep =>
    cases front with
    | nil => cases hcod
    | cons instr front =>
      cases hcod
      exact absurd (hdep _ List.mem_cons_self) (lt_irrefl 0)

section

-- `careful` is unfolded as it stands: its equations take long to generate, and every proof that
-- asks for them at the same time waits for them on a thread of its own.

theorem careful_idle (hphase : cache.phase = .idle) (event : Event) :
    careful control cache event = true := by
  delta careful
  rw [hphase]

theorem careful_outside (hphase : cache.phase = .running (⟨0, call⟩ :: rest)) (answer : Answer) :
    careful control cache (.answer answer) = safeOutside control cache call answer := by
  delta careful
  rw [hphase]

theorem careful_inside
    (hphase : cache.phase = .running (⟨depth + 1, call⟩ :: instr :: rest)) (answer : Answer) :
    careful control cache (.answer answer) = true := by
  delta careful
  rw [hphase]
  cases call <;> rfl

theorem careful_last_ok (hphase : cache.phase = .running [⟨depth + 1, .unlockCache⟩]) :
    careful control cache (.answer .ok) = unlocks control cache .ok := by
  delta careful
  rw [hphase]

theorem careful_last_fails (hphase : cache.phase = .running [⟨depth + 1, .unlockCache⟩]) (errno : Errno) :
    careful control cache (.answer (.fails errno)) = true := by
  delta careful
  rw [hphase]

theorem careful_unwinding_zero (hphase : cache.phase = .unwinding 0) (answer : Answer) :
    careful control cache (.answer answer) = unlocks control cache answer := by
  delta careful
  rw [hphase]
  rfl

theorem careful_unwinding_succ (hphase : cache.phase = .unwinding (outer + 1))
    (answer : Answer) : careful control cache (.answer answer) = true := by
  delta careful
  rw [hphase]
  rfl

end

theorem inside_sound (hphase : cache.phase = .running (⟨depth + 1, call⟩ :: rest))
    (hfits : Fits (cache.files.lock control = none) (⟨depth + 1, call⟩ :: rest))
    (hafter : afterCall config cache (depth + 1) rest call answer = some cache') :
    StepSound control cache' (careful control cache (.answer answer)) := by
  generalize hcod : (⟨depth + 1, call⟩ :: rest : List Instr) = code at hfits
  cases hfits with
  | guarded front hdepth =>
    cases front with
    | nil =>
      -- the unlock at the end of the block
      cases hcod
      cases answer with
      | ok =>
        obtain ⟨next, hnext, rfl⟩ := map_eq_some_iff.mp hafter
        rw [careful_last_ok hphase]
        exact stepSound_return (unlocks_ok_iff hnext)
      | fails errno =>
        cases hafter
        rw [careful_last_fails hphase]
        exact ⟨fitting_raise 1, iff_of_true (noLeak_raise_succ 0) rfl⟩
      | descriptor _ _ | entries _ => cases hafter
    | cons instr front =>
      cases hcod
      have hcar : careful control cache (.answer answer) = true := by
        cases front with
        | nil => exact careful_inside hphase answer
        | cons next front => exact careful_inside hphase answer
      rw [hcar]
      rcases afterCall_continues hafter with ⟨next, rfl⟩ | ⟨pushed, next, hdee, rfl⟩
      · exact ⟨fitting_raise _, iff_of_true (noLeak_raise_succ depth) rfl⟩
      · have hfront : ∀ instr ∈ pushed ++ front, 0 < instr.depth := by
          intro instr hins
          rcases List.mem_append.mp hins with hpus | hrest
          · exact lt_of_lt_of_le (Nat.succ_pos depth) (hdee instr hpus)
          · exact hdepth instr (List.mem_cons_of_mem _ hrest)
        have hnext : Fits (next.files.lock control = none)
            (pushed ++ (front ++ inTry 1 [.unlockCache])) := by
          rw [← List.append_assoc]
          exact .guarded (pushed ++ front) hfront
        refine ⟨fitting_resume hnext, iff_of_true ?_ rfl⟩
        cases hlast : pushed ++ (front ++ inTry 1 [.unlockCache]) with
        | nil => simp [inTry] at hlast
        | cons instr code => exact noLeak_resume_cons instr code
  | _ => cases hcod

theorem start_sound (hunl : cache.files.lock control = none) (operation : Operation) :
    StepSound control (start config cache operation) true := by
  have hreturn : StepSound control (resume cache []) true := stepSound_return (by simp [hunl])
  have hblock : ∀ instr calls, (∀ i ∈ instr :: calls, 0 < i.depth) →
      StepSound control (resume cache (instr :: calls ++ inTry 1 [.unlockCache])) true := by
    intro instr calls hdep
    exact stepSound_go_on (.guarded (instr :: calls) hdep)
  cases operation with
  | createAndLock target => exact stepSound_go_on (.lockCache .write (.created target) rfl hunl)
  | getReadLock target => exact stepSound_go_on (.lockCache .read (.shared target) rfl hunl)
  | exclusiveToSharedLock fd => exact stepSound_go_on (.toShared fd hunl)
  | updateCacheInfo target =>
    exact hblock ⟨1, .lockCache .write⟩ (inTry 1 [.plain .rewind, .plain .readSize,
      .plain (.stat target), .plain .rewind, .plain .writeSize]) (by simp [inTry])
  | getCacheSize =>
    exact hblock ⟨1, .lockCache .read⟩ (inTry 1 [.plain .rewind, .plain .readSize]) (by simp [inTry])
  | cacheTooBig currentSize => exact hreturn
  | updateAndPurge newFile =>
    rw [start]
    split
    · exact hreturn
    · exact hblock ⟨1, .lockCache .write⟩ (inTry 1 [.scan newFile, .plain .rewind,
        .plain .writeSize]) (by simp [inTry])
  | purgeFile file =>
    exact hblock ⟨1, .lockCache .write⟩ (inTry 1 [.openFile (.exclusive file)]) (by simp [inTry])
  | unlockAndClose file => exact unlockNext_sound hunl file

theorem step_sound (hnol : NoLeak control cache) (hfit : Fitting control cache) (hstep : step config cache event = some cache') :
    StepSound control cache' (careful control cache event) := by
  cases hphase : cache.phase with
  | idle =>
    cases event with
    | answer answer => simp [step, hphase] at hstep
    | call operation =>
      simp only [step, hphase, some.injEq] at hstep
      rw [← hstep, careful_idle hphase]
      exact start_sound (hnol hphase) operation
  | running code =>
    cases event with
    | call operation => cases code <;> simp [step, hphase] at hstep
    | answer answer =>
      cases code with
      | nil => simp [step, hphase] at hstep
      | cons instr rest =>
        have hfits := hfit _ hphase
        simp only [step, hphase] at hstep
        cases instr with
        | mk depth call =>
          cases depth with
          | zero =>
            rw [careful_outside hphase]
            exact outside_sound hfits hstep
          | succ depth => exact inside_sound hphase hfits hstep
  | unwinding outer =>
    cases event with
    | call operation => simp [step, hphase] at hstep
    | answer answer =>
      cases answer with
      | ok =>
        simp only [step, hphase] at hstep
        obtain ⟨next, hnext, rfl⟩ := map_eq_some_iff.mp hstep
        cases outer with
        | zero =>
          rw [careful_unwinding_zero hphase]
          exact stepSound_throw (unlocks_ok_iff hnext)
        | succ outer =>
          rw [careful_unwinding_succ hphase]
          exact ⟨fitting_raise _, iff_of_true (noLeak_raise_succ outer) rfl⟩
      | fails errno =>
        simp only [step, hphase, some.injEq] at hstep
        rw [← hstep]
        cases outer with
        | zero =>
          rw [careful_unwinding_zero hphase]
          exact stepSound_throw unlocked_iff.symm
        | succ outer =>
          rw [careful_unwinding_succ hphase]
          exact ⟨fitting_raise _, iff_of_true (noLeak_raise_succ outer) rfl⟩
      | descriptor _ _ | entries _ => simp [step, hphase] at hstep

end

/-- A process that is between operations and has no lock on the control file may
call what it likes: it stays without the lock between operations exactly when every
answer along the way is a careful one. -/
theorem noLeak_throughout_iff_careful (config : Config) (control : Nat) (cache : LockingCache)
    (hidle : cache.phase = .idle) (hunlocked : cache.files.lock control = none) (events : List Event) :
    Throughout (step config) (NoLeak control) cache events ↔
      Guarded (step config) (Careful control) cache events := by
  apply throughout_iff_guarded (fun cache => NoLeak control cache ∧ Fitting control cache)
  · intro cache hinv
    exact hinv.1
  · intro cache event cache' hinv hcar hstep
    have hsou := step_sound hinv.1 hinv.2 hstep
    exact ⟨hsou.2.mpr hcar, hsou.1⟩
  · intro cache event cache' hinv hstep hnoLeak
    exact (step_sound hinv.1 hinv.2 hstep).2.mp hnoLeak
  · refine ⟨fun _ => hunlocked, ?_⟩
    intro code hcode
    rw [hidle] at hcode
    cases hcode

def openedCache : LockingCache where
  cacheInfoFd := 3
  locks := []
  files := ⟨[(3, 0)], fun _ => none⟩
  phase := .idle

def fullDevice : List Event :=
  [.call (.createAndLock "/tmp/bes_cache/f"), .answer .ok, .answer (.fails (.other 28))]

/-- The exception leaves the write lock where it is. -/
theorem fullDevice_leaks : openedCache.phase = .idle ∧ openedCache.files.lock 0 = none ∧
      (∃ cache, run (step megabyte) openedCache fullDevice = some cache ∧
        cache.phase = .idle ∧ cache.files.lock 0 = some .write) ∧
      ¬ Throughout (step megabyte) (NoLeak 0) openedCache fullDevice := by
  have hrun : run (step megabyte) openedCache fullDevice =
      some ⟨3, [], ⟨[(3, 0)], Function.update (fun _ => none) 0 (some .write)⟩, .idle⟩ := rfl
  refine ⟨rfl, rfl, ⟨_, hrun, rfl, rfl⟩, ?_⟩
  intro hthru
  have hnone := hthru.last hrun rfl
  exact absurd hnone (by decide)

def failedUnlink : List Event :=
  [.call (.purgeFile "/tmp/bes_cache/f"), .answer .ok, .answer (.descriptor 4 1), .answer .ok,
    .answer .ok, .answer (.fails .eacces), .answer .ok]

theorem noLeak_throughout_iff_careful_failedUnlink :
    Guarded (step megabyte) (Careful 0) openedCache failedUnlink ∧
      Throughout (step megabyte) (NoLeak 0) openedCache failedUnlink :=
  ⟨by decide, (noLeak_throughout_iff_careful megabyte 0 openedCache rfl rfl failedUnlink).mpr
    (by decide)⟩

end Bes.Cache.ControlLock
