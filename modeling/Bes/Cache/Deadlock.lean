import Bes.Cache.ClientProtocol

/-! Deadlock in the client protocol. A process that waits for a file of the cache
holds at most the control file, and one that waits for the control file holds at
most a read lock on a file it has created. So waiting ends after two steps unless a
purge waits for such a reader. -/
namespace Bes.Cache.ClientProtocol
open Lib.Run Lib.FileLock Lib.WaitFor List Option

variable {File : Type}

/-! Which locks a process has in which phase. -/

def holding (inode : Nat) (kind : LockKind) : Nat → Option LockKind :=
  Function.update (fun _ => none) inode (some kind)

def Phase.dataLocks : Phase File → Nat → Option LockKind
  | .readUnlockCache inode | .reading inode => holding inode .read
  | .createUnlockCache own | .writing own => holding own.inode .write
  | .infoLockCache own | .infoUnlockCache own | .purgeLockCache own | .purgeScan own
  | .purgeLoop own _ | .purgeUnlockCache own => holding own.inode .read
  | .purgeUnlock own _ inode _ =>
      Function.update (holding own.inode .read) inode (some .write)
  | .purgeFileUnlock _ inode => holding inode .write
  | _ => fun _ => none

/-- The lock on the control file, where the phase determines it. The loop of
`update_and_purge` may have purged the control file and lost its lock. -/
def Phase.controlLock : Phase File → Option (Option LockKind)
  | .readOpen _ | .readLockFile _ | .readUnlockCache _ | .purgeFileSizeUnlock =>
      some (some .read)
  | .createOpen _ _ | .createLockFile _ | .createUnlockCache _ | .infoUnlockCache _
  | .purgeScan _ | .purgeFileOpen _ | .purgeFileLock _ _ | .purgeFileUnlock _ _
  | .purgeFileSizeLock => some (some .write)
  | .purgeLoop _ _ | .purgeUnlock _ _ _ _ | .purgeUnlockCache _ => none
  | .leaving held => some held
  | _ => some none

def Phase.own : Phase File → Option (Own File)
  | .createLockFile own | .createUnlockCache own | .writing own | .infoLockCache own
  | .infoUnlockCache own | .purgeLockCache own | .purgeScan own | .purgeLoop own _
  | .purgeUnlock own _ _ _ | .purgeUnlockCache own => some own
  | _ => none

def Phase.inodes (phase : Phase File) : List Nat :=
  match phase with
  | .readLockFile inode | .readUnlockCache inode | .reading inode | .purgeFileLock _ inode
  | .purgeFileUnlock _ inode => [inode]
  | phase => phase.own.toList.map Own.inode

/-- The loop of `update_and_purge` leaves the process's own file alone. -/
def Phase.Apart : Phase File → Prop
  | .purgeLoop own entries => ∀ entry ∈ entries, entry ≠ .file own.file
  | .purgeUnlock own _ inode entries =>
      inode ≠ own.inode ∧ ∀ entry ∈ entries, entry ≠ .file own.file
  | _ => True

/-- The phase fits the directory: its files exist or have existed, and a file that
the process created has no other name than the one it was created under. -/
structure Placed (shared : Shared File) (phase : Phase File) : Prop where
  inodes : ∀ inode ∈ phase.inodes, 0 < inode ∧ inode < shared.nextInode
  ownName : ∀ own ∈ phase.own, ∀ entry ∈ shared.directory, entry.2 = own.inode → entry.1 = own.file
  apart : phase.Apart

structure Sound (shared : Shared File) (process : Process File) : Prop where
  placed : Placed shared process.phase
  data : ∀ inode ≠ control, process.locks inode = process.phase.dataLocks inode
  onControl : ∀ held ∈ process.phase.controlLock, process.locks control = held

structure Shared.Valid (shared : Shared File) : Prop where
  next_pos : 0 < shared.nextInode
  numbered : ∀ entry ∈ shared.directory, 0 < entry.2 ∧ entry.2 < shared.nextInode

structure Extends (shared shared' : Shared File) : Prop where
  next_le : shared.nextInode ≤ shared'.nextInode
  entries : ∀ entry ∈ shared'.directory, entry ∈ shared.directory ∨ shared.nextInode ≤ entry.2

section

variable {shared : Shared File}

variable {phase : Phase File} {inode : Nat}

theorem Placed.mono (hplace : Placed shared phase)
    (hext : Extends shared shared') : Placed shared' phase := by
  refine ⟨?_, ?_, hplace.apart⟩
  · intro inode hino
    have hbd := hplace.inodes inode hino
    exact ⟨hbd.1, Nat.lt_of_lt_of_le hbd.2 hext.next_le⟩
  · intro own hown entry hent hsame
    rcases hext.entries entry hent with hold | hnew
    · exact hplace.ownName own hown entry hold hsame
    · -- a new number is not that of a file which the process has already
      have hbd : own.inode < shared.nextInode := by
        apply (hplace.inodes own.inode _).2
        cases phase <;> simp_all [Phase.own, Phase.inodes]
      omega

theorem Sound.mono (hsou : Sound shared process) (hext : Extends shared shared') :
    Sound shared' process :=
  ⟨hsou.placed.mono hext, hsou.data, hsou.onControl⟩

theorem Sound.move (hsou : Sound shared process) (hplace : Placed shared' phase')
    (hdat : phase'.dataLocks = process.phase.dataLocks)
    (hcontrol : ∀ held ∈ phase'.controlLock, held ∈ process.phase.controlLock) :
    Sound shared' { process with phase := phase' } := by
  refine ⟨hplace, ?_, ?_⟩
  · intro inode hino
    rw [hsou.data inode hino, hdat]
  · intro held hheld
    exact hsou.onControl held (hcontrol held hheld)

theorem Sound.setLock (hsou : Sound shared process) (hplace : Placed shared' phase')
    (hdat : ∀ other ≠ control,
      phase'.dataLocks other = Function.update process.phase.dataLocks inode kind other)
    (hcontrol : ∀ held ∈ phase'.controlLock, Function.update process.locks inode kind control = held) :
    Sound shared' (process.setLock inode kind phase') := by
  refine ⟨hplace, ?_, hcontrol⟩
  intro other hother
  rw [setLock_locks, setLock_phase, hdat other hother]
  by_cases hsame : other = inode
  · simp [hsame]
  · rw [Function.update_of_ne hsame, Function.update_of_ne hsame, hsou.data other hother]

theorem Sound.setControl (hsou : Sound shared process) (kind : Option LockKind)
    (hplace : Placed shared' phase') (hdat : phase'.dataLocks = process.phase.dataLocks)
    (hcontrol : ∀ held ∈ phase'.controlLock, kind = held) :
    Sound shared' (process.setLock control kind phase') := by
  apply hsou.setLock hplace
  · intro other hother
    rw [Function.update_of_ne hother, hdat]
  · intro held hheld
    exact hcontrol held hheld

theorem Sound.setFile (hsou : Sound shared process) (hino : 0 < inode) (hplace : Placed shared' phase')
    (hdat : phase'.dataLocks = Function.update process.phase.dataLocks inode kind)
    (hcontrol : ∀ held ∈ phase'.controlLock, held ∈ process.phase.controlLock) :
    Sound shared' (process.setLock inode kind phase') := by
  apply hsou.setLock hplace fun other _ => congrFun hdat other
  intro held hheld
  rw [Function.update_of_ne (show control ≠ inode from Nat.ne_of_lt hino)]
  exact hsou.onControl held (hcontrol held hheld)

theorem Placed.of_same (hplace : Placed shared phase)
    (hind : phase'.inodes = phase.inodes) (hown : phase'.own = phase.own)
    (hapa : phase'.Apart) : Placed shared phase' := by
  refine ⟨?_, ?_, hapa⟩
  · rw [hind]
    exact hplace.inodes
  · rw [hown]
    exact hplace.ownName

theorem Phase.request_cases (hrequest : phase.request = some (inode, kind)) :
    (inode = control ∧ phase.granted.dataLocks = phase.dataLocks ∧
      phase.granted.controlLock = some (some kind)) ∨ (inode ∈ phase.inodes ∧
      phase.granted.dataLocks = Function.update phase.dataLocks inode (some kind) ∧
      phase.granted.controlLock = phase.controlLock) := by
  cases phase <;> simp only [Phase.request, some.injEq, Prod.mk.injEq, reduceCtorEq]
    at hrequest <;> obtain ⟨rfl, rfl⟩ := hrequest
  case readLockCache | createLockCache | infoLockCache | purgeLockCache | purgeFileLockCache |
      purgeFileSizeLock => exact .inl ⟨rfl, rfl, rfl⟩
  case readLockFile | createLockFile | purgeFileLock =>
    exact .inr ⟨mem_singleton_self _, rfl, rfl⟩
  case writing own =>
    refine .inr ⟨mem_singleton_self _, ?_, rfl⟩
    exact (Function.update_idem _ _ _).symm

theorem Placed.granted (hplace : Placed shared phase) : Placed shared phase.granted := by
  apply hplace.of_same
  · cases phase <;> rfl
  · cases phase <;> rfl
  · have hapa := hplace.apart
    cases phase <;> exact hapa

theorem Sound.lock (hsou : Sound shared process)
    (hrequest : process.phase.request = some (inode, kind)) :
    Sound shared (process.setLock inode (some kind) process.phase.granted) := by
  rcases Phase.request_cases hrequest with ⟨rfl, hdat, hcontrol⟩ | ⟨hino, hdat, hcontrol⟩
  · apply hsou.setControl (some kind) hsou.placed.granted hdat
    rw [hcontrol]
    intro held hheld
    exact some.inj hheld
  · have hpos := (hsou.placed.inodes inode hino).1
    apply hsou.setFile hpos hsou.placed.granted hdat
    rw [hcontrol]
    exact fun held hheld => hheld

end

theorem Extends.refl (shared : Shared File) : Extends shared shared :=
  ⟨le_rfl, fun _ hent => .inl hent⟩

section

variable {shared : Shared File} {process : Process File} {mayLock : Nat → LockKind → Prop}

variable {inode : Nat}

theorem locks_setLock (hmay : ∀ wanted ∈ kind, mayLock inode wanted) (other : Nat) :
    (process.setLock inode kind phase').locks other = process.locks other ∨
    (process.setLock inode kind phase').locks other = none ∨
    ∃ wanted, (process.setLock inode kind phase').locks other = some wanted ∧
      mayLock other wanted := by
  rw [setLock_locks]
  by_cases hother : other = inode
  · subst hother
    rw [Function.update_self]
    cases kind with
    | none => exact .inr (.inl rfl)
    | some wanted => exact .inr (.inr ⟨wanted, rfl, hmay wanted rfl⟩)
  · exact .inl (Function.update_of_ne hother _ _)

structure Follows (phase phase' : Phase File) : Prop where
  own : ∀ own ∈ phase'.own, own ∈ phase.own
  pending : ∀ inode ∈ phase'.pending, inode ∈ phase.pending
  notPurging : ∀ file inode, phase' ≠ .purgeFileLock file inode

theorem follows_granted (phase : Phase File)
    (hrequest : phase.request = some request) : Follows phase phase.granted := by
  refine ⟨?_, ?_, ?_⟩
  · have hsame : phase.granted.own = phase.own := by cases phase <;> rfl
    rw [hsame]
    exact fun own hown => hown
  · cases phase <;> first
      | exact fun inode hino => hino
      | (intro inode hino; cases hino)
      | skip
    case infoLockCache own =>
      intro inode hino
      simp only [Phase.granted, Phase.pending] at hino ⊢
      split at hino
      · exact hino
      · cases hino
  · cases phase <;> simp_all [Phase.granted, Phase.request]

theorem forall_mem_none {p : α → Prop} : ∀ a ∈ (none : Option α), p a :=
  fun a h => absurd h (not_mem_none a)

structure Phase.Free (phase : Phase File) : Prop where
  own : phase.own = none
  pending : phase.pending = none
  apart : phase.Apart
  notPurging : ∀ file inode, phase ≠ .purgeFileLock file inode

theorem placed_of_free (hown : phase'.own = none) (hapa : phase'.Apart)
    (hind : ∀ inode ∈ phase'.inodes, 0 < inode ∧ inode < shared.nextInode) :
    Placed shared phase' := by
  refine ⟨hind, ?_, hapa⟩
  rw [hown]
  exact forall_mem_none

theorem Phase.Free.follows (hfre : phase'.Free) (phase : Phase File) : Follows phase phase' := by
  refine ⟨?_, ?_, hfre.notPurging⟩
  · rw [hfre.own]
    exact forall_mem_none
  · rw [hfre.pending]
    exact forall_mem_none

theorem create_extends (hval : shared.Valid) (file : File) :
    (create shared file).Valid ∧ Extends shared (create shared file) := by
  refine ⟨⟨Nat.succ_pos _, ?_⟩, ⟨Nat.le_succ _, ?_⟩⟩
  · intro entry hent
    rcases mem_append.mp hent with hold | hnew
    · have hbd := hval.numbered entry hold
      exact ⟨hbd.1, Nat.lt_succ_of_lt hbd.2⟩
    · rw [mem_singleton.mp hnew]
      exact ⟨hval.next_pos, Nat.lt_succ_self _⟩
  · intro entry hent
    rcases mem_append.mp hent with hold | hnew
    · exact .inl hold
    · rw [mem_singleton.mp hnew]
      exact .inr le_rfl

variable [DecidableEq File]

/-- Everything the invariants have to know of a step. `mayLock` tells which locks
could be granted. -/
structure Stepped (shared : Shared File) (process : Process File)
    (mayLock : Nat → LockKind → Prop) (shared' : Shared File) (process' : Process File) :
    Prop where
  sound : Sound shared' process'
  valid : shared'.Valid
  grows : Extends shared shared'
  own : ∀ own ∈ process'.phase.own, own ∈ process.phase.own ∨ own.inode = shared.nextInode
  pending : ∀ inode ∈ process'.phase.pending,
    inode ∈ process.phase.pending ∨ inode = shared.nextInode
  purging : ∀ file inode, process'.phase = .purgeFileLock file inode →
    process.phase = .purgeFileOpen file ∧ shared.directory.lookup file = some inode
  locks : ∀ inode, process'.locks inode = process.locks inode ∨ process'.locks inode = none ∨
    ∃ kind, process'.locks inode = some kind ∧ mayLock inode kind

theorem Stepped.of_follows (hsou : Sound shared' process') (hval : shared'.Valid)
    (hgro : Extends shared shared') (hfollow : Follows process.phase process'.phase)
    (hloc : ∀ inode, process'.locks inode = process.locks inode ∨ process'.locks inode = none ∨
      ∃ kind, process'.locks inode = some kind ∧ mayLock inode kind) :
    Stepped shared process mayLock shared' process' where
  sound := hsou
  valid := hval
  grows := hgro
  own := fun own hown => .inl (hfollow.own own hown)
  pending := fun inode hino => .inl (hfollow.pending inode hino)
  purging := fun file inode hphase => absurd hphase (hfollow.notPurging file inode)
  locks := hloc

section

variable (hsou : Sound shared process) (hval : shared.Valid)

include hsou hval

theorem lock_stepped
    (hrequest : process.phase.request = some (inode, kind)) (hmay : mayLock inode kind) :
    Stepped shared process mayLock shared
      (process.setLock inode (some kind) process.phase.granted) := by
  apply Stepped.of_follows (hsou.lock hrequest) hval (Extends.refl shared)
  · exact follows_granted process.phase hrequest
  · apply locks_setLock
    intro wanted hwan
    cases hwan
    exact hmay

theorem unlockControl_stepped (hplace : Placed shared phase')
    (hdat : phase'.dataLocks = process.phase.dataLocks)
    (hcontrol : phase'.controlLock = some none) (hfollow : Follows process.phase phase') :
    Stepped shared process mayLock shared (process.setLock control none phase') := by
  apply Stepped.of_follows _ hval (Extends.refl shared) hfollow (locks_setLock forall_mem_none)
  apply hsou.setControl none hplace hdat
  rw [hcontrol]
  exact fun held hheld => some.inj hheld

theorem move_stepped (hplace : Placed shared phase')
    (hdat : phase'.dataLocks = process.phase.dataLocks)
    (hcontrol : ∀ held ∈ phase'.controlLock, held ∈ process.phase.controlLock)
    (hfollow : Follows process.phase phase') :
    Stepped shared process mayLock shared { process with phase := phase' } :=
  .of_follows (hsou.move hplace hdat hcontrol) hval (Extends.refl shared) hfollow fun _ => .inl rfl

theorem unlockControl_free (hfre : phase'.Free)
    (hind : ∀ inode ∈ phase'.inodes, 0 < inode ∧ inode < shared.nextInode)
    (hdat : phase'.dataLocks = process.phase.dataLocks) (hcontrol : phase'.controlLock = some none) :
    Stepped shared process mayLock shared (process.setLock control none phase') :=
  unlockControl_stepped hsou hval (placed_of_free hfre.own hfre.apart hind) hdat hcontrol
    (hfre.follows _)

theorem move_free (hfre : phase'.Free)
    (hind : ∀ inode ∈ phase'.inodes, 0 < inode ∧ inode < shared.nextInode)
    (hdat : phase'.dataLocks = process.phase.dataLocks)
    (hcontrol : phase'.controlLock = process.phase.controlLock) :
    Stepped shared process mayLock shared { process with phase := phase' } :=
  move_stepped hsou hval (placed_of_free hfre.own hfre.apart hind) hdat
    (fun _ hheld => hcontrol ▸ hheld) (hfre.follows _)

omit hval in
theorem unlockFile_free (hpos : 0 < inode) (hval' : shared'.Valid)
    (hgro : Extends shared shared') (hfre : phase'.Free) (hind : phase'.inodes = [])
    (hheld : process.phase.dataLocks = holding inode kind) (hnone : phase'.dataLocks = fun _ => none)
    (hcontrol : phase'.controlLock = process.phase.controlLock) :
    Stepped shared process mayLock shared' (process.setLock inode none phase') := by
  apply Stepped.of_follows _ hval' hgro (hfre.follows _) (locks_setLock forall_mem_none)
  apply hsou.setFile hpos (placed_of_free hfre.own hfre.apart _) _ fun _ h => hcontrol ▸ h
  · rw [hind]
    exact forall_mem_nil _
  · rw [hnone, hheld]
    exact ((Function.update_idem _ _ _).trans (Function.update_eq_self inode _)).symm

end

theorem mem_of_lookup
    (hloo : shared.directory.lookup file = some inode) : (file, inode) ∈ shared.directory := by
  obtain ⟨before, after, hsplit, -⟩ := lookup_eq_some_iff.mp hloo
  rw [hsplit]
  exact mem_append_right _ mem_cons_self

theorem Shared.Valid.lookup (hval : shared.Valid)
    (hloo : shared.directory.lookup file = some inode) : 0 < inode ∧ inode < shared.nextInode :=
  hval.numbered (file, inode) (mem_of_lookup hloo)

theorem unlink_extends (hval : shared.Valid) (entry : Entry File) :
    (unlink shared entry).Valid ∧ Extends shared (unlink shared entry) := by
  cases entry with
  | control => exact ⟨⟨hval.next_pos, hval.numbered⟩, ⟨le_rfl, fun _ hent => .inl hent⟩⟩
  | file name =>
    refine ⟨⟨hval.next_pos, ?_⟩, ⟨le_rfl, ?_⟩⟩
    · intro entry hent
      exact hval.numbered entry (mem_of_mem_filter hent)
    · intro entry hent
      exact .inl (mem_of_mem_filter hent)

theorem inodeOf_ne_own (hplace : Placed shared process.phase) (hown : process.phase.own = some own)
    (hent : entry ≠ .file own.file)
    (hino : inodeOf shared entry = some inode) : inode ≠ own.inode := by
  cases entry with
  | control =>
    have hpos : 0 < own.inode := by
      apply (hplace.inodes own.inode _).1
      cases hphase : process.phase <;> simp_all [Phase.own, Phase.inodes]
    simp only [inodeOf] at hino
    split at hino
    · cases hino
      exact Nat.ne_of_lt hpos
    · cases hino
  | file name =>
    intro hsame
    have hname := hplace.ownName own hown (name, inode) (mem_of_lookup hino) hsame
    exact hent (congrArg Entry.file hname)

theorem update_holding (hne : inode ≠ own) (kind : LockKind) :
    Function.update (holding own kind) inode none = holding own kind := by
  funext other
  by_cases hother : other = inode
  · simp [hother, holding, Function.update_of_ne hne]
  · rw [Function.update_of_ne hother]

theorem purgeRound_stepped (hsou : Sound shared process) (hval : shared.Valid) (hgraph : ∀ inode, grants inode = true → mayLock inode .write)
    (hphase : process.phase = .purgeLoop own (entry :: entries)) :
    Stepped shared process mayLock shared (purgeRound shared process grants own entry entries) := by
  obtain ⟨phase, locks⟩ := process
  subst hphase
  have hplace := hsou.placed
  have hapa := hplace.apart
  have hrest : ∀ other ∈ entries, other ≠ .file own.file :=
    fun other hother => hapa other (mem_cons_of_mem _ hother)
  have hnext : Placed shared (.purgeLoop own entries) := hplace.of_same rfl rfl hrest
  have hfollow : Follows (.purgeLoop own (entry :: entries)) (.purgeLoop own entries) :=
    ⟨fun _ h => h, forall_mem_none, by simp⟩
  unfold purgeRound
  cases hino : inodeOf shared entry with
  | none => exact move_stepped hsou hval hnext rfl forall_mem_none hfollow
  | some inode =>
    have hne := inodeOf_ne_own hplace rfl (hapa entry mem_cons_self) hino
    dsimp only
    split
    next hgrn =>
      have hlock : Placed shared (.purgeUnlock own entry inode entries) :=
        hplace.of_same rfl rfl ⟨hne, hrest⟩
      refine .of_follows (hsou.setLock hlock (fun _ _ => rfl) forall_mem_none) hval
        (Extends.refl shared) ⟨fun _ h => h, forall_mem_none, by simp⟩ (locks_setLock ?_)
      intro wanted hwan
      cases hwan
      exact hgraph inode hgrn
    · apply Stepped.of_follows _ hval (Extends.refl shared) hfollow (locks_setLock forall_mem_none)
      apply hsou.setLock hnext _ forall_mem_none
      exact fun other _ => (congrFun (update_holding hne .read) other).symm

theorem create_stepped (hsou : Sound shared process) (hval : shared.Valid) (hphase : process.phase = .createOpen file purges) :
    Stepped shared process mayLock (create shared file)
      { process with phase := .createLockFile ⟨file, shared.nextInode, purges⟩ } := by
  obtain ⟨hval', hgro⟩ := create_extends hval file
  have hplace : Placed (create shared file) (.createLockFile ⟨file, shared.nextInode, purges⟩) := by
    refine ⟨?_, ?_, trivial⟩
    · intro inode hino
      rw [mem_singleton.mp hino]
      exact ⟨hval.next_pos, Nat.lt_succ_self _⟩
    · intro own hown entry hent hsame
      cases hown
      rcases mem_append.mp hent with hold | hnew
      · exact absurd hsame (Nat.ne_of_lt (hval.numbered entry hold).2)
      · rw [mem_singleton.mp hnew]
  refine ⟨hsou.move hplace ?_ ?_, hval', hgro, ?_, ?_, ?_, fun _ => .inl rfl⟩
  · rw [hphase]
    rfl
  · rw [hphase]
    exact fun held hheld => hheld
  · intro own hown
    cases hown
    exact .inr rfl
  · intro inode hino
    cases hino
    exact .inr rfl
  · intro other inode hother
    cases hother

theorem advance_stepped (hsou : Sound shared process) (hval : shared.Valid)
    {grants : Nat → Bool} (hgraph : ∀ inode, grants inode = true → mayLock inode .write)
    (hadv : advance shared process grants = some (shared', process')) :
    Stepped shared process mayLock shared' process' := by
  have hplace := hsou.placed
  cases process with
  | mk phase locks =>
  have hbd := hplace.inodes
  cases phase with
  | readOpen file =>
    simp only [advance] at hadv
    split at hadv
    · cases hadv
      exact move_free hsou hval ⟨rfl, rfl, trivial, by simp⟩ (forall_mem_nil _) rfl rfl
    next hloo =>
      cases hadv
      exact move_free hsou hval ⟨rfl, rfl, trivial, by simp⟩
        (forall_mem_singleton.mpr (hval.lookup hloo)) rfl rfl
  | readUnlockCache inode =>
    cases hadv
    exact unlockControl_free hsou hval ⟨rfl, rfl, trivial, by simp⟩ hbd rfl rfl
  | reading inode =>
    cases hadv
    exact unlockFile_free hsou (hbd inode (mem_singleton_self _)).1 hval
      (Extends.refl shared) ⟨rfl, rfl, trivial, by simp⟩ rfl rfl rfl rfl
  | createOpen file purges =>
    simp only [advance] at hadv
    split at hadv
    · cases hadv
      exact move_free hsou hval ⟨rfl, rfl, trivial, by simp⟩ (forall_mem_nil _) rfl rfl
    · cases hadv
      exact create_stepped hsou hval rfl
  | createUnlockCache own =>
    cases hadv
    exact unlockControl_stepped hsou hval (hplace.of_same rfl rfl trivial) rfl rfl
      ⟨fun _ h => h, fun _ h => h, by simp⟩
  | infoUnlockCache own =>
    cases hadv
    cases hprg : own.purges with
    | true =>
      rw [if_pos rfl]
      exact unlockControl_stepped hsou hval (hplace.of_same rfl rfl trivial) rfl rfl
        ⟨fun _ h => h, by simp [Phase.pending, hprg], by simp⟩
    | false =>
      rw [if_neg Bool.false_ne_true]
      exact unlockControl_free hsou hval ⟨rfl, rfl, trivial, by simp⟩ hbd rfl rfl
  | purgeLoop own entries =>
    cases entries with
    | nil =>
      cases hadv
      exact move_stepped hsou hval (hplace.of_same rfl rfl trivial) rfl forall_mem_none
        ⟨fun _ h => h, forall_mem_none, by simp⟩
    | cons entry entries =>
      cases hadv
      exact purgeRound_stepped hsou hval hgraph rfl
  | purgeUnlock own entry inode entries =>
    cases hadv
    obtain ⟨hval', hgro⟩ := unlink_extends hval entry
    have hnext : Placed shared (.purgeLoop own entries) := hplace.of_same rfl rfl hplace.apart.2
    have hdrop : holding own.inode .read = Function.update
        (Function.update (holding own.inode .read) inode (some .write)) inode none := by
      rw [Function.update_idem]
      exact (update_holding hplace.apart.1 .read).symm
    exact .of_follows (hsou.setLock (hnext.mono hgro) (fun other _ => congrFun hdrop other) forall_mem_none)
      hval' hgro ⟨fun _ h => h, forall_mem_none, by simp⟩ (locks_setLock forall_mem_none)
  | purgeUnlockCache own =>
    cases hadv
    exact unlockControl_free hsou hval ⟨rfl, rfl, trivial, by simp⟩ hbd rfl rfl
  | purgeFileOpen file =>
    simp only [advance] at hadv
    split at hadv
    · cases hadv
      exact move_free hsou hval ⟨rfl, rfl, trivial, by simp⟩ (forall_mem_nil _) rfl rfl
    next inode hloo =>
      cases hadv
      have hnext : Placed shared (.purgeFileLock file inode) :=
        placed_of_free rfl trivial (forall_mem_singleton.mpr (hval.lookup hloo))
      refine ⟨hsou.move hnext rfl (fun _ h => h), hval, Extends.refl shared, forall_mem_none, forall_mem_none, ?_,
        fun _ => .inl rfl⟩
      intro other locked hother
      cases hother
      exact ⟨rfl, hloo⟩
  | purgeFileUnlock file inode =>
    cases hadv
    obtain ⟨hval', hgro⟩ := unlink_extends hval (.file file)
    exact unlockFile_free hsou (hbd inode (mem_singleton_self _)).1 hval' hgro
      ⟨rfl, rfl, trivial, by simp⟩ rfl rfl rfl rfl
  | purgeFileSizeUnlock | leaving held =>
    cases hadv
    exact unlockControl_free hsou hval ⟨rfl, rfl, trivial, by simp⟩ (forall_mem_nil _) rfl rfl
  | _ => cases hadv

theorem processStep_stepped {p : Nat} {choice : Choice File}
    (hsou : Sound system.shared process) (hval : system.shared.Valid)
    (hstep : processStep system p process choice = some (shared', process')) :
    Stepped system.shared process (fun inode kind => Grants (system.locksOn inode) p kind)
      shared' process' := by
  cases choice with
  | call operation =>
    simp only [processStep] at hstep
    split at hstep
    next hidl =>
      cases hstep
      apply move_free hsou hval
      · cases operation <;> exact ⟨rfl, rfl, trivial, by simp [Operation.start]⟩
      · cases operation <;> exact forall_mem_nil _
      · rw [hidl]
        cases operation <;> rfl
      · rw [hidl]
        cases operation <;> rfl
    · cases hstep
  | lock =>
    simp only [processStep] at hstep
    cases hrequest : process.phase.request with
    | none =>
      rw [hrequest] at hstep
      cases hstep
    | some request =>
      rw [hrequest] at hstep
      dsimp only at hstep
      split at hstep
      next hgraph =>
        cases hstep
        exact lock_stepped hsou hval hrequest hgraph
      · cases hstep
  | next => exact advance_stepped hsou hval (fun _ h => of_decide_eq_true h) hstep
  | scan entries =>
    simp only [processStep] at hstep
    split at hstep
    next own hphase =>
      split at hstep
      next hapa =>
        cases hstep
        obtain ⟨phase, locks⟩ := process
        subst hphase
        exact move_stepped hsou hval (hsou.placed.of_same rfl rfl hapa) rfl forall_mem_none
          ⟨fun _ h => h, forall_mem_none, by simp⟩
      · cases hstep
    · cases hstep

end

theorem controlLock_of_request (hplace : Placed shared phase)
    (hrequest : phase.request = some (control, kind)) :
    phase.controlLock = some none ∨ phase.controlLock = some (some .write) := by
  have hpos := hplace.inodes
  cases phase <;> simp_all [Phase.request, Phase.controlLock, Phase.inodes, Phase.own, control]

/-- A process that waits and has a lock on a file of the cache is one that created the
file: it is about to give up its write lock, or has done so and waits for the
control file. -/
theorem dataLocks_of_request {phase : Phase File} (hrequest : phase.request = some request)
    (hlock : phase.dataLocks inode ≠ none) : (∃ own, phase = .writing own ∧ own.inode = inode) ∨
    (phase.pending = some inode ∧ (∃ own ∈ phase.own, own.inode = inode) ∧
      phase.dataLocks inode = some .read) := by
  cases phase <;> simp_all [Phase.request, Phase.dataLocks, Phase.pending, Phase.own, holding,
    Function.update_apply]

theorem write_request {phase : Phase File} (hne : inode ≠ control)
    (hrequest : phase.request = some (inode, .write)) :
    (∃ own ∈ phase.own, own.inode = inode) ∨ ∃ file, phase = .purgeFileLock file inode := by
  cases phase <;> simp_all [Phase.request, Phase.own, eq_comm]

structure Invariant [DecidableEq File] (system : System File) : Prop where
  valid : system.shared.Valid
  sound : ∀ process ∈ system.processes, Sound system.shared process
  alone : ∀ inode, WriterAlone (system.locksOn inode)
  owners : ∀ (p q : Nat) (process other : Process File), p ≠ q →
    system.processes[p]? = some process → system.processes[q]? = some other →
    ∀ own ∈ process.phase.own, ∀ own' ∈ other.phase.own, own.inode ≠ own'.inode
  purgers : ∀ (p q : Nat) (process other : Process File), p ≠ q →
    system.processes[p]? = some process → system.processes[q]? = some other →
    ∀ file inode, process.phase = .purgeFileLock file inode → other.phase.pending ≠ some inode

section

variable {system : System File}

theorem locksOn_set (shared' : Shared File) (p : Nat) (process' : Process File) (inode : Nat) :
    (⟨shared', system.processes.set p process'⟩ : System File).locksOn inode =
      (system.locksOn inode).set p (process'.locks inode) := by
  simp [System.locksOn, map_set]

theorem getElem?_locksOn {p : Nat} (hpro : system.processes[p]? = some process) (inode : Nat) :
    (system.locksOn inode)[p]? = some (process.locks inode) := by
  simp [System.locksOn, hpro]

theorem own_inode_mem {phase : Phase File} (hown : own ∈ phase.own) : own.inode ∈ phase.inodes := by
  cases phase <;> simp_all [Phase.own, Phase.inodes]

def Waits (system : System File) (p inode : Nat) : Prop :=
  ∃ process ∈ system.processes[p]?, ∃ kind, process.phase.request = some (inode, kind) ∧
    ∃ q, WaitsFor system p q

theorem WaitsFor.waits {p : Nat} (hwts : WaitsFor system p q) :
    ∃ process other inode kind, system.processes[p]? = some process ∧
      system.processes[q]? = some other ∧ p ≠ q ∧
      process.phase.request = some (inode, kind) ∧ ¬ Compatible kind (other.locks inode) := by
  obtain ⟨process, hpro, other, hother, hne, ⟨inode, kind⟩, hrequest, haga⟩ := hwts
  exact ⟨process, other, inode, kind, hpro, hother, hne, hrequest, haga⟩

variable [DecidableEq File]

theorem step_some (hstep : step system event = some system') :
    ∃ process shared' process', system.processes[event.1]? = some process ∧
      processStep system event.1 process event.2 = some (shared', process') ∧
      system' = ⟨shared', system.processes.set event.1 process'⟩ := by
  simp only [step, bind_eq_bind, bind_eq_some_iff] at hstep
  obtain ⟨process, hpro, ⟨shared', process'⟩, hnext, hsys⟩ := hstep
  exact ⟨process, shared', process', hpro, hnext, (some.inj hsys).symm⟩

theorem Invariant.sound_at (hinv : Invariant system) {p : Nat}
    (hpro : system.processes[p]? = some process) : Sound system.shared process :=
  hinv.sound process (mem_of_getElem? hpro)

theorem Invariant.inode_lt (hinv : Invariant system) {p : Nat}
    (hpro : system.processes[p]? = some process)
    (hino : inode ∈ process.phase.inodes) : inode < system.shared.nextInode :=
  ((hinv.sound_at hpro).placed.inodes inode hino).2

section

variable {process process' : Process File} {shared' : Shared File}

section

variable (hinv : Invariant system) (hpro : system.processes[p]? = some process)
  (hste : Stepped system.shared process (fun inode kind => Grants (system.locksOn inode) p kind) shared' process')

include hinv hpro hste

theorem Invariant.alone_step (inode : Nat) :
    WriterAlone ((system.locksOn inode).set p (process'.locks inode)) := by
  apply (hinv.alone inode).set
  apply (hste.locks inode).imp_left
  intro hsame
  rw [hsame]
  exact getElem?_locksOn hpro inode

theorem Invariant.owner_step (hne : q ≠ p) (hother : system.processes[q]? = some other) (hown : own ∈ process'.phase.own) (hown' : own' ∈ other.phase.own) :
    own.inode ≠ own'.inode := by
  rcases hste.own own hown with hold | hnew
  · exact hinv.owners p q process other hne.symm hpro hother own hold own' hown'
  · have hlt := hinv.inode_lt hother (own_inode_mem hown')
    omega

end

end

theorem invariant_step (system : System File) (event : Nat × Choice File)
    (system' : System File) (hinv : Invariant system) (hcar : Careful system event)
    (hstep : step system event = some system') : Invariant system' := by
  obtain ⟨process, shared', process', hpro, hnext, rfl⟩ := step_some hstep
  have hste := processStep_stepped (hinv.sound_at hpro) hinv.valid hnext
  refine ⟨hste.valid, ?_, ?_, ?_, ?_⟩
  · intro other hother
    rcases mem_or_eq_of_mem_set hother with hold | rfl
    · exact (hinv.sound other hold).mono hste.grows
    · exact hste.sound
  · intro inode
    rw [locksOn_set]
    exact hinv.alone_step hpro hste inode
  · intro p q first second hne hfirst hsecond own hown own' hown'
    rcases getElem?_set_cases hfirst with ⟨rfl, rfl⟩ | ⟨hp, hfst'⟩
    · rcases getElem?_set_cases hsecond with ⟨rfl, -⟩ | ⟨hq, hsnd'⟩
      · exact absurd rfl hne
      · exact hinv.owner_step hpro hste hq hsnd' hown hown'
    · rcases getElem?_set_cases hsecond with ⟨rfl, rfl⟩ | ⟨hq, hsnd'⟩
      · exact (hinv.owner_step hpro hste hp hfst' hown' hown).symm
      · exact hinv.owners p q first second hne hfst' hsnd' own hown own' hown'
  · intro p q first second hne hfirst hsecond file inode hpurge
    rcases getElem?_set_cases hfirst with ⟨rfl, rfl⟩ | ⟨hp, hfst'⟩
    · rcases getElem?_set_cases hsecond with ⟨rfl, -⟩ | ⟨hq, hsnd'⟩
      · exact absurd rfl hne
      · -- the purge has just opened the file, with care
        obtain ⟨hopen, hloo⟩ := hste.purging file inode hpurge
        have hq' := (List.getElem?_eq_some_iff.mp hsnd').1
        have hcare := hcar process hpro q hq' hq second hsnd'
        rw [hopen, carefulFor, hloo] at hcare
        exact of_decide_eq_true hcare
    · have hbd := hinv.inode_lt hfst' (by
        rw [hpurge]
        exact mem_singleton_self inode)
      rcases getElem?_set_cases hsecond with ⟨rfl, rfl⟩ | ⟨hq, hsnd'⟩
      · intro hpen
        rcases hste.pending inode hpen with hold | hnew
        · exact hinv.purgers p event.1 first process hne hfst' hpro file inode hpurge hold
        · omega
      · exact hinv.purgers p q first second hne hfst' hsnd' file inode hpurge

theorem invariant_initial (numProcesses : Nat) :
    Invariant (initial numProcesses : System File) := by
  have hpro : ∀ (p : Nat) (process : Process File),
      (initial numProcesses : System File).processes[p]? = some process → process = {} := by
    intro p process hpro
    exact eq_of_mem_replicate (mem_of_getElem? hpro)
  refine ⟨⟨Nat.one_pos, ?_⟩, ?_, ?_, ?_, ?_⟩
  · intro entry hent
    cases hent
  · intro process hmem
    rw [eq_of_mem_replicate hmem]
    exact ⟨placed_of_free rfl trivial (forall_mem_nil _), fun _ _ => rfl, fun _ h => some.inj h⟩
  · intro inode p q held hne hwrt
    simp [System.locksOn, initial, getElem?_replicate] at hwrt
  · intro p q process other _ hfirst _ own hown
    rw [hpro p process hfirst] at hown
    cases hown
  · intro p q process other _ hfirst _ file inode hphase
    rw [hpro p process hfirst] at hphase
    cases hphase

theorem not_compatible_ne_none (haga : ¬ Compatible kind held) : held ≠ none := by
  rintro rfl
  cases kind <;> simp [Compatible] at haga

theorem Invariant.writer_not_waits (hinv : Invariant system) {p : Nat}
    (hpro : system.processes[p]? = some process) (hother : system.processes[q]? = some other)
    (hne : p ≠ q) (hwrt : process.locks inode = some .write) :
    Compatible kind (other.locks inode) := by
  have hp := getElem?_locksOn hpro inode
  rw [hwrt] at hp
  have hnone := hinv.alone inode p q (other.locks inode) hne hp (getElem?_locksOn hother inode)
  rw [hnone]
  cases kind <;> simp [Compatible]

theorem Invariant.control_holder (hinv : Invariant system) (hother : system.processes[q]? = some other)
    (hheld : other.locks control ≠ none) (hwts : WaitsFor system q r) :
    ∃ inode kind, other.phase.request = some (inode, kind) ∧ inode ≠ control := by
  obtain ⟨waiting, third, inode, kind, hwai, hthi, hne, hrequest, haga⟩ := hwts.waits
  obtain rfl : waiting = other := some.inj (hwai.symm.trans hother)
  refine ⟨inode, kind, hrequest, ?_⟩
  rintro rfl
  have hsou := hinv.sound_at hwai
  rcases controlLock_of_request hsou.placed hrequest with hnone | hwritten
  · exact hheld (hsou.onControl none hnone)
  · exact haga (hinv.writer_not_waits hwai hthi hne (hsou.onControl (some .write) hwritten))

theorem Invariant.data_holder (hinv : Invariant system) {p : Nat}
    (hpro : system.processes[p]? = some process) (hother : system.processes[q]? = some other)
    (hne : p ≠ q) (hrequest : process.phase.request = some (inode, kind))
    (hino : inode ≠ control) (haga : ¬ Compatible kind (other.locks inode)) :
    ¬ WaitsFor system q r := by
  intro hwts
  obtain ⟨waiting, third, wanted, wantedKind, hwai, hthi, hne', hreq', haga'⟩ := hwts.waits
  obtain rfl : waiting = other := some.inj (hwai.symm.trans hother)
  have hloc := (hinv.sound_at hwai).data inode hino
  have hheld := not_compatible_ne_none haga
  rw [hloc] at hheld
  rcases dataLocks_of_request hreq' hheld with ⟨own, hphase, rfl⟩ | ⟨hpen, hown, hread⟩
  · -- it gives up a write lock, which is always granted
    have hwrt : waiting.locks own.inode = some .write := by
      rw [hloc, hphase]
      simp [Phase.dataLocks, holding]
    rw [hphase, Phase.request, some.injEq, Prod.mk.injEq] at hreq'
    obtain ⟨rfl, -⟩ := hreq'
    exact haga' (hinv.writer_not_waits hwai hthi hne' hwrt)
  · -- it has a read lock and waits for the control file: only a writer minds
    rw [hloc, hread] at haga
    obtain rfl : kind = .write := by
      cases kind with
      | read =>
        have hcom : Compatible .read (some .read) := by decide
        exact absurd hcom haga
      | write => rfl
    rcases write_request hino hrequest with ⟨mine, hmin, hsame⟩ | ⟨file, hpurge⟩
    · obtain ⟨own, hmem, hsame'⟩ := hown
      exact hinv.owners p q process waiting hne hpro hwai mine hmin own hmem
        (hsame.trans hsame'.symm)
    · exact hinv.purgers p q process waiting hne hpro hwai file inode hpurge hpen

theorem Invariant.deadlockFree (system : System File) (hinv : Invariant system) :
    DeadlockFree system := by
  classical
  let rank (p : Nat) : Nat :=
    if Waits system p control then 2 else if ∃ q, WaitsFor system p q then 1 else 0
  apply not_deadlocked_of_rank rank
  intro p q hwts
  obtain ⟨process, other, inode, kind, hpro, hother, hne, hrequest, haga⟩ := hwts.waits
  by_cases hcontrol : inode = control
  · subst hcontrol
    have hp : rank p = 2 := if_pos ⟨process, hpro, kind, hrequest, q, hwts⟩
    have hq : ¬ Waits system q control := by
      rintro ⟨waiting, hwai, wanted, hwan, r, hr⟩
      obtain rfl : waiting = other := some.inj (hwai.symm.trans hother)
      obtain ⟨target, _, htarget, hdat⟩ := hinv.control_holder hother (not_compatible_ne_none haga) hr
      rw [hwan, some.injEq, Prod.mk.injEq] at htarget
      exact hdat htarget.1.symm
    rw [hp]
    simp only [rank, if_neg hq]
    split <;> omega
  · have hp : 1 ≤ rank p := by
      simp only [rank]
      split
      · omega
      · rw [if_pos ⟨q, hwts⟩]
    have hq : ∀ r, ¬ WaitsFor system q r := fun r =>
      hinv.data_holder hpro hother hne hrequest hcontrol haga
    have hzero : rank q = 0 := by
      have hnot : ¬ Waits system q control := by
        rintro ⟨_, _, _, _, r, hr⟩
        exact hq r hr
      simp only [rank, if_neg hnot]
      rw [if_neg (fun hsom => hq _ hsom.choose_spec)]
    omega

end

/-- No run of careful steps comes to a deadlock, with any number of processes and any
file names. -/
theorem deadlockFree_throughout [DecidableEq File] (numProcesses : Nat)
    (events : List (Nat × Choice File))
    (hcareful : Guarded step Careful (initial numProcesses) events) :
    Throughout step DeadlockFree (initial numProcesses) events :=
  hcareful.throughout Invariant Invariant.deadlockFree invariant_step
    (invariant_initial numProcesses)

/-- Process 0 has created a file and goes on to `exclusive_to_shared_lock` while process
1 purges the file. -/
def purgedWhileWritten : List (Nat × Choice String) :=
  [(0, .call (.create "f" false)), (0, .lock), (0, .next), (0, .lock), (0, .next),
    (1, .call (.purge "f")), (1, .lock), (1, .next), (0, .lock)]

def stuck : System String where
  shared := { directory := [("f", 1)], nextInode := 2 }
  processes := [ ⟨.infoLockCache ⟨"f", 1, false⟩, Function.update (Function.update (Function.update
      (Function.update (fun _ => none) control (some .write)) 1 (some .write)) control none) 1
      (some .read)⟩,
    ⟨.purgeFileLock "f" 1, Function.update (fun _ => none) control (some .write)⟩]

theorem purgedWhileWritten_deadlocked :
    run step (initial 2) purgedWhileWritten = some stuck ∧ ¬ DeadlockFree stuck ∧
      ¬ Throughout step DeadlockFree (initial 2) purgedWhileWritten := by
  have hrun : run step (initial 2) purgedWhileWritten = some stuck := rfl
  have hfor : WaitsFor stuck 0 1 :=
    ⟨_, rfl, _, rfl, by decide, (control, .write), rfl, by decide⟩
  have hback : WaitsFor stuck 1 0 :=
    ⟨_, rfl, _, rfl, by decide, (1, .write), rfl, by decide⟩
  have hdea : Deadlocked (WaitsFor stuck) := deadlocked_pair (by decide) hfor hback
  refine ⟨hrun, not_not_intro hdea, ?_⟩
  intro hthru
  exact hthru.last hrun hdea

theorem deadlockFree_throughout_reader :
    Guarded step Careful (initial 2) [(0, Choice.call (.create "f" true)), (0, .lock), (0, .next),
        (0, .lock), (0, .next), (1, .call (.read "f")), (1, .lock), (1, .next), (0, .lock)] ∧
      Throughout step DeadlockFree (initial 2) [(0, Choice.call (.create "f" true)), (0, .lock),
        (0, .next), (0, .lock), (0, .next), (1, .call (.read "f")), (1, .lock), (1, .next),
        (0, .lock)] :=
  ⟨by decide, deadlockFree_throughout 2 _ (by decide)⟩

/-! Exclusion and progress. -/

section

variable [DecidableEq File] {system : System File}

theorem advance_isSome (hbsy : process.phase ≠ .idle) (hrequest : process.phase.request = none)
    (hscan : ∀ own, process.phase ≠ .purgeScan own) (shared : Shared File) (grants : Nat → Bool) :
    (advance shared process grants).isSome := by
  obtain ⟨phase, locks⟩ := process
  cases phase with
  | idle => exact absurd rfl hbsy
  | purgeScan own => exact absurd rfl (hscan own)
  | purgeLoop own entries => cases entries <;> rfl
  | readOpen file | createOpen file purges | purgeFileOpen file =>
    dsimp only [advance]
    split <;> rfl
  | _ => first | rfl | cases hrequest

/-- A process that is not idle moves on, or waits for a lock that another one has. -/
theorem moves_or_waits {p : Nat} (hpro : system.processes[p]? = some process)
    (hbsy : process.phase ≠ .idle) :
    (∃ choice, (∀ operation, choice ≠ .call operation) ∧ (step system (p, choice)).isSome) ∨
      ∃ q, WaitsFor system p q := by
  cases hrequest : process.phase.request with
  | none =>
    by_cases hscan : ∃ own, process.phase = .purgeScan own
    · obtain ⟨own, hphase⟩ := hscan
      exact .inl ⟨.scan [], nofun, by simp [step, hpro, processStep, hphase]⟩
    · have hadv := advance_isSome hbsy hrequest (not_exists.mp hscan) system.shared
        fun inode => decide (Grants (system.locksOn inode) p .write)
      obtain ⟨after, hadv⟩ := isSome_iff_exists.mp hadv
      exact .inl ⟨.next, nofun, by simp [step, hpro, processStep, hadv]⟩
  | some request =>
    by_cases hgraph : Grants (system.locksOn request.1) p request.2
    · exact .inl ⟨.lock, nofun, by simp [step, hpro, processStep, hrequest, hgraph]⟩
    · unfold Grants System.locksOn at hgraph
      push Not at hgraph
      obtain ⟨q, -, hne, held, hheld, haga⟩ := hgraph
      obtain ⟨other, hother, rfl⟩ := by simpa using hheld
      exact .inr ⟨q, process, hpro, other, hother, hne.symm, request, hrequest, haga⟩

/-- In a run of careful steps some process at work can go on, until all are idle. -/
theorem busy_moves (numProcesses : Nat) (events : List (Nat × Choice File))
    (hcar : Guarded step Careful (initial numProcesses) events)
    (hrun : run step (initial numProcesses) events = some system)
    (hbsy : ∃ process ∈ system.processes, process.phase ≠ .idle) :
    ∃ p choice, (∀ operation, choice ≠ .call operation) ∧ (step system (p, choice)).isSome := by
  have hinv := (hcar.throughout Invariant (fun _ h => h) invariant_step
    (invariant_initial numProcesses)).last hrun
  by_contra hno
  apply hinv.deadlockFree
  refine ⟨{p | ∃ process ∈ system.processes[p]?, process.phase ≠ .idle}, ?_, ?_⟩
  · obtain ⟨process, hmem, hne⟩ := hbsy
    obtain ⟨p, hpro⟩ := getElem?_of_mem hmem
    exact ⟨p, process, hpro, hne⟩
  · rintro p ⟨process, hpro, hwrk⟩
    rcases moves_or_waits hpro hwrk with ⟨choice, hcho⟩ | ⟨q, hwts⟩
    · exact absurd ⟨p, choice, hcho⟩ hno
    · obtain ⟨_, other, inode, kind, _, hother, hne, _, haga⟩ := hwts.waits
      refine ⟨q, ⟨other, hother, ?_⟩, hne.symm, hwts⟩
      intro hidl
      -- an idle process has no lock
      apply not_compatible_ne_none haga
      have hsou := hinv.sound_at hother
      by_cases hcontrol : inode = control
      · exact hcontrol ▸ hsou.onControl none (by rw [hidl]; rfl)
      · rw [hsou.data inode hcontrol, hidl]
        rfl

end

def writtenWhileRead : List (Nat × Choice String) :=
  [(0, .call (.create "f" false)), (0, .lock), (0, .next), (0, .lock), (0, .next),
    (1, .call (.read "f"))]

theorem busy_moves_reader :
    ∃ system, run step (initial 2) writtenWhileRead = some system ∧
      ∃ p choice, (∀ operation, choice ≠ .call operation) ∧ (step system (p, choice)).isSome := by
  refine ⟨_, rfl, ?_⟩
  exact busy_moves 2 writtenWhileRead (by decide) rfl ⟨_, mem_cons_self, by decide⟩

end Bes.Cache.ClientProtocol
