import Bes.Cache.ControlFile

/-! The table in which a cache object records the descriptors it has opened, beside
the operating system's own table of open descriptors. A number that was closed may
be given to the next `open`, for whatever file. -/
namespace Bes.Cache.DescriptorTable
open Lib.Run Cache.ControlFile List

/-- An open descriptor of the process. `ours` records that the cache opened it. -/
structure Descriptor where
  fd : Nat
  file : String
  ours : Bool
deriving DecidableEq

/-- The files in the directory, the descriptors of the process, and the multimap
`d_locks` with the pairs of one key in the order in which they were inserted. -/
structure State where
  files : List String
  opened : List Descriptor
  locks : List (String × Nat)
deriving DecidableEq

def fresh (opened : List Descriptor) (fd : Nat) : Bool := opened.all fun d => decide (d.fd ≠ fd)

/-- `close`, and the `fcntl` before it: both fail on a number that is not open. -/
def closeFd (opened : List Descriptor) (fd : Nat) : Option (List Descriptor) :=
  if fresh opened fd then none else some (opened.filter fun d => decide (d.fd ≠ fd))

def recordDescriptor (locks : List (String × Nat)) (file : String) (fd : Nat) :
    List (String × Nat) :=
  locks ++ [(file, fd)]

def removeDescriptor (locks : List (String × Nat)) (file : String) :
    Option (Nat × List (String × Nat)) :=
  match locks.find? fun pair => decide (pair.1 = file) with
  | none => none
  | some pair => some (pair.2, locks.erase pair)

/-- The loop of `unlock_and_close`. Each round takes a pair out of the table. The
flag tells whether it ends without an error. -/
def unlockLoop (file : String) : Nat → State → State × Bool
  | 0, state => (state, true)
  | rounds + 1, state =>
      match removeDescriptor state.locks file with
      | none => (state, true)
      | some (fd, locks) =>
          match closeFd state.opened fd with
          | none => ({ state with locks := locks }, false)
          | some opened => unlockLoop file rounds { state with opened := opened, locks := locks }

def unlockAndClose (file : String) (state : State) : State × Bool :=
  unlockLoop file state.locks.length state

/-- `open` of a file that exists, and the record of the descriptor. The operating
system may give any number that is not in use. -/
def openAndRecord (file : String) (fd : Nat) (state : State) : Option State :=
  if fresh state.opened fd then
    some { state with
      opened := state.opened ++ [⟨fd, file, true⟩]
      locks := recordDescriptor state.locks file fd }
  else none

/-- `get_read_lock`, `get_exclusive_lock` and `get_exclusive_lock_nb` once the lock
on the file is granted; the flag is their result. -/
def getLock (file : String) (fd : Nat) (state : State) : Option (State × Bool) :=
  if file ∈ state.files then (openAndRecord file fd state).map fun state => (state, true)
  else some (state, false)

/-- Where `get_exclusive_lock_nb` is refused the lock, it closes the descriptor
before it was recorded. -/
def getExclusiveLockNb (file : String) (fd : Nat) (available : Bool) (state : State) :
    Option (State × Bool) :=
  if available then getLock file fd state else some (state, false)

def createAndLock (file : String) (fd : Nat) (state : State) : Option State :=
  if file ∈ state.files then some state
  else openAndRecord file fd { state with files := state.files ++ [file] }

/-- `unlink` and the static `unlock`, which does not touch the table. -/
def removeLocked (file : String) (fd : Nat) (state : State) : Option State := do
  let opened ← closeFd state.opened fd
  some { state with files := state.files.filter fun name => decide (name ≠ file)
                    opened := opened }

def purgeFile (file : String) (fd : Nat) (state : State) : Option State := do
  let (state, locked) ← getLock file fd state
  if locked then removeLocked file fd state else some state

/-- A file as `update_and_purge` meets it: the number the operating system would
give, and whether the file can be locked at once. -/
structure Candidate where
  name : String
  size : UInt64
  fd : Nat
  available : Bool

def purgeLoop (config : Config) (newFile : String) : List Candidate → UInt64 → State → Option State
  | [], _, state => some state
  | candidate :: rest, computedSize, state =>
      if computedSize ≤ config.targetSize then some state
      else if candidate.name = newFile then purgeLoop config newFile rest computedSize state
      else do
        let (state, locked) ←
          getExclusiveLockNb candidate.name candidate.fd candidate.available state
        if locked then
          let state ← removeLocked candidate.name candidate.fd state
          purgeLoop config newFile rest (computedSize - candidate.size) state
        else purgeLoop config newFile rest computedSize state

def updateAndPurge (config : Config) (newFile : String) (contents : List Candidate)
    (state : State) : Option State :=
  let computedSize := (contents.map Candidate.size).sum
  if config.isUnlimited then some state
  else if config.cacheTooBig computedSize then purgeLoop config newFile contents computedSize state
  else some state

inductive Event
  | createAndLock (file : String) (fd : Nat)
  | getReadLock (file : String) (fd : Nat)
  | getExclusiveLock (file : String) (fd : Nat)
  | getExclusiveLockNb (file : String) (fd : Nat) (available : Bool)
  | unlockAndClose (file : String)
  | purgeFile (file : String) (fd : Nat)
  | updateAndPurge (newFile : String) (contents : List Candidate)
  | otherOpen (file : String) (fd : Nat)
  | otherClose (fd : Nat)
  | otherCreate (file : String)
  | otherUnlink (file : String)

def step (config : Config) (state : State) : Event → Option State
  | .createAndLock file fd => createAndLock file fd state
  | .getReadLock file fd => (getLock file fd state).map Prod.fst
  | .getExclusiveLock file fd => (getLock file fd state).map Prod.fst
  | .getExclusiveLockNb file fd available =>
      (getExclusiveLockNb file fd available state).map Prod.fst
  | .unlockAndClose file => some (unlockAndClose file state).1
  | .purgeFile file fd => purgeFile file fd state
  | .updateAndPurge newFile contents => updateAndPurge config newFile contents state
  | .otherOpen file fd =>
      if fresh state.opened fd then
        some { state with opened := state.opened ++ [⟨fd, file, false⟩] }
      else none
  | .otherClose fd =>
      if ∀ d ∈ state.opened, d.fd = fd → d.ours = false then
        (closeFd state.opened fd).map fun opened => { state with opened := opened }
      else none
  | .otherCreate file => some { state with files := state.files ++ [file] }
  | .otherUnlink file =>
      some { state with files := state.files.filter fun name => decide (name ≠ file) }

def initial (files : List String) : State := ⟨files, [], []⟩

/-- Every pair in the table is an open descriptor on that file, and a call of
`unlock_and_close` closes the descriptors that the cache opened on the file, all of
them and nothing else. -/
structure Truthful (state : State) : Prop where
  denotes : ∀ pair ∈ state.locks, ⟨pair.2, pair.1, true⟩ ∈ state.opened
  closes : ∀ file, (unlockAndClose file state).2 = true ∧ (unlockAndClose file state).1.opened =
      state.opened.filter fun d => !(d.ours && decide (d.file = file))

def purges (state : State) (newFile : String) (candidate : Candidate) : Bool :=
  decide (candidate.name ≠ newFile) && decide (candidate.name ∈ state.files) && candidate.available

def RemovesNothing (config : Config) (state : State) : Event → Prop
  | .purgeFile file _ => file ∉ state.files
  | .updateAndPurge newFile contents =>
      config.isUnlimited = true ∨
      config.cacheTooBig (contents.map Candidate.size).sum = false ∨
      (contents.map Candidate.size).sum ≤ config.targetSize ∨
      ∀ candidate ∈ contents, purges state newFile candidate = false
  | _ => True

instance (config : Config) (state : State) : DecidablePred (RemovesNothing config state)
  | .purgeFile file _ => inferInstanceAs (Decidable (file ∉ state.files))
  | .updateAndPurge _ contents => inferInstanceAs (Decidable (_ ∨ _ ∨ _ ∨ ∀ candidate ∈ contents, _))
  | .createAndLock _ _ | .getReadLock _ _ | .getExclusiveLock _ _ | .getExclusiveLockNb _ _ _
  | .unlockAndClose _ | .otherOpen _ _ | .otherClose _ | .otherCreate _ | .otherUnlink _ => isTrue trivial

variable {config : Config} {opened : List Descriptor} {fd : Nat} {file : String} {state : State}

theorem fresh_iff : fresh opened fd = true ↔ ∀ d ∈ opened, d.fd ≠ fd := by
  simp [fresh]

theorem closeFd_append (hfre : fresh opened fd = true) (file : String) (ours : Bool) :
    closeFd (opened ++ [⟨fd, file, ours⟩]) fd = some opened := by
  have hnot : fresh (opened ++ [⟨fd, file, ours⟩]) fd = false := by
    simp [fresh]
  have hkept : opened.filter (fun d => decide (d.fd ≠ fd)) = opened := by
    apply filter_eq_self.mpr
    intro d hmem
    simpa using fresh_iff.mp hfre d hmem
  rw [closeFd, if_neg (by rw [hnot]; exact Bool.false_ne_true), filter_append, hkept]
  simp

def oursPairs (opened : List Descriptor) : List (String × Nat) :=
  (opened.filter Descriptor.ours).map fun d => (d.file, d.fd)

structure Linked (state : State) : Prop where
  nodup : (state.opened.map Descriptor.fd).Nodup
  perm : state.locks.Perm (oursPairs state.opened)

theorem eq_of_fd_eq (hnod : (opened.map Descriptor.fd).Nodup)
    (hd : d ∈ opened) (he : e ∈ opened) (hfd : d.fd = e.fd) : d = e :=
  inj_on_of_nodup_map hnod hd he hfd

theorem Linked.denotes (hline : Linked state) (hpar : pair ∈ state.locks) :
    ⟨pair.2, pair.1, true⟩ ∈ state.opened := by
  have hmem := hline.perm.subset hpar
  obtain ⟨d, hd, rfl⟩ := mem_map.mp hmem
  obtain ⟨hope, hours⟩ := mem_filter.mp hd
  rw [← hours]
  exact hope

theorem Linked.recorded (hline : Linked state) (hd : d ∈ state.opened)
    (hours : d.ours = true) : (d.file, d.fd) ∈ state.locks := by
  apply hline.perm.symm.subset
  exact mem_map_of_mem (mem_filter.mpr ⟨hd, hours⟩)

theorem nodup_append_fresh (hnod : (opened.map Descriptor.fd).Nodup)
    (hfre : fresh opened fd = true) (file : String) (ours : Bool) :
    (map Descriptor.fd (opened ++ [⟨fd, file, ours⟩])).Nodup := by
  rw [map_append, nodup_append]
  refine ⟨hnod, by simp, ?_⟩
  intro old hold new hnew hsame
  obtain ⟨d, hd, rfl⟩ := mem_map.mp hold
  have hnum : new = fd := by simpa using hnew
  exact fresh_iff.mp hfre d hd (hsame.trans hnum)

theorem Linked.openAndRecord (hline : Linked state)
    (hopen : DescriptorTable.openAndRecord file fd state = some state') : Linked state' := by
  unfold DescriptorTable.openAndRecord at hopen
  split at hopen
  next hfre =>
    cases hopen
    constructor
    · exact nodup_append_fresh hline.nodup hfre file true
    · have hpai : oursPairs (state.opened ++ [⟨fd, file, true⟩]) =
          oursPairs state.opened ++ [(file, fd)] := by
        simp [oursPairs]
      rw [hpai]
      exact hline.perm.append_right _
  · cases hopen

theorem filter_fd_eq (hnod : (opened.map Descriptor.fd).Nodup) (hd : d ∈ opened) :
    ∃ before after, opened = before ++ d :: after ∧
      (opened.filter fun e => decide (e.fd ≠ d.fd)) = before ++ after := by
  obtain ⟨before, after, rfl⟩ := append_of_mem hd
  refine ⟨before, after, rfl, ?_⟩
  have hmid := (perm_middle.map Descriptor.fd).nodup_iff.mp hnod
  rw [map_cons, nodup_cons] at hmid
  have hother : ∀ e ∈ before ++ after, decide (e.fd ≠ d.fd) = true := by
    intro e he
    rw [decide_eq_true_iff]
    intro hsame
    exact hmid.1 (hsame ▸ mem_map_of_mem he)
  rw [filter_append, filter_cons_of_neg (by simp), ← filter_append]
  exact filter_eq_self.mpr hother

theorem Linked.erase (hline : Linked state) (hd : ⟨fd, file, true⟩ ∈ state.opened) : Linked { state with
      opened := state.opened.filter fun d => decide (d.fd ≠ fd)
      locks := state.locks.erase (file, fd) } := by
  refine ⟨hline.nodup.sublist (filter_sublist.map _), ?_⟩
  obtain ⟨before, after, hope, hfil⟩ := filter_fd_eq hline.nodup hd
  have hpai : oursPairs state.opened = oursPairs before ++ (file, fd) :: oursPairs after := by
    rw [hope]
    simp [oursPairs]
  have hprm : state.locks.Perm ((file, fd) :: (oursPairs before ++ oursPairs after)) := by
    apply hline.perm.trans
    rw [hpai]
    exact perm_middle
  have hrest := hprm.erase (file, fd)
  rw [hfil]
  simpa [oursPairs] using hrest

theorem find?_key_some {locks : List (String × Nat)}
    (hfound : (locks.find? fun pair => decide (pair.1 = file)) = some pair) :
    pair ∈ locks ∧ pair.1 = file := by
  have hkey := find?_some hfound
  exact ⟨mem_of_find?_eq_some hfound, by simpa using hkey⟩

theorem Linked.filter_eq (hline : Linked state) (hnone : ∀ pair ∈ state.locks, pair.1 ≠ file) :
    (state.opened.filter fun d => !(d.ours && decide (d.file = file))) = state.opened := by
  apply filter_eq_self.mpr
  intro d hd
  cases hours : d.ours with
  | false => rfl
  | true =>
    have hne := hnone _ (hline.recorded hd hours)
    simpa using hne

/-- The loop of `unlock_and_close`: the induction is on the rounds, and every round
closes one descriptor that is in the table. -/
theorem unlockLoop_linked (file : String) (hline : Linked state) (hrou : state.locks.length ≤ rounds) :
    (unlockLoop file rounds state).2 = true ∧ Linked (unlockLoop file rounds state).1 ∧
      (unlockLoop file rounds state).1.opened =
        state.opened.filter fun d => !(d.ours && decide (d.file = file)) := by
  induction rounds generalizing state with
  | zero =>
    have hnil : state.locks = [] := eq_nil_of_length_eq_zero (Nat.le_zero.mp hrou)
    refine ⟨rfl, hline, (hline.filter_eq ?_).symm⟩
    intro pair hpar
    rw [hnil] at hpar
    cases hpar
  | succ rounds ih =>
    cases hfound : state.locks.find? fun pair => decide (pair.1 = file) with
    | none =>
      simp only [unlockLoop, removeDescriptor, hfound]
      refine ⟨trivial, hline, (hline.filter_eq ?_).symm⟩
      intro pair hpar
      simpa using find?_eq_none.mp hfound pair hpar
    | some pair =>
      obtain ⟨key, number⟩ := pair
      obtain ⟨hpar, rfl⟩ := find?_key_some hfound
      have hd := hline.denotes hpar
      have hopen : fresh state.opened number = false := by
        rw [Bool.eq_false_iff]
        intro hfre
        exact fresh_iff.mp hfre _ hd rfl
      have hlen := length_erase_of_mem hpar
      have hrest := ih (hline.erase hd) (by dsimp only; omega)
      simp only [unlockLoop, removeDescriptor, hfound, closeFd, hopen, Bool.false_eq_true, if_false]
      refine ⟨hrest.1, hrest.2.1, hrest.2.2.trans ?_⟩
      rw [filter_filter]
      apply filter_congr
      intro e he
      -- the descriptor that was just closed is one of those on the file
      by_cases hsame : e.fd = number
      · rw [eq_of_fd_eq hline.nodup he hd hsame]
        simp
      · simp [hsame]

theorem Linked.truthful (state : State) (hline : Linked state) : Truthful state := by
  constructor
  · intro pair hpar
    exact hline.denotes hpar
  · intro file
    have hloop := unlockLoop_linked file hline (le_refl state.locks.length)
    exact ⟨hloop.1, hloop.2.2⟩

theorem linked_unlockAndClose (hline : Linked state) (file : String) :
    Linked (unlockAndClose file state).1 :=
  (unlockLoop_linked file hline (le_refl state.locks.length)).2.1

theorem Linked.of_files (hline : Linked state) (files : List String) :
    Linked { state with files := files } :=
  ⟨hline.nodup, hline.perm⟩

theorem getLock_cases (hlock : getLock file fd state = some (state', locked)) :
    (file ∈ state.files ∧ locked = true ∧ openAndRecord file fd state = some state') ∨
      (file ∉ state.files ∧ locked = false ∧ state' = state) := by
  unfold getLock at hlock
  split at hlock
  next hex =>
    obtain ⟨after, hopen, hresult⟩ := Option.map_eq_some_iff.mp hlock
    cases hresult
    exact .inl ⟨hex, rfl, hopen⟩
  next hmis =>
    cases hlock
    exact .inr ⟨hmis, rfl, rfl⟩

theorem linked_getLock (hline : Linked state)
    (hlock : getLock file fd state = some (state', locked)) : Linked state' := by
  rcases getLock_cases hlock with ⟨-, -, hopen⟩ | ⟨-, -, rfl⟩
  · exact hline.openAndRecord hopen
  · exact hline

theorem removeLocked_openAndRecord {after : State} (hopen : openAndRecord file fd state = some after) :
    fresh state.opened fd = true ∧ removeLocked file fd after = some
        ⟨state.files.filter fun name => decide (name ≠ file), state.opened,
          state.locks ++ [(file, fd)]⟩ := by
  unfold openAndRecord at hopen
  split at hopen
  next hfre =>
    cases hopen
    refine ⟨hfre, ?_⟩
    simp only [removeLocked, closeFd_append hfre, recordDescriptor]
    rfl
  · cases hopen

/-- Where a purge removes files, the open descriptors are the same as before, and
the table ends with pairs for numbers that are closed. -/
def LeavesStale (before after : State) : Prop :=
  after.opened = before.opened ∧ ∃ stale, stale ≠ [] ∧ after.locks = before.locks ++ stale ∧
    ∀ pair ∈ stale, fresh before.opened pair.2 = true

theorem LeavesStale.not_truthful {after : State} (hsta : LeavesStale before after) :
    ¬ Truthful after := by
  obtain ⟨hope, stale, hne, hloc, hclo⟩ := hsta
  intro htru
  obtain ⟨pair, hpar⟩ := exists_mem_of_ne_nil stale hne
  have hmem := htru.denotes pair (by rw [hloc]; exact mem_append_right _ hpar)
  rw [hope] at hmem
  exact fresh_iff.mp (hclo pair hpar) _ hmem rfl

theorem LeavesStale.cons {before after : State} {files : List String}
    (hfre : fresh before.opened fd = true)
    (hrest : after = ⟨files, before.opened, before.locks ++ [(file, fd)]⟩ ∨
      LeavesStale ⟨files, before.opened, before.locks ++ [(file, fd)]⟩ after) :
    LeavesStale before after := by
  cases hrest with
  | inl hafter =>
    subst hafter
    refine ⟨rfl, [(file, fd)], by simp, rfl, ?_⟩
    intro pair hpar
    rw [mem_singleton.mp hpar]
    exact hfre
  | inr hmore =>
    obtain ⟨hope, stale, -, hloc, hclo⟩ := hmore
    refine ⟨hope, (file, fd) :: stale, by simp, by simp [hloc], ?_⟩
    intro pair hpar
    cases mem_cons.mp hpar with
    | inl hfirst => exact hfirst ▸ hfre
    | inr hlater => exact hclo pair hlater

theorem purgeFile_cases (hpurge : purgeFile file fd state = some state') :
    (file ∉ state.files ∧ state' = state) ∨ (file ∈ state.files ∧ LeavesStale state state') := by
  obtain ⟨⟨after, locked⟩, hlock, hrest⟩ := Option.bind_eq_some_iff.mp hpurge
  rcases getLock_cases hlock with ⟨hex, rfl, hopen⟩ | ⟨hmis, rfl, rfl⟩
  · obtain ⟨hfre, hrem⟩ := removeLocked_openAndRecord hopen
    simp only [if_true, hrem, Option.some.injEq] at hrest
    exact .inr ⟨hex, LeavesStale.cons hfre (.inl hrest.symm)⟩
  · cases hrest
    exact .inl ⟨hmis, rfl⟩

theorem getExclusiveLockNb_cases
    (hloc : getExclusiveLockNb file fd available state = some (state', locked)) :
    (file ∈ state.files ∧ available = true ∧ locked = true ∧ openAndRecord file fd state = some state') ∨
    ((file ∉ state.files ∨ available = false) ∧ locked = false ∧ state' = state) := by
  cases available with
  | false =>
    cases hloc
    exact .inr ⟨.inr rfl, rfl, rfl⟩
  | true =>
    rcases getLock_cases hloc with ⟨hex, hlock, hopen⟩ | ⟨hmis, hlock, hsame⟩
    · exact .inl ⟨hex, rfl, hlock, hopen⟩
    · exact .inr ⟨.inl hmis, hlock, hsame⟩

theorem purgeLoop_cases (hpurge : purgeLoop config newFile contents computedSize state = some state') :
    (state' = state ∧ (computedSize ≤ config.targetSize ∨
      ∀ candidate ∈ contents, purges state newFile candidate = false)) ∨
    (¬ computedSize ≤ config.targetSize ∧
      (∃ candidate ∈ contents, purges state newFile candidate = true) ∧ LeavesStale state state') := by
  induction contents generalizing computedSize state with
  | nil =>
    cases hpurge
    exact .inl ⟨rfl, .inr (by simp)⟩
  | cons candidate rest ih =>
    have hskp : purges state newFile candidate = false →
        purgeLoop config newFile rest computedSize state = some state' →
        (state' = state ∧ (computedSize ≤ config.targetSize ∨
          ∀ c ∈ candidate :: rest, purges state newFile c = false)) ∨
        (¬ computedSize ≤ config.targetSize ∧
          (∃ c ∈ candidate :: rest, purges state newFile c = true) ∧
          LeavesStale state state') := by
      intro hkept hrest
      rcases ih hrest with ⟨hsame, hnone⟩ | ⟨hbig, ⟨c, hc, hprg⟩, hsta⟩
      · refine .inl ⟨hsame, hnone.imp id ?_⟩
        intro hnone c hc
        cases mem_cons.mp hc with
        | inl hfirst => exact hfirst ▸ hkept
        | inr hlater => exact hnone c hlater
      · exact .inr ⟨hbig, ⟨c, mem_cons_of_mem _ hc, hprg⟩, hsta⟩
    simp only [purgeLoop] at hpurge
    split at hpurge
    next hsmall =>
      cases hpurge
      exact .inl ⟨rfl, .inl hsmall⟩
    next hbig =>
      split at hpurge
      next hnew =>
        exact hskp (by simp [purges, hnew]) hpurge
      next hnew =>
        obtain ⟨⟨after, locked⟩, hlock, hrest⟩ := Option.bind_eq_some_iff.mp hpurge
        rcases getExclusiveLockNb_cases hlock with
          ⟨hex, hava, rfl, hopen⟩ | ⟨hkept, rfl, rfl⟩
        · obtain ⟨hfre, hrem⟩ := removeLocked_openAndRecord hopen
          simp only [if_true, hrem] at hrest
          have hprg : purges state newFile candidate = true := by
            simp [purges, hnew, hex, hava]
          refine .inr ⟨hbig, ⟨candidate, mem_cons_self, hprg⟩, ?_⟩
          apply LeavesStale.cons hfre
          rcases ih hrest with ⟨hafter, -⟩ | ⟨-, -, hsta⟩
          · exact .inl hafter
          · exact .inr hsta
        · apply hskp _ hrest
          cases hkept with
          | inl hmis => simp [purges, hmis]
          | inr hbsy => simp [purges, hbsy]

theorem updateAndPurge_cases (hpurge : updateAndPurge config newFile contents state = some state') :
    (RemovesNothing config state (.updateAndPurge newFile contents) ∧ state' = state) ∨
    (¬ RemovesNothing config state (.updateAndPurge newFile contents) ∧ LeavesStale state state') := by
  simp only [updateAndPurge] at hpurge
  split at hpurge
  next hunl =>
    cases hpurge
    exact .inl ⟨.inl hunl, rfl⟩
  next hlim =>
    split at hpurge
    next hbig =>
      rcases purgeLoop_cases hpurge with ⟨hsame, hnone⟩ | ⟨htarget, ⟨c, hc, hprg⟩, hsta⟩
      · exact .inl ⟨.inr (.inr hnone), hsame⟩
      · refine .inr ⟨?_, hsta⟩
        rintro (hunl | hfits | hsmall | hnone)
        · exact hlim hunl
        · rw [hbig] at hfits
          cases hfits
        · exact htarget hsmall
        · rw [hnone c hc] at hprg
          cases hprg
    next hfits =>
      cases hpurge
      exact .inl ⟨.inr (.inl (by simpa using hfits)), rfl⟩

theorem linked_otherOpen (hline : Linked state)
    (hstep : step config state (.otherOpen file fd) = some state') : Linked state' := by
  simp only [step] at hstep
  split at hstep
  next hfre =>
    cases hstep
    constructor
    · exact nodup_append_fresh hline.nodup hfre file false
    · simpa [oursPairs] using hline.perm
  · cases hstep

theorem linked_otherClose (hline : Linked state)
    (hstep : step config state (.otherClose fd) = some state') : Linked state' := by
  simp only [step, closeFd] at hstep
  split at hstep
  next hfor =>
    split at hstep
    · cases hstep
    · cases hstep
      refine ⟨hline.nodup.sublist (filter_sublist.map _), ?_⟩
      have hours : (state.opened.filter fun d => decide (d.fd ≠ fd)).filter Descriptor.ours =
          state.opened.filter Descriptor.ours := by
        rw [filter_filter]
        apply filter_congr
        intro d hd
        by_cases hsame : d.fd = fd
        · simp [hfor d hd hsame]
        · simp [hsame]
      dsimp only [oursPairs]
      rw [hours]
      exact hline.perm
  · cases hstep

theorem linked_step (config : Config) (state : State) (event : Event) (state' : State)
    (hline : Linked state) (hrmv : RemovesNothing config state event)
    (hstep : step config state event = some state') : Linked state' := by
  cases event with
  | createAndLock file fd =>
    simp only [step, createAndLock] at hstep
    split at hstep
    · exact Option.some.inj hstep ▸ hline
    · exact (hline.of_files _).openAndRecord hstep
  | getReadLock file fd =>
    obtain ⟨⟨after, locked⟩, hlock, rfl⟩ := Option.map_eq_some_iff.mp hstep
    exact linked_getLock hline hlock
  | getExclusiveLock file fd =>
    obtain ⟨⟨after, locked⟩, hlock, rfl⟩ := Option.map_eq_some_iff.mp hstep
    exact linked_getLock hline hlock
  | getExclusiveLockNb file fd available =>
    obtain ⟨⟨after, locked⟩, hlock, rfl⟩ := Option.map_eq_some_iff.mp hstep
    rcases getExclusiveLockNb_cases hlock with ⟨-, -, -, hopen⟩ | ⟨-, -, rfl⟩
    · exact hline.openAndRecord hopen
    · exact hline
  | unlockAndClose file =>
    rw [← Option.some.inj hstep]
    exact linked_unlockAndClose hline file
  | purgeFile file fd =>
    rcases purgeFile_cases hstep with ⟨-, rfl⟩ | ⟨hex, -⟩
    · exact hline
    · exact absurd hex hrmv
  | updateAndPurge newFile contents =>
    rcases updateAndPurge_cases hstep with ⟨-, rfl⟩ | ⟨hprg, -⟩
    · exact hline
    · exact absurd hrmv hprg
  | otherOpen file fd => exact linked_otherOpen hline hstep
  | otherClose fd => exact linked_otherClose hline hstep
  | otherCreate file => exact Option.some.inj hstep ▸ hline.of_files _
  | otherUnlink file => exact Option.some.inj hstep ▸ hline.of_files _

theorem removesNothing_of_truthful (config : Config) (state : State) (event : Event)
    (state' : State) (_ : Linked state) (hstep : step config state event = some state')
    (hafter : Truthful state') : RemovesNothing config state event := by
  cases event with
  | purgeFile file fd =>
    rcases purgeFile_cases hstep with ⟨hmis, -⟩ | ⟨-, hsta⟩
    · exact hmis
    · exact absurd hafter hsta.not_truthful
  | updateAndPurge newFile contents =>
    rcases updateAndPurge_cases hstep with ⟨hnth, -⟩ | ⟨-, hsta⟩
    · exact hnth
    · exact absurd hafter hsta.not_truthful
  | _ => trivial

theorem linked_initial (files : List String) : Linked (initial files) :=
  ⟨nodup_nil, Perm.nil⟩

/-- The table stays truthful over a run exactly when no call of the run removes a
file. -/
theorem truthful_throughout_iff_removesNothing (config : Config) (files : List String)
    (events : List Event) : Throughout (step config) Truthful (initial files) events ↔
      Guarded (step config) (RemovesNothing config) (initial files) events :=
  throughout_iff_guarded Linked Linked.truthful (linked_step config)
    (removesNothing_of_truthful config) events (linked_initial files)

/-- `a` is purged, `b` is created under the number that was closed, and `a` is
unlocked. -/
def staleRun : List Event :=
  [.otherOpen "cache_control" 3, .createAndLock "a" 4, .unlockAndClose "a", .purgeFile "a" 4,
    .createAndLock "b" 4, .unlockAndClose "a"]

/-- The last call closes the descriptor of `b`, whose pair stays in the table. -/
theorem staleRun_not_truthful : run (step ⟨0, 0⟩) (initial []) staleRun =
        some ⟨["b"], [⟨3, "cache_control", false⟩], [("b", 4)]⟩ ∧
      ¬ Throughout (step ⟨0, 0⟩) Truthful (initial []) staleRun := by
  have hrun : run (step ⟨0, 0⟩) (initial []) staleRun =
      some ⟨["b"], [⟨3, "cache_control", false⟩], [("b", 4)]⟩ := by
    decide
  refine ⟨hrun, ?_⟩
  intro hthru
  have hopen := (hthru.last hrun).denotes ("b", 4) mem_cons_self
  exact absurd hopen (by decide)

theorem truthful_throughout_iff_removesNothing_reads :
    Guarded (step megabyte) (RemovesNothing megabyte) (initial ["a"])
        [.getReadLock "a" 4, .getReadLock "a" 5, .updateAndPurge "a" [⟨"a", 1048576, 6, true⟩],
          .unlockAndClose "a", .purgeFile "b" 4] ∧ Throughout (step megabyte) Truthful (initial ["a"])
        [.getReadLock "a" 4, .getReadLock "a" 5, .updateAndPurge "a" [⟨"a", 1048576, 6, true⟩],
          .unlockAndClose "a", .purgeFile "b" 4] :=
  ⟨by decide, (truthful_throughout_iff_removesNothing megabyte ["a"] _).mpr (by decide)⟩

end Bes.Cache.DescriptorTable
