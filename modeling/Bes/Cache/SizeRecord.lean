import Bes.Cache.ControlFile

/-! The recorded size of the cache over whole runs. At most one process at a time
is in a part of its operation that ends with a write to the control file; what it
has read and what it has unlinked so far tell how the stored size relates to the
files. -/
namespace Bes.Cache.SizeRecord
open Lib.Run Lib.FileLock Cache.ControlFile List

def NamesUnique (files : List CacheFile) : Prop := (files.map CacheFile.name).Nodup

variable {files : List CacheFile} {name : String} {file : CacheFile}

theorem find_some (hfound : find files name = some file) : file ∈ files ∧ file.name = name := by
  have hname := find?_some hfound
  exact ⟨mem_of_find?_eq_some hfound, by simpa using hname⟩

theorem find_none (hfound : find files name = none) : ∀ file ∈ files, file.name ≠ name := by
  intro file hmem
  simpa using find?_eq_none.mp hfound file hmem

theorem total_cons (file : CacheFile) (files : List CacheFile) :
    total (file :: files) = (if file.registered then file.size.toNat else 0) + total files := by
  cases hreg : file.registered <;> simp [total, hreg]

theorem total_append_unregistered (files : List CacheFile) (name : String) (size : UInt64) :
    total (files ++ [{ name := name, size := size }]) = total files := by
  simp [total]

theorem total_eq_sum_of_registered (hall : ∀ file ∈ files, file.registered = true) :
    total files = (files.map fun file => file.size.toNat).sum := by
  unfold total
  rw [filter_eq_self.mpr hall]

theorem register_of_not_mem (hnone : ∀ file ∈ files, file.name ≠ name) : register files name = files := by
  have hsame : ∀ file ∈ files,
      (if file.name = name then { file with registered := true } else file) = id file := by
    intro file hmem
    rw [if_neg (hnone file hmem), id]
  unfold register
  rw [map_congr_left hsame, map_id]

theorem unlink_of_not_mem (hnone : ∀ file ∈ files, file.name ≠ name) : unlink files name = files := by
  apply filter_eq_self.mpr
  intro file hmem
  simpa using hnone file hmem

theorem find_cons (first : CacheFile) (files : List CacheFile) (name : String) :
    find (first :: files) name = if first.name = name then some first else find files name := by
  unfold find
  by_cases hname : first.name = name
  · simp [hname]
  · simp [hname]

theorem NamesUnique.cons {first : CacheFile} (hunique : NamesUnique (first :: files)) :
    (∀ file ∈ files, file.name ≠ first.name) ∧ NamesUnique files := by
  unfold NamesUnique at hunique
  rw [map_cons, nodup_cons] at hunique
  refine ⟨?_, hunique.2⟩
  intro file hmem hname
  exact hunique.1 (hname ▸ mem_map_of_mem hmem)

theorem total_register (hunique : NamesUnique files) (hfound : find files name = some file)
    (hnew : file.registered = false) : total (register files name) = total files + file.size.toNat := by
  induction files with
  | nil => cases hfound
  | cons first files ih =>
    rw [find_cons] at hfound
    split at hfound
    next hname =>
      have hrest := register_of_not_mem (hname ▸ hunique.cons.1)
      have hfirst := Option.some.inj hfound
      subst hfirst
      rw [register, map_cons, if_pos hname, total_cons, total_cons, hnew]
      rw [register] at hrest
      rw [hrest]
      simp only [if_true, Bool.false_eq_true, if_false]
      omega
    next hname =>
      have hrest := ih hunique.cons.2 hfound
      rw [register] at hrest ⊢
      rw [map_cons, if_neg hname, total_cons, total_cons, hrest]
      omega

theorem total_unlink (hunique : NamesUnique files) (hfound : find files name = some file)
    (hreg : file.registered = true) : total (unlink files name) + file.size.toNat = total files := by
  induction files with
  | nil => cases hfound
  | cons first files ih =>
    rw [find_cons] at hfound
    split at hfound
    next hname =>
      have hrest := unlink_of_not_mem (hname ▸ hunique.cons.1)
      have hfirst := Option.some.inj hfound
      subst hfirst
      rw [unlink] at hrest ⊢
      rw [filter_cons_of_neg (by simpa using hname), hrest, total_cons, hreg]
      simp only [if_true]
      omega
    next hname =>
      have hrest := ih hunique.cons.2 hfound
      rw [unlink] at hrest ⊢
      rw [filter_cons_of_pos (by simpa using hname), total_cons, total_cons]
      omega

theorem NamesUnique.append (hunique : NamesUnique files) (hfound : find files name = none)
    (size : UInt64) : NamesUnique (files ++ [{ name := name, size := size }]) := by
  unfold NamesUnique at hunique ⊢
  rw [map_append, nodup_append]
  refine ⟨hunique, by simp, ?_⟩
  intro old hold new hnew hsame
  obtain ⟨file, hmem, rfl⟩ := mem_map.mp hold
  have hname : new = name := by simpa using hnew
  exact find_none hfound file hmem (hsame.trans hname)

theorem NamesUnique.unlink (hunique : NamesUnique files) (name : String) :
    NamesUnique (unlink files name) :=
  hunique.sublist (filter_sublist.map _)

theorem NamesUnique.register (hunique : NamesUnique files) (name : String) :
    NamesUnique (register files name) := by
  have hname : (ControlFile.register files name).map CacheFile.name = files.map CacheFile.name := by
    unfold ControlFile.register
    rw [map_map]
    apply map_congr_left
    intro file _
    dsimp only [Function.comp_apply]
    split
    · rfl
    · rfl
  unfold NamesUnique
  rw [hname]
  exact hunique

theorem find_unlink (hfound : find (unlink files name) other = some file) :
    find files other = some file := by
  have hne : other ≠ name := by
    intro hsame
    have hfou := find_some hfound
    have hkept := (mem_filter.mp hfou.1).2
    rw [hfou.2, hsame] at hkept
    simp at hkept
  rw [find, unlink, find?_filter] at hfound
  rw [find, ← hfound]
  congr 1
  funext file
  by_cases hother : file.name = other
  · simp [hother, hne]
  · simp [hother]

/-! The part of an operation that ends with a write to the control file. -/

def critical : Phase → Bool
  | .updateRead _ => true
  | .updateStat _ _ => true
  | .updateWrite _ _ => true
  | .purgeOpen _ => true
  | .purgeStat _ => true
  | .purgeUnlink _ _ => true
  | .purgeSizeLock _ => true
  | .purgeSizeRead _ => true
  | .purgeSizeUnlock _ _ => true
  | .purgeWrite _ => true
  | .updatePurgeScan _ => true
  | .updatePurgeLoop _ _ _ => true
  | .updatePurgeWrite _ => true
  | _ => false

def Fits (lock : Option LockKind) : Phase → Prop
  | .unlock => True
  | .sizeRead => lock = some .read
  | .purgeSizeRead _ => lock = some .read
  | .purgeSizeUnlock _ _ => lock = some .read
  | .purgeWrite _ => lock = none
  | .createOpen _ _ => lock = some .write
  | phase => if critical phase then lock = some .write else lock = none

def Known (files : List CacheFile) : Listed → Prop
  | .control => False
  | .file name size => ∀ file ∈ find files name, file.size = size ∧ file.registered = true

/-- How the stored size relates to the files while a process is in this phase and
no other process is in its critical part. -/
def Relates (shared : Shared) : Phase → Prop
  | .updateStat _ currentSize =>
      shared.stored.toNat = total shared.files ∧ currentSize = shared.stored
  | .updateWrite name currentSize => ∃ file, find shared.files name = some file ∧
      file.registered = false ∧ currentSize.toNat = total shared.files + file.size.toNat
  | .purgeUnlink name size => shared.stored.toNat = total shared.files ∧
      ∀ file ∈ find shared.files name, file.size = size
  | .purgeSizeLock size => shared.stored.toNat = total shared.files + size.toNat
  | .purgeSizeRead size => shared.stored.toNat = total shared.files + size.toNat
  | .purgeSizeUnlock size currentSize =>
      shared.stored.toNat = total shared.files + size.toNat ∧ currentSize = shared.stored
  | .purgeWrite cacheSize => cacheSize.toNat = total shared.files
  | .updatePurgeLoop _ contents computedSize => computedSize.toNat = total shared.files ∧
      ∀ entry ∈ contents, Known shared.files entry
  | .updatePurgeWrite computedSize => computedSize.toNat = total shared.files
  | _ => shared.stored.toNat = total shared.files

theorem relates_of_not_critical (hphase : critical phase = false) :
    Relates shared phase ↔ shared.stored.toNat = total shared.files := by
  cases phase <;> first | exact Iff.rfl | cases hphase

variable {config : Config} {locks : List (Option LockKind)} {shared : Shared} {kind : LockKind} {phase : Phase}

theorem lockCache_some (hstep : lockCache locks p shared kind phase = some (shared', process')) :
    Grants locks p kind ∧ shared' = shared ∧ process' = ⟨phase, some kind⟩ := by
  unfold lockCache at hstep
  split at hstep
  next hgraph =>
    cases hstep
    exact ⟨hgraph, rfl, rfl⟩
  · cases hstep

theorem toNat_sum (sizes : List UInt64) : sizes.sum.toNat = (sizes.map UInt64.toNat).sum % 2 ^ 64 := by
  induction sizes with
  | nil => rfl
  | cons size sizes ih =>
    rw [sum_cons, map_cons, sum_cons, UInt64.toNat_add, ih, Nat.add_mod_mod]

variable {contents : List Listed}

theorem scan_sum (hscan : contents.Perm (listing shared)) (hcontrol : shared.controlListed = false)
    (hall : ∀ file ∈ shared.files, file.registered = true)
    (hstored : shared.stored.toNat = total shared.files) :
    ((contents.map Listed.size).sum).toNat = total shared.files := by
  have hsize : (listing shared).map (fun entry => entry.size.toNat) =
      shared.files.map fun file => file.size.toNat := by
    simp [listing, hcontrol, Listed.size]
  have hsum := (hscan.map fun entry => entry.size.toNat).sum_eq
  rw [hsize, ← total_eq_sum_of_registered hall] at hsum
  rw [toNat_sum, map_map]
  simp only [Function.comp_def]
  rw [hsum, ← hstored]
  exact Nat.mod_eq_of_lt shared.stored.toNat_lt

theorem scan_known (hscan : contents.Perm (listing shared))
    (hunique : NamesUnique shared.files) (hcontrol : shared.controlListed = false)
    (hall : ∀ file ∈ shared.files, file.registered = true) :
    ∀ entry ∈ contents, Known shared.files entry := by
  intro entry hmem
  have hlis := hscan.subset hmem
  simp only [listing, hcontrol, Bool.false_eq_true, if_false, nil_append, mem_map] at hlis
  obtain ⟨file, hfil, rfl⟩ := hlis
  intro other hother
  have hfou := find_some hother
  have hsame := inj_on_of_nodup_map hunique hfou.1 hfil hfou.2
  rw [hsame]
  exact ⟨rfl, hall file hfil⟩

theorem Known.unlink (hkno : Known files entry) (name : String) : Known (unlink files name) entry := by
  cases entry with
  | control => exact hkno
  | file other size =>
    intro file hfil
    exact hkno file (find_unlink hfil)

theorem purgeRound_cases (hrou : purgeRound config shared process newFile contents computedSize
      available = (shared', process')) :
    (shared' = shared ∧ process' = { process with phase := .updatePurgeWrite computedSize }) ∨
    (∃ entry rest, contents = entry :: rest ∧ Purgeable shared newFile entry ∧
      purgeListed shared process computedSize newFile rest entry = (shared', process')) ∨
    (∃ entry rest, contents = entry :: rest ∧ shared' = shared ∧
      process' = { process with phase := .updatePurgeLoop newFile rest computedSize }) := by
  cases contents with
  | nil =>
    cases hrou
    exact .inl ⟨rfl, rfl⟩
  | cons entry rest =>
    simp only [purgeRound] at hrou
    split at hrou
    · cases hrou
      exact .inl ⟨rfl, rfl⟩
    · split at hrou
      next hpurge =>
        exact .inr (.inl ⟨entry, rest, rfl, hpurge.1, hrou⟩)
      · cases hrou
        exact .inr (.inr ⟨entry, rest, rfl, rfl, rfl⟩)

theorem purgeRound_relates (hunique : NamesUnique shared.files)
    (hrel : Relates shared (.updatePurgeLoop newFile contents computedSize))
    (hrou : purgeRound config shared process newFile contents computedSize available =
      (shared', process')) : Relates shared' process'.phase ∧ NamesUnique shared'.files := by
  obtain ⟨hcom, hkno⟩ := hrel
  rcases purgeRound_cases hrou with
    ⟨rfl, rfl⟩ | ⟨entry, rest, rfl, hpurge, hlis⟩ | ⟨entry, rest, rfl, rfl, rfl⟩
  · exact ⟨hcom, hunique⟩
  · cases entry with
    | control => exact (hkno .control mem_cons_self).elim
    | file name size =>
      cases hlis
      obtain ⟨file, hfound⟩ := Option.isSome_iff_exists.mp hpurge.2
      obtain ⟨hsize, hreg⟩ := hkno (.file name size) mem_cons_self file hfound
      have htot := total_unlink hunique hfound hreg
      have hle : size ≤ computedSize := by
        rw [UInt64.le_iff_toNat_le, ← hsize]
        omega
      refine ⟨⟨?_, ?_⟩, hunique.unlink name⟩
      · rw [UInt64.toNat_sub_of_le _ _ hle, ← hsize]
        dsimp only
        omega
      · intro other hmem
        exact (hkno other (mem_cons_of_mem _ hmem)).unlink name
  · refine ⟨⟨hcom, ?_⟩, hunique⟩
    intro other hmem
    exact hkno other (mem_cons_of_mem entry hmem)

variable {system : System}

theorem nextCall_relates (hunique : NamesUnique system.shared.files)
    (hrel : Relates system.shared process.phase) (hcar : carefulFor system p process.phase = true)
    (hstep : nextCall locks p system.shared process = some (shared', process')) :
    Relates shared' process'.phase ∧ NamesUnique shared'.files := by
  obtain ⟨phase, lock⟩ := process
  cases phase
  case idle | updatePurgeScan | updatePurgeLoop => cases hstep
  case createLock | updateLock | sizeLock | purgeLock | purgeSizeLock | updatePurgeLock =>
    obtain ⟨-, rfl, rfl⟩ := lockCache_some hstep
    exact ⟨hrel, hunique⟩
  case sizeRead | purgeWrite | updatePurgeWrite | unlock =>
    cases hstep
    exact ⟨hrel, hunique⟩
  case updateRead | purgeSizeRead =>
    cases hstep
    exact ⟨⟨hrel, rfl⟩, hunique⟩
  case createOpen name size =>
    simp only [nextCall] at hstep
    split at hstep
    · cases hstep
      exact ⟨hrel, hunique⟩
    next hfound =>
      cases hstep
      refine ⟨?_, hunique.append hfound size⟩
      exact hrel.trans (total_append_unregistered _ name size).symm
  case updateStat name currentSize =>
    simp only [nextCall] at hstep
    split at hstep
    · cases hstep
      exact ⟨hrel.1, hunique⟩
    next file hfound =>
      cases hstep
      obtain ⟨hnew, hfits⟩ := of_decide_eq_true hcar file hfound
      refine ⟨⟨file, hfound, hnew, ?_⟩, hunique⟩
      rw [UInt64.toNat_add, hrel.2, hrel.1]
      exact Nat.mod_eq_of_lt hfits
  case updateWrite name currentSize =>
    cases hstep
    obtain ⟨file, hfound, hnew, hsize⟩ := hrel
    refine ⟨?_, hunique.register name⟩
    exact hsize.trans (total_register hunique hfound hnew).symm
  case purgeOpen name =>
    simp only [nextCall] at hstep
    split at hstep
    all_goals
      cases hstep
      exact ⟨hrel, hunique⟩
  case purgeStat name =>
    simp only [nextCall] at hstep
    split at hstep
    all_goals
      rename_i hfound
      cases hstep
      refine ⟨⟨hrel, ?_⟩, hunique⟩
      intro other hother
      rw [Option.mem_def, hfound] at hother
      cases hother
      try rfl
  case purgeUnlink name size =>
    simp only [nextCall] at hstep
    split at hstep
    · cases hstep
      exact ⟨hrel.1, hunique⟩
    next file hfound =>
      cases hstep
      have hreg := of_decide_eq_true hcar file hfound
      have htot := total_unlink hunique hfound hreg
      refine ⟨?_, hunique.unlink name⟩
      change system.shared.stored.toNat = total (unlink system.shared.files name) + size.toNat
      rw [← hrel.2 file hfound, htot, hrel.1]
  case purgeSizeUnlock size currentSize =>
    cases hstep
    obtain ⟨hstored, rfl⟩ := hrel
    refine ⟨?_, hunique⟩
    have hle : size ≤ system.shared.stored := by
      rw [UInt64.le_iff_toNat_le]
      omega
    change (system.shared.stored - size).toNat = total system.shared.files
    rw [UInt64.toNat_sub_of_le _ _ hle]
    omega

theorem critical_start (config : Config) (operation : Operation) :
    critical (operation.start config) = false := by
  cases operation with
  | updateAndPurge newFile =>
    dsimp only [Operation.start]
    split
    · rfl
    · rfl
  | _ => rfl

theorem step_call (hstep : processStep config locks p shared process (.call operation) =
      some (shared', process')) : process.phase = .idle ∧ shared' = shared ∧
      process' = { process with phase := operation.start config } := by
  simp only [processStep] at hstep
  split at hstep
  next hidl =>
    cases hstep
    exact ⟨hidl, rfl, rfl⟩
  · cases hstep

theorem step_scan (hstep : processStep config locks p shared process (.scan contents) =
      some (shared', process')) :
    ∃ newFile, process.phase = .updatePurgeScan newFile ∧ contents.Perm (listing shared) ∧
      shared' = shared ∧ process' = { process with
        phase := if config.cacheTooBig (contents.map Listed.size).sum
          then .updatePurgeLoop newFile contents (contents.map Listed.size).sum
          else .updatePurgeWrite (contents.map Listed.size).sum } := by
  obtain ⟨phase, lock⟩ := process
  cases phase with
  | updatePurgeScan newFile =>
    simp only [processStep] at hstep
    split at hstep
    next hprm =>
      cases hstep
      exact ⟨newFile, rfl, hprm, rfl, rfl⟩
    · cases hstep
  | _ => cases hstep

theorem step_round (hstep : processStep config locks p shared process (.round available) =
      some (shared', process')) : ∃ newFile contents computedSize,
      process.phase = .updatePurgeLoop newFile contents computedSize ∧
      purgeRound config shared process newFile contents computedSize available =
        (shared', process') := by
  obtain ⟨phase, lock⟩ := process
  cases phase with
  | updatePurgeLoop newFile contents computedSize =>
    exact ⟨newFile, contents, computedSize, rfl, Option.some.inj hstep⟩
  | _ => cases hstep

theorem processStep_relates (hunique : NamesUnique system.shared.files)
    (hrel : Relates system.shared process.phase) (hcar : carefulFor system p process.phase = true)
    (hstep : processStep config locks p system.shared process choice = some (shared', process')) :
    Relates shared' process'.phase ∧ NamesUnique shared'.files := by
  cases choice with
  | call operation =>
    obtain ⟨hidl, rfl, rfl⟩ := step_call hstep
    rw [hidl] at hrel
    exact ⟨(relates_of_not_critical (critical_start config operation)).mpr hrel, hunique⟩
  | next => exact nextCall_relates hunique hrel hcar hstep
  | scan contents =>
    obtain ⟨newFile, hphase, hscan, rfl, rfl⟩ := step_scan hstep
    rw [hphase] at hrel hcar
    obtain ⟨hcontrol, hall⟩ := of_decide_eq_true hcar
    have hsum := scan_sum hscan hcontrol hall hrel
    refine ⟨?_, hunique⟩
    split
    · exact ⟨hsum, scan_known hscan hunique hcontrol hall⟩
    · exact hsum
  | round available =>
    obtain ⟨newFile, contents, computedSize, hphase, hrou⟩ := step_round hstep
    exact purgeRound_relates hunique (hphase ▸ hrel) hrou

/-- The loop of `update_and_purge` does not come to the control file. -/
def SparesControl : Phase → Prop
  | .updatePurgeLoop _ contents _ => .control ∉ contents
  | _ => True

theorem processStep_fits (hfits : Fits process.lock process.phase) (hcontrol : SparesControl process.phase)
    (hstep : processStep config locks p shared process choice = some (shared', process')) :
    Fits process'.lock process'.phase := by
  cases choice with
  | call operation =>
    obtain ⟨hidl, rfl, rfl⟩ := step_call hstep
    rw [hidl] at hfits
    cases operation with
    | updateAndPurge newFile =>
      dsimp only [Operation.start]
      split
      · exact hfits
      · exact hfits
    | _ => exact hfits
  | next =>
    obtain ⟨phase, lock⟩ := process
    cases phase
    case idle | updatePurgeScan | updatePurgeLoop => cases hstep
    case createLock | updateLock | sizeLock | purgeLock | purgeSizeLock | updatePurgeLock =>
      obtain ⟨-, rfl, rfl⟩ := lockCache_some hstep
      rfl
    case createOpen | updateStat | purgeOpen | purgeStat | purgeUnlink =>
      simp only [processStep, nextCall] at hstep
      split at hstep <;> cases hstep <;> trivial
    all_goals
      cases hstep
      first | rfl | trivial
  | scan contents =>
    obtain ⟨newFile, hphase, -, rfl, rfl⟩ := step_scan hstep
    rw [hphase] at hfits
    split
    · exact hfits
    · exact hfits
  | round available =>
    obtain ⟨newFile, contents, computedSize, hphase, hrou⟩ := step_round hstep
    rw [hphase] at hfits hcontrol
    rcases purgeRound_cases hrou with
      ⟨rfl, rfl⟩ | ⟨entry, rest, rfl, -, hlis⟩ | ⟨entry, rest, rfl, rfl, rfl⟩
    · exact hfits
    · cases entry with
      | control => exact absurd mem_cons_self hcontrol
      | file name size =>
        cases hlis
        exact hfits
    · exact hfits

theorem processStep_lock
    (hstep : processStep config locks p shared process choice = some (shared', process')) :
    process'.lock = process.lock ∨ process'.lock = none ∨
      ∃ kind, process'.lock = some kind ∧ Grants locks p kind := by
  cases choice with
  | call operation =>
    obtain ⟨-, rfl, rfl⟩ := step_call hstep
    exact .inl rfl
  | next =>
    obtain ⟨phase, lock⟩ := process
    cases phase
    case idle | updatePurgeScan | updatePurgeLoop => cases hstep
    case createLock | updateLock | sizeLock | purgeLock | purgeSizeLock | updatePurgeLock =>
      obtain ⟨hgraph, rfl, rfl⟩ := lockCache_some hstep
      exact .inr (.inr ⟨_, rfl, hgraph⟩)
    case createOpen | updateStat | purgeOpen | purgeStat | purgeUnlink =>
      simp only [processStep, nextCall] at hstep
      split at hstep <;> cases hstep <;> exact .inl rfl
    case purgeSizeUnlock | unlock =>
      cases hstep
      exact .inr (.inl rfl)
    all_goals
      cases hstep
      exact .inl rfl
  | scan contents =>
    obtain ⟨newFile, -, -, rfl, rfl⟩ := step_scan hstep
    exact .inl rfl
  | round available =>
    obtain ⟨newFile, contents, computedSize, -, hrou⟩ := step_round hstep
    rcases purgeRound_cases hrou with
      ⟨rfl, rfl⟩ | ⟨entry, rest, rfl, -, hlis⟩ | ⟨entry, rest, rfl, rfl, rfl⟩
    · exact .inl rfl
    · cases entry with
      | control =>
        cases hlis
        exact .inr (.inl rfl)
      | file name size =>
        cases hlis
        exact .inl rfl
    · exact .inl rfl

theorem processStep_enters (hbefore : critical process.phase = false)
    (hafter : critical process'.phase = true)
    (hstep : processStep config locks p shared process choice = some (shared', process')) :
    Grants locks p .write ∧ carefulFor system p process.phase = noneExposed system p := by
  cases choice with
  | call operation =>
    obtain ⟨-, rfl, rfl⟩ := step_call hstep
    rw [critical_start] at hafter
    cases hafter
  | next =>
    obtain ⟨phase, lock⟩ := process
    cases phase
    case updateLock | purgeLock | updatePurgeLock =>
      exact ⟨(lockCache_some hstep).1, rfl⟩
    case createLock | sizeLock =>
      obtain ⟨-, rfl, rfl⟩ := lockCache_some hstep
      cases hafter
    case createOpen =>
      simp only [processStep, nextCall] at hstep
      split at hstep <;> cases hstep <;> cases hafter
    case idle => cases hstep
    case sizeRead | unlock =>
      cases hstep
      cases hafter
    all_goals cases hbefore
  | scan contents =>
    obtain ⟨newFile, hphase, -⟩ := step_scan hstep
    rw [hphase] at hbefore
    cases hbefore
  | round available =>
    obtain ⟨newFile, contents, computedSize, hphase, -⟩ := step_round hstep
    rw [hphase] at hbefore
    cases hbefore

theorem processStep_shared (hbefore : critical process.phase = false)
    (hstep : processStep config locks p shared process choice = some (shared', process')) :
    shared' = shared ∨ ∃ name size, process.phase = .createOpen name size ∧
      find shared.files name = none ∧
      shared' = { shared with files := shared.files ++ [{ name := name, size := size }] } := by
  cases choice with
  | call operation =>
    obtain ⟨-, rfl, -⟩ := step_call hstep
    exact .inl rfl
  | next =>
    obtain ⟨phase, lock⟩ := process
    cases phase
    case createOpen name size =>
      simp only [processStep, nextCall] at hstep
      split at hstep
      · cases hstep
        exact .inl rfl
      next hfound =>
        cases hstep
        exact .inr ⟨name, size, rfl, hfound, rfl⟩
    case createLock | updateLock | sizeLock | purgeLock | updatePurgeLock =>
      exact .inl (lockCache_some hstep).2.1
    case idle => cases hstep
    case sizeRead | unlock =>
      cases hstep
      exact .inl rfl
    all_goals cases hbefore
  | scan contents =>
    obtain ⟨newFile, -, -, rfl, -⟩ := step_scan hstep
    exact .inl rfl
  | round available =>
    obtain ⟨newFile, contents, computedSize, hphase, -⟩ := step_round hstep
    rw [hphase] at hbefore
    cases hbefore

structure Invariant (system : System) : Prop where
  unique : NamesUnique system.shared.files
  fits : ∀ (q : Nat) (other : Process), system.processes[q]? = some other →
    Fits other.lock other.phase
  writerAlone : WriterAlone system.locks
  criticalAlone : ∀ (q r : Nat) (first second : Process), system.processes[q]? = some first →
    system.processes[r]? = some second → critical first.phase = true →
    critical second.phase = true → q = r
  settled : (∀ (q : Nat) (other : Process), system.processes[q]? = some other →
    critical other.phase = false) → system.shared.stored.toNat = total system.shared.files
  relates : ∀ (q : Nat) (other : Process), system.processes[q]? = some other →
    critical other.phase = true → Relates system.shared other.phase

theorem step_some (hstep : step config system event = some system') :
    ∃ process shared' process', system.processes[event.1]? = some process ∧
      processStep config system.locks event.1 system.shared process event.2 =
        some (shared', process') ∧ system' = ⟨shared', system.processes.set event.1 process'⟩ := by
  obtain ⟨process, hpro, hrest⟩ := Option.bind_eq_some_iff.mp hstep
  obtain ⟨⟨shared', process'⟩, hmov, hresult⟩ := Option.bind_eq_some_iff.mp hrest
  exact ⟨process, shared', process', hpro, hmov, (Option.some.inj hresult).symm⟩

theorem locks_set (system : System) (shared : Shared) (p : Nat) (process : Process) :
    System.locks ⟨shared, system.processes.set p process⟩ = system.locks.set p process.lock := by
  simp only [System.locks, map_set]

theorem getElem?_locks {q : Nat} (hother : system.processes[q]? = some other) :
    system.locks[q]? = some other.lock := by
  rw [System.locks, getElem?_map, hother, Option.map_some]

theorem noneExposed_iff : noneExposed system p = true ↔
    ∀ (q : Nat) (other : Process), q ≠ p → system.processes[q]? = some other →
      other.phase.exposed = false := by
  unfold noneExposed
  rw [decide_eq_true_iff]
  constructor
  · intro hnone q other hne hother
    exact hnone q (List.getElem?_eq_some_iff.mp hother).1 hne other hother
  · intro hnone q _ hne other hother
    exact hnone q other hne hother

theorem Fits.exposed (hfits : Fits lock phase)
    (hcrt : critical phase = true) (hlock : lock = none) : phase.exposed = true := by
  subst hlock
  cases phase
  case purgeWrite => rfl
  all_goals first | (cases hcrt; done) | simp [Fits, critical] at hfits

section

variable {choice : Choice} {other : Process} (hinv : Invariant system)
  (hpro : system.processes[p]? = some process)
  (hcar : carefulFor system p process.phase = true)
  (hstep : processStep config system.locks p system.shared process choice =
    some (shared', process'))

include hinv hpro hstep in
theorem Invariant.writerAlone_step :
    WriterAlone (System.locks ⟨shared', system.processes.set p process'⟩) := by
  rw [locks_set]
  apply hinv.writerAlone.set
  apply (processStep_lock hstep).imp_left
  intro hsame
  rw [hsame]
  exact getElem?_locks hpro

include hinv hpro hcar hstep in
/-- While another process is in its critical part, a careful step changes nothing
for it and does not enter a critical part. -/
theorem Invariant.other_critical (hne : q ≠ p) (hother : system.processes[q]? = some other)
    (hcrt : critical other.phase = true) :
    critical process.phase = false ∧ critical process'.phase = false ∧
      (Relates system.shared other.phase → Relates shared' other.phase) ∧ NamesUnique shared'.files := by
  have hbefore : critical process.phase = false := by
    cases hphase : critical process.phase with
    | false => rfl
    | true =>
      exact absurd (hinv.criticalAlone q p other process hother hpro hcrt hphase) hne
  have hfits := hinv.fits q other hother
  refine ⟨hbefore, ?_, ?_⟩
  · cases hafter : critical process'.phase with
    | false => rfl
    | true =>
      -- the write lock was granted, so the other process has none and is exposed
      obtain ⟨hgraph, hcon⟩ := processStep_enters hbefore hafter hstep
      have hlock : other.lock = none := hgraph.compatible hne (getElem?_locks hother)
      have hexp := hfits.exposed hcrt hlock
      rw [hcon] at hcar
      rw [noneExposed_iff.mp hcar q other hne hother] at hexp
      cases hexp
  · rcases processStep_shared hbefore hstep with rfl | ⟨name, size, hphase, hfound, rfl⟩
    · exact ⟨id, hinv.unique⟩
    · refine ⟨?_, hinv.unique.append hfound size⟩
      -- creating a file takes the write lock too
      have hwritten := hinv.fits p process hpro
      rw [hphase] at hwritten
      have hheld := getElem?_locks hpro
      rw [hwritten] at hheld
      have hlock := hinv.writerAlone p q other.lock (Ne.symm hne) hheld (getElem?_locks hother)
      have hexp := hfits.exposed hcrt hlock
      cases hote : other.phase
      case purgeWrite cacheSize =>
        intro hrel
        exact hrel.trans (total_append_unregistered _ name size).symm
      all_goals
        rw [hote] at hexp
        cases hexp

include hinv hpro hstep in
theorem Invariant.fits_step (hcontrol : SparesControl process.phase) :
    ∀ (q : Nat) (other : Process), (system.processes.set p process')[q]? = some other →
      Fits other.lock other.phase := by
  intro q other hother
  cases getElem?_set_cases hother with
  | inl hself =>
    rw [hself.2]
    exact processStep_fits (hinv.fits p process hpro) hcontrol hstep
  | inr hels => exact hinv.fits q other hels.2

include hinv hpro hcar hstep in
theorem Invariant.step_alone
    (halo : ∀ (q : Nat) (other : Process), q ≠ p → system.processes[q]? = some other →
      critical other.phase = false) : Invariant ⟨shared', system.processes.set p process'⟩ := by
  have hlt := (List.getElem?_eq_some_iff.mp hpro).1
  have hrel : Relates system.shared process.phase := by
    cases hphase : critical process.phase with
    | true => exact hinv.relates p process hpro hphase
    | false =>
      apply (relates_of_not_critical hphase).mpr
      apply hinv.settled
      intro q other hother
      by_cases hq : q = p
      · rw [hq, hpro, Option.some.injEq] at hother
        exact hother ▸ hphase
      · exact halo q other hq hother
  obtain ⟨hafter, hunique⟩ := processStep_relates hinv.unique hrel hcar hstep
  have hcontrol : SparesControl process.phase := by
    cases hphase : process.phase
    case updatePurgeLoop =>
      rw [hphase] at hrel
      exact fun hmem => hrel.2 .control hmem
    all_goals trivial
  have hself : ∀ (q : Nat) (other : Process),
      (system.processes.set p process')[q]? = some other → critical other.phase = true →
      q = p ∧ other = process' := by
    intro q other hother hcrt
    cases getElem?_set_cases hother with
    | inl hself => exact hself
    | inr hels =>
      rw [halo q other hels.1 hels.2] at hcrt
      cases hcrt
  refine ⟨hunique, hinv.fits_step hpro hstep hcontrol, hinv.writerAlone_step hpro hstep, ?_, ?_, ?_⟩
  · intro q r first second hfirst hsecond hfir hsec
    rw [(hself q first hfirst hfir).1, (hself r second hsecond hsec).1]
  · intro hnone
    have hidl := hnone p process' (getElem?_set_self hlt)
    exact (relates_of_not_critical hidl).mp hafter
  · intro q other hother hcrt
    rw [(hself q other hother hcrt).2]
    exact hafter

include hinv hpro hcar hstep in
theorem Invariant.step_beside (hne : q ≠ p) (hother : system.processes[q]? = some other)
    (hcrt : critical other.phase = true) : Invariant ⟨shared', system.processes.set p process'⟩ := by
  obtain ⟨hbefore, hafter, hkept, hunique⟩ := hinv.other_critical hpro hcar hstep hne hother hcrt
  have hcontrol : SparesControl process.phase := by
    cases hphase : process.phase
    case updatePurgeLoop =>
      rw [hphase] at hbefore
      cases hbefore
    all_goals trivial
  have hold : ∀ (r : Nat) (second : Process),
      (system.processes.set p process')[r]? = some second → critical second.phase = true →
      system.processes[r]? = some second := by
    intro r second hsecond hsec
    cases getElem?_set_cases hsecond with
    | inl hself =>
      rw [hself.2, hafter] at hsec
      cases hsec
    | inr hels => exact hels.2
  refine ⟨hunique, hinv.fits_step hpro hstep hcontrol, hinv.writerAlone_step hpro hstep, ?_, ?_, ?_⟩
  · intro r t first second hfirst hsecond hfir hsec
    exact hinv.criticalAlone r t first second (hold r first hfirst hfir)
      (hold t second hsecond hsec) hfir hsec
  · intro hnone
    rw [hnone q other (by rw [getElem?_set_ne (Ne.symm hne)]; exact hother)] at hcrt
    cases hcrt
  · intro r second hsecond hsec
    have hseo := hold r second hsecond hsec
    have hr := hinv.criticalAlone r q second other hseo hother hsec hcrt
    rw [hr, hother, Option.some.injEq] at hseo
    subst hseo
    exact hkept (hinv.relates q other hother hcrt)

end

theorem invariant_step (config : Config) (system : System) (event : Nat × Choice)
    (system' : System) (hinv : Invariant system) (hcar : Careful system event)
    (hstep : step config system event = some system') : Invariant system' := by
  obtain ⟨process, shared', process', hpro, hmov, rfl⟩ := step_some hstep
  obtain ⟨p, choice⟩ := event
  have hcae := hcar process hpro
  by_cases halo : ∀ (q : Nat) (other : Process), q ≠ p → system.processes[q]? = some other →
      critical other.phase = false
  · exact hinv.step_alone hpro hcae hmov halo
  · push Not at halo
    obtain ⟨q, other, hne, hother, hcrt⟩ := halo
    rw [ne_eq, Bool.not_eq_false] at hcrt
    exact hinv.step_beside hpro hcae hmov hne hother hcrt

theorem invariant_initial (numProcesses : Nat) (controlListed : Bool) :
    Invariant (initial numProcesses controlListed) := by
  have hnew : ∀ (q : Nat) (other : Process),
      (initial numProcesses controlListed).processes[q]? = some other → other = {} := by
    intro q other hother
    exact eq_of_mem_replicate (mem_of_getElem? hother)
  refine ⟨nodup_nil, ?_, ?_, ?_, fun _ => rfl, ?_⟩
  · intro q other hother
    rw [hnew q other hother]
    rfl
  · intro q r held _ hq
    rw [System.locks, getElem?_map] at hq
    obtain ⟨other, hother, hlock⟩ := Option.map_eq_some_iff.mp hq
    rw [hnew q other hother] at hlock
    cases hlock
  · intro q r first second hfirst _ hcrt
    rw [hnew q first hfirst] at hcrt
    cases hcrt
  · intro q other hother hcrt
    rw [hnew q other hother] at hcrt
    cases hcrt

theorem Invariant.sizeRecorded (system : System) (hinv : Invariant system) : SizeRecorded system := by
  intro hidl
  apply hinv.settled
  intro q other hother
  rw [hidl other (mem_of_getElem? hother)]
  rfl

/-- In every run of any number of processes whose steps are all careful, the
control file holds the size of the registered files whenever no operation is in
progress. -/
theorem sizeRecorded_throughout (config : Config) (numProcesses : Nat) (controlListed : Bool)
    (events : List (Nat × Choice))
    (hcareful : Guarded (step config) Careful (initial numProcesses controlListed) events) :
    Throughout (step config) SizeRecorded (initial numProcesses controlListed) events :=
  hcareful.throughout Invariant Invariant.sizeRecorded (invariant_step config)
    (invariant_initial numProcesses controlListed)

def alone (p : Nat) (operation : Operation) (steps : Nat) : List (Nat × Choice) :=
  (p, .call operation) :: replicate steps (p, .next)

/-- Process 0 purges a file of 10 bytes. After the unlock in its `get_cache_size`
process 1 registers a file of 7 bytes. -/
def lostUpdateRun : List (Nat × Choice) :=
  alone 0 (.createAndLock "a" 10) 3 ++ alone 0 (.updateCacheInfo "a") 5 ++
    alone 1 (.createAndLock "b" 7) 3 ++ alone 0 (.purgeFile "a") 7 ++
    alone 1 (.updateCacheInfo "b") 5 ++ replicate 2 (0, .next)

theorem lostUpdateRun_not_sizeRecorded :
    ¬ Throughout (step ⟨0, 0⟩) SizeRecorded (initial 2 true) lostUpdateRun := by
  intro hthru
  have hrun : run (step ⟨0, 0⟩) (initial 2 true) lostUpdateRun =
      some ⟨⟨0, [{ name := "b", size := 7, registered := true }], true⟩, [{}, {}]⟩ := by
    decide
  have hrec := hthru.last hrun (by decide)
  exact absurd hrec (by decide)

def carefulRun : List (Nat × Choice) :=
  alone 0 (.createAndLock "a" 1048576) 3 ++ alone 0 (.updateCacheInfo "a") 5 ++
    alone 1 (.createAndLock "b" 7) 3 ++ alone 1 (.updateCacheInfo "b") 5 ++
    alone 1 (.updateAndPurge "b") 1 ++
    [(1, .scan [.file "a" 1048576, .file "b" 7]), (1, .round true), (1, .round true)] ++
    replicate 2 (1, .next) ++
    alone 1 (.purgeFile "b") 6 ++ alone 0 .getCacheSize 3 ++ replicate 3 (1, .next)

theorem sizeRecorded_throughout_purges : Guarded (step megabyte) Careful (initial 2 false) carefulRun ∧
      Throughout (step megabyte) SizeRecorded (initial 2 false) carefulRun :=
  ⟨by decide, sizeRecorded_throughout megabyte 2 false carefulRun (by decide)⟩

example : run (step megabyte) (initial 1 true)
    (alone 0 (.updateAndPurge "a") 1 ++ [(0, .scan [.control])] ++ replicate 2 (0, .next)) =
    some ⟨⟨8, [], true⟩, [{}]⟩ := by
  decide

end Bes.Cache.SizeRecord
