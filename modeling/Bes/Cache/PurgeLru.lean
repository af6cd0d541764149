import Bes.Lib.Eviction
import Bes.Cache.PurgePaths
import Bes.Cache.SizeRecord

/-! The purge as an eviction by access time. `update_and_purge` keeps a running size in an
`unsigned long long`; the eviction it is meant to be counts without bound. -/
namespace Bes.Cache.PurgeLru
open Lib.Eviction Lib.Path List
open Cache.ControlFile Cache.PurgePaths

/-- The loop of `update_and_purge`, with the files it unlinks and the size it leaves. An exception and a
subtraction that wraps around have no result. -/
def checkedPurgeLoop (targetSize : UInt64) (newFile : Str) :
    List CacheEntry → UInt64 → Option (List CacheEntry × UInt64)
  | [], computedSize => some ([], computedSize)
  | entry :: rest, computedSize =>
      if computedSize ≤ targetSize then some ([], computedSize)
      else if entry.name = newFile then checkedPurgeLoop targetSize newFile rest computedSize
      else match entry.access with
        | .free =>
            if entry.size ≤ computedSize then do
              let (removed, written) ← checkedPurgeLoop targetSize newFile rest (computedSize - entry.size)
              some (entry :: removed, written)
            else none
        | .locked => checkedPurgeLoop targetSize newFile rest computedSize
        | .gone => checkedPurgeLoop targetSize newFile rest computedSize
        | .error => none

/-- `update_and_purge` of a limited cache: the files removed and the size written to the control file. -/
def checkedUpdateAndPurge (cache : FileLockingCache) (directory : List DirEntry) (newFile : Str) :
    Option (List CacheEntry × UInt64) :=
  let (contents, computedSize) := cache.collectCacheDirInfo directory
  if cache.config.cacheTooBig computedSize then
    checkedPurgeLoop cache.config.targetSize newFile contents computedSize
  else some ([], computedSize)

/-- What the loop passes over: it compares path strings. -/
def Skipped (newFile : Str) (entry : CacheEntry) : Prop := entry.name = newFile ∨ entry.access ≠ .free

instance (newFile : Str) : DecidablePred (Skipped newFile) :=
  fun _ => inferInstanceAs (Decidable (_ ∨ _))

/-- What it has to pass over: the new file, under whatever path, and the files whose lock is taken. -/
def Spared (cwd : Place) (newFile : Str) (entry : CacheEntry) : Prop :=
  resolve cwd entry.name = resolve cwd newFile ∨ entry.access ≠ .free

instance (cwd : Place) (newFile : Str) : DecidablePred (Spared cwd newFile) :=
  fun _ => inferInstanceAs (Decidable (_ ∨ _))

theorem spared_of_skipped (cwd : Place) (hskipped : Skipped newFile entry) : Spared cwd newFile entry :=
  hskipped.imp_left (congrArg (resolve cwd))

def bytes (entry : CacheEntry) : Nat := entry.size.toNat

def contents (cache : FileLockingCache) (directory : List DirEntry) : List CacheEntry :=
  (cache.collectCacheDirInfo directory).1

def total (cache : FileLockingCache) (directory : List DirEntry) : Nat :=
  ((contents cache directory).map bytes).sum

/-- What the purge has to do: nothing while the cache is within its limit, otherwise a minimal eviction in the
order of access; and the size that is written is that of the files left. -/
structure PurgesMinimally (cache : FileLockingCache) (cwd : Place) (directory : List DirEntry) (newFile : Str)
    (removed : List CacheEntry) (written : UInt64) : Prop where
  within : total cache directory ≤ cache.config.maxCacheSize.toNat → removed = []
  minimal : cache.config.maxCacheSize.toNat < total cache directory →
    Minimal bytes ((contents cache directory).filter fun entry => ¬ Spared cwd newFile entry)
      cache.config.targetSize.toNat (total cache directory) removed
  ordered : removed.Pairwise fun first second => first.time ≤ second.time
  written_eq : written.toNat =
    (((contents cache directory).filter fun entry => entry ∉ removed).map bytes).sum

section

variable {targetSize written : UInt64} {entries : List CacheEntry}

theorem checkedPurgeLoop_exact
    (hrun : checkedPurgeLoop targetSize newFile entries computedSize = some (removed, written)) :
    written.toNat + (removed.map bytes).sum = computedSize.toNat ∧
      purgeLoop targetSize newFile entries computedSize = removed.map CacheEntry.name ∧
      removed.Sublist entries := by
  induction entries generalizing computedSize removed with
  | nil =>
    cases hrun
    exact ⟨rfl, rfl, .slnil⟩
  | cons entry rest ih =>
    unfold checkedPurgeLoop at hrun
    unfold purgeLoop
    by_cases hsmall : computedSize ≤ targetSize
    · rw [if_pos hsmall] at hrun ⊢
      cases hrun
      exact ⟨rfl, rfl, nil_sublist _⟩
    · rw [if_neg hsmall] at hrun ⊢
      by_cases hnew : entry.name = newFile
      · rw [if_pos hnew] at hrun ⊢
        obtain ⟨hsize, hname, hsbl⟩ := ih hrun
        exact ⟨hsize, hname, hsbl.cons entry⟩
      · rw [if_neg hnew] at hrun ⊢
        cases hacc : entry.access with
        | free =>
          rw [hacc] at hrun
          dsimp only at hrun
          by_cases hle : entry.size ≤ computedSize
          · rw [if_pos hle] at hrun
            obtain ⟨⟨others, last⟩, hote, hlast⟩ := Option.bind_eq_some_iff.mp hrun
            cases hlast
            obtain ⟨hsize, hname, hsbl⟩ := ih hote
            rw [UInt64.toNat_sub_of_le _ _ hle] at hsize
            have hbytes := UInt64.le_iff_toNat_le.mp hle
            refine ⟨?_, ?_, hsbl.cons_cons entry⟩
            · dsimp only at hsize ⊢
              rw [map_cons, sum_cons, bytes]
              omega
            · rw [map_cons, ← hname]
          · rw [if_neg hle] at hrun
            cases hrun
        | locked =>
          rw [hacc] at hrun
          obtain ⟨hsize, hname, hsbl⟩ := ih hrun
          exact ⟨hsize, hname, hsbl.cons entry⟩
        | gone =>
          rw [hacc] at hrun
          obtain ⟨hsize, hname, hsbl⟩ := ih hrun
          exact ⟨hsize, hname, hsbl.cons entry⟩
        | error =>
          rw [hacc] at hrun
          cases hrun

theorem checkedPurgeLoop_eq_evict
    (hfil : ∀ entry ∈ entries, entry.access = .free ∨ entry.access = .locked)
    (hfits : (entries.map bytes).sum ≤ computedSize.toNat) :
    ∃ written, checkedPurgeLoop targetSize newFile entries computedSize =
      some (evict bytes (Skipped newFile) targetSize.toNat entries computedSize.toNat, written) := by
  induction entries generalizing computedSize with
  | nil => exact ⟨computedSize, rfl⟩
  | cons entry rest ih =>
    rw [map_cons, sum_cons] at hfits
    have hrest : ∀ entry ∈ rest, entry.access = .free ∨ entry.access = .locked :=
      fun other hother => hfil other (mem_cons_of_mem entry hother)
    unfold checkedPurgeLoop evict
    by_cases hsmall : computedSize ≤ targetSize
    · rw [if_pos hsmall, if_pos (UInt64.le_iff_toNat_le.mp hsmall)]
      exact ⟨computedSize, rfl⟩
    · rw [if_neg hsmall, if_neg (fun h => hsmall (UInt64.le_iff_toNat_le.mpr h))]
      by_cases hnew : entry.name = newFile
      · rw [if_pos hnew, if_pos (show Skipped newFile entry from .inl hnew)]
        exact ih hrest (by omega)
      · rw [if_neg hnew]
        cases hfil entry mem_cons_self with
        | inl hfre =>
          have hle : entry.size ≤ computedSize := by
            exact le_trans (Nat.le_add_right _ _) hfits
          have hsub : (computedSize - entry.size).toNat = computedSize.toNat - bytes entry :=
            UInt64.toNat_sub_of_le _ _ hle
          have hspa : ¬ Skipped newFile entry := by
            unfold Skipped
            rw [not_or, not_not]
            exact ⟨hnew, hfre⟩
          obtain ⟨written, hrun⟩ := @ih (computedSize - entry.size) hrest (by omega)
          rw [hfre, if_neg hspa]
          rw [if_pos hle, hrun, hsub]
          exact ⟨written, rfl⟩
        | inr hlocked =>
          have hspa : Skipped newFile entry := by
            apply Or.inr
            rw [hlocked]
            decide
          rw [hlocked, if_pos hspa]
          exact ih hrest (by omega)

end

section

variable {cache : FileLockingCache} {directory : List DirEntry}

theorem toNat_computedSize :
    ((cache.collectCacheDirInfo directory).2).toNat = total cache directory % 2 ^ 64 := by
  have hprm : (contents cache directory).Perm ((directory.filter cache.collects).map cache.cacheEntry) :=
    perm_insertionSort _ _
  unfold total
  rw [(hprm.map bytes).sum_eq]
  unfold FileLockingCache.collectCacheDirInfo
  rw [SizeRecord.toNat_sum, map_map]
  rfl

theorem contents_ordered :
    (contents cache directory).Pairwise fun first second => first.time ≤ second.time := by
  exact pairwise_insertionSort _ _

theorem contents_perm :
    (contents cache directory).Perm ((directory.filter cache.collects).map cache.cacheEntry) :=
  perm_insertionSort _ _

theorem contents_nodup (hunique : (directory.map DirEntry.name).Nodup) :
    (contents cache directory).Nodup := by
  have hname : ((directory.filter cache.collects).map DirEntry.name).Nodup :=
    hunique.sublist (filter_sublist.map DirEntry.name)
  rw [contents_perm.nodup_iff]
  apply Nodup.of_map CacheEntry.name
  have hpat : ((directory.filter cache.collects).map cache.cacheEntry).map CacheEntry.name =
      ((directory.filter cache.collects).map DirEntry.name).map cache.entryPath := by
    rw [map_map, map_map]
    rfl
  rw [hpat]
  exact hname.map fun _ _ => entryPath_inj.mp

theorem contents_access (hfil : ∀ entry ∈ directory, cache.collects entry = true →
      entry.access = .free ∨ entry.access = .locked) :
    ∀ entry ∈ contents cache directory, entry.access = .free ∨ entry.access = .locked := by
  intro found hfound
  obtain ⟨entry, hent, hcol, rfl⟩ := mem_collectCacheDirInfo hfound
  exact hfil entry hent hcol

theorem checkedUpdateAndPurge_exact (hlim : 0 < cache.config.maxCacheSize)
    (hrun : checkedUpdateAndPurge cache directory newFile = some (removed, written)) :
    written.toNat + (removed.map bytes).sum = total cache directory % 2 ^ 64 ∧
      cache.updateAndPurge directory newFile = removed.map CacheEntry.name ∧
      removed.Sublist (contents cache directory) := by
  have hunl : cache.config.isUnlimited = false := by
    unfold Config.isUnlimited
    rw [decide_eq_false_iff_not]
    intro hzero
    rw [hzero] at hlim
    exact absurd hlim (by decide)
  unfold checkedUpdateAndPurge at hrun
  unfold FileLockingCache.updateAndPurge
  rw [hunl, ← toNat_computedSize]
  dsimp only at hrun ⊢
  cases hbig : cache.config.cacheTooBig (cache.collectCacheDirInfo directory).2 with
  | true =>
    rw [hbig, if_pos rfl] at hrun
    exact checkedPurgeLoop_exact hrun
  | false =>
    rw [hbig, if_neg Bool.false_ne_true] at hrun
    cases hrun
    exact ⟨rfl, rfl, nil_sublist _⟩

theorem checkedUpdateAndPurge_eq (hfil : ∀ entry ∈ directory, cache.collects entry = true →
      entry.access = .free ∨ entry.access = .locked) (hfits : total cache directory < 2 ^ 64) :
    ∃ written, checkedUpdateAndPurge cache directory newFile =
      some (if cache.config.maxCacheSize.toNat < total cache directory then
          evict bytes (Skipped newFile) cache.config.targetSize.toNat (contents cache directory)
            (total cache directory)
        else [], written) := by
  have hsize : ((cache.collectCacheDirInfo directory).2).toNat = total cache directory := by
    rw [toNat_computedSize, Nat.mod_eq_of_lt hfits]
  unfold checkedUpdateAndPurge
  dsimp only
  by_cases hbig : cache.config.maxCacheSize.toNat < total cache directory
  · have htoo : cache.config.cacheTooBig (cache.collectCacheDirInfo directory).2 = true := by
      unfold Config.cacheTooBig
      rw [decide_eq_true_eq, UInt64.lt_iff_toNat_lt, hsize]
      exact hbig
    rw [if_pos htoo, if_pos hbig, ← hsize]
    exact checkedPurgeLoop_eq_evict (contents_access hfil) hsize.ge
  · have htoo : cache.config.cacheTooBig (cache.collectCacheDirInfo directory).2 = false := by
      unfold Config.cacheTooBig
      rw [decide_eq_false_iff_not, UInt64.lt_iff_toNat_lt, hsize]
      exact hbig
    rw [htoo, if_neg Bool.false_ne_true, if_neg hbig]
    exact ⟨_, rfl⟩

/-- The loop comes to the new file under another path string than the one it was given, while the size is
still above the target. -/
def ReachesNewFile (cache : FileLockingCache) (cwd : Place) (directory : List DirEntry) (newFile : Str) : Prop :=
  cache.config.maxCacheSize.toNat < total cache directory ∧
    Reached bytes (Skipped newFile) (Spared cwd newFile) cache.config.targetSize.toNat
      (contents cache directory) (total cache directory)

/-- The purge is a minimal eviction, without a subtraction that wraps around, exactly while the size of the
whole cache fits its counter and the loop does not come to the new file under another path. -/
theorem updateAndPurge_minimal_iff (cache : FileLockingCache) (cwd : Place)
    (hlimited : 0 < cache.config.maxCacheSize) (directory : List DirEntry)
    (hunique : (directory.map DirEntry.name).Nodup) (hfiles : ∀ entry ∈ directory, cache.collects entry = true →
      entry.access = .free ∨ entry.access = .locked) (newFile : Str) :
    (∃ removed written, checkedUpdateAndPurge cache directory newFile = some (removed, written) ∧
      cache.updateAndPurge directory newFile = removed.map CacheEntry.name ∧
      PurgesMinimally cache cwd directory newFile removed written) ↔
      total cache directory < 2 ^ 64 ∧ ¬ ReachesNewFile cache cwd directory newFile := by
  constructor
  · rintro ⟨removed, written, hrun, -, hpurge⟩
    obtain ⟨hsum, -, hsublist⟩ := checkedUpdateAndPurge_exact hlimited hrun
    have hleft := sum_left_add_removed bytes (contents_nodup hunique) hsublist
    rw [← hpurge.written_eq, hsum] at hleft
    change _ = total cache directory at hleft
    have hfits : total cache directory < 2 ^ 64 := by
      rw [← hleft]
      exact Nat.mod_lt _ (by decide)
    refine ⟨hfits, ?_⟩
    rintro ⟨hbig, hreached⟩
    obtain ⟨other, hother⟩ := @checkedUpdateAndPurge_eq cache directory newFile hfiles hfits
    rw [hrun, if_pos hbig] at hother
    cases hother
    obtain ⟨entry, hentry, hspared⟩ := evict_of_reached (fun _ => spared_of_skipped cwd) hreached
    have hcandidate := (mem_filter.mp ((hpurge.minimal hbig).front.subset hentry)).2
    rw [decide_eq_true_eq] at hcandidate
    exact hcandidate hspared
  · rintro ⟨hfits, hreached⟩
    obtain ⟨written, hrun⟩ := @checkedUpdateAndPurge_eq cache directory newFile hfiles hfits
    obtain ⟨hsum, hnames, hsublist⟩ := checkedUpdateAndPurge_exact hlimited hrun
    have hleft := sum_left_add_removed bytes (contents_nodup hunique) hsublist
    refine ⟨_, written, hrun, hnames, ?_, ?_, contents_ordered.sublist hsublist, ?_⟩
    · intro hwithin
      exact if_neg (not_lt.mpr hwithin)
    · intro hbig
      rw [if_pos hbig, evict_eq_of_not_reached (fun _ => spared_of_skipped cwd) fun h => hreached ⟨hbig, h⟩]
      exact evict_minimal bytes (Spared cwd newFile) _ _ _
    · change _ = total cache directory at hleft
      omega

end

/-! Files whose names are the prefix and some letters. -/

theorem letters_no_slash (n : Nat) : '/' ∉ "bes_".toList ++ replicate n 'x' := by
  simp

theorem letters_dots (n : Nat) : "bes_".toList ++ replicate n 'x' = ['.'] ∨
      "bes_".toList ++ replicate n 'x' = ['.', '.'] → Access.free = Access.error := by
  simp

def lettersEntry (n : Nat) (size : UInt64) (atime : Int) : DirEntry :=
  ⟨"bes_".toList ++ replicate n 'x', size, atime, .free, letters_no_slash n, cons_ne_nil _ _,
    letters_dots n⟩

def lettersCache (cacheDir : Str) (hdir : cacheDir ≠ []) : FileLockingCache :=
  ⟨cacheDir, "bes_".toList, megabyte, hdir, cons_ne_nil _ _⟩

theorem updateAndPurge_minimal_iff_two : ∃ removed written,
      checkedUpdateAndPurge (lettersCache "/tmp/cache".toList (cons_ne_nil _ _))
        [lettersEntry 1 1048576 5, lettersEntry 2 5 3] "/tmp/cache/bes_x".toList = some (removed, written) ∧
      (lettersCache "/tmp/cache".toList (cons_ne_nil _ _)).updateAndPurge
        [lettersEntry 1 1048576 5, lettersEntry 2 5 3] "/tmp/cache/bes_x".toList =
          removed.map CacheEntry.name ∧
      PurgesMinimally (lettersCache "/tmp/cache".toList (cons_ne_nil _ _)) []
        [lettersEntry 1 1048576 5, lettersEntry 2 5 3] "/tmp/cache/bes_x".toList removed written := by
  refine (updateAndPurge_minimal_iff (lettersCache "/tmp/cache".toList (cons_ne_nil _ _)) [] (by decide)
    [lettersEntry 1 1048576 5, lettersEntry 2 5 3] (by decide) (by decide) "/tmp/cache/bes_x".toList).mpr
    ⟨by decide, ?_⟩
  unfold ReachesNewFile Reached
  decide

def sparseFiles : List DirEntry :=
  [lettersEntry 1 4611686018427387904 1, lettersEntry 2 4611686018427387904 2,
   lettersEntry 3 4611686018427387904 3, lettersEntry 4 4611686018427387904 4]

/-- The sizes of four files add up to nothing; and under a directory string with a slash at its end the new file
itself is removed. -/
theorem sparseFiles_not_purged :
    total (lettersCache "/tmp/cache".toList (cons_ne_nil _ _)) sparseFiles = 18446744073709551616 ∧
      checkedUpdateAndPurge (lettersCache "/tmp/cache".toList (cons_ne_nil _ _)) sparseFiles
        "/tmp/cache/bes_x".toList = some ([], 0) ∧
      checkedUpdateAndPurge (lettersCache "/tmp/cache/".toList (cons_ne_nil _ _)) [lettersEntry 1 1048577 5]
        "/tmp/cache/bes_x".toList = some ([⟨"/tmp/cache//bes_x".toList, 1048577, 5, .free⟩], 0) := by
  decide

end Bes.Cache.PurgeLru
