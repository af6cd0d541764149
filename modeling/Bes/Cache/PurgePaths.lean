import Bes.Lib.Path
import Bes.Cache.ControlFile

/-! Which files a purge removes. The cache names its own control file and the file
just added by paths that `assemblePath` builds, and the files it finds in the
directory by the directory string, a slash and the entry. What is protected from
the purge is decided by comparing such strings. -/
namespace Bes.Cache.PurgePaths
open Lib.Path Cache.ControlFile List

abbrev Str := List Char

def stripRight (separator : Char) (str : Str) : Str :=
  str.rdropWhile fun c => decide (c = separator)

def stripLeft (separator : Char) (str : Str) : Str :=
  str.dropWhile fun c => decide (c = separator)

def pathConcat (firstPart secondPart : Str) (separator : Char) : Str :=
  let first := stripRight separator firstPart
  let second := stripLeft separator secondPart
  if first = [] then second
  else if second = [] then first
  else first ++ separator :: second

def assemblePath (firstPart secondPart : Str) (leadingSlash trailingSlash : Bool) : Str :=
  let newPath := pathConcat firstPart secondPart '/'
  let newPath :=
    if leadingSlash then
      if newPath = [] then ['/']
      else if newPath.head? ≠ some '/' then '/' :: newPath
      else newPath
    else newPath
  if trailingSlash then
    if newPath = [] ∨ newPath.getLast? ≠ some '/' then newPath ++ ['/'] else newPath
  else stripRight '/' newPath

def charsExcludedFromFilenames : Str := "<>=,/()\\\"':? []()$".toList

/-- The loop that replaces excluded characters one by one; `#` is not one of them. -/
def mangle (target : Str) : Str :=
  target.map fun c => if c ∈ charsExcludedFromFilenames then '#' else c

def cacheControl : Str := "cache_control".toList

structure FileLockingCache where
  cacheDir : Str
  filePrefix : Str
  config : Config
  dir_ne_nil : cacheDir ≠ []
  prefix_ne_nil : filePrefix ≠ []

def FileLockingCache.controlName (cache : FileLockingCache) : Str :=
  cache.filePrefix ++ cacheControl

def FileLockingCache.cacheInfo (cache : FileLockingCache) : Str :=
  assemblePath cache.cacheDir cache.controlName true false

def FileLockingCache.targetName (cache : FileLockingCache) (src : Str) : Str :=
  mangle (cache.filePrefix ++ src)

def FileLockingCache.getCacheFileName (cache : FileLockingCache) (src : Str) : Option Str :=
  if 254 < (cache.targetName src).length then none
  else some (assemblePath cache.cacheDir (cache.targetName src) true false)

/-- What `get_exclusive_lock_nb` meets: the lock is free, another process has it,
the file is gone, or `open` fails in another way, as it does for a directory. -/
inductive Access
  | free
  | locked
  | gone
  | error
deriving DecidableEq

/-- An entry that `readdir` gives, and what `stat` and `open` say of it. -/
structure DirEntry where
  name : Str
  size : UInt64
  atime : Int
  access : Access
  no_slash : '/' ∉ name
  ne_nil : name ≠ []
  dots : name = ['.'] ∨ name = ['.', '.'] → access = .error

structure CacheEntry where
  name : Str
  size : UInt64
  time : Int
  access : Access
deriving DecidableEq

def FileLockingCache.entryPath (cache : FileLockingCache) (name : Str) : Str :=
  cache.cacheDir ++ '/' :: name

def FileLockingCache.cacheEntry (cache : FileLockingCache) (entry : DirEntry) : CacheEntry :=
  ⟨cache.entryPath entry.name, entry.size, entry.atime, entry.access⟩

/-- The entries that `m_collect_cache_dir_info` takes. -/
def FileLockingCache.collects (cache : FileLockingCache) (entry : DirEntry) : Bool :=
  cache.filePrefix.isPrefixOf entry.name && decide (entry.name ≠ cache.cacheInfo)

def FileLockingCache.collectCacheDirInfo (cache : FileLockingCache) (directory : List DirEntry) :
    List CacheEntry × UInt64 :=
  let contents := (directory.filter cache.collects).map cache.cacheEntry
  (contents.insertionSort fun first second => first.time ≤ second.time,
    (contents.map CacheEntry.size).sum)

def purgeLoop (targetSize : UInt64) (newFile : Str) : List CacheEntry → UInt64 → List Str
  | [], _ => []
  | entry :: rest, computedSize =>
      if computedSize ≤ targetSize then []
      else if entry.name = newFile then purgeLoop targetSize newFile rest computedSize
      else match entry.access with
        | .free => entry.name :: purgeLoop targetSize newFile rest (computedSize - entry.size)
        | .locked => purgeLoop targetSize newFile rest computedSize
        | .gone => purgeLoop targetSize newFile rest computedSize
        | .error => []

def FileLockingCache.updateAndPurge (cache : FileLockingCache) (directory : List DirEntry)
    (newFile : Str) : List Str :=
  if cache.config.isUnlimited then []
  else
    let (contents, computedSize) := cache.collectCacheDirInfo directory
    if cache.config.cacheTooBig computedSize then
      purgeLoop cache.config.targetSize newFile contents computedSize
    else []

def FileLockingCache.Spares (cache : FileLockingCache) (cwd : Place)
    (directory : List DirEntry) (newFile : Str) : Prop :=
  ∀ path ∈ cache.updateAndPurge directory newFile,
    resolve cwd path ≠ resolve cwd cache.cacheInfo ∧ resolve cwd path ≠ resolve cwd newFile

def PlainDir (dir : Str) : Prop := dir.head? = some '/' ∧ dir.getLast? ≠ some '/'

instance (dir : Str) : Decidable (PlainDir dir) :=
  inferInstanceAs (Decidable (dir.head? = some '/' ∧ dir.getLast? ≠ some '/'))

/-- The entry is the control file or the new file, and nothing protects it: the
directory string leads to the directory in which the cache puts its files, and the
path is not, letter by letter, that of the new file. -/
def FileLockingCache.Endangered (cache : FileLockingCache) (cwd : Place) (src : Str)
    (entry : CacheEntry) : Prop :=
  resolve cwd cache.cacheDir = resolve [] cache.cacheDir ∧
    (entry.name = cache.entryPath cache.controlName ∨
      entry.name = cache.entryPath (cache.targetName src)) ∧
    ¬ (PlainDir cache.cacheDir ∧ entry.name = cache.entryPath (cache.targetName src))

instance (cache : FileLockingCache) (cwd : Place) (src : Str) :
    DecidablePred (cache.Endangered cwd src) :=
  fun _ => inferInstanceAs (Decidable (_ ∧ (_ ∨ _) ∧ ¬ (_ ∧ _)))

def removedSize (newFile : Str) (entry : CacheEntry) : UInt64 :=
  if entry.name ≠ newFile ∧ entry.access = .free then entry.size else 0

/-- The loop ends before the entry at position `i`: an earlier one is an error, or
without some of the earlier ones the contents are down to the target size. -/
def StopsBefore (targetSize : UInt64) (newFile : Str) (contents : List CacheEntry)
    (computedSize : UInt64) (i : Nat) : Prop :=
  (∃ entry ∈ contents.take i, entry.name ≠ newFile ∧ entry.access = .error) ∨
    ∃ n < i + 1, computedSize - ((contents.take n).map (removedSize newFile)).sum ≤ targetSize

instance (targetSize : UInt64) (newFile : Str) (contents : List CacheEntry)
    (computedSize : UInt64) (i : Nat) :
    Decidable (StopsBefore targetSize newFile contents computedSize i) :=
  inferInstanceAs (Decidable ((∃ entry ∈ contents.take i, _) ∨ ∃ n < i + 1, _))

variable {dir name : Str} {cwd : Place}

theorem stripLeft_eq_self (hnam : '/' ∉ name) : stripLeft '/' name = name := by
  cases name with
  | nil => rfl
  | cons c name =>
    have hc : c ≠ '/' := by
      rintro rfl
      exact hnam mem_cons_self
    rw [stripLeft, dropWhile_cons_of_neg (by simpa using hc)]

theorem stripRight_append (path : Str) (hnam : '/' ∉ name) (hne : name ≠ []) :
    stripRight '/' (path ++ name) = path ++ name := by
  unfold stripRight
  rw [rdropWhile_eq_self_iff]
  intro hpth hlst
  have hmem : (path ++ name).getLast hpth ∈ name := by
    rw [getLast_append_of_ne_nil _ hne]
    exact getLast_mem hne
  have hsla : (path ++ name).getLast hpth = '/' := by simpa using hlst
  exact hnam (hsla ▸ hmem)

/-- What `assemblePath` puts before the last part of a name. -/
def stem (dir front : Str) : Str :=
  if stripRight '/' dir = [] then '/' :: stripLeft '/' front
  else if (stripRight '/' dir).head? = some '/' then stripRight '/' dir ++ '/' :: stripLeft '/' front
  else '/' :: (stripRight '/' dir ++ '/' :: stripLeft '/' front)

theorem stripLeft_append (front : Str) (hnam : '/' ∉ name) :
    stripLeft '/' (front ++ name) = stripLeft '/' front ++ name := by
  induction front with
  | nil => exact stripLeft_eq_self hnam
  | cons c front ih =>
    unfold stripLeft at ih ⊢
    by_cases hc : c = '/'
    · rw [cons_append, dropWhile_cons_of_pos (by simpa using hc),
        dropWhile_cons_of_pos (by simpa using hc), ih]
    · rw [cons_append, dropWhile_cons_of_neg (by simpa using hc),
        dropWhile_cons_of_neg (by simpa using hc), cons_append]

theorem head_stripLeft (path : Str) : (stripLeft '/' path).head? ≠ some '/' := by
  intro hhed
  have hnot := head?_dropWhile_not (fun c : Char => decide (c = '/')) path
  unfold stripLeft at hhed
  rw [hhed] at hnot
  exact absurd hnot (by decide)

theorem assemblePath_append (dir front : Str) (hnam : '/' ∉ name) (hne : name ≠ []) :
    assemblePath dir (front ++ name) true false = stem dir front ++ name := by
  have hlft := stripLeft_append front hnam
  have hnil : stripLeft '/' front ++ name ≠ [] := append_ne_nil_of_right_ne_nil _ hne
  have hhed := head_stripLeft (front ++ name)
  rw [hlft] at hhed
  unfold assemblePath pathConcat stem
  simp only [hlft, Bool.false_eq_true, if_true, if_false]
  by_cases hstr : stripRight '/' dir = []
  · simp only [hstr, if_true, hnil, if_false, hhed, ne_eq, not_false_eq_true]
    exact stripRight_append ('/' :: stripLeft '/' front) hnam hne
  · have happ : (stripRight '/' dir ++ '/' :: (stripLeft '/' front ++ name)).head?
        = (stripRight '/' dir).head? := by
      cases hdir : stripRight '/' dir with
      | nil => exact absurd hdir hstr
      | cons c rest => rfl
    have hpth : stripRight '/' dir ++ '/' :: (stripLeft '/' front ++ name) ≠ [] := by simp
    simp only [hstr, hnil, if_false, hpth, happ]
    by_cases hrot : (stripRight '/' dir).head? = some '/'
    · simp only [hrot, ne_eq, not_true_eq_false, if_false, if_true]
      have hrig := stripRight_append (stripRight '/' dir ++ '/' :: stripLeft '/' front) hnam hne
      simpa using hrig
    · simp only [hrot, ne_eq, not_false_eq_true, if_true, if_false]
      have hrig := stripRight_append ('/' :: (stripRight '/' dir ++ '/' :: stripLeft '/' front))
        hnam hne
      simpa using hrig

theorem assemblePath_eq (dir : Str) (hnam : '/' ∉ name) (hne : name ≠ []) :
    assemblePath dir name true false =
      if stripRight '/' dir = [] then '/' :: name
      else if (stripRight '/' dir).head? = some '/' then stripRight '/' dir ++ '/' :: name
      else '/' :: (stripRight '/' dir ++ '/' :: name) := by
  have happ := assemblePath_append dir [] hnam hne
  rw [nil_append, stem, show stripLeft '/' [] = [] from rfl] at happ
  rw [happ]
  split
  · rfl
  · split <;> simp

theorem resolve_assemblePath (cwd : Place) (dir : Str) (hnam : '/' ∉ name) (hne : name ≠ []) :
    resolve cwd (assemblePath dir name true false) = (components name).foldl walk (resolve [] dir) := by
  have hdir : components (stripRight '/' dir) = components dir := components_rdropWhile dir
  rw [assemblePath_eq dir hnam hne]
  split
  next hstr =>
    rw [resolve_slash, resolve_nil_eq, resolve_nil_eq, ← hdir, hstr]
    rfl
  · split
    next hhed =>
      cases hstr : stripRight '/' dir with
      | nil =>
        rw [hstr] at hhed
        cases hhed
      | cons c rest =>
        rw [hstr] at hhed hdir
        cases hhed
        rw [cons_append, resolve_slash, resolve_nil_eq, components_append_slash,
          foldl_append, resolve_nil_eq, ← hdir, components_slash]
    · rw [resolve_slash, resolve_nil_eq, components_append_slash, foldl_append, resolve_nil_eq, hdir]

theorem plainDir_iff (hdir : dir ≠ []) :
    PlainDir dir ↔ dir.head? = some '/' ∧ stripRight '/' dir = dir := by
  unfold PlainDir stripRight
  rw [rdropWhile_eq_self_iff]
  apply and_congr_right
  intro _
  rw [getLast?_eq_some_getLast hdir, ne_eq, Option.some.injEq]
  constructor
  · intro hlst _ hsla
    exact hlst (by simpa using hsla)
  · intro hlst hsla
    exact hlst hdir (by simpa using hsla)

theorem entryPath_eq_assemblePath_iff (hdir : dir ≠ []) (hnam : '/' ∉ name) (hne : name ≠ []) :
    dir ++ '/' :: entry = assemblePath dir name true false ↔ PlainDir dir ∧ entry = name := by
  rw [plainDir_iff hdir, assemblePath_eq dir hnam hne]
  obtain ⟨slashes, hspl⟩ := rdropWhile_prefix (fun c => decide (c = '/')) dir
  rw [← stripRight] at hspl
  constructor
  · intro heq
    generalize stripRight '/' dir = first at heq hspl ⊢
    subst hspl
    -- one more slash would be a slash in the name
    have hnon : ∀ more, more ++ '/' :: entry ≠ name := by
      rintro more rfl
      exact hnam (by simp)
    split at heq
    next hfst =>
      subst hfst
      cases slashes with
      | nil => exact absurd rfl hdir
      | cons c slashes =>
        rw [nil_append, cons_append, cons.injEq] at heq
        exact absurd heq.2 (hnon slashes)
    next hfst =>
      split at heq
      next hhed =>
        rw [append_assoc, append_cancel_left_eq] at heq
        cases slashes with
        | nil =>
          rw [nil_append, cons.injEq] at heq
          exact ⟨⟨by simpa using hhed, by simp⟩, heq.2⟩
        | cons c slashes =>
          rw [cons_append, cons.injEq] at heq
          exact absurd heq.2 (hnon slashes)
      next hhed =>
        cases first with
        | nil => exact absurd rfl hfst
        | cons c first =>
          simp only [cons_append, cons.injEq] at heq
          exact absurd (by rw [heq.1]; rfl) hhed
  · rintro ⟨⟨hhed, hstr⟩, rfl⟩
    rw [hstr, if_neg hdir, if_pos hhed]

theorem mangle_no_slash (target : Str) : '/' ∉ mangle target := by
  intro hmem
  obtain ⟨c, -, hc⟩ := mem_map.mp hmem
  split at hc
  · cases hc
  next hkpt =>
    rw [hc] at hkpt
    exact hkpt (by decide)

variable {cache : FileLockingCache} {src : Str} {entry : DirEntry}

theorem targetName_no_slash (cache : FileLockingCache) (src : Str) : '/' ∉ cache.targetName src :=
  mangle_no_slash _

theorem targetName_ne_nil (cache : FileLockingCache) (src : Str) : cache.targetName src ≠ [] := by
  simp [FileLockingCache.targetName, mangle, cache.prefix_ne_nil]

theorem controlName_ne_nil (cache : FileLockingCache) : cache.controlName ≠ [] := by
  simp [FileLockingCache.controlName, cache.prefix_ne_nil]

theorem isName_controlName (hnos : '/' ∉ cache.filePrefix) : IsName cache.controlName := by
  have hlen : 13 ≤ cache.controlName.length := by
    rw [FileLockingCache.controlName, length_append]
    exact Nat.le_add_left _ _
  refine ⟨?_, controlName_ne_nil cache, ?_, ?_⟩
  · intro hmem
    cases mem_append.mp hmem with
    | inl hfst => exact hnos hfst
    | inr hsnd => exact absurd hsnd (by decide)
  · intro heq
    rw [heq] at hlen
    exact absurd hlen (by decide)
  · intro heq
    rw [heq] at hlen
    exact absurd hlen (by decide)

theorem DirEntry.isName (entry : DirEntry) (hfre : entry.access = .free) : IsName entry.name := by
  refine ⟨entry.no_slash, entry.ne_nil, ?_, ?_⟩
  · intro hdot
    have herr := entry.dots (.inl hdot)
    rw [hfre] at herr
    cases herr
  · intro hdts
    have herr := entry.dots (.inr hdts)
    rw [hfre] at herr
    cases herr

theorem prefix_no_slash (hcol : cache.collects entry = true) : '/' ∉ cache.filePrefix := by
  rw [FileLockingCache.collects, Bool.and_eq_true, isPrefixOf_iff_prefix] at hcol
  intro hmem
  exact entry.no_slash (hcol.1.subset hmem)

theorem resolve_entryPath (cwd : Place) (hnam : IsName entry.name) :
    resolve cwd (cache.entryPath entry.name) = resolve cwd cache.cacheDir ++ [entry.name] := by
  rw [FileLockingCache.entryPath, resolve_join cwd cache.dir_ne_nil, hnam.foldl_walk]

theorem append_singleton_eq_iff :
    first ++ [left] = second ++ [right] ↔ first = second ∧ left = right := by
  constructor
  · intro heq
    have hbth := append_inj' heq rfl
    exact ⟨hbth.1, by simpa using hbth.2⟩
  · rintro ⟨rfl, rfl⟩
    rfl

theorem resolve_eq_cacheInfo_iff (hnam : IsName entry.name) (hnos : '/' ∉ cache.filePrefix) :
    resolve cwd (cache.entryPath entry.name) = resolve cwd cache.cacheInfo ↔
      resolve cwd cache.cacheDir = resolve [] cache.cacheDir ∧ entry.name = cache.controlName := by
  have hctl := isName_controlName hnos
  rw [resolve_entryPath cwd hnam, FileLockingCache.cacheInfo,
    resolve_assemblePath cwd _ hctl.no_slash hctl.ne_nil, hctl.foldl_walk,
    append_singleton_eq_iff]

theorem getCacheFileName_some (hnew : cache.getCacheFileName src = some newFile) :
    newFile = assemblePath cache.cacheDir (cache.targetName src) true false := by
  unfold FileLockingCache.getCacheFileName at hnew
  split at hnew
  · cases hnew
  · exact (Option.some.inj hnew).symm

/-- An entry is the new file. The two names with dots would lead to a directory
that is no deeper than the one the entry is in. -/
theorem resolve_eq_newFile_iff (hnam : IsName entry.name)
    (hnew : cache.getCacheFileName src = some newFile) :
    resolve cwd (cache.entryPath entry.name) = resolve cwd newFile ↔
      resolve cwd cache.cacheDir = resolve [] cache.cacheDir ∧ entry.name = cache.targetName src := by
  rw [getCacheFileName_some hnew, resolve_entryPath cwd hnam,
    resolve_assemblePath cwd _ (targetName_no_slash cache src) (targetName_ne_nil cache src)]
  by_cases htgt : IsName (cache.targetName src)
  · rw [htgt.foldl_walk, append_singleton_eq_iff]
  · have hsho := length_foldl_walk_of_not_isName (targetName_no_slash cache src)
      (targetName_ne_nil cache src) htgt (resolve [] cache.cacheDir)
    have hdep := length_resolve_nil_le cwd cache.cacheDir
    constructor
    · intro heq
      have hlen := congrArg length heq
      rw [length_append, length_singleton] at hlen
      omega
    · rintro ⟨-, heq⟩
      exact absurd (heq ▸ hnam) htgt

theorem entryPath_eq_newFile_iff (hnew : cache.getCacheFileName src = some newFile) :
    cache.entryPath entry.name = newFile ↔
      PlainDir cache.cacheDir ∧ entry.name = cache.targetName src := by
  rw [getCacheFileName_some hnew]
  exact entryPath_eq_assemblePath_iff cache.dir_ne_nil (targetName_no_slash cache src)
    (targetName_ne_nil cache src)

theorem entryPath_inj : cache.entryPath first = cache.entryPath second ↔ first = second := by
  simp [FileLockingCache.entryPath]

theorem endangered_iff (hcol : cache.collects entry = true) (hfre : entry.access = .free)
    (hnew : cache.getCacheFileName src = some newFile) :
    cache.Endangered cwd src (cache.cacheEntry entry) ↔
      (resolve cwd (cache.entryPath entry.name) = resolve cwd cache.cacheInfo ∨
        resolve cwd (cache.entryPath entry.name) = resolve cwd newFile) ∧
      cache.entryPath entry.name ≠ newFile := by
  have hnam := entry.isName hfre
  rw [resolve_eq_cacheInfo_iff hnam (prefix_no_slash hcol),
    resolve_eq_newFile_iff hnam hnew, ne_eq, entryPath_eq_newFile_iff hnew]
  unfold FileLockingCache.Endangered FileLockingCache.cacheEntry
  rw [entryPath_inj, entryPath_inj]
  tauto

variable {targetSize : UInt64} {rest contents : List CacheEntry} {first : CacheEntry}

theorem stopsBefore_zero : StopsBefore targetSize newFile contents computedSize 0 ↔
    computedSize ≤ targetSize := by
  simp [StopsBefore]

theorem stopsBefore_succ (i : Nat) :
    StopsBefore targetSize newFile (first :: rest) computedSize (i + 1) ↔
      computedSize ≤ targetSize ∨ (first.name ≠ newFile ∧ first.access = .error) ∨
        StopsBefore targetSize newFile rest (computedSize - removedSize newFile first) i := by
  unfold StopsBefore
  have hsiz : (∃ n < i + 1 + 1, computedSize -
      (((first :: rest).take n).map (removedSize newFile)).sum ≤ targetSize) ↔
      computedSize ≤ targetSize ∨ ∃ n < i + 1, computedSize - removedSize newFile first -
        ((rest.take n).map (removedSize newFile)).sum ≤ targetSize := by
    constructor
    · rintro ⟨n, hn, hle⟩
      cases n with
      | zero => exact .inl (by simpa using hle)
      | succ n =>
        refine .inr ⟨n, by omega, ?_⟩
        rw [take_succ_cons, map_cons, sum_cons, ← sub_sub] at hle
        exact hle
    · rintro (hle | ⟨n, hn, hle⟩)
      · exact ⟨0, by omega, by simpa using hle⟩
      · refine ⟨n + 1, by omega, ?_⟩
        rw [take_succ_cons, map_cons, sum_cons, ← sub_sub]
        exact hle
  rw [hsiz, take_succ_cons]
  simp only [mem_cons, exists_eq_or_imp]
  rw [or_left_comm, or_assoc]

theorem purgeLoop_cons (hbig : ¬ computedSize ≤ targetSize)
    (hok : ¬ (first.name ≠ newFile ∧ first.access = .error)) :
    purgeLoop targetSize newFile (first :: rest) computedSize =
      (if first.name ≠ newFile ∧ first.access = .free then [first.name] else []) ++
        purgeLoop targetSize newFile rest (computedSize - removedSize newFile first) := by
  unfold removedSize
  rw [purgeLoop, if_neg hbig]
  by_cases hnew : first.name = newFile
  · simp [hnew]
  · cases hacc : first.access with
    | error => exact absurd ⟨hnew, hacc⟩ hok
    | free => simp [hnew]
    | locked => simp [hnew]
    | gone => simp [hnew]

theorem mem_purgeLoop_iff : path ∈ purgeLoop targetSize newFile contents computedSize ↔
      ∃ i entry, contents[i]? = some entry ∧ entry.name = path ∧ entry.name ≠ newFile ∧
        entry.access = .free ∧ ¬ StopsBefore targetSize newFile contents computedSize i := by
  induction contents generalizing computedSize with
  | nil => simp [purgeLoop]
  | cons first rest ih =>
    by_cases hbig : computedSize ≤ targetSize
    · constructor
      · intro hmem
        rw [purgeLoop, if_pos hbig] at hmem
        cases hmem
      · rintro ⟨i, entry, -, -, -, -, hrea⟩
        cases i with
        | zero => exact absurd (stopsBefore_zero.mpr hbig) hrea
        | succ i => exact absurd ((stopsBefore_succ i).mpr (.inl hbig)) hrea
    · by_cases herr : first.name ≠ newFile ∧ first.access = .error
      · constructor
        · intro hmem
          rw [purgeLoop, if_neg hbig, if_neg herr.1, herr.2] at hmem
          cases hmem
        · rintro ⟨i, entry, hget, -, -, hfre, hrea⟩
          cases i with
          | zero =>
            rw [getElem?_cons_zero, Option.some.injEq] at hget
            rw [← hget, herr.2] at hfre
            cases hfre
          | succ i => exact absurd ((stopsBefore_succ i).mpr (.inr (.inl herr))) hrea
      · rw [purgeLoop_cons hbig herr, mem_append, ih]
        constructor
        · rintro (hfst | ⟨i, entry, hget, hpth, hne, hfre, hrea⟩)
          · split at hfst
            next hpur =>
              refine ⟨0, first, rfl, (mem_singleton.mp hfst).symm, hpur.1, hpur.2, ?_⟩
              rw [stopsBefore_zero]
              exact hbig
            · cases hfst
          · refine ⟨i + 1, entry, hget, hpth, hne, hfre, ?_⟩
            rw [stopsBefore_succ]
            tauto
        · rintro ⟨i, entry, hget, hpth, hne, hfre, hrea⟩
          cases i with
          | zero =>
            rw [getElem?_cons_zero, Option.some.injEq] at hget
            subst hget
            left
            rw [if_pos ⟨hne, hfre⟩, hpth]
            exact mem_singleton_self path
          | succ i =>
            rw [stopsBefore_succ] at hrea
            exact .inr ⟨i, entry, hget, hpth, hne, hfre, fun hsto =>
              hrea (.inr (.inr hsto))⟩

theorem mem_collectCacheDirInfo (hmem : found ∈ (cache.collectCacheDirInfo directory).1) :
    ∃ entry ∈ directory, cache.collects entry = true ∧ found = cache.cacheEntry entry := by
  unfold FileLockingCache.collectCacheDirInfo at hmem
  rw [mem_insertionSort] at hmem
  obtain ⟨entry, hent, rfl⟩ := mem_map.mp hmem
  obtain ⟨hin, hcol⟩ := mem_filter.mp hent
  exact ⟨entry, hin, hcol, rfl⟩

/-- For every directory string, every contents of the directory and every new
file: the purge spares the control file and the new file exactly when it is not
due, or has come to its end before it meets one of them unprotected. -/
theorem updateAndPurge_spares_iff (cache : FileLockingCache) (cwd : Place)
    (directory : List DirEntry) (src newFile : Str) (hnew : cache.getCacheFileName src = some newFile) :
    cache.Spares cwd directory newFile ↔ cache.config.isUnlimited = true ∨
      cache.config.cacheTooBig (cache.collectCacheDirInfo directory).2 = false ∨
      ∀ i < (cache.collectCacheDirInfo directory).1.length,
        ∀ found ∈ (cache.collectCacheDirInfo directory).1[i]?,
        cache.Endangered cwd src found → found.access = .free →
          StopsBefore cache.config.targetSize newFile (cache.collectCacheDirInfo directory).1
            (cache.collectCacheDirInfo directory).2 i := by
  unfold FileLockingCache.Spares FileLockingCache.updateAndPurge
  cases huni : cache.config.isUnlimited with
  | true => simp
  | false =>
    cases hbig : cache.config.cacheTooBig (cache.collectCacheDirInfo directory).2 with
    | false => simp [hbig]
    | true =>
      simp only [Bool.false_eq_true, if_false, hbig, if_true, false_or, Bool.true_eq_false]
      constructor
      · intro hspa i _ found hfou hend hfree
        by_contra hrea
        obtain ⟨entry, -, hcol, rfl⟩ := mem_collectCacheDirInfo (mem_of_getElem? hfou)
        obtain ⟨hsame, hne⟩ := (endangered_iff hcol hfree hnew).mp hend
        have hunl := mem_purgeLoop_iff.mpr ⟨i, _, hfou, rfl, hne, hfree, hrea⟩
        obtain ⟨hctl, hfile⟩ := hspa _ hunl
        cases hsame with
        | inl hsame => exact hctl hsame
        | inr hsame => exact hfile hsame
      · intro hsto path hpath
        obtain ⟨i, found, hfou, rfl, hne, hfree, hrea⟩ := mem_purgeLoop_iff.mp hpath
        obtain ⟨entry, -, hcol, rfl⟩ := mem_collectCacheDirInfo (mem_of_getElem? hfou)
        rw [← not_or]
        intro hsame
        have hend := (endangered_iff hcol hfree hnew).mpr ⟨hsame, hne⟩
        exact hrea (hsto i (List.getElem?_eq_some_iff.mp hfou).1 _ hfou hend hfree)

def smallCache (cacheDir : Str) (hdir : cacheDir ≠ []) : FileLockingCache :=
  ⟨cacheDir, "bes_".toList, megabyte, hdir, by decide⟩

def controlEntry (atime : Int) : DirEntry :=
  ⟨"bes_cache_control".toList, 8, atime, .free, by decide, by decide, by decide⟩

def dataEntry (size : UInt64) (atime : Int) : DirEntry :=
  ⟨"bes_#data".toList, size, atime, .free, by decide, by decide, by decide⟩

def oldEntry : DirEntry :=
  ⟨"bes_#old".toList, 1048576, 0, .free, by decide, by decide, by decide⟩

/-- The control file was not read for a while and goes first. Under a directory
string with a slash at its end the new file goes too. -/
theorem updateAndPurge_not_spares :
    (smallCache "/tmp/cache".toList (by decide)).getCacheFileName "/data".toList =
        some "/tmp/cache/bes_#data".toList ∧
      ¬ (smallCache "/tmp/cache".toList (by decide)).Spares [] [controlEntry 1, dataEntry 1048576 2]
        "/tmp/cache/bes_#data".toList ∧
      (smallCache "/tmp/cache/".toList (by decide)).getCacheFileName "/data".toList =
        some "/tmp/cache/bes_#data".toList ∧ "/tmp/cache//bes_#data".toList ∈
        (smallCache "/tmp/cache/".toList (by decide)).updateAndPurge [controlEntry 3, dataEntry 1048576 2]
          "/tmp/cache/bes_#data".toList ∧
      ¬ (smallCache "/tmp/cache/".toList (by decide)).Spares [] [controlEntry 3, dataEntry 1048576 2]
        "/tmp/cache/bes_#data".toList := by
  unfold FileLockingCache.Spares
  decide

theorem updateAndPurge_spares_iff_old :
    (smallCache "/tmp/cache".toList (by decide)).getCacheFileName "/data".toList =
        some "/tmp/cache/bes_#data".toList ∧ (smallCache "/tmp/cache".toList (by decide)).Spares []
        [controlEntry 5, oldEntry, dataEntry 1 6] "/tmp/cache/bes_#data".toList :=
  ⟨by decide, (updateAndPurge_spares_iff (smallCache "/tmp/cache".toList (by decide)) []
    [controlEntry 5, oldEntry, dataEntry 1 6] "/data".toList "/tmp/cache/bes_#data".toList
    (by decide)).mpr (by decide)⟩

end Bes.Cache.PurgePaths
