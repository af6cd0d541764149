import Bes.Http.Url
import Bes.Lib.Companion

/-! `RemoteResource`: a resource in the cache and the file of its headers. The headers are written to a second
file beside the resource, which the purge of the cache takes for a file like any other. -/
namespace Bes.Http.RemoteHeaders
open Dispatch Lib.Companion Lib.Run
open Cache.PurgePaths (FileLockingCache DirEntry assemblePath StopsBefore mem_purgeLoop_iff entryPath_inj
  mem_collectCacheDirInfo)

structure HttpCache extends FileLockingCache where
  hash256 : Str → Str

def HttpCache.getHash (cache : HttpCache) (s : Str) : Except Failure Str :=
  if s = [] then .error (.bes "You cannot hash the empty string.".toList)
  else .ok (cache.hash256 (if s.head? = some '/' then s else '/' :: s))

def isUrl (candidate : Str) : Prop := httpProtocol <+: candidate ∨ httpsProtocol <+: candidate

instance (candidate : Str) : Decidable (isUrl candidate) := inferInstanceAs (Decidable (_ ∨ _))

/-- `BESUtil::tokenize` with its default delimiter. -/
def pathElements (path : Str) : List Str :=
  (path.splitOn '/').filter fun token => decide (token ≠ [])

def urlPath (identifier : Str) : Except Failure Str :=
  (parse none ⟨identifier, [], [], [], [], [], 0, false⟩).map Url.path

def getRealNameExtension (identifier : Str) : Except Failure Str :=
  (if isUrl identifier then urlPath identifier else .ok identifier).map fun pathPart =>
    match (pathElements pathPart).getLast? with
    | some last => if last ≠ pathPart then '#' :: last else []
    | none => []

def HttpCache.cacheFileName (cache : HttpCache) (uid srcId : Str) : Except Failure Str := do
  let hashedPart ← cache.getHash srcId
  let realNameExtension ← getRealNameExtension srcId
  .ok (cache.filePrefix ++ (if uid ≠ [] then uid ++ ['_'] else []) ++ hashedPart ++ realNameExtension)

def HttpCache.path (cache : HttpCache) (name : Str) : Str := assemblePath cache.cacheDir name false false

def hdrs (name : Str) : Str := name ++ ".hdrs".toList

/-- One retrieval, and what it meets: whether the object was initialized before (by an earlier call, or by its
constructor for a `file:` URL), the age of the file in the cache, which files can be opened, whether the
transfer and the filters get through, the size that `update_cache_info` returns, and for a purge what `readdir`,
`stat` and `open` say. -/
structure Retrieval where
  initialized : Bool
  uid : Str
  url : Str
  expiresInterval : Int
  age : Int
  opens : Str → Bool
  transferred : Bool
  filtered : Bool
  cacheSize : UInt64
  directory : List DirEntry

inductive Course where
  | initialized
  | refused
  | loaded (headers : Bool)
  | failed (name : Str)
  | unfiltered (name : Str)
  | stored (name : Str)
  deriving DecidableEq

section

variable (cache : HttpCache) (files : Finset Str) (retrieval : Retrieval)

/-- `retrieveResource` down to the headers. A file that does not exist is created first. -/
def course : Course :=
  if retrieval.initialized then .initialized
  else match cache.cacheFileName retrieval.uid retrieval.url with
  | .error _ => .refused
  | .ok name =>
      if retrieval.opens name = false then .refused
      else if name ∈ files ∧ ¬ retrieval.expiresInterval < retrieval.age then
        .loaded (decide (hdrs name ∈ files))
      else if retrieval.transferred = false then .failed name
      else if retrieval.filtered = false then .unfiltered name
      else .stored name

/-- The files that a retrieval creates. A stream of headers that cannot be opened is written to all the same. -/
def gained : Finset Str :=
  match course cache files retrieval with
  | .initialized | .refused | .loaded _ | .failed _ => ∅
  | .unfiltered name => {name}
  | .stored name => if retrieval.opens (hdrs name) then {name, hdrs name} else {name}

local instance lawfulStr : LawfulBEq Str := inferInstance

def purged (name : Str) : Finset Str :=
  ((retrieval.directory.map DirEntry.name).filter fun other =>
    cache.entryPath other ∈ cache.updateAndPurge retrieval.directory (cache.path name)).toFinset

def lost : Finset Str :=
  match course cache files retrieval with
  | .initialized | .refused | .loaded _ | .unfiltered _ => ∅
  | .failed name => {name}
  | .stored name => if cache.config.cacheTooBig retrieval.cacheSize then purged cache retrieval name else ∅

def Fits : Prop :=
  (retrieval.directory.map DirEntry.name).Nodup ∧ (retrieval.directory.map DirEntry.name).toFinset =
      (files ∪ gained cache files retrieval).filter fun name => '/' ∉ name

instance : Decidable (Fits cache files retrieval) := inferInstanceAs (Decidable (_ ∧ _))

def step : Option (Finset Str) :=
  if Fits cache files retrieval then
    some (update files (gained cache files retrieval) (lost cache files retrieval))
  else none

end

def IsResource (cache : HttpCache) (name : Str) : Prop :=
  ∃ uid url, cache.cacheFileName uid url = .ok name

structure HeadersBeside (cache : HttpCache) (files : Finset Str) : Prop where
  complete : Complete (IsResource cache) hdrs files
  hits_load : ∀ retrieval, course cache files retrieval ≠ .loaded false

/-- The purge comes to an entry of the listing while the size is above the target, and nothing protects the
entry: it is not locked, and its path is not the one of the new file. -/
def Evicted (cache : HttpCache) (listing : List DirEntry) (newFile name : Str) : Prop :=
  cache.config.isUnlimited = false ∧ cache.config.cacheTooBig (cache.collectCacheDirInfo listing).2 = true ∧
    ∃ i found, (cache.collectCacheDirInfo listing).1[i]? = some found ∧ found.name = cache.entryPath name ∧
      found.name ≠ newFile ∧ found.access = .free ∧
      ¬ StopsBefore cache.config.targetSize newFile (cache.collectCacheDirInfo listing).1
        (cache.collectCacheDirInfo listing).2 i

/-- What the listing before the purge has to be for the resource that was stored under a name. -/
structure StoresHeaders (cache : HttpCache) (files : Finset Str) (retrieval : Retrieval) (name : Str) : Prop where
  written : retrieval.opens (hdrs name) = false → hdrs name ∉ files →
    cache.config.cacheTooBig retrieval.cacheSize = true ∧
      Evicted cache retrieval.directory (cache.path name) name
  nested : retrieval.opens (hdrs name) = true → IsResource cache (hdrs name) → hdrs (hdrs name) ∉ files →
    cache.config.cacheTooBig retrieval.cacheSize = true ∧
      Evicted cache retrieval.directory (cache.path name) (hdrs name)
  together : cache.config.cacheTooBig retrieval.cacheSize = true →
    ∀ resource ∈ retrieval.directory.map DirEntry.name, IsResource cache resource →
      Evicted cache retrieval.directory (cache.path name) (hdrs resource) →
        Evicted cache retrieval.directory (cache.path name) resource

def KeepsHeaders (cache : HttpCache) (files : Finset Str) (retrieval : Retrieval) : Prop :=
  match course cache files retrieval with
  | .initialized | .refused | .loaded _ => True
  | .failed name => ∀ resource ∈ files, IsResource cache resource → hdrs resource ≠ name
  | .unfiltered name => hdrs name ∈ files
  | .stored name => StoresHeaders cache files retrieval name

variable {cache : HttpCache} {files : Finset Str} {retrieval : Retrieval}

theorem course_eq_loaded_false_iff (retrieval : Retrieval) :
    course cache files retrieval = .loaded false ↔ retrieval.initialized = false ∧
      ∃ name, cache.cacheFileName retrieval.uid retrieval.url = .ok name ∧ retrieval.opens name = true ∧
        name ∈ files ∧ ¬ retrieval.expiresInterval < retrieval.age ∧ hdrs name ∉ files := by
  unfold course
  cases cache.cacheFileName retrieval.uid retrieval.url with
  | error failure => split <;> simp
  | ok name =>
    dsimp only
    split
    · simp_all
    · split
      · simp_all
      · split
        · simp_all
        · split
          · simp_all
          · split <;> simp_all

theorem isResource_of_course (hname : cache.cacheFileName retrieval.uid retrieval.url = .ok name) :
    IsResource cache name :=
  ⟨retrieval.uid, retrieval.url, hname⟩

theorem headersBeside_iff : HeadersBeside cache files ↔ Complete (IsResource cache) hdrs files := by
  constructor
  · exact HeadersBeside.complete
  · intro hcomplete
    refine ⟨hcomplete, ?_⟩
    intro retrieval hloaded
    obtain ⟨-, name, hname, -, hfile, -, hmissing⟩ := (course_eq_loaded_false_iff retrieval).mp hloaded
    exact hmissing (hcomplete name hfile (isResource_of_course hname))

theorem hdrs_ne (name : Str) : hdrs name ≠ name := by
  simp [hdrs]

/-- A course that goes as far as the transfer is that of a resource. -/
theorem isResource_of_transfer (hcourse : course cache files retrieval = .unfiltered name ∨
    course cache files retrieval = .stored name) : IsResource cache name := by
  unfold course at hcourse
  cases hname : cache.cacheFileName retrieval.uid retrieval.url with
  | error failure =>
    simp only [hname] at hcourse
    split at hcourse <;> simp at hcourse
  | ok other =>
    simp only [hname] at hcourse
    have heq : other = name := by
      revert hcourse
      repeat' split
      all_goals simp
    exact isResource_of_course (heq ▸ hname)

theorem Evicted.mem (hevicted : Evicted cache listing newFile name) : name ∈ listing.map DirEntry.name := by
  obtain ⟨-, -, i, found, hfound, hpath, -⟩ := hevicted
  obtain ⟨entry, hentry, -, rfl⟩ := mem_collectCacheDirInfo (List.mem_of_getElem? hfound)
  exact List.mem_map.mpr ⟨entry, hentry, entryPath_inj.mp hpath⟩

theorem mem_purged_iff : x ∈ purged cache retrieval name ↔
    Evicted cache retrieval.directory (cache.path name) x := by
  have hpurge : cache.entryPath x ∈ cache.updateAndPurge retrieval.directory (cache.path name) ↔
      Evicted cache retrieval.directory (cache.path name) x := by
    unfold Evicted FileLockingCache.updateAndPurge
    cases hunlimited : cache.config.isUnlimited with
    | true => simp
    | false =>
      cases hbig : cache.config.cacheTooBig (cache.collectCacheDirInfo retrieval.directory).2 with
      | false => simp [hbig]
      | true =>
        simp only [Bool.false_eq_true, if_false, hbig, if_true, true_and]
        exact mem_purgeLoop_iff
  unfold purged
  rw [List.mem_toFinset, List.mem_filter, decide_eq_true_eq, hpurge]
  exact and_iff_right_of_imp Evicted.mem

theorem mem_directory_iff (hfits : Fits cache files retrieval) : x ∈ retrieval.directory.map DirEntry.name ↔
    x ∈ files ∪ gained cache files retrieval ∧ '/' ∉ x := by
  rw [← List.mem_toFinset, hfits.2, Finset.mem_filter]

theorem keeps_stored_iff (hfits : Fits cache files retrieval)
    (hcourse : course cache files retrieval = .stored name) :
    Keeps (IsResource cache) hdrs files (gained cache files retrieval) (lost cache files retrieval) ↔
      StoresHeaders cache files retrieval name := by
  have hresource := isResource_of_transfer (.inr hcourse)
  have hgained : ∀ x, x ∈ gained cache files retrieval ↔
      x = name ∨ retrieval.opens (hdrs name) = true ∧ x = hdrs name := by
    intro x
    rw [gained, hcourse]
    dsimp only
    split <;> simp [*]
  have hlost : ∀ x, x ∈ lost cache files retrieval ↔ cache.config.cacheTooBig retrieval.cacheSize = true ∧
      Evicted cache retrieval.directory (cache.path name) x := by
    intro x
    rw [lost, hcourse]
    dsimp only
    split
    next hbig => simp [mem_purged_iff, hbig]
    next hsmall => simp [hsmall]
  have hslash : ∀ x, '/' ∉ hdrs x → '/' ∉ x := by
    intro x hnot hmem
    exact hnot (List.mem_append_left _ hmem)
  have htwice : hdrs (hdrs name) ≠ name := by simp [hdrs]
  constructor
  · rintro ⟨hcomplete, htogether⟩
    refine ⟨?_, ?_, ?_⟩
    · intro hclosed hmissing
      rw [← hlost]
      by_contra hkept
      have hbeside := hcomplete name ((hgained name).mpr (.inl rfl)) hresource hkept
      rw [Finset.mem_union, hgained, hclosed] at hbeside
      simp [hmissing, hdrs_ne] at hbeside
    · intro hopens hheaders hmissing
      rw [← hlost]
      by_contra hkept
      have hbeside := hcomplete (hdrs name) ((hgained _).mpr (.inr ⟨hopens, rfl⟩)) hheaders hkept
      rw [Finset.mem_union, hgained] at hbeside
      simp [hmissing, hdrs_ne, htwice] at hbeside
    · intro hbig resource hlisted hneeds hevicted
      have hmem := ((mem_directory_iff hfits).mp hlisted).1
      exact ((hlost resource).mp (htogether resource hmem hneeds ((hlost _).mpr ⟨hbig, hevicted⟩))).2
  · rintro ⟨hwritten, hnested, htogether⟩
    constructor
    · intro x hx hneeds hkept
      rw [hlost] at hkept
      rw [Finset.mem_union, hgained]
      rcases (hgained x).mp hx with rfl | ⟨hopens, rfl⟩
      · by_contra hnot
        simp only [not_or, not_and] at hnot
        exact hkept (hwritten (by simpa using hnot.2.2) hnot.1)
      · by_contra hnot
        simp only [not_or] at hnot
        exact hkept (hnested hopens hneeds hnot.1)
    · intro x hx hneeds hgone
      obtain ⟨hbig, hevicted⟩ := (hlost _).mp hgone
      have hplain := hslash x ((mem_directory_iff hfits).mp hevicted.mem).2
      exact (hlost x).mpr ⟨hbig, htogether hbig x ((mem_directory_iff hfits).mpr ⟨hx, hplain⟩) hneeds hevicted⟩

theorem keeps_iff_keepsHeaders (hfits : Fits cache files retrieval) :
    Keeps (IsResource cache) hdrs files (gained cache files retrieval) (lost cache files retrieval) ↔
      KeepsHeaders cache files retrieval := by
  have hnothing : Keeps (IsResource cache) hdrs files ∅ ∅ := ⟨by simp, by simp⟩
  unfold KeepsHeaders
  cases hcourse : course cache files retrieval with
  | initialized | refused =>
    simp only [gained, lost, hcourse]
    exact iff_true_intro hnothing
  | loaded headers =>
    simp only [gained, lost, hcourse]
    exact iff_true_intro hnothing
  | failed name =>
    simp only [gained, lost, hcourse]
    constructor
    · rintro ⟨-, htogether⟩ resource hresource hneeds heq
      have hgone := htogether resource (by simpa using hresource) hneeds (by simp [heq])
      rw [Finset.mem_singleton] at hgone
      exact hdrs_ne name (hgone ▸ heq)
    · intro hother
      refine ⟨by simp, ?_⟩
      intro x hx hneeds hgone
      exact absurd (Finset.mem_singleton.mp hgone) (hother x (by simpa using hx) hneeds)
  | unfiltered name =>
    have hresource := isResource_of_transfer (.inl hcourse)
    simp only [gained, lost, hcourse]
    constructor
    · rintro ⟨hcomplete, -⟩
      simpa [hdrs_ne] using hcomplete name (by simp) hresource
    · intro hheaders
      refine ⟨?_, by simp⟩
      intro x hx _ _
      rw [Finset.mem_singleton.mp hx]
      exact Finset.mem_union_left _ hheaders
  | stored name => exact keeps_stored_iff hfits hcourse

theorem headersBeside_step_iff (hbeside : HeadersBeside cache files)
    (hstep : step cache files retrieval = some after) :
    HeadersBeside cache after ↔ KeepsHeaders cache files retrieval := by
  unfold step at hstep
  split at hstep
  next hfits =>
    cases hstep
    rw [headersBeside_iff, ← keeps_iff_keepsHeaders hfits]
    exact complete_update_iff hbeside.complete
  · cases hstep

/-- In all states of a run of retrievals the resources have their headers, exactly where each retrieval keeps
them. -/
theorem headersBeside_throughout_iff (cache : HttpCache) (files : Finset Str) (retrievals : List Retrieval) :
    Throughout (step cache) (HeadersBeside cache) files retrievals ↔
      HeadersBeside cache files ∧ Guarded (step cache) (KeepsHeaders cache) files retrievals := by
  by_cases hbes : HeadersBeside cache files
  · rw [and_iff_right hbes]
    apply throughout_iff_guarded (HeadersBeside cache) _ _ _ retrievals hbes
    · exact fun _ h => h
    · exact fun _ _ _ hbef hkee hstep => (headersBeside_step_iff hbef hstep).mpr hkee
    · exact fun _ _ _ hbef hstep haft => (headersBeside_step_iff hbef hstep).mp haft
  · constructor
    · intro hthru
      cases retrievals with
      | nil => exact absurd hthru hbes
      | cons retrieval rest => exact absurd hthru.1 hbes
    · intro h
      exact absurd h.1 hbes

/-! A resource that is larger than the cache. -/

def smallCache : HttpCache where
  cacheDir := "/tmp/cache".toList
  filePrefix := "http_".toList
  config := Cache.ControlFile.megabyte
  dir_ne_nil := by decide
  prefix_ne_nil := by decide
  hash256 := fun _ => List.replicate 64 '0'

def largeName : Str := "http_".toList ++ List.replicate 64 '0' ++ "#d.nc".toList

def controlName : Str := "http_cache_control".toList

theorem largeName_no_slash : '/' ∉ largeName := by decide
theorem hdrs_no_slash : '/' ∉ hdrs largeName := by decide

def largeRetrieval : Retrieval where
  initialized := false
  uid := []
  url := "http://h/p/d.nc".toList
  expiresInterval := 3600
  age := 0
  opens := fun _ => true
  transferred := true
  filtered := true
  cacheSize := 1048577
  directory :=
    [⟨controlName, 8, 3, .free, by decide, by decide, by decide⟩,
     ⟨largeName, 1048577, 2, .free, largeName_no_slash, by decide, by decide⟩,
     ⟨hdrs largeName, 5, 1, .free, hdrs_no_slash, by decide, by decide⟩]

/-- The purge spares the file and takes its headers, and the next retrieval fails. -/
theorem large_resource_loses_headers : step smallCache {controlName} largeRetrieval = some {largeName} ∧
      course smallCache {largeName} largeRetrieval = .loaded false ∧
      ¬ Throughout (step smallCache) (HeadersBeside smallCache) {controlName} [largeRetrieval] := by
  have hstep : step smallCache {controlName} largeRetrieval = some {largeName} := by decide +kernel
  have hcou : course smallCache {largeName} largeRetrieval = .loaded false := by decide +kernel
  refine ⟨hstep, hcou, ?_⟩
  intro hthru
  obtain ⟨-, after, haft, hbes⟩ := hthru
  cases haft
  exact hbes.hits_load largeRetrieval hcou

end Bes.Http.RemoteHeaders
