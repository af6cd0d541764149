import Bes.Lib.WriteOnce
import Bes.Cache.PurgePaths
import Bes.Dispatch.Util

/-! `BESUncompressManager3::uncompress` with a `BESUncompressCache`. The name of the file in the cache
is made of the source path without its last suffix, and a file of that name is taken for the
decompressed source. -/
namespace Bes.Dispatch.Uncompress
open Lib Option Function
open Cache.PurgePaths (FileLockingCache)

abbrev Bytes := List UInt8

inductive Method where
  | gz
  | bz2
  | z

def findMethod (ext : Str) : Option Method :=
  if ext = "gz".toList then some .gz
  else if ext = "bz2".toList then some .bz2
  else if ext = "Z".toList then some .z
  else none

inductive Failure where
  | nullCache
  | longName (target : Str)
  | decompression

/-- `BESUncompressCache::get_cache_file_name`. The inherited function mangles in any case. -/
def getCacheFileName (cache : FileLockingCache) (src : Str) (mangle : Bool) : Except Failure Str :=
  let cacheFileName :=
    if mangle then
      match rfind '.' src with
      | some lastDot => src.take lastDot
      | none => src
    else src
  match cache.getCacheFileName cacheFileName with
  | some name => .ok name
  | none => .error (.longName (cache.targetName cacheFileName))

inductive Ending where
  | returns
  | throws (written : Nat)
deriving DecidableEq

/-- A call of `uncompress`, and how the decompression ends if there is one. -/
structure Call where
  src : Str
  ending : Ending

def Call.written (contents : Str → Bytes) (call : Call) : Bytes :=
  match call.ending with
  | .returns => contents call.src
  | .throws written => (contents call.src).take written

structure Disk where
  size : UInt64
  data : WriteOnce.Store Str Bytes

/-- The name as `open` sees it. -/
def cStr (name : Str) : Str := name.takeWhile fun c => decide (c ≠ '\x00')

/-- The bytes of an `unsigned long long`. -/
def sizeBytes (size : UInt64) : Bytes :=
  (List.range 8).map fun i => (size >>> (8 * i).toUInt64).toUInt8

variable (cache : FileLockingCache)

def Disk.read (disk : Disk) (name : Str) : Option Bytes :=
  if cStr name = cStr cache.cacheInfo then some (sizeBytes disk.size) else disk.data (cStr name)

def getReadLock (disk : Disk) (target : Str) : Bool := (disk.read cache target).isSome

def Disk.write (disk : Disk) (target : Str) (bytes : Bytes) : Disk :=
  { disk with data := update disk.data (cStr target) (some bytes) }

def createAndLock (disk : Disk) (target : Str) : Option Disk :=
  if (disk.read cache target).isSome then none else some (disk.write target [])

def updateCacheInfo (disk : Disk) (target : Str) : Disk :=
  { disk with size := disk.size + ((disk.read cache target).getD []).length.toUInt64 }

/-- The result is the name of the cache file for `true`. An exception leaves the file as it is. -/
def uncompress (cache : Option FileLockingCache) (contents : Str → Bytes) (disk : Disk) (call : Call) :
    Except Failure (Option Str) × Disk :=
  match cache with
  | none => (.error .nullCache, disk)
  | some cache =>
    match rfind '.' call.src with
    | none => (.ok none, disk)
    | some dot =>
      match findMethod (call.src.drop (dot + 1)) with
      | none => (.ok none, disk)
      | some _ =>
        match getCacheFileName cache call.src true with
        | .error failure => (.error failure, disk)
        | .ok cacheFile =>
          if getReadLock cache disk cacheFile then (.ok (some cacheFile), disk)
          else
            match createAndLock cache disk cacheFile with
            | none =>
              if getReadLock cache disk cacheFile then (.ok (some cacheFile), disk)
              else (.ok none, disk)
            | some created =>
              let disk := created.write cacheFile (call.written contents)
              match call.ending with
              | .throws _ => (.error .decompression, disk)
              | .returns => (.ok (some cacheFile), updateCacheInfo cache disk cacheFile)

def diskAfter (contents : Str → Bytes) (initial : Disk) (calls : List Call) : Disk :=
  calls.foldl (fun disk call => (uncompress (some cache) contents disk call).2) initial

/-- If the result is `true`, the file has the contents of the source of the call. -/
def Right (contents : Str → Bytes) (disk : Disk) (call : Call) : Prop :=
  ∀ name, (uncompress (some cache) contents disk call).1 = .ok (some name) →
    (uncompress (some cache) contents disk call).2.read cache name = some (contents call.src)

def AllRight (contents : Str → Bytes) (initial : Disk) (calls : List Call) : Prop :=
  ∀ before call after, calls = before ++ call :: after →
    Right cache contents (diskAfter cache contents initial before) call

def Call.cacheFile (call : Call) : Option Str :=
  match rfind '.' call.src with
  | none => none
  | some dot =>
    match findMethod (call.src.drop (dot + 1)) with
    | none => none
    | some _ => (getCacheFileName cache call.src true).toOption

section

variable {cache} {contents : Str → Bytes} {disk : Disk} {call : Call} {name : Str}

theorem uncompress_cases (cache : FileLockingCache) (contents : Str → Bytes) (disk : Disk)
    (call : Call) : (call.cacheFile cache = none ∧
      (∀ name, (uncompress (some cache) contents disk call).1 ≠ .ok (some name)) ∧
      (uncompress (some cache) contents disk call).2 = disk) ∨
    ∃ name, call.cacheFile cache = some name ∧ uncompress (some cache) contents disk call
      = if (disk.read cache name).isSome then (.ok (some name), disk)
        else
          let written := disk.write name (call.written contents)
          match call.ending with
          | .throws _ => (.error .decompression, written)
          | .returns => (.ok (some name), updateCacheInfo cache written name) := by
  unfold Call.cacheFile uncompress
  cases rfind '.' call.src with
  | none => exact .inl ⟨rfl, nofun, rfl⟩
  | some dot =>
    dsimp only
    cases findMethod (call.src.drop (dot + 1)) with
    | none => exact .inl ⟨rfl, nofun, rfl⟩
    | some method =>
      cases getCacheFileName cache call.src true with
      | error failure => exact .inl ⟨rfl, nofun, rfl⟩
      | ok name =>
        refine .inr ⟨name, rfl, ?_⟩
        unfold getReadLock createAndLock
        dsimp only
        by_cases hread : (disk.read cache name).isSome = true
        · rw [if_pos hread, if_pos hread]
        · rw [if_neg hread, if_neg hread, if_neg hread]
          dsimp only
          unfold Disk.write
          rw [update_idem, if_neg hread]

theorem uncompress_of_cacheFile_none (hname : call.cacheFile cache = none) :
    (∀ name, (uncompress (some cache) contents disk call).1 ≠ .ok (some name)) ∧
      (uncompress (some cache) contents disk call).2 = disk := by
  rcases uncompress_cases cache contents disk call with ⟨-, hnot⟩ | ⟨name, hsom, -⟩
  · exact hnot
  · rw [hname] at hsom
    cases hsom

theorem uncompress_of_cacheFile (hname : call.cacheFile cache = some name) :
    uncompress (some cache) contents disk call
      = if (disk.read cache name).isSome then (.ok (some name), disk)
        else
          let written := disk.write name (call.written contents)
          match call.ending with
          | .throws _ => (.error .decompression, written)
          | .returns => (.ok (some name), updateCacheInfo cache written name) := by
  rcases uncompress_cases cache contents disk call with ⟨hnone, -⟩ | ⟨other, hother, heq⟩
  · rw [hname] at hnone
    cases hnone
  · rw [hname] at hother
    cases hother
    exact heq

theorem read_of_control (hcontrol : cStr name = cStr cache.cacheInfo) :
    disk.read cache name = some (sizeBytes disk.size) := if_pos hcontrol

theorem read_of_data (hdat : cStr name ≠ cStr cache.cacheInfo) :
    disk.read cache name = disk.data (cStr name) := if_neg hdat

theorem length_sizeBytes (size : UInt64) : (sizeBytes size).length = 8 := by
  rw [sizeBytes, List.length_map, List.length_range]

end

/-! The files as a store in which the first value stays. -/

/-- The name that `open` is given for the cache file. -/
def Call.place (call : Call) : Option Str := (call.cacheFile cache).map cStr

def Call.entry (contents : Str → Bytes) (call : Call) : Option (Str × Bytes) :=
  match call.place cache with
  | none => none
  | some place =>
    if place = cStr cache.cacheInfo then none else some (place, call.written contents)

section

variable {cache} {contents : Str → Bytes} {initial : Disk} {calls before : List Call}
  {call : Call} {name place : Str}

theorem Call.entry_eq_none (hplace : call.place cache = none) : call.entry cache contents = none := by
  rw [Call.entry, hplace]

theorem Call.entry_of_control (hplace : call.place cache = some (cStr cache.cacheInfo)) :
    call.entry cache contents = none := by
  rw [Call.entry, hplace]
  exact if_pos rfl

theorem Call.entry_of_data (hplace : call.place cache = some place) (hdat : place ≠ cStr cache.cacheInfo) :
    call.entry cache contents = some (place, call.written contents) := by
  rw [Call.entry, hplace]
  exact if_neg hdat

theorem uncompress_data : (uncompress (some cache) contents disk call).2.data
      = WriteOnce.putAll disk.data (call.entry cache contents).toList := by
  cases hname : call.cacheFile cache with
  | none =>
    have hplace : call.place cache = none := by rw [Call.place, hname, map_none]
    rw [(uncompress_of_cacheFile_none hname).2, Call.entry_eq_none hplace]
    rfl
  | some name =>
    have hplace : call.place cache = some (cStr name) := by rw [Call.place, hname, map_some]
    rw [uncompress_of_cacheFile hname]
    by_cases hcontrol : cStr name = cStr cache.cacheInfo
    · rw [read_of_control hcontrol, if_pos isSome_some, Call.entry_of_control (hcontrol ▸ hplace)]
      rfl
    · rw [read_of_data hcontrol, Call.entry_of_data hplace hcontrol]
      change _ = WriteOnce.put disk.data (cStr name) (call.written contents)
      cases hold : disk.data (cStr name) with
      | some old =>
        rw [WriteOnce.put_of_some hold]
        rfl
      | none =>
        rw [WriteOnce.put_of_none hold, if_neg (by simp)]
        cases call.ending <;> rfl

theorem diskAfter_data : (diskAfter cache contents initial calls).data
      = WriteOnce.putAll initial.data (calls.filterMap (Call.entry cache contents)) := by
  induction calls generalizing initial with
  | nil => rfl
  | cons call calls ih =>
    change (diskAfter cache contents (uncompress (some cache) contents initial call).2 calls).data = _
    rw [ih, uncompress_data, List.filterMap_cons]
    cases call.entry cache contents <;> rfl

theorem Call.any_entry (hdat : place ≠ cStr cache.cacheInfo) (call : Call) :
    (call.entry cache contents).any (fun entry => decide (entry.1 = place))
      = decide (call.place cache = some place) := by
  cases hplace : call.place cache with
  | none =>
    rw [Call.entry_eq_none hplace]
    rfl
  | some other =>
    by_cases hcontrol : other = cStr cache.cacheInfo
    · have hne : ¬ some other = some place :=
        fun heq => hdat ((some.inj heq).symm.trans hcontrol)
      rw [Call.entry_of_control (hcontrol ▸ hplace), decide_eq_false hne]
      rfl
    · rw [Call.entry_of_data hplace hcontrol]
      exact decide_eq_decide.mpr (some_inj).symm

theorem read_diskAfter (hdat : cStr name ≠ cStr cache.cacheInfo) :
    (diskAfter cache contents initial calls).read cache name = (initial.read cache name).or
          ((calls.find? fun call => decide (call.place cache = some (cStr name))).map
            (Call.written contents)) := by
  rw [read_of_data hdat, read_of_data hdat, diskAfter_data, WriteOnce.putAll_apply,
    List.find?_filterMap, funext (Call.any_entry hdat)]
  cases hfirst : calls.find? fun call => decide (call.place cache = some (cStr name)) with
  | none => rfl
  | some first =>
    have hfound := List.find?_some hfirst
    have hplace : first.place cache = some (cStr name) := of_decide_eq_true hfound
    rw [bind_some, Call.entry_of_data hplace hdat]
    rfl

theorem right_of_place_none (hplace : call.place cache = none) : Right cache contents disk call := by
  intro name hok
  have hname : call.cacheFile cache = none := map_eq_none_iff.mp hplace
  exact absurd hok ((uncompress_of_cacheFile_none hname).1 name)

theorem right_iff_of_some (hname : call.cacheFile cache = some name)
    (hread : disk.read cache name = some bytes) :
    Right cache contents disk call ↔ bytes = contents call.src := by
  have hhit : uncompress (some cache) contents disk call = (.ok (some name), disk) := by
    rw [uncompress_of_cacheFile hname, hread]
    exact if_pos isSome_some
  unfold Right
  rw [hhit]
  constructor
  · intro hright
    have hsame := hright name rfl
    rw [hread] at hsame
    exact some.inj hsame
  · rintro rfl other hother
    rw [← some.inj (Except.ok.inj hother), hread]

theorem right_of_none (hname : call.cacheFile cache = some name)
    (hread : disk.read cache name = none) : Right cache contents disk call := by
  have hmss : uncompress (some cache) contents disk call = _ := uncompress_of_cacheFile hname
  rw [hread, if_neg (by simp)] at hmss
  have hdat : cStr name ≠ cStr cache.cacheInfo := by
    intro hcontrol
    rw [read_of_control hcontrol] at hread
    cases hread
  cases hend : call.ending with
  | throws count =>
    rw [hend] at hmss
    intro other hother
    rw [hmss] at hother
    cases hother
  | returns =>
    rw [hend] at hmss
    intro other hother
    rw [hmss] at hother ⊢
    rw [← some.inj (Except.ok.inj hother), read_of_data hdat]
    change update disk.data (cStr name) (some (call.written contents)) (cStr name) = _
    rw [update_self, Call.written, hend]

def maker (cache : FileLockingCache) (before : List Call) (place : Str) : Option Call :=
  before.find? fun call => decide (call.place cache = some place)

/-- No file of the name of the call was there at the start, and if an earlier call made one, it was
for the same source and came to its end. -/
structure Unmistaken (cache : FileLockingCache) (initial : Disk) (before : List Call) (call : Call)
    (name : Str) : Prop where
  absent : initial.read cache name = none
  returned : ∀ first ∈ maker cache before (cStr name), first.ending = .returns
  same : ∀ first ∈ maker cache before (cStr name), first.src = call.src

theorem right_of_unmistaken (hname : call.cacheFile cache = some name)
    (hcell : Unmistaken cache initial before call name) (contents : Str → Bytes) :
    Right cache contents (diskAfter cache contents initial before) call := by
  have hdat : cStr name ≠ cStr cache.cacheInfo := by
    intro hcontrol
    have habs := hcell.absent
    rw [read_of_control hcontrol] at habs
    cases habs
  have hread : (diskAfter cache contents initial before).read cache name = _ := read_diskAfter hdat
  rw [hcell.absent, none_or] at hread
  cases hmak : maker cache before (cStr name) with
  | none =>
    rw [maker] at hmak
    rw [hmak] at hread
    exact right_of_none hname hread
  | some first =>
    have hreturn := hcell.returned first hmak
    have hsame := hcell.same first hmak
    rw [maker] at hmak
    rw [hmak] at hread
    rw [right_iff_of_some hname hread, Call.written, hreturn, hsame]

theorem length_read_of_present (hprs : initial.read cache name = some bytes)
    (contents : Str → Bytes) : ∃ now,
      (diskAfter cache contents initial before).read cache name = some now ∧
        now.length = bytes.length := by
  by_cases hcontrol : cStr name = cStr cache.cacheInfo
  · rw [read_of_control hcontrol] at hprs ⊢
    refine ⟨_, rfl, ?_⟩
    rw [← some.inj hprs, length_sizeBytes, length_sizeBytes]
  · refine ⟨bytes, ?_, rfl⟩
    rw [read_diskAfter hcontrol, hprs, some_or]

theorem unmistaken_of_right (hname : call.cacheFile cache = some name)
    (hright : ∀ contents, Right cache contents (diskAfter cache contents initial before) call) :
    Unmistaken cache initial before call name := by
  have habs : initial.read cache name = none := by
    cases hprs : initial.read cache name with
    | none => rfl
    | some bytes =>
      let contents : Str → Bytes := fun _ => List.replicate (bytes.length + 1) 0
      obtain ⟨now, hread, hlen⟩ := length_read_of_present hprs contents
      have hnow := (right_iff_of_some hname hread).mp (hright contents)
      rw [hnow, List.length_replicate] at hlen
      omega
  have hdat : cStr name ≠ cStr cache.cacheInfo := by
    intro hcontrol
    rw [read_of_control hcontrol] at habs
    cases habs
  have hwritten : ∀ first ∈ maker cache before (cStr name), ∀ contents : Str → Bytes,
      first.written contents = contents call.src := by
    intro first hfirst contents
    have hread : (diskAfter cache contents initial before).read cache name = _ :=
      read_diskAfter hdat
    rw [habs, none_or, show before.find? _ = some first from hfirst] at hread
    exact (right_iff_of_some hname hread).mp (hright contents)
  have hreturn : ∀ first ∈ maker cache before (cStr name), first.ending = .returns := by
    intro first hfirst
    cases hend : first.ending with
    | returns => rfl
    | throws count =>
      have hsho := hwritten first hfirst fun _ => List.replicate (count + 1) 0
      rw [Call.written, hend] at hsho
      have hlen := congrArg List.length hsho
      simp at hlen
  refine ⟨habs, hreturn, fun first hfirst => ?_⟩
  by_contra hne
  have hother := hwritten first hfirst fun src => if src = call.src then [0] else []
  rw [Call.written, hreturn first hfirst] at hother
  simp [hne] at hother

end

/-- Whatever the sources contain, all calls that return `true` name a file with the contents of their
own source, exactly if no call takes a file for its own that another source, an exception or
something before the run has left. -/
theorem allRight_iff (cache : FileLockingCache) (initial : Disk) (calls : List Call) :
    (∀ contents, AllRight cache contents initial calls)
      ↔ ∀ before call after name, calls = before ++ call :: after →
          call.cacheFile cache = some name → Unmistaken cache initial before call name := by
  constructor
  · intro hright before call after name hcal hname
    exact unmistaken_of_right hname fun contents => hright contents before call after hcal
  · intro hunm contents before call after hcal
    cases hname : call.cacheFile cache with
    | none =>
      apply right_of_place_none
      rw [Call.place, hname, map_none]
    | some name =>
      exact right_of_unmistaken hname (hunm before call after name hcal hname) contents

theorem sampleDir_ne_nil : "/tmp".toList ≠ [] := by decide

theorem sampleStart_ne_nil : "bes_".toList ≠ [] := by decide

def sampleCache : FileLockingCache :=
  ⟨"/tmp".toList, "bes_".toList, Cache.ControlFile.megabyte, sampleDir_ne_nil, sampleStart_ne_nil⟩

def emptyDisk : Disk := ⟨0, fun _ => none⟩

def sampleContents (src : Str) : Bytes := if src = "/d/a.nc.gz".toList then [1, 2] else [3]

/-- The second call takes the file of the first for its own, once of another source and once of the
same source after an exception. -/
theorem uncompress_mistaken : ((uncompress (some sampleCache) sampleContents
          (diskAfter sampleCache sampleContents emptyDisk [⟨"/d/a.nc.gz".toList, .returns⟩])
          ⟨"/d/a.nc.bz2".toList, .returns⟩).1 = .ok (some "/tmp/bes_#d#a.nc".toList) ∧
        (diskAfter sampleCache sampleContents emptyDisk [⟨"/d/a.nc.gz".toList, .returns⟩]).read
          sampleCache "/tmp/bes_#d#a.nc".toList = some [1, 2] ∧
        sampleContents "/d/a.nc.bz2".toList = [3]) ∧ (uncompress (some sampleCache) sampleContents
          (diskAfter sampleCache sampleContents emptyDisk [⟨"/d/a.nc.gz".toList, .throws 1⟩])
          ⟨"/d/a.nc.gz".toList, .returns⟩).1 = .ok (some "/tmp/bes_#d#a.nc".toList) ∧
        (diskAfter sampleCache sampleContents emptyDisk [⟨"/d/a.nc.gz".toList, .throws 1⟩]).read
          sampleCache "/tmp/bes_#d#a.nc".toList = some [1] ∧
        sampleContents "/d/a.nc.gz".toList = [1, 2] :=
  ⟨⟨rfl, rfl, rfl⟩, rfl, rfl, rfl⟩

end Bes.Dispatch.Uncompress
