import Bes.Lib.Bucket
import Bes.Lib.Decimal
import Bes.Cache.PurgePaths
import Bes.Dispatch.Util

/-! `BESDapFunctionResponseCache`: the responses of function calls, in files that are named by a hash
of the request and a number that is counted up where hashes collide. The first line of a file says
which request it is for. -/
namespace Bes.Dap.FunctionResponseCache
open Dispatch Lib List
open Cache.PurgePaths (FileLockingCache assemblePath)
open Lib.Decimal (digits)

def maxCacheableCeLen : Nat := 4096

def maxCollisions : Nat := 50

def getResourceId (filename constraint : Str) : Str := filename ++ '#' :: constraint

def canBeCached (filename constraint : Str) : Bool :=
  decide (constraint.length + filename.length ≤ maxCacheableCeLen)

structure Request where
  filename : Str
  constraint : Str
  cacheable : canBeCached filename constraint = true
  filename_line : '\n' ∉ filename
  constraint_line : '\n' ∉ constraint
deriving DecidableEq

def Request.resourceId (request : Request) : Str := getResourceId request.filename request.constraint

structure Dds (α : Type) where
  filename : Str
  vars : α

/-- How a response is written (`print_xml_writer`, the data mark, `serialize`) and read again by
`read_cached_data` from a stream in a good state or not. -/
structure Format (α : Type) where
  print : Dds α → Str
  read : Bool → Str → Except Str (Dds α)
  faithful : ∀ dds, (read true (print dds)).map Dds.vars = .ok dds.vars

/-- `BESInternalError`, or what the evaluation of the functions throws. -/
inductive Failure where
  | longName (length : Nat) (target : Str)
  | collisions (count : Nat) (resourceId : Str)
  | unreadable (message : Str)
  | evaluation (message : Str)

abbrev Files := Str → Option Str

structure Line where
  text : Str
  good : Bool
  rest : Str

/-- `getline(line, n)`: up to `n - 1` characters. The stream fails if that is not all of the line, or
if no newline ends it. -/
def getline (n : Nat) (stream : Str) : Line :=
  let line := stream.takeWhile fun c => decide (c ≠ '\n')
  if line.length < n then
    ⟨line, decide ('\n' ∈ stream), stream.drop (line.length + 1)⟩
  else ⟨stream.take (n - 1), false, stream.drop (n - 1)⟩

def assign (line : Str) : Str := line.takeWhile fun c => decide (c ≠ '\x00')

def getCacheFileName (cache : FileLockingCache) (src : Str) : Except Failure Str :=
  let target := cache.filePrefix ++ src
  if 254 < target.length then .error (.longName target.length target)
  else .ok (assemblePath cache.cacheDir target true false)

def cfname (cacheFileName : Str) (suffixCounter : Nat) : Str :=
  cacheFileName ++ '_' :: digits suffixCounter

/-- What `load_from_cache` finds: the response and its file, or the name it stopped at. -/
inductive Loaded (α : Type) where
  | hit (name : Str) (dds : Dds α)
  | miss (name : Str)

variable {α : Type} (format : Format α)

def loadLoop (files : Files) (resourceId cacheFileName : Str) (suffixCounter : Nat) :
    Except Failure (Loaded α) :=
  if maxCollisions < suffixCounter then .error (.collisions suffixCounter resourceId)
  else
    let name := cfname cacheFileName suffixCounter
    match files name with
    | none => .ok (.miss name)
    | some text =>
      let line := getline maxCacheableCeLen text
      if assign line.text = resourceId then
        match format.read line.good line.rest with
        | .error message => .error (.unreadable message)
        | .ok dds => .ok (.hit name dds)
      else loadLoop files resourceId cacheFileName (suffixCounter + 1)
termination_by maxCollisions + 1 - suffixCounter

def loadFromCache (files : Files) (resourceId cacheFileName : Str) : Except Failure (Loaded α) :=
  loadLoop format files resourceId cacheFileName 0

def fileText (resourceId : Str) (dds : Dds α) : Str := resourceId ++ '\n' :: format.print dds

def writeDatasetToCache (evaluate : Str → Str → Except Str (Dds α)) (files : Files) (filename : Str)
    (resourceId funcCe cacheFileName : Str) : Except Failure (Option (Dds α)) × Files :=
  match files cacheFileName with
  | some _ => (.ok none, files)
  | none =>
    match evaluate filename funcCe with
    | .error message => (.error (.evaluation message), files)
    | .ok dds =>
      (.ok (some dds), Function.update files cacheFileName (some (fileText format resourceId dds)))

inductive Answer (α : Type) where
  | loaded (name : Str) (dds : Dds α)
  | written (name : Str) (dds : Dds α)

def Answer.name : Answer α → Str
  | .loaded name _ => name
  | .written name _ => name

def Answer.dds : Answer α → Dds α
  | .loaded _ dds => dds
  | .written _ dds => dds

def getOrCacheDataset (cache : FileLockingCache) (hash : Str → UInt64)
    (evaluate : Str → Str → Except Str (Dds α)) (files : Files) (filename constraint : Str) :
    Except Failure (Option (Answer α)) × Files :=
  let resourceId := getResourceId filename constraint
  match getCacheFileName cache (digits (hash resourceId).toNat) with
  | .error failure => (.error failure, files)
  | .ok cacheFileName =>
    match loadFromCache format files resourceId cacheFileName with
    | .error failure => (.error failure, files)
    | .ok (.hit name dds) => (.ok (some (.loaded name { dds with filename })), files)
    | .ok (.miss name) =>
      match writeDatasetToCache format evaluate files filename resourceId constraint name with
      | (.error failure, files) => (.error failure, files)
      | (.ok (some dds), files) => (.ok (some (.written name dds)), files)
      | (.ok none, files) =>
        match loadFromCache format files resourceId name with
        | .error failure => (.error failure, files)
        | .ok (.hit other dds) => (.ok (some (.loaded other { dds with filename })), files)
        | .ok (.miss _) => (.ok none, files)

structure Service (α : Type) where
  cache : FileLockingCache
  format : Format α
  hash : Str → UInt64
  evaluate : Str → Str → Except Str (Dds α)

def Service.answer (service : Service α) (files : Files) (request : Request) :
    Except Failure (Option (Answer α)) × Files :=
  getOrCacheDataset service.format service.cache service.hash service.evaluate files
    request.filename request.constraint

def Service.filesAfter (service : Service α) (requests : List Request) : Files :=
  requests.foldl (fun files request => (service.answer files request).2) fun _ => none

def Service.outcome (service : Service α) (before : List Request) (request : Request) :
    Except Failure (Option (Answer α)) :=
  (service.answer (service.filesAfter before) request).1

def Service.response (service : Service α) (request : Request) : Except Str (Dds α) :=
  service.evaluate request.filename request.constraint

def Service.hashOf (service : Service α) (request : Request) : UInt64 :=
  service.hash request.resourceId

/-- More different requests than `max_collisions` share the hash value of this one. -/
def Service.Crowded (service : Service α) (requests : List Request) (request : Request) : Prop :=
  ∃ pairs : List Request, pairs.Nodup ∧ maxCollisions < pairs.length ∧
    ∀ pair ∈ pairs, pair ∈ requests ∧ service.hashOf pair = service.hashOf request

structure Service.Serves (service : Service α) (before : List Request) (request : Request) : Prop where
  /-- A result is the response of the request itself. -/
  own : ∀ result, service.outcome before request = .ok result →
    ∃ answer dds, result = some answer ∧ service.response request = .ok dds ∧
      answer.dds.vars = dds.vars
  /-- An exception is that of the evaluation, or the collision error. -/
  failure : ∀ failure, service.outcome before request = .error failure →
    (∃ message, service.response request = .error message ∧ failure = .evaluation message) ∨
      (∃ count, failure = .collisions count request.resourceId ∧
        service.Crowded (before ++ [request]) request)
  /-- An answered request is answered again from the same file. -/
  repeated : ∀ earlier middle answer, before = earlier ++ request :: middle →
    service.outcome earlier request = .ok (some answer) →
      ∃ dds, service.outcome before request = .ok (some (.loaded answer.name dds))
  /-- No second file is made for a request. -/
  oneFile : request ∈ before → service.filesAfter (before ++ [request]) = service.filesAfter before

def Service.ServesAll (service : Service α) (requests : List Request) : Prop :=
  ∀ before request after, requests = before ++ request :: after → service.Serves before request

/-- The line buffer has room for it, and the string made of the buffer is all of it. -/
def Readable (resourceId : Str) : Prop :=
  resourceId.length < maxCacheableCeLen ∧ '\x00' ∉ resourceId

theorem Request.resourceId_line (request : Request) : '\n' ∉ request.resourceId := by
  unfold Request.resourceId getResourceId
  rw [mem_append, mem_cons]
  rintro (hname | hshr | hcon)
  · exact request.filename_line hname
  · exact absurd hshr (by decide)
  · exact request.constraint_line hcon

theorem getline_line (hline : '\n' ∉ line) (n : Nat) (rest : Str) : getline n (line ++ '\n' :: rest)
      = if line.length < n then ⟨line, true, rest⟩
        else ⟨(line ++ '\n' :: rest).take (n - 1), false, (line ++ '\n' :: rest).drop (n - 1)⟩ := by
  have htake : (line ++ '\n' :: rest).takeWhile (fun c => decide (c ≠ '\n')) = line := by
    rw [takeWhile_append_of_pos]
    · simp
    · intro c hc
      exact decide_eq_true fun heq => hline (heq ▸ hc)
  have hdrop : (line ++ '\n' :: rest).drop (line.length + 1) = rest := by
    rw [← drop_drop, drop_left]
    rfl
  have hmem : '\n' ∈ line ++ '\n' :: rest := mem_append_right line mem_cons_self
  unfold getline
  dsimp only
  rw [htake, hdrop, decide_eq_true hmem]

theorem assign_eq_self_iff (line : Str) : assign line = line ↔ '\x00' ∉ line := by
  unfold assign
  rw [takeWhile_eq_self_iff]
  constructor
  · intro hall hnll
    exact absurd (hall '\x00' hnll) (by decide)
  · intro hnll c hc
    exact decide_eq_true fun heq => hnll (heq ▸ hc)

theorem length_assign_le (line : Str) : (assign line).length ≤ line.length :=
  (takeWhile_sublist _).length_le

theorem assign_getline_eq_iff (hline : '\n' ∉ resourceId) (rest : Str) :
    assign (getline maxCacheableCeLen (resourceId ++ '\n' :: rest)).text = resourceId
      ↔ Readable resourceId := by
  rw [getline_line hline]
  by_cases hlen : resourceId.length < maxCacheableCeLen
  · rw [if_pos hlen, assign_eq_self_iff, Readable, and_iff_right hlen]
  · rw [if_neg hlen]
    constructor
    · intro hass
      have hle := length_assign_le ((resourceId ++ '\n' :: rest).take (maxCacheableCeLen - 1))
      rw [hass, length_take] at hle
      unfold maxCacheableCeLen at hlen hle
      omega
    · intro hrea
      exact absurd hrea.1 hlen

def ShortPrefix (cache : FileLockingCache) : Prop := cache.filePrefix.length + 20 ≤ 254

instance (cache : FileLockingCache) : Decidable (ShortPrefix cache) :=
  inferInstanceAs (Decidable (_ ≤ _))

theorem length_digits_le (value : UInt64) : (digits value.toNat).length ≤ 20 :=
  Nat.toDigits_length 10 value.toNat 20 (by decide) (Nat.lt_trans value.toNat_lt (by decide))

def basename (cache : FileLockingCache) (value : UInt64) : Str :=
  Cache.PurgePaths.stem cache.cacheDir cache.filePrefix ++ digits value.toNat

theorem getCacheFileName_digits (hsho : ShortPrefix cache)
    (value : UInt64) : getCacheFileName cache (digits value.toNat) = .ok (basename cache value) := by
  have hlen : ¬ 254 < (cache.filePrefix ++ digits value.toNat).length := by
    have hdig := length_digits_le value
    unfold ShortPrefix at hsho
    rw [length_append]
    omega
  have hslash : '/' ∉ digits value.toNat := Decimal.not_mem_digits (by decide) _
  unfold getCacheFileName
  rw [if_neg hlen, Cache.PurgePaths.assemblePath_append _ _ hslash (Decimal.digits_ne_nil _)]
  rfl

theorem cfname_inj {i j : Nat}
    (heq : cfname (basename cache value) i = cfname (basename cache other) j) :
    value = other ∧ i = j := by
  unfold cfname basename at heq
  rw [append_assoc, append_assoc, append_cancel_left_eq,
    append_cons_inj_of_notMem (Decimal.not_mem_digits (by decide) _)
      (Decimal.not_mem_digits (by decide) _)] at heq
  exact ⟨UInt64.toNat_inj.mp (Decimal.digits_inj heq.1), Decimal.digits_inj heq.2.2⟩

section

variable {format} {files : Files} {resourceId cacheFileName : Str}

def Taken (files : Files) (resourceId name : Str) : Prop :=
  ∃ text, files name = some text ∧ assign (getline maxCacheableCeLen text).text ≠ resourceId

theorem loadLoop_skip {k : Nat} (hle : k ≤ m) (hm : m ≤ maxCollisions + 1)
    (htake : ∀ j, k ≤ j → j < m → Taken files resourceId (cfname cacheFileName j)) :
    loadLoop format files resourceId cacheFileName k
      = loadLoop format files resourceId cacheFileName m := by
  induction m, hle using Nat.le_induction with
  | base => rfl
  | succ m hle ih =>
    obtain ⟨text, htext, hother⟩ := htake m hle (Nat.lt_succ_self m)
    rw [ih (by omega) fun j hj hjm => htake j hj (by omega)]
    conv_lhs => rw [loadLoop]
    rw [if_neg (by omega)]
    dsimp only
    rw [htext]
    dsimp only
    rw [if_neg hother]

theorem loadFromCache_full
    (htake : ∀ j, j ≤ maxCollisions → Taken files resourceId (cfname cacheFileName j)) :
    loadFromCache format files resourceId cacheFileName
      = .error (.collisions (maxCollisions + 1) resourceId) := by
  unfold loadFromCache
  rw [loadLoop_skip (Nat.zero_le _) (Nat.le_refl (maxCollisions + 1))
    fun j _ hj => htake j (by omega), loadLoop, if_pos (Nat.lt_succ_self _)]

theorem loadFromCache_miss (hm : m ≤ maxCollisions)
    (htake : ∀ j, j < m → Taken files resourceId (cfname cacheFileName j))
    (hfre : files (cfname cacheFileName m) = none) :
    loadFromCache format files resourceId cacheFileName = .ok (.miss (cfname cacheFileName m)) := by
  unfold loadFromCache
  rw [loadLoop_skip (Nat.zero_le m) (by omega) fun j _ hj => htake j hj, loadLoop, if_neg (by omega)]
  dsimp only
  rw [hfre]

theorem loadFromCache_hit (hm : m ≤ maxCollisions)
    (htake : ∀ j, j < m → Taken files resourceId (cfname cacheFileName j))
    (hline : '\n' ∉ resourceId) (hrea : Readable resourceId)
    (hfil : files (cfname cacheFileName m) = some (fileText format resourceId dds)) :
    ∃ found, loadFromCache format files resourceId cacheFileName
        = .ok (.hit (cfname cacheFileName m) found) ∧ found.vars = dds.vars := by
  unfold loadFromCache
  rw [loadLoop_skip (Nat.zero_le m) (by omega) fun j _ hj => htake j hj, loadLoop, if_neg (by omega)]
  dsimp only
  rw [hfil]
  dsimp only [fileText]
  rw [if_pos ((assign_getline_eq_iff hline _).mpr hrea), getline_line hline, if_pos hrea.1]
  have hfail := format.faithful dds
  cases hread : format.read true (format.print dds) with
  | error message =>
    rw [hread] at hfail
    cases hfail
  | ok found =>
    rw [hread] at hfail
    exact ⟨found, rfl, Except.ok.inj hfail⟩

end

section

variable {service : Service α} {files : Files} {request : Request} {name : Str}

variable (hsho : ShortPrefix service.cache)

include hsho

theorem Service.answer_of_error {failure : Failure}
    (hlod : loadFromCache service.format files request.resourceId
      (basename service.cache (service.hashOf request)) = .error failure) :
    service.answer files request = (.error failure, files) := by
  unfold hashOf Request.resourceId at hlod
  unfold answer getOrCacheDataset
  dsimp only
  rw [getCacheFileName_digits hsho]
  dsimp only
  rw [hlod]

theorem Service.answer_of_hit (hlod : loadFromCache service.format files request.resourceId
      (basename service.cache (service.hashOf request)) = .ok (.hit name dds)) :
    service.answer files request
      = (.ok (some (.loaded name { dds with filename := request.filename })), files) := by
  unfold hashOf Request.resourceId at hlod
  unfold answer getOrCacheDataset
  dsimp only
  rw [getCacheFileName_digits hsho]
  dsimp only
  rw [hlod]

theorem Service.answer_of_miss (hlod : loadFromCache service.format files request.resourceId
      (basename service.cache (service.hashOf request)) = .ok (.miss name))
    (hfre : files name = none) :
    service.answer files request = match service.response request with
        | .error message => (.error (.evaluation message), files)
        | .ok dds => (.ok (some (.written name dds)),
            Function.update files name (some (fileText service.format request.resourceId dds))) := by
  unfold hashOf Request.resourceId at hlod
  unfold answer getOrCacheDataset
  dsimp only
  rw [getCacheFileName_digits hsho]
  dsimp only
  rw [hlod]
  dsimp only
  unfold writeDatasetToCache
  rw [hfre]
  unfold response
  cases service.evaluate request.filename request.constraint <;> rfl

end

/-! The requests that have a file, as keys in buckets. -/

section

variable (service : Service α)

def Service.accepts (request : Request) : Bool := (service.response request).toOption.isSome

def Service.filed (requests : List Request) : List Request :=
  Bucket.fileAll service.hashOf (maxCollisions + 1) service.accepts requests

def Service.bucketOf (requests : List Request) (value : UInt64) : List Request :=
  Bucket.bucket service.hashOf (service.filed requests) value

def Service.text (request : Request) : Option Str :=
  (service.response request).toOption.map (fileText service.format request.resourceId)

def Service.Holds (requests : List Request) (files : Files) : Prop :=
  ∀ value k, files (cfname (basename service.cache value) k)
    = (service.bucketOf requests value)[k]?.bind service.text

variable {service} {files : Files} {request : Request}

theorem Service.text_eq (hresult : service.response request = .ok dds) :
    service.text request = some (fileText service.format request.resourceId dds) := by
  rw [text, hresult]
  rfl

theorem Service.accepts_eq_true : service.accepts request = true ↔
    ∃ dds, service.response request = .ok dds := by
  unfold accepts
  cases service.response request <;> simp [Except.toOption]

structure Distinguished (cache : FileLockingCache) (requests : List Request) : Prop where
  short : ShortPrefix cache
  readable : ∀ request ∈ requests, Readable request.resourceId
  distinct : ∀ request ∈ requests, ∀ other ∈ requests,
    request.resourceId = other.resourceId → request = other

theorem Distinguished.mono {all : List Request}
    (hall : Distinguished cache all) (hsub : some_ ⊆ all) : Distinguished cache some_ where
  short := hall.short
  readable request hrequest := hall.readable request (hsub hrequest)
  distinct request hrequest other hother :=
    hall.distinct request (hsub hrequest) other (hsub hother)

variable (hholds : service.Holds requests files)
  (hplace : Distinguished service.cache (requests ++ [request]))

include hholds hplace

theorem Service.Holds.taken {j : Nat} (hj : j < (service.bucketOf requests value).length)
    (hne : (service.bucketOf requests value)[j] ≠ request) :
    Taken files request.resourceId (cfname (basename service.cache value) j) := by
  have hmem := (Bucket.mem_bucket.mp (getElem_mem hj)).1
  have hrequest : (service.bucketOf requests value)[j] ∈ requests ++ [request] :=
    mem_append_left [request] (Bucket.mem_keys_of_mem_fileAll hmem)
  obtain ⟨dds, hresult⟩ := Service.accepts_eq_true.mp (Bucket.accepted_of_mem_fileAll hmem)
  refine ⟨fileText service.format (service.bucketOf requests value)[j].resourceId dds, ?_, ?_⟩
  · rw [hholds value j, getElem?_eq_getElem hj, Option.bind_some, Service.text_eq hresult]
  · have hline := (service.bucketOf requests value)[j].resourceId_line
    rw [fileText, (assign_getline_eq_iff hline _).mpr (hplace.readable _ hrequest)]
    intro heq
    exact hne (hplace.distinct _ hrequest request (mem_append_right _ mem_cons_self) heq)

theorem Service.Holds.taken_of_not_mem (hmem : request ∉ service.filed requests)
    {j : Nat} (hj : j < (service.bucketOf requests value).length) :
    Taken files request.resourceId (cfname (basename service.cache value) j) := by
  apply hholds.taken hplace hj
  intro heq
  exact hmem (heq ▸ (Bucket.mem_bucket.mp (getElem_mem hj)).1)

def Service.place (service : Service α) (requests : List Request) (request : Request) : Str :=
  cfname (basename service.cache (service.hashOf request))
    ((service.bucketOf requests (service.hashOf request)).idxOf request)

def Service.nextPlace (service : Service α) (requests : List Request) (request : Request) : Str :=
  cfname (basename service.cache (service.hashOf request))
    (service.bucketOf requests (service.hashOf request)).length

theorem Service.Holds.answer_filed (hmem : request ∈ service.filed requests) :
    ∃ found dds, service.response request = .ok dds ∧ found.vars = dds.vars ∧
      service.answer files request
        = (.ok (some (.loaded (service.place requests request) found)), files) := by
  obtain ⟨dds, hresult⟩ := Service.accepts_eq_true.mp (Bucket.accepted_of_mem_fileAll hmem)
  have hbuc : request ∈ service.bucketOf requests (service.hashOf request) :=
    Bucket.mem_bucket.mpr ⟨hmem, rfl⟩
  have hidx := idxOf_lt_length_of_mem hbuc
  have hlim := Bucket.length_bucket_le service.hashOf (maxCollisions + 1) service.accepts requests
    (service.hashOf request)
  have hbefore : ∀ j, j < (service.bucketOf requests (service.hashOf request)).idxOf request →
      Taken files request.resourceId (cfname (basename service.cache (service.hashOf request)) j) := by
    intro j hj
    refine hholds.taken hplace (Nat.lt_trans hj hidx) fun heq => ?_
    have hnod : (service.bucketOf requests (service.hashOf request)).Nodup :=
      (Bucket.nodup_fileAll requests).filter _
    have hplc := hnod.idxOf_getElem j (Nat.lt_trans hj hidx)
    rw [heq] at hplc
    omega
  have hfil : files (service.place requests request)
      = some (fileText service.format request.resourceId dds) := by
    rw [Service.place, hholds, getElem?_idxOf hbuc, Option.bind_some, Service.text_eq hresult]
  have hrea := hplace.readable request (mem_append_right _ mem_cons_self)
  obtain ⟨found, hlod, hvrs⟩ := loadFromCache_hit
    (Nat.le_of_lt_succ (Nat.lt_of_lt_of_le hidx hlim)) hbefore request.resourceId_line hrea
    hfil
  exact ⟨{ found with filename := request.filename }, dds, hresult, hvrs,
    Service.answer_of_hit hplace.short hlod⟩

theorem Service.Holds.answer_full (hmem : request ∉ service.filed requests)
    (hfill : maxCollisions < (service.bucketOf requests (service.hashOf request)).length) :
    service.answer files request
      = (.error (.collisions (maxCollisions + 1) request.resourceId), files) := by
  apply Service.answer_of_error hplace.short
  apply loadFromCache_full
  intro j hj
  exact hholds.taken_of_not_mem hplace hmem (by omega)

theorem Service.Holds.answer_new (hmem : request ∉ service.filed requests)
    (hroom : (service.bucketOf requests (service.hashOf request)).length ≤ maxCollisions) :
    service.answer files request = match service.response request with
        | .error message => (.error (.evaluation message), files)
        | .ok dds => (.ok (some (.written (service.nextPlace requests request) dds)),
            Function.update files (service.nextPlace requests request)
              (some (fileText service.format request.resourceId dds))) := by
  have hfre : files (service.nextPlace requests request) = none := by
    rw [Service.nextPlace, hholds, getElem?_eq_none (Nat.le_refl _)]
    rfl
  have hlod : loadFromCache service.format files request.resourceId _ = _ :=
    loadFromCache_miss hroom (fun j hj => hholds.taken_of_not_mem hplace hmem hj) hfre
  exact Service.answer_of_miss hplace.short hlod hfre

omit hplace in
theorem Service.Holds.of_filed_eq
    (hfil : service.filed later = service.filed requests) : service.Holds later files := by
  intro value k
  rw [hholds, Service.bucketOf, Service.bucketOf, hfil]

omit hplace in
theorem Service.Holds.update (hfil : service.filed later = service.filed requests ++ [request]) :
    service.Holds later
      (Function.update files (service.nextPlace requests request) (service.text request)) := by
  intro value k
  rw [Service.bucketOf, hfil]
  by_cases hval : service.hashOf request = value
  · subst hval
    rw [Bucket.bucket_append_self]
    by_cases hk : k = (service.bucketOf requests (service.hashOf request)).length
    · subst hk
      rw [Service.nextPlace, Function.update_self, Service.bucketOf, getElem?_concat_length,
        Option.bind_some]
    · have hname : cfname (basename service.cache (service.hashOf request)) k
          ≠ service.nextPlace requests request := fun heq => hk (cfname_inj heq).2
      rw [Function.update_of_ne hname, hholds]
      unfold Service.bucketOf at hk ⊢
      rcases Nat.lt_or_gt_of_ne hk with hlt | hgt
      · rw [getElem?_append_left hlt]
      · rw [getElem?_eq_none (Nat.le_of_lt hgt),
          getElem?_eq_none (by simpa using Nat.succ_le_of_lt hgt)]
  · have hname : cfname (basename service.cache value) k
        ≠ service.nextPlace requests request := fun heq => hval (cfname_inj heq).1.symm
    rw [Function.update_of_ne hname, hholds, Service.bucketOf, Bucket.bucket_append_of_ne _ hval]

inductive Service.Does (service : Service α) (requests : List Request) (request : Request)
    (files : Files) : Except Failure (Option (Answer α)) × Files → Prop where
  | loaded {found dds : Dds α} : request ∈ service.filed requests →
      service.filed (requests ++ [request]) = service.filed requests →
      service.response request = .ok dds → found.vars = dds.vars →
      service.Does requests request files
        (.ok (some (.loaded (service.place requests request) found)), files)
  | full : request ∉ service.filed requests →
      service.filed (requests ++ [request]) = service.filed requests →
      maxCollisions < (service.bucketOf requests (service.hashOf request)).length →
      service.Does requests request files
        (.error (.collisions (maxCollisions + 1) request.resourceId), files)
  | rejected {message : Str} : request ∉ service.filed requests →
      service.filed (requests ++ [request]) = service.filed requests →
      service.response request = .error message →
      service.Does requests request files (.error (.evaluation message), files)
  | written {dds : Dds α} : request ∉ service.filed requests →
      service.filed (requests ++ [request]) = service.filed requests ++ [request] →
      service.response request = .ok dds →
      service.Does requests request files
        (.ok (some (.written (service.nextPlace requests request) dds)),
          Function.update files (service.nextPlace requests request) (service.text request))

theorem Service.Holds.does :
    service.Does requests request files (service.answer files request) := by
  have hfil : service.filed (requests ++ [request])
      = Bucket.file service.hashOf (maxCollisions + 1) service.accepts (service.filed requests)
          request := Bucket.fileAll_concat requests request
  by_cases hmem : request ∈ service.filed requests
  · obtain ⟨found, dds, hresult, hvrs, hans⟩ := hholds.answer_filed hplace hmem
    rw [hans]
    exact .loaded hmem (hfil.trans (Bucket.file_of_mem hmem)) hresult hvrs
  by_cases hroom : (service.bucketOf requests (service.hashOf request)).length < maxCollisions + 1
  · rw [hholds.answer_new hplace hmem (Nat.le_of_lt_succ hroom)]
    cases hresult : service.response request with
    | error message =>
      have href : service.accepts request = false := by
        rw [Service.accepts, hresult]
        rfl
      exact .rejected hmem (hfil.trans (Bucket.file_of_refused (by simp [href]))) hresult
    | ok dds =>
      have hacc := Service.accepts_eq_true.mpr ⟨dds, hresult⟩
      dsimp only
      rw [← Service.text_eq hresult]
      exact .written hmem (hfil.trans (Bucket.file_of_room hmem hroom hacc)) hresult
  · have hfill : maxCollisions < (service.bucketOf requests (service.hashOf request)).length :=
      Nat.lt_of_succ_le (Nat.le_of_not_lt hroom)
    rw [hholds.answer_full hplace hmem hfill]
    rw [Bucket.file_of_refused fun hfile => hroom hfile.1] at hfil
    exact .full hmem hfil hfill

theorem Service.Holds.step :
    service.Holds (requests ++ [request]) (service.answer files request).2 := by
  have hdos := hholds.does hplace
  generalize service.answer files request = result at hdos ⊢
  cases hdos with
  | loaded _ hfil _ _ => exact hholds.of_filed_eq hfil
  | full _ hfil _ => exact hholds.of_filed_eq hfil
  | rejected _ hfil _ => exact hholds.of_filed_eq hfil
  | written _ hfil _ => exact hholds.update hfil

omit hholds hplace in
theorem Service.filesAfter_concat (service : Service α) (requests : List Request) (request : Request) :
    service.filesAfter (requests ++ [request])
      = (service.answer (service.filesAfter requests) request).2 :=
  foldl_concat _ _ request requests

omit hholds hplace in
theorem Service.holds_filesAfter (hall : Distinguished service.cache requests) :
    service.Holds requests (service.filesAfter requests) := by
  induction requests using reverseRecOn with
  | nil =>
    intro value k
    rfl
  | append_singleton requests request ih =>
    rw [Service.filesAfter_concat]
    exact (ih (hall.mono (subset_append_left _ _))).step hall

end

section

variable {service : Service α} {before : List Request} {request : Request}
  (hplace : Distinguished service.cache (before ++ [request]))

include hplace

theorem Distinguished.holds : service.Holds before (service.filesAfter before) :=
  Service.holds_filesAfter (hplace.mono (subset_append_left _ _))

theorem Distinguished.does : service.Does before request (service.filesAfter before)
    (service.answer (service.filesAfter before) request) := hplace.holds.does hplace

theorem Distinguished.filed_of_answered
    (hout : service.outcome before request = .ok (some answer)) :
    request ∈ service.filed (before ++ [request]) ∧
      answer.name = service.place (before ++ [request]) request := by
  have hdos := hplace.does
  unfold Service.outcome at hout
  generalize service.answer (service.filesAfter before) request = result at hdos hout
  unfold Service.place Service.bucketOf
  cases hdos with
  | loaded hmem hfil _ _ =>
    rw [hfil, ← Option.some.inj (Except.ok.inj hout)]
    exact ⟨hmem, rfl⟩
  | full => cases hout
  | rejected => cases hout
  | written hmem hfil _ =>
    have hnot : request
        ∉ Bucket.bucket service.hashOf (service.filed before) (service.hashOf request) :=
      fun hbuc => hmem (Bucket.mem_bucket.mp hbuc).1
    rw [hfil, Bucket.bucket_append_self, idxOf_append_of_notMem hnot, idxOf_cons_self,
      ← Option.some.inj (Except.ok.inj hout)]
    exact ⟨mem_append_right _ mem_cons_self, rfl⟩

theorem Distinguished.own (hout : service.outcome before request = .ok result) :
    ∃ answer dds, result = some answer ∧ service.response request = .ok dds ∧
      answer.dds.vars = dds.vars := by
  have hdos := hplace.does
  unfold Service.outcome at hout
  generalize service.answer (service.filesAfter before) request = result at hdos hout
  cases hdos with
  | loaded _ _ hresult hvrs => exact ⟨_, _, (Except.ok.inj hout).symm, hresult, hvrs⟩
  | full => cases hout
  | rejected => cases hout
  | written _ _ hresult => exact ⟨_, _, (Except.ok.inj hout).symm, hresult, rfl⟩

theorem Distinguished.failure {failure : Failure}
    (hout : service.outcome before request = .error failure) :
    (∃ message, service.response request = .error message ∧ failure = .evaluation message) ∨
      (∃ count, failure = .collisions count request.resourceId ∧
        service.Crowded (before ++ [request]) request) := by
  have hdos := hplace.does
  unfold Service.outcome at hout
  generalize service.answer (service.filesAfter before) request = result at hdos hout
  cases hdos with
  | loaded => cases hout
  | full _ _ hfill =>
    refine .inr ⟨_, (Except.error.inj hout).symm,
      service.bucketOf before (service.hashOf request), ?_, hfill, ?_⟩
    · exact (Bucket.nodup_fileAll before).filter _
    · intro pair hpar
      obtain ⟨hmem, hhsh⟩ := Bucket.mem_bucket.mp hpar
      exact ⟨mem_append_left _ (Bucket.mem_keys_of_mem_fileAll hmem), hhsh⟩
  | rejected _ _ hresult => exact .inl ⟨_, hresult, (Except.error.inj hout).symm⟩
  | written => cases hout

theorem Distinguished.oneFile (hmem : request ∈ before) :
    service.filesAfter (before ++ [request]) = service.filesAfter before := by
  have hdos := hplace.does
  rw [Service.filesAfter_concat]
  generalize service.answer (service.filesAfter before) request = result at hdos ⊢
  cases hdos with
  | loaded => rfl
  | full => rfl
  | rejected => rfl
  | written hnot hfil _ =>
    have href := Bucket.file_of_refused (Bucket.refused_of_not_mem hmem hnot)
    rw [Service.filed, Bucket.fileAll_concat, href] at hfil
    exact absurd hfil (by simp [Service.filed])

theorem Distinguished.repeated (hbefore : before = earlier ++ request :: middle)
    (hout : service.outcome earlier request = .ok (some answer)) :
    ∃ dds, service.outcome before request = .ok (some (.loaded answer.name dds)) := by
  have hsplit : before = (earlier ++ [request]) ++ middle := by simp [hbefore]
  have hear : Distinguished service.cache (earlier ++ [request]) := by
    refine hplace.mono fun other hother => ?_
    rw [hsplit]
    exact mem_append_left _ (mem_append_left _ hother)
  obtain ⟨hfil, hname⟩ := hear.filed_of_answered hout
  have hlat : service.filed (earlier ++ [request]) <+: service.filed before := by
    rw [hsplit]
    exact Bucket.fileAll_mono _ _ _ _ _
  obtain ⟨found, dds, -, -, hans⟩ := hplace.holds.answer_filed hplace (hlat.subset hfil)
  refine ⟨found, ?_⟩
  rw [Service.outcome, hans, hname, Service.place, Service.place, Service.bucketOf,
    Service.bucketOf, Bucket.idxOf_bucket_mono service.hashOf hlat hfil]

theorem Distinguished.serves : service.Serves before request where
  own _ := hplace.own
  failure _ := hplace.failure
  repeated _ _ _ := hplace.repeated
  oneFile := hplace.oneFile

end

section

variable {service : Service α} {first : Request} {dds : Dds α}
  (hsho : ShortPrefix service.cache) (hresult : service.response first = .ok dds)

include hsho hresult

theorem Service.filesAfter_single : service.filesAfter [first]
      = Function.update (fun _ => none) (cfname (basename service.cache (service.hashOf first)) 0)
          (some (fileText service.format first.resourceId dds)) := by
  have hlod : loadFromCache service.format (fun _ => none) first.resourceId
      (basename service.cache (service.hashOf first)) = _ :=
    loadFromCache_miss (Nat.zero_le maxCollisions) (fun _ hj => absurd hj (Nat.not_lt_zero _)) rfl
  change (service.answer (fun _ => none) first).2 = _
  rw [Service.answer_of_miss hsho hlod rfl, hresult]

theorem Service.outcome_shared (hrea : Readable first.resourceId)
    (hsha : first.resourceId = second.resourceId) :
    ∃ name found, service.outcome [first] second = .ok (some (.loaded name found)) ∧
      found.vars = dds.vars := by
  have hhsh : service.hashOf first = service.hashOf second := congrArg service.hash hsha
  have hfil : service.filesAfter [first]
      (cfname (basename service.cache (service.hashOf second)) 0)
        = some (fileText service.format second.resourceId dds) := by
    rw [Service.filesAfter_single hsho hresult, ← hhsh, Function.update_self, hsha]
  obtain ⟨found, hlod, hvrs⟩ := loadFromCache_hit (Nat.zero_le maxCollisions)
    (fun _ hj => absurd hj (Nat.not_lt_zero _)) second.resourceId_line (hsha ▸ hrea) hfil
  refine ⟨cfname (basename service.cache (service.hashOf second)) 0,
    { found with filename := second.filename }, ?_, hvrs⟩
  rw [Service.outcome, Service.answer_of_hit hsho hlod]

theorem Service.filesAfter_unreadable (hunr : ¬ Readable first.resourceId) :
    service.filesAfter [first, first] ≠ service.filesAfter [first] := by
  have hsin := Service.filesAfter_single hsho hresult
  have hfre : service.filesAfter [first]
      (cfname (basename service.cache (service.hashOf first)) 1) = none := by
    have hname : cfname (basename service.cache (service.hashOf first)) 1
        ≠ cfname (basename service.cache (service.hashOf first)) 0 :=
      fun heq => absurd (cfname_inj heq).2 (by decide)
    rw [hsin, Function.update_of_ne hname]
  have htake : ∀ j, j < 1 → Taken (service.filesAfter [first]) first.resourceId
      (cfname (basename service.cache (service.hashOf first)) j) := by
    intro j hj
    obtain rfl : j = 0 := Nat.lt_one_iff.mp hj
    refine ⟨fileText service.format first.resourceId dds, ?_, fun heq => ?_⟩
    · rw [hsin, Function.update_self]
    · exact hunr ((assign_getline_eq_iff first.resourceId_line _).mp heq)
  have hlod : loadFromCache service.format (service.filesAfter [first]) first.resourceId _ = _ :=
    loadFromCache_miss (by decide) htake hfre
  intro hsame
  have haga := Service.filesAfter_concat service [first] first
  rw [Service.answer_of_miss hsho hlod hfre, hresult] at haga
  have hname := congrFun (hsame.symm.trans haga)
    (cfname (basename service.cache (service.hashOf first)) 1)
  rw [hfre] at hname
  dsimp only at hname
  rw [Function.update_self] at hname
  cases hname

end

section

variable {cache : FileLockingCache} (format : Format α) {request other : Request}

theorem shortPrefix_of_serves (value : α)
    (hser : ∀ hash evaluate, Service.Serves ⟨cache, format, hash, evaluate⟩ [] request) :
    ShortPrefix cache := by
  by_contra hlong
  let service : Service α :=
    ⟨cache, format, fun _ => 18446744073709551615, fun _ _ => .ok ⟨[], value⟩⟩
  have htarget : 254 < (cache.filePrefix ++ digits 18446744073709551615).length := by
    have hdig : (digits 18446744073709551615).length = 20 := by decide
    unfold ShortPrefix at hlong
    rw [length_append, hdig]
    omega
  have hname : getCacheFileName cache (digits (18446744073709551615 : UInt64).toNat) = .error _ :=
    if_pos htarget
  have hout : ∃ length target, service.outcome [] request = .error (.longName length target) := by
    unfold Service.outcome Service.answer getOrCacheDataset
    dsimp only [service]
    rw [hname]
    exact ⟨_, _, rfl⟩
  obtain ⟨length, target, hout⟩ := hout
  rcases (hser _ _).failure _ hout with ⟨message, -, hflr⟩ | ⟨count, hflr, -⟩
  · cases hflr
  · cases hflr

theorem readable_of_serves (value : α) (hsho : ShortPrefix cache)
    (hser : ∀ hash evaluate, Service.Serves ⟨cache, format, hash, evaluate⟩ [request] request) :
    Readable request.resourceId := by
  by_contra hunr
  let service : Service α := ⟨cache, format, fun _ => 0, fun _ _ => .ok ⟨[], value⟩⟩
  have hfls : service.filesAfter [request, request] ≠ service.filesAfter [request] :=
    Service.filesAfter_unreadable hsho rfl hunr
  exact hfls ((hser _ _).oneFile mem_cons_self)

theorem eq_of_serves [Nontrivial α] (hsho : ShortPrefix cache)
    (hrea : Readable request.resourceId) (hsha : request.resourceId = other.resourceId)
    (hser : ∀ hash evaluate, Service.Serves ⟨cache, format, hash, evaluate⟩ [request] other) :
    request = other := by
  by_contra hne
  obtain ⟨left, right, hvalues⟩ := exists_pair_ne α
  have hpar : (other.filename, other.constraint) ≠ (request.filename, request.constraint) := by
    intro heq
    cases other
    simp_all
  let evaluate (filename constraint : Str) : Except Str (Dds α) :=
    .ok ⟨[], if (filename, constraint) = (request.filename, request.constraint) then left else right⟩
  let service : Service α := ⟨cache, format, fun _ => 0, evaluate⟩
  have hrequest : service.response request = .ok ⟨[], left⟩ :=
    congrArg (fun value => Except.ok (Dds.mk [] value)) (if_pos rfl)
  have hother : service.response other = .ok ⟨[], right⟩ :=
    congrArg (fun value => Except.ok (Dds.mk [] value)) (if_neg hpar)
  obtain ⟨name, found, hout, hvrs⟩ := Service.outcome_shared hsho hrequest hrea hsha
  obtain ⟨answer, dds, hans, hresult, hown⟩ := (hser _ _).own _ hout
  cases hans
  rw [show service.response other = _ from hother] at hresult
  rw [← Except.ok.inj hresult] at hown
  exact hvalues (hvrs.symm.trans hown)

end

/-- Under every hash function, all requests of all sequences are served from their own files exactly
if the file names fit, the resource ids can be read back whole, and no two requests share one. -/
theorem servesAll_iff [Nontrivial α] (cache : FileLockingCache) (format : Format α)
    (allowed : Request → Prop) :
    (∀ hash evaluate requests, (∀ request ∈ requests, allowed request) →
        Service.ServesAll ⟨cache, format, hash, evaluate⟩ requests)
      ↔ (∀ request, allowed request → ShortPrefix cache ∧ Readable request.resourceId) ∧
        ∀ request other, allowed request → allowed other →
          request.resourceId = other.resourceId → request = other := by
  constructor
  · intro hser
    have hsin : ∀ request, allowed request → ShortPrefix cache ∧ Readable request.resourceId := by
      intro request halo
      obtain ⟨value⟩ := (inferInstance : Nonempty α)
      have hsho := shortPrefix_of_serves format value fun hash evaluate =>
        hser hash evaluate [request] (by simpa using halo) [] request [] rfl
      refine ⟨hsho, readable_of_serves format value hsho fun hash evaluate => ?_⟩
      exact hser hash evaluate [request, request] (by simpa using halo) [request] request [] rfl
    refine ⟨hsin, fun request other hrequest hother hsha => ?_⟩
    obtain ⟨hsho, hrea⟩ := hsin request hrequest
    refine eq_of_serves format hsho hrea hsha fun hash evaluate => ?_
    exact hser hash evaluate [request, other] (by simpa using ⟨hrequest, hother⟩) [request] other [] rfl
  · rintro ⟨hsin, hdis⟩ hash evaluate requests halo before request after rfl
    have hmem : ∀ other ∈ before ++ [request], allowed other := by
      intro other hother
      apply halo
      rw [← singleton_append, ← append_assoc]
      exact mem_append_left after hother
    refine Distinguished.serves ⟨?_, ?_, ?_⟩
    · exact (hsin request (hmem request (by simp))).1
    · exact fun other hother => (hsin other (hmem other hother)).2
    · exact fun left hleft right hright => hdis left right (hmem left hleft) (hmem right hright)

/-! One response is a bit, and its file has one character after the first line. -/

def bitFormat : Format Bool where
  print dds := if dds.vars then ['1'] else ['0']
  read _ text := .ok ⟨[], decide (text = ['1'])⟩
  faithful dds := by
    obtain ⟨filename, vars⟩ := dds
    cases vars <;> rfl

def sampleCache : FileLockingCache := ⟨"/tmp".toList, "rc".toList, Cache.ControlFile.megabyte, by decide, by decide⟩

/-- Only the calls of the dataset `a` give a one. -/
def sampleService : Service Bool where
  cache := sampleCache
  format := bitFormat
  hash _ := 7
  evaluate filename _ := .ok ⟨[], decide (filename = ['a'])⟩

def plainRequest : Request := ⟨['a'], "f(x)".toList, by decide, by decide, by decide⟩

def otherRequest : Request := ⟨['b'], "f(x)".toList, by decide, by decide, by decide⟩

theorem servesAll_iff_sample :
    sampleService.ServesAll [plainRequest, otherRequest, plainRequest] := by
  refine (servesAll_iff sampleCache bitFormat fun request =>
    request = plainRequest ∨ request = otherRequest).mpr ⟨?_, ?_⟩ _ _ _ ?_
  · rintro request (rfl | rfl) <;> exact ⟨by decide, by decide, by decide⟩
  · rintro request other (rfl | rfl) (rfl | rfl) hsha
    · rfl
    · exact absurd hsha (by decide)
    · exact absurd hsha (by decide)
    · rfl
  · decide

def sharpConstraint : Request := ⟨['a'], "b#c".toList, by decide, by decide, by decide⟩

def sharpFilename : Request := ⟨"a#b".toList, ['c'], by decide, by decide, by decide⟩

def longRequest : Request where
  filename := ['a']
  constraint := replicate 4095 'x'
  cacheable := by
    rw [canBeCached, length_replicate]
    rfl
  filename_line := by decide
  constraint_line hmem := absurd (eq_of_mem_replicate hmem) (by decide)

/-- The second dataset is answered with the response of the first; the long request gets a second
file. -/
theorem sharpFilename_misanswered :
    (∃ name found, sampleService.outcome [sharpConstraint] sharpFilename
        = .ok (some (.loaded name found)) ∧ found.vars = true) ∧
      sampleService.response sharpFilename = .ok ⟨[], false⟩ ∧
      sampleService.filesAfter [longRequest, longRequest] ≠ sampleService.filesAfter [longRequest] := by
  have hsho : ShortPrefix sampleService.cache := by decide
  refine ⟨?_, rfl, ?_⟩
  · exact Service.outcome_shared hsho (show _ = Except.ok ⟨[], true⟩ from rfl)
      ⟨by decide, by decide⟩ (by decide)
  · refine Service.filesAfter_unreadable hsho (show _ = Except.ok ⟨[], true⟩ from rfl) ?_
    have hlen : longRequest.resourceId.length = 1 + (4095 + 1) := by
      rw [Request.resourceId, getResourceId, length_append, length_cons,
        show longRequest.constraint.length = 4095 from length_replicate]
      rfl
    intro hrea
    exact absurd (hlen ▸ hrea.1) (by decide)

end Bes.Dap.FunctionResponseCache
