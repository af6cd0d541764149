import Bes.Lib.Run

/-! The pool of libcurl handles that all transfer threads share. A thread asks
the pool for a handle, transfers one chunk with it and releases it. The pool finds
a handle by its `inUse` flag alone, and no release asks who holds the handle. -/
namespace Bes.Dmrpp.CurlHandlePool
open Lib.Run List Option

inductive Protocol
  | http
  | https
  | file
deriving DecidableEq

structure Url where
  protocol : Protocol
  str : String
deriving DecidableEq

/-- `AccessCredentials`; a key that is missing has the empty value. -/
structure AccessCredentials where
  url : String
  id : String
  key : String
  region : String
deriving DecidableEq

def AccessCredentials.isS3Cred (credentials : AccessCredentials) : Bool :=
  0 < credentials.url.length && 0 < credentials.id.length && 0 < credentials.key.length &&
    0 < credentials.region.length

/-- One round of the loop in `CredentialsManager::get`. -/
def betterMatch (url : Url) (best : String × Option AccessCredentials)
    (entry : String × AccessCredentials) : String × Option AccessCredentials :=
  if entry.1.toList.isPrefixOf url.str.toList then
    if best.1.length < entry.1.length then (entry.1, some entry.2) else best
  else best

/-- `CredentialsManager::get`: the entry with the longest key the URL starts with. -/
def credentialsFor (creds : List (String × AccessCredentials)) (url : Url) :
    Option AccessCredentials :=
  if url.protocol = .http ∨ url.protocol = .https then
    (creds.foldl (betterMatch url) ("", none)).2
  else none

structure Awsv4 where
  computeAwsv4Signature : (url : Url) → (requestTime : Nat) → (publicKey secretKey region
    service : String) → Option String
  iso8601Date : Nat → String

/-- `dmrpp_easy_handle`. `chunk` stands for the address of a chunk, and
`httpHeader` is the list that `CURLOPT_HTTPHEADER` was last given. -/
structure EasyHandle where
  inUse : Bool := false
  url : Option Url := none
  chunk : Option Nat := none
  requestHeaders : List String := []
  httpHeader : List String := []
deriving DecidableEq

/-- One call of `get_easy_handle`: the chunk and its effective URL, the credentials
known to the manager, the time, and what the libraries answer. -/
structure Request where
  chunk : Nat
  url : Url
  creds : List (String × AccessCredentials)
  time : Nat
  isAllowed : Bool := true
  setoptFails : Bool := false
  headerSetoptFails : Bool := false

def appendHttpHeader (headers : List String) (name value : String) : List String :=
  headers ++ [name ++ ": " ++ value]

def Request.s3Credentials (request : Request) : Option AccessCredentials :=
  (credentialsFor request.creds request.url).filter AccessCredentials.isS3Cred

def Request.signature (aws : Awsv4) (request : Request) (credentials : AccessCredentials) :
    Option String :=
  aws.computeAwsv4Signature request.url request.time credentials.id credentials.key
    credentials.region "s3"

def signedHeaders (aws : Awsv4) (request : Request) (authHeader : String) : List String :=
  let headers := appendHttpHeader [] "Authorization" authHeader
  let headers := appendHttpHeader headers "x-amz-content-sha256"
    "e3b0c44298fc1c149afbf4c8996fb92427ae41e4649b934ca495991b7852b855"
  appendHttpHeader headers "x-amz-date" (aws.iso8601Date request.time)

/-- What `get_easy_handle` does to the handle it has found, and whether it gets to
the end. Where it throws, the handle stays as it is at that point. -/
def configure (aws : Awsv4) (request : Request) (handle : EasyHandle) : EasyHandle × Bool :=
  let handle := { handle with
    inUse := true, url := some request.url, chunk := some request.chunk }
  if request.setoptFails then (handle, false)
  else
    match request.s3Credentials with
    | none => (handle, true)
    | some credentials =>
        match request.signature aws credentials with
        | none => (handle, false)
        | some authHeader =>
            let handle := { handle with requestHeaders := signedHeaders aws request authHeader }
            if request.headerSetoptFails then (handle, false)
            else ({ handle with httpHeader := handle.requestHeaders }, true)

inductive Outcome
  | returned (i : Nat)
  | null
  | threw
deriving DecidableEq

def getEasyHandle (aws : Awsv4) (request : Request) (handles : List EasyHandle) :
    List EasyHandle × Outcome :=
  if request.isAllowed = false then (handles, .threw)
  else
    match handles.findIdx? fun handle => !handle.inUse with
    | none => (handles, .null)
    | some i =>
        match handles[i]? with
        | none => (handles, .null)
        | some handle =>
            let (handle, completed) := configure aws request handle
            (handles.set i handle, if completed then .returned i else .threw)

def EasyHandle.release (handle : EasyHandle) : EasyHandle :=
  { handle with url := none, chunk := none, inUse := false }

def releaseHandle (i : Nat) (handles : List EasyHandle) : List EasyHandle :=
  handles.modify i EasyHandle.release

/-- The handle that `release_handle(chunk)` releases. -/
def findChunk (chunk : Nat) (handles : List EasyHandle) : Option Nat :=
  handles.findIdx? fun handle => decide (handle.chunk = some chunk)

/-- The request makes `get_easy_handle` throw once a handle is marked. -/
def Request.failsAfterMarking (aws : Awsv4) (request : Request) : Bool :=
  request.setoptFails ||
    match request.s3Credentials with
    | none => false
    | some credentials =>
        (request.signature aws credentials).isNone || request.headerSetoptFails

theorem configure_inUse (aws : Awsv4) (request : Request) (handle : EasyHandle) :
    (configure aws request handle).1.inUse = true := by
  unfold configure
  repeat' split
  all_goals rfl

theorem configure_completed (aws : Awsv4) (request : Request) (handle : EasyHandle) :
    (configure aws request handle).2 = !request.failsAfterMarking aws := by
  unfold configure Request.failsAfterMarking
  cases request.setoptFails with
  | true => simp
  | false =>
    cases request.s3Credentials with
    | none => simp
    | some credentials =>
      cases hsig : request.signature aws credentials with
      | none => simp [hsig]
      | some authHeader => cases request.headerSetoptFails <;> simp [hsig]

theorem getEasyHandle_cases (aws : Awsv4) (request : Request) (handles : List EasyHandle) :
    (request.isAllowed = false ∧ getEasyHandle aws request handles = (handles, .threw)) ∨
    ((∀ handle ∈ handles, handle.inUse = true) ∧ getEasyHandle aws request handles = (handles, .null)) ∨
    (∃ i handle, request.isAllowed = true ∧ handles.findIdx? (fun handle => !handle.inUse) = some i ∧
      handles[i]? = some handle ∧ handle.inUse = false ∧
      getEasyHandle aws request handles = (handles.set i (configure aws request handle).1,
        if request.failsAfterMarking aws then .threw else .returned i)) := by
  cases hall : request.isAllowed with
  | false => exact .inl ⟨rfl, by simp [getEasyHandle, hall]⟩
  | true =>
    cases hfnd : handles.findIdx? fun handle => !handle.inUse with
    | none =>
      refine .inr (.inl ⟨?_, by simp [getEasyHandle, hall, hfnd]⟩)
      intro handle hmem
      simpa using findIdx?_eq_none_iff.mp hfnd handle hmem
    | some i =>
      obtain ⟨hi, hfre, -⟩ := findIdx?_eq_some_iff_getElem.mp hfnd
      have hget := getElem?_eq_getElem hi
      refine .inr (.inr ⟨i, handles[i], rfl, rfl, hget, by simpa using hfre, ?_⟩)
      simp only [getEasyHandle, hall, hfnd, hget]
      rw [configure_completed]
      cases request.failsAfterMarking aws <;> simp

def inUseAt (handles : List EasyHandle) (i : Nat) : Bool := handles[i]?.any EasyHandle.inUse

variable {thread : Thread}

theorem inUseAt_of_getElem? (hget : handles[i]? = some handle) : inUseAt handles i = handle.inUse := by
  rw [inUseAt, hget, any_some]

theorem inUseAt_set {j : Nat} (hget : handles[i]? = some old) :
    inUseAt (handles.set i new) j = if j = i then new.inUse else inUseAt handles j := by
  unfold inUseAt
  by_cases hj : j = i
  · subst hj
    have hlt := (List.getElem?_eq_some_iff.mp hget).1
    rw [if_pos rfl, getElem?_set_self hlt, any_some]
  · rw [if_neg hj, getElem?_set_ne (Ne.symm hj)]

theorem inUseAt_releaseHandle (handles : List EasyHandle) (i j : Nat) :
    inUseAt (releaseHandle i handles) j = if j = i then false else inUseAt handles j := by
  unfold inUseAt releaseHandle
  rw [getElem?_modify]
  by_cases hj : j = i
  · subst hj
    cases handles[j]? <;> simp [EasyHandle.release]
  · simp [hj, Ne.symm hj]

/-- A thread in `read_chunk`. `handle` is its local variable of that name,
`released` tells whether it has released that handle itself, and `pending` holds
the handles that the release call it is in has still to release. -/
structure Thread where
  handle : Option Nat := none
  released : Bool := false
  pending : List Nat := []
deriving DecidableEq

def Thread.held (thread : Thread) : Option Nat := if thread.released then none else thread.handle

structure System where
  handles : List EasyHandle
  threads : List Thread
deriving DecidableEq

inductive Event
  | get (t : Nat) (request : Request)
  | release (t : Nat)
  | overrun (t : Nat)
  | releaseChunk (t : Nat) (chunk : Nat)
  | releaseNext (t : Nat)

/-- The thread when `get_easy_handle` is over. Where there is no handle,
`read_chunk` throws. -/
def Thread.receive (thread : Thread) : Outcome → Thread
  | .returned i => { handle := some i }
  | .null => thread
  | .threw => thread

/-- One step of a thread. `get_easy_handle` and `release_handle(handle)` hold the
pool's mutex; the other two releases take it once for each handle. -/
def step (aws : Awsv4) (system : System) : Event → Option System
  | .get t request => do
      let thread ← system.threads[t]?
      if thread.handle = none ∧ thread.pending = [] then
        let (handles, outcome) := getEasyHandle aws request system.handles
        some ⟨handles, system.threads.set t (thread.receive outcome)⟩
      else none
  -- the transfer is over, or the catch block is reached
  | .release t => do
      let thread ← system.threads[t]?
      let i ← thread.handle
      if thread.pending = [] then
        some ⟨releaseHandle i system.handles, system.threads.set t {}⟩
      else none
  -- `chunk_write_data` finds too many bytes and calls `release_all_handles`
  | .overrun t => do
      let thread ← system.threads[t]?
      if thread.held.isSome ∧ thread.pending = [] then
        some ⟨system.handles, system.threads.set t
          { thread with pending := range system.handles.length }⟩
      else none
  | .releaseChunk t chunk => do
      let thread ← system.threads[t]?
      if thread.pending = [] then
        some ⟨system.handles, system.threads.set t
          { thread with pending := (findChunk chunk system.handles).toList }⟩
      else none
  | .releaseNext t => do
      let thread ← system.threads[t]?
      let i ← thread.pending.head?
      some ⟨releaseHandle i system.handles, system.threads.set t
        { thread with
          pending := thread.pending.tail
          released := thread.released || decide (thread.handle = some i) }⟩

def initial (maxHandles numThreads : Nat) : System :=
  ⟨replicate maxHandles {}, replicate numThreads {}⟩

structure Exclusive (system : System) : Prop where
  inUse_iff : ∀ i, inUseAt system.handles i = true ↔
    ∃ (t : Nat) (thread : Thread), system.threads[t]? = some thread ∧ thread.held = some i
  holder_unique : ∀ (t u i : Nat) (thread other : Thread), system.threads[t]? = some thread →
    system.threads[u]? = some other → thread.held = some i → other.held = some i → t = u

def NotHeldByOthers (system : System) (t i : Nat) : Prop :=
  ∀ u < system.threads.length, u ≠ t → ∀ other ∈ system.threads[u]?, other.held ≠ some i

instance (system : System) (t i : Nat) : Decidable (NotHeldByOthers system t i) :=
  inferInstanceAs (Decidable (∀ u < system.threads.length, u ≠ t → ∀ other ∈ system.threads[u]?, _))

/-- A step that respects the holders: `get_easy_handle` does not throw once it has
marked a handle, and nothing is released that another thread holds. -/
def Safe (aws : Awsv4) (system : System) : Event → Prop
  | .get _ request => request.isAllowed = true →
      (∃ handle ∈ system.handles, handle.inUse = false) → request.failsAfterMarking aws = false
  | .release t => ∀ thread ∈ system.threads[t]?, ∀ i ∈ thread.handle, NotHeldByOthers system t i
  | .releaseNext t => ∀ thread ∈ system.threads[t]?, ∀ i ∈ thread.pending.head?,
      NotHeldByOthers system t i
  | .overrun _ => True
  | .releaseChunk _ _ => True

instance (aws : Awsv4) (system : System) : DecidablePred (Safe aws system)
  | .get _ _ => inferInstanceAs (Decidable (_ → (∃ handle ∈ system.handles, _) → _))
  | .release t => inferInstanceAs (Decidable
      (∀ thread ∈ system.threads[t]?, ∀ i ∈ thread.handle, NotHeldByOthers system t i))
  | .releaseNext t => inferInstanceAs (Decidable
      (∀ thread ∈ system.threads[t]?, ∀ i ∈ thread.pending.head?, NotHeldByOthers system t i))
  | .overrun _ | .releaseChunk _ _ => isTrue trivial

theorem Exclusive.congr (hexc : Exclusive system) (hthr : system.threads[t]? = some thread)
    (hhld : ∀ i, thread'.held = some i → thread.held = some i ∨
      (∀ (u : Nat) (other : Thread), system.threads[u]? = some other → other.held ≠ some i))
    (hinu : ∀ i, inUseAt handles i = true ↔ thread'.held = some i ∨
      ∃ (u : Nat) (other : Thread), u ≠ t ∧ system.threads[u]? = some other ∧ other.held = some i) :
    Exclusive ⟨handles, system.threads.set t thread'⟩ := by
  have hlt := (List.getElem?_eq_some_iff.mp hthr).1
  constructor
  · intro i
    rw [hinu]
    constructor
    · rintro (hown | ⟨u, other, hu, hoth, hhol⟩)
      · exact ⟨t, thread', getElem?_set_self hlt, hown⟩
      · refine ⟨u, other, ?_, hhol⟩
        rw [getElem?_set_ne (Ne.symm hu), hoth]
    · rintro ⟨u, other, hoth, hhol⟩
      cases getElem?_set_cases hoth with
      | inl hslf => exact .inl (hslf.2 ▸ hhol)
      | inr hels => exact .inr ⟨u, other, hels.1, hels.2, hhol⟩
  · -- a handle that two threads hold was held by two threads before
    have hown : ∀ (u i : Nat) (other : Thread), u ≠ t → system.threads[u]? = some other →
        thread'.held = some i → other.held ≠ some i := by
      intro u i other hu hoth hhol hote
      cases hhld i hhol with
      | inl hbef =>
        exact hu (hexc.holder_unique u t i other thread hoth hthr hote hbef)
      | inr hnon => exact hnon u other hoth hote
    intro u v i first second hfst hsnd hfir hsec
    cases getElem?_set_cases hfst with
    | inl hu =>
      cases getElem?_set_cases hsnd with
      | inl hv => exact hu.1.trans hv.1.symm
      | inr hv => exact absurd hsec (hown v i second hv.1 hv.2 (hu.2 ▸ hfir))
    | inr hu =>
      cases getElem?_set_cases hsnd with
      | inl hv => exact absurd hfir (hown u i first hu.1 hu.2 (hv.2 ▸ hsec))
      | inr hv =>
        exact hexc.holder_unique u v i first second hu.2 hv.2 hfir hsec

theorem exists_holder_iff {threads : List Thread} (hthr : threads[t]? = some thread) (i : Nat) :
    (∃ (u : Nat) (other : Thread), threads[u]? = some other ∧ other.held = some i) ↔
      thread.held = some i ∨ ∃ (u : Nat) (other : Thread), u ≠ t ∧ threads[u]? = some other ∧
        other.held = some i := by
  constructor
  · rintro ⟨u, other, hoth, hhol⟩
    by_cases hu : u = t
    · subst hu
      rw [hthr, some.injEq] at hoth
      exact .inl (hoth ▸ hhol)
    · exact .inr ⟨u, other, hu, hoth, hhol⟩
  · rintro (hown | ⟨u, other, -, hoth, hhol⟩)
    · exact ⟨t, thread, hthr, hown⟩
    · exact ⟨u, other, hoth, hhol⟩

theorem Exclusive.set_thread (hexc : Exclusive system)
    (hthr : system.threads[t]? = some thread) (hhld : thread'.held = thread.held) :
    Exclusive ⟨system.handles, system.threads.set t thread'⟩ := by
  apply hexc.congr hthr
  · intro i hhol
    exact .inl (hhld ▸ hhol)
  · intro i
    rw [hexc.inUse_iff i, exists_holder_iff hthr, hhld]

theorem Exclusive.mark (hexc : Exclusive system) (hthr : system.threads[t]? = some thread)
    (hidl : thread.held = none) (hget : system.handles[i]? = some old)
    (hfre : old.inUse = false) (hmar : new.inUse = true) (hhld : thread'.held = some i) :
    Exclusive ⟨system.handles.set i new, system.threads.set t thread'⟩ := by
  have hnon : ∀ (u : Nat) (other : Thread), system.threads[u]? = some other →
      other.held ≠ some i := by
    intro u other hoth hhol
    have hmrk := (hexc.inUse_iff i).mpr ⟨u, other, hoth, hhol⟩
    rw [inUseAt_of_getElem? hget, hfre] at hmrk
    cases hmrk
  apply hexc.congr hthr
  · intro j hj
    rw [hhld, some.injEq] at hj
    exact .inr (hj ▸ hnon)
  · intro j
    rw [inUseAt_set hget, hhld]
    by_cases hj : j = i
    · subst hj
      simp [hmar]
    · have hoth : (some i : Option Nat) ≠ some j := fun heq => hj (some.inj heq).symm
      rw [if_neg hj, hexc.inUse_iff j, exists_holder_iff hthr, hidl]
      simp [hoth]

theorem Exclusive.clear (hexc : Exclusive system)
    (hthr : system.threads[t]? = some thread) (hote : NotHeldByOthers system t i)
    (hhld : ∀ j, thread'.held = some j ↔ thread.held = some j ∧ j ≠ i) :
    Exclusive ⟨releaseHandle i system.handles, system.threads.set t thread'⟩ := by
  apply hexc.congr hthr
  · intro j hj
    exact .inl ((hhld j).mp hj).1
  · intro j
    rw [inUseAt_releaseHandle, hhld]
    by_cases hj : j = i
    · subst hj
      simp only [if_true, ne_eq, not_true_eq_false, and_false, false_or]
      constructor
      · intro hfal
        cases hfal
      · rintro ⟨u, other, hu, hoth, hhol⟩
        exact absurd hhol (hote u (List.getElem?_eq_some_iff.mp hoth).1 hu other hoth)
    · rw [if_neg hj, hexc.inUse_iff j, exists_holder_iff hthr, and_iff_left hj]

theorem Exclusive.notHeldByOthers
    (hexc : Exclusive ⟨releaseHandle i system.handles, system.threads.set t thread'⟩) :
    NotHeldByOthers system t i := by
  intro u _ hu other hoth hhol
  have hmrk := (hexc.inUse_iff i).mpr
    ⟨u, other, by rw [getElem?_set_ne (Ne.symm hu)]; exact hoth, hhol⟩
  rw [inUseAt_releaseHandle, if_pos rfl] at hmrk
  cases hmrk

theorem step_get (hstp : step aws system (.get t request) = some system') :
    ∃ thread, system.threads[t]? = some thread ∧ thread.handle = none ∧
      system' = ⟨(getEasyHandle aws request system.handles).1,
        system.threads.set t (thread.receive (getEasyHandle aws request system.handles).2)⟩ := by
  obtain ⟨thread, hthr, hrst⟩ := bind_eq_some_iff.mp hstp
  split at hrst
  next hgua =>
    exact ⟨thread, hthr, hgua.1, (some.inj hrst).symm⟩
  · cases hrst

theorem step_release (hstp : step aws system (.release t) = some system') :
    ∃ thread i, system.threads[t]? = some thread ∧ thread.handle = some i ∧
      system' = ⟨releaseHandle i system.handles, system.threads.set t {}⟩ := by
  obtain ⟨thread, hthr, hrst⟩ := bind_eq_some_iff.mp hstp
  obtain ⟨i, hi, hrst⟩ := bind_eq_some_iff.mp hrst
  split at hrst
  · exact ⟨thread, i, hthr, hi, (some.inj hrst).symm⟩
  · cases hrst

theorem step_releaseNext (hstp : step aws system (.releaseNext t) = some system') :
    ∃ thread i, system.threads[t]? = some thread ∧ thread.pending.head? = some i ∧
      system' = ⟨releaseHandle i system.handles, system.threads.set t { thread with
        pending := thread.pending.tail
        released := thread.released || decide (thread.handle = some i) }⟩ := by
  obtain ⟨thread, hthr, hrst⟩ := bind_eq_some_iff.mp hstp
  obtain ⟨i, hi, hrst⟩ := bind_eq_some_iff.mp hrst
  exact ⟨thread, i, hthr, hi, (some.inj hrst).symm⟩

theorem step_starts (hstp : step aws system event = some system')
    (hsta : (∃ t, event = .overrun t) ∨ ∃ t chunk, event = .releaseChunk t chunk) :
    ∃ t thread thread', system.threads[t]? = some thread ∧ thread'.held = thread.held ∧
      system' = ⟨system.handles, system.threads.set t thread'⟩ := by
  rcases hsta with ⟨t, rfl⟩ | ⟨t, chunk, rfl⟩
  all_goals
    obtain ⟨thread, hthr, hrst⟩ := bind_eq_some_iff.mp hstp
    split at hrst
    · refine ⟨t, thread, _, hthr, ?_, (some.inj hrst).symm⟩
      rfl
    · cases hrst

theorem held_of_handle_none (hhan : thread.handle = none) : thread.held = none := by
  simp [Thread.held, hhan]

theorem held_releaseNext (thread : Thread) (i j : Nat) : Thread.held { thread with
      pending := thread.pending.tail
      released := thread.released || decide (thread.handle = some i) } = some j ↔
    thread.held = some j ∧ j ≠ i := by
  unfold Thread.held
  cases thread.released with
  | true => simp
  | false =>
    by_cases hi : thread.handle = some i
    · simp only [hi]
      simp [eq_comm]
    · simp only [hi, decide_false, Bool.or_false, Bool.false_eq_true, if_false]
      constructor
      · intro hj
        refine ⟨hj, ?_⟩
        rintro rfl
        exact hi hj
      · intro hj
        exact hj.1

theorem exclusive_step (aws : Awsv4) (system : System) (event : Event) (system' : System)
    (hexc : Exclusive system) (hsaf : Safe aws system event)
    (hstp : step aws system event = some system') : Exclusive system' := by
  cases event with
  | get t request =>
    obtain ⟨thread, hthr, hidl, rfl⟩ := step_get hstp
    rcases getEasyHandle_cases aws request system.handles with
      ⟨-, hres⟩ | ⟨-, hres⟩ | ⟨i, handle, hall, -, hget, hfre, hres⟩
    · rw [hres]
      exact hexc.set_thread hthr rfl
    · rw [hres]
      exact hexc.set_thread hthr rfl
    · have hcom := hsaf hall ⟨handle, mem_of_getElem? hget, hfre⟩
      rw [hres, hcom]
      exact hexc.mark hthr (held_of_handle_none hidl) hget hfre
        (configure_inUse aws request handle) rfl
  | release t =>
    obtain ⟨thread, i, hthr, hi, rfl⟩ := step_release hstp
    apply hexc.clear hthr (hsaf thread hthr i hi)
    intro j
    constructor
    · intro hnon
      cases hnon
    · rintro ⟨hhol, hne⟩
      rw [Thread.held, hi] at hhol
      split at hhol
      · cases hhol
      · exact absurd (some.inj hhol).symm hne
  | releaseNext t =>
    obtain ⟨thread, i, hthr, hi, rfl⟩ := step_releaseNext hstp
    exact hexc.clear hthr (hsaf thread hthr i hi) (held_releaseNext thread i)
  | overrun t =>
    obtain ⟨u, thread, thread', hthr, hhld, rfl⟩ := step_starts hstp (.inl ⟨t, rfl⟩)
    exact hexc.set_thread hthr hhld
  | releaseChunk t chunk =>
    obtain ⟨u, thread, thread', hthr, hhld, rfl⟩ := step_starts hstp (.inr ⟨t, chunk, rfl⟩)
    exact hexc.set_thread hthr hhld

theorem safe_of_exclusive (aws : Awsv4) (system : System) (event : Event) (system' : System)
    (hbef : Exclusive system) (hstp : step aws system event = some system')
    (haft : Exclusive system') : Safe aws system event := by
  cases event with
  | get t request =>
    obtain ⟨thread, hthr, hidl, rfl⟩ := step_get hstp
    intro hall hfree
    rcases getEasyHandle_cases aws request system.handles with
      ⟨href, -⟩ | ⟨hfll, -⟩ | ⟨i, handle, -, -, hget, hfre, hres⟩
    · rw [hall] at href
      cases href
    · obtain ⟨handle, hmem, hfre⟩ := hfree
      rw [hfll handle hmem] at hfre
      cases hfre
    · cases hfai : request.failsAfterMarking aws with
      | false => rfl
      | true =>
        rw [hres, hfai] at haft
        -- the mark is set, and the thread went away without the handle
        have hmrk : inUseAt (system.handles.set i (configure aws request handle).1) i = true := by
          rw [inUseAt_set hget, if_pos rfl, configure_inUse]
        obtain ⟨u, other, hoth, hhol⟩ := (haft.inUse_iff i).mp hmrk
        have hold : ∃ other, system.threads[u]? = some other ∧ other.held = some i := by
          cases getElem?_set_cases hoth with
          | inl hslf =>
            rw [hslf.2] at hhol
            exact ⟨thread, hslf.1 ▸ hthr, hhol⟩
          | inr hels => exact ⟨other, hels.2, hhol⟩
        obtain ⟨hole, hhld, hhod⟩ := hold
        have hwas := (hbef.inUse_iff i).mpr ⟨u, hole, hhld, hhod⟩
        rw [inUseAt_of_getElem? hget, hfre] at hwas
        cases hwas
  | release t =>
    obtain ⟨thread, i, hthr, hi, rfl⟩ := step_release hstp
    intro same hsam j hj
    rw [mem_def, hthr, some.injEq] at hsam
    rw [mem_def, ← hsam, hi, some.injEq] at hj
    exact hj ▸ haft.notHeldByOthers
  | releaseNext t =>
    obtain ⟨thread, i, hthr, hi, rfl⟩ := step_releaseNext hstp
    intro same hsam j hj
    rw [mem_def, hthr, some.injEq] at hsam
    rw [mem_def, ← hsam, hi, some.injEq] at hj
    exact hj ▸ haft.notHeldByOthers
  | overrun t => trivial
  | releaseChunk t chunk => trivial

theorem exclusive_initial (maxHandles numThreads : Nat) : Exclusive (initial maxHandles numThreads) := by
  have hidl : ∀ (t : Nat) (thread : Thread),
      (initial maxHandles numThreads).threads[t]? = some thread → thread.held = none := by
    intro t thread hthr
    rw [eq_of_mem_replicate (mem_of_getElem? hthr)]
    rfl
  constructor
  · intro i
    constructor
    · intro hmrk
      simp only [initial, inUseAt, getElem?_replicate] at hmrk
      split at hmrk
      · cases hmrk
      · cases hmrk
    · rintro ⟨t, thread, hthr, hhol⟩
      rw [hidl t thread hthr] at hhol
      cases hhol
  · intro t u i thread other hthr _ hhol
    rw [hidl t thread hthr] at hhol
    cases hhol

/-- In a run of any number of threads on a pool of any size, handles stay with
their holders throughout exactly when every step respects the holders. -/
theorem exclusive_throughout_iff_safe (aws : Awsv4) (maxHandles numThreads : Nat) (events : List Event) :
    Throughout (step aws) Exclusive (initial maxHandles numThreads) events ↔
      Guarded (step aws) (Safe aws) (initial maxHandles numThreads) events :=
  throughout_iff_guarded Exclusive (fun _ hexcl => hexcl) (exclusive_step aws)
    (safe_of_exclusive aws) events (exclusive_initial maxHandles numThreads)

def plainAws : Awsv4 where
  computeAwsv4Signature url _ publicKey _ region service :=
    some ("AWS4-HMAC-SHA256 Credential=" ++ publicKey ++ "/" ++ region ++ "/" ++ service ++
      "/aws4_request, Signature=" ++ url.str)
  iso8601Date _ := "20220513T000000Z"

def plainRequest (chunk : Nat) : Request :=
  { chunk := chunk, url := ⟨.https, "https://ssotherone.org/opendap/data/fnoc1.nc"⟩, creds := [],
    time := 0 }

/-- Two transfers are under way when the second one overruns its buffer. Before it
is done with releasing all handles, a third thread asks for one. -/
def overrunRun : List Event :=
  [.get 0 (plainRequest 0), .get 1 (plainRequest 1), .overrun 1, .releaseNext 1,
    .get 2 (plainRequest 2)]

/-- The third thread gets the handle of the first. -/
theorem overrunRun_not_exclusive : (run (step plainAws) (initial 2 3) overrunRun).isSome ∧
      ¬ Throughout (step plainAws) Exclusive (initial 2 3) overrunRun := by
  have hrun : run (step plainAws) (initial 2 3) overrunRun = some
      ⟨[{ inUse := true, url := some (plainRequest 2).url, chunk := some 2 },
        { inUse := true, url := some (plainRequest 1).url, chunk := some 1 }],
        [{ handle := some 0 }, { handle := some 1, pending := [1] }, { handle := some 0 }]⟩ := by
    decide
  refine ⟨by rw [hrun]; rfl, ?_⟩
  intro hthru
  have hexcl := hthru.last hrun
  have hsame := hexcl.holder_unique 0 2 0 _ _ rfl rfl rfl rfl
  cases hsame

theorem exclusive_throughout_iff_safe_lone : Guarded (step plainAws) (Safe plainAws) (initial 2 2)
        [.get 0 (plainRequest 0), .overrun 0, .releaseNext 0, .releaseNext 0, .release 0,
          .get 1 (plainRequest 1)] ∧ Throughout (step plainAws) Exclusive (initial 2 2)
        [.get 0 (plainRequest 0), .overrun 0, .releaseNext 0, .releaseNext 0, .release 0,
          .get 1 (plainRequest 1)] :=
  ⟨by decide, (exclusive_throughout_iff_safe plainAws 2 2 _).mpr (by decide)⟩

end Bes.Dmrpp.CurlHandlePool
