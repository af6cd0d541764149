import Bes.Dmrpp.CurlHandlePool

/-! The HTTP headers in force on a handle while it serves a request.
`get_easy_handle` sets them where the request has to be signed; neither it nor a
release takes them away again. -/
namespace Bes.Dmrpp.RequestHeaders
open Lib.Run Dmrpp.CurlHandlePool Option Function

def expectedHeaders (aws : Awsv4) (request : Request) : List String :=
  match request.s3Credentials.bind (request.signature aws) with
  | none => []
  | some authHeader => signedHeaders aws request authHeader

structure State where
  handles : List EasyHandle
  serving : Nat → Option Request

inductive Call
  | get (request : Request)
  | release (i : Nat)
  | releaseChunk (chunk : Nat)
  | releaseAll

/-- The record of requests when `get_easy_handle` is over; `found` is the handle
that it has worked on. -/
def recordServed (serving : Nat → Option Request) (request : Request) (found : Option Nat) :
    Outcome → Nat → Option Request
  | .returned i => update serving i (some request)
  | .null => serving
  | .threw => match found with
    | none => serving
    | some i => update serving i none

def freeHandle (handles : List EasyHandle) : Option Nat :=
  handles.findIdx? fun handle => !handle.inUse

def step (aws : Awsv4) (state : State) : Call → Option State
  | .get request =>
      let (handles, outcome) := getEasyHandle aws request state.handles
      some ⟨handles, recordServed state.serving request
        (if request.isAllowed then freeHandle state.handles else none) outcome⟩
  | .release i => some { state with handles := releaseHandle i state.handles }
  | .releaseChunk chunk =>
      match findChunk chunk state.handles with
      | none => some state
      | some i => some { state with handles := releaseHandle i state.handles }
  | .releaseAll => some { state with handles := state.handles.map EasyHandle.release }

def initial (maxHandles : Nat) : State := ⟨List.replicate maxHandles {}, fun _ => none⟩

def HeadersMatch (aws : Awsv4) (state : State) : Prop :=
  ∀ i handle request, state.handles[i]? = some handle → state.serving i = some request →
    handle.httpHeader = expectedHeaders aws request

def Unsoiled (aws : Awsv4) (state : State) : Call → Prop
  | .get request => request.isAllowed = true → request.failsAfterMarking aws = false →
      request.s3Credentials = none →
      ∀ i ∈ freeHandle state.handles, ∀ handle ∈ state.handles[i]?, handle.httpHeader = []
  | .release _ => True
  | .releaseChunk _ => True
  | .releaseAll => True

instance (aws : Awsv4) (state : State) : DecidablePred (Unsoiled aws state)
  | .get _ => inferInstanceAs (Decidable (_ → _ → _ →
      ∀ i ∈ freeHandle state.handles, ∀ handle ∈ state.handles[i]?, _))
  | .release _ | .releaseChunk _ | .releaseAll => isTrue trivial

variable {state : State}

theorem expectedHeaders_of_none (hnone : request.s3Credentials = none) :
    expectedHeaders aws request = [] := by
  rw [expectedHeaders, hnone]
  rfl

theorem configure_httpHeader (handle : EasyHandle) (hcom : request.failsAfterMarking aws = false) :
    (configure aws request handle).1.httpHeader =
      if request.s3Credentials = none then handle.httpHeader else expectedHeaders aws request := by
  simp only [Request.failsAfterMarking, Bool.or_eq_false_iff] at hcom
  cases hcre : request.s3Credentials with
  | none => simp [configure, hcom.1, hcre]
  | some credentials =>
    cases hsig : request.signature aws credentials with
    | none => simp [hcre, hsig] at hcom
    | some authHeader =>
      have hset : request.headerSetoptFails = false := by
        simpa [hcre, hsig] using hcom.2
      simp [configure, expectedHeaders, hcom.1, hcre, hsig, hset]

theorem HeadersMatch.of_releases (hmatch : HeadersMatch aws state)
    (hkept : ∀ (i : Nat) (handle : EasyHandle), handles[i]? = some handle →
      ∃ old, state.handles[i]? = some old ∧ handle.httpHeader = old.httpHeader) :
    HeadersMatch aws { state with handles := handles } := by
  intro i handle request hget hser
  obtain ⟨old, hold, hhdr⟩ := hkept i handle hget
  rw [hhdr]
  exact hmatch i old request hold hser

theorem httpHeader_releaseHandle {i j : Nat} (hget : (releaseHandle i handles)[j]? = some handle) :
    ∃ old, handles[j]? = some old ∧ handle.httpHeader = old.httpHeader := by
  rw [releaseHandle, List.getElem?_modify] at hget
  obtain ⟨old, hold, heq⟩ := map_eq_some_iff.mp hget
  refine ⟨old, hold, ?_⟩
  subst heq
  split
  · rfl
  · rfl

theorem httpHeader_releaseAll {handles : List EasyHandle} {j : Nat}
    (hget : (handles.map EasyHandle.release)[j]? = some handle) :
    ∃ old, handles[j]? = some old ∧ handle.httpHeader = old.httpHeader := by
  rw [List.getElem?_map] at hget
  obtain ⟨old, hold, rfl⟩ := map_eq_some_iff.mp hget
  exact ⟨old, hold, rfl⟩

theorem HeadersMatch.set (hmatch : HeadersMatch aws state) {i : Nat}
    (hnew : ∀ request ∈ served, new.httpHeader = expectedHeaders aws request) :
    HeadersMatch aws ⟨state.handles.set i new, update state.serving i served⟩ := by
  intro j handle request hget hser
  dsimp only at hget hser
  cases getElem?_set_cases hget with
  | inl hself =>
    rw [hself.1, update_self] at hser
    rw [hself.2]
    exact hnew request hser
  | inr hels =>
    rw [update_of_ne hels.1] at hser
    exact hmatch j handle request hels.2 hser

theorem step_get_found {i : Nat}
    (hall : request.isAllowed = true) (hfre : freeHandle state.handles = some i)
    (hresult : getEasyHandle aws request state.handles =
      (state.handles.set i (configure aws request handle).1,
        if request.failsAfterMarking aws then .threw else .returned i)) :
    step aws state (.get request) = some ⟨state.handles.set i (configure aws request handle).1,
      update state.serving i (if request.failsAfterMarking aws then none else some request)⟩ := by
  simp only [step, hresult, hall, hfre]
  cases request.failsAfterMarking aws <;> rfl

theorem headersMatch_step (aws : Awsv4) (state : State) (call : Call) (state' : State)
    (hmatch : HeadersMatch aws state) (huns : Unsoiled aws state call)
    (hstep : step aws state call = some state') : HeadersMatch aws state' := by
  cases call with
  | get request =>
    rcases getEasyHandle_cases aws request state.handles with
      ⟨href, hresult⟩ | ⟨-, hresult⟩ | ⟨i, handle, hall, hfre, hget, -, hresult⟩
    · simp only [step, hresult, href] at hstep
      exact some.inj hstep ▸ hmatch
    · simp only [step, hresult] at hstep
      exact some.inj hstep ▸ hmatch
    · rw [step_get_found hall hfre hresult, some.injEq] at hstep
      rw [← hstep]
      apply hmatch.set
      intro served hsrv
      cases hfail : request.failsAfterMarking aws with
      | true => simp [hfail] at hsrv
      | false =>
        have hsame : request = served := by simpa [hfail] using hsrv
        rw [configure_httpHeader handle hfail, ← hsame]
        split
        next hnone =>
          rw [expectedHeaders_of_none hnone]
          exact huns hall hfail hnone i hfre handle hget
        · rfl
  | release i =>
    rw [step, some.injEq] at hstep
    rw [← hstep]
    exact hmatch.of_releases fun _ _ => httpHeader_releaseHandle
  | releaseChunk chunk =>
    simp only [step] at hstep
    split at hstep
    · exact some.inj hstep ▸ hmatch
    · rw [← some.inj hstep]
      exact hmatch.of_releases fun _ _ => httpHeader_releaseHandle
  | releaseAll =>
    rw [step, some.injEq] at hstep
    rw [← hstep]
    exact hmatch.of_releases fun _ _ => httpHeader_releaseAll

theorem unsoiled_of_headersMatch (aws : Awsv4) (state : State) (call : Call) (state' : State)
    (_ : HeadersMatch aws state) (hstep : step aws state call = some state')
    (hafter : HeadersMatch aws state') : Unsoiled aws state call := by
  cases call with
  | get request =>
    intro hall hcom hnone i hfre handle hget
    rcases getEasyHandle_cases aws request state.handles with
      ⟨href, -⟩ | ⟨hfill, -⟩ | ⟨j, other, -, hfound, hother, -, hresult⟩
    · rw [hall] at href
      cases href
    · obtain ⟨hi, hunu, -⟩ := List.findIdx?_eq_some_iff_getElem.mp hfre
      rw [hfill _ (List.getElem_mem hi)] at hunu
      cases hunu
    · have hidx : j = i := some.inj (hfound.symm.trans hfre)
      subst hidx
      have hhan : other = handle := some.inj (hother.symm.trans hget)
      subst hhan
      rw [step_get_found hall hfound hresult, some.injEq, hcom] at hstep
      rw [← hstep] at hafter
      have hlt := (List.getElem?_eq_some_iff.mp hother).1
      have hhdr := hafter j _ request (List.getElem?_set_self hlt) (update_self _ _ _)
      rw [configure_httpHeader other hcom, if_pos hnone, expectedHeaders_of_none hnone] at hhdr
      exact hhdr
  | release i => trivial
  | releaseChunk chunk => trivial
  | releaseAll => trivial

theorem headersMatch_initial (aws : Awsv4) (maxHandles : Nat) :
    HeadersMatch aws (initial maxHandles) := by
  intro i handle request _ hser
  cases hser

/-- Over every sequence of calls on a pool of any size, the headers in force on a
handle are those of the request it serves exactly when no request without
credentials is given a handle that was used for a signed one. -/
theorem headersMatch_throughout_iff_unsoiled (aws : Awsv4) (maxHandles : Nat) (calls : List Call) :
    Throughout (step aws) (HeadersMatch aws) (initial maxHandles) calls ↔
      Guarded (step aws) (Unsoiled aws) (initial maxHandles) calls :=
  throughout_iff_guarded (HeadersMatch aws) (fun _ hmatch => hmatch) (headersMatch_step aws)
    (unsoiled_of_headersMatch aws) calls (headersMatch_initial aws maxHandles)

def bucketRequest : Request :=
  { chunk := 0, url := ⟨.https, "https://s3.amazonaws.com/cloudydap/samples/d_int.h5"⟩, time := 0,
    creds := [("https://s3.amazonaws.com/cloudydap/",
      ⟨"https://s3.amazonaws.com/cloudydap/", "AKID", "secret", "us-east-1"⟩)] }

def reuseCalls : List Call := [.get bucketRequest, .release 0, .get (plainRequest 1)]

/-- The second request goes out with the `Authorization` header of the first. -/
theorem reuseCalls_not_headersMatch :
    ¬ Throughout (step plainAws) (HeadersMatch plainAws) (initial 1) reuseCalls := by
  intro hthru
  have hmatch := hthru.last rfl
  have hhdr := hmatch 0 _ (plainRequest 1) rfl rfl
  exact absurd hhdr (by decide)

theorem headersMatch_throughout_iff_unsoiled_signed :
    Guarded (step plainAws) (Unsoiled plainAws) (initial 1)
        [.get (plainRequest 1), .release 0, .get bucketRequest, .releaseAll, .get bucketRequest] ∧
      Throughout (step plainAws) (HeadersMatch plainAws) (initial 1)
        [.get (plainRequest 1), .release 0, .get bucketRequest, .releaseAll, .get bucketRequest] :=
  ⟨by decide, (headersMatch_throughout_iff_unsoiled plainAws 1 _).mpr (by decide)⟩

end Bes.Dmrpp.RequestHeaders
