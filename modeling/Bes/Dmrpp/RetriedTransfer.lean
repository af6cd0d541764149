import Bes.Dmrpp.ContiguousRead
import Bes.Dmrpp.CurlHandlePool

/-! One transfer with its retries. libcurl hands the headers and the body of every
response to two callbacks, which keep the write position and the content type in
the chunk. The retry loop belongs to another module and knows of neither, so the
attempts of one transfer are written one after the other. -/
namespace Bes.Dmrpp.RetriedTransfer
open Lib.Buffer List
open Dmrpp.Array Dmrpp.ContiguousRead Dmrpp.CurlHandlePool

abbrev Text := List Char

inductive Failure
  | internalError (message : String)
  | syntaxUserError (message : String)
  | forbiddenError (message : String)
  | notFoundError (message : String)
  | timeoutError (message : String)
  | accessViolation
deriving DecidableEq

structure TransferChunk extends Chunk where
  readBufferIsMine : Bool := true
  bytesRead : Nat := 0
  isRead : Bool := false
  responseContentType : Text := []
deriving DecidableEq

inductive CurlCode
  | ok
  | sslConnectError
  | sslCacertBadfile
  | gotNothing
  | other (code : Nat)
deriving DecidableEq

/-- The calls libcurl makes while a response arrives. A header line is given
without its line end, as the callback takes it. -/
inductive Callback
  | header (line : Text)
  | write (buffer : List Byte)
deriving DecidableEq

/-- What one `curl_easy_perform` brings: the callbacks it makes, its code, and the
answers to `curl_easy_getinfo` afterwards. -/
structure Attempt where
  callbacks : List Callback
  curlCode : CurlCode := .ok
  errorMessage : String := ""
  effectiveUrl : Option String
  infoCode : CurlCode := .ok
  httpCode : Nat
deriving DecidableEq

/-- The parts of an XML document that `process_s3_error_response` looks at. -/
structure XmlError where
  name : String
  code : String
  message : String
deriving DecidableEq

structure Env where
  loadString : Text → Option XmlError
  regexMatch : String → String → Nat
  noRetryUrlRegex : List String
  heap : Nat → Byte

/-- The content type on record after a header line. The value is what follows the
last blank, so a parameter of the media type takes the place of the type. -/
def contentTypeAfter (contentType header : Text) : Text :=
  if "Content-Type".toList <:+: header then (header.reverse.takeWhile (· ≠ ' ')).reverse
  else contentType

def chunkHeaderCallback (chunk : TransferChunk) (header : Text) : TransferChunk :=
  { chunk with responseContentType := contentTypeAfter chunk.responseContentType header }

def isXml (contentType : Text) : Bool := decide ("application/xml".toList <:+: contentType)

def xmlMessage (buffer : List Byte) : Text :=
  let text := (buffer.takeWhile (· ≠ 0)).map fun byte => Char.ofNat byte.toNat
  (text.reverse.dropWhile (· ∈ ['\t', '\n', '\x0b', '\x0c', '\r', ' ', '0'])).reverse

def processS3ErrorResponse (env : Env) (dataUrl : String) (xml : Text) : Failure :=
  match env.loadString xml with
  | none =>
      .internalError "The underlying data store returned an unintelligible error message."
  | some error =>
      if error.name ≠ "Error" then
        .internalError "The underlying data store returned a bogus error message."
      else if error.code = "AccessDenied" then
        .forbiddenError ("Chunk::process_s3_error_response() - ACCESS DENIED - The underlying " ++
          "object store has refused access to: " ++ dataUrl ++ " Object Store Message: " ++
          error.message)
      else
        .internalError ("Chunk::process_s3_error_response() - ERROR - The underlying object " ++
          "store returned an error. (Tried: " ++ dataUrl ++ ") Object Store Message: " ++
          error.message)

def overflowMessage (chunk : TransferChunk) (nbytes : Nat) : String :=
  "Chunk::chunk_write_data() - ERROR! The number of bytes_read: " ++ toString chunk.bytesRead ++
    " plus the number of bytes to read: " ++ toString nbytes ++
    " is larger than the target buffer size: " ++ toString chunk.readBuffer.length

def chunkWriteData (env : Env) (chunk : TransferChunk) (buffer : List Byte) :
    Except Failure TransferChunk :=
  if isXml chunk.responseContentType then
    .error (processS3ErrorResponse env (chunk.dataUrl.getD "") (xmlMessage buffer))
  else if chunk.readBuffer.length < chunk.bytesRead + buffer.length then
    .error (.internalError (overflowMessage chunk buffer.length))
  else
    match memcpy chunk.readBuffer chunk.bytesRead buffer 0 buffer.length with
    | none => .error .accessViolation
    | some readBuffer =>
        .ok { chunk with readBuffer := readBuffer, bytesRead := chunk.bytesRead + buffer.length }

def handleCallback (env : Env) (chunk : TransferChunk) : Callback → Except Failure TransferChunk
  | .header line => .ok (chunkHeaderCallback chunk line)
  | .write buffer => chunkWriteData env chunk buffer

/-- `curl_easy_perform` as far as the chunk sees it. -/
def deliver (env : Env) (chunk : TransferChunk) (callbacks : List Callback) :
    Except Failure TransferChunk :=
  callbacks.foldlM (handleCallback env) chunk

def httpClientErrors : List String :=
  ["Bad Request:", "Unauthorized: Contact the server administrator.", "Payment Required.",
   "Forbidden: Contact the server administrator.",
   "Not Found: The underlying data source or server could not be found.",
   "Method Not Allowed.", "Not Acceptable.", "Proxy Authentication Required.",
   "Request Time-out.", "Conflict.", "Gone.", "Length Required.", "Precondition Failed.",
   "Request Entity Too Large.", "Request URI Too Large.", "Unsupported Media Type.",
   "Requested Range Not Satisfiable.", "Expectation Failed."]

def httpServerErrors : List String :=
  ["Internal Server Error.", "Not Implemented.", "Bad Gateway.", "Service Unavailable.",
   "Gateway Time-out.", "HTTP Version Not Supported."]

def httpStatusToString (status : Nat) : String :=
  if 400 ≤ status ∧ status ≤ 417 then httpClientErrors.getD (status - 400) ""
  else if 500 ≤ status ∧ status ≤ 505 then httpServerErrors.getD (status - 500) ""
  else "Unknown HTTP Error: " ++ toString status

def getEffectiveUrl (effectiveUrl : Option String) (requestedUrl : String) :
    Except Failure String :=
  match effectiveUrl with
  | none => .error (.internalError ("CurlUtils::get_effective_url() - Unable to determine " ++
      "CURLINFO_EFFECTIVE_URL! Requested URL: " ++ requestedUrl))
  | some url => .ok url

def isRetryable (env : Env) (targetUrl : String) : Bool :=
  env.noRetryUrlRegex.all fun regex => env.regexMatch regex targetUrl ≠ targetUrl.length

def evalCurlEasyPerformCode (requestedUrl : String) (attempt : Attempt) : Except Failure Bool := do
  let lastAccessedUrl ← getEffectiveUrl attempt.effectiveUrl requestedUrl
  match attempt.curlCode with
  | .sslConnectError | .sslCacertBadfile | .gotNothing => .ok false
  | .ok => .ok true
  | .other _ => .error (.internalError ("ERROR - Problem with data transfer. Message: " ++
      attempt.errorMessage ++ " CURLINFO_EFFECTIVE_URL: " ++ lastAccessedUrl))

def statusMessage (requestedUrl lastAccessedUrl : String) (httpCode : Nat) : String :=
  (if 400 ≤ httpCode then "ERROR - The HTTP GET request for the source URL: " ++ requestedUrl ++
      " FAILED. CURLINFO_EFFECTIVE_URL: " ++ lastAccessedUrl ++ " " else "") ++
    "The response had an HTTP status of " ++ toString httpCode ++ " which means '" ++
    httpStatusToString httpCode ++ "'"

/-- The `switch` at the end of `eval_http_get_response`. -/
def evalHttpCode (env : Env) (requestedUrl lastAccessedUrl : String) (httpCode : Nat) :
    Except Failure Bool :=
  let message := statusMessage requestedUrl lastAccessedUrl httpCode
  if httpCode = 0 then
    if "file://".toList.isPrefixOf requestedUrl.toList then .ok true
    else .error (.internalError message)
  else if httpCode = 200 ∨ httpCode = 206 then .ok true
  else if httpCode = 400 then .error (.syntaxUserError message)
  else if httpCode = 401 ∨ httpCode = 402 ∨ httpCode = 403 then .error (.forbiddenError message)
  else if httpCode = 404 then .error (.notFoundError message)
  else if httpCode = 408 then .error (.timeoutError message)
  else if httpCode = 422 ∨ httpCode = 500 ∨ httpCode = 502 ∨ httpCode = 503 ∨ httpCode = 504 then
    if isRetryable env lastAccessedUrl then .ok false
    else .error (.internalError (message ++ " The semantics of this particular last accessed " ++
      "URL indicate that it should not be retried."))
  else .error (.internalError message)

def evalHttpGetResponse (env : Env) (requestedUrl : String) (attempt : Attempt) :
    Except Failure Bool := do
  let lastAccessedUrl ← getEffectiveUrl attempt.effectiveUrl requestedUrl
  match attempt.infoCode with
  | .gotNothing => .ok false
  | .ok => evalHttpCode env requestedUrl lastAccessedUrl attempt.httpCode
  | _ => .error (.internalError ("Error acquiring HTTP response code: " ++ attempt.errorMessage))

/-- Whether an attempt has succeeded; `false` asks for another one. -/
def evaluate (env : Env) (requestedUrl : String) (attempt : Attempt) : Except Failure Bool := do
  if ← evalCurlEasyPerformCode requestedUrl attempt then
    evalHttpGetResponse env requestedUrl attempt
  else .ok false

def retryLimit : Nat := 10

/-- The loop of `super_easy_perform` with `remaining` attempts left. `server` says
what each attempt would bring. -/
def performFrom (env : Env) (targetUrl : String) (server : Nat → Attempt) :
    Nat → Nat → TransferChunk → Except Failure TransferChunk
  | 0, _, _ => .error (.internalError ("CurlUtils::super_easy_perform() - ERROR - Made " ++
      toString retryLimit ++ " failed attempts to retrieve the URL " ++ targetUrl ++
      " The retry limit has been exceeded. Giving up!"))
  | remaining + 1, attempts, chunk => do
      let chunk ← deliver env chunk (server attempts).callbacks
      if ← evaluate env targetUrl (server attempts) then .ok chunk
      else performFrom env targetUrl server remaining (attempts + 1) chunk

/-- `super_easy_perform`; `handleUrl` is the URL that the handle reports before the
first attempt. -/
def superEasyPerform (env : Env) (handleUrl : Option String) (server : Nat → Attempt)
    (chunk : TransferChunk) : Except Failure TransferChunk := do
  let targetUrl ← getEffectiveUrl handleUrl ""
  if targetUrl = "" then .error (.internalError "URL acquisition failed.")
  else performFrom env targetUrl server retryLimit 0 chunk

/-- The handle a chunk is given: `d_url`, and the URL its curl handle reports. -/
structure Handle where
  url : Url
  reportedUrl : Option String
deriving DecidableEq

def readData (env : Env) (handle : Handle) (server : Nat → Attempt) (chunk : TransferChunk) :
    Except Failure TransferChunk := do
  if handle.url.protocol = .https ∨ handle.url.protocol = .http then
    let chunk ← superEasyPerform env handle.reportedUrl server chunk
    .ok { chunk with isRead := true }
  else
    let chunk ← deliver env chunk (server 0).callbacks
    if (server 0).curlCode = .ok then .ok { chunk with isRead := true }
    else .error (.internalError ("CurlHandlePool::read_data() - ERROR - Data transfer " ++
      "error: " ++ (server 0).errorMessage))

def setRbufToSize (env : Env) (chunk : TransferChunk) : TransferChunk :=
  { chunk with
    readBuffer := (range chunk.size).map env.heap
    readBufferIsMine := true
    bytesRead := 0 }

def prepared (env : Env) (chunk : TransferChunk) : TransferChunk :=
  if chunk.readBufferIsMine then setRbufToSize env chunk else chunk

def readChunk (env : Env) (handle : Option Handle) (server : Nat → Attempt)
    (chunk : TransferChunk) : Except Failure TransferChunk := do
  if chunk.isRead then .ok chunk
  else
    let chunk := prepared env chunk
    let chunk ←
      if chunk.usesFillValue then
        match loadFillValues chunk.fillValue chunk.readBuffer.length with
        | none => .error .accessViolation
        | some readBuffer =>
            .ok { chunk with readBuffer := readBuffer, bytesRead := chunk.readBuffer.length }
      else
        match handle with
        | none => .error (.internalError "Chunk::read_chunk() - No more libcurl handles.")
        | some handle => readData env handle server chunk
    if chunk.size ≠ chunk.bytesRead then
      .error (.internalError ("Wrong number of bytes read for chunk; read: " ++
        toString chunk.bytesRead ++ ", expected: " ++ toString chunk.size))
    else .ok { chunk with isRead := true }

def body : List Callback → List Byte
  | [] => []
  | .header _ :: callbacks => body callbacks
  | .write buffer :: callbacks => buffer ++ body callbacks

def PlainWrites : Text → List Callback → Prop
  | _, [] => True
  | contentType, .header line :: callbacks =>
      PlainWrites (contentTypeAfter contentType line) callbacks
  | contentType, .write _ :: callbacks =>
      isXml contentType = false ∧ PlainWrites contentType callbacks

instance decidablePlainWrites : (contentType : Text) → (callbacks : List Callback) →
    Decidable (PlainWrites contentType callbacks)
  | _, [] => isTrue trivial
  | contentType, .header line :: callbacks =>
      decidablePlainWrites (contentTypeAfter contentType line) callbacks
  | contentType, .write _ :: callbacks =>
      have := decidablePlainWrites contentType callbacks
      inferInstanceAs (Decidable (_ ∧ _))

@[simp] theorem body_append (first second : List Callback) :
    body (first ++ second) = body first ++ body second := by
  induction first with
  | nil => rfl
  | cons callback first ih =>
    cases callback with
    | header line => simpa [body] using ih
    | write buffer => simp [body, ih]

def lastContentType : Text → List Callback → Text
  | contentType, [] => contentType
  | contentType, .header line :: callbacks =>
      lastContentType (contentTypeAfter contentType line) callbacks
  | contentType, .write _ :: callbacks => lastContentType contentType callbacks

def received (chunk : TransferChunk) (callbacks : List Callback) : TransferChunk :=
  { chunk with
    readBuffer := overwrite chunk.readBuffer chunk.bytesRead (body callbacks)
    bytesRead := chunk.bytesRead + (body callbacks).length
    responseContentType := lastContentType chunk.responseContentType callbacks }

theorem chunkWriteData_ok_iff (env : Env) (chunk after : TransferChunk) (buffer : List Byte) :
    chunkWriteData env chunk buffer = .ok after ↔ isXml chunk.responseContentType = false ∧
      chunk.bytesRead + buffer.length ≤ chunk.readBuffer.length ∧
      after = received chunk [.write buffer] := by
  unfold chunkWriteData
  cases hxml : isXml chunk.responseContentType with
  | true => simp
  | false =>
    by_cases hroom : chunk.bytesRead + buffer.length ≤ chunk.readBuffer.length
    · rw [if_neg (by simp), if_neg (by omega), memcpy_whole _ _ _ hroom]
      simp [received, body, lastContentType, hroom, eq_comm]
    · rw [if_neg (by simp), if_pos (by omega)]
      simp [hroom]

theorem deliver_cons (env : Env) (chunk : TransferChunk) (callback : Callback)
    (callbacks : List Callback) : deliver env chunk (callback :: callbacks) =
      (handleCallback env chunk callback).bind fun chunk => deliver env chunk callbacks := rfl

theorem deliver_append (env : Env) (chunk : TransferChunk) (first second : List Callback) :
    deliver env chunk (first ++ second) =
      (deliver env chunk first).bind fun chunk => deliver env chunk second := by
  rw [deliver, foldlM_append]
  rfl

theorem deliver_ok_iff (env : Env) (callbacks : List Callback) (chunk after : TransferChunk)
    (hsta : chunk.bytesRead ≤ chunk.readBuffer.length) :
    deliver env chunk callbacks = .ok after ↔ PlainWrites chunk.responseContentType callbacks ∧
      chunk.bytesRead + (body callbacks).length ≤ chunk.readBuffer.length ∧
      after = received chunk callbacks := by
  induction callbacks generalizing chunk with
  | nil => simp [deliver, PlainWrites, body, received, lastContentType, hsta, eq_comm, pure,
      Except.pure]
  | cons callback callbacks ih =>
    rw [deliver_cons]
    cases callback with
    | header line =>
      exact ih (chunkHeaderCallback chunk line) hsta
    | write buffer =>
      simp only [PlainWrites, body, length_append]
      cases hwritten : chunkWriteData env chunk buffer with
      | error failure =>
        simp only [handleCallback, hwritten, Except.bind, reduceCtorEq, false_iff, not_and]
        intro hplace hroom
        have hok := (chunkWriteData_ok_iff env chunk _ buffer).mpr ⟨hplace.1, by omega, rfl⟩
        rw [hwritten] at hok
        cases hok
      | ok next =>
        obtain ⟨hplace, hroom, rfl⟩ := (chunkWriteData_ok_iff env chunk next buffer).mp hwritten
        have hnext := ih (received chunk [.write buffer]) (by
          simp only [received, body, append_nil]
          rw [length_overwrite hroom]
          exact hroom)
        simp only [handleCallback, hwritten, Except.bind]
        rw [hnext]
        simp only [received, body, append_nil, lastContentType, hplace, true_and,
          length_overwrite hroom, overwrite_overwrite _ hroom, length_append, add_assoc]

/-- The callbacks of the attempts from `first` to `first + n`, in their order. -/
def callbacksOf (server : Nat → Attempt) (first n : Nat) : List Callback :=
  (range (n + 1)).flatMap fun i => (server (first + i)).callbacks

theorem callbacksOf_succ (server : Nat → Attempt) (first n : Nat) : callbacksOf server first (n + 1) =
      (server first).callbacks ++ callbacksOf server (first + 1) n := by
  rw [callbacksOf, range_succ_eq_map, flatMap_cons, flatMap_map]
  simp only [callbacksOf, add_zero, Nat.succ_eq_add_one, add_comm, add_left_comm]

/-- The loop resets nothing between attempts: after `n` failures and a success the
chunk is as after a single delivery of everything the attempts brought. -/
theorem performFrom_eq_deliver (env : Env) (targetUrl : String) (server : Nat → Attempt)
    (n remaining first : Nat) (chunk : TransferChunk) (hlim : n < remaining)
    (hfail : ∀ i < n, evaluate env targetUrl (server (first + i)) = .ok false)
    (hsuc : evaluate env targetUrl (server (first + n)) = .ok true) :
    performFrom env targetUrl server remaining first chunk =
      deliver env chunk (callbacksOf server first n) := by
  induction n generalizing remaining first chunk with
  | zero =>
    cases remaining with
    | zero => omega
    | succ remaining =>
      rw [add_zero] at hsuc
      simp only [performFrom, hsuc, callbacksOf, zero_add, range_one, flatMap_singleton, add_zero]
      cases deliver env chunk (server first).callbacks <;> rfl
  | succ n ih =>
    cases remaining with
    | zero => omega
    | succ remaining =>
      have hfirst := hfail 0 (Nat.succ_pos n)
      rw [add_zero] at hfirst
      simp only [performFrom, hfirst]
      rw [callbacksOf_succ, deliver_append]
      -- the chunk that the failed attempt leaves is where the next attempt starts
      cases deliver env chunk (server first).callbacks with
      | error failure => rfl
      | ok next =>
        apply ih remaining (first + 1) next (by omega)
        · intro i hi
          have hlat := hfail (i + 1) (by omega)
          rwa [show first + 1 + i = first + (i + 1) by omega]
        · rwa [show first + 1 + n = first + (n + 1) by omega]

structure UnreadChunk extends TransferChunk where
  unread : isRead = false
  transferred : usesFillValue = false
  placed : readBufferIsMine = true ∨ (readBuffer.length = size ∧ bytesRead = 0)

structure HttpHandle extends Handle where
  targetUrl : String
  reports : reportedUrl = some targetUrl
  targetUrl_ne : targetUrl ≠ ""
  overHttp : url.protocol = .https ∨ url.protocol = .http

theorem UnreadChunk.prepared_spec (env : Env) (chunk : UnreadChunk) :
    (prepared env chunk.toTransferChunk).readBuffer.length = chunk.size ∧
    (prepared env chunk.toTransferChunk).bytesRead = 0 := by
  unfold prepared
  split
  · simp [setRbufToSize]
  next hother =>
    exact chunk.placed.resolve_left hother

@[simp] theorem prepared_size (env : Env) (chunk : TransferChunk) :
    (prepared env chunk).size = chunk.size := by
  unfold prepared
  split <;> rfl

@[simp] theorem prepared_usesFillValue (env : Env) (chunk : TransferChunk) :
    (prepared env chunk).usesFillValue = chunk.usesFillValue := by
  unfold prepared
  split <;> rfl

@[simp] theorem prepared_responseContentType (env : Env) (chunk : TransferChunk) :
    (prepared env chunk).responseContentType = chunk.responseContentType := by
  unfold prepared
  split <;> rfl

theorem HttpHandle.readData_eq (env : Env) (handle : HttpHandle) (server : Nat → Attempt)
    (chunk : TransferChunk) : readData env handle.toHandle server chunk =
      (performFrom env handle.targetUrl server retryLimit 0 chunk).map
        fun chunk => { chunk with isRead := true } := by
  simp only [readData, handle.overHttp, superEasyPerform, handle.reports, getEffectiveUrl,
    if_true, bind, Except.bind, handle.targetUrl_ne, if_false]
  cases performFrom env handle.targetUrl server retryLimit 0 chunk <;> rfl

theorem UnreadChunk.readChunk_ok_iff (env : Env) (handle : HttpHandle)
    (server : Nat → Attempt) (chunk : UnreadChunk) (after : TransferChunk) :
    readChunk env (some handle.toHandle) server chunk.toTransferChunk = .ok after ↔
      ∃ done, performFrom env handle.targetUrl server retryLimit 0
          (prepared env chunk.toTransferChunk) = .ok done ∧
        done.size = done.bytesRead ∧ after = { done with isRead := true } := by
  simp only [readChunk, chunk.unread, prepared_usesFillValue, chunk.transferred,
    handle.readData_eq, bind, Except.bind]
  cases performFrom env handle.targetUrl server retryLimit 0
      (prepared env chunk.toTransferChunk) with
  | error failure => simp [Except.map]
  | ok done =>
    simp only [Bool.false_eq_true, if_false, Except.map, Except.ok.injEq, exists_eq_left']
    by_cases hsize : done.size = done.bytesRead
    · simp [hsize, eq_comm]
    · simp [hsize]

/-- The first `n` attempts fail in a way that is tried again, and attempt `n`, which
is within the limit, brings the bytes of the requested range of the file. -/
structure Retried (env : Env) (file : Nat → Byte) (server : Nat → Attempt)
    (handle : HttpHandle) (chunk : UnreadChunk) (n : Nat) : Prop where
  withinLimit : n < retryLimit
  fails : ∀ i < n, evaluate env handle.targetUrl (server i) = .ok false
  withinBuffer : ∀ i < n, (body (server i).callbacks).length ≤ chunk.size
  succeeds : evaluate env handle.targetUrl (server n) = .ok true
  delivers : body (server n).callbacks = rangeBytes file chunk.offset chunk.size

/-- `read_chunk` returns, and the chunk holds exactly the requested range. -/
def ReadsRange (env : Env) (file : Nat → Byte) (server : Nat → Attempt) (handle : HttpHandle)
    (chunk : UnreadChunk) : Prop :=
  ∃ after, readChunk env (some handle.toHandle) server chunk.toTransferChunk = .ok after ∧
    after.readBuffer = rangeBytes file chunk.offset chunk.size ∧
    after.bytesRead = chunk.size

/-- No failed attempt has brought a body byte, and no body arrives while the last
content type, of this attempt or an earlier one, is that of an error document. -/
def NothingLeft (server : Nat → Attempt) (chunk : UnreadChunk) (n : Nat) : Prop :=
  (∀ i < n, body (server i).callbacks = []) ∧
  PlainWrites chunk.responseContentType (callbacksOf server 0 n)

theorem body_callbacksOf (server : Nat → Attempt) (n : Nat) : body (callbacksOf server 0 n) =
      ((range n).flatMap fun i => body (server i).callbacks) ++ body (server n).callbacks := by
  have hflt : ∀ indices : List Nat, body (indices.flatMap fun i => (server i).callbacks) =
        indices.flatMap fun i => body (server i).callbacks := by
    intro indices
    induction indices with
    | nil => rfl
    | cons i indices ih => simp [ih]
  rw [callbacksOf, range_succ, flatMap_append, body_append]
  simp only [zero_add, hflt, flatMap_singleton]

section

variable {env : Env} {file : Nat → Byte} {handle : HttpHandle} {chunk : UnreadChunk}

theorem Retried.readChunk_ok_iff (hreturn : Retried env file server handle chunk n)
    (after : TransferChunk) :
    readChunk env (some handle.toHandle) server chunk.toTransferChunk = .ok after ↔
      PlainWrites chunk.responseContentType (callbacksOf server 0 n) ∧
      (body (callbacksOf server 0 n)).length = chunk.size ∧
      after = { received (prepared env chunk.toTransferChunk) (callbacksOf server 0 n) with
        isRead := true } := by
  obtain ⟨hlen, hsta⟩ := chunk.prepared_spec env
  have hloop := performFrom_eq_deliver env handle.targetUrl server n retryLimit 0
    (prepared env chunk.toTransferChunk) hreturn.withinLimit
    (by simpa using hreturn.fails) (by simpa using hreturn.succeeds)
  have hdel := deliver_ok_iff env (callbacksOf server 0 n) (prepared env chunk.toTransferChunk)
  rw [hsta, hlen, zero_add, prepared_responseContentType] at hdel
  simp only [chunk.readChunk_ok_iff, hloop, hdel _ (Nat.zero_le _)]
  constructor
  · rintro ⟨-, ⟨hplace, -, rfl⟩, hsize, rfl⟩
    refine ⟨hplace, ?_, rfl⟩
    simpa [received, hsta] using hsize.symm
  · rintro ⟨hplace, hsize, rfl⟩
    refine ⟨_, ⟨hplace, hsize.le, rfl⟩, ?_, rfl⟩
    simp [received, hsta, hsize]

theorem Retried.body_length_iff (hreturn : Retried env file server handle chunk n) :
    (body (callbacksOf server 0 n)).length = chunk.size ↔ ∀ i < n, body (server i).callbacks = [] := by
  rw [body_callbacksOf, hreturn.delivers, length_append, length_rangeBytes,
    Nat.add_eq_right, length_eq_zero_iff]
  simp

theorem Retried.readsRange_of_nothingLeft (hreturn : Retried env file server handle chunk n)
    (hnot : NothingLeft server chunk n) : ReadsRange env file server handle chunk := by
  obtain ⟨hnone, hplace⟩ := hnot
  obtain ⟨hlen, hsta⟩ := chunk.prepared_spec env
  have hsize := hreturn.body_length_iff.mpr hnone
  have hall : (range n).flatMap (fun i => body (server i).callbacks) = [] := by
    simpa using hnone
  have hbody := body_callbacksOf server n
  rw [hall, nil_append, hreturn.delivers] at hbody
  refine ⟨_, (hreturn.readChunk_ok_iff _).mpr ⟨hplace, hsize, rfl⟩, ?_, ?_⟩
  · simp only [received, hsta]
    rw [overwrite_zero (hsize.trans hlen.symm), hbody]
  · simp [received, hsta, hsize]

end

theorem readChunk_retried_iff (env : Env) (file : Nat → Byte) (server : Nat → Attempt)
    (handle : HttpHandle) (chunk : UnreadChunk) (n : Nat)
    (hretried : Retried env file server handle chunk n) :
    ReadsRange env file server handle chunk ↔ NothingLeft server chunk n := by
  constructor
  · rintro ⟨after, hafter, -, -⟩
    obtain ⟨hplace, hsize, -⟩ := (hretried.readChunk_ok_iff after).mp hafter
    exact ⟨hretried.body_length_iff.mp hsize, hplace⟩
  · exact hretried.readsRange_of_nothingLeft

def plainEnv : Env where
  loadString _ := none
  regexMatch _ _ := 0
  noRetryUrlRegex := []
  heap _ := 0

def dIntUrl : String := "https://s3.amazonaws.com/cloudydap/samples/d_int.h5"

def dIntHandle : HttpHandle where
  url := ⟨.https, dIntUrl⟩
  reportedUrl := some dIntUrl
  targetUrl := dIntUrl
  reports := rfl
  targetUrl_ne := by decide
  overHttp := .inl rfl

def eightBytes : UnreadChunk where
  dataUrl := some dIntUrl
  size := 8
  offset := 2216
  unread := rfl
  transferred := rfl
  placed := .inl rfl

def countingFile (i : Nat) : Byte := UInt8.ofNat i

def goodAttempt : Attempt where
  callbacks := [.header "Content-Type: binary/octet-stream".toList,
    .write (rangeBytes countingFile 2216 5), .write (rangeBytes countingFile 2221 3)]
  effectiveUrl := some dIntUrl
  httpCode := 206

def busyServer : Nat → Attempt
  | 0 => {
      callbacks := [.header "Content-Type: text/html".toList, .write [66, 117, 115, 121]]
      effectiveUrl := some dIntUrl
      httpCode := 503 }
  | _ + 1 => goodAttempt

/-- The four bytes of the error page stay in front of the requested range, which then
has no room. -/
theorem busyServer_not_readsRange : Retried plainEnv countingFile busyServer dIntHandle eightBytes 1 ∧
      ¬ ReadsRange plainEnv countingFile busyServer dIntHandle eightBytes := by
  have hreturn : Retried plainEnv countingFile busyServer dIntHandle eightBytes 1 := by
    refine ⟨by decide, ?_, ?_, rfl, rfl⟩
    · intro i hi
      obtain rfl : i = 0 := by omega
      rfl
    · intro i hi
      obtain rfl : i = 0 := by omega
      decide
  refine ⟨hreturn, ?_⟩
  rintro ⟨after, hafter, -, -⟩
  have hsize := ((hreturn.readChunk_ok_iff after).mp hafter).2.1
  exact absurd hsize (by decide)

def flakyServer : Nat → Attempt
  | 0 => { callbacks := [], curlCode := .gotNothing, effectiveUrl := some dIntUrl, httpCode := 0 }
  | _ + 1 => goodAttempt

theorem flakyServer_readsRange : Retried plainEnv countingFile flakyServer dIntHandle eightBytes 1 ∧
      ReadsRange plainEnv countingFile flakyServer dIntHandle eightBytes := by
  have hreturn : Retried plainEnv countingFile flakyServer dIntHandle eightBytes 1 := by
    refine ⟨by decide, ?_, ?_, rfl, rfl⟩
    · intro i hi
      obtain rfl : i = 0 := by omega
      rfl
    · intro i hi
      obtain rfl : i = 0 := by omega
      decide
  refine ⟨hreturn, (readChunk_retried_iff plainEnv countingFile flakyServer dIntHandle
    eightBytes 1 hreturn).mpr ⟨?_, by decide⟩⟩
  intro i hi
  obtain rfl : i = 0 := by omega
  rfl

end Bes.Dmrpp.RetriedTransfer
