import Bes.Cache.PurgePaths
import Bes.Dispatch.Util
import Bes.Lib.Decimal

/-! `http::url` and `http::EffectiveUrl`: parsing, the constructors that copy, and when a URL
has expired. A URL carries whether it is trusted. -/
namespace Bes.Http
open Dispatch

inductive Failure where
  | bes (message : Str)
  | outOfRange
  | invalidArgument
  deriving DecidableEq, Repr

/-- What the code of URLs finds around it. Times are in seconds; the clock stands still during
a call. `uninitialized` is what a number that was never set holds, and `catalogRoot` the root
directory of the default catalog, if there is one. -/
structure World where
  now : Int
  mktime : Int → Int → Int → Int → Int → Int → Int
  uninitialized : Int
  catalogRoot : Option Str

structure Url where
  sourceUrlStr : Str
  protocol : Str
  host : Str
  path : Str
  query : Str
  queryKvp : List (Str × List Str)
  ingestTime : Int
  trusted : Bool
  deriving DecidableEq, Repr

structure EffectiveUrl extends Url where
  responseHeaderNames : List Str
  responseHeaderValues : List Str
  respHdrLines : List Str
  deriving DecidableEq, Repr

def Url.isTrusted (url : Url) : Bool := url.trusted

def httpProtocol : Str := "http://".toList
def httpsProtocol : Str := "https://".toList
def fileProtocol : Str := "file://".toList
def protocolEnd : Str := "://".toList

def afterFirst (what : Str) : Str → Option Str
  | [] => if what = [] then some [] else none
  | c :: rest => if what <+: c :: rest then some ((c :: rest).drop what.length) else afterFirst what rest

def parseTarget (catalogRoot : Option Str) (sourceUrlStr : Str) : Except Failure Str :=
  if (afterFirst protocolEnd sourceUrlStr).isSome then .ok sourceUrlStr
  else
    match catalogRoot with
    | none => .error (.bes "OUCH! Unable to locate default catalog!".toList)
    | some root =>
      let filePath := Cache.PurgePaths.pathConcat root sourceUrlStr '/'
      .ok (fileProtocol ++ (if filePath.head? = some '/' then filePath else '/' :: filePath))

def addRecord (kvp : List (Str × List Str)) (record : Str) : List (Str × List Str) :=
  if '=' ∈ record then
    let key := record.takeWhile fun c => decide (c ≠ '=')
    let value := record.drop (key.length + 1)
    match kvp.lookup key with
    | some values => (key, values ++ [value]) :: kvp.filter fun entry => decide (entry.1 ≠ key)
    | none => (key, [value]) :: kvp
  else kvp

def tokenize (query : Str) : List Str :=
  (query.splitOn '&').filter fun token => decide (token ≠ [])

def parse (catalogRoot : Option Str) (url : Url) : Except Failure Url :=
  match parseTarget catalogRoot url.sourceUrlStr with
  | .error failure => .error failure
  | .ok target =>
    let afterProtocol := (afterFirst protocolEnd target).getD []
    let protocol := lowercase (target.take (target.length - afterProtocol.length))
    let url := { url with sourceUrlStr := target, protocol := protocol }
    if afterProtocol = [] then .ok url
    else if protocol = fileProtocol then .ok { url with path := target.drop protocol.length }
    else if protocol = httpProtocol ∨ protocol = httpsProtocol then
      let host := afterProtocol.takeWhile fun c => decide (c ≠ '/')
      let fromPath := afterProtocol.drop host.length
      let path := fromPath.takeWhile fun c => decide (c ≠ '?')
      let query := fromPath.drop (path.length + 1)
      .ok { url with
        host := lowercase host
        path := path
        query := query
        queryKvp := (tokenize query).foldl addRecord [] }
    else
      .error (.bes ("url::parse() - Unsupported URL protocol ".toList ++ protocol
        ++ " found in URL: ".toList ++ target))

namespace Url

def unparsed (world : World) (urlS : Str) (trusted : Bool) : Url where
  sourceUrlStr := urlS
  protocol := []
  host := []
  path := []
  query := []
  queryKvp := []
  ingestTime := world.now
  trusted := trusted

/-- `url(url_s, trusted)`. -/
def ofString (world : World) (urlS : Str) (trusted : Bool) : Except Failure Url :=
  parse world.catalogRoot (unparsed world urlS trusted)

/-- `url(source_url)`: the query is copied, the values of its keys are not. -/
def copy (url : Url) : Url :=
  { url with queryKvp := [] }

/-- `url(source_url, trusted)`. -/
def copyWith (url : Url) (trusted : Bool) : Url :=
  { url with queryKvp := [], trusted := trusted }

def queryParameterValue (url : Url) (key : Str) : Str :=
  ((url.queryKvp.lookup key).getD []).headD []

end Url

/-- The operator `>>` for a signed 64-bit number: it leaves the number as it was where nothing
but blanks is left, and makes it 0 where no digit stands. -/
def extract (old : Int) (text : Str) : Int :=
  if text.dropWhile Lib.Decimal.isSpace = [] then old
  else
    match Lib.Decimal.scan text with
    | none => 0
    | some (negative, magnitude) =>
      max (-2 ^ 63) (min (if negative then -magnitude else magnitude) (2 ^ 63 - 1))

def substr (s : Str) (pos count : Nat) : Except Failure Str :=
  if s.length < pos then .error .outOfRange else .ok ((s.drop pos).take count)

def stoll (s : Str) : Except Failure Int :=
  match Lib.Decimal.scan s with
  | none => .error .invalidArgument
  | some (negative, magnitude) => .ok (if negative then -magnitude else magnitude)

/-- The time that a date such as `20200624T175046Z` stands for. -/
def awsStartTime (world : World) (date : Str) : Except Failure Int := do
  let year ← substr date 0 4
  let month ← substr date 4 2
  let day ← substr date 6 2
  let hour ← substr date 9 2
  let minute ← substr date 11 2
  let second ← substr date 13 2
  .ok (world.mktime ((← stoll year) - 1900) ((← stoll month) - 1) (← stoll day) (← stoll hour)
    (← stoll minute) (← stoll second))

def defaultExpiresInterval : Int := 300
def refreshThreshold : Int := 60

def Url.expiresTime (world : World) (url : Url) : Except Failure Int :=
  let cfExpires := url.queryParameterValue "Expires".toList
  let awsExpires := url.queryParameterValue "X-Amz-Expires".toList
  let awsDate := url.queryParameterValue "X-Amz-Date".toList
  if cfExpires ≠ [] then .ok (extract (url.ingestTime + defaultExpiresInterval) cfExpires)
  else if awsExpires ≠ [] then
    (if awsDate ≠ [] then awsStartTime world awsDate else .ok url.ingestTime).map
      (· + extract world.uninitialized awsExpires)
  else .ok (url.ingestTime + defaultExpiresInterval)

def Url.isExpired (world : World) (url : Url) : Except Failure Bool :=
  (url.expiresTime world).map fun expiresTime =>
    decide (expiresTime - world.now < refreshThreshold)

namespace EffectiveUrl

/-- `EffectiveUrl(source_url)` for a plain URL. -/
def ofUrl (url : Url) : EffectiveUrl :=
  { url.copy with responseHeaderNames := [], responseHeaderValues := [], respHdrLines := [] }

/-- `EffectiveUrl(source_url)` for an effective one. -/
def copy (eurl : EffectiveUrl) : EffectiveUrl :=
  { eurl with toUrl := eurl.toUrl.copy }

/-- `EffectiveUrl(source_url, trusted)`. -/
def copyWith (eurl : EffectiveUrl) (trusted : Bool) : EffectiveUrl :=
  { eurl with toUrl := eurl.toUrl.copyWith trusted }

/-- A header line is kept when it has a colon; the value starts with the colon. -/
def headerOf (line : Str) : Option (Str × Str) :=
  if ':' ∈ line then
    let key := line.takeWhile fun c => decide (c ≠ ':')
    some (lowercase key, line.drop key.length)
  else none

def ingestResponseHeaders (url : Url) (respHdrs : List Str) : EffectiveUrl :=
  let headers := respHdrs.filterMap headerOf
  { url with
    responseHeaderNames := headers.map Prod.fst
    responseHeaderValues := headers.map Prod.snd
    respHdrLines := respHdrs }

/-- `EffectiveUrl(url_s, resp_hdrs, trusted)`. -/
def ofResponse (world : World) (urlS : Str) (respHdrs : List Str) (trusted : Bool) :
    Except Failure EffectiveUrl :=
  (Url.ofString world urlS trusted).map fun url => ingestResponseHeaders url respHdrs

def getHeader (eurl : EffectiveUrl) (name : Str) : Option Str :=
  ((eurl.responseHeaderNames.zip eurl.responseHeaderValues).reverse).lookup (lowercase name)

/-- The sum of a time and a duration is counted in nanoseconds, in 64 bits, and cut to seconds. -/
def timeAfter (time duration : Int) : Int :=
  (((time + duration) * 1000000000).bmod (2 ^ 64)).tdiv 1000000000

/-- What stands behind `max-age=` in the header. -/
def maxAgeStr (eurl : EffectiveUrl) : Option Str :=
  (eurl.getHeader "cache-control".toList).bind (afterFirst "max-age=".toList)

def maxAgeExpired (world : World) (eurl : EffectiveUrl) : Bool :=
  match eurl.maxAgeStr with
  | none => false
  | some maxAge => decide (timeAfter eurl.ingestTime (extract world.uninitialized maxAge) < world.now)

def isExpired (world : World) (eurl : EffectiveUrl) : Except Failure Bool :=
  if eurl.maxAgeExpired world then .ok true else eurl.toUrl.isExpired world

end EffectiveUrl

section

@[simp] theorem isTrusted_ofUrl (url : Url) : (EffectiveUrl.ofUrl url).isTrusted = url.isTrusted :=
  rfl

@[simp] theorem isTrusted_copy (eurl : EffectiveUrl) : eurl.copy.isTrusted = eurl.isTrusted := rfl

@[simp] theorem isTrusted_copyWith (eurl : EffectiveUrl) (trusted : Bool) :
    (eurl.copyWith trusted).isTrusted = trusted :=
  rfl

def Url.withTrust (trusted : Bool) (url : Url) : Url :=
  { url with trusted := trusted }

def EffectiveUrl.withTrust (trusted : Bool) (eurl : EffectiveUrl) : EffectiveUrl :=
  { eurl with trusted := trusted }

variable {trusted : Bool}

theorem parse_withTrust (catalogRoot : Option Str) (url : Url) (trusted : Bool) :
    parse catalogRoot (url.withTrust trusted) = (parse catalogRoot url).map (.withTrust trusted) := by
  have hstr : (url.withTrust trusted).sourceUrlStr = url.sourceUrlStr := rfl
  rw [parse, parse, hstr]
  cases parseTarget catalogRoot url.sourceUrlStr with
  | error failure => rfl
  | ok target =>
    dsimp only
    generalize (afterFirst protocolEnd target).getD [] = afterProtocol
    generalize lowercase (target.take (target.length - afterProtocol.length)) = protocol
    by_cases hend : afterProtocol = []
    · rw [if_pos hend, if_pos hend]
      rfl
    rw [if_neg hend, if_neg hend]
    by_cases hfil : protocol = fileProtocol
    · rw [if_pos hfil, if_pos hfil]
      rfl
    rw [if_neg hfil, if_neg hfil]
    by_cases hhtt : protocol = httpProtocol ∨ protocol = httpsProtocol
    · rw [if_pos hhtt, if_pos hhtt]
      rfl
    · rw [if_neg hhtt, if_neg hhtt]
      rfl

theorem ofResponse_withTrust (world : World) (urlS : Str) (respHdrs : List Str)
    (first second : Bool) : EffectiveUrl.ofResponse world urlS respHdrs second
      = (EffectiveUrl.ofResponse world urlS respHdrs first).map (.withTrust second) := by
  have hurl : Url.ofString world urlS second
      = (Url.ofString world urlS first).map (.withTrust second) :=
    parse_withTrust world.catalogRoot (.unparsed world urlS first) second
  unfold EffectiveUrl.ofResponse
  rw [hurl]
  cases Url.ofString world urlS first with
  | error failure => rfl
  | ok url => rfl

theorem ofResponse_trusted (hrsp : EffectiveUrl.ofResponse world urlS respHdrs trusted = .ok eurl) :
    eurl.isTrusted = trusted := by
  have hsam := ofResponse_withTrust world urlS respHdrs trusted trusted
  rw [hrsp] at hsam
  exact congrArg (fun eurl => eurl.isTrusted) (Except.ok.inj hsam)

end

end Bes.Http
