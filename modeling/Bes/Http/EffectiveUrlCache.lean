import Bes.Http.Url

/-! `EffectiveUrlCache::get_effective_url`. The cache is keyed by the string of a URL alone,
while trust belongs to the request: the object that is returned is a copy that takes its
trust from the source URL. -/
namespace Bes.Http.EffectiveUrlCache
open Dispatch Function

/-- What one call finds around it: the values of two keys of `TheBESKeys`, and what following
the redirects of a URL brings, which is the last URL and the response headers. -/
structure Env extends World where
  cacheEffectiveUrls : Option Str
  skipRegexPattern : Option Str
  regcomp : Regcomp
  transfer : Str → Except Failure (Str × List Str)

def retrieveEffectiveUrl (env : Env) (startingPointUrl : Url) : Except Failure EffectiveUrl :=
  match env.transfer startingPointUrl.sourceUrlStr with
  | .error failure => .error failure
  | .ok (urlS, respHdrs) =>
    EffectiveUrl.ofResponse env.toWorld urlS respHdrs startingPointUrl.isTrusted

/-- The members of the cache. The two settings are read from the keys when they are needed
first; an empty or missing pattern is looked for again. -/
structure Cache where
  effectiveUrls : Str → Option EffectiveUrl
  enabled : Option Bool
  skipRegex : Option Matcher

def Cache.start : Cache where
  effectiveUrls := fun _ => none
  enabled := none
  skipRegex := none

def Cache.keep (cache : Cache) (key : Str) (eurl : EffectiveUrl) : Cache :=
  { cache with effectiveUrls := update cache.effectiveUrls key (some eurl) }

def isEnabled (env : Env) (cache : Cache) : Bool :=
  match cache.enabled with
  | some enabled => enabled
  | none =>
    match env.cacheEffectiveUrls with
    | some value => decide (lowercase value = "true".toList)
    | none => false

def getSkipRegex (env : Env) (cache : Cache) : Except Failure (Option Matcher) :=
  match cache.skipRegex with
  | some find => .ok (some find)
  | none =>
    match env.skipRegexPattern with
    | none => .ok none
    | some value =>
      if value = [] then .ok none
      else
        match newRegex env.regcomp value with
        | .error message => .error (.bes message)
        | .ok find => .ok (some find)

def isHttp (source : Url) : Prop :=
  httpProtocol <+: source.sourceUrlStr ∨ httpsProtocol <+: source.sourceUrlStr

instance (source : Url) : Decidable (isHttp source) := by
  unfold isHttp
  infer_instance

def skips (skipRegex : Option Matcher) (source : Url) : Prop :=
  ∃ find ∈ skipRegex, regexMatch find source.sourceUrlStr = source.sourceUrlStr.length

instance (skipRegex : Option Matcher) (source : Url) : Decidable (skips skipRegex source) := by
  unfold skips
  infer_instance

def retrieveAndCache (env : Env) (source : Url) (cache : Cache) :
    Except Failure EffectiveUrl × Cache :=
  match retrieveEffectiveUrl env source with
  | .error failure => (.error failure, cache)
  | .ok eurl => (.ok eurl.copy, cache.keep source.sourceUrlStr eurl)

def lookUp (env : Env) (source : Url) (cache : Cache) : Except Failure EffectiveUrl × Cache :=
  match cache.effectiveUrls source.sourceUrlStr with
  | none => retrieveAndCache env source cache
  | some eurl =>
    match eurl.isExpired env.toWorld with
    | .error failure => (.error failure, cache)
    | .ok true => retrieveAndCache env source cache
    | .ok false => (.ok (eurl.copyWith source.isTrusted), cache)

def getEffectiveUrl (env : Env) (source : Url) (cache : Cache) :
    Except Failure EffectiveUrl × Cache :=
  let cache := { cache with enabled := some (isEnabled env cache) }
  if cache.enabled = some false then (.ok (.ofUrl source), cache)
  else if ¬ isHttp source then (.ok (.ofUrl source), cache)
  else
    match getSkipRegex env cache with
    | .error failure => (.error failure, cache)
    | .ok skipRegex =>
      let cache := { cache with skipRegex := skipRegex }
      if skips skipRegex source then (.ok (.ofUrl source), cache) else lookUp env source cache

structure Request where
  env : Env
  source : Url

def cacheAfter (history : List Request) : Cache :=
  history.foldl (fun cache request => (getEffectiveUrl request.env request.source cache).2) .start

def answer (history : List Request) (request : Request) : Except Failure EffectiveUrl :=
  (getEffectiveUrl request.env request.source (cacheAfter history)).1

section

variable {env : Env} {source : Url} {cache : Cache}

theorem retrieveEffectiveUrl_trusted (hret : retrieveEffectiveUrl env source = .ok eurl) :
    eurl.isTrusted = source.isTrusted := by
  unfold retrieveEffectiveUrl at hret
  split at hret
  · contradiction
  · exact ofResponse_trusted hret

theorem retrieveAndCache_trusted (hans : (retrieveAndCache env source cache).1 = .ok eurl) :
    eurl.isTrusted = source.isTrusted := by
  unfold retrieveAndCache at hans
  cases hret : retrieveEffectiveUrl env source with
  | error failure => rw [hret] at hans; contradiction
  | ok retrieved =>
    rw [hret] at hans
    cases hans
    rw [isTrusted_copy]
    exact retrieveEffectiveUrl_trusted hret

theorem lookUp_trusted (hans : (lookUp env source cache).1 = .ok eurl) :
    eurl.isTrusted = source.isTrusted := by
  unfold lookUp at hans
  split at hans
  · exact retrieveAndCache_trusted hans
  · split at hans
    · contradiction
    · exact retrieveAndCache_trusted hans
    · cases hans
      exact isTrusted_copyWith _ _

theorem getEffectiveUrl_trusted (hans : (getEffectiveUrl env source cache).1 = .ok eurl) :
    eurl.isTrusted = source.isTrusted := by
  unfold getEffectiveUrl at hans
  dsimp only at hans
  split at hans
  · cases hans
    exact isTrusted_ofUrl source
  · split at hans
    · cases hans
      exact isTrusted_ofUrl source
    · split at hans
      · contradiction
      · split at hans
        · cases hans
          exact isTrusted_ofUrl source
        · exact lookUp_trusted hans

end

section

def forgetAnswer (result : Except Failure EffectiveUrl) : Except Failure EffectiveUrl :=
  result.map (.withTrust false)

def Cache.forget (cache : Cache) : Cache :=
  { cache with effectiveUrls := fun key => (cache.effectiveUrls key).map (.withTrust false) }

def Request.forget (request : Request) : Request :=
  { request with source := request.source.withTrust false }

def forgetBoth (after : Except Failure EffectiveUrl × Cache) : Except Failure EffectiveUrl × Cache :=
  (forgetAnswer after.1, after.2.forget)

theorem retrieveEffectiveUrl_forget (env : Env) (source : Url) :
    retrieveEffectiveUrl env (source.withTrust false)
      = forgetAnswer (retrieveEffectiveUrl env source) := by
  have hstr : (source.withTrust false).sourceUrlStr = source.sourceUrlStr := rfl
  rw [retrieveEffectiveUrl, retrieveEffectiveUrl, hstr]
  cases env.transfer source.sourceUrlStr with
  | error failure => rfl
  | ok response => exact ofResponse_withTrust env.toWorld response.1 response.2 _ false

theorem forget_keep (cache : Cache) (key : Str) (eurl : EffectiveUrl) :
    (cache.keep key eurl).forget = cache.forget.keep key (eurl.withTrust false) := by
  unfold Cache.forget Cache.keep
  congr 1
  funext other
  dsimp only
  by_cases hkey : other = key
  · rw [hkey, update_self, update_self]
    rfl
  · rw [update_of_ne hkey, update_of_ne hkey]

theorem retrieveAndCache_forget (env : Env) (source : Url) (cache : Cache) :
    retrieveAndCache env (source.withTrust false) cache.forget
      = forgetBoth (retrieveAndCache env source cache) := by
  rw [retrieveAndCache, retrieveAndCache, retrieveEffectiveUrl_forget]
  cases retrieveEffectiveUrl env source with
  | error failure => rfl
  | ok eurl =>
    unfold forgetBoth
    rw [forget_keep]
    rfl

theorem lookUp_forget (env : Env) (source : Url) (cache : Cache) :
    lookUp env (source.withTrust false) cache.forget = forgetBoth (lookUp env source cache) := by
  have hent : cache.forget.effectiveUrls (source.withTrust false).sourceUrlStr
      = (cache.effectiveUrls source.sourceUrlStr).map (.withTrust false) := rfl
  rw [lookUp, lookUp, hent]
  cases cache.effectiveUrls source.sourceUrlStr with
  | none => exact retrieveAndCache_forget env source cache
  | some eurl =>
    have hexp : (eurl.withTrust false).isExpired env.toWorld = eurl.isExpired env.toWorld := rfl
    dsimp only [Option.map_some]
    match eurl.isExpired env.toWorld with
    | .error failure => rfl
    | .ok true => exact retrieveAndCache_forget env source cache
    | .ok false => rfl

theorem getEffectiveUrl_forget (env : Env) (source : Url) (cache : Cache) :
    getEffectiveUrl env (source.withTrust false) cache.forget
      = forgetBoth (getEffectiveUrl env source cache) := by
  have hena : isEnabled env cache.forget = isEnabled env cache := rfl
  rw [getEffectiveUrl, getEffectiveUrl, hena]
  by_cases hdis : some (isEnabled env cache) = some false
  · rw [if_pos hdis, if_pos hdis]
    rfl
  rw [if_neg hdis, if_neg hdis]
  by_cases hhtt : isHttp source
  · rw [if_neg (not_not.mpr hhtt), if_neg (show ¬ ¬ isHttp (source.withTrust false) from
      not_not.mpr hhtt)]
    have hreg : getSkipRegex env { cache.forget with enabled := some (isEnabled env cache) }
        = getSkipRegex env { cache with enabled := some (isEnabled env cache) } := rfl
    rw [hreg]
    cases getSkipRegex env { cache with enabled := some (isEnabled env cache) } with
    | error failure => rfl
    | ok skipRegex =>
      dsimp only
      by_cases hski : skips skipRegex source
      · rw [if_pos hski, if_pos (show skips skipRegex (source.withTrust false) from hski)]
        rfl
      · rw [if_neg hski, if_neg (show ¬ skips skipRegex (source.withTrust false) from hski)]
        exact lookUp_forget env source
          { cache with enabled := some (isEnabled env cache), skipRegex := skipRegex }
  · rw [if_pos hhtt, if_pos (show ¬ isHttp (source.withTrust false) from hhtt)]
    rfl

theorem cacheAfter_forget (hist : List Request) :
    cacheAfter (hist.map Request.forget) = (cacheAfter hist).forget := by
  induction hist using List.reverseRecOn with
  | nil => rfl
  | append_singleton hist request ih =>
    rw [List.map_append, cacheAfter, cacheAfter, List.foldl_append, List.foldl_append]
    change (getEffectiveUrl request.env (request.source.withTrust false)
      (cacheAfter (hist.map Request.forget))).2 = _
    rw [ih, getEffectiveUrl_forget]
    rfl

theorem answer_forget (hist : List Request) (request : Request) :
    answer (hist.map Request.forget) request.forget = forgetAnswer (answer hist request) := by
  unfold answer
  rw [cacheAfter_forget]
  exact congrArg Prod.fst (getEffectiveUrl_forget request.env request.source (cacheAfter hist))

theorem eq_of_forgetAnswer_eq (hfor : forgetAnswer first = forgetAnswer second)
    (hfst : ∀ eurl, first = .ok eurl → eurl.isTrusted = trusted)
    (hsnd : ∀ eurl, second = .ok eurl → eurl.isTrusted = trusted) : first = second := by
  cases first with
  | error failure =>
    cases second with
    | error failure' => cases hfor; rfl
    | ok eurl' => contradiction
  | ok eurl =>
    cases second with
    | error failure' => contradiction
    | ok eurl' =>
      have hsam : eurl.withTrust false = eurl'.withTrust false := Except.ok.inj hfor
      have htru : eurl.isTrusted = eurl'.isTrusted := by rw [hfst eurl rfl, hsnd eurl' rfl]
      apply congrArg Except.ok
      calc eurl = (eurl.withTrust false).withTrust eurl.isTrusted := rfl
        _ = (eurl'.withTrust false).withTrust eurl'.isTrusted := by rw [hsam, htru]
        _ = eurl' := rfl

end

/-- After any calls, a call that returns gives the trust of its own source; another history in
front of it changes nothing in that, and other trust in its history changes nothing at all. -/
theorem answer_trust (history : List Request) (request : Request) :
    (∀ eurl, answer history request = .ok eurl → eurl.isTrusted = request.source.isTrusted)
      ∧ (∀ history' eurl eurl', answer history request = .ok eurl →
          answer history' request = .ok eurl' → eurl.isTrusted = eurl'.isTrusted)
      ∧ ∀ history', history'.map Request.forget = history.map Request.forget →
          answer history' request = answer history request := by
  refine ⟨fun eurl => getEffectiveUrl_trusted, ?_, ?_⟩
  · intro history' eurl eurl' hans hans'
    rw [getEffectiveUrl_trusted hans, getEffectiveUrl_trusted hans']
  · intro history' hsame
    have hfor : forgetAnswer (answer history' request) = forgetAnswer (answer history request) := by
      rw [← answer_forget, ← answer_forget, hsame]
    exact eq_of_forgetAnswer_eq hfor (fun eurl => getEffectiveUrl_trusted)
      fun eurl => getEffectiveUrl_trusted

end Bes.Http.EffectiveUrlCache
