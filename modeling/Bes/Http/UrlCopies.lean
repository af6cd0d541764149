import Bes.Http.Url

/-! The constructors that copy a URL. None of them copies the values of the query's keys, which the expiry of a
signed URL is read from, and those that take an effective URL for a plain one leave its headers behind. -/
namespace Bes.Http
open Dispatch

/-- The vector that is passed in is left as it is where the key has no values. -/
def Url.queryParameterValues (url : Url) (key : Str) (values : List Str) : List Str :=
  (url.queryKvp.lookup key).getD values

def Url.setIngestTime (url : Url) (itime : Int) : Url :=
  { url with ingestTime := itime }

/-- An object and its class, which decides what `is_expired` does. -/
inductive UrlObject where
  | plain (url : Url)
  | effective (eurl : EffectiveUrl)
  deriving DecidableEq

namespace UrlObject

def base : UrlObject → Url
  | .plain url => url
  | .effective eurl => eurl.toUrl

def isExpired (world : World) : UrlObject → Except Failure Bool
  | .plain url => url.isExpired world
  | .effective eurl => eurl.isExpired world

def ofString (world : World) (urlS : Str) (respHdrs : Option (List Str)) (trusted : Bool) (itime : Int) :
    Except Failure UrlObject :=
  (Url.ofString world urlS trusted).map fun url =>
    match respHdrs with
    | none => .plain (url.setIngestTime itime)
    | some lines => .effective (EffectiveUrl.ingestResponseHeaders (url.setIngestTime itime) lines)

end UrlObject

/-- The constructors that copy: of `url`, of `EffectiveUrl` for another one, and of `EffectiveUrl` for what is
passed as a `url`. Those with a flag set the trust of the copy. -/
inductive CopyConstructor where
  | urlReference
  | urlPointer
  | urlTrusted (trusted : Bool)
  | effectiveReference
  | effectivePointer
  | effectiveTrusted (trusted : Bool)
  | effectiveUrlReference
  | effectiveUrlPointer

namespace CopyConstructor

def KeepsHeaders : CopyConstructor → Prop
  | .effectiveReference | .effectivePointer | .effectiveTrusted _ => True
  | _ => False

def apply : CopyConstructor → UrlObject → Option UrlObject
  | .urlReference, original => some (.plain original.base.copy)
  | .urlPointer, original => some (.plain original.base.copy)
  | .urlTrusted trusted, original => some (.plain (original.base.copyWith trusted))
  | .effectiveReference, .effective eurl => some (.effective eurl.copy)
  | .effectivePointer, .effective eurl => some (.effective eurl.copy)
  | .effectiveTrusted trusted, .effective eurl => some (.effective (eurl.copyWith trusted))
  | .effectiveUrlReference, original => some (.effective (.ofUrl original.base))
  | .effectiveUrlPointer, original => some (.effective (.ofUrl original.base))
  | _, .plain _ => none

def trust (original : UrlObject) : CopyConstructor → Bool
  | .urlTrusted trusted | .effectiveTrusted trusted => trusted
  | _ => original.base.isTrusted

end CopyConstructor

structure BehavesLike (copy original : UrlObject) (trusted : Bool) : Prop where
  protocol : copy.base.protocol = original.base.protocol
  host : copy.base.host = original.base.host
  path : copy.base.path = original.base.path
  query : copy.base.query = original.base.query
  trust : copy.base.isTrusted = trusted
  value : ∀ key, copy.base.queryParameterValue key = original.base.queryParameterValue key
  values : ∀ key values,
    copy.base.queryParameterValues key values = original.base.queryParameterValues key values
  expired : ∀ world, copy.isExpired world = original.isExpired world

/-- The headers of the object do not make it expire before a URL without parameters does, whatever the number
held before the age was read into it. -/
def UrlObject.HeadersAddNothing : UrlObject → Prop
  | .plain _ => True
  | .effective eurl => ∀ maxAge ∈ eurl.maxAgeStr, ∀ uninitialized,
      eurl.ingestTime + (defaultExpiresInterval - refreshThreshold) ≤
        EffectiveUrl.timeAfter eurl.ingestTime (extract uninitialized maxAge)

section

variable {original copy : UrlObject} {constructor : CopyConstructor}

theorem base_apply (hcopy : constructor.apply original = some copy) :
    copy.base = { original.base with queryKvp := [], trusted := constructor.trust original } := by
  cases constructor <;> cases original <;> cases hcopy <;> rfl

theorem Url.isExpired_of_nil {url : Url} (hque : url.queryKvp = []) :
    url.isExpired world = .ok (decide (url.ingestTime + defaultExpiresInterval - world.now < refreshThreshold)) := by
  simp [Url.isExpired, Url.expiresTime, Url.queryParameterValue, hque, Except.map]

theorem EffectiveUrl.isExpired_replace (eurl : EffectiveUrl) (htim : url.ingestTime = eurl.ingestTime)
    (hurl : url.queryKvp = []) (hque : eurl.queryKvp = []) :
    EffectiveUrl.isExpired world { eurl with toUrl := url } = eurl.isExpired world := by
  have hhea : EffectiveUrl.maxAgeStr { eurl with toUrl := url } = eurl.maxAgeStr := rfl
  unfold EffectiveUrl.isExpired EffectiveUrl.maxAgeExpired
  rw [hhea, Url.isExpired_of_nil hurl, Url.isExpired_of_nil hque, htim]

theorem isExpired_of_keepsHeaders (hkeeps : constructor.KeepsHeaders)
    (hcopy : constructor.apply original = some copy) (hque : original.base.queryKvp = []) :
    copy.isExpired world = original.isExpired world := by
  cases original with
  | plain url => cases constructor <;> cases hkeeps <;> cases hcopy
  | effective eurl =>
    cases constructor <;> cases hkeeps <;> cases hcopy
    all_goals exact eurl.isExpired_replace rfl rfl hque

theorem isExpired_of_not_keepsHeaders (hdro : ¬ constructor.KeepsHeaders)
    (hcopy : constructor.apply original = some copy) : copy.isExpired world = copy.base.isExpired world := by
  cases constructor with
  | effectiveReference | effectivePointer | effectiveTrusted => exact absurd trivial hdro
  | urlReference | urlPointer | urlTrusted =>
    cases hcopy
    rfl
  | effectiveUrlReference | effectiveUrlPointer =>
    cases hcopy
    rfl

theorem EffectiveUrl.isExpired_of_nil {eurl : EffectiveUrl} (hque : eurl.queryKvp = []) :
    eurl.isExpired world = .ok (eurl.maxAgeExpired world ||
      decide (eurl.ingestTime + defaultExpiresInterval - world.now < refreshThreshold)) := by
  unfold EffectiveUrl.isExpired
  rw [Url.isExpired_of_nil hque]
  cases eurl.maxAgeExpired world <;> rfl

theorem headersAddNothing_iff (hque : original.base.queryKvp = []) :
    (∀ world, original.base.isExpired world = original.isExpired world) ↔ original.HeadersAddNothing := by
  cases original with
  | plain url => exact ⟨fun _ => trivial, fun _ _ => rfl⟩
  | effective eurl =>
    have hurl : eurl.queryKvp = [] := hque
    have hsame : ∀ world, ((UrlObject.effective eurl).base.isExpired world =
        (UrlObject.effective eurl).isExpired world) ↔ (eurl.maxAgeExpired world = true →
          eurl.ingestTime + defaultExpiresInterval - world.now < refreshThreshold) := by
      intro world
      change eurl.toUrl.isExpired world = eurl.isExpired world ↔ _
      rw [Url.isExpired_of_nil hurl, EffectiveUrl.isExpired_of_nil hurl, Except.ok.injEq]
      cases eurl.maxAgeExpired world <;> simp
    simp only [hsame, UrlObject.HeadersAddNothing, EffectiveUrl.maxAgeExpired, defaultExpiresInterval,
      refreshThreshold]
    cases eurl.maxAgeStr with
    | none => simp
    | some maxAge =>
      simp only [Option.mem_def, Option.some.injEq, forall_eq', decide_eq_true_eq]
      constructor
      · intro h uninitialized
        -- The last moment at which the URL itself is fresh.
        let last : World := ⟨eurl.ingestTime + 240, fun _ _ _ _ _ _ => 0, uninitialized, none⟩
        have hlast := h last
        dsimp only [last] at hlast
        omega
      · intro h world hless
        have hlat := h world.uninitialized
        omega

theorem behavesLike_iff (hcopy : constructor.apply original = some copy) :
    BehavesLike copy original (constructor.trust original) ↔
      original.base.queryKvp = [] ∧ (constructor.KeepsHeaders ∨ original.HeadersAddNothing) := by
  have hbase := base_apply hcopy
  constructor
  · intro hlik
    have hque : original.base.queryKvp = [] := by
      cases hkvp : original.base.queryKvp with
      | nil => rfl
      | cons entry rest =>
        -- A vector longer than the values of the key is left as it is by the copy only.
        have hvalues := hlik.values entry.1 ([] :: entry.2)
        unfold Url.queryParameterValues at hvalues
        rw [hbase, hkvp, List.lookup_cons, beq_self_eq_true] at hvalues
        simp at hvalues
    refine ⟨hque, or_iff_not_imp_left.mpr ?_⟩
    intro hdro
    rw [← headersAddNothing_iff hque]
    intro world
    rw [← hlik.expired world, isExpired_of_not_keepsHeaders hdro hcopy, Url.isExpired_of_nil hque,
      Url.isExpired_of_nil (by rw [hbase]), hbase]
  · intro h
    obtain ⟨hque, hhea⟩ := h
    exact
      { protocol := by rw [hbase]
        host := by rw [hbase]
        path := by rw [hbase]
        query := by rw [hbase]
        trust := by rw [hbase]; rfl
        value := by
          intro key
          unfold Url.queryParameterValue
          rw [hbase, hque]
        values := by
          intro key values
          unfold Url.queryParameterValues
          rw [hbase, hque]
        expired := by
          intro world
          by_cases hkeeps : constructor.KeepsHeaders
          · exact isExpired_of_keepsHeaders hkeeps hcopy hque
          · rw [← (headersAddNothing_iff hque).mpr (hhea.resolve_left hkeeps) world,
              isExpired_of_not_keepsHeaders hkeeps hcopy, Url.isExpired_of_nil hque,
              Url.isExpired_of_nil (by rw [hbase]), hbase] }

end

theorem addRecord_eq_nil_iff (kvp : List (Str × List Str)) (record : Str) :
    addRecord kvp record = [] ↔ kvp = [] ∧ '=' ∉ record := by
  unfold addRecord
  by_cases hrec : '=' ∈ record
  · rw [if_pos hrec]
    dsimp only
    split <;> simp [hrec]
  · simp [hrec]

theorem foldl_addRecord_eq_nil_iff (records : List Str) (kvp : List (Str × List Str)) :
    records.foldl addRecord kvp = [] ↔ kvp = [] ∧ ∀ record ∈ records, '=' ∉ record := by
  induction records generalizing kvp with
  | nil => simp
  | cons record rest ih => rw [List.foldl_cons, ih, addRecord_eq_nil_iff, List.forall_mem_cons, and_assoc]

theorem queryKvp_ofString (hurl : Url.ofString world urlS trusted = .ok url) :
    url.queryKvp = (tokenize url.query).foldl addRecord [] := by
  have hnone : (tokenize []).foldl addRecord [] = [] := rfl
  unfold Url.ofString parse at hurl
  split at hurl
  · contradiction
  · dsimp only at hurl
    split at hurl
    · cases hurl
      exact hnone.symm
    split at hurl
    · cases hurl
      exact hnone.symm
    split at hurl
    · cases hurl
      rfl
    · contradiction

theorem queryKvp_base (hori : UrlObject.ofString world urlS respHdrs trusted itime = .ok original) :
    original.base.queryKvp = (tokenize original.base.query).foldl addRecord [] := by
  unfold UrlObject.ofString at hori
  cases hurl : Url.ofString world urlS trusted with
  | error failure =>
    rw [hurl] at hori
    contradiction
  | ok url =>
    have hkvp := queryKvp_ofString hurl
    rw [hurl] at hori
    cases respHdrs with
    | none =>
      cases hori
      exact hkvp
    | some lines =>
      cases hori
      exact hkvp

/-- A copy behaves like its original exactly where the query of the original has no parameters, and the headers
are copied or do not matter. -/
theorem copy_behaves_iff {world : World} {urlS : Str} {respHdrs : Option (List Str)} {trusted : Bool} {itime : Int}
    {original copy : UrlObject} {constructor : CopyConstructor}
    (horiginal : UrlObject.ofString world urlS respHdrs trusted itime = .ok original)
    (hcopy : constructor.apply original = some copy) :
    BehavesLike copy original (constructor.trust original) ↔
      (∀ record ∈ tokenize original.base.query, '=' ∉ record) ∧
        (constructor.KeepsHeaders ∨ original.HeadersAddNothing) := by
  rw [behavesLike_iff hcopy, queryKvp_base horiginal, foldl_addRecord_eq_nil_iff, eq_self, true_and]

def sampleWorld : World := ⟨1000, fun _ _ _ _ _ _ => 0, 0, none⟩

def sampleObject : UrlObject :=
  .effective { sourceUrlStr := "https://h/p?x".toList, protocol := httpsProtocol, host := "h".toList,
               path := "/p".toList, query := "x".toList, queryKvp := [], ingestTime := 0, trusted := true,
               responseHeaderNames := ["cache-control".toList], responseHeaderValues := [":max-age=9".toList],
               respHdrLines := ["Cache-Control:max-age=9".toList] }

theorem copy_behaves_iff_sample :
    UrlObject.ofString sampleWorld "https://h/p?x".toList (some ["Cache-Control:max-age=9".toList]) true 0 =
        .ok sampleObject ∧ CopyConstructor.effectivePointer.apply sampleObject = some sampleObject ∧
      BehavesLike sampleObject sampleObject (CopyConstructor.effectivePointer.trust sampleObject) := by
  have hori : UrlObject.ofString sampleWorld "https://h/p?x".toList
      (some ["Cache-Control:max-age=9".toList]) true 0 = .ok sampleObject := by
    decide +kernel
  have hcopy : CopyConstructor.effectivePointer.apply sampleObject = some sampleObject := rfl
  refine ⟨hori, hcopy, (copy_behaves_iff hori hcopy).mpr ⟨?_, .inl trivial⟩⟩
  decide

def signedUrl : Str := "https://h/p?Expires=9999999999".toList

def signedObject : UrlObject :=
  .plain ⟨signedUrl, httpsProtocol, "h".toList, "/p".toList, "Expires=9999999999".toList,
    [("Expires".toList, ["9999999999".toList])], 0, false⟩

/-- Its copy has lost the parameter, and expires at once. -/
theorem signed_copy_expires : UrlObject.ofString sampleWorld signedUrl none false 0 = .ok signedObject ∧
      ∃ copy, CopyConstructor.urlReference.apply signedObject = some copy ∧
        signedObject.isExpired sampleWorld = .ok false ∧ copy.isExpired sampleWorld = .ok true ∧
        ¬ BehavesLike copy signedObject (CopyConstructor.urlReference.trust signedObject) := by
  have hori : signedObject.isExpired sampleWorld = .ok false := by decide +kernel
  have hcopy : (UrlObject.plain signedObject.base.copy).isExpired sampleWorld = .ok true := by decide +kernel
  refine ⟨by decide +kernel, _, rfl, hori, hcopy, ?_⟩
  intro hlike
  have hsame := hlike.expired sampleWorld
  rw [hori, hcopy] at hsame
  cases hsame

end Bes.Http
