import Bes.Ncml.JoinExisting
import Bes.Ncml.JoinNew

/-! An aggregation that is sent as it is read sends what reading it would have stored. This holds for
both kinds of aggregation and for one request after the other on the same object. -/
namespace Bes.Ncml
open Dispatch Lib Lib.Buffer Lib.Loop List

variable {α σ : Type}

inductive Kind where
  | joinNew
  | joinExisting
  deriving DecidableEq

namespace Kind

def transferHook : Kind → Aggregate α → Except Failure (List Dim)
  | joinNew => JoinNew.transferOutputConstraintsIntoGranuleTemplateHook
  | joinExisting => JoinExisting.transferOutputConstraintsIntoGranuleTemplateHook

def read : Kind → Aggregate α → Except Failure (Aggregate α)
  | joinNew => JoinNew.read
  | joinExisting => JoinExisting.read

def serialize (partOf : PartOf α) : Kind → Aggregate α → Except Failure (List (Put α) × Aggregate α)
  | joinNew => JoinNew.serialize partOf
  | joinExisting => JoinExisting.serialize partOf

def traverse : Kind → Aggregate α → Emit α σ → List Dim → σ → Except Failure (σ × List Dim)
  | joinNew, array, emit, template, out =>
    (JoinNew.traverse array emit template out).map fun state => (state.out, template)
  | joinExisting, array, emit, template, out =>
    (JoinExisting.traverse array emit template out).map fun state => (state.out, state.template)

def content : Kind → List (Granule α) → List Nat → Option α
  | joinNew => JoinNew.stacked
  | joinExisting => JoinExisting.concatenated

def WellFormed : Kind → Aggregate α → Prop
  | joinNew => JoinNew.WellFormed
  | joinExisting => JoinExisting.WellFormed

def Fits : Kind → Aggregate α → List Dim → Prop
  | joinNew, array, template => template.map Dim.shape = array.inner.map Dim.shape
  | joinExisting, array, template => ∃ dim rest, template = dim :: rest
      ∧ dim.name = array.outer.name ∧ rest.map Dim.shape = array.inner.map Dim.shape

variable {kind : Kind} {array : Aggregate α}

section

variable (hfor : kind.WellFormed array)

include hfor

theorem WellFormed.accepted : Accepted array := by
  cases kind with
  | joinNew => exact JoinNew.WellFormed.toAccepted hfor
  | joinExisting => exact JoinExisting.WellFormed.toAccepted hfor

theorem WellFormed.fits : kind.Fits array array.template := by
  cases kind with
  | joinNew => exact JoinNew.WellFormed.template_shape hfor
  | joinExisting => exact JoinExisting.WellFormed.template_shape hfor

theorem WellFormed.withTemplate
    (hfits : kind.Fits array template) : kind.WellFormed { array with template := template } := by
  cases kind with
  | joinNew =>
    exact { (hfor : JoinNew.WellFormed array) with template_shape := hfits }
  | joinExisting =>
    exact { (hfor : JoinExisting.WellFormed array) with template_shape := hfits }

theorem traverse_eq (hemt : Appends emit (length array.dims) Content) (hout : Content out []) :
    ∃ template result, kind.transferHook array = .ok template
      ∧ kind.traverse array emit template out
        = (if array.outer.NoOverflow then .ok result else .error .overflow)
      ∧ kind.Fits array result.2 ∧ ∃ written, Content result.1 written
        ∧ written.map some = hyperslab array.dims (kind.content array.datasets) := by
  cases kind with
  | joinNew =>
    obtain ⟨state, htra, hwritten⟩ := JoinNew.traverse_eq hfor hemt hout
    refine ⟨array.inner, (state.out, array.inner), JoinNew.transferHook_eq hfor, ?_, rfl, hwritten⟩
    unfold traverse
    dsimp only
    rw [htra]
    split <;> rfl
  | joinExisting =>
    obtain ⟨dim, htrn, hnam⟩ := JoinExisting.transferHook_eq hfor
    obtain ⟨state, htra, ⟨inside, htem, hins⟩, -, written, hcnt, -, hwritten⟩ :=
      JoinExisting.traverse_eq hfor hemt hout hnam
    refine ⟨dim :: array.inner, (state.out, state.template), htrn, ?_,
      ⟨inside, array.inner, htem, hins, rfl⟩, written, hcnt, hwritten⟩
    unfold traverse
    dsimp only
    rw [htra]
    split <;> rfl

theorem read_eq (hrqs : array.requested = true) (hunr : array.values = none) :
    ∃ template, kind.read array = (if array.outer.NoOverflow then
      .ok { array with
        template := template
        values := some (hyperslab array.dims (kind.content array.datasets)) }
      else .error .overflow) := by
  have hstored : Stored (length array.dims) array.capacity ([] : List α) :=
    ⟨length_replicate, nil_prefix⟩
  obtain ⟨template, ⟨output, left⟩, htrn, htra, -, written, ⟨hlen, hout⟩, hwritten⟩ :=
    traverse_eq hfor (store_appends _) hstored
  have hotp : output = hyperslab array.dims (kind.content array.datasets) := by
    rw [← hwritten]
    exact (hout.eq_of_length (by rw [length_map, hfor.accepted.length_eq hwritten, hlen])).symm
  have hread : kind.read array = array.read (kind.transferHook array) fun template =>
      kind.traverse array store template array.capacity := by
    cases kind <;> rfl
  refine ⟨left, ?_⟩
  rw [hread, Aggregate.read, if_neg (by simp [hrqs, hunr]), htrn]
  dsimp only [bind, Except.bind]
  rw [htra, ← hotp]
  by_cases hovf : array.outer.NoOverflow
  · rw [if_pos hovf, if_pos hovf]
  · rw [if_neg hovf, if_neg hovf]

theorem serialize_eq (partOf : PartOf α) (hrequested : array.requested = true)
    (hunread : array.values = none) :
    ∃ (granules : List (List α)) (template : List Dim), kind.serialize partOf array
        = (if array.outer.NoOverflow then
          .ok (.vectorStart (length array.dims)
            :: (granules.map fun values => .vectorPart (partOf array.element values values.length))
            ++ [.vectorEnd], { array with template := template })
          else .error .overflow)
      ∧ granules.flatten.map some = hyperslab array.dims (kind.content array.datasets)
      ∧ kind.Fits array template := by
  have hannounced : Announced partOf array.element (length array.dims)
      [.vectorStart (length array.dims)] ([] : List α) := ⟨[], rfl, rfl⟩
  obtain ⟨template, ⟨puts, left⟩, htransfer, htraverse, hfits, written, ⟨granules, hgranules, hputs⟩,
    hwritten⟩ := traverse_eq hfor (put_appends partOf array.element _ _) hannounced
  have hserialize : kind.serialize partOf array = array.serialize (kind.transferHook array)
      fun template => kind.traverse array (put partOf array.element) template
        [.vectorStart (length array.dims)] := by
    cases kind <;> rfl
  refine ⟨granules, left, ?_, by rw [hgranules, hwritten], hfits⟩
  rw [hserialize, Aggregate.serialize, if_neg (by simp [hrequested]), hunread, htransfer]
  dsimp only [bind, Except.bind]
  dsimp only at hputs
  rw [htraverse, hputs]
  by_cases hoverflow : array.outer.NoOverflow
  · rw [if_pos hoverflow, if_pos hoverflow]
  · rw [if_neg hoverflow, if_neg hoverflow]

end

def Streams (kind : Kind) (array : Aggregate α) (puts : List (Put α)) : Prop :=
  ∃ (parts : List (List α)) (stored : Aggregate α),
    puts = .vectorStart parts.flatten.length :: parts.map .vectorPart ++ [.vectorEnd]
      ∧ kind.read array = .ok stored ∧ stored.values = some (parts.flatten.map some)
      ∧ parts.flatten.map some = hyperslab array.dims (kind.content array.datasets)

end Kind

structure Request where
  outer : Dim
  inner : List Dim

def Aggregate.constrain (array : Aggregate α) (request : Request) : Aggregate α :=
  { array with outer := request.outer, inner := request.inner }

namespace Kind

variable {kind : Kind} {array : Aggregate α}

def StreamsAll (partOf : PartOf α) (kind : Kind) (array : Aggregate α) : List Request → Prop
  | [] => True
  | request :: requests => ∃ puts next,
    kind.serialize partOf (array.constrain request) = .ok (puts, next)
      ∧ kind.Streams (array.constrain request) puts ∧ kind.StreamsAll partOf next requests

theorem Fits.constrain (hfirst : kind.Fits (array.constrain first) array.template)
    (hsecond : kind.Fits (array.constrain second) array.template)
    (hfits : kind.Fits (array.constrain first) template) :
    kind.Fits (array.constrain second) template := by
  cases kind with
  | joinNew => exact hfits.trans (hfirst.symm.trans hsecond)
  | joinExisting =>
    obtain ⟨dim, rest, hdim, hname, hsha⟩ := hfirst
    obtain ⟨other, others, hother, hnam, hshp⟩ := hsecond
    obtain ⟨inside, inner, htem, hins, hinn⟩ := hfits
    rw [hdim] at hother
    obtain ⟨rfl, rfl⟩ := cons.inj hother
    exact ⟨inside, inner, htem, hins.trans (hname.symm.trans hnam),
      hinn.trans (hsha.symm.trans hshp)⟩

theorem streamsAll_iff_noOverflow (array : Aggregate α) (requests : List Request)
    (hpart : ∀ values, partOf array.element values values.length = values)
    (hrequested : array.requested = true) (hunread : array.values = none)
    (hformed : ∀ request ∈ requests, kind.WellFormed (array.constrain request)) :
    kind.StreamsAll partOf array requests ↔ ∀ request ∈ requests, request.outer.NoOverflow := by
  induction requests generalizing array with
  | nil => simp [StreamsAll]
  | cons request requests ih =>
    have hfirst := hformed request mem_cons_self
    obtain ⟨parts, template, hser, hpar, hfits⟩ := serialize_eq hfirst partOf hrequested hunread
    obtain ⟨left, hread⟩ := read_eq hfirst hrequested hunread
    have hlen : parts.flatten.length = length (array.constrain request).dims :=
      hfirst.accepted.length_eq hpar
    have hrest := ih { array.constrain request with template := template } hpart hrequested hunread
      fun other hother =>
        have hother := hformed other (mem_cons_of_mem _ hother)
        hother.withTemplate (Fits.constrain hfirst.fits hother.fits hfits)
    rw [StreamsAll, forall_mem_cons, ← hrest]
    constructor
    · rintro ⟨puts, next, hputs, -, hnext⟩
      by_cases hoverflow : (array.constrain request).outer.NoOverflow
      · rw [hser, if_pos hoverflow] at hputs
        obtain ⟨-, rfl⟩ := Prod.mk.inj (Except.ok.inj hputs)
        exact ⟨hoverflow, hnext⟩
      · rw [hser, if_neg hoverflow] at hputs
        contradiction
    · rintro ⟨hoverflow, hnext⟩
      have hoverflow : (array.constrain request).outer.NoOverflow := hoverflow
      rw [if_pos hoverflow] at hser hread
      refine ⟨_, _, hser, ⟨parts, _, ?_, hread, ?_, hpar⟩, hnext⟩
      · rw [hlen]
        congr 3
        exact funext fun values => congrArg Put.vectorPart (hpart values)
      · rw [hpar]

/-- A library that puts out nothing for strings. -/
def withoutTexts : PartOf α
  | .cardinal, values, num => values.take num
  | .text, _, _ => []

theorem withoutTexts_lawful : (withoutTexts : PartOf α).Lawful := fun _ => take_length

theorem not_streamsAll_of_text (hformed : kind.WellFormed (array.constrain request))
    (htext : array.element = .text) (hrequested : array.requested = true)
    (hunread : array.values = none) :
    ¬ kind.StreamsAll withoutTexts array (request :: requests) := by
  rintro ⟨puts, next, hputs, ⟨parts, stored, hparts, -, -, hslab⟩, -⟩
  obtain ⟨granules, template, hserialize, -, -⟩ := serialize_eq hformed withoutTexts hrequested hunread
  by_cases hoverflow : (array.constrain request).outer.NoOverflow
  · rw [hputs, if_pos hoverflow] at hserialize
    obtain ⟨rfl, -⟩ := Prod.mk.inj (Except.ok.inj hserialize)
    have htake : ∀ values : List α,
        withoutTexts (array.constrain request).element values values.length = [] := by
      intro values
      rw [show (array.constrain request).element = .text from htext]
      rfl
    simp only [htake] at hparts
    have hempty : ∀ part ∈ parts, part = [] := by
      intro part hpart
      have hmem : Put.vectorPart part ∈ granules.map fun _ => Put.vectorPart ([] : List α) := by
        rw [append_cancel_right (cons.inj hparts).2]
        exact mem_map_of_mem hpart
      obtain ⟨-, -, heq⟩ := mem_map.mp hmem
      exact (Put.vectorPart.inj heq).symm
    have hlen := length_hyperslab hformed.accepted.start_le_stop
      (kind.content (array.constrain request).datasets)
    rw [← hslab, flatten_eq_nil_iff.mpr hempty] at hlen
    exact (prod_pos fun size hsize => by
      obtain ⟨dim, -, rfl⟩ := mem_map.mp hsize
      exact Nat.succ_pos _).ne hlen
  · rw [hputs, if_neg hoverflow] at hserialize
    contradiction

theorem streamsAll_iff (kind : Kind) (array : Aggregate α) (requests : List Request)
    (hrequested : array.requested = true) (hunread : array.values = none)
    (hformed : ∀ request ∈ requests, kind.WellFormed (array.constrain request)) :
    (∀ partOf : PartOf α, partOf.Lawful → kind.StreamsAll partOf array requests)
      ↔ ∀ request ∈ requests, request.outer.NoOverflow ∧ array.element = .cardinal := by
  cases helement : array.element with
  | cardinal =>
    have hevery : ∀ partOf : PartOf α, partOf.Lawful → (kind.StreamsAll partOf array requests
        ↔ ∀ request ∈ requests, request.outer.NoOverflow) := fun partOf hlawful =>
      streamsAll_iff_noOverflow array requests (by rw [helement]; exact hlawful) hrequested hunread
        hformed
    simp only [and_true]
    exact ⟨fun hstreams => (hevery _ withoutTexts_lawful).mp (hstreams _ withoutTexts_lawful),
      fun hall partOf hlawful => (hevery partOf hlawful).mpr hall⟩
  | text =>
    cases requests with
    | nil => simp [StreamsAll]
    | cons request requests =>
      refine iff_of_false (fun hstreams => ?_) (fun hall => ?_)
      · exact not_streamsAll_of_text (hformed request mem_cons_self) helement hrequested hunread
          (hstreams _ withoutTexts_lawful)
      · exact Element.noConfusion (hall request mem_cons_self).2

open JoinExisting (sampleArray sampleArray_wellFormed longArray longArray_wellFormed sampleDim)

def sampleRequests : List Request :=
  [⟨sampleArray.outer, sampleArray.inner⟩,
    ⟨sampleDim "time" 5 0 1 1 Nat.one_pos, [sampleDim "x" 2 1 1 1 Nat.one_pos]⟩]

theorem streamsAll_iff_sample :
    Kind.joinExisting.StreamsAll withoutTexts sampleArray sampleRequests := by
  refine (streamsAll_iff .joinExisting sampleArray sampleRequests rfl rfl ?_).mpr ?_ withoutTexts
    withoutTexts_lawful
  · intro request hrequest
    rcases mem_cons.mp hrequest with rfl | hrequest
    · exact sampleArray_wellFormed
    · rw [mem_singleton.mp hrequest]
      refine JoinExisting.WellFormed.mk ⟨by decide, by decide, by decide, ?_, by decide⟩
        sampleArray_wellFormed.sizes_sum sampleArray_wellFormed.datasets_shape
        ⟨_, _, rfl, rfl, rfl⟩
      intro dim hdim
      rw [mem_singleton.mp hdim]
      exact ⟨by decide, by decide, by decide⟩
  · intro request hrequest
    rcases mem_cons.mp hrequest with rfl | hrequest
    · decide
    · rw [mem_singleton.mp hrequest]
      decide

/-- Neither of the two loops ends when its variable overflows, whatever the library does. -/
theorem longArray_not_streamed : Kind.joinExisting.WellFormed longArray
      ∧ longArray.element = .cardinal
      ∧ ∀ partOf, ¬ Kind.joinExisting.StreamsAll partOf longArray
        [⟨longArray.outer, longArray.inner⟩] := by
  refine ⟨longArray_wellFormed, rfl, fun partOf => ?_⟩
  have hformed : Kind.joinExisting.WellFormed
      (longArray.constrain ⟨longArray.outer, longArray.inner⟩) := longArray_wellFormed
  obtain ⟨granules, template, hserialize, -⟩ := serialize_eq hformed partOf rfl rfl
  rintro ⟨puts, next, hputs, -⟩
  rw [hserialize, if_neg (by decide)] at hputs
  contradiction

end Kind

end Bes.Ncml
