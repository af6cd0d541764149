import Bes.Dispatch.Util
import Bes.Lib.Buffer
import Bes.Lib.Loop
import Bes.Lib.Slab

/-! Aggregations of the NcML module along the outer dimension. `joinNew` makes an array of one
dimension more out of the arrays of its datasets; `joinExisting` puts them one behind the other.
Each can be read into the object, or sent dataset by dataset as it is read.

The array of a dataset is read under the constraint of a template array, and the answer is the
hyperslab of the dataset's own array. An `int` beyond its range is undefined. -/
namespace Bes.Ncml
open Dispatch Lib Lib.Buffer Lib.Loop

variable {α σ : Type}

inductive Failure where
  | aggregation (message : Str)
  | parse (message : Str)
  | internal (message : Str)
  /-- What `add_constraint` throws. -/
  | malformed
  /-- A value that does not fit in an `int`. -/
  | overflow

structure Dim where
  name : Str
  size : Nat
  start : Nat
  stride : Nat
  stop : Nat
  stride_pos : 0 < stride

namespace Dim

def shape (dim : Dim) : Str × Nat := (dim.name, dim.size)

structure Valid (dim : Dim) : Prop where
  start_le : dim.start ≤ dim.stop
  stop_lt : dim.stop < dim.size
  stride_le : dim.stride ≤ dim.size

def reset (dim : Dim) : Dim :=
  { dim with start := 0, stride := 1, stop := dim.size - 1, stride_pos := Nat.one_pos }

def addConstraint (dim : Dim) (start stride stop : Nat) : Except Failure Dim :=
  if hvalid : start ≤ stop ∧ stop < dim.size ∧ stride ≤ dim.size ∧ 0 < stride then
    .ok { dim with start := start, stride := stride, stop := stop, stride_pos := hvalid.2.2.2 }
  else .error .malformed

def selected (dim : Dim) : List Nat := strided dim.start dim.stop dim.stride

def constrainedSize (dim : Dim) : Nat := (dim.stop - dim.start) / dim.stride + 1

end Dim

def length (dims : List Dim) : Nat := (dims.map Dim.constrainedSize).prod

def hyperslab (dims : List Dim) (content : List Nat → α) : List α :=
  slab (dims.map Dim.selected) content

def addConstraints : List Dim → List Dim → Except Failure (List Dim)
  | toArray, [] => .ok toArray
  | [], _ :: _ => .error .malformed
  | dim :: toArray, source :: fromArray => do
    let constrained ← dim.addConstraint source.start source.stride source.stop
    let rest ← addConstraints toArray fromArray
    .ok (constrained :: rest)

def transferArrayConstraints (toArray fromArray : List Dim) (skipFirstFromDim skipFirstToDim : Bool) :
    Except Failure (List Dim) :=
  let toArray := toArray.map Dim.reset
  let skipDelta : Int := (if skipFirstFromDim then 1 else 0) - (if skipFirstToDim then 1 else 0)
  if skipDelta < 0 ∨ toArray.length + skipDelta ≠ fromArray.length then
    .error (.aggregation
      "AggregationUtil::transferArrayConstraints: Mismatched dimensionalities!".toList)
  else
    match skipFirstFromDim, skipFirstToDim with
    | false, _ => addConstraints toArray fromArray
    | true, false => addConstraints toArray fromArray.tail
    | true, true =>
      (addConstraints toArray.tail fromArray.tail).map fun rest => toArray.take 1 ++ rest

/-- A dataset of the aggregation: the size of the outer dimension in its dimension cache, and
the variable in its DDS. -/
structure Granule (α : Type) where
  location : Str
  cachedSize : Nat
  dims : List Dim
  content : List Nat → α

def doShapesMatch (lhs rhs : List Dim) : Bool := decide (lhs.map Dim.shape = rhs.map Dim.shape)

def readDatasetArrayDataForAggregation (constrainedTemplateArray : List Dim) (varName : Str)
    (dataset : Granule α) : Except Failure (List α) := do
  let dims ← transferArrayConstraints dataset.dims constrainedTemplateArray false false
  if !doShapesMatch constrainedTemplateArray dims then
    .error (.aggregation ("Invalid aggregation! ".toList
      ++ "AggregationUtil::addDatasetArrayDataToAggregationOutputArray: ".toList
      ++ "We found the aggregation variable name=".toList ++ varName
      ++ " but it was not of the same shape as the prototype!".toList))
  else if length constrainedTemplateArray ≠ length dims then
    .error (.internal ("The prototype array and the loaded dataset array length()'s were not ".toList
      ++ "equal, even though their shapes matched. Logic problem.".toList))
  else .ok (hyperslab dims dataset.content)

abbrev Emit (α σ : Type) := σ → Nat → Nat → List α → Except Failure σ

/-- `addDatasetArrayDataToAggregationOutputArray`: the values are stored in the output. -/
def store : Emit α (List (Option α)) := fun output atIndex _ values =>
  match memcpy output atIndex (values.map some) 0 values.length with
  | none => .error .malformed
  | some output => .ok output

inductive Put (α : Type) where
  | vectorStart (num : Nat)
  | vectorPart (values : List α)
  | vectorEnd
  | array (values : List (Option α))

/-- The types of the elements of an array, as the buffer of libdap has them: values of a fixed width,
or strings. -/
inductive Element where
  | cardinal
  | text
  deriving DecidableEq

/-- The values `put_vector_part` puts out when it is given the `get_buf()` of an array and a number
of elements. Both are of libdap, which is not in the repository. -/
abbrev PartOf (α : Type) := Element → List α → Nat → List α

/-- Values of a fixed width stand in the buffer one behind the other. Nothing is said of strings,
which the handlers never look for in a buffer. -/
def PartOf.Lawful (partOf : PartOf α) : Prop :=
  ∀ values, partOf .cardinal values values.length = values

def put (partOf : PartOf α) (element : Element) : Emit α (List (Put α)) := fun puts _ num values =>
  .ok (puts ++ [.vectorPart (partOf element values num)])

/-- `for (int i = start; i <= stop && i < size; i += stride)`. -/
def outerLoop (outer : Dim) (visit : Nat → σ → Except Failure σ) (i : Nat) (state : σ) :
    Except Failure σ :=
  if i ≤ outer.stop ∧ i < outer.size then
    match visit i state with
    | .error failure => .error failure
    | .ok state =>
      if i + outer.stride < 2 ^ 31 then outerLoop outer visit (i + outer.stride) state
      else .error .overflow
  else .ok state
termination_by outer.stop + 1 - i
decreasing_by
  have hpos := outer.stride_pos
  omega

structure Aggregate (α : Type) where
  name : Str
  /-- `var()->type()`. -/
  element : Element
  outer : Dim
  inner : List Dim
  datasets : List (Granule α)
  template : List Dim
  /-- `send_p() || is_in_selection()`. -/
  requested : Bool
  values : Option (List (Option α))

def Aggregate.dims (array : Aggregate α) : List Dim := array.outer :: array.inner

def Aggregate.capacity (array : Aggregate α) : List (Option α) :=
  List.replicate (length array.dims) none

def rethrow {β : Type} : Except Failure β → Except Failure β
  | .error (.aggregation message) => .error (.parse message)
  | result => result

def Aggregate.read (array : Aggregate α) (transferHook : Except Failure (List Dim))
    (readHook : List Dim → Except Failure (List (Option α) × List Dim)) :
    Except Failure (Aggregate α) :=
  if array.values.isSome ∨ array.requested = false then .ok array
  else do
    let template ← transferHook
    let (values, template) ← readHook template
    .ok { array with template := template, values := some values }

def Aggregate.serialize (array : Aggregate α) (transferHook : Except Failure (List Dim))
    (stream : List Dim → Except Failure (List (Put α) × List Dim)) :
    Except Failure (List (Put α) × Aggregate α) :=
  if array.requested = false then .ok ([], array)
  else
    match array.values with
    | some values => .ok ([.array values], array)
    | none => do
      let template ← transferHook
      let (puts, template) ← stream template
      .ok (puts ++ [.vectorEnd], { array with template := template })

namespace JoinExisting

structure Position (α : Type) where
  index : Nat
  head : Nat
  current : Granule α
  following : List (Granule α)
  wasRead : Bool

/-- The `while` loop that moves on to the dataset of a local index. -/
def seek (index head : Nat) (current : Granule α) (wasRead : Bool) (localGranuleIndex : Nat) :
    List (Granule α) → Except Failure (Position α × Nat)
  | [] =>
    if localGranuleIndex < current.cachedSize then
      .ok (⟨index, head, current, [], wasRead⟩, localGranuleIndex)
    else .error (.internal "ASSERTION FAILED: currDatasetIndex < int(datasets.size())".toList)
  | next :: following =>
    if localGranuleIndex < current.cachedSize then
      .ok (⟨index, head, current, next :: following, wasRead⟩, localGranuleIndex)
    else
      seek (index + 1) (head + current.cachedSize) next false
        (localGranuleIndex - current.cachedSize) following

structure State (α σ : Type) where
  position : Position α
  template : List Dim
  /-- The datasets that were read, with the constraint on the join dimension. -/
  reads : List (Nat × Dim)
  nextOutputBufferElementIndex : Nat
  out : σ

def visit (name : Str) (outer : Dim) (emit : Emit α σ) (outerDimIndex : Nat)
    (state : State α σ) : Except Failure (State α σ) := do
  let before := state.position
  let (position, localGranuleIndex) ← seek before.index before.head before.current
    before.wasRead (outerDimIndex - before.head) before.following
  if position.wasRead then
    .ok { state with position := position }
  else
    match state.template with
    | [] => .error .malformed
    | outerDim :: inner =>
      let currDatasetSize := position.current.cachedSize
      let granuleStopIndex := min (outer.stop - position.head) (currDatasetSize - 1)
      let clampedStride := min outer.stride currDatasetSize
      let outerDim ← { outerDim with size := currDatasetSize }.addConstraint localGranuleIndex
        clampedStride granuleStopIndex
      let template := outerDim :: inner
      let values ← readDatasetArrayDataForAggregation template name position.current
      let out ← emit state.out state.nextOutputBufferElementIndex (length template) values
      .ok {
        position := { position with wasRead := true }
        template := template
        reads := state.reads ++ [(position.index, outerDim)]
        nextOutputBufferElementIndex :=
          (state.nextOutputBufferElementIndex + length template) % 2 ^ 32
        out := out }

/-- The traversal, which `serialize` and the read hook have each for themselves. -/
def traverse (array : Aggregate α) (emit : Emit α σ) (template : List Dim) (out : σ) :
    Except Failure (State α σ) :=
  match array.datasets with
  | [] => .error (.internal "ASSERTION FAILED: !datasets.empty()".toList)
  | current :: following =>
    rethrow (outerLoop array.outer (visit array.name array.outer emit) array.outer.start
      ⟨⟨0, 0, current, following, false⟩, template, [], 0, out⟩)

def transferOutputConstraintsIntoGranuleTemplateHook (array : Aggregate α) :
    Except Failure (List Dim) :=
  transferArrayConstraints array.template array.dims true true

def readConstrainedGranuleArraysAndAggregateDataHook (array : Aggregate α) (template : List Dim) :
    Except Failure (State α (List (Option α))) :=
  traverse array store template array.capacity

def read (array : Aggregate α) : Except Failure (Aggregate α) :=
  array.read (transferOutputConstraintsIntoGranuleTemplateHook array) fun template =>
    (readConstrainedGranuleArraysAndAggregateDataHook array template).map fun state =>
      (state.out, state.template)

def serialize (partOf : PartOf α) (array : Aggregate α) :
    Except Failure (List (Put α) × Aggregate α) :=
  array.serialize (transferOutputConstraintsIntoGranuleTemplateHook array) fun template =>
    (traverse array (put partOf array.element) template
      [.vectorStart (length array.dims)]).map fun state =>
        (state.out, state.template)

end JoinExisting

namespace JoinNew

structure State (σ : Type) where
  nextElementIndex : Nat
  out : σ

def visit (array : Aggregate α) (template : List Dim) (emit : Emit α σ) (i : Nat)
    (state : State σ) : Except Failure (State σ) :=
  match array.datasets[i]? with
  | none => .error .malformed
  | some dataset =>
    let emitted := do
      let values ← readDatasetArrayDataForAggregation template array.name dataset
      emit state.out state.nextElementIndex (length template) values
    match emitted with
    | .error (.aggregation message) =>
      .error (.parse ("Got AggregationException while streaming dataset index=".toList
        ++ (toString i).toList ++ " data for location=\"".toList ++ dataset.location
        ++ "\" The error msg was: ".toList ++ message))
    | .error failure => .error failure
    | .ok out =>
      let nextElementIndex := state.nextElementIndex + length template
      if nextElementIndex < 2 ^ 31 then .ok ⟨nextElementIndex, out⟩ else .error .overflow

def traverse (array : Aggregate α) (emit : Emit α σ) (template : List Dim) (out : σ) :
    Except Failure (State σ) :=
  if array.outer.size ≠ array.datasets.length then
    .error (.parse ("The new outer dimension of the joinNew aggregation doesn't ".toList
      ++ " have the same size as the number of datasets in the aggregation!".toList))
  else do
    let state ← outerLoop array.outer (visit array template emit) array.outer.start ⟨0, out⟩
    if state.nextElementIndex ≠ length array.dims then
      .error (.internal ("At end of aggregating, expected the nextElementIndex to be the ".toList
        ++ "length of the aggregated array, but it wasn't!".toList))
    else .ok state

def transferOutputConstraintsIntoGranuleTemplateHook (array : Aggregate α) :
    Except Failure (List Dim) :=
  transferArrayConstraints array.template array.dims true false

def readConstrainedGranuleArraysAndAggregateDataHook (array : Aggregate α) (template : List Dim) :
    Except Failure (State (List (Option α))) :=
  traverse array store template array.capacity

def read (array : Aggregate α) : Except Failure (Aggregate α) :=
  array.read (transferOutputConstraintsIntoGranuleTemplateHook array) fun template =>
    (readConstrainedGranuleArraysAndAggregateDataHook array template).map fun state =>
      (state.out, template)

def serialize (partOf : PartOf α) (array : Aggregate α) :
    Except Failure (List (Put α) × Aggregate α) :=
  array.serialize (transferOutputConstraintsIntoGranuleTemplateHook array) fun template =>
    (traverse array (put partOf array.element) template
      [.vectorStart (length array.dims)]).map fun state =>
        (state.out, template)

end JoinNew

end Bes.Ncml
