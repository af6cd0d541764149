import Bes.Lib.Loop
import Bes.Lib.RowMajor

/-! The array variable of the DMR++ handler: its constrained dimensions, its
chunk shape and the index arithmetic shared by every way of reading it. Integers
are unbounded here. A C assertion that fails, a subscript past the end of a
vector and a null dereference all leave a function without a result. -/
namespace Bes.Dmrpp.Array
open Lib.RowMajor List

abbrev Byte := UInt8

/-- `libdap::Array::dimension` with a constraint the array accepted. -/
structure Dimension where
  size : Nat
  start : Nat
  stop : Nat
  stride : Nat
  start_le_stop : start ≤ stop
  stop_lt_size : stop < size
  stride_pos : 0 < stride
deriving DecidableEq

namespace Dimension

/-- `dimension_size (dim, true)`: the number of indices the constraint selects. -/
def constrainedSize (dim : Dimension) : Nat := (dim.stop - dim.start) / dim.stride + 1

/-- The index that the `k`-th selected element has in the whole array. -/
def select (dim : Dimension) (k : Nat) : Nat := dim.start + k * dim.stride

theorem lt_constrainedSize {dim : Dimension} {k : Nat} :
    k < dim.constrainedSize ↔ dim.select k ≤ dim.stop := by
  have hle := dim.start_le_stop
  unfold constrainedSize select
  rw [Nat.lt_succ_iff, Nat.le_div_iff_mul_le dim.stride_pos]
  omega

end Dimension

/-- One chunk of a variable: where its bytes are stored and, once read, the
memory block that holds them. `fillValue` is the value that `get_value_ptr` makes
of the fill value text, as bytes. -/
structure Chunk where
  dataUrl : Option String := none
  size : Nat := 0
  offset : Nat := 0
  usesFillValue : Bool := false
  fillValue : List Byte := []
  positionInArray : List Nat := []
  readBuffer : List Byte := []
deriving DecidableEq

/-- A chunked array variable. `elemWidth` is `prototype()->width()`. -/
structure DmrppArray where
  dims : List Dimension
  chunkDimensionSizes : List Nat
  elemWidth : Nat
  rank_pos : dims ≠ []
  rank_eq : chunkDimensionSizes.length = dims.length
  chunk_pos : ∀ size ∈ chunkDimensionSizes, 0 < size
  width_pos : 0 < elemWidth

namespace DmrppArray

def shape (array : DmrppArray) : List Nat := array.dims.map Dimension.size

/-- `get_shape (true)`. -/
def constrainedShape (array : DmrppArray) : List Nat :=
  array.dims.map Dimension.constrainedSize

def lastDim (array : DmrppArray) : Nat := array.chunkDimensionSizes.length - 1

end DmrppArray

def getIndexLoop : List Nat → List Nat → Nat → Nat → Option Nat
  | [], _, _, offset => some offset
  | _ :: _, [], _, _ => none
  | index :: address, size :: shape, multiplierVar, offset =>
      if index < size then
        getIndexLoop address shape (multiplierVar * size) (offset + multiplierVar * index)
      else none

/-- Offset of an address in the vector that stores an array of `targetShape`.
The assertion does not cover the fastest dimension. -/
def getIndex (addressInTarget targetShape : List Nat) : Option Nat :=
  if addressInTarget.length = targetShape.length then
    match addressInTarget.reverse, targetShape.reverse with
    | index :: address, size :: shape => getIndexLoop address shape size index
    | _, _ => none
  else none

private theorem getIndexLoop_eq (hbds : InBounds shape address) (multiplierVar offset : Nat) :
    getIndexLoop address shape multiplierVar offset =
      some (offset + multiplierVar * rowMajor shape.reverse address.reverse) := by
  induction hbds generalizing multiplierVar offset with
  | nil => simp [getIndexLoop]
  | @cons size index shape address hidx hrst ih =>
    rw [getIndexLoop, if_pos hidx, ih]
    rw [reverse_cons, reverse_cons, rowMajor_append (by simp [hrst.length_eq]), rowMajor_singleton]
    simp only [prod_singleton, Option.some.injEq]
    ring

theorem getIndex_eq (hbds : InBounds shape address) (size index : Nat) :
    getIndex (address ++ [index]) (shape ++ [size]) =
      some (rowMajor (shape ++ [size]) (address ++ [index])) := by
  have hlen : (address ++ [index]).length = (shape ++ [size]).length := by
    simp [hbds.length_eq]
  have hrev : InBounds shape.reverse address.reverse := rel_reverse hbds
  unfold getIndex
  rw [if_pos hlen]
  simp only [reverse_append, reverse_cons, reverse_nil, nil_append, singleton_append]
  rw [getIndexLoop_eq hrev, reverse_reverse, reverse_reverse,
    rowMajor_append hbds.length_eq.symm, rowMajor_singleton, prod_singleton]
  ring

/-- First element of a chunk that the constraint selects in one dimension,
counted from the chunk's origin. -/
def getChunkStart (thisDim : Dimension) (chunkOrigin : Nat) : Nat :=
  if thisDim.start < chunkOrigin then
    if thisDim.stride ≠ 1 then
      let firstElementOffset := (chunkOrigin - thisDim.start) % thisDim.stride
      if firstElementOffset ≠ 0 then thisDim.stride - firstElementOffset
      else firstElementOffset
    else 0
  else thisDim.start - chunkOrigin

theorem getChunkStart_selected (thisDim : Dimension) (chunkOrigin : Nat) :
    ∃ k, thisDim.select k = chunkOrigin + getChunkStart thisDim chunkOrigin := by
  unfold getChunkStart Dimension.select
  split
  next hbef =>
    split
    next hstr =>
      dsimp only
      have hdec := Nat.div_add_mod (chunkOrigin - thisDim.start) thisDim.stride
      have hlt := Nat.mod_lt (chunkOrigin - thisDim.start) thisDim.stride_pos
      split
      · refine ⟨(chunkOrigin - thisDim.start) / thisDim.stride + 1, ?_⟩
        rw [add_mul, mul_comm _ thisDim.stride]
        omega
      · refine ⟨(chunkOrigin - thisDim.start) / thisDim.stride, ?_⟩
        rw [mul_comm _ thisDim.stride]
        omega
    next hstr =>
      refine ⟨chunkOrigin - thisDim.start, ?_⟩
      rw [not_not.mp hstr]
      omega
  · exact ⟨0, by omega⟩

theorem getChunkStart_least (thisDim : Dimension) (chunkOrigin : Nat) {k p : Nat}
    (hsel : thisDim.select k = chunkOrigin + p) : getChunkStart thisDim chunkOrigin ≤ p := by
  unfold Dimension.select at hsel
  unfold getChunkStart
  split
  next hbef =>
    split
    · dsimp only
      split
      next hstr hne =>
        -- the offset of the origin and `p` add up to a multiple of the stride
        have hsum : ((chunkOrigin - thisDim.start) + p) % thisDim.stride = 0 := by
          rw [show chunkOrigin - thisDim.start + p = k * thisDim.stride by omega]
          exact Nat.mul_mod_left k thisDim.stride
        by_contra hsmall
        push Not at hsmall
        have hp : p < thisDim.stride := by omega
        rw [Nat.add_mod, Nat.mod_eq_of_lt hp, Nat.mod_eq_of_lt (by omega)] at hsum
        omega
      next hzer =>
        omega
    · exact Nat.zero_le p
  next hins =>
    omega

end Bes.Dmrpp.Array
