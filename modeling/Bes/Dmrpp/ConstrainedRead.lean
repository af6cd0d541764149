import Bes.Dmrpp.Array
import Bes.Lib.Buffer

/-! Reading a chunked array under a constraint: which chunks are needed and
where the elements of each one go. The result is the hyperslab of the stored
array, for every rank, chunk shape, stride and chunk order. -/
namespace Bes.Dmrpp.ConstrainedRead
open Lib.Buffer Lib.Loop Lib.RowMajor Option
open Dmrpp.Array

structure Axis where
  thisDim : Dimension
  chunkOrigin : Nat
  chunkSize : Nat

namespace Axis

def chunkStart (axis : Axis) : Nat := getChunkStart axis.thisDim axis.chunkOrigin

def endElement (axis : Axis) : Nat :=
  if axis.thisDim.stop < axis.chunkOrigin + axis.chunkSize - 1 then axis.thisDim.stop
  else axis.chunkOrigin + axis.chunkSize - 1

def chunkEnd (axis : Axis) : Nat := axis.endElement - axis.chunkOrigin

def chunkIndices (axis : Axis) : List Nat :=
  strided axis.chunkStart axis.chunkEnd axis.thisDim.stride

def targetIndex (axis : Axis) (chunkIndex : Nat) : Nat :=
  (chunkIndex + axis.chunkOrigin - axis.thisDim.start) / axis.thisDim.stride

def Kept (axis : Axis) : Prop :=
  ¬ (axis.thisDim.start > axis.chunkOrigin + axis.chunkSize ∨
      axis.thisDim.stop < axis.chunkOrigin) ∧
    ¬ axis.chunkStart > axis.chunkSize

instance (axis : Axis) : Decidable axis.Kept := inferInstanceAs (Decidable (_ ∧ _))

def Covers (axis : Axis) (k : Nat) : Prop :=
  axis.chunkOrigin ≤ axis.thisDim.select k ∧
    axis.thisDim.select k < axis.chunkOrigin + axis.chunkSize ∧
    axis.thisDim.select k ≤ axis.thisDim.stop

variable {axis : Axis}

theorem endElement_le_stop (axis : Axis) : axis.endElement ≤ axis.thisDim.stop := by
  unfold endElement
  split
  · exact le_rfl
  · omega

theorem mem_chunkIndices (hsiz : 0 < axis.chunkSize)
    (hstp : axis.chunkOrigin ≤ axis.thisDim.stop) (p : Nat) :
    p ∈ axis.chunkIndices ↔ p < axis.chunkSize ∧ ∃ k, axis.thisDim.select k = axis.chunkOrigin + p ∧
        axis.thisDim.select k ≤ axis.thisDim.stop := by
  obtain ⟨first, hfst⟩ := getChunkStart_selected axis.thisDim axis.chunkOrigin
  unfold chunkIndices
  rw [mem_strided axis.thisDim.stride_pos]
  unfold chunkEnd endElement chunkStart
  unfold Dimension.select at hfst ⊢
  constructor
  · rintro ⟨hlow, hhgh, steps, hste⟩
    have hsel : axis.thisDim.start + (first + steps) * axis.thisDim.stride =
        axis.chunkOrigin + p := by
      rw [add_mul, mul_comm steps]
      omega
    refine ⟨?_, first + steps, hsel, ?_⟩
    · split at hhgh <;> omega
    · split at hhgh <;> omega
  · rintro ⟨hp, k, hsel, hle⟩
    have hlea := getChunkStart_least axis.thisDim axis.chunkOrigin hsel
    refine ⟨hlea, ?_, k - first, ?_⟩
    · split <;> omega
    · have hmul : (k - first) * axis.thisDim.stride =
          k * axis.thisDim.stride - first * axis.thisDim.stride := Nat.sub_mul _ _ _
      rw [mul_comm, hmul]
      omega

theorem targetIndex_eq {k p : Nat} (hsel : axis.thisDim.select k = axis.chunkOrigin + p) :
    axis.targetIndex p = k := by
  unfold targetIndex
  unfold Dimension.select at hsel
  rw [show p + axis.chunkOrigin - axis.thisDim.start = k * axis.thisDim.stride by omega]
  exact Nat.mul_div_cancel k axis.thisDim.stride_pos

theorem select_targetIndex (hsiz : 0 < axis.chunkSize)
    (hstp : axis.chunkOrigin ≤ axis.thisDim.stop) {p : Nat} (hp : p ∈ axis.chunkIndices) :
    axis.thisDim.select (axis.targetIndex p) = axis.chunkOrigin + p ∧
      p < axis.chunkSize ∧ axis.targetIndex p < axis.thisDim.constrainedSize := by
  obtain ⟨hlt, k, hsel, hle⟩ := (mem_chunkIndices hsiz hstp p).mp hp
  rw [targetIndex_eq hsel, Dimension.lt_constrainedSize]
  exact ⟨hsel, hlt, hle⟩

theorem covers_iff (hsiz : 0 < axis.chunkSize) (hstp : axis.chunkOrigin ≤ axis.thisDim.stop) (k : Nat) :
    axis.Covers k ↔ ∃ p ∈ axis.chunkIndices, axis.targetIndex p = k := by
  constructor
  · rintro ⟨hlow, hhgh, hle⟩
    have hsel : axis.thisDim.select k =
        axis.chunkOrigin + (axis.thisDim.select k - axis.chunkOrigin) := by omega
    refine ⟨axis.thisDim.select k - axis.chunkOrigin, ?_, targetIndex_eq hsel⟩
    exact (mem_chunkIndices hsiz hstp _).mpr ⟨by omega, k, hsel, hle⟩
  · rintro ⟨p, hp, rfl⟩
    obtain ⟨hsel, hlt, hbd⟩ := select_targetIndex hsiz hstp hp
    exact ⟨by omega, by omega, Dimension.lt_constrainedSize.mp hbd⟩

theorem kept_of_covers {k : Nat} (hcov : axis.Covers k) : axis.Kept := by
  obtain ⟨hlow, hhgh, hle⟩ := hcov
  have hsta : axis.thisDim.start ≤ axis.thisDim.select k := Nat.le_add_right _ _
  have hlea := getChunkStart_least axis.thisDim axis.chunkOrigin (k := k)
    (p := axis.thisDim.select k - axis.chunkOrigin) (by omega)
  unfold Kept chunkStart
  omega

theorem chunkStart_le_endElement (hkpt : axis.Kept) (hstr : axis.thisDim.stride = 1) :
    axis.chunkOrigin + axis.chunkStart ≤ axis.endElement + 1 := by
  have hsta : axis.chunkStart = axis.thisDim.start - axis.chunkOrigin := by
    unfold chunkStart getChunkStart
    split
    · rw [if_neg (not_not.mpr hstr)]
      omega
    · rfl
  have hle := axis.thisDim.start_le_stop
  unfold Kept at hkpt
  unfold endElement
  split <;> omega

theorem covers_run (hsiz : 0 < axis.chunkSize)
    (hstr : axis.thisDim.stride = 1) (k : Nat) :
    axis.Covers k ↔ ∃ e < axis.endElement + 1 - (axis.chunkOrigin + axis.chunkStart),
      k = axis.chunkOrigin + axis.chunkStart - axis.thisDim.start + e := by
  obtain ⟨first, hfst⟩ := getChunkStart_selected axis.thisDim axis.chunkOrigin
  have hlea : ∀ {j p}, axis.thisDim.select j = axis.chunkOrigin + p → axis.chunkStart ≤ p :=
    fun h => getChunkStart_least _ _ h
  unfold Covers endElement
  unfold Dimension.select at hfst hlea ⊢
  rw [hstr] at hfst hlea ⊢
  change _ = _ + axis.chunkStart at hfst
  constructor
  · rintro ⟨hlow, hhgh, hle⟩
    have hsta := hlea (j := k) (p := axis.thisDim.start + k * 1 - axis.chunkOrigin) (by omega)
    refine ⟨k + axis.thisDim.start - (axis.chunkOrigin + axis.chunkStart), ?_, by omega⟩
    split <;> omega
  · rintro ⟨e, he, rfl⟩
    split at he <;> omega

end Axis

def axisAt (array : DmrppArray) (chunk : Chunk) (dim : Nat) : Option Axis := do
  let thisDim ← array.dims[dim]?
  let chunkOrigin ← chunk.positionInArray[dim]?
  let chunkSize ← array.chunkDimensionSizes[dim]?
  some ⟨thisDim, chunkOrigin, chunkSize⟩

/-- `find_needed_chunks`. The first number is `last_dim - dim`, so zero is the
test `dim == last_dim`. The answer `none` is the null pointer. -/
def findNeededChunks (array : DmrppArray) (chunk : Chunk) :
    Nat → Nat → List Nat → Option (Option Chunk × List Nat)
  | 0, dim, targetElementAddress => do
      let axis ← axisAt array chunk dim
      if axis.Kept then some (some chunk, targetElementAddress)
      else some (none, targetElementAddress)
  | rest + 1, dim, targetElementAddress => do
      let axis ← axisAt array chunk dim
      if axis.Kept then
        firstFound (fun address chunkIndex =>
            findNeededChunks array chunk rest (dim + 1)
              (address.set dim (axis.targetIndex chunkIndex)))
          axis.chunkIndices targetElementAddress
      else some (none, targetElementAddress)

structure InsertState where
  targetElementAddress : List Nat
  chunkElementAddress : List Nat
  targetBuffer : List Byte

namespace InsertState

def setAddress (s : InsertState) (dim target source : Nat) : InsertState :=
  { s with
    targetElementAddress := s.targetElementAddress.set dim target
    chunkElementAddress := s.chunkElementAddress.set dim source }

end InsertState

def copyElements (array : DmrppArray) (chunk : Chunk) (constrainedArrayShape : List Nat)
    (s : InsertState) (count : Int) : Option InsertState := do
  let targetStartIndex ← getIndex s.targetElementAddress constrainedArrayShape
  let chunkStartIndex ← getIndex s.chunkElementAddress array.chunkDimensionSizes
  let targetBuffer ← memcpy s.targetBuffer (targetStartIndex * array.elemWidth)
    chunk.readBuffer (chunkStartIndex * array.elemWidth) (count * array.elemWidth)
  some { s with targetBuffer := targetBuffer }

def insertChunk (array : DmrppArray) (chunk : Chunk) (constrainedArrayShape : List Nat) :
    Nat → Nat → InsertState → Option InsertState
  | 0, dim, s => do
      let axis ← axisAt array chunk dim
      if axis.thisDim.stride = 1 then
        let startElement := axis.chunkOrigin + axis.chunkStart
        copyElements array chunk constrainedArrayShape
          (s.setAddress dim (startElement - axis.thisDim.start) axis.chunkStart)
          ((axis.endElement : Int) - startElement + 1)
      else
        axis.chunkIndices.foldlM (fun s chunkIndex =>
          copyElements array chunk constrainedArrayShape
            (s.setAddress dim (axis.targetIndex chunkIndex) chunkIndex) 1) s
  | rest + 1, dim, s => do
      let axis ← axisAt array chunk dim
      axis.chunkIndices.foldlM (fun s chunkIndex =>
        insertChunk array chunk constrainedArrayShape rest (dim + 1)
          (s.setAddress dim (axis.targetIndex chunkIndex) chunkIndex)) s

/-- The calls `read_chunks` makes to find the chunks it needs, in list order. -/
def neededChunks (array : DmrppArray) : List Chunk → Option (List Chunk)
  | [] => some []
  | chunk :: chunks => do
      let (needed, _) ← findNeededChunks array chunk array.lastDim 0 chunk.positionInArray
      let others ← neededChunks array chunks
      match needed with
      | some found => some (found :: others)
      | none => some others

theorem findNeededChunks_found (rest : Nat) :
    ∀ {dim : Nat} {address address' : List Nat} {found : Chunk},
      findNeededChunks array chunk rest dim address = some (some found, address') → found = chunk := by
  induction rest with
  | zero =>
    intro dim address address' found hfnd
    rw [findNeededChunks, bind_eq_bind, bind_eq_some_iff] at hfnd
    obtain ⟨axis, -, hfnd⟩ := hfnd
    split at hfnd
    · cases hfnd
      rfl
    · cases hfnd
  | succ rest ih =>
    intro dim address address' found hfnd
    rw [findNeededChunks, bind_eq_bind, bind_eq_some_iff] at hfnd
    obtain ⟨axis, -, hfnd⟩ := hfnd
    split at hfnd
    · apply firstFound_some (fun b => b = chunk) _ _ _ _ hfnd
      intro i _ s b s' hbdy
      exact ih hbdy
    · cases hfnd

theorem neededChunks_sublist :
    ∀ {kept : List Chunk}, neededChunks array chunks = some kept → kept.Sublist chunks := by
  induction chunks with
  | nil =>
    intro kept hkpt
    cases hkpt
    exact List.Sublist.slnil
  | cons chunk chunks ih =>
    intro kept hkpt
    simp only [neededChunks, bind_eq_bind, bind_eq_some_iff] at hkpt
    obtain ⟨⟨needed, address⟩, hfnd, others, hoth, hkpt⟩ := hkpt
    cases needed with
    | none =>
      cases hkpt
      exact (ih hoth).cons chunk
    | some found =>
      cases hkpt
      rw [findNeededChunks_found _ hfnd]
      exact (ih hoth).cons_cons chunk

/-- The insertion half of `process_one_chunk`: the chunk has been read and
filtered. -/
def insertReadChunk (array : DmrppArray) (buffer : List Byte) (chunk : Chunk) :
    Option (List Byte) := do
  let s ← insertChunk array chunk array.constrainedShape array.lastDim 0
    ⟨chunk.positionInArray, List.replicate array.dims.length 0, buffer⟩
  some s.targetBuffer

/-- `read_chunks` past its size check, on chunks that have been read: finding no
chunk at all is an error. -/
def readNeededChunks (array : DmrppArray) (chunks : List Chunk) (buffer : List Byte) :
    Option (List Byte) := do
  let needed ← neededChunks array chunks
  if needed = [] then none
  else needed.foldlM (insertReadChunk array) buffer

end Bes.Dmrpp.ConstrainedRead
