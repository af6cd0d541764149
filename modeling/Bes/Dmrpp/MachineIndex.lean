import Bes.Dmrpp.SingleChunk
import Bes.Lib.WordLoop

/-! The index arithmetic of `insert_constrained_contiguous` in the integer types it is written with.
`get_index` and the loop for stride one compute in 64 bits; the loop for other strides keeps the source
index in 32 bits and multiplies it by the width in 32 bits. -/
namespace Bes.Dmrpp.MachineIndex
open Lib.Buffer Lib.Loop Lib.RowMajor Lib.WordLoop List Option
open Dmrpp.Array Dmrpp.Hyperslab Dmrpp.SingleChunk

def getIndexLoop : List UInt64 → List UInt64 → UInt64 → UInt64 → Option UInt64
  | [], _, _, offset => some offset
  | _ :: _, [], _, _ => none
  | index :: address, size :: shape, multiplierVar, offset =>
      if index < size then
        getIndexLoop address shape (multiplierVar * size) (offset + multiplierVar * index)
      else none

def getIndex (addressInTarget targetShape : List UInt64) : Option UInt64 :=
  if addressInTarget.length = targetShape.length then
    match addressInTarget.reverse, targetShape.reverse with
    | index :: address, size :: shape => getIndexLoop address shape size index
    | _, _ => none
  else none

def words (values : List Nat) : List UInt64 := values.map UInt64.ofNat

structure CopyState where
  targetIndex : UInt64
  buffer : List Byte

/-- Copy a single value from `source_byte` on and advance the target. -/
def copyElement (bytesPerElem : UInt32) (srcBuf : List Byte) (s : CopyState) (sourceByte : UInt64) :
    Option CopyState := do
  let targetByte := s.targetIndex * bytesPerElem.toUInt64
  let buffer ← memcpy s.buffer targetByte.toNat srcBuf sourceByte.toNat bytesPerElem.toNat
  some ⟨s.targetIndex + 1, buffer⟩

/-- `unsigned int sourceIndex = get_index (..)`, and the product of two `unsigned int`. -/
def stridedSourceByte (bytesPerElem : UInt32) (index : UInt64) : UInt64 :=
  (index.toUInt32 * bytesPerElem).toUInt64

def dimIndices (dim : Dimension) : Option (List UInt32) :=
  loopValues (fun i => decide (i ≤ UInt32.ofNat dim.stop)) (· + UInt32.ofNat dim.stride) (2 ^ 32)
    (UInt32.ofNat dim.start)

def sourceIndices (startIndex stopIndex : UInt64) : Option (List UInt64) :=
  loopValues (fun i => decide (i ≤ stopIndex)) (· + 1) (2 ^ 64) startIndex

def insertConstrainedContiguous (bytesPerElem : UInt32) (arrayShape : List UInt64)
    (srcBuf : List Byte) : List Dimension → List UInt64 → CopyState → Option CopyState
  | [], _, _ => none
  | [dim], subsetAddr, s =>
      if UInt32.ofNat dim.stride = 1 then do
        let startIndex ← getIndex (subsetAddr ++ [(UInt32.ofNat dim.start).toUInt64]) arrayShape
        let stopIndex ← getIndex (subsetAddr ++ [(UInt32.ofNat dim.stop).toUInt64]) arrayShape
        let indices ← sourceIndices startIndex stopIndex
        indices.foldlM (fun s sourceIndex =>
          copyElement bytesPerElem srcBuf s (sourceIndex * bytesPerElem.toUInt64)) s
      else do
        let indices ← dimIndices dim
        indices.foldlM (fun s myDimIndex => do
          let index ← getIndex (subsetAddr ++ [myDimIndex.toUInt64]) arrayShape
          copyElement bytesPerElem srcBuf s (stridedSourceByte bytesPerElem index)) s
  | dim :: next :: rest, subsetAddr, s => do
      let indices ← dimIndices dim
      indices.foldlM (fun s myDimIndex =>
        insertConstrainedContiguous bytesPerElem arrayShape srcBuf (next :: rest)
          (subsetAddr ++ [myDimIndex.toUInt64]) s) s

structure Fits (array : DmrppArray) : Prop where
  width : array.elemWidth ∈ [1, 2, 4, 8]
  dims : ∀ dim ∈ array.dims, dim.size < 2 ^ 31 ∧ dim.stride < 2 ^ 31
  chunks : ∀ size ∈ array.chunkDimensionSizes, size < 2 ^ 31
  arrayBytes : array.shape.prod * array.elemWidth < 2 ^ 63
  chunkBytes : array.chunkDimensionSizes.prod * array.elemWidth < 2 ^ 63

theorem Fits.width_le (hfts : Fits array) : array.elemWidth ≤ 8 := by
  have hwid := hfts.width
  simp only [mem_cons, not_mem_nil, or_false] at hwid
  omega

theorem Fits.narrowed_le (hfts : Fits array) (i : Nat) :
    i * array.elemWidth % 2 ^ 32 + array.elemWidth ≤ 2 ^ 32 := by
  have hwid := hfts.width
  simp only [mem_cons, not_mem_nil, or_false] at hwid
  rcases hwid with hwid | hwid | hwid | hwid <;> rw [hwid] <;> omega

theorem constrainedSize_le (dim : Dimension) : dim.constrainedSize ≤ dim.size := by
  have hstp := dim.stop_lt_size
  have hle := Nat.div_le_self (dim.stop - dim.start) dim.stride
  unfold Dimension.constrainedSize
  omega

theorem constrained_prod_le (array : DmrppArray) : array.constrainedShape.prod ≤ array.shape.prod := by
  apply prod_le_prod
  unfold DmrppArray.constrainedShape DmrppArray.shape
  rw [forall₂_map_left_iff, forall₂_map_right_iff, forall₂_same]
  intro dim _
  exact constrainedSize_le dim

theorem prod_lt_of_bytes {prod : Nat} (hwid : 0 < width) (hbyt : prod * width < 2 ^ 63) :
    prod < 2 ^ 63 :=
  lt_of_le_of_lt (Nat.le_mul_of_pos_right prod hwid) hbyt

theorem Fits.constrained_bytes_lt (hfts : Fits array) :
    array.constrainedShape.prod * array.elemWidth < 2 ^ 63 :=
  lt_of_le_of_lt (Nat.mul_le_mul_right array.elemWidth (constrained_prod_le array))
    hfts.arrayBytes

/-! `get_index` does not wrap. -/

theorem toNat_word (hlt : n < 2 ^ 64) : (UInt64.ofNat n).toNat = n := by
  rw [UInt64.toNat_ofNat']
  omega

theorem toNat_halfword (hlt : n < 2 ^ 31) : (UInt32.ofNat n).toNat = n := by
  rw [UInt32.toNat_ofNat']
  omega

theorem toNat_sub_word {a b : UInt64} (hle : b.toNat ≤ a.toNat) : (a - b).toNat = a.toNat - b.toNat :=
  UInt64.toNat_sub_of_le a b (UInt64.le_iff_toNat_le.mpr hle)

theorem toNat_sub_halfword {a b : UInt32} (hle : b.toNat ≤ a.toNat) :
    (a - b).toNat = a.toNat - b.toNat :=
  UInt32.toNat_sub_of_le a b (UInt32.le_iff_toNat_le.mpr hle)

theorem toNat_words (hlt : ∀ value ∈ values, value < 2 ^ 63) :
    (words values).map UInt64.toNat = values := by
  induction values with
  | nil => rfl
  | cons value values ih =>
    have hval := hlt value mem_cons_self
    have hrst := ih fun other hmem => hlt other (mem_cons_of_mem value hmem)
    unfold words at hrst ⊢
    rw [map_cons, map_cons, toNat_word (by omega), hrst]

section

variable {array : DmrppArray}

theorem Fits.toNat_shape (hfts : Fits array) : (words array.shape).map UInt64.toNat = array.shape := by
  apply toNat_words
  intro size hmem
  obtain ⟨dim, hdim, rfl⟩ := mem_map.mp hmem
  have := (hfts.dims dim hdim).1
  omega

theorem Fits.toNat_constrainedShape (hfts : Fits array) :
    (words array.constrainedShape).map UInt64.toNat = array.constrainedShape := by
  apply toNat_words
  intro size hmem
  obtain ⟨dim, hdim, rfl⟩ := mem_map.mp hmem
  have := (hfts.dims dim hdim).1
  have := constrainedSize_le dim
  omega

theorem Fits.toNat_chunkDimensionSizes (hfts : Fits array) :
    (words array.chunkDimensionSizes).map UInt64.toNat = array.chunkDimensionSizes := by
  apply toNat_words
  intro size hmem
  have := hfts.chunks size hmem
  omega

theorem Fits.toNat_width (hfts : Fits array) :
    (UInt32.ofNat array.elemWidth).toUInt64.toNat = array.elemWidth := by
  have := hfts.width_le
  rw [UInt32.toNat_toUInt64, toNat_halfword (by omega)]

end

theorem inBounds_toNat
    (hbds : Forall₂ (fun size i => UInt64.toNat i < UInt64.toNat size) shape address) :
    InBounds (shape.map UInt64.toNat) (address.map UInt64.toNat) := by
  rw [InBounds, forall₂_map_left_iff, forall₂_map_right_iff]
  exact hbds

private theorem getIndexLoop_eq
    (hbds : Forall₂ (fun size i => UInt64.toNat i < UInt64.toNat size) shape address)
    (multiplierVar offset : UInt64) (hoff : offset.toNat ≤ multiplierVar.toNat)
    (hprd : multiplierVar.toNat * (shape.map UInt64.toNat).prod < 2 ^ 63) :
    ∃ index, getIndexLoop address shape multiplierVar offset = some index ∧
      Array.getIndexLoop (address.map UInt64.toNat) (shape.map UInt64.toNat) multiplierVar.toNat
        offset.toNat = some index.toNat := by
  induction hbds generalizing multiplierVar offset with
  | nil => exact ⟨offset, rfl, rfl⟩
  | @cons size index shape address hidx hrst ih =>
    have hpos : 0 < (shape.map UInt64.toNat).prod :=
      Nat.zero_lt_of_lt (rowMajor_lt (inBounds_toNat hrst))
    rw [map_cons, prod_cons, ← mul_assoc] at hprd
    have hsiz : multiplierVar.toNat * size.toNat < 2 ^ 63 :=
      lt_of_le_of_lt (Nat.le_mul_of_pos_right _ hpos) hprd
    have hstp : multiplierVar.toNat * index.toNat + multiplierVar.toNat ≤
        multiplierVar.toNat * size.toNat := by
      exact Nat.mul_le_mul_left _ hidx
    have hmlt : (multiplierVar * size).toNat = multiplierVar.toNat * size.toNat := by
      rw [UInt64.toNat_mul]
      omega
    have hadd : (offset + multiplierVar * index).toNat =
        offset.toNat + multiplierVar.toNat * index.toNat := by
      rw [UInt64.toNat_add, UInt64.toNat_mul]
      omega
    obtain ⟨result, hrun, hnat⟩ := ih (multiplierVar * size) (offset + multiplierVar * index)
      (by rw [hadd, hmlt]; omega) (by rw [hmlt]; exact hprd)
    refine ⟨result, ?_, ?_⟩
    · rw [getIndexLoop, if_pos (UInt64.lt_iff_toNat_lt.mpr hidx), hrun]
    · rw [map_cons, map_cons, Array.getIndexLoop, if_pos hidx, ← hadd, ← hmlt, hnat]

/-- In a shape of fewer than `2 ^ 63` elements `get_index` is the row-major position, also one past the
end of the fastest dimension. -/
theorem getIndex_eq {i : Nat} (hadr : address.map UInt64.toNat = outer ++ [i])
    (hsha : shape.map UInt64.toNat = outerShape ++ [size]) (hbds : InBounds outerShape outer)
    (hi : i ≤ size) (hprd : (outerShape ++ [size]).prod < 2 ^ 63) :
    ∃ index, getIndex address shape = some index ∧
      index.toNat = rowMajor (outerShape ++ [size]) (outer ++ [i]) := by
  obtain ⟨outerWords, last, rfl, hwor, hlst⟩ := map_eq_append_iff.mp hadr
  obtain ⟨iWord, rfl, rfl⟩ := map_eq_singleton_iff.mp hlst
  obtain ⟨shapeWords, last, rfl, hshp, hlst⟩ := map_eq_append_iff.mp hsha
  obtain ⟨sizeWord, rfl, rfl⟩ := map_eq_singleton_iff.mp hlst
  have hlen : (outerWords ++ [iWord]).length = (shapeWords ++ [sizeWord]).length := by
    have hout := congrArg length hwor
    have hsiz := congrArg length hshp
    have hrnk := hbds.length_eq
    simp only [length_map] at hout hsiz
    simp only [length_append, length_singleton]
    omega
  have hrev : Forall₂ (fun size i => UInt64.toNat i < UInt64.toNat size)
      shapeWords.reverse outerWords.reverse := by
    rw [← hwor, ← hshp, InBounds, forall₂_map_left_iff, forall₂_map_right_iff] at hbds
    exact rel_reverse hbds
  obtain ⟨index, hrun, hnat⟩ := getIndexLoop_eq hrev sizeWord iWord hi (by
    rw [map_reverse, hshp, prod_reverse, mul_comm]
    rwa [prod_append, prod_singleton] at hprd)
  refine ⟨index, ?_, ?_⟩
  · rw [getIndex, if_pos hlen]
    simpa using hrun
  · have hunb := Array.getIndex_eq hbds sizeWord.toNat iWord.toNat
    rw [Array.getIndex, if_pos (by simp [hbds.length_eq])] at hunb
    simp only [reverse_append, reverse_cons, reverse_nil, nil_append, singleton_append] at hunb
    rw [map_reverse, map_reverse, hwor, hshp, hunb, some.injEq] at hnat
    exact hnat.symm

theorem charIndex_eq (hfts : Fits array) {i : Nat} (hadr : address.map UInt64.toNat = outer ++ [i])
    (hsha : shape.map UInt64.toNat = outerShape ++ [size]) (hbds : InBounds outerShape outer)
    (hi : i ≤ size) (hbyt : (outerShape ++ [size]).prod * array.elemWidth < 2 ^ 63) :
    ∃ index, getIndex address shape = some index ∧
      (index * (UInt32.ofNat array.elemWidth).toUInt64).toNat =
        rowMajor (outerShape ++ [size]) (outer ++ [i]) * array.elemWidth := by
  obtain ⟨index, hget, hidx⟩ := getIndex_eq hadr hsha hbds hi
    (prod_lt_of_bytes array.width_pos hbyt)
  have hle : rowMajor (outerShape ++ [size]) (outer ++ [i]) ≤ (outerShape ++ [size]).prod :=
    rowMajor_run_le hbds (show i + 0 ≤ size from hi)
  have hmul := Nat.mul_le_mul_right array.elemWidth hle
  refine ⟨index, hget, ?_⟩
  rw [UInt64.toNat_mul, hfts.toNat_width, hidx]
  omega

theorem Fits.start_lt (hfts : Fits array)
    (hmem : dim ∈ array.dims) : dim.start < 2 ^ 31 ∧ dim.stop < 2 ^ 31 ∧ dim.stride < 2 ^ 31 := by
  have hdim := hfts.dims dim hmem
  have hle := dim.start_le_stop
  have hstp := dim.stop_lt_size
  omega

/-- The loop over one dimension ends, on the values of the unbounded loop: with start, stop and stride
below `2 ^ 31` the last step stays below `2 ^ 32`. -/
theorem dimIndices_eq {dim : Dimension}
    (hlt : dim.start < 2 ^ 31 ∧ dim.stop < 2 ^ 31 ∧ dim.stride < 2 ^ 31) :
    ∃ indices, dimIndices dim = some indices ∧
      indices.map UInt32.toNat = strided dim.start dim.stop dim.stride := by
  have hsta := toNat_halfword hlt.1
  have hstp := toNat_halfword hlt.2.1
  have hstr := toNat_halfword hlt.2.2
  rw [← hsta]
  apply loopValues_strided
  · intro i
    simp only [UInt32.le_iff_toNat_le, hstp]
  · simp only [UInt32.toNat_add, hstr]
    omega
  · exact dim.stride_pos
  · omega

theorem sourceIndices_eq {startIndex stopIndex : UInt64} (hlt : stopIndex.toNat < 2 ^ 63) :
    ∃ indices, sourceIndices startIndex stopIndex = some indices ∧
      indices.map UInt64.toNat = strided startIndex.toNat stopIndex.toNat 1 := by
  apply loopValues_strided
  · intro i
    simp only [UInt64.le_iff_toNat_le]
  · simp only [UInt64.toNat_add, UInt64.toNat_one]
    omega
  · exact one_pos
  · omega

theorem toNat_iterate_add (step : UInt32) (n : Nat) :
    ∀ i : UInt32, ((· + step)^[n] i).toNat = (i.toNat + n * step.toNat) % 2 ^ 32 := by
  induction n with
  | zero =>
    intro i
    have := i.toNat_lt
    simp only [Function.iterate_zero, id_eq]
    omega
  | succ n ih =>
    intro i
    rw [Function.iterate_succ_apply, ih, UInt32.toNat_add, Nat.succ_mul]
    omega

/-- After as many steps as there are values the variable is back, so a loop without an answer is a loop
without end. -/
theorem loopValues_none_iff_endless (inside : UInt32 → Bool) (step first : UInt32) :
    loopValues inside (· + step) (2 ^ 32) first = none ↔ ∀ n, inside ((· + step)^[n] first) = true := by
  have hper : Function.IsPeriodicPt (· + step) (2 ^ 32) first := by
    apply UInt32.toNat_inj.mp
    have := first.toNat_lt
    rw [toNat_iterate_add]
    omega
  exact loopValues_eq_none_iff_forever hper (by decide)

theorem exists_outside_of_loopValues
    {values : List UInt32} (hlop : loopValues inside (· + step) (2 ^ 32) first = some values) :
    ∃ n, ¬ inside ((· + step)^[n] first) = true := by
  by_contra hall
  push Not at hall
  rw [(loopValues_none_iff_endless inside step first).mpr hall] at hlop
  cases hlop

variable {array : DmrppArray}

structure SameCopy (width : Nat) (s : CopyState) (t : ContiguousRead.CopyState) : Prop where
  target : s.targetIndex.toNat = t.targetIndex
  buffer : s.buffer = t.buffer
  inside : t.targetIndex * width ≤ t.buffer.length
  length_lt : t.buffer.length < 2 ^ 63

theorem copyElement_same (hpos : 0 < width) (hwid : width ≤ 8) {s : CopyState}
    (hsou : sourceByte.toNat = sourceIndex * width) (hsam : SameCopy width s t) :
    Option.Rel (SameCopy width) (copyElement (UInt32.ofNat width) srcBuf s sourceByte)
      (ContiguousRead.copyElement width srcBuf t sourceIndex) := by
  have hins := hsam.inside
  have hlt := hsam.length_lt
  have hwrd : (UInt32.ofNat width).toNat = width := toNat_halfword (by omega)
  have htgt : (s.targetIndex * (UInt32.ofNat width).toUInt64).toNat = t.targetIndex * width := by
    rw [UInt64.toNat_mul, UInt32.toNat_toUInt64, hwrd, hsam.target]
    omega
  unfold copyElement ContiguousRead.copyElement
  simp only [htgt, hsou, hwrd, hsam.buffer, bind_eq_bind]
  cases hcpy : memcpy t.buffer (t.targetIndex * width) srcBuf (sourceIndex * width) width with
  | none => exact .none
  | some after =>
    obtain ⟨hend, hfil⟩ := memcpy_some_fills hcpy
    have hnxt : (t.targetIndex + 1) * width ≤ after.length := by
      rw [Nat.succ_mul, hfil.length_eq]
      exact hend
    have hle : t.targetIndex + 1 ≤ (t.targetIndex + 1) * width := Nat.le_mul_of_pos_right _ hpos
    have hlen := hfil.length_eq.symm
    refine .some ⟨?_, rfl, hnxt, hlen ▸ hlt⟩
    simp only [UInt64.toNat_add, hsam.target, UInt64.toNat_one]
    omega

/-- Every source byte of a strided innermost loop fits into an `unsigned int`. -/
def SourceNarrow (array : DmrppArray) : Prop :=
  ∀ k, InBounds array.constrainedShape k →
    rowMajor array.shape (selectIndex array k) * array.elemWidth < 2 ^ 32

theorem toNat_stridedSourceByte (hwid : width ≤ 8) (index : UInt64) :
    (stridedSourceByte (UInt32.ofNat width) index).toNat = index.toNat * width % 2 ^ 32 := by
  have hwrd : (UInt32.ofNat width).toNat = width := toNat_halfword (by omega)
  unfold stridedSourceByte
  rw [UInt32.toNat_toUInt64, UInt32.toNat_mul, UInt64.toNat_toUInt32, hwrd, Nat.mod_mul_mod]

/-- `stride` of the dimension that is handled by the innermost loop. -/
def InnermostStrideOne (array : DmrppArray) : Prop :=
  ∀ first dim, array.dims = first ++ [dim] → dim.stride = 1

theorem halfword_eq_one_iff (hlt : n < 2 ^ 31) : UInt32.ofNat n = 1 ↔ n = 1 := by
  rw [← UInt32.toNat_inj, toNat_halfword hlt, UInt32.toNat_one]

section

variable {first : List Dimension} {dim : Dimension}

theorem getIndex_lastDim (hfts : Fits array) (hlst : LastDim array first dim k)
    (hadr : address.map UInt64.toNat = zipWith Dimension.select first k)
    {i : UInt32} (hi : i.toNat < dim.size) :
    ∃ index, getIndex (address ++ [i.toUInt64]) (words array.shape) = some index ∧
      index.toNat = rowMajor array.shape (zipWith Dimension.select first k ++ [i.toNat]) ∧
      index.toNat < array.shape.prod := by
  have hprd : array.shape.prod < 2 ^ 63 := prod_lt_of_bytes array.width_pos hfts.arrayBytes
  have hwor := hfts.toNat_shape
  have hbds := inBounds_select hlst.outer
  have hsha := hlst.shape_eq
  rw [hsha] at hprd hwor ⊢
  have hcom : (address ++ [i.toUInt64]).map UInt64.toNat =
      zipWith Dimension.select first k ++ [i.toNat] := by
    rw [map_append, hadr]
    rfl
  obtain ⟨index, hget, hidx⟩ := getIndex_eq hcom hwor hbds hi.le hprd
  refine ⟨index, hget, hidx, ?_⟩
  rw [hidx]
  exact rowMajor_lt (rel_append hbds (.cons hi .nil))

theorem lt_size_of_mem_strided {i : Nat} (hmem : i ∈ strided dim.start dim.stop dim.stride) :
    i < dim.size := by
  have hle := ((mem_strided dim.stride_pos i).mp hmem).2.1
  have hstp := dim.stop_lt_size
  omega

theorem insert_lastDim_same (hfts : Fits array) (hlst : LastDim array first dim k)
    (hnar : dim.stride ≠ 1 → SourceNarrow array)
    (hadr : address.map UInt64.toNat = zipWith Dimension.select first k)
    {s : CopyState} (hsam : SameCopy array.elemWidth s t) : Option.Rel (SameCopy array.elemWidth)
      (insertConstrainedContiguous (UInt32.ofNat array.elemWidth) (words array.shape) srcBuf [dim]
        address s) (ContiguousRead.insertConstrainedContiguous array.elemWidth array.shape srcBuf [dim]
        (zipWith Dimension.select first k) t) := by
  have hmem : dim ∈ array.dims := by simp [hlst.dims]
  have hlt := hfts.start_lt hmem
  have hbyt := hfts.arrayBytes
  by_cases hstr : dim.stride = 1
  · have hsta : (UInt32.ofNat dim.start).toNat = dim.start := toNat_halfword hlt.1
    have hstp : (UInt32.ofNat dim.stop).toNat = dim.stop := toNat_halfword hlt.2.1
    obtain ⟨startIndex, hges, hstx, -⟩ := getIndex_lastDim hfts hlst hadr
      (show (UInt32.ofNat dim.start).toNat < dim.size by
        have := dim.start_le_stop
        have := dim.stop_lt_size
        omega)
    obtain ⟨stopIndex, hgep, hsto, hstt⟩ := getIndex_lastDim hfts hlst hadr
      (show (UInt32.ofNat dim.stop).toNat < dim.size by
        rw [hstp]
        exact dim.stop_lt_size)
    have hprd := prod_lt_of_bytes array.width_pos hfts.arrayBytes
    obtain ⟨indices, hlop, hvls⟩ := @sourceIndices_eq startIndex stopIndex
      (lt_trans hstt hprd)
    rw [hsta] at hstx
    rw [hstp] at hsto
    simp only [insertConstrainedContiguous, ContiguousRead.insertConstrainedContiguous,
      hstr, ↓reduceIte, hges, hgep, hlop,
      hlst.getIndex_eq, bind_eq_bind, bind_some, ← hstx, ← hsto,
      ← hvls, foldlM_map]
    apply foldlM_rel indices _ s t hsam
    intro i hi s t hst
    have hle : i.toNat ≤ stopIndex.toNat := by
      have hmap := mem_map_of_mem (f := UInt64.toNat) hi
      rw [hvls, mem_strided one_pos] at hmap
      exact hmap.2.1
    have hbyte : i.toNat * array.elemWidth ≤ array.shape.prod * array.elemWidth :=
      Nat.mul_le_mul_right _ (by omega)
    apply copyElement_same array.width_pos hfts.width_le _ hst
    rw [UInt64.toNat_mul, hfts.toNat_width]
    omega
  · obtain ⟨indices, hlop, hvls⟩ := dimIndices_eq hlt
    simp only [insertConstrainedContiguous, ContiguousRead.insertConstrainedContiguous,
      mt (halfword_eq_one_iff hlt.2.2).mp hstr, hstr, ↓reduceIte, hlop,
      bind_eq_bind, bind_some, ← hvls, foldlM_map]
    apply foldlM_rel indices _ s t hsam
    intro i hi s t hst
    have hmap : i.toNat ∈ strided dim.start dim.stop dim.stride := hvls ▸ mem_map_of_mem hi
    obtain ⟨index, hget, hidx, -⟩ := getIndex_lastDim hfts hlst hadr (lt_size_of_mem_strided hmap)
    obtain ⟨n, hn⟩ := getElem?_of_mem hmap
    obtain ⟨hsel, hbd⟩ := getElem?_strided_dim hn
    have hsma := hnar hstr (k ++ [n]) (hlst.inBounds hbd)
    rw [hlst.selectIndex_eq, ← hsel, ← hidx] at hsma
    simp only [hget, hlst.getIndex_eq, bind_some]
    apply copyElement_same array.width_pos hfts.width_le _ hst
    rw [toNat_stridedSourceByte hfts.width_le, Nat.mod_eq_of_lt hsma, hidx]

end

/-- Under the condition the two computations agree; the induction is on the dimensions after `dim`. -/
theorem insert_same (hfts : Fits array) (hnar : InnermostStrideOne array ∨ SourceNarrow array)
    (rest : List Dimension) :
    ∀ (dim : Dimension) (first : List Dimension) (k : List Nat) (address : List UInt64)
      (s : CopyState) (t : ContiguousRead.CopyState), array.dims = first ++ dim :: rest →
      InBounds (first.map Dimension.constrainedSize) k →
      address.map UInt64.toNat = zipWith Dimension.select first k → SameCopy array.elemWidth s t →
      Option.Rel (SameCopy array.elemWidth)
        (insertConstrainedContiguous (UInt32.ofNat array.elemWidth) (words array.shape) srcBuf
          (dim :: rest) address s)
        (ContiguousRead.insertConstrainedContiguous array.elemWidth array.shape srcBuf (dim :: rest)
          (zipWith Dimension.select first k) t) := by
  induction rest with
  | nil =>
    intro dim first k address s t hdms hk hadr hsam
    apply insert_lastDim_same hfts ⟨hdms, hk⟩ _ hadr hsam
    intro hstr
    exact hnar.resolve_left fun hone => hstr (hone first dim hdms)
  | cons next rest ih =>
    intro dim first k address s t hdms hk hadr hsam
    have hmem : dim ∈ array.dims := by simp [hdms]
    obtain ⟨indices, hlop, hvls⟩ := dimIndices_eq (hfts.start_lt hmem)
    simp only [insertConstrainedContiguous, ContiguousRead.insertConstrainedContiguous, hlop,
      bind_eq_bind, bind_some, ← hvls, foldlM_map]
    apply foldlM_rel indices _ s t hsam
    intro i hi s t hst
    have hmap : i.toNat ∈ strided dim.start dim.stop dim.stride := hvls ▸ mem_map_of_mem hi
    obtain ⟨n, hn⟩ := getElem?_of_mem hmap
    obtain ⟨hsel, hbd⟩ := getElem?_strided_dim hn
    have hnxt := select_concat hk dim n
    rw [← hsel] at hnxt
    rw [← hnxt]
    apply ih next (first ++ [dim]) (k ++ [n]) _ s t
    · rw [hdms, append_assoc]
      rfl
    · exact inBounds_concat hk hbd
    · rw [map_append, hadr, hnxt]
      rfl
    · exact hst

def CopiesAsUnbounded (array : DmrppArray) : Prop :=
  ∀ srcBuf buffer : List Byte, srcBuf.length = array.shape.prod * array.elemWidth →
    buffer.length = array.constrainedShape.prod * array.elemWidth →
    (insertConstrainedContiguous (UInt32.ofNat array.elemWidth) (words array.shape) srcBuf array.dims []
        ⟨0, buffer⟩).map CopyState.buffer =
      (ContiguousRead.insertConstrainedContiguous array.elemWidth array.shape srcBuf array.dims []
        ⟨0, buffer⟩).map ContiguousRead.CopyState.buffer

theorem copiesAsUnbounded_of (hfts : Fits array)
    (hnar : InnermostStrideOne array ∨ SourceNarrow array) : CopiesAsUnbounded array := by
  intro srcBuf buffer _ hbuf
  obtain ⟨dim, rest, hdms⟩ := exists_cons_of_ne_nil array.rank_pos
  have hlen : buffer.length < 2 ^ 63 := hbuf ▸ hfts.constrained_bytes_lt
  have hrel := @insert_same array srcBuf hfts hnar rest dim [] [] [] ⟨0, buffer⟩ ⟨0, buffer⟩
    hdms .nil rfl ⟨rfl, rfl, by simp, hlen⟩
  rw [← hdms, zipWith_nil_left] at hrel
  apply map_eq_of_rel hrel
  intro s t hsam
  exact hsam.buffer

/-! The condition is needed: a strided loop never reads behind the first `2 ^ 32` bytes. -/

def AllZero (bytes : List Byte) : Prop := ∀ (i : Nat) (x : Byte), bytes[i]? = some x → x = 0

theorem memcpy_allZero {after : List Byte} {count : Nat}
    (hsrc : ∀ i < 2 ^ 32, ∀ x, srcBuf[i]? = some x → x = 0) (hran : sourceStart + count ≤ 2 ^ 32)
    (hbef : AllZero before)
    (hcpy : memcpy before targetStart srcBuf sourceStart count = some after) : AllZero after := by
  obtain ⟨-, hfil⟩ := memcpy_some_fills hcpy
  intro i x hx
  by_cases hi : i ∈ { i | targetStart ≤ i ∧ i < targetStart + count }
  · have hins := hfil.inside i hi
    obtain ⟨hlow, hhgh⟩ := hi
    exact hsrc _ (by omega) x (hins ▸ hx)
  · rw [hfil.outside i hi] at hx
    exact hbef i x hx

theorem copyElement_allZero {s : CopyState} (hsrc : ∀ i < 2 ^ 32, ∀ x, srcBuf[i]? = some x → x = 0)
    (hran : sourceByte.toNat + bytesPerElem.toNat ≤ 2 ^ 32) (hs : AllZero s.buffer)
    (hcpy : copyElement bytesPerElem srcBuf s sourceByte = some s') : AllZero s'.buffer := by
  obtain ⟨after, hmmc, haft⟩ := bind_eq_some_iff.mp hcpy
  cases haft
  exact memcpy_allZero hsrc hran hs hmmc

theorem insert_allZero (hfts : Fits array)
    (hsrc : ∀ i < 2 ^ 32, ∀ x, srcBuf[i]? = some x → x = 0) (shape : List UInt64)
    (rest : List Dimension) : ∀ (dim : Dimension) (address : List UInt64) (s s' : CopyState),
      (∀ first last, dim :: rest = first ++ [last] → UInt32.ofNat last.stride ≠ 1) → AllZero s.buffer →
      insertConstrainedContiguous (UInt32.ofNat array.elemWidth) shape srcBuf (dim :: rest) address s =
        some s' → AllZero s'.buffer := by
  have hwid := hfts.width_le
  induction rest with
  | nil =>
    intro dim address s s' hlst hs hrun
    rw [insertConstrainedContiguous, if_neg (hlst [] dim rfl), bind_eq_bind, bind_eq_some_iff] at hrun
    obtain ⟨indices, -, hrun⟩ := hrun
    apply foldlM_keeps indices _ s s' hs hrun
    intro i _ s s' hs hstp
    obtain ⟨index, -, hcpy⟩ := bind_eq_some_iff.mp hstp
    apply copyElement_allZero hsrc _ hs hcpy
    rw [toNat_stridedSourceByte hwid, toNat_halfword (by omega)]
    exact hfts.narrowed_le index.toNat
  | cons next rest ih =>
    intro dim address s s' hlst hs hrun
    rw [insertConstrainedContiguous, bind_eq_bind, bind_eq_some_iff] at hrun
    obtain ⟨indices, -, hrun⟩ := hrun
    apply foldlM_keeps indices _ s s' hs hrun
    intro i _ s s' hs hstp
    apply ih next _ s s' _ hs hstp
    intro first last hspl
    exact hlst (dim :: first) last (by rw [hspl]; rfl)

def lateOnes (length : Nat) : List Byte :=
  (range length).map fun i => if i < 2 ^ 32 then 0 else 1

theorem getElem?_lateOnes {length i : Nat} (hi : i < length) :
    (lateOnes length)[i]? = some (if i < 2 ^ 32 then 0 else 1) := by
  simp [lateOnes, hi]

theorem lateOnes_zero (length : Nat) : ∀ i < 2 ^ 32, ∀ x, (lateOnes length)[i]? = some x → x = 0 := by
  intro i hi x hx
  have hlt : i < length := by
    simpa [lateOnes] using (List.getElem?_eq_some_iff.mp hx).1
  rw [getElem?_lateOnes hlt, if_pos hi] at hx
  exact (some.inj hx).symm

theorem inBounds_selectIndex {k : List Nat} (hk : InBounds array.constrainedShape k) :
    InBounds array.shape (selectIndex array k) :=
  inBounds_select hk

theorem present_lateOnes (array : DmrppArray) :
    Present array (lateOnes (array.shape.prod * array.elemWidth)) := by
  intro k hk
  have hlt := rowMajor_lt (inBounds_selectIndex hk)
  simp only [lateOnes, length_map, length_range]
  exact Nat.mul_le_mul_right _ hlt

theorem sourceNarrow_of_copies (hfts : Fits array) {first : List Dimension} {last : Dimension}
    (hdms : array.dims = first ++ [last]) (hstr : last.stride ≠ 1)
    (hcop : CopiesAsUnbounded array) : SourceNarrow array := by
  intro k hk
  by_contra hlarge
  obtain ⟨dim, rest, hcns⟩ := exists_cons_of_ne_nil array.rank_pos
  have hmem : last ∈ array.dims := by simp [hdms]
  have hone := mt (halfword_eq_one_iff (hfts.dims last hmem).2).mp hstr
  have hequ := hcop (lateOnes (array.shape.prod * array.elemWidth))
    (replicate (array.constrainedShape.prod * array.elemWidth) 0) (by simp [lateOnes]) (by simp)
  obtain ⟨t, hrun, hfil⟩ := insertConstrainedContiguous_whole (present_lateOnes array)
    (length_replicate (a := 0))
  rw [hrun, map_some, map_eq_some_iff] at hequ
  obtain ⟨s, hmac, hbuf⟩ := hequ
  -- the machine's buffer stays zero, the element at `k` should be one
  have hzer : AllZero s.buffer := by
    rw [hcns] at hmac
    apply insert_allZero hfts (lateOnes_zero _) _ rest dim [] _ s _ _ hmac
    · intro front back hspl
      rw [← hcns, hdms] at hspl
      rw [← singleton_inj.mp (append_inj_right' hspl rfl)]
      exact hone
    · intro i x hx
      exact eq_of_mem_replicate (mem_of_getElem? hx)
  have hins := hfil.inside _ (rowMajor_byte_lt hk array.width_pos)
  rw [hyperslab_apply hk array.width_pos, ← getElem?_of_present (present_lateOnes array) hk
    array.width_pos, getElem?_lateOnes (rowMajor_byte_lt (inBounds_selectIndex hk) array.width_pos),
    if_neg (by simpa using hlarge), ← hbuf] at hins
  exact absurd (hzer _ _ hins) (by decide)

end Bes.Dmrpp.MachineIndex
