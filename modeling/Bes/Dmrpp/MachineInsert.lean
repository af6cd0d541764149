import Bes.Dmrpp.MachineIndex

/-! `insert_chunk` in the integer types it is written with, and when it and
`insert_constrained_contiguous` copy what they would copy with unbounded integers. In the strided
innermost loop both character indices are stored in an `unsigned int`. -/
namespace Bes.Dmrpp.MachineInsert
open Lib.Buffer Lib.Loop Lib.RowMajor Lib.WordLoop List Option
open Dmrpp.Array Dmrpp.ConstrainedRead Dmrpp.Hyperslab Dmrpp.MachineIndex

def getChunkStart (thisDim : Dimension) (chunkOrigin : UInt32) : UInt64 :=
  let start := UInt32.ofNat thisDim.start
  let stride := UInt32.ofNat thisDim.stride
  if start < chunkOrigin then
    if stride ≠ 1 then
      let firstElementOffset := ((chunkOrigin - start) % stride).toUInt64
      if firstElementOffset ≠ 0 then stride.toUInt64 - firstElementOffset
      else firstElementOffset
    else 0
  else (start - chunkOrigin).toUInt64

def chunkStart (axis : Axis) : UInt64 :=
  getChunkStart axis.thisDim (UInt64.ofNat axis.chunkOrigin).toUInt32

def endElement (axis : Axis) : UInt64 :=
  let endElement := UInt64.ofNat axis.chunkOrigin + UInt64.ofNat axis.chunkSize - 1
  let stop := (UInt32.ofNat axis.thisDim.stop).toUInt64
  if stop < endElement then stop else endElement

def chunkEnd (axis : Axis) : UInt64 := endElement axis - UInt64.ofNat axis.chunkOrigin

/-- Values of `unsigned int chunk_index`, compared with the 64 bits of `chunk_end`. -/
def chunkIndices (axis : Axis) : Option (List UInt32) :=
  loopValues (fun i => decide (i.toUInt64 ≤ chunkEnd axis)) (· + UInt32.ofNat axis.thisDim.stride)
    (2 ^ 32) (chunkStart axis).toUInt32

def targetIndex (axis : Axis) (chunkIndex : UInt32) : UInt64 :=
  (chunkIndex.toUInt64 + UInt64.ofNat axis.chunkOrigin - UInt64.ofNat axis.thisDim.start) /
    UInt64.ofNat axis.thisDim.stride

structure InsertState where
  targetElementAddress : List UInt64
  chunkElementAddress : List UInt64
  targetBuffer : List Byte

def InsertState.setAddress (s : InsertState) (dim : Nat) (target source : UInt64) : InsertState :=
  { s with
    targetElementAddress := s.targetElementAddress.set dim target
    chunkElementAddress := s.chunkElementAddress.set dim source }

/-- The two calls of `get_index` and the `memcpy`. `narrow` is what the type of the two character
indices makes of the product. -/
def copyElements (narrow : UInt64 → UInt64) (array : DmrppArray) (chunk : Chunk)
    (constrainedArrayShape : List UInt64) (s : InsertState) (bytes : UInt64) :
    Option InsertState := do
  let elemWidth := (UInt32.ofNat array.elemWidth).toUInt64
  let targetIndex ← getIndex s.targetElementAddress constrainedArrayShape
  let chunkIndex ← getIndex s.chunkElementAddress (words array.chunkDimensionSizes)
  let targetBuffer ← memcpy s.targetBuffer (narrow (targetIndex * elemWidth)).toNat chunk.readBuffer
    (narrow (chunkIndex * elemWidth)).toNat bytes.toNat
  some { s with targetBuffer := targetBuffer }

/-- `unsigned int target_char_start_index = ..` -/
def toUnsigned (index : UInt64) : UInt64 := index.toUInt32.toUInt64

def insertChunk (array : DmrppArray) (chunk : Chunk) (constrainedArrayShape : List UInt64) :
    Nat → Nat → InsertState → Option InsertState
  | 0, dim, s => do
      let axis ← axisAt array chunk dim
      if UInt32.ofNat axis.thisDim.stride = 1 then
        let startElement := UInt64.ofNat axis.chunkOrigin + chunkStart axis
        copyElements id array chunk constrainedArrayShape
          (s.setAddress dim (startElement - UInt64.ofNat axis.thisDim.start) (chunkStart axis))
          ((endElement axis - startElement + 1) * (UInt32.ofNat array.elemWidth).toUInt64)
      else
        let indices ← chunkIndices axis
        indices.foldlM (fun s chunkIndex =>
          copyElements toUnsigned array chunk constrainedArrayShape
            (s.setAddress dim (targetIndex axis chunkIndex) chunkIndex.toUInt64)
            (UInt32.ofNat array.elemWidth).toUInt64) s
  | rest + 1, dim, s => do
      let axis ← axisAt array chunk dim
      let indices ← chunkIndices axis
      indices.foldlM (fun s chunkIndex =>
        insertChunk array chunk constrainedArrayShape rest (dim + 1)
          (s.setAddress dim (targetIndex axis chunkIndex) chunkIndex.toUInt64)) s

/-- An axis whose numbers are below `2 ^ 31`, of a chunk that was kept. -/
structure Small (axis : Axis) : Prop where
  start : axis.thisDim.start < 2 ^ 31
  stop : axis.thisDim.stop < 2 ^ 31
  stride : axis.thisDim.stride < 2 ^ 31
  size : axis.chunkSize < 2 ^ 31
  size_pos : 0 < axis.chunkSize
  kept : axis.Kept

namespace Small

section

variable (hsmall : Small axis)

include hsmall

theorem origin_le : axis.chunkOrigin ≤ axis.thisDim.stop := by
  have hkept := hsmall.kept
  unfold Axis.Kept at hkept
  omega

theorem chunkStart_le : axis.chunkStart ≤ axis.chunkSize := by
  have hkept := hsmall.kept
  unfold Axis.Kept at hkept
  omega

theorem toNat_origin : (UInt64.ofNat axis.chunkOrigin).toNat = axis.chunkOrigin := by
  have := hsmall.origin_le
  have := hsmall.stop
  exact toNat_word (by omega)

theorem toNat_chunkStart : (chunkStart axis).toNat = axis.chunkStart := by
  have hle := hsmall.origin_le
  have hlts := hsmall.stop
  have hsta := toNat_halfword hsmall.start
  have hstr := toNat_halfword hsmall.stride
  have horigin : (UInt64.ofNat axis.chunkOrigin).toUInt32.toNat = axis.chunkOrigin := by
    rw [UInt64.toNat_toUInt32, hsmall.toNat_origin]
    omega
  have hoff : axis.thisDim.start < axis.chunkOrigin →
      (((UInt64.ofNat axis.chunkOrigin).toUInt32 - UInt32.ofNat axis.thisDim.start) %
        UInt32.ofNat axis.thisDim.stride).toNat =
      (axis.chunkOrigin - axis.thisDim.start) % axis.thisDim.stride := by
    intro hbefore
    rw [UInt32.toNat_mod, toNat_sub_halfword (by omega), hsta, hstr, horigin]
  have hlt := Nat.mod_lt (axis.chunkOrigin - axis.thisDim.start) axis.thisDim.stride_pos
  unfold chunkStart getChunkStart Axis.chunkStart Array.getChunkStart
  simp only [UInt32.lt_iff_toNat_lt, hsta, horigin, ne_eq, halfword_eq_one_iff hsmall.stride,
    ← UInt64.toNat_inj, UInt32.toNat_toUInt64, UInt64.toNat_zero]
  split
  next hbefore =>
    rw [hoff hbefore]
    split
    · split
      · rw [toNat_sub_word, UInt32.toNat_toUInt64, UInt32.toNat_toUInt64, hstr, hoff hbefore]
        rw [UInt32.toNat_toUInt64, UInt32.toNat_toUInt64, hstr, hoff hbefore]
        exact hlt.le
      · rw [UInt32.toNat_toUInt64, hoff hbefore]
    · rfl
  · rw [UInt32.toNat_toUInt64, toNat_sub_halfword (by omega), hsta, horigin]

theorem toNat_endElement : (endElement axis).toNat = axis.endElement := by
  have horigin := hsmall.toNat_origin
  have hle := hsmall.origin_le
  have hlts := hsmall.stop
  have hlti := hsmall.size
  have hpos := hsmall.size_pos
  have hsize : (UInt64.ofNat axis.chunkSize).toNat = axis.chunkSize := toNat_word (by omega)
  have hend : (UInt64.ofNat axis.chunkOrigin + UInt64.ofNat axis.chunkSize - 1).toNat =
      axis.chunkOrigin + axis.chunkSize - 1 := by
    have hadd : (UInt64.ofNat axis.chunkOrigin + UInt64.ofNat axis.chunkSize).toNat =
        axis.chunkOrigin + axis.chunkSize := by
      rw [UInt64.toNat_add, horigin, hsize]
      omega
    rw [toNat_sub_word, hadd, UInt64.toNat_one]
    rw [hadd, UInt64.toNat_one]
    omega
  unfold endElement Axis.endElement
  simp only [UInt64.lt_iff_toNat_lt, UInt32.toNat_toUInt64, toNat_halfword hsmall.stop, hend]
  split
  · rw [UInt32.toNat_toUInt64, toNat_halfword hsmall.stop]
  · exact hend

theorem origin_le_endElement : axis.chunkOrigin ≤ axis.endElement := by
  have hle := hsmall.origin_le
  have hpos := hsmall.size_pos
  unfold Axis.endElement
  split <;> omega

theorem toNat_chunkEnd : (chunkEnd axis).toNat = axis.chunkEnd := by
  have hle := hsmall.origin_le_endElement
  unfold chunkEnd Axis.chunkEnd
  rw [toNat_sub_word, hsmall.toNat_endElement, hsmall.toNat_origin]
  rw [hsmall.toNat_endElement, hsmall.toNat_origin]
  exact hle

theorem chunkIndices_eq : ∃ indices, chunkIndices axis = some indices ∧
      indices.map UInt32.toNat = axis.chunkIndices := by
  have hstr := toNat_halfword hsmall.stride
  have hlts := hsmall.stride
  have hltt := hsmall.stop
  have hlti := hsmall.size
  have hend := Axis.endElement_le_stop axis
  have hchunk : axis.chunkEnd ≤ axis.endElement := Nat.sub_le _ _
  have hfirst : (chunkStart axis).toUInt32.toNat = axis.chunkStart := by
    have hle := hsmall.chunkStart_le
    rw [UInt64.toNat_toUInt32, hsmall.toNat_chunkStart]
    omega
  unfold Axis.chunkIndices
  rw [← hfirst]
  apply loopValues_strided
  · intro i
    simp only [UInt64.le_iff_toNat_le, UInt32.toNat_toUInt64, hsmall.toNat_chunkEnd]
  · simp only [UInt32.toNat_add, hstr]
    omega
  · exact axis.thisDim.stride_pos
  · omega

theorem toNat_targetIndex {p : UInt32} (hp : p.toNat ∈ axis.chunkIndices) :
    (targetIndex axis p).toNat = axis.targetIndex p.toNat := by
  obtain ⟨hselect, hlt, -⟩ := Axis.select_targetIndex hsmall.size_pos hsmall.origin_le hp
  have hle : axis.thisDim.start ≤ p.toNat + axis.chunkOrigin := by
    rw [add_comm, ← hselect]
    exact Nat.le_add_right _ _
  have hori := hsmall.origin_le
  have hlts := hsmall.stop
  have hlti := hsmall.size
  have hltt := hsmall.stride
  have hsta : (UInt64.ofNat axis.thisDim.start).toNat = axis.thisDim.start := toNat_word (by omega)
  have hstr : (UInt64.ofNat axis.thisDim.stride).toNat = axis.thisDim.stride :=
    toNat_word (by omega)
  have hadd : (p.toUInt64 + UInt64.ofNat axis.chunkOrigin).toNat = p.toNat + axis.chunkOrigin := by
    rw [UInt64.toNat_add, UInt32.toNat_toUInt64, hsmall.toNat_origin]
    omega
  unfold targetIndex Axis.targetIndex
  rw [UInt64.toNat_div, hstr, toNat_sub_word, hadd, hsta]
  rw [hadd, hsta]
  exact hle

end

end Small

variable {array : DmrppArray} {chunk : Chunk}

structure SameInsert (array : DmrppArray) (first : List Axis) (k : List Nat) (inner : Nat)
    (s : InsertState) (t : ConstrainedRead.InsertState) : Prop where
  target : s.targetElementAddress.map UInt64.toNat = t.targetElementAddress
  source : s.chunkElementAddress.map UInt64.toNat = t.chunkElementAddress
  buffer : s.targetBuffer = t.targetBuffer
  addressed : Addressed array first k inner t

section

variable {first : List Axis} {inner : Nat}

theorem SameInsert.setAddress {i p : UInt64} (hcvr : Forall₂ Axis.Covers first k)
    (hloc : axis.thisDim.select i.toNat - axis.chunkOrigin = p.toNat)
    (hsame : SameInsert array first k (inner + 1) s t) :
    SameInsert array (first ++ [axis]) (k ++ [i.toNat]) inner (s.setAddress first.length i p)
      (t.setAddress first.length i.toNat p.toNat) := by
  refine ⟨?_, ?_, hsame.buffer, hsame.addressed.setAddress hcvr hloc⟩
  · simp only [InsertState.setAddress, ConstrainedRead.InsertState.setAddress, map_set, hsame.target]
  · simp only [InsertState.setAddress, ConstrainedRead.InsertState.setAddress, map_set, hsame.source]

theorem SameInsert.outer {i : Nat} (hcvr : Forall₂ Axis.Covers first k)
    (hsame : SameInsert array (first ++ [axis]) (k ++ [i]) inner s t) :
    SameInsert array first k (inner + 1) s t :=
  ⟨hsame.target, hsame.source, hsame.buffer, hsame.addressed.outer hcvr⟩

theorem copyElements_same (narrow : UInt64 → UInt64) (count : Int) {i : Nat}
    (hfits : Fits array) (hof : AxesOf array chunk (first ++ [axis]))
    (hcvr : Forall₂ Axis.Covers first k) (hi : i ≤ axis.thisDim.constrainedSize)
    (hp : axis.thisDim.select i - axis.chunkOrigin ≤ axis.chunkSize)
    (hbytes : (bytes.toNat : Int) = count * array.elemWidth)
    (htarget : ∀ x : UInt64, x.toNat = rowMajor array.constrainedShape (k ++ [i]) * array.elemWidth →
      (narrow x).toNat = x.toNat)
    (hsource : ∀ x : UInt64, x.toNat = rowMajor array.chunkDimensionSizes
        (localAddress (first ++ [axis]) (k ++ [i])) * array.elemWidth →
      ∀ before targetStart, memcpy before targetStart chunk.readBuffer (narrow x).toNat bytes.toNat =
        memcpy before targetStart chunk.readBuffer x.toNat bytes.toNat)
    (hsame : SameInsert array (first ++ [axis]) (k ++ [i]) 0 s t) :
    Option.Rel (SameInsert array (first ++ [axis]) (k ++ [i]) 0)
      (copyElements narrow array chunk (words array.constrainedShape) s bytes)
      (ConstrainedRead.copyElements array chunk array.constrainedShape t count) := by
  obtain ⟨htgt, hsrc⟩ := hsame.addressed.addresses
  have hloc : localAddress (first ++ [axis]) (k ++ [i]) =
      localAddress first k ++ [axis.thisDim.select i - axis.chunkOrigin] := by
    rw [localAddress_append hcvr.length_eq]
    rfl
  have hsha := hof.constrainedShape_split
  have hsize := hof.sizes_split
  have hk := inBounds_of_covers hcvr
  have hq := localAddress_inBounds hcvr
  rw [hloc] at hsrc hsource
  obtain ⟨targetIndex, hget, htar⟩ := charIndex_eq hfits (hsame.target.trans htgt)
    (hfits.toNat_constrainedShape.trans hsha) hk hi (hsha ▸ hfits.constrained_bytes_lt)
  obtain ⟨chunkIndex, hgec, hchunk⟩ := charIndex_eq hfits (hsame.source.trans hsrc)
    (hfits.toNat_chunkDimensionSizes.trans hsize) hq hp (hsize ▸ hfits.chunkBytes)
  rw [← hsha] at htar
  rw [← hsize] at hchunk
  have htag := (htarget _ htar).trans htar
  have hchn := hsource _ hchunk
  rw [hchunk] at hchn
  have htad : Array.getIndex t.targetElementAddress array.constrainedShape =
      some (rowMajor array.constrainedShape (k ++ [i])) := by
    rw [htgt, hsha, Array.getIndex_eq hk]
  have hchd : Array.getIndex t.chunkElementAddress array.chunkDimensionSizes =
      some (rowMajor array.chunkDimensionSizes
        (localAddress first k ++ [axis.thisDim.select i - axis.chunkOrigin])) := by
    rw [hsrc, hsize, Array.getIndex_eq hq]
  unfold copyElements ConstrainedRead.copyElements
  simp only [hget, hgec, htad, hchd, bind_eq_bind, bind_some, htag, hchn, hsame.buffer, ← hbytes]
  cases hcopy : memcpy t.targetBuffer
      (rowMajor array.constrainedShape (k ++ [i]) * array.elemWidth) chunk.readBuffer
      (rowMajor array.chunkDimensionSizes
        (localAddress first k ++ [axis.thisDim.select i - axis.chunkOrigin]) * array.elemWidth)
      bytes.toNat with
  | none => exact .none
  | some after =>
    obtain ⟨-, hfil⟩ := memcpy_some_fills hcopy
    exact .some ⟨hsame.target, hsame.source, rfl, hsame.addressed.target, hsame.addressed.source,
      hfil.length_eq.trans hsame.addressed.buffer⟩

end

/-- For every copied element the target index fits into an `unsigned int`, and what is copied does not
depend on whether the other one does. -/
def Undisturbed (array : DmrppArray) (chunk : Chunk) (axes : List Axis) : Prop :=
  ∀ k, Forall₂ Axis.Covers axes k →
    rowMajor array.constrainedShape k * array.elemWidth < 2 ^ 32 ∧
      ∀ before targetStart, memcpy before targetStart chunk.readBuffer
          (rowMajor array.chunkDimensionSizes (localAddress axes k) * array.elemWidth % 2 ^ 32)
          array.elemWidth =
        memcpy before targetStart chunk.readBuffer
          (rowMajor array.chunkDimensionSizes (localAddress axes k) * array.elemWidth) array.elemWidth

/-- Both character indices of every copied element fit into an `unsigned int`. -/
def ChunkNarrow (array : DmrppArray) (axes : List Axis) : Prop :=
  ∀ k, Forall₂ Axis.Covers axes k →
    rowMajor array.constrainedShape k * array.elemWidth < 2 ^ 32 ∧
      rowMajor array.chunkDimensionSizes (localAddress axes k) * array.elemWidth < 2 ^ 32

theorem ChunkNarrow.undisturbed (hnarrow : ChunkNarrow array axes) (chunk : Chunk) :
    Undisturbed array chunk axes := by
  intro k hcovers
  obtain ⟨htarget, hsource⟩ := hnarrow k hcovers
  refine ⟨htarget, fun before targetStart => ?_⟩
  rw [Nat.mod_eq_of_lt hsource]

theorem toNat_toUnsigned (index : UInt64) : (toUnsigned index).toNat = index.toNat % 2 ^ 32 := by
  unfold toUnsigned
  rw [UInt32.toNat_toUInt64, UInt64.toNat_toUInt32]

theorem insertRun_same {k : List Nat} {s : InsertState} (hfits : Fits array)
    (hof : AxesOf array chunk (first ++ [axis])) (hsmall : Small axis)
    (hcvr : Forall₂ Axis.Covers first k) (hstr : axis.thisDim.stride = 1)
    (hsame : SameInsert array first k 1 s t) : Option.Rel (SameInsert array first k 1)
      (insertChunk array chunk (words array.constrainedShape) 0 first.length s)
      (ConstrainedRead.insertChunk array chunk array.constrainedShape 0 first.length t) := by
  have horigin := hsmall.toNat_origin
  have hsta := hsmall.toNat_chunkStart
  have henn := hsmall.toNat_endElement
  have hend := Axis.chunkStart_le_endElement hsmall.kept hstr
  have henl := Axis.endElement_le_stop axis
  have hlts := hsmall.stop
  have hste := hsmall.chunkStart_le
  obtain ⟨n, hselect⟩ := getChunkStart_selected axis.thisDim axis.chunkOrigin
  have hfirst : axis.thisDim.start ≤ axis.chunkOrigin + axis.chunkStart := hselect ▸ Nat.le_add_right _ _
  have hele : (UInt64.ofNat axis.chunkOrigin + chunkStart axis).toNat =
      axis.chunkOrigin + axis.chunkStart := by
    rw [UInt64.toNat_add, horigin, hsta]
    omega
  have htgt : (UInt64.ofNat axis.chunkOrigin + chunkStart axis -
      UInt64.ofNat axis.thisDim.start).toNat =
      axis.chunkOrigin + axis.chunkStart - axis.thisDim.start := by
    have hwrd : (UInt64.ofNat axis.thisDim.start).toNat = axis.thisDim.start :=
      toNat_word (by omega)
    rw [toNat_sub_word, hele, hwrd]
    rwa [hele, hwrd]
  have hloc : axis.thisDim.select (axis.chunkOrigin + axis.chunkStart - axis.thisDim.start) -
      axis.chunkOrigin = axis.chunkStart := by
    rw [Dimension.select, hstr, mul_one]
    omega
  have hcnt : (endElement axis - (UInt64.ofNat axis.chunkOrigin + chunkStart axis) + 1).toNat =
      axis.endElement + 1 - (axis.chunkOrigin + axis.chunkStart) := by
    rw [UInt64.toNat_add, UInt64.toNat_sub, hele, henn, UInt64.toNat_one]
    omega
  have hwidth := hfits.width_le
  have hbytes : (((endElement axis - (UInt64.ofNat axis.chunkOrigin + chunkStart axis) + 1) *
      (UInt32.ofNat array.elemWidth).toUInt64).toNat : Int) =
      ((axis.endElement : Int) - (axis.chunkOrigin + axis.chunkStart : Nat) + 1) *
        array.elemWidth := by
    have hle : (axis.endElement + 1 - (axis.chunkOrigin + axis.chunkStart)) * array.elemWidth ≤
        2 ^ 32 * 8 := Nat.mul_le_mul (by omega) hwidth
    have hcst : (axis.endElement : Int) - (axis.chunkOrigin + axis.chunkStart : Nat) + 1 =
        ((axis.endElement + 1 - (axis.chunkOrigin + axis.chunkStart) : Nat) : Int) := by
      omega
    rw [UInt64.toNat_mul, hcnt, hfits.toNat_width, Nat.mod_eq_of_lt (by omega), hcst, Int.natCast_mul]
  have hloa : axis.thisDim.select (UInt64.ofNat axis.chunkOrigin + chunkStart axis -
      UInt64.ofNat axis.thisDim.start).toNat - axis.chunkOrigin = (chunkStart axis).toNat := by
    rw [htgt, hsta, hloc]
  have hset := hsame.setAddress hcvr hloa
  rw [htgt, hsta] at hset
  have hrel := copyElements_same id _ hfits hof hcvr (by
      rw [Dimension.constrainedSize, hstr, Nat.div_one]
      omega)
    (by rwa [hloc]) hbytes (fun x _ => rfl) (fun x _ before targetStart => rfl) hset
  simp only [insertChunk, ConstrainedRead.insertChunk, hof.axisAt_split rfl, bind_eq_bind,
    bind_some, hstr, ↓reduceIte]
  exact rel_mono hrel fun s t hst => hst.outer hcvr

theorem SameInsert.setIndices {first : List Axis} {axis : Axis} {k : List Nat} {inner : Nat}
    {s : InsertState} {t : ConstrainedRead.InsertState} (hsmall : Small axis)
    (hcvr : Forall₂ Axis.Covers first k) {p : UInt32} (hp : p.toNat ∈ axis.chunkIndices)
    (hsame : SameInsert array first k (inner + 1) s t) :
    SameInsert array (first ++ [axis]) (k ++ [axis.targetIndex p.toNat]) inner
      (s.setAddress first.length (targetIndex axis p) p.toUInt64)
      (t.setAddress first.length (axis.targetIndex p.toNat) p.toNat) := by
  obtain ⟨hselect, -, -⟩ := Axis.select_targetIndex hsmall.size_pos hsmall.origin_le hp
  have htgt := hsmall.toNat_targetIndex hp
  have hloc : axis.thisDim.select (targetIndex axis p).toNat - axis.chunkOrigin =
      p.toUInt64.toNat := by
    rw [htgt, hselect, UInt32.toNat_toUInt64, Nat.add_sub_cancel_left]
  have hset := hsame.setAddress hcvr hloc
  rw [htgt, UInt32.toNat_toUInt64] at hset
  exact hset

theorem insertStrided_same {first : List Axis} {axis : Axis} {k : List Nat} {s : InsertState}
    {t : ConstrainedRead.InsertState} (hfits : Fits array)
    (hof : AxesOf array chunk (first ++ [axis])) (hsmall : Small axis)
    (hnar : Undisturbed array chunk (first ++ [axis]))
    (hcvr : Forall₂ Axis.Covers first k) (hstr : axis.thisDim.stride ≠ 1)
    (hsame : SameInsert array first k 1 s t) : Option.Rel (SameInsert array first k 1)
      (insertChunk array chunk (words array.constrainedShape) 0 first.length s)
      (ConstrainedRead.insertChunk array chunk array.constrainedShape 0 first.length t) := by
  have hone := mt (halfword_eq_one_iff hsmall.stride).mp hstr
  obtain ⟨indices, hloop, hvalues⟩ := hsmall.chunkIndices_eq
  simp only [insertChunk, ConstrainedRead.insertChunk, hof.axisAt_split rfl, bind_eq_bind,
    bind_some, hone, hstr, ↓reduceIte, hloop, ← hvalues, foldlM_map]
  apply foldlM_rel indices _ s t hsame
  intro p hmem s t hst
  have hp : p.toNat ∈ axis.chunkIndices := hvalues ▸ mem_map_of_mem hmem
  obtain ⟨hselect, hlt, hbd⟩ := Axis.select_targetIndex hsmall.size_pos hsmall.origin_le hp
  have hcover : axis.Covers (axis.targetIndex p.toNat) :=
    (Axis.covers_iff hsmall.size_pos hsmall.origin_le _).mpr ⟨p.toNat, hp, rfl⟩
  obtain ⟨htar, hsou⟩ := hnar (k ++ [axis.targetIndex p.toNat])
    (rel_append hcvr (.cons hcover .nil))
  have hrel := copyElements_same toUnsigned 1 hfits hof hcvr hbd.le
    (by omega) (by rw [hfits.toNat_width, Int.one_mul])
    (fun x hx => by rw [toNat_toUnsigned, hx, Nat.mod_eq_of_lt htar])
    (fun x hx before targetStart => by
      rw [toNat_toUnsigned, hx, hfits.toNat_width]
      exact hsou before targetStart)
    (hst.setIndices hsmall hcvr hp)
  exact rel_mono hrel fun s t hst => hst.outer hcvr

theorem insertChunk_same (hfits : Fits array) (hof : AxesOf array chunk axes)
    (hsmall : ∀ axis ∈ axes, Small axis)
    (hnar : InnermostStrideOne array ∨ Undisturbed array chunk axes) (rest : List Axis) :
    ∀ (axis : Axis) (first : List Axis) (k : List Nat) (s : InsertState)
      (t : ConstrainedRead.InsertState), axes = first ++ axis :: rest →
      Forall₂ Axis.Covers first k → SameInsert array first k (rest.length + 1) s t →
      Option.Rel (SameInsert array first k (rest.length + 1))
        (insertChunk array chunk (words array.constrainedShape) rest.length first.length s)
        (ConstrainedRead.insertChunk array chunk array.constrainedShape rest.length first.length t) := by
  induction rest with
  | nil =>
    intro axis first k s t hsplit hcvr hsame
    subst hsplit
    have haxs := hsmall axis (by simp)
    by_cases hstr : axis.thisDim.stride = 1
    · exact insertRun_same hfits hof haxs hcvr hstr hsame
    · have hchunk : Undisturbed array chunk (first ++ [axis]) := hnar.resolve_left fun hone =>
        hstr (hone (first.map Axis.thisDim) axis.thisDim (by rw [← hof.dims, map_append]; rfl))
      exact insertStrided_same hfits hof haxs hchunk hcvr hstr hsame
  | cons next rest ih =>
    intro axis first k s t hsplit hcvr hsame
    have haxs := hsmall axis (by simp [hsplit])
    obtain ⟨indices, hloop, hvalues⟩ := haxs.chunkIndices_eq
    simp only [length_cons, insertChunk, ConstrainedRead.insertChunk, hof.axisAt_split hsplit,
      bind_eq_bind, bind_some, hloop, ← hvalues, foldlM_map]
    apply foldlM_rel indices _ s t hsame
    intro p hmem s t hst
    have hp : p.toNat ∈ axis.chunkIndices := hvalues ▸ mem_map_of_mem hmem
    have hcover : axis.Covers (axis.targetIndex p.toNat) :=
      (Axis.covers_iff haxs.size_pos haxs.origin_le _).mpr ⟨p.toNat, hp, rfl⟩
    have hrel := ih next (first ++ [axis]) (k ++ [axis.targetIndex p.toNat]) _ _
      (by rw [hsplit, append_assoc]; rfl) (rel_append hcvr (.cons hcover .nil))
      (hst.setIndices haxs hcvr hp)
    rw [length_append] at hrel
    exact rel_mono hrel fun s t hst => hst.outer hcvr

def InsertsAsUnbounded (array : DmrppArray) (origin : List Nat) : Prop :=
  ∀ (chunk : Chunk) (buffer : List Byte), chunk.positionInArray = origin →
    chunk.readBuffer.length = array.chunkDimensionSizes.prod * array.elemWidth →
    buffer.length = array.constrainedShape.prod * array.elemWidth →
    (insertChunk array chunk (words array.constrainedShape) array.lastDim 0
        ⟨words origin, replicate array.dims.length 0, buffer⟩).map InsertState.targetBuffer =
      ConstrainedRead.insertReadChunk array buffer chunk

/-- What is known of the axes of a chunk that `find_needed_chunks` returned. -/
structure NeededAt (array : DmrppArray) (origin : List Nat) : Prop where
  length_eq : origin.length = array.dims.length
  needed : Needed (axesAt array origin)

theorem NeededAt.axesOf (hat : NeededAt array origin)
    (hchunk : chunk.positionInArray = origin) : AxesOf array chunk (axesAt array origin) := by
  subst hchunk
  exact axesOf_axesAt hat.length_eq

theorem NeededAt.small (hfits : Fits array) (hat : NeededAt array origin) :
    ∀ axis ∈ axesAt array origin, Small axis := by
  intro axis hmem
  have hof : AxesOf array { positionInArray := origin } (axesAt array origin) := hat.axesOf rfl
  have hdim : axis.thisDim ∈ array.dims := hof.dims ▸ mem_map_of_mem hmem
  have hsize : axis.chunkSize ∈ array.chunkDimensionSizes := hof.sizes ▸ mem_map_of_mem hmem
  obtain ⟨hsta, hstep, hstr⟩ := hfits.start_lt hdim
  exact ⟨hsta, hstep, hstr, hfits.chunks _ hsize, hof.size_pos hmem, hat.needed.kept axis hmem⟩

theorem NeededAt.exists_cons (hat : NeededAt array origin) :
    ∃ axis rest, axesAt array origin = axis :: rest ∧ rest.length = array.lastDim := by
  have hof : AxesOf array { positionInArray := origin } (axesAt array origin) := hat.axesOf rfl
  have hlen := congrArg length hof.sizes
  rw [length_map] at hlen
  have hne : axesAt array origin ≠ [] := by
    intro hnil
    apply array.rank_pos
    rw [← hof.dims, hnil]
    rfl
  obtain ⟨axis, rest, hcns⟩ := exists_cons_of_ne_nil hne
  refine ⟨axis, rest, hcns, ?_⟩
  rw [DmrppArray.lastDim, ← hlen, hcns, length_cons, Nat.add_sub_cancel]

theorem NeededAt.start (hfits : Fits array) (hat : NeededAt array origin)
    (hbuf : buffer.length = array.constrainedShape.prod * array.elemWidth) :
    SameInsert array [] [] (array.lastDim + 1) ⟨words origin, replicate array.dims.length 0, buffer⟩
      ⟨origin, replicate array.dims.length 0, buffer⟩ := by
  have hrnk : array.dims.length = array.lastDim + 1 := by
    obtain ⟨axis, rest, hcns, hrest⟩ := hat.exists_cons
    have hof : AxesOf array { positionInArray := origin } (axesAt array origin) := hat.axesOf rfl
    rw [← hof.dims, length_map, hcns, length_cons, hrest]
  refine ⟨?_, by simp, rfl, ⟨origin, rfl, hat.length_eq.trans hrnk⟩,
    ⟨replicate array.dims.length 0, rfl, by rw [length_replicate, hrnk]⟩, hbuf⟩
  apply toNat_words
  intro o hmem
  have hof : AxesOf array { positionInArray := origin } (axesAt array origin) := hat.axesOf rfl
  have hori : (axesAt array origin).map Axis.chunkOrigin = origin := hof.origins
  rw [← hori] at hmem
  obtain ⟨axis, haxs, rfl⟩ := mem_map.mp hmem
  have hsmall := NeededAt.small hfits hat axis haxs
  have := hsmall.origin_le
  have := hsmall.stop
  omega

/-- `insert_chunk` on a chunk that has been read. -/
def insertReadChunk (array : DmrppArray) (buffer : List Byte) (chunk : Chunk) : Option (List Byte) :=
  (insertChunk array chunk (words array.constrainedShape) array.lastDim 0
    ⟨words chunk.positionInArray, replicate array.dims.length 0, buffer⟩).map InsertState.targetBuffer

theorem insertReadChunk_eq (hfits : Fits array) (hat : NeededAt array chunk.positionInArray)
    (hnarrow : InnermostStrideOne array
      ∨ Undisturbed array chunk (axesAt array chunk.positionInArray))
    (hbuf : buffer.length = array.constrainedShape.prod * array.elemWidth) :
    insertReadChunk array buffer chunk = ConstrainedRead.insertReadChunk array buffer chunk := by
  obtain ⟨axis, rest, hcns, hrest⟩ := hat.exists_cons
  have hsta := NeededAt.start hfits hat hbuf
  rw [← hrest] at hsta
  have hrel := insertChunk_same hfits (hat.axesOf rfl) (NeededAt.small hfits hat) hnarrow rest axis
    [] [] _ _ hcns .nil hsta
  unfold insertReadChunk ConstrainedRead.insertReadChunk
  rw [← hrest, bind_eq_bind]
  have hmap := map_eq_of_rel hrel fun s t hst => hst.buffer
  rw [length_nil] at hmap
  rw [hmap, map_eq_bind]
  rfl

theorem insertsAsUnbounded_of (hfits : Fits array) (hat : NeededAt array origin)
    (hnar : InnermostStrideOne array ∨ ChunkNarrow array (axesAt array origin)) :
    InsertsAsUnbounded array origin := by
  rintro chunk buffer rfl _ hbuf
  exact insertReadChunk_eq hfits hat (hnar.imp_right fun hnarrow => hnarrow.undisturbed chunk) hbuf

/-! The condition is needed: a strided innermost loop only touches the first `2 ^ 32` bytes of either
block. -/

section

variable {origin : List Nat}

theorem insertChunk_keeps {P : List Byte → Prop} (hfits : Fits array) (hof : AxesOf array chunk axes)
    (hlast : ∀ first last, axes = first ++ [last] → UInt32.ofNat last.thisDim.stride ≠ 1)
    (hcopy : ∀ before after targetStart sourceStart, targetStart + array.elemWidth ≤ 2 ^ 32 →
      sourceStart + array.elemWidth ≤ 2 ^ 32 →
      memcpy before targetStart chunk.readBuffer sourceStart array.elemWidth = some after →
      P before → P after) (shape : List UInt64) (rest : List Axis) :
    ∀ (axis : Axis) (first : List Axis) (s s' : InsertState), axes = first ++ axis :: rest →
      P s.targetBuffer → insertChunk array chunk shape rest.length first.length s = some s' →
      P s'.targetBuffer := by
  induction rest with
  | nil =>
    intro axis first s s' hsplit hs hrun
    rw [length_nil, insertChunk, hof.axisAt_split hsplit, bind_eq_bind, bind_some,
      if_neg (hlast first axis hsplit), bind_eq_bind, bind_eq_some_iff] at hrun
    obtain ⟨indices, -, hrun⟩ := hrun
    apply foldlM_keeps indices _ s s' hs hrun
    intro p _ s s' hs hstep
    obtain ⟨target, -, hstep⟩ := bind_eq_some_iff.mp hstep
    obtain ⟨source, -, hstep⟩ := bind_eq_some_iff.mp hstep
    obtain ⟨after, hmmc, hafter⟩ := bind_eq_some_iff.mp hstep
    cases hafter
    have hnrr : ∀ index : UInt64,
        (toUnsigned (index * (UInt32.ofNat array.elemWidth).toUInt64)).toNat + array.elemWidth ≤
          2 ^ 32 := by
      intro index
      have hle := hfits.narrowed_le index.toNat
      rw [toNat_toUnsigned, UInt64.toNat_mul, hfits.toNat_width]
      omega
    rw [hfits.toNat_width] at hmmc
    exact hcopy _ _ _ _ (hnrr target) (hnrr source) hmmc hs
  | cons next rest ih =>
    intro axis first s s' hsplit hs hrun
    rw [length_cons, insertChunk, hof.axisAt_split hsplit, bind_eq_bind,
      bind_some, bind_eq_bind, bind_eq_some_iff] at hrun
    obtain ⟨indices, -, hrun⟩ := hrun
    apply foldlM_keeps indices _ s s' hs hrun
    intro p _ s s' hs hstep
    apply ih next (first ++ [axis]) _ s' (by rw [hsplit, append_assoc]; rfl) _ (by
      rw [length_append]
      exact hstep)
    exact hs

theorem exists_both (P : List Byte → Prop) (content : Nat → Option Byte) (chunk : Chunk)
    (buffer : List Byte) (hfits : Fits array) (hat : NeededAt array origin) (hins : InsertsAsUnbounded array origin)
    (hstr : ¬ InnermostStrideOne array) (hchunk : chunk.positionInArray = origin)
    (hread : chunk.readBuffer.length = array.chunkDimensionSizes.prod * array.elemWidth)
    (hbuf : buffer.length = array.constrainedShape.prod * array.elemWidth)
    (hsup : Supplies array chunk (axesAt array origin) content) (hP : P buffer)
    (hcopy : ∀ before after targetStart sourceStart, targetStart + array.elemWidth ≤ 2 ^ 32 →
      sourceStart + array.elemWidth ≤ 2 ^ 32 →
      memcpy before targetStart chunk.readBuffer sourceStart array.elemWidth = some after →
      P before → P after) :
    ∃ after, P after ∧ Fills content (region array [] (axesAt array origin)) buffer after := by
  have hof := hat.axesOf hchunk
  obtain ⟨axis, rest, hcns, hrest⟩ := hat.exists_cons
  have hsta := (NeededAt.start hfits hat hbuf).addressed
  rw [← hrest] at hsta
  obtain ⟨t, hrun, -, hfil⟩ := insertChunk_fills ⟨hof, hread.ge, hsup⟩ hat.needed.kept rest axis
    [] [] _ hcns .nil hsta
  rw [length_nil] at hrun
  have hequ := hins chunk buffer hchunk hread hbuf
  rw [ConstrainedRead.insertReadChunk, hchunk, ← hrest, hrun, bind_eq_bind, bind_some, map_eq_some_iff] at hequ
  obtain ⟨s, hmac, hsame⟩ := hequ
  refine ⟨t.targetBuffer, ?_, hcns ▸ hfil⟩
  rw [← hsame]
  apply insertChunk_keeps hfits hof _ hcopy _ rest axis [] _ s hcns _ hmac
  · intro first last hsplit hone
    apply hstr
    intro firstDims lastDim hdims
    have hmem : last.thisDim ∈ array.dims := by
      rw [← hof.dims, hsplit]
      simp
    have hlas : lastDim = last.thisDim := by
      rw [← hof.dims, hsplit, map_append] at hdims
      exact (singleton_inj.mp (append_inj_right' hdims rfl)).symm
    rw [hlas]
    exact (halfword_eq_one_iff (hfits.start_lt hmem).2.2).mp hone
  · exact hP

theorem mem_region {k : List Nat} (hcvr : Forall₂ Axis.Covers axes k) :
    rowMajor array.constrainedShape k * array.elemWidth ∈ region array [] axes :=
  ⟨k, hcvr, 0, array.width_pos, rfl⟩

section

variable (hfits : Fits array) (hat : NeededAt array origin)
  (hins : InsertsAsUnbounded array origin) (hstr : ¬ InnermostStrideOne array)
  (hcvr : Forall₂ Axis.Covers (axesAt array origin) k)

include hfits hat hins hstr hcvr

theorem target_narrow_of_inserts : rowMajor array.constrainedShape k * array.elemWidth < 2 ^ 32 := by
  by_contra hlarge
  -- a chunk of ones into a buffer of zeros: the machine leaves the buffer alone from `2 ^ 32` on
  let chunk : Chunk :=
    { positionInArray := origin
      readBuffer := replicate (array.chunkDimensionSizes.prod * array.elemWidth) 1 }
  let late := fun bytes : List Byte => ∀ i, 2 ^ 32 ≤ i → ∀ x, bytes[i]? = some x → x = 0
  have hof : AxesOf array chunk (axesAt array origin) := hat.axesOf rfl
  obtain ⟨after, hlat, hfil⟩ := exists_both late (fun _ => some 1) chunk
    (replicate (array.constrainedShape.prod * array.elemWidth) 0) hfits hat hins hstr rfl
    (by simp [chunk]) (by simp)
    (by
      intro k hcvr b hb
      have hlt := rowMajor_byte_lt (localAddress_inBounds hcvr) hb
      rw [hof.sizes] at hlt
      simp [chunk, hlt])
    (by
      intro i _ x hx
      exact eq_of_mem_replicate (mem_of_getElem? hx))
    (by
      intro before after targetStart sourceStart htgt _ hcopy hbefore i hi x hx
      obtain ⟨-, hfil⟩ := memcpy_some_fills hcopy
      rw [hfil.outside i (by simp only [Set.mem_ofPred_eq]; omega)] at hx
      exact hbefore i hi x hx)
  have hini := hfil.inside _ (mem_region hcvr)
  exact absurd (hlat _ (by omega) _ hini) (by decide)

theorem source_narrow_of_inserts :
    rowMajor array.chunkDimensionSizes (localAddress (axesAt array origin) k) * array.elemWidth <
      2 ^ 32 := by
  by_contra hlarge
  -- a chunk that is zero in its first `2 ^ 32` bytes into a buffer of zeros
  let chunk : Chunk :=
    { positionInArray := origin
      readBuffer := lateOnes (array.chunkDimensionSizes.prod * array.elemWidth) }
  have hof : AxesOf array chunk (axesAt array origin) := hat.axesOf rfl
  let content := fun i => chunk.readBuffer[rowMajor array.chunkDimensionSizes
      (localAddress (axesAt array origin) (unflatten array.constrainedShape (i / array.elemWidth))) *
        array.elemWidth + i % array.elemWidth]?
  have hcnt : ∀ k, Forall₂ Axis.Covers (axesAt array origin) k → ∀ b < array.elemWidth,
      content (rowMajor array.constrainedShape k * array.elemWidth + b) =
        chunk.readBuffer[rowMajor array.chunkDimensionSizes (localAddress (axesAt array origin) k) *
          array.elemWidth + b]? := by
    intro k hcvr b hb
    have hk := inBounds_of_covers hcvr
    rw [← hof.constrainedShape_eq] at hk
    simp only [content]
    rw [mul_comm (rowMajor array.constrainedShape k), Nat.mul_add_div (by omega),
      Nat.div_eq_of_lt hb, add_zero, unflatten_rowMajor hk, Nat.mul_add_mod, Nat.mod_eq_of_lt hb]
  obtain ⟨after, hzero, hfil⟩ := exists_both AllZero content chunk
    (replicate (array.constrainedShape.prod * array.elemWidth) 0) hfits hat hins hstr rfl
    (by simp [chunk, lateOnes]) (by simp)
    (by
      intro k hcvr b hb
      exact (hcnt k hcvr b hb).symm)
    (by
      intro i x hx
      exact eq_of_mem_replicate (mem_of_getElem? hx))
    (by
      intro before after targetStart sourceStart _ hsrc hcopy hbefore
      exact memcpy_allZero (lateOnes_zero _) hsrc hbefore hcopy)
  have hini := hfil.inside _ (mem_region hcvr)
  have hlt := rowMajor_byte_lt (localAddress_inBounds hcvr) array.width_pos
  rw [hof.sizes] at hlt
  have hbytes := hcnt k hcvr 0 array.width_pos
  rw [add_zero] at hlt
  rw [add_zero, add_zero, getElem?_lateOnes hlt, if_neg hlarge] at hbytes
  rw [hbytes] at hini
  exact absurd (hzero _ _ hini) (by decide)

end

end

/-- Both functions copy what they copy with unbounded integers, and every loop over an index that is
stepped by the stride ends. -/
structure AsUnbounded (array : DmrppArray) (origin : List Nat) : Prop where
  contiguous : CopiesAsUnbounded array
  chunk : InsertsAsUnbounded array origin
  dimLoops : ∀ dim ∈ array.dims, ∃ n,
    ¬ (· + UInt32.ofNat dim.stride)^[n] (UInt32.ofNat dim.start) ≤ UInt32.ofNat dim.stop
  chunkLoops : ∀ axis ∈ axesAt array origin, ∃ n,
    ¬ ((· + UInt32.ofNat axis.thisDim.stride)^[n] (chunkStart axis).toUInt32).toUInt64 ≤ chunkEnd axis

theorem not_innermostStrideOne_iff :
    ¬ InnermostStrideOne array ↔ ∃ first dim, array.dims = first ++ [dim] ∧ dim.stride ≠ 1 := by
  unfold InnermostStrideOne
  push Not
  rfl

/-- The index arithmetic is that of unbounded integers exactly when the innermost stride is one or no
character index of a selected element reaches `2 ^ 32`. -/
theorem asUnbounded_iff (array : DmrppArray) (origin : List Nat) (hfits : Fits array)
    (hat : NeededAt array origin) : AsUnbounded array origin ↔ InnermostStrideOne array ∨
        (SourceNarrow array ∧ ChunkNarrow array (axesAt array origin)) := by
  constructor
  · intro hunb
    by_cases hone : InnermostStrideOne array
    · exact .inl hone
    · right
      obtain ⟨first, dim, hdims, hstr⟩ := not_innermostStrideOne_iff.mp hone
      refine ⟨sourceNarrow_of_copies hfits hdims hstr hunb.contiguous, ?_⟩
      intro k hcvr
      exact ⟨target_narrow_of_inserts hfits hat hunb.chunk hone hcvr,
        source_narrow_of_inserts hfits hat hunb.chunk hone hcvr⟩
  · intro hnar
    refine ⟨copiesAsUnbounded_of hfits (hnar.imp_right And.left),
      insertsAsUnbounded_of hfits hat (hnar.imp_right And.right), ?_, ?_⟩
    · intro dim hmem
      obtain ⟨indices, hloop, -⟩ := dimIndices_eq (hfits.start_lt hmem)
      simpa using exists_outside_of_loopValues hloop
    · intro axis hmem
      obtain ⟨indices, hloop, -⟩ := (NeededAt.small hfits hat axis hmem).chunkIndices_eq
      simpa using exists_outside_of_loopValues hloop

def everySecond : Dimension := ⟨5, 0, 4, 2, Nat.zero_le 4, Nat.lt_succ_self 4, Nat.two_pos⟩

theorem fiveChunk_pos : ∀ size ∈ [5], 0 < size := by
  simp

theorem doubleWidth_pos : 0 < 8 := by
  decide

theorem fiveChunk_rank : [5].length = [everySecond].length := by
  simp

def fiveDoubles : DmrppArray :=
  ⟨[everySecond], [5], 8, cons_ne_nil _ _, fiveChunk_rank, fiveChunk_pos, doubleWidth_pos⟩

theorem asUnbounded_iff_fiveDoubles : Fits fiveDoubles ∧ NeededAt fiveDoubles [0] ∧
      (AsUnbounded fiveDoubles [0] ↔ InnermostStrideOne fiveDoubles ∨
          (SourceNarrow fiveDoubles ∧ ChunkNarrow fiveDoubles (axesAt fiveDoubles [0]))) := by
  have hfits : Fits fiveDoubles := ⟨by decide, by decide, by decide, by decide, by decide⟩
  have hat : NeededAt fiveDoubles [0] := ⟨rfl, by decide⟩
  exact ⟨hfits, hat, asUnbounded_iff fiveDoubles [0] hfits hat⟩

def firstAndLast : Dimension :=
  ⟨2 ^ 29 + 1, 0, 2 ^ 29, 2 ^ 29, Nat.zero_le _, Nat.lt_succ_self _, Nat.two_pow_pos 29⟩

theorem largeChunk_pos : ∀ size ∈ [2 ^ 29 + 1], 0 < size := by
  simp

def largeDoubles : DmrppArray :=
  ⟨[firstAndLast], [2 ^ 29 + 1], 8, cons_ne_nil _ _, rfl, largeChunk_pos, doubleWidth_pos⟩

/-- The last double of the large array starts at byte `2 ^ 32`, and the strided loop reads it from byte
zero. -/
theorem largeDoubles_wraps : Fits largeDoubles ∧ NeededAt largeDoubles [0] ∧
      getIndex [(UInt32.ofNat (2 ^ 29)).toUInt64] (words largeDoubles.shape) =
        some (UInt64.ofNat (2 ^ 29)) ∧ stridedSourceByte 8 (UInt64.ofNat (2 ^ 29)) = 0 ∧
      ¬ CopiesAsUnbounded largeDoubles ∧ ¬ InsertsAsUnbounded largeDoubles [0] := by
  have hfits : Fits largeDoubles := ⟨by decide, by decide, by decide, by decide, by decide⟩
  have hat : NeededAt largeDoubles [0] := ⟨rfl, by decide⟩
  have hstr : firstAndLast.stride ≠ 1 := by decide
  have hbounds : InBounds largeDoubles.constrainedShape [1] := .cons (by decide) .nil
  have hcvr : Forall₂ Axis.Covers (axesAt largeDoubles [0]) [1] :=
    .cons ⟨by decide, by decide, by decide⟩ .nil
  refine ⟨hfits, hat, by decide, by decide, ?_, ?_⟩
  · intro hcop
    have hnar := @sourceNarrow_of_copies largeDoubles hfits [] firstAndLast rfl hstr hcop
    exact absurd (hnar [1] hbounds) (by decide)
  · intro hins
    have hmany : ¬ InnermostStrideOne largeDoubles :=
      not_innermostStrideOne_iff.mpr ⟨[], firstAndLast, rfl, hstr⟩
    exact absurd (source_narrow_of_inserts hfits hat hins hmany hcvr) (by decide)

end Bes.Dmrpp.MachineInsert
