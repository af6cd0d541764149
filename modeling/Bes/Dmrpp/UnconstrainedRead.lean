import Bes.Dmrpp.Hyperslab

/-! Reading a whole chunked array. The optimised insertion carries running
offsets instead of address vectors and copies whole rows; on an array without a
projection it leaves the same buffer as the general insertion. -/
namespace Bes.Dmrpp.UnconstrainedRead
open Lib.Buffer Lib.Loop Lib.RowMajor List Option
open Dmrpp.Array Dmrpp.ConstrainedRead Dmrpp.Hyperslab

/-- Product of the dimension sizes after dimension `k`, with its assertions. -/
def multiplier (shape : List Nat) (k : Nat) : Option Nat :=
  if shape.length > 1 ∧ shape.length > k + 1 then
    match shape.drop (k + 1) with
    | first :: rest => some (rest.foldl (· * ·) first)
    | [] => none
  else none

def insertChunkUnconstrained (array : DmrppArray) (chunk : Chunk) (arrayShape : List Nat) :
    Nat → Nat → Nat → Nat → List Byte → Option (List Byte)
  | 0, dim, arrayOffset, chunkOffset, buffer => do
      let axis ← axisAt array chunk dim
      memcpy buffer ((arrayOffset + axis.chunkOrigin) * array.elemWidth)
        chunk.readBuffer (chunkOffset * array.elemWidth)
        (((axis.endElement : Int) - axis.chunkOrigin + 1) * array.elemWidth)
  | rest + 1, dim, arrayOffset, chunkOffset, buffer => do
      let axis ← axisAt array chunk dim
      let mc ← multiplier array.chunkDimensionSizes dim
      let ma ← multiplier arrayShape dim
      (strided 0 axis.chunkEnd 1).foldlM (fun buffer chunkIndex =>
        insertChunkUnconstrained array chunk arrayShape rest (dim + 1)
          (arrayOffset + ma * (chunkIndex + axis.chunkOrigin))
          (chunkOffset + mc * chunkIndex) buffer) buffer

/-- The insertion half of `process_one_chunk_unconstrained`. -/
def insertReadChunkUnconstrained (array : DmrppArray) (buffer : List Byte) (chunk : Chunk) :
    Option (List Byte) :=
  insertChunkUnconstrained array chunk array.constrainedShape array.lastDim 0 0 0 buffer

def readChunksUnconstrained (array : DmrppArray) (chunks : List Chunk) (buffer : List Byte) :
    Option (List Byte) :=
  chunks.foldlM (insertReadChunkUnconstrained array) buffer

def isProjected (array : DmrppArray) : Bool :=
  array.dims.any fun dim => dim.constrainedSize ≠ dim.size

theorem selects_all {dim : Dimension} (hall : dim.constrainedSize = dim.size) :
    dim.start = 0 ∧ dim.stop + 1 = dim.size ∧ (dim.stride = 1 ∨ dim.size = 1) := by
  have hsta := dim.start_le_stop
  have hstp := dim.stop_lt_size
  have hstr := dim.stride_pos
  unfold Dimension.constrainedSize at hall
  have hle : (dim.size - 1) * dim.stride ≤ dim.stop - dim.start := by
    rw [← Nat.le_div_iff_mul_le hstr]
    omega
  by_cases hone : dim.size = 1
  · exact ⟨by omega, by omega, .inr hone⟩
  · have hge : dim.size - 1 ≤ (dim.size - 1) * dim.stride :=
      Nat.le_mul_of_pos_right _ hstr
    by_contra hne
    have htwo : (dim.size - 1) * 2 ≤ (dim.size - 1) * dim.stride := Nat.mul_le_mul_left _ (by omega)
    omega

theorem select_eq {dim : Dimension} (hall : dim.constrainedSize = dim.size) {k : Nat}
    (hk : k < dim.size) : dim.select k = k := by
  obtain ⟨hsta, -, hstr⟩ := selects_all hall
  unfold Dimension.select
  cases hstr with
  | inl hone => rw [hsta, hone, mul_one, zero_add]
  | inr hsiz =>
    obtain rfl : k = 0 := by omega
    omega

theorem all_of_not_projected (hprj : isProjected array = false) :
    ∀ dim ∈ array.dims, dim.constrainedSize = dim.size := by
  simpa [isProjected] using hprj

theorem constrainedShape_eq_shape (hprj : isProjected array = false) :
    array.constrainedShape = array.shape := by
  exact map_congr_left (all_of_not_projected hprj)

structure Whole (axis : Axis) : Prop where
  all : axis.thisDim.constrainedSize = axis.thisDim.size
  inside : axis.chunkOrigin < axis.thisDim.size
  size_pos : 0 < axis.chunkSize

namespace Whole

theorem origin_le_stop (hwho : Whole axis) : axis.chunkOrigin ≤ axis.thisDim.stop := by
  have hini := hwho.inside
  have hstp := (selects_all hwho.all).2.1
  omega

theorem covers_iff (hwho : Whole axis) (k : Nat) :
    axis.Covers k ↔ axis.chunkOrigin ≤ k ∧ k ≤ axis.endElement := by
  obtain ⟨hsta, hstp, hstr⟩ := selects_all hwho.all
  have hsiz := hwho.size_pos
  unfold Axis.Covers Axis.endElement
  constructor
  · rintro ⟨hlow, hhgh, hle⟩
    have hk : k < axis.thisDim.size := by
      rw [← hwho.all]
      exact Dimension.lt_constrainedSize.mpr hle
    rw [select_eq hwho.all hk] at hlow hhgh hle
    split <;> omega
  · rintro ⟨hlow, hle⟩
    have hk : k < axis.thisDim.size := by
      split at hle <;> omega
    rw [select_eq hwho.all hk]
    split at hle <;> omega

theorem covers_origin (hwho : Whole axis) : axis.Covers axis.chunkOrigin := by
  rw [hwho.covers_iff]
  have hstp := hwho.origin_le_stop
  have hsiz := hwho.size_pos
  unfold Axis.endElement
  split <;> omega

theorem origin_le_endElement (hwho : Whole axis) : axis.chunkOrigin ≤ axis.endElement :=
  ((hwho.covers_iff _).mp hwho.covers_origin).2

theorem region_cons (hwho : Whole axis) (array : DmrppArray) (k : List Nat) (rest : List Axis) :
    region array k (axis :: rest) =
      ⋃ p ∈ strided 0 axis.chunkEnd 1, region array (k ++ [p + axis.chunkOrigin]) rest := by
  have horg := hwho.origin_le_endElement
  ext j
  simp only [region, Set.mem_iUnion, Set.mem_ofPred_eq, exists_prop, mem_strided Nat.one_pos]
  constructor
  · rintro ⟨k', hcov, b, hb, rfl⟩
    cases hcov with
    | @cons _ i _ k' hfst hrst =>
      obtain ⟨hlow, hle⟩ := (hwho.covers_iff i).mp hfst
      refine ⟨i - axis.chunkOrigin, ⟨Nat.zero_le _, ?_, one_dvd _⟩, k', hrst, b, hb, ?_⟩
      · unfold Axis.chunkEnd
        omega
      · rw [Nat.sub_add_cancel hlow, append_assoc]
        rfl
  · rintro ⟨p, ⟨-, hp, -⟩, k', hcov, b, hb, rfl⟩
    unfold Axis.chunkEnd at hp
    refine ⟨(p + axis.chunkOrigin) :: k', .cons ?_ hcov, b, hb, by simp⟩
    rw [hwho.covers_iff]
    omega

end Whole

private theorem foldl_mul (rest : List Nat) (first : Nat) :
    rest.foldl (· * ·) first = first * rest.prod := by
  induction rest generalizing first with
  | nil => simp
  | cons size rest ih =>
    rw [foldl_cons, ih, prod_cons]
    ring

theorem multiplier_eq (first rest : List Nat) (size next : Nat) :
    multiplier (first ++ size :: next :: rest) first.length = some (next :: rest).prod := by
  have hdrp : (first ++ size :: next :: rest).drop (first.length + 1) = next :: rest := by
    simp [drop_append]
  unfold multiplier
  rw [if_pos (by simp; omega), hdrp]
  simp only [foldl_mul, prod_cons]

variable {array : DmrppArray} {chunk : Chunk}

theorem multiplier_target (hof : AxesOf array chunk axes) {first rest : List Axis}
    {axis next : Axis} (hspl : axes = first ++ axis :: next :: rest) :
    multiplier array.constrainedShape first.length =
      some ((next :: rest).map fun axis => axis.thisDim.constrainedSize).prod := by
  have hmul := multiplier_eq (first.map fun axis => axis.thisDim.constrainedSize)
    (rest.map fun axis => axis.thisDim.constrainedSize)
    axis.thisDim.constrainedSize next.thisDim.constrainedSize
  rw [hof.constrainedShape_eq, hspl, map_append]
  simpa using hmul

theorem multiplier_source (hof : AxesOf array chunk axes) {first rest : List Axis}
    {axis next : Axis} (hspl : axes = first ++ axis :: next :: rest) :
    multiplier array.chunkDimensionSizes first.length =
      some ((next :: rest).map Axis.chunkSize).prod := by
  have hmul := multiplier_eq (first.map Axis.chunkSize) (rest.map Axis.chunkSize)
    axis.chunkSize next.chunkSize
  rw [← hof.sizes, hspl, map_append]
  simpa using hmul

theorem insertLastUnconstrained_fills (hprv : Provides array chunk (first ++ [axis]) content) (haxs : Whole axis)
    {k : List Nat} (hcov : Forall₂ Axis.Covers first k)
    (hbuf : buffer.length = array.constrainedShape.prod * array.elemWidth) :
    ∃ after, insertChunkUnconstrained array chunk array.constrainedShape 0 first.length
        (rowMajor (first.map fun axis => axis.thisDim.constrainedSize) k * axis.thisDim.constrainedSize)
        (rowMajor (first.map Axis.chunkSize) (localAddress first k) * axis.chunkSize)
        buffer = some after ∧ Fills content (region array k [axis]) buffer after := by
  have horg := haxs.origin_le_endElement
  have hbd : axis.endElement < axis.thisDim.constrainedSize :=
    Dimension.lt_constrainedSize.mpr ((haxs.covers_iff _).mpr ⟨horg, le_rfl⟩).2.2
  have hsel : ∀ e ≤ axis.endElement - axis.chunkOrigin,
      axis.thisDim.select (axis.chunkOrigin + e) - axis.chunkOrigin = e := by
    intro e he
    rw [select_eq haxs.all (by rw [← haxs.all]; omega), Nat.add_sub_cancel_left]
  have hzer : axis.thisDim.select axis.chunkOrigin - axis.chunkOrigin = 0 := hsel 0 (Nat.zero_le _)
  obtain ⟨after, hcpy, hfil⟩ := memcpy_run_fills axis.chunkOrigin
    (axis.endElement - axis.chunkOrigin + 1) hprv hcov
    (by
      intro e he
      refine ⟨(haxs.covers_iff _).mpr ⟨by omega, by omega⟩, ?_⟩
      rw [hsel e (by omega)]
      omega)
    (by omega)
    (by
      have hsiz := haxs.size_pos
      have hend : axis.endElement - axis.chunkOrigin + 1 ≤ axis.chunkSize := by
        unfold Axis.endElement
        split <;> omega
      omega)
    hbuf
  refine ⟨after, ?_, hfil.congr ?_⟩
  · rw [localAddress_concat hcov, hprv.constrainedShape_split, hprv.sizes_split,
      rowMajor_append (inBounds_of_covers hcov).length_eq.symm,
      rowMajor_append (localAddress_inBounds hcov).length_eq.symm] at hcpy
    simp only [rowMajor_singleton, prod_singleton, hzer, add_zero] at hcpy
    simp only [insertChunkUnconstrained, hprv.axisAt_split rfl, bind_eq_bind, bind_some]
    rw [← hcpy]
    congr 2
    omega
  · rw [region_last]
    ext j
    constructor
    · rintro ⟨e, he, hbyt⟩
      exact ⟨axis.chunkOrigin + e, (haxs.covers_iff _).mpr ⟨by omega, by omega⟩, hbyt⟩
    · rintro ⟨i, hcvr, hbyt⟩
      obtain ⟨hlow, hle⟩ := (haxs.covers_iff i).mp hcvr
      refine ⟨i - axis.chunkOrigin, by omega, ?_⟩
      rwa [Nat.add_sub_cancel' hlow]

/-- The optimised insertion writes the region of the general one. The offsets
are the row-major positions of the outer coordinates, scaled by the elements
that the inner dimensions hold. -/
theorem insertChunkUnconstrained_fills {content : Nat → Option Byte}
    (hprv : Provides array chunk axes content) (hwho : ∀ axis ∈ axes, Whole axis) (rest : List Axis) :
    ∀ (axis : Axis) (first : List Axis) (k : List Nat) (buffer : List Byte),
      axes = first ++ axis :: rest → Forall₂ Axis.Covers first k →
      buffer.length = array.constrainedShape.prod * array.elemWidth →
      ∃ after, insertChunkUnconstrained array chunk array.constrainedShape rest.length first.length
          (rowMajor (first.map fun axis => axis.thisDim.constrainedSize) k *
            ((axis :: rest).map fun axis => axis.thisDim.constrainedSize).prod)
          (rowMajor (first.map Axis.chunkSize) (localAddress first k) *
            ((axis :: rest).map Axis.chunkSize).prod) buffer = some after ∧
        Fills content (region array k (axis :: rest)) buffer after := by
  induction rest with
  | nil =>
    intro axis first k buffer hspl hcov hbuf
    subst hspl
    have hlst := insertLastUnconstrained_fills hprv (hwho axis (by simp)) hcov hbuf
    simpa only [length_nil, map_cons, map_nil, prod_singleton] using hlst
  | cons next rest ih =>
    intro axis first k buffer hspl hcov hbuf
    have haxs := hwho axis (by simp [hspl])
    have horg := haxs.origin_le_endElement
    have hk := inBounds_of_covers hcov
    have hp := localAddress_inBounds hcov
    simp only [length_cons, insertChunkUnconstrained, hprv.axisAt_split hspl,
      multiplier_target hprv.toAxesOf hspl, multiplier_source hprv.toAxesOf hspl, bind_eq_bind,
      bind_some]
    rw [haxs.region_cons]
    apply foldlM_buffer_fills _ hbuf
    · intro p hp' buffer hlen
      obtain ⟨-, hle, -⟩ := (mem_strided Nat.one_pos p).mp hp'
      unfold Axis.chunkEnd at hle
      have hcvr : axis.Covers (p + axis.chunkOrigin) :=
        (haxs.covers_iff _).mpr ⟨by omega, by omega⟩
      have hidx : p + axis.chunkOrigin < axis.thisDim.size := by
        rw [← haxs.all]
        exact Dimension.lt_constrainedSize.mpr hcvr.2.2
      obtain ⟨after, hins, hfil⟩ := ih next (first ++ [axis])
        (k ++ [p + axis.chunkOrigin]) buffer (by rw [hspl, append_assoc]; rfl)
        (rel_append hcov (.cons hcvr .nil)) hlen
      refine ⟨after, ?_, hfil⟩
      rw [← hins, length_append, length_singleton, map_append,
        map_append, localAddress_concat hcov, rowMajor_append hk.length_eq.symm,
        rowMajor_append hp.length_eq.symm, select_eq haxs.all hidx, Nat.add_sub_cancel]
      simp only [map_cons, map_nil, rowMajor_singleton, prod_nil, prod_cons]
      congr 1 <;> ring

def chunkBytes (array : DmrppArray) (chunk : Chunk) : Set Nat :=
  { i | ∃ p, InBounds array.chunkDimensionSizes p ∧
    InBounds array.shape (zipWith (· + ·) chunk.positionInArray p) ∧
    ∃ b < array.elemWidth, i = rowMajor array.shape (zipWith (· + ·) chunk.positionInArray p) *
        array.elemWidth + b }

theorem selectIndex_eq (hprj : isProjected array = false) {k : List Nat}
    (hk : InBounds array.shape k) : selectIndex array k = k := by
  have hall := all_of_not_projected hprj
  have hdms : Forall₂ (fun dim i => i < dim.size) array.dims k := forall₂_map_left_iff.mp hk
  unfold selectIndex
  clear hk hprj
  generalize array.dims = dims at hdms hall ⊢
  induction hdms with
  | nil => rfl
  | @cons dim i dims k hi _ ih =>
    rw [zipWith_cons_cons, select_eq (hall dim (by simp)) hi,
      ih fun other hmem => hall other (mem_cons_of_mem dim hmem)]

theorem region_subset_chunkBytes (hprj : isProjected array = false)
    (hof : AxesOf array chunk axes) : region array [] axes ⊆ chunkBytes array chunk := by
  rintro i ⟨k, hcov, b, hb, rfl⟩
  have hk : InBounds array.shape k := by
    rw [← constrainedShape_eq_shape hprj, hof.constrainedShape_eq]
    exact inBounds_of_covers hcov
  have hidx : zipWith (· + ·) chunk.positionInArray (localAddress axes k) = k := by
    rw [origin_add_local hof hcov, selectIndex_eq hprj hk]
  refine ⟨localAddress axes k, ?_, ?_, b, hb, ?_⟩
  · rw [← hof.sizes]
    exact localAddress_inBounds hcov
  · rw [hidx]
    exact hk
  · rw [hidx, constrainedShape_eq_shape hprj]
    rfl

theorem whole_axesAt (hprj : isProjected array = false) (horg : IsOrigin array chunk.positionInArray) :
    ∀ axis ∈ axesAt array chunk.positionInArray, Whole axis := by
  have hall := all_of_not_projected hprj
  have hgrd : ∀ cell ∈ array.dims.zip array.chunkDimensionSizes,
      cell.1.constrainedSize = cell.1.size ∧ 0 < cell.2 := by
    intro cell hmem
    exact ⟨hall cell.1 (of_mem_zip hmem).1, array.chunk_pos cell.2 (of_mem_zip hmem).2⟩
  unfold IsOrigin at horg
  unfold axesAt
  generalize array.dims.zip array.chunkDimensionSizes = grid at hgrd horg ⊢
  generalize chunk.positionInArray = origin at horg ⊢
  induction horg with
  | nil => simp
  | @cons cell o grid origin hfst _ ih =>
    intro axis hmem
    rw [zipWith_cons_cons, mem_cons] at hmem
    cases hmem with
    | inl heq =>
      subst heq
      exact ⟨(hgrd cell (by simp)).1, hfst.2, (hgrd cell (by simp)).2⟩
    | inr hrst => exact ih (fun other h => hgrd other (mem_cons_of_mem cell h)) axis hrst

theorem needed_of_whole (hwho : ∀ axis ∈ axes, Whole axis) : Needed axes := by
  apply needed_of_covers (k := axes.map Axis.chunkOrigin) fun axis hmem => (hwho axis hmem).size_pos
  rw [forall₂_map_right_iff, forall₂_same]
  exact fun axis hmem => (hwho axis hmem).covers_origin

theorem insertReadChunkUnconstrained_fills
    (hof : AxesOf array chunk axes) (hhol : Holds array stored chunk) (hwho : ∀ axis ∈ axes, Whole axis)
    (hbuf : buffer.length = array.constrainedShape.prod * array.elemWidth) :
    ∃ after, insertReadChunkUnconstrained array buffer chunk = some after ∧
      Fills (hyperslab array stored) (region array [] axes) buffer after := by
  obtain ⟨axis, rest, hspl⟩ := exists_cons_of_ne_nil (axes_ne_nil hof)
  obtain ⟨after, hins, hfil⟩ := insertChunkUnconstrained_fills (hhol.provides hof) hwho
    rest axis [] [] buffer hspl .nil hbuf
  simp only [map_nil, rowMajor_nil, zero_mul, length_nil] at hins
  rw [← lastDim_eq hof hspl] at hins
  exact ⟨after, hins, hfil.congr (by rw [hspl])⟩

theorem readChunksUnconstrained_fills
    (hprj : isProjected array = false) (hcom : Complete array stored chunks)
    (hbuf : buffer.length = array.constrainedShape.prod * array.elemWidth) :
    ∃ after, readChunksUnconstrained array chunks buffer = some after ∧ Fills (hyperslab array stored)
        { i | i < array.constrainedShape.prod * array.elemWidth } buffer after := by
  have hwho : ∀ chunk ∈ chunks, ∀ axis ∈ axesAt array chunk.positionInArray, Whole axis :=
    fun chunk hmem =>
      whole_axesAt hprj ((hcom.origins _).mp (mem_map_of_mem hmem))
  -- every chunk is needed here, so the regions are those of the general read
  have hflt : chunks.filter (fun chunk => Needed (axesAt array chunk.positionInArray)) =
      chunks := by
    rw [filter_eq_self]
    intro chunk hmem
    rw [decide_eq_true_eq]
    exact needed_of_whole (hwho chunk hmem)
  rw [← needed_regions_eq hcom, hflt]
  apply foldlM_buffer_fills _ hbuf
  intro chunk hmem buffer hlen
  exact insertReadChunkUnconstrained_fills (axesOf_axesAt (hcom.rank_eq chunk hmem))
    (hcom.holds chunk hmem) (hwho chunk hmem) hlen

/-- On an array without a projection both ways of inserting a complete chunk
list leave the row-major array, and inserting one chunk touches no byte outside
the elements it has inside the array. -/
theorem readChunksUnconstrained_eq_readNeededChunks (array : DmrppArray)
    (hprojected : isProjected array = false) (stored : List Nat → Nat → Byte)
    (chunks : List Chunk) (hcomplete : Complete array stored chunks) (buffer buffer' : List Byte)
    (hbuffer : buffer.length = array.shape.prod * array.elemWidth)
    (hbuffer' : buffer'.length = array.shape.prod * array.elemWidth) :
    (∃ result, readChunksUnconstrained array chunks buffer = some result ∧
      readNeededChunks array chunks buffer' = some result ∧
      result.length = array.shape.prod * array.elemWidth ∧
      ∀ k, InBounds array.shape k → ∀ b < array.elemWidth,
        result[rowMajor array.shape k * array.elemWidth + b]? = some (stored k b)) ∧
    ∀ chunk ∈ chunks, ∀ before : List Byte, before.length = array.shape.prod * array.elemWidth →
      ∃ after, insertReadChunkUnconstrained array before chunk = some after ∧
        ∀ i ∉ chunkBytes array chunk, after[i]? = before[i]? := by
  have hsha := constrainedShape_eq_shape hprojected
  constructor
  · rw [← hsha] at hbuffer hbuffer'
    obtain ⟨result, hread, hfil⟩ := readChunksUnconstrained_fills hprojected hcomplete hbuffer
    obtain ⟨result', hread', hfil'⟩ := readNeededChunks_fills hcomplete hbuffer'
    have hsame : result = result' := hfil.unique hfil' (hbuffer.trans hbuffer'.symm)
      fun i hi => by rwa [hbuffer] at hi
    refine ⟨result, hread, hsame ▸ hread', ?_, ?_⟩
    · rw [hfil.length_eq, hbuffer, hsha]
    · intro k hk b hb
      have hcell := hfil.inside _ (rowMajor_byte_lt (hsha ▸ hk) hb)
      rw [hyperslab_apply (hsha ▸ hk) hb, selectIndex_eq hprojected hk, hsha] at hcell
      exact hcell
  · intro chunk hmem before hbef
    have hof := axesOf_axesAt (hcomplete.rank_eq chunk hmem)
    obtain ⟨after, hins, hfil⟩ := insertReadChunkUnconstrained_fills hof
      (hcomplete.holds chunk hmem)
      (whole_axesAt hprojected ((hcomplete.origins _).mp (mem_map_of_mem hmem)))
      (by rw [hsha]; exact hbef)
    refine ⟨after, hins, ?_⟩
    intro i hi
    exact hfil.outside i fun h => hi (region_subset_chunkBytes hprojected hof h)

theorem Complete.of_shape_eq (hcom : Complete array stored chunks) (hsha : array'.shape = array.shape)
    (hsiz : array'.chunkDimensionSizes = array.chunkDimensionSizes)
    (hwid : array'.elemWidth = array.elemWidth) : Complete array' stored chunks := by
  have hiff : ∀ (array : DmrppArray) (origin : List Nat), IsOrigin array origin ↔
      Forall₂ (fun cell o => cell.2 ∣ o ∧ o < cell.1)
        (array.shape.zip array.chunkDimensionSizes) origin := by
    intro array origin
    rw [DmrppArray.shape, zip_map_left, forall₂_map_left_iff]
    rfl
  refine ⟨hcom.nodup, ?_, ?_⟩
  · intro origin
    rw [hcom.origins, hiff, hiff, hsha, hsiz]
  · intro chunk hmem
    obtain ⟨hlen, hele⟩ := hcom.holds chunk hmem
    refine ⟨?_, ?_⟩
    · rw [hsiz, hwid]
      exact hlen
    · rw [hsha, hsiz, hwid]
      exact hele

def wholeGridArray : DmrppArray where
  dims := [gridRows, { gridColumns with stride := 1, stride_pos := Nat.one_pos }]
  chunkDimensionSizes := [2, 2]
  elemWidth := 1
  rank_pos := by simp
  rank_eq := by simp
  chunk_pos := gridChunk_pos
  width_pos := Nat.one_pos

theorem readChunksUnconstrained_eq_readNeededChunks_grid :
    isProjected wholeGridArray = false ∧ Complete wholeGridArray gridStored gridChunks ∧
    (∃ result, readChunksUnconstrained wholeGridArray gridChunks [9, 9, 9, 9, 9, 9] = some result ∧
      readNeededChunks wholeGridArray gridChunks [8, 8, 8, 8, 8, 8] = some result ∧ result.length = 6 ∧
      ∀ k, InBounds wholeGridArray.shape k → ∀ b < wholeGridArray.elemWidth,
        result[rowMajor wholeGridArray.shape k * wholeGridArray.elemWidth + b]? =
          some (gridStored k b)) := by
  have hcom : Complete wholeGridArray gridStored gridChunks :=
    Complete.of_shape_eq gridChunks_complete rfl rfl rfl
  exact ⟨by decide, hcom, (readChunksUnconstrained_eq_readNeededChunks wholeGridArray
    (by decide) gridStored gridChunks hcom [9, 9, 9, 9, 9, 9] [8, 8, 8, 8, 8, 8] rfl rfl).1⟩

end Bes.Dmrpp.UnconstrainedRead
