import Bes.Dmrpp.ConstrainedRead

/-! The constrained chunked read is the hyperslab. Inserting one chunk writes
exactly the selected elements that lie in it; a chunk that is not needed holds
none; and every selected element lies in some chunk of a complete list. -/
namespace Bes.Dmrpp.Hyperslab
open Lib.Buffer Lib.Loop Lib.RowMajor List
open Dmrpp.Array Dmrpp.ConstrainedRead

structure AxesOf (array : DmrppArray) (chunk : Chunk) (axes : List Axis) : Prop where
  dims : axes.map Axis.thisDim = array.dims
  origins : axes.map Axis.chunkOrigin = chunk.positionInArray
  sizes : axes.map Axis.chunkSize = array.chunkDimensionSizes

variable {array : DmrppArray} {chunk : Chunk}

theorem AxesOf.axisAt_eq (hof : AxesOf array chunk axes) (dim : Nat) :
    axisAt array chunk dim = axes[dim]? := by
  unfold axisAt
  rw [← hof.dims, ← hof.origins, ← hof.sizes]
  simp only [getElem?_map]
  cases axes[dim]? with
  | none => rfl
  | some axis => rfl

theorem AxesOf.axisAt_split (hof : AxesOf array chunk axes) (hspl : axes = first ++ axis :: rest) :
    axisAt array chunk first.length = some axis := by
  rw [hof.axisAt_eq, hspl]
  simp

theorem AxesOf.size_pos (hof : AxesOf array chunk axes) (hmem : axis ∈ axes) : 0 < axis.chunkSize := by
  apply array.chunk_pos
  rw [← hof.sizes]
  exact mem_map_of_mem hmem

theorem AxesOf.constrainedShape_eq (hof : AxesOf array chunk axes) :
    array.constrainedShape = axes.map fun axis => axis.thisDim.constrainedSize := by
  unfold DmrppArray.constrainedShape
  rw [← hof.dims, map_map]
  rfl

theorem AxesOf.constrainedShape_split (hof : AxesOf array chunk (first ++ [axis])) :
    array.constrainedShape =
      (first.map fun axis => axis.thisDim.constrainedSize) ++ [axis.thisDim.constrainedSize] := by
  rw [hof.constrainedShape_eq, map_append]
  rfl

theorem AxesOf.sizes_split (hof : AxesOf array chunk (first ++ [axis])) :
    array.chunkDimensionSizes = first.map Axis.chunkSize ++ [axis.chunkSize] := by
  rw [← hof.sizes, map_append]
  rfl

def localAddress (axes : List Axis) (k : List Nat) : List Nat :=
  zipWith (fun axis i => axis.thisDim.select i - axis.chunkOrigin) axes k

theorem localAddress_append {k : List Nat} (hlen : first.length = k.length)
    (rest : List Axis) (k' : List Nat) :
    localAddress (first ++ rest) (k ++ k') = localAddress first k ++ localAddress rest k' := by
  exact zipWith_append hlen

theorem inBounds_of_covers {k : List Nat} (hcvr : Forall₂ Axis.Covers axes k) :
    InBounds (axes.map fun axis => axis.thisDim.constrainedSize) k := by
  induction hcvr with
  | nil => exact .nil
  | cons hfir _ ih => exact .cons (Dimension.lt_constrainedSize.mpr hfir.2.2) ih

theorem localAddress_inBounds {k : List Nat} (hcvr : Forall₂ Axis.Covers axes k) :
    InBounds (axes.map Axis.chunkSize) (localAddress axes k) := by
  induction hcvr with
  | nil => exact .nil
  | @cons axis i _ _ hfir _ ih =>
    have hlow := hfir.1
    have hhgh := hfir.2.1
    have hlt : axis.thisDim.select i - axis.chunkOrigin < axis.chunkSize := by omega
    exact .cons hlt ih

/-- Target bytes that the call for the axes from one dimension on must write,
when `k` are the coordinates fixed by the outer dimensions. -/
def region (array : DmrppArray) (k : List Nat) (axes : List Axis) : Set Nat :=
  { i | ∃ k', Forall₂ Axis.Covers axes k' ∧ ∃ b < array.elemWidth,
    i = rowMajor array.constrainedShape (k ++ k') * array.elemWidth + b }

def Supplies (array : DmrppArray) (chunk : Chunk) (axes : List Axis)
    (content : Nat → Option Byte) : Prop :=
  ∀ k, Forall₂ Axis.Covers axes k → ∀ b < array.elemWidth,
    chunk.readBuffer[rowMajor array.chunkDimensionSizes (localAddress axes k) *
        array.elemWidth + b]? =
      content (rowMajor array.constrainedShape k * array.elemWidth + b)

/-- The outer coordinates of both address vectors are fixed; the `inner`
entries after them still hold whatever earlier iterations left there. -/
structure Addressed (array : DmrppArray) (first : List Axis) (k : List Nat) (inner : Nat)
    (s : InsertState) : Prop where
  target : ∃ stale, s.targetElementAddress = k ++ stale ∧ stale.length = inner
  source : ∃ stale, s.chunkElementAddress = localAddress first k ++ stale ∧ stale.length = inner
  buffer : s.targetBuffer.length = array.constrainedShape.prod * array.elemWidth

theorem Addressed.addresses {k : List Nat} {s : InsertState} (hadd : Addressed array axes k 0 s) :
    s.targetElementAddress = k ∧ s.chunkElementAddress = localAddress axes k := by
  obtain ⟨⟨stale, htgt, hlen⟩, ⟨stale', hsrc, hlen'⟩, -⟩ := hadd
  obtain rfl : stale = [] := eq_nil_of_length_eq_zero hlen
  obtain rfl : stale' = [] := eq_nil_of_length_eq_zero hlen'
  rw [append_nil] at htgt hsrc
  exact ⟨htgt, hsrc⟩

theorem Addressed.outer {first : List Axis} {axis : Axis} {k : List Nat} {i inner : Nat}
    {s : InsertState} (hcvr : Forall₂ Axis.Covers first k)
    (hadd : Addressed array (first ++ [axis]) (k ++ [i]) inner s) :
    Addressed array first k (inner + 1) s := by
  obtain ⟨⟨stale, htgt, hlen⟩, ⟨stale', hsrc, hlen'⟩, hbuf⟩ := hadd
  rw [localAddress_append hcvr.length_eq] at hsrc
  refine ⟨⟨i :: stale, ?_, by simp [hlen]⟩,
    ⟨(axis.thisDim.select i - axis.chunkOrigin) :: stale', ?_, by simp [hlen']⟩, hbuf⟩
  · rw [htgt, append_assoc, singleton_append]
  · rw [hsrc, append_assoc]
    rfl

theorem Addressed.setAddress {first : List Axis} {axis : Axis} {k : List Nat} {i p inner : Nat}
    {s : InsertState} (hcvr : Forall₂ Axis.Covers first k)
    (hloc : axis.thisDim.select i - axis.chunkOrigin = p)
    (hadd : Addressed array first k (inner + 1) s) :
    Addressed array (first ++ [axis]) (k ++ [i]) inner (s.setAddress first.length i p) := by
  obtain ⟨⟨stale, htgt, hlen⟩, ⟨stale', hsrc, hlen'⟩, hbuf⟩ := hadd
  have hk : k.length = first.length := hcvr.length_eq.symm
  have hsou : (localAddress first k).length = first.length := by
    simp [localAddress, hk]
  cases stale with
  | nil => simp at hlen
  | cons old stale =>
    cases stale' with
    | nil => simp at hlen'
    | cons old' stale' =>
      refine ⟨⟨stale, ?_, by simpa using hlen⟩, ⟨stale', ?_, by simpa using hlen'⟩, hbuf⟩
      · simp only [InsertState.setAddress, htgt, ← hk]
        simp
      · simp only [InsertState.setAddress, hsrc]
        rw [localAddress_append hcvr.length_eq, ← hsou]
        simp [localAddress, hloc]

structure Provides (array : DmrppArray) (chunk : Chunk) (axes : List Axis)
    (content : Nat → Option Byte) : Prop extends AxesOf array chunk axes where
  length_le : array.chunkDimensionSizes.prod * array.elemWidth ≤ chunk.readBuffer.length
  supplies : Supplies array chunk axes content

section

variable {content : Nat → Option Byte} {first : List Axis}

theorem localAddress_concat (hcvr : Forall₂ Axis.Covers first k) (j : Nat) :
    localAddress (first ++ [axis]) (k ++ [j]) =
      localAddress first k ++ [axis.thisDim.select j - axis.chunkOrigin] :=
  localAddress_append hcvr.length_eq [axis] [j]

section

variable (i count : Nat) (hpro : Provides array chunk (first ++ [axis]) content)
  (hcvr : Forall₂ Axis.Covers first k)
  (hrun : ∀ e < count, axis.Covers (i + e) ∧ axis.thisDim.select (i + e) - axis.chunkOrigin = axis.thisDim.select i - axis.chunkOrigin + e)
  (htargetRun : i + count ≤ axis.thisDim.constrainedSize)
  (hsourceRun : axis.thisDim.select i - axis.chunkOrigin + count ≤ axis.chunkSize)

include hpro hcvr hrun htargetRun hsourceRun

theorem memcpy_run_fills (hbuf : buffer.length = array.constrainedShape.prod * array.elemWidth) :
    ∃ after, memcpy buffer (rowMajor array.constrainedShape (k ++ [i]) * array.elemWidth)
        chunk.readBuffer (rowMajor array.chunkDimensionSizes
          (localAddress (first ++ [axis]) (k ++ [i])) * array.elemWidth)
        ((count : Int) * array.elemWidth) = some after ∧
      Fills content { j | ∃ e < count, ∃ b < array.elemWidth,
        j = rowMajor array.constrainedShape (k ++ [i + e]) * array.elemWidth + b } buffer after := by
  have hsha := hpro.constrainedShape_split
  have hsiz := hpro.sizes_split
  have hred := hpro.length_le
  have hk := inBounds_of_covers hcvr
  have hp := localAddress_inBounds hcvr
  have htar : ∀ e, rowMajor array.constrainedShape (k ++ [i]) + e =
      rowMajor array.constrainedShape (k ++ [i + e]) := by
    intro e
    rw [hsha, rowMajor_run_eq hk.length_eq.symm]
  obtain ⟨after, hcpy, hfil⟩ := memcpy_elements content buffer chunk.readBuffer
    (rowMajor array.constrainedShape (k ++ [i]))
    (rowMajor array.chunkDimensionSizes (localAddress (first ++ [axis]) (k ++ [i])))
    count array.elemWidth
    (by
      rw [hbuf, hsha]
      exact Nat.mul_le_mul_right _ (rowMajor_run_le hk htargetRun))
    (by
      rw [localAddress_concat hcvr, hsiz] at *
      exact (Nat.mul_le_mul_right _ (rowMajor_run_le hp hsourceRun)).trans hred)
    (by
      intro e he b hb
      obtain ⟨hcov, hshi⟩ := hrun e he
      rw [htar, ← hpro.supplies (k ++ [i + e])
        (rel_append hcvr (.cons hcov .nil)) b hb, localAddress_concat hcvr,
        localAddress_concat hcvr, hshi, hsiz, rowMajor_run_eq hp.length_eq.symm])
  refine ⟨after, hcpy, hfil.congr ?_⟩
  simp only [elementRun, htar]

theorem copyElements_fills (hadd : Addressed array (first ++ [axis]) (k ++ [i]) 0 s) :
    ∃ s', copyElements array chunk array.constrainedShape s count = some s' ∧
      Addressed array (first ++ [axis]) (k ++ [i]) 0 s' ∧
      Fills content { j | ∃ e < count, ∃ b < array.elemWidth,
          j = rowMajor array.constrainedShape (k ++ [i + e]) * array.elemWidth + b }
        s.targetBuffer s'.targetBuffer := by
  obtain ⟨htgt, hsrc⟩ := hadd.addresses
  obtain ⟨after, hcpy, hfil⟩ :=
    memcpy_run_fills i count hpro hcvr hrun htargetRun hsourceRun hadd.buffer
  have htar : getIndex s.targetElementAddress array.constrainedShape =
      some (rowMajor array.constrainedShape (k ++ [i])) := by
    rw [htgt, hpro.constrainedShape_split, getIndex_eq (inBounds_of_covers hcvr)]
  have hsou : getIndex s.chunkElementAddress array.chunkDimensionSizes =
      some (rowMajor array.chunkDimensionSizes (localAddress (first ++ [axis]) (k ++ [i]))) := by
    rw [hsrc, hpro.sizes_split, localAddress_concat hcvr, getIndex_eq (localAddress_inBounds hcvr)]
  refine ⟨{ s with targetBuffer := after }, ?_, ?_, hfil⟩
  · simp only [copyElements, htar, hsou, Option.bind_eq_bind, Option.bind_some, hcpy]
  · exact ⟨⟨[], by simpa using htgt, rfl⟩, ⟨[], by simpa using hsrc, rfl⟩,
      hfil.length_eq.trans hadd.buffer⟩

end

theorem region_cons (hsiz : 0 < axis.chunkSize)
    (hstp : axis.chunkOrigin ≤ axis.thisDim.stop) (k : List Nat) (rest : List Axis) :
    region array k (axis :: rest) =
      ⋃ p ∈ axis.chunkIndices, region array (k ++ [axis.targetIndex p]) rest := by
  ext j
  simp only [region, Set.mem_iUnion, Set.mem_ofPred_eq, exists_prop]
  constructor
  · rintro ⟨k', hcvr, b, hb, rfl⟩
    cases hcvr with
    | cons hfir hrst =>
      obtain ⟨p, hp, rfl⟩ := (Axis.covers_iff hsiz hstp _).mp hfir
      exact ⟨p, hp, _, hrst, b, hb, by simp⟩
  · rintro ⟨p, hp, k', hcvr, b, hb, rfl⟩
    refine ⟨axis.targetIndex p :: k', .cons ?_ hcvr, b, hb, by simp⟩
    exact (Axis.covers_iff hsiz hstp _).mpr ⟨p, hp, rfl⟩

theorem region_last (k : List Nat) (axis : Axis) :
    region array k [axis] = { j | ∃ i, axis.Covers i ∧ ∃ b < array.elemWidth,
      j = rowMajor array.constrainedShape (k ++ [i]) * array.elemWidth + b } := by
  ext j
  constructor
  · rintro ⟨k', hcvr, hbyt⟩
    cases hcvr with
    | cons hfir hrst =>
      cases hrst
      exact ⟨_, hfir, hbyt⟩
  · rintro ⟨i, hcvr, hbyt⟩
    exact ⟨[i], .cons hcvr .nil, hbyt⟩

theorem insertRun_fills (hpro : Provides array chunk (first ++ [axis]) content)
    (hkpt : axis.Kept) (hcvr : Forall₂ Axis.Covers first k) (hstr : axis.thisDim.stride = 1)
    (hadd : Addressed array first k 1 s) :
    ∃ s', insertChunk array chunk array.constrainedShape 0 first.length s = some s' ∧
      Addressed array first k 1 s' ∧
      Fills content (region array k [axis]) s.targetBuffer s'.targetBuffer := by
  have hsiz : 0 < axis.chunkSize := hpro.size_pos (by simp)
  have hrun := Axis.covers_run hsiz hstr
  obtain ⟨first', hfir⟩ := getChunkStart_selected axis.thisDim axis.chunkOrigin
  change _ = _ + axis.chunkStart at hfir
  have hsel : ∀ i, axis.thisDim.select i = axis.thisDim.start + i := by
    intro i
    rw [Dimension.select, hstr, mul_one]
  rw [hsel] at hfir
  let start := axis.chunkOrigin + axis.chunkStart - axis.thisDim.start
  let count := axis.endElement + 1 - (axis.chunkOrigin + axis.chunkStart)
  have hloc : axis.thisDim.select start - axis.chunkOrigin = axis.chunkStart := by
    rw [hsel]
    omega
  have hend := Axis.chunkStart_le_endElement hkpt hstr
  have hcnt : (axis.endElement : Int) - (axis.chunkOrigin + axis.chunkStart : Nat) + 1 =
      (count : Int) := by
    omega
  obtain ⟨s', hcpy, haft, hfil⟩ := copyElements_fills start count hpro hcvr (by
      intro e he
      refine ⟨(hrun (start + e)).mpr ⟨e, he, rfl⟩, ?_⟩
      rw [hsel, hsel]
      omega)
    (by
      have hbd : axis.thisDim.constrainedSize = axis.thisDim.stop - axis.thisDim.start + 1 := by
        rw [Dimension.constrainedSize, hstr, Nat.div_one]
      have hstp := Axis.endElement_le_stop axis
      omega)
    (by
      dsimp [count]
      unfold Axis.endElement
      unfold Axis.Kept at hkpt
      split <;> omega)
    (hadd.setAddress hcvr hloc)
  refine ⟨s', ?_, haft.outer hcvr, hfil.congr ?_⟩
  · simp only [insertChunk, hpro.axisAt_split rfl, Option.bind_eq_bind, Option.bind_some, hstr,
      ↓reduceIte]
    rw [hcnt]
    exact hcpy
  · rw [region_last]
    ext j
    constructor
    · rintro ⟨e, he, hbyt⟩
      exact ⟨start + e, (hrun _).mpr ⟨e, he, rfl⟩, hbyt⟩
    · rintro ⟨i, hcov, hbyt⟩
      obtain ⟨e, he, rfl⟩ := (hrun i).mp hcov
      exact ⟨e, he, hbyt⟩

theorem insertStrided_fills (hpro : Provides array chunk (first ++ [axis]) content)
    (hstp : axis.chunkOrigin ≤ axis.thisDim.stop)
    (hcvr : Forall₂ Axis.Covers first k) (hstr : axis.thisDim.stride ≠ 1)
    (hadd : Addressed array first k 1 s) :
    ∃ s', insertChunk array chunk array.constrainedShape 0 first.length s = some s' ∧
      Addressed array first k 1 s' ∧
      Fills content (region array k [axis]) s.targetBuffer s'.targetBuffer := by
  have hsiz : 0 < axis.chunkSize := hpro.size_pos (by simp)
  simp only [insertChunk, hpro.axisAt_split rfl, Option.bind_eq_bind, Option.bind_some, hstr, ↓reduceIte]
  rw [region_cons hsiz hstp]
  apply foldlM_fills content InsertState.targetBuffer (Addressed array first k 1) _ _ _ _ s hadd
  intro p hp s hs
  obtain ⟨hsel, hlt, hbd⟩ := Axis.select_targetIndex hsiz hstp hp
  have hloc : axis.thisDim.select (axis.targetIndex p) - axis.chunkOrigin = p := by omega
  obtain ⟨s', hcpy, haft, hfil⟩ := copyElements_fills (axis.targetIndex p) 1 hpro hcvr (by
      intro e he
      obtain rfl : e = 0 := by omega
      exact ⟨(Axis.covers_iff hsiz hstp _).mpr ⟨p, hp, rfl⟩, rfl⟩)
    hbd (by omega) (hs.setAddress hcvr hloc)
  refine ⟨s', hcpy, haft.outer hcvr, hfil.congr ?_⟩
  simp [region]

/-- Inserting a kept chunk writes exactly the selected elements that lie in it.
The induction is on the dimensions still to come, innermost last. -/
theorem insertChunk_fills (hpro : Provides array chunk axes content)
    (hkpt : ∀ axis ∈ axes, axis.Kept) (rest : List Axis) :
    ∀ (axis : Axis) (first : List Axis) (k : List Nat) (s : InsertState),
      axes = first ++ axis :: rest → Forall₂ Axis.Covers first k →
      Addressed array first k (rest.length + 1) s →
      ∃ s', insertChunk array chunk array.constrainedShape rest.length first.length s = some s' ∧
        Addressed array first k (rest.length + 1) s' ∧
        Fills content (region array k (axis :: rest)) s.targetBuffer s'.targetBuffer := by
  induction rest with
  | nil =>
    intro axis first k s hspl hcvr hadd
    subst hspl
    have haxs := hkpt axis (by simp)
    by_cases hstr : axis.thisDim.stride = 1
    · exact insertRun_fills hpro haxs hcvr hstr hadd
    · have hstp : axis.chunkOrigin ≤ axis.thisDim.stop := by
        unfold Axis.Kept at haxs
        omega
      exact insertStrided_fills hpro hstp hcvr hstr hadd
  | cons next rest ih =>
    intro axis first k s hspl hcvr hadd
    have hmem : axis ∈ axes := by simp [hspl]
    have hsiz := hpro.size_pos hmem
    have hstp : axis.chunkOrigin ≤ axis.thisDim.stop := by
      have haxs := hkpt axis hmem
      unfold Axis.Kept at haxs
      omega
    simp only [length_cons, insertChunk, hpro.axisAt_split hspl, Option.bind_eq_bind, Option.bind_some]
    rw [region_cons hsiz hstp]
    apply foldlM_fills content InsertState.targetBuffer (Addressed array first k (rest.length + 2))
      _ _ _ _ s hadd
    intro p hp s hs
    obtain ⟨hsel, hlt, hbd⟩ := Axis.select_targetIndex hsiz hstp hp
    have hloc : axis.thisDim.select (axis.targetIndex p) - axis.chunkOrigin = p := by omega
    have hcov : axis.Covers (axis.targetIndex p) := (Axis.covers_iff hsiz hstp _).mpr ⟨p, hp, rfl⟩
    obtain ⟨s', hins, haft, hfil⟩ := ih next (first ++ [axis])
      (k ++ [axis.targetIndex p]) _ (by rw [hspl, append_assoc]; rfl)
      (rel_append hcvr (.cons hcov .nil)) (hs.setAddress hcvr hloc)
    rw [length_append] at hins
    exact ⟨s', hins, haft.outer hcvr, hfil⟩

end

def Needed : List Axis → Prop
  | [] => True
  | [axis] => axis.Kept
  | axis :: next :: rest =>
      axis.Kept ∧ axis.chunkIndices ≠ [] ∧ Needed (next :: rest)

instance decidableNeeded : DecidablePred Needed
  | [] => isTrue trivial
  | [axis] => inferInstanceAs (Decidable axis.Kept)
  | _ :: next :: rest =>
      have := decidableNeeded (next :: rest)
      inferInstanceAs (Decidable (_ ∧ _ ∧ _))

theorem findNeededChunks_eq (hof : AxesOf array chunk axes) (rest : List Axis) :
    ∀ (axis : Axis) (first : List Axis) (address : List Nat), axes = first ++ axis :: rest → ∃ address',
        findNeededChunks array chunk rest.length first.length address =
          some (if Needed (axis :: rest) then some chunk else none, address') := by
  induction rest with
  | nil =>
    intro axis first address hspl
    simp only [length_nil, findNeededChunks, hof.axisAt_split hspl, Option.bind_eq_bind,
      Option.bind_some, Needed]
    by_cases hkpt : axis.Kept <;> simp [hkpt]
  | cons next rest ih =>
    intro axis first address hspl
    simp only [length_cons, findNeededChunks, hof.axisAt_split hspl, Option.bind_eq_bind,
      Option.bind_some, Needed]
    by_cases hkpt : axis.Kept
    · obtain ⟨address', hfou, -⟩ := firstFound_const
        (fun address chunkIndex => findNeededChunks array chunk rest.length (first.length + 1)
          (address.set first.length (axis.targetIndex chunkIndex)))
        (if Needed (next :: rest) then some chunk else none) (fun _ => True) axis.chunkIndices
        (by
          intro p _ address _
          obtain ⟨address', hcas⟩ := ih next (first ++ [axis])
            (address.set first.length (axis.targetIndex p))
            (by rw [hspl, append_assoc]; rfl)
          rw [length_append, length_singleton] at hcas
          exact ⟨address', hcas, trivial⟩)
        address trivial
      rw [if_pos hkpt, hfou]
      by_cases hemp : axis.chunkIndices = [] <;> simp [hemp, hkpt]
    · exact ⟨address, by simp [hkpt]⟩

theorem Needed.kept (hnee : Needed axes) : ∀ axis ∈ axes, axis.Kept := by
  induction axes with
  | nil => simp
  | cons axis rest ih =>
    cases rest with
    | nil => simpa [Needed] using hnee
    | cons next rest =>
      intro other hmem
      cases mem_cons.mp hmem with
      | inl heq => exact heq ▸ hnee.1
      | inr hrst => exact ih hnee.2.2 other hrst

theorem needed_of_covers {k : List Nat} (hsiz : ∀ axis ∈ axes, 0 < axis.chunkSize)
    (hcvr : Forall₂ Axis.Covers axes k) : Needed axes := by
  induction hcvr with
  | nil => trivial
  | @cons axis i rest k hfir hrst ih =>
    have hkpt := Axis.kept_of_covers hfir
    cases rest with
    | nil => exact hkpt
    | cons next rest =>
      refine ⟨hkpt, ?_, ih fun other hmem => hsiz other (mem_cons_of_mem axis hmem)⟩
      have hstp : axis.chunkOrigin ≤ axis.thisDim.stop := by
        unfold Axis.Kept at hkpt
        omega
      obtain ⟨p, hp, -⟩ := (Axis.covers_iff (hsiz axis (by simp)) hstp i).mp hfir
      exact ne_nil_of_mem hp

/-! Complete chunk lists and the array they store. -/

def axesAt (array : DmrppArray) (origin : List Nat) : List Axis :=
  zipWith (fun grid o => ⟨grid.1, o, grid.2⟩) (array.dims.zip array.chunkDimensionSizes) origin

def IsOrigin (array : DmrppArray) (origin : List Nat) : Prop :=
  Forall₂ (fun grid o => grid.2 ∣ o ∧ o < grid.1.size)
    (array.dims.zip array.chunkDimensionSizes) origin

/-- The chunk has been read and holds its part of the stored array; elements
that hang over the end of the array are arbitrary. `stored index b` is byte `b`
of the element at `index`. -/
structure Holds (array : DmrppArray) (stored : List Nat → Nat → Byte) (chunk : Chunk) :
    Prop where
  length_le : array.chunkDimensionSizes.prod * array.elemWidth ≤ chunk.readBuffer.length
  elements : ∀ p, InBounds array.chunkDimensionSizes p →
    InBounds array.shape (zipWith (· + ·) chunk.positionInArray p) →
    ∀ b < array.elemWidth,
      chunk.readBuffer[rowMajor array.chunkDimensionSizes p * array.elemWidth + b]? =
        some (stored (zipWith (· + ·) chunk.positionInArray p) b)

structure Complete (array : DmrppArray) (stored : List Nat → Nat → Byte)
    (chunks : List Chunk) : Prop where
  nodup : (chunks.map Chunk.positionInArray).Nodup
  origins : ∀ origin, origin ∈ chunks.map Chunk.positionInArray ↔ IsOrigin array origin
  holds : ∀ chunk ∈ chunks, Holds array stored chunk

/-- Index in the whole array of the element at index `k` of the constrained one. -/
def selectIndex (array : DmrppArray) (k : List Nat) : List Nat :=
  zipWith Dimension.select array.dims k

def hyperslab (array : DmrppArray) (stored : List Nat → Nat → Byte) (i : Nat) : Option Byte :=
  some (stored (selectIndex array (unflatten array.constrainedShape (i / array.elemWidth)))
    (i % array.elemWidth))

theorem axesOf_axesAt (hlen : chunk.positionInArray.length = array.dims.length) :
    AxesOf array chunk (axesAt array chunk.positionInArray) := by
  have hsiz := array.rank_eq
  refine ⟨?_, ?_, ?_⟩ <;> apply ext_getElem <;> simp [axesAt, hlen, hsiz]

theorem IsOrigin.length_eq (horg : IsOrigin array origin) : origin.length = array.dims.length := by
  have hlen := Forall₂.length_eq horg
  have hsiz := array.rank_eq
  rw [length_zip, hsiz, min_self] at hlen
  exact hlen.symm

private theorem zipWith_origin_local {k : List Nat} (hcvr : Forall₂ Axis.Covers axes k) :
    zipWith (· + ·) (axes.map Axis.chunkOrigin) (localAddress axes k) =
      zipWith Dimension.select (axes.map Axis.thisDim) k := by
  induction hcvr with
  | nil => rfl
  | @cons axis i rest k hfir _ ih =>
    have hlow := hfir.1
    simp only [localAddress, map_cons, zipWith_cons_cons] at ih ⊢
    rw [ih, Nat.add_sub_cancel' hlow]

private theorem select_inBounds {k : List Nat} (hcvr : Forall₂ Axis.Covers axes k) :
    InBounds (axes.map fun axis => axis.thisDim.size)
      (zipWith Dimension.select (axes.map Axis.thisDim) k) := by
  induction hcvr with
  | nil => exact .nil
  | @cons axis i rest k hfir _ ih =>
    exact .cons (lt_of_le_of_lt hfir.2.2 axis.thisDim.stop_lt_size) ih

variable {stored : List Nat → Nat → Byte} {chunks : List Chunk}

theorem hyperslab_apply {k : List Nat} {b : Nat}
    (hk : InBounds array.constrainedShape k) (hb : b < array.elemWidth) :
    hyperslab array stored (rowMajor array.constrainedShape k * array.elemWidth + b) =
      some (stored (selectIndex array k) b) := by
  unfold hyperslab
  rw [mul_comm, Nat.mul_add_div (by omega), Nat.div_eq_of_lt hb, add_zero,
    unflatten_rowMajor hk, Nat.mul_add_mod, Nat.mod_eq_of_lt hb]

theorem origin_add_local (hof : AxesOf array chunk axes) {k : List Nat}
    (hcvr : Forall₂ Axis.Covers axes k) :
    zipWith (· + ·) chunk.positionInArray (localAddress axes k) = selectIndex array k := by
  rw [← hof.origins, selectIndex, ← hof.dims]
  exact zipWith_origin_local hcvr

theorem Holds.provides (hhol : Holds array stored chunk)
    (hof : AxesOf array chunk axes) : Provides array chunk axes (hyperslab array stored) := by
  refine ⟨hof, hhol.length_le, ?_⟩
  intro k hcvr b hb
  have hsel := origin_add_local hof hcvr
  have hsha : array.shape = axes.map fun axis => axis.thisDim.size := by
    rw [DmrppArray.shape, ← hof.dims, map_map]
    rfl
  have hbds : InBounds array.constrainedShape k := by
    rw [hof.constrainedShape_eq]
    exact inBounds_of_covers hcvr
  rw [hyperslab_apply hbds hb, ← hsel]
  apply hhol.elements
  · rw [← hof.sizes]
    exact localAddress_inBounds hcvr
  · rw [hsel, hsha, selectIndex, ← hof.dims]
    exact select_inBounds hcvr
  · exact hb

private theorem covering_origin {grid : List (Dimension × Nat)}
    (hpos : ∀ cell ∈ grid, 0 < cell.2) {k : List Nat}
    (hk : Forall₂ (fun cell i => i < cell.1.constrainedSize) grid k) :
    ∃ origin, Forall₂ (fun cell o => cell.2 ∣ o ∧ o < cell.1.size) grid origin ∧ Forall₂ Axis.Covers
        (zipWith (fun cell o => (⟨cell.1, o, cell.2⟩ : Axis)) grid origin) k := by
  induction hk with
  | nil => exact ⟨[], .nil, .nil⟩
  | @cons cell i grid k hfir _ ih =>
    obtain ⟨origin, horg, hcvr⟩ := ih fun other hmem =>
      hpos other (mem_cons_of_mem cell hmem)
    have hle := Dimension.lt_constrainedSize.mp hfir
    have hsiz := cell.1.stop_lt_size
    have hdec := Nat.div_add_mod (cell.1.select i) cell.2
    have hmod := Nat.mod_lt (cell.1.select i) (hpos cell (by simp))
    refine ⟨cell.2 * (cell.1.select i / cell.2) :: origin,
      .cons ⟨Dvd.intro _ rfl, by omega⟩ horg, .cons ⟨?_, ?_, hle⟩ hcvr⟩
    · change cell.2 * (cell.1.select i / cell.2) ≤ cell.1.select i
      omega
    · change cell.1.select i < cell.2 * (cell.1.select i / cell.2) + cell.2
      omega

theorem exists_covering_chunk (hcom : Complete array stored chunks) {k : List Nat}
    (hk : InBounds array.constrainedShape k) :
    ∃ chunk ∈ chunks, Forall₂ Axis.Covers (axesAt array chunk.positionInArray) k := by
  have hgrd : Forall₂ (fun cell i => i < cell.1.constrainedSize)
      (array.dims.zip array.chunkDimensionSizes) k := by
    have hfst : (array.dims.zip array.chunkDimensionSizes).map Prod.fst = array.dims :=
      map_fst_zip (by rw [array.rank_eq])
    unfold DmrppArray.constrainedShape at hk
    rw [← hfst, map_map] at hk
    exact forall₂_map_left_iff.mp hk
  obtain ⟨origin, horg, hcvr⟩ := covering_origin
    (fun cell hmem => array.chunk_pos cell.2 (of_mem_zip hmem).2) hgrd
  obtain ⟨chunk, hmem, rfl⟩ := mem_map.mp ((hcom.origins origin).mpr horg)
  exact ⟨chunk, hmem, hcvr⟩

theorem lastDim_eq (hof : AxesOf array chunk axes)
    (hspl : axes = axis :: rest) : array.lastDim = rest.length := by
  unfold DmrppArray.lastDim
  rw [← hof.sizes, hspl]
  simp

theorem axes_ne_nil (hof : AxesOf array chunk axes) : axes ≠ [] := by
  intro hnil
  apply array.rank_pos
  rw [← hof.dims, hnil]
  rfl

theorem neededChunks_eq (hrnk : ∀ chunk ∈ chunks, chunk.positionInArray.length = array.dims.length) :
    neededChunks array chunks =
      some (chunks.filter fun chunk => Needed (axesAt array chunk.positionInArray)) := by
  induction chunks with
  | nil => rfl
  | cons chunk chunks ih =>
    have hof := axesOf_axesAt (hrnk chunk (by simp))
    obtain ⟨axis, rest, hspl⟩ := exists_cons_of_ne_nil (axes_ne_nil hof)
    obtain ⟨address, hfnd⟩ := findNeededChunks_eq hof rest axis [] chunk.positionInArray hspl
    rw [length_nil, ← lastDim_eq hof hspl, ← hspl] at hfnd
    rw [neededChunks, ih fun other hmem => hrnk other (mem_cons_of_mem chunk hmem), hfnd]
    by_cases hnee : Needed (axesAt array chunk.positionInArray) <;> simp [hnee]

theorem insertReadChunk_fills (hof : AxesOf array chunk axes) (hhol : Holds array stored chunk)
    (hnee : Needed axes) (hbuf : buffer.length = array.constrainedShape.prod * array.elemWidth) :
    ∃ after, insertReadChunk array buffer chunk = some after ∧
      Fills (hyperslab array stored) (region array [] axes) buffer after := by
  obtain ⟨axis, rest, hspl⟩ := exists_cons_of_ne_nil (axes_ne_nil hof)
  have hrnk : array.dims.length = rest.length + 1 := by
    rw [← hof.dims, hspl]
    simp
  have horg : chunk.positionInArray.length = rest.length + 1 := by
    rw [← hof.origins, hspl]
    simp
  obtain ⟨s, hins, -, hfil⟩ := insertChunk_fills (hhol.provides hof) hnee.kept rest axis [] []
    ⟨chunk.positionInArray, replicate array.dims.length 0, buffer⟩ hspl .nil
    ⟨⟨_, rfl, horg⟩, ⟨_, rfl, by simp [hrnk]⟩, hbuf⟩
  rw [length_nil, ← lastDim_eq hof hspl] at hins
  refine ⟨s.targetBuffer, ?_, hfil.congr (by rw [hspl])⟩
  simp only [insertReadChunk, hins, Option.bind_eq_bind, Option.bind_some]

theorem Complete.rank_eq (hcom : Complete array stored chunks) :
    ∀ chunk ∈ chunks, chunk.positionInArray.length = array.dims.length := by
  intro chunk hmem
  exact ((hcom.origins _).mp (mem_map_of_mem hmem)).length_eq

theorem needed_regions_eq (hcom : Complete array stored chunks) :
    ⋃ chunk ∈ chunks.filter (fun chunk => Needed (axesAt array chunk.positionInArray)),
      region array [] (axesAt array chunk.positionInArray) =
        { i | i < array.constrainedShape.prod * array.elemWidth } := by
  ext i
  simp only [Set.mem_iUnion, Set.mem_ofPred_eq, mem_filter, decide_eq_true_eq, exists_prop]
  constructor
  · rintro ⟨chunk, ⟨hmem, -⟩, k, hcvr, b, hb, rfl⟩
    have hof := axesOf_axesAt (hcom.rank_eq chunk hmem)
    have hk := inBounds_of_covers hcvr
    rw [← hof.constrainedShape_eq] at hk
    exact rowMajor_byte_lt hk hb
  · intro hi
    have hwid : 0 < array.elemWidth := Nat.pos_of_ne_zero (by
      intro hzer
      simp [hzer] at hi)
    have hpst : i / array.elemWidth < array.constrainedShape.prod :=
      (Nat.div_lt_iff_lt_mul hwid).mpr hi
    obtain ⟨chunk, hmem, hcvr⟩ := exists_covering_chunk hcom (inBounds_unflatten hpst)
    have hof := axesOf_axesAt (hcom.rank_eq chunk hmem)
    refine ⟨chunk, ⟨hmem, needed_of_covers (fun _ h => hof.size_pos h) hcvr⟩, _, hcvr,
      i % array.elemWidth, Nat.mod_lt _ hwid, ?_⟩
    rw [nil_append, rowMajor_unflatten hpst, mul_comm]
    exact (Nat.div_add_mod i array.elemWidth).symm

theorem zero_inBounds (dims : List Dimension) :
    InBounds (dims.map Dimension.constrainedSize) (dims.map fun _ => 0) := by
  induction dims with
  | nil => exact .nil
  | cons dim dims ih => exact .cons (Nat.succ_pos _) ih

theorem readNeededChunks_fills (hcom : Complete array stored chunks)
    (hbuf : buffer.length = array.constrainedShape.prod * array.elemWidth) :
    ∃ after, readNeededChunks array chunks buffer = some after ∧ Fills (hyperslab array stored)
        { i | i < array.constrainedShape.prod * array.elemWidth } buffer after := by
  have hnee := neededChunks_eq hcom.rank_eq
  have hsom : chunks.filter (fun chunk => Needed (axesAt array chunk.positionInArray)) ≠ [] := by
    obtain ⟨chunk, hmem, hcvr⟩ := exists_covering_chunk hcom (zero_inBounds array.dims)
    have hof := axesOf_axesAt (hcom.rank_eq chunk hmem)
    apply ne_nil_of_mem (a := chunk)
    rw [mem_filter, decide_eq_true_eq]
    exact ⟨hmem, needed_of_covers (fun _ h => hof.size_pos h) hcvr⟩
  rw [← needed_regions_eq hcom]
  simp only [readNeededChunks, hnee, Option.bind_eq_bind, Option.bind_some, if_neg hsom]
  apply foldlM_buffer_fills _ hbuf
  intro chunk hmem buffer hlen
  rw [mem_filter, decide_eq_true_eq] at hmem
  exact insertReadChunk_fills (axesOf_axesAt (hcom.rank_eq chunk hmem.1))
    (hcom.holds chunk hmem.1) hmem.2 hlen

/-- Running `find_needed_chunks` on every chunk of a complete list and
`insert_chunk` on those it keeps leaves the hyperslab in the buffer. -/
theorem readNeededChunks_hyperslab (array : DmrppArray) (stored : List Nat → Nat → Byte)
    (chunks : List Chunk) (hcomplete : Complete array stored chunks) (buffer : List Byte)
    (hbuffer : buffer.length = array.constrainedShape.prod * array.elemWidth) :
    ∃ result, readNeededChunks array chunks buffer = some result ∧ result.length = buffer.length ∧
      ∀ k, InBounds array.constrainedShape k → ∀ b < array.elemWidth,
        result[rowMajor array.constrainedShape k * array.elemWidth + b]? =
          some (stored (selectIndex array k) b) := by
  obtain ⟨result, hread, hfil⟩ := readNeededChunks_fills hcomplete hbuffer
  refine ⟨result, hread, hfil.length_eq, ?_⟩
  intro k hk b hb
  rw [hfil.inside _ (rowMajor_byte_lt hk hb), hyperslab_apply hk hb]

def gridRows : Dimension := ⟨2, 0, 1, 1, by decide, by decide, Nat.one_pos⟩

def gridColumns : Dimension := ⟨3, 0, 2, 2, by decide, by decide, Nat.two_pos⟩

theorem gridChunk_pos : ∀ size ∈ [2, 2], 0 < size := by
  simp

def gridArray : DmrppArray where
  dims := [gridRows, gridColumns]
  chunkDimensionSizes := [2, 2]
  elemWidth := 1
  rank_pos := by simp
  rank_eq := rfl
  chunk_pos := gridChunk_pos
  width_pos := Nat.one_pos

def gridStored (index : List Nat) (_ : Nat) : Byte :=
  UInt8.ofNat (3 * index.getD 0 0 + index.getD 1 0)

def gridChunks : List Chunk :=
  [{ positionInArray := [0, 2], readBuffer := [2, 77, 5, 77] },
    { positionInArray := [0, 0], readBuffer := [0, 1, 3, 4] }]

theorem gridChunks_complete : Complete gridArray gridStored gridChunks := by
  refine ⟨by decide, ?_, ?_⟩
  · intro origin
    constructor
    · intro hmem
      obtain rfl | rfl : origin = [0, 2] ∨ origin = [0, 0] := by simpa [gridChunks] using hmem
      · exact .cons (by decide) (.cons (by decide) .nil)
      · exact .cons (by decide) (.cons (by decide) .nil)
    · intro horg
      cases horg with
      | @cons _ row _ _ hrow hrst =>
        cases hrst with
        | @cons _ column _ _ hcol hnil =>
          cases hnil
          obtain ⟨⟨i, rfl⟩, hi⟩ := hrow
          obtain ⟨⟨j, rfl⟩, hj⟩ := hcol
          simp only [gridRows, gridColumns] at hi hj
          obtain rfl : i = 0 := by omega
          obtain rfl | rfl : j = 0 ∨ j = 1 := by omega
          · decide
          · decide
  · intro chunk hmem
    obtain rfl | rfl : chunk = { positionInArray := [0, 2], readBuffer := [2, 77, 5, 77] } ∨
        chunk = { positionInArray := [0, 0], readBuffer := [0, 1, 3, 4] } := by
      simpa [gridChunks] using hmem
    · exact ⟨le_rfl, forall_inBounds (by decide)⟩
    · exact ⟨le_rfl, forall_inBounds (by decide)⟩

theorem readNeededChunks_hyperslab_grid : Complete gridArray gridStored gridChunks ∧
      ∃ result, readNeededChunks gridArray gridChunks [9, 9, 9, 9] = some result ∧ result.length = 4 ∧
        ∀ k, InBounds gridArray.constrainedShape k → ∀ b < gridArray.elemWidth,
          result[rowMajor gridArray.constrainedShape k * gridArray.elemWidth + b]? =
            some (gridStored (selectIndex gridArray k) b) :=
  ⟨gridChunks_complete, readNeededChunks_hyperslab gridArray gridStored gridChunks
    gridChunks_complete [9, 9, 9, 9] rfl⟩

example : readNeededChunks gridArray gridChunks [9, 9, 9, 9] = some [0, 2, 3, 5] := by decide

end Bes.Dmrpp.Hyperslab
