import Bes.Dmrpp.ContiguousRead

/-! When the contiguous read of a single chunk agrees with the chunked read. Both
leave a hyperslab of the filtered bytes: one reads them by the array's shape, the
other by the chunk's. -/
namespace Bes.Dmrpp.SingleChunk
open Lib.Buffer Lib.Loop Lib.RowMajor List
open Dmrpp.Array Dmrpp.ConstrainedRead Dmrpp.Hyperslab
open Dmrpp.UnconstrainedRead Dmrpp.Filter Dmrpp.ContiguousRead

def childRegion (theOneChunk child : Chunk) : Set Nat :=
  { i | child.offset - theOneChunk.offset ≤ i ∧ i < child.offset - theOneChunk.offset + child.size }

variable {buffer : List Byte}

theorem childSizes_add (size : Nat) (hnum : 0 < numChunks) :
    (numChunks - 1) * (size / numChunks) + (size / numChunks + size % numChunks) = size := by
  have hdec := Nat.div_add_mod size numChunks
  rw [← add_assoc, ← Nat.succ_mul, Nat.succ_eq_add_one, Nat.sub_add_cancel hnum]
  exact hdec

theorem mem_childChunks (hnum : 0 < numChunks) (hmem : child ∈ childChunks theOneChunk url numChunks) :
    child.dataUrl = some url ∧ child.usesFillValue = false ∧ theOneChunk.offset ≤ child.offset ∧
      child.offset - theOneChunk.offset + child.size ≤ theOneChunk.size := by
  have hsiz := childSizes_add theOneChunk.size hnum
  simp only [childChunks, mem_append, mem_map, mem_range, mem_singleton] at hmem
  cases hmem with
  | inl hchi =>
    obtain ⟨i, hi, rfl⟩ := hchi
    have hle : (i + 1) * (theOneChunk.size / numChunks) ≤
        (numChunks - 1) * (theOneChunk.size / numChunks) := Nat.mul_le_mul_right _ hi
    rw [Nat.succ_mul] at hle
    refine ⟨rfl, rfl, Nat.le_add_right _ _, ?_⟩
    simp only [Nat.add_sub_cancel_left]
    generalize theOneChunk.size / numChunks = chunkSize at *
    omega
  | inr hlast =>
    subst hlast
    refine ⟨rfl, rfl, Nat.le_add_right _ _, ?_⟩
    simp only [Nat.add_sub_cancel_left]
    omega

theorem childRegions_eq (theOneChunk : Chunk) (url : String) (hnum : 0 < numChunks) :
    ⋃ child ∈ childChunks theOneChunk url numChunks, childRegion theOneChunk child =
      { i | i < theOneChunk.size } := by
  ext i
  simp only [Set.mem_iUnion, exists_prop, Set.mem_ofPred_eq]
  constructor
  · rintro ⟨child, hmem, hi⟩
    have hle := (mem_childChunks hnum hmem).2.2.2
    exact lt_of_lt_of_le hi.2 hle
  · intro hi
    have hsiz := childSizes_add theOneChunk.size hnum
    by_cases hbef : i < (numChunks - 1) * (theOneChunk.size / numChunks)
    · have hpos : 0 < theOneChunk.size / numChunks := Nat.pos_of_ne_zero (by
        intro hzer
        simp [hzer] at hbef)
      have hidx := (Nat.div_lt_iff_lt_mul hpos).mpr hbef
      have hpst := Nat.div_add_mod i (theOneChunk.size / numChunks)
      have hrst := Nat.mod_lt i hpos
      refine ⟨_, mem_append_left _ (mem_map_of_mem (mem_range.mpr hidx)), ?_⟩
      rw [mul_comm] at hpst
      simp only [childRegion, Set.mem_ofPred_eq, Nat.add_sub_cancel_left]
      omega
    · refine ⟨_, mem_append_right _ (mem_singleton.mpr rfl), ?_⟩
      simp only [childRegion, Set.mem_ofPred_eq, Nat.add_sub_cancel_left]
      omega

theorem childTransfers_eq (web : String → Nat → Byte) (theOneChunk : Chunk) (url : String) (hnum : 0 < numChunks) {finished : List Chunk}
    (hprm : finished.Perm (childChunks theOneChunk url numChunks))
    (hbuf : buffer.length = theOneChunk.size) : finished.foldlM (readChildChunk web theOneChunk) buffer =
      some (rangeBytes (web url) theOneChunk.offset theOneChunk.size) := by
  obtain ⟨after, hrun, hfil⟩ := @foldlM_buffer_fills _ _
    (fun i => some (web url (theOneChunk.offset + i))) _ (readChildChunk web theOneChunk)
    (childRegion theOneChunk) finished (by
      intro child hmem buffer hlen
      obtain ⟨hurl, hfll, hoff, hle⟩ := mem_childChunks hnum (hprm.mem_iff.mp hmem)
      simp only [readChildChunk, readChunk, hfll, hurl, Bool.false_eq_true, ↓reduceIte,
        Option.bind_eq_bind, Option.bind_some, length_rangeBytes]
      apply memcpy_fills
      · omega
      · simp
      · intro j hj
        rw [zero_add, getElem?_rangeBytes _ hj]
        congr 2
        omega)
    _ hbuf
  have hreg : ⋃ child ∈ finished, childRegion theOneChunk child = { i | i < theOneChunk.size } := by
    rw [← childRegions_eq theOneChunk url hnum]
    simp only [hprm.mem_iff]
  rw [hreg] at hfil
  rw [hrun, Option.some.injEq]
  apply ext_getElem?
  intro i
  by_cases hi : i < theOneChunk.size
  · rw [getElem?_rangeBytes _ hi]
    exact hfil.inside i hi
  · have hlen : after.length = theOneChunk.size := hfil.length_eq.trans hbuf
    rw [getElem?_eq_none (by omega), getElem?_eq_none (by simp; omega)]

def Serial (config : TransferConfig) (size : Nat) : Prop :=
  config.useTransferThreads = false ∨ size ≤ config.contiguousConcurrentThreshold

instance (config : TransferConfig) (size : Nat) : Decidable (Serial config size) :=
  inferInstanceAs (Decidable (_ ∨ _))

theorem numChildChunks_pos (config : TransferConfig) (size : Nat) :
    0 < numChildChunks config size ↔ megabyte ≤ size := by
  have hthr := config.threads_pos
  have hdiv : 0 < size / megabyte ↔ megabyte ≤ size := Nat.div_pos_iff.trans (by
    simp [megabyte])
  unfold numChildChunks
  split
  next hmny =>
    omega
  · exact hdiv

/-- Bytes taken as the elements of an array of `shape` in row-major order. -/
def view (shape : List Nat) (width : Nat) (data : List Byte) (index : List Nat) (b : Nat) :
    Byte :=
  data.getD (rowMajor shape index * width + b) 0

variable {array : DmrppArray} {data : List Byte}

def Present (array : DmrppArray) (data : List Byte) : Prop :=
  ∀ k, InBounds array.constrainedShape k →
    (rowMajor array.shape (selectIndex array k) + 1) * array.elemWidth ≤ data.length

theorem getElem?_of_present (hprs : Present array data) {k : List Nat}
    (hk : InBounds array.constrainedShape k) {b : Nat} (hb : b < array.elemWidth) :
    data[rowMajor array.shape (selectIndex array k) * array.elemWidth + b]? =
      some (view array.shape array.elemWidth data (selectIndex array k) b) := by
  have hle := hprs k hk
  rw [add_mul] at hle
  unfold view
  rw [getD_eq_getElem?_getD, getElem?_eq_getElem (by omega), Option.getD_some]

/-- The state before the copy of the element at `k`. -/
structure AtElement (array : DmrppArray) (position : Nat) (s : CopyState) : Prop where
  target : s.targetIndex = position
  buffer : s.buffer.length = array.constrainedShape.prod * array.elemWidth

/-- The next `count` selected elements, copied from `start` on. -/
def Copied (array : DmrppArray) (data : List Byte) (start count : Nat) (s s' : CopyState) : Prop :=
  AtElement array (start + count) s' ∧
    Fills (hyperslab array (view array.shape array.elemWidth data))
      (elementRun array.elemWidth start count) s.buffer s'.buffer

theorem copyElement_fills (hprs : Present array data) {k : List Nat}
    (hk : InBounds array.constrainedShape k) {s : CopyState}
    (hs : AtElement array (rowMajor array.constrainedShape k) s) :
    ∃ s', copyElement array.elemWidth data s (rowMajor array.shape (selectIndex array k)) =
      some s' ∧ Copied array data (rowMajor array.constrainedShape k) 1 s s' := by
  have hlt := rowMajor_lt hk
  obtain ⟨after, hcpy, hfil⟩ := memcpy_elements
    (hyperslab array (view array.shape array.elemWidth data)) s.buffer data
    (rowMajor array.constrainedShape k) (rowMajor array.shape (selectIndex array k)) 1
    array.elemWidth
    (by
      rw [hs.buffer]
      exact Nat.mul_le_mul_right _ hlt)
    (hprs k hk)
    (by
      intro e he b hb
      obtain rfl : e = 0 := by omega
      rw [add_zero, add_zero, hyperslab_apply hk hb]
      exact getElem?_of_present hprs hk hb)
  rw [Nat.cast_one, Int.one_mul] at hcpy
  refine ⟨⟨s.targetIndex + 1, after⟩, ?_, ⟨by rw [hs.target], ?_⟩, hfil⟩
  · simp only [copyElement, hs.target, hcpy, Option.bind_eq_bind, Option.bind_some]
  · rw [← hs.buffer]
    exact hfil.length_eq

theorem foldlM_copied {ι : Type} {body : CopyState → ι → Option CopyState} {indices : List ι} {s : CopyState}
    (hbdy : ∀ n i, indices[n]? = some i → ∀ t, AtElement array (start + n * block) t →
      ∃ t', body t i = some t' ∧ Copied array data (start + n * block) block t t')
    (hs : AtElement array start s) : ∃ s', indices.foldlM body s = some s' ∧
      Copied array data start (indices.length * block) s s' := by
  obtain ⟨s', hrun, haft, hfil⟩ := foldlM_fills_counted
    (hyperslab array (view array.shape array.elemWidth data)) CopyState.buffer body indices
    (fun n => AtElement array (start + n * block))
    (fun n => elementRun array.elemWidth (start + n * block) block)
    (by
      intro n i hi t ht
      rw [Nat.succ_mul, ← add_assoc]
      exact hbdy n i hi t ht)
    s (by rwa [zero_mul])
  rw [elementRun_blocks] at hfil
  exact ⟨s', hrun, haft, hfil⟩

theorem inBounds_select {k : List Nat} (hk : InBounds (dims.map Dimension.constrainedSize) k) :
    InBounds (dims.map Dimension.size) (zipWith Dimension.select dims k) := by
  have hdms : Forall₂ (fun dim i => i < dim.constrainedSize) dims k :=
    forall₂_map_left_iff.mp hk
  clear hk
  induction hdms with
  | nil => exact .nil
  | @cons dim i _ _ hi _ ih =>
    have hle := Dimension.lt_constrainedSize.mp hi
    exact .cons (lt_of_le_of_lt hle dim.stop_lt_size) ih

theorem inBounds_concat {k : List Nat}
    (hk : InBounds (first.map Dimension.constrainedSize) k) (hn : n < dim.constrainedSize) :
    InBounds ((first ++ [dim]).map Dimension.constrainedSize) (k ++ [n]) := by
  rw [map_append]
  exact rel_append hk (.cons hn .nil)

theorem select_concat {k : List Nat}
    (hk : InBounds (first.map Dimension.constrainedSize) k) (dim : Dimension) (n : Nat) :
    zipWith Dimension.select (first ++ [dim]) (k ++ [n]) =
      zipWith Dimension.select first k ++ [dim.select n] := by
  have hlen : first.length = k.length := by
    simpa using hk.length_eq
  rw [zipWith_append hlen]
  rfl

theorem length_strided_dim (dim : Dimension) :
    (strided dim.start dim.stop dim.stride).length = dim.constrainedSize :=
  length_strided dim.start_le_stop dim.stride

theorem getElem?_strided_dim {dim : Dimension} {i : Nat}
    (hn : (strided dim.start dim.stop dim.stride)[n]? = some i) :
    i = dim.select n ∧ n < dim.constrainedSize := by
  obtain ⟨hi, hle⟩ := getElem?_strided hn
  exact ⟨hi, Nat.lt_succ_of_le hle⟩

structure LastDim (array : DmrppArray) (first : List Dimension) (dim : Dimension)
    (k : List Nat) : Prop where
  dims : array.dims = first ++ [dim]
  outer : InBounds (first.map Dimension.constrainedSize) k

namespace LastDim

variable {first : List Dimension} (hlast : LastDim array first dim k)

include hlast

theorem shape_eq : array.shape = first.map Dimension.size ++ [dim.size] := by
  rw [DmrppArray.shape, hlast.dims, map_append]
  rfl

theorem constrainedShape_eq : array.constrainedShape =
      first.map Dimension.constrainedSize ++ [dim.constrainedSize] := by
  rw [DmrppArray.constrainedShape, hlast.dims, map_append]
  rfl

theorem inBounds (hn : n < dim.constrainedSize) : InBounds array.constrainedShape (k ++ [n]) := by
  rw [DmrppArray.constrainedShape, hlast.dims]
  exact inBounds_concat hlast.outer hn

theorem selectIndex_eq (n : Nat) : selectIndex array (k ++ [n]) =
      zipWith Dimension.select first k ++ [dim.select n] := by
  rw [selectIndex, hlast.dims]
  exact select_concat hlast.outer dim n

theorem getIndex_eq (i : Nat) : getIndex (zipWith Dimension.select first k ++ [i]) array.shape =
      some (rowMajor array.shape (zipWith Dimension.select first k ++ [i])) := by
  rw [hlast.shape_eq]
  exact Array.getIndex_eq (inBounds_select hlast.outer) dim.size i

theorem shift (i j : Nat) : rowMajor array.shape (zipWith Dimension.select first k ++ [i]) + j =
      rowMajor array.shape (zipWith Dimension.select first k ++ [i + j]) := by
  rw [hlast.shape_eq]
  exact rowMajor_run_eq (inBounds_select hlast.outer).length_eq.symm dim.size i j

theorem target_eq (n : Nat) : rowMajor array.constrainedShape (k ++ [n]) =
      rowMajor (first.map Dimension.constrainedSize) k * dim.constrainedSize + n := by
  rw [hlast.constrainedShape_eq, rowMajor_append hlast.outer.length_eq.symm,
    rowMajor_singleton, prod_singleton]

theorem copies_fill (hprs : Present array data)
    {ι : Type} (body : CopyState → ι → Option CopyState) (indices : List ι)
    (hcnt : indices.length = dim.constrainedSize) (hbdy : ∀ n i, indices[n]? = some i → ∀ s, body s i =
      copyElement array.elemWidth data s (rowMajor array.shape (selectIndex array (k ++ [n]))))
    {s : CopyState} (hs : AtElement array
      (rowMajor (first.map Dimension.constrainedSize) k * dim.constrainedSize) s) :
    ∃ s', indices.foldlM body s = some s' ∧ Copied array data
      (rowMajor (first.map Dimension.constrainedSize) k * dim.constrainedSize) dim.constrainedSize
      s s' := by
  rw [← hcnt, ← mul_one indices.length]
  apply foldlM_copied _ (by rwa [hcnt, mul_one])
  intro n i hi t ht
  have hn : n < dim.constrainedSize := by
    rw [← hcnt]
    exact (List.getElem?_eq_some_iff.mp hi).1
  rw [mul_one, mul_one, hcnt, ← hlast.target_eq] at ht ⊢
  rw [hbdy n i hi]
  exact copyElement_fills hprs (hlast.inBounds hn) ht

theorem insert_fills (hprs : Present array data) {s : CopyState} (hs : AtElement array
      (rowMajor (first.map Dimension.constrainedSize) k * dim.constrainedSize) s) :
    ∃ s', insertConstrainedContiguous array.elemWidth array.shape data [dim]
        (zipWith Dimension.select first k) s = some s' ∧
      Copied array data (rowMajor (first.map Dimension.constrainedSize) k * dim.constrainedSize)
        dim.constrainedSize s s' := by
  by_cases hstr : dim.stride = 1
  · have hstp : rowMajor array.shape (zipWith Dimension.select first k ++ [dim.stop]) =
        rowMajor array.shape (zipWith Dimension.select first k ++ [dim.start]) +
          (dim.stop - dim.start) := by
      rw [hlast.shift, Nat.add_sub_cancel' dim.start_le_stop]
    simp only [insertConstrainedContiguous, hstr, ↓reduceIte, hlast.getIndex_eq,
      Option.bind_eq_bind, Option.bind_some]
    apply hlast.copies_fill hprs _ _ _ _ hs
    · rw [length_strided (by omega), hstp, Nat.add_sub_cancel_left, Dimension.constrainedSize, hstr]
    · intro n i hi s
      obtain ⟨hidx, -⟩ := getElem?_strided hi
      rw [hidx, hlast.selectIndex_eq, Dimension.select, hstr, hlast.shift]
  · simp only [insertConstrainedContiguous, hstr, ↓reduceIte]
    apply hlast.copies_fill hprs _ _ (length_strided_dim dim) _ hs
    intro n i hi s
    obtain ⟨hidx, -⟩ := getElem?_strided_dim hi
    rw [hidx, hlast.getIndex_eq, hlast.selectIndex_eq]
    rfl

end LastDim

/-- The recursion copies the selected elements one after the other, in
row-major order. The induction is on the dimensions after `dim`. -/
theorem insertConstrainedContiguous_fills (hprs : Present array data) (rest : List Dimension) :
    ∀ (dim : Dimension) (first : List Dimension) (k : List Nat) (s : CopyState),
      array.dims = first ++ dim :: rest → InBounds (first.map Dimension.constrainedSize) k →
      AtElement array (rowMajor (first.map Dimension.constrainedSize) k *
        ((dim :: rest).map Dimension.constrainedSize).prod) s →
      ∃ s', insertConstrainedContiguous array.elemWidth array.shape data (dim :: rest)
          (zipWith Dimension.select first k) s = some s' ∧
        Copied array data (rowMajor (first.map Dimension.constrainedSize) k *
            ((dim :: rest).map Dimension.constrainedSize).prod)
          ((dim :: rest).map Dimension.constrainedSize).prod s s' := by
  induction rest with
  | nil =>
    intro dim first k s hdms hk hs
    rw [map_singleton, prod_singleton] at hs ⊢
    exact LastDim.insert_fills ⟨hdms, hk⟩ hprs hs
  | cons next rest ih =>
    intro dim first k s hdms hk hs
    rw [map_cons, prod_cons, ← length_strided_dim] at hs ⊢
    apply foldlM_copied _ hs
    intro n i hi t ht
    obtain ⟨rfl, hn⟩ := getElem?_strided_dim hi
    have hpst : rowMajor (first.map Dimension.constrainedSize) k *
            ((strided dim.start dim.stop dim.stride).length *
              ((next :: rest).map Dimension.constrainedSize).prod) +
          n * ((next :: rest).map Dimension.constrainedSize).prod =
        rowMajor ((first ++ [dim]).map Dimension.constrainedSize) (k ++ [n]) *
          ((next :: rest).map Dimension.constrainedSize).prod := by
      rw [map_append, rowMajor_append hk.length_eq.symm, map_singleton,
        rowMajor_singleton, prod_singleton, length_strided_dim]
      ring
    rw [hpst] at ht ⊢
    rw [← select_concat hk]
    apply ih next (first ++ [dim]) (k ++ [n]) t _ (inBounds_concat hk hn) ht
    rw [hdms, append_assoc]
    rfl

def wholeBuffer (array : DmrppArray) : Set Nat :=
  { i | i < array.constrainedShape.prod * array.elemWidth }

theorem insertConstrainedContiguous_whole (hprs : Present array data)
    (hbuf : buffer.length = array.constrainedShape.prod * array.elemWidth) :
    ∃ s', insertConstrainedContiguous array.elemWidth array.shape data array.dims [] ⟨0, buffer⟩ =
        some s' ∧ Fills (hyperslab array (view array.shape array.elemWidth data)) (wholeBuffer array)
        buffer s'.buffer := by
  obtain ⟨dim, rest, hdms⟩ := exists_cons_of_ne_nil array.rank_pos
  obtain ⟨s', hins, -, hfil⟩ := insertConstrainedContiguous_fills hprs rest dim [] []
    ⟨0, buffer⟩ hdms .nil ⟨by simp, hbuf⟩
  rw [map_nil, rowMajor_nil, zero_mul, ← hdms] at hfil
  rw [← hdms] at hins
  refine ⟨s', hins, hfil.congr ?_⟩
  ext i
  exact mem_elementRun_zero _ _ i

/-! The chunked path on the same chunk. -/

/-! When the two shapes put every selected element at the same place. -/

variable {config : TransferConfig} {filters : List FilterName} {chunk : Chunk}

def fillBytes (array : DmrppArray) (value : List Byte) : List Byte :=
  (replicate array.chunkDimensionSizes.prod value).flatten

theorem length_fillBytes (array : DmrppArray) (value : List Byte) :
    (fillBytes array value).length = array.chunkDimensionSizes.prod * value.length := by
  simp [fillBytes]

theorem getElem?_flatten_replicate (value : List Byte) (count : Nat) {i b : Nat}
    (hi : i < count) (hb : b < value.length) :
    (replicate count value).flatten[i * value.length + b]? = value[b]? := by
  induction count generalizing i with
  | zero => omega
  | succ count ih =>
    rw [replicate_succ, flatten_cons]
    cases i with
    | zero =>
      rw [zero_mul, zero_add, getElem?_append_left hb]
    | succ i =>
      rw [getElem?_append_right (by rw [Nat.succ_mul]; omega), Nat.succ_mul, ← ih (i := i) (by omega)]
      congr 1
      omega

end Bes.Dmrpp.SingleChunk
