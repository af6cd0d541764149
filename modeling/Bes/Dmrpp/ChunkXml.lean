import Bes.Dmrpp.ChunkMetadata

/-! The reader of the `dmrpp:chunks` element, `DMZ::process_chunks`, and what is
left of a variable's chunk metadata when it is written and read again. -/
namespace Bes.Dmrpp.ChunkXml
open Lib Dmrpp.ChunkMetadata List

/-- What a reader knows besides the element: `datasetElemHref` is the location in
the document's `Dataset` element, the others are the process's settings. -/
structure Dmz where
  datasetElemHref : DataUrl
  emulateOriginalFilterOrder : Bool := false
  hostBigEndian : Bool := false
  requireChunks : Bool := false
deriving DecidableEq

/-- The local variables of `process_chunk`. -/
structure ChunkAttributes where
  href : Text := []
  hrefTrusted : Bool := false
  offset : Text := []
  size : Text := []
  chunkPositionInArray : Text := []

def ChunkAttributes.ingest (fields : ChunkAttributes) (attr : String × Text) : ChunkAttributes :=
  if attr.1 = "href" then { fields with href := attr.2 }
  else if attr.1 = "trust" ∨ attr.1 = "dmrpp:trust" then
    { fields with hrefTrusted := attr.2 = "true".toList }
  else if attr.1 = "offset" then { fields with offset := attr.2 }
  else if attr.1 = "nBytes" then { fields with size := attr.2 }
  else if attr.1 = "chunkPositionInArray" then { fields with chunkPositionInArray := attr.2 }
  else fields

def processChunk (dmz : Dmz) (dc : DmrppCommon) (chunk : XmlElement) : Except Exn DmrppCommon := do
  let fields := chunk.attributes.foldl ChunkAttributes.ingest {}
  if fields.offset = [] ∨ fields.size = [] then
    throw (.internalError "Both size and offset are required for a chunk node.")
  let dataUrl : DataUrl :=
    if fields.href ≠ [] then ⟨fields.href, fields.hrefTrusted⟩ else dmz.datasetElemHref
  let size ← stoull fields.size
  let offset ← stoull fields.offset
  let positionInArray ← parseChunkPositionInArrayString fields.chunkPositionInArray
  pure (addChunk dc (some dataUrl) dc.byteOrder size offset positionInArray)

/-- `process_cds_node`. Each further element replaces the sizes of the one before. -/
def processCdsNode (dc : DmrppCommon) (chunks : ChunksElement) : Except Exn DmrppCommon :=
  (chunks.children.filter fun child => child.name = "dmrpp:chunkDimensionSizes").foldlM
    (fun dc child => parseChunkDimensionSizes dc child.value) dc

/-- One attribute of the element. `elemType` is the element type of an array, and
nothing for any other variable. -/
def ingestAttribute (dmz : Dmz) (elemType : Option DapType) (dc : DmrppCommon)
    (attr : String × Text) : Except Exn DmrppCommon :=
  if attr.1 = "compressionType" then
    .ok (setFilter dmz.emulateOriginalFilterOrder dc attr.2)
  else if attr.1 = "fillValue" then
    match elemType with
    | none => .error (.internalError "Fill Value chunks are only supported for Arrays.")
    | some fvType =>
        .ok { dc with fillValueStr := attr.2, fillValueType := fvType, usesFillValue := true }
  else if attr.1 = "byteOrder" then ingestByteOrder dmz.hostBigEndian dc attr.2
  else .ok dc

def processChunks (dmz : Dmz) (elemType : Option DapType) (dc : DmrppCommon)
    (chunks : ChunksElement) : Except Exn DmrppCommon := do
  let dc ← chunks.attributes.foldlM (ingestAttribute dmz elemType) dc
  let dc ← processCdsNode dc chunks
  (chunks.children.filter fun child => child.name = "dmrpp:chunk").foldlM (processChunk dmz) dc

/-! Each printed text is read as the low halves of the numbers it prints. -/

private theorem splitOn_map_narrowed (hsep : separator.isDigit = false) (hne : values ≠ []) :
    (Decimal.joined separator (values.map narrowed)).splitOn separator =
      values.map fun value => Decimal.digits (narrowed value) := by
  rw [Decimal.splitOn_joined hsep (by simpa using hne), map_map]
  rfl

theorem splitByComma_joined (hne : pia ≠ []) :
    splitByComma (Decimal.joined ',' (pia.map narrowed)) = .ok (pia.map lowHalf) := by
  unfold splitByComma
  rw [splitOn_map_narrowed (by decide) hne]
  clear hne
  induction pia with
  | nil => rfl
  | cons value rest ih =>
    rw [map_cons, mapM_cons, ih, stoull_digits_narrowed]
    rfl

theorem parseChunkPositionInArrayString_printPosition (hne : pia ≠ []) :
    parseChunkPositionInArrayString (printPosition pia) = .ok (pia.map lowHalf) := by
  have hjoi : Decimal.joined ',' (pia.map narrowed) ≠ [] :=
    Decimal.joined_ne_nil (by simpa using hne)
  have hpos : 0 < (Decimal.joined ',' (pia.map narrowed)).length := length_pos_iff.mpr hjoi
  have hleg : ((printPosition pia).any
      fun c => !(c = '[' || c = ']' || c.isDigit || c = ',')) = false := by
    rw [any_eq_false]
    intro c hc
    simp only [printPosition, cons_append, mem_cons, mem_append, not_mem_nil, or_false] at hc
    rcases hc with rfl | hc | rfl
    · decide
    · rcases Decimal.mem_joined hc with rfl | hdig
      · decide
      · simp [hdig]
    · decide
  have hinn : ((printPosition pia).drop 1).take ((printPosition pia).length - 2) =
      Decimal.joined ',' (pia.map narrowed) := by
    simp [printPosition]
  unfold parseChunkPositionInArrayString
  rw [if_neg (by simp [printPosition]), if_neg (by simp [printPosition]; omega), hleg, hinn,
    splitByComma_joined hne]
  rfl

theorem parseChunkDimensionSizes_joined (dc : DmrppCommon) (hne : sizes ≠ []) :
    parseChunkDimensionSizes dc (Decimal.joined ' ' (sizes.map narrowed)) =
      .ok { dc with chunkDimensionSizes := sizes.map lowHalf } := by
  have hleg : ((Decimal.joined ' ' (sizes.map narrowed)).any
      fun c => !(c.isDigit || c = ' ')) = false := by
    rw [any_eq_false]
    intro c hc
    rcases Decimal.mem_joined hc with rfl | hdig
    · decide
    · simp [hdig]
  unfold parseChunkDimensionSizes
  rw [if_neg (Decimal.joined_ne_nil (by simpa using hne)), hleg,
    splitOn_map_narrowed (by decide) hne, map_map]
  simp only [Bool.false_eq_true, if_false, Except.ok.injEq, DmrppCommon.mk.injEq, true_and, and_true]
  apply map_congr_left
  intro value _
  exact strtol_digits_narrowed value

def rereadChunk (dmz : Dmz) (byteOrder : Text) (chunk : ChunkRef) : ChunkRef where
  dataUrl := some dmz.datasetElemHref
  byteOrder := byteOrder
  size := chunk.size
  offset := chunk.offset
  positionInArray := chunk.positionInArray.map lowHalf

theorem processChunk_printChunk (dmz : Dmz) (dc : DmrppCommon) (chunk : ChunkRef) :
    processChunk dmz dc (printChunk chunk) =
      .ok { dc with chunks := dc.chunks ++ [rereadChunk dmz dc.byteOrder chunk] } := by
  have hoff : streamed chunk.offset ≠ [] := Decimal.digits_ne_nil _
  have hsiz : streamed chunk.size ≠ [] := Decimal.digits_ne_nil _
  by_cases hpst : chunk.positionInArray = []
  · simp [processChunk, printChunk, hpst, ChunkAttributes.ingest, hoff, hsiz,
      parseChunkPositionInArrayString, addChunk, rereadChunk]
    rfl
  · simp [processChunk, printChunk, hpst, ChunkAttributes.ingest, hoff, hsiz,
      parseChunkPositionInArrayString_printPosition hpst, addChunk, rereadChunk]
    rfl

theorem foldlM_processChunk_print (dmz : Dmz) (dc : DmrppCommon) (chunks : List ChunkRef) :
    (chunks.map printChunk).foldlM (processChunk dmz) dc =
      .ok { dc with chunks := dc.chunks ++ chunks.map (rereadChunk dmz dc.byteOrder) } := by
  induction chunks generalizing dc with
  | nil => simp [pure, Except.pure]
  | cons chunk rest ih =>
    rw [map_cons, foldlM_cons, processChunk_printChunk]
    simp only [bind, Except.bind]
    rw [ih]
    simp

theorem processCdsNode_print (dc written : DmrppCommon) (hfre : dc.chunkDimensionSizes = []) :
    processCdsNode dc (printChunksElement written) =
      .ok { dc with chunkDimensionSizes := written.chunkDimensionSizes.map lowHalf } := by
  have hchu : (written.chunks.map printChunk).filter
      (fun child => child.name = "dmrpp:chunkDimensionSizes") = [] := by
    rw [filter_eq_nil_iff]
    intro child hmem
    obtain ⟨chunk, _, rfl⟩ := mem_map.mp hmem
    simp [printChunk]
  unfold processCdsNode printChunksElement
  simp only [filter_append, hchu, append_nil]
  by_cases hsiz : written.chunkDimensionSizes = []
  · have hslf : { dc with chunkDimensionSizes := [] } = dc := by rw [← hfre]
    simp [hsiz, pure, Except.pure, hslf]
  · simp [hsiz, parseChunkDimensionSizes_joined dc hsiz]

theorem filter_chunk_print (written : DmrppCommon) :
    (printChunksElement written).children.filter (fun child => child.name = "dmrpp:chunk") =
      written.chunks.map printChunk := by
  have hchu : (written.chunks.map printChunk).filter
      (fun child => child.name = "dmrpp:chunk") = written.chunks.map printChunk := by
    rw [filter_eq_self]
    intro child hmem
    obtain ⟨chunk, _, rfl⟩ := mem_map.mp hmem
    simp [printChunk]
  unfold printChunksElement
  rw [filter_append, hchu]
  split <;> simp

def rereadAttributes (dmz : Dmz) (elemType : DapType) (written : DmrppCommon) : DmrppCommon where
  filters :=
    if written.filters ≠ [] ∧ dmz.emulateOriginalFilterOrder then
      originalFilterOrder written.filters
    else written.filters
  byteOrder := firstByteOrder written
  twiddleBytes :=
    if firstByteOrder written = "LE".toList then dmz.hostBigEndian
    else if firstByteOrder written = "BE".toList then !dmz.hostBigEndian
    else false
  usesFillValue := written.usesFillValue ∧ written.fillValueStr ≠ []
  fillValueStr := if written.usesFillValue then written.fillValueStr else []
  fillValueType :=
    if written.usesFillValue ∧ written.fillValueStr ≠ [] then elemType else .dodsNull

/-- The texts that `ingest_byte_order` accepts. -/
def IsByteOrder (text : Text) : Prop := text = [] ∨ text = "LE".toList ∨ text = "BE".toList

instance (text : Text) : Decidable (IsByteOrder text) :=
  inferInstanceAs (Decidable (_ ∨ _ ∨ _))

private theorem foldlM_optional (f : σ → ι → Except Exn σ) (s : σ) (i : ι)
    (p : Prop) [Decidable p] : (if p then [i] else []).foldlM f s = if p then f s i else .ok s := by
  split
  · simp
  · rfl

theorem foldlM_ingestAttribute_print (dmz : Dmz) (elemType : DapType) (written : DmrppCommon) :
    (printChunksElement written).attributes.foldlM (ingestAttribute dmz (some elemType)) {} =
      if IsByteOrder (firstByteOrder written) then .ok (rereadAttributes dmz elemType written)
      else .error (.internalError "Did not recognize byteOrder.") := by
  let reread := rereadAttributes dmz elemType written
  have hfil : (if written.filters ≠ [] then
        ingestAttribute dmz (some elemType) {} ("compressionType", written.filters)
      else .ok {}) = .ok { filters := reread.filters } := by
    by_cases hnil : written.filters = [] <;>
      simp [hnil, ingestAttribute, setFilter, reread, rereadAttributes]
  have hfll : (if written.usesFillValue ∧ written.fillValueStr ≠ [] then
        ingestAttribute dmz (some elemType) { filters := reread.filters }
          ("fillValue", written.fillValueStr)
      else .ok { filters := reread.filters }) =
      .ok { filters := reread.filters, usesFillValue := reread.usesFillValue,
            fillValueStr := reread.fillValueStr, fillValueType := reread.fillValueType } := by
    by_cases huss : written.usesFillValue = true <;>
      by_cases hnil : written.fillValueStr = [] <;>
        simp [huss, hnil, ingestAttribute, reread, rereadAttributes]
  simp only [printChunksElement, foldlM_append, foldlM_optional, hfil]
  simp only [bind, Except.bind]
  rw [hfll]
  by_cases hnil : firstByteOrder written = []
  · simp [hnil, IsByteOrder, reread, rereadAttributes]
  by_cases hle : firstByteOrder written = ['L', 'E']
  · simp [hle, IsByteOrder, ingestAttribute, ingestByteOrder, reread, rereadAttributes]
  by_cases hbe : firstByteOrder written = ['B', 'E']
  · simp [hbe, IsByteOrder, ingestAttribute, ingestByteOrder, reread, rereadAttributes]
  · simp [hnil, hle, hbe, IsByteOrder, ingestAttribute, ingestByteOrder]

def reread (dmz : Dmz) (elemType : DapType) (written : DmrppCommon) : DmrppCommon :=
  { rereadAttributes dmz elemType written with
    chunkDimensionSizes := written.chunkDimensionSizes.map lowHalf
    chunks := written.chunks.map (rereadChunk dmz (firstByteOrder written)) }

theorem processChunks_print (dmz : Dmz) (elemType : DapType) (written : DmrppCommon) :
    processChunks dmz (some elemType) {} (printChunksElement written) =
      if IsByteOrder (firstByteOrder written) then .ok (reread dmz elemType written)
      else .error (.internalError "Did not recognize byteOrder.") := by
  unfold processChunks
  rw [foldlM_ingestAttribute_print, filter_chunk_print]
  split
  · simp only [bind, Except.bind]
    rw [processCdsNode_print _ _ rfl]
    simp only
    rw [foldlM_processChunk_print]
    simp [reread, rereadAttributes]
  · rfl

def effectiveFillValue (dc : DmrppCommon) : Option Text :=
  if dc.usesFillValue then some dc.fillValueStr else none

structure SameMetadata (written read : DmrppCommon) : Prop where
  chunkDimensionSizes : read.chunkDimensionSizes = written.chunkDimensionSizes
  filters : read.filters = written.filters
  byteOrder : read.byteOrder = written.byteOrder
  fillValue : effectiveFillValue read = effectiveFillValue written
  chunks : Forall₂ (fun r w : ChunkRef => r.offset = w.offset ∧ r.size = w.size ∧
      r.positionInArray = w.positionInArray ∧ r.usesFillValue = w.usesFillValue)
    read.chunks written.chunks

def originalFilterOrders : List Text :=
  ["", "shuffle", "deflate", "fletcher32", "shuffle deflate", "shuffle fletcher32",
    "deflate fletcher32", "shuffle deflate fletcher32"].map String.toList

theorem originalFilterOrder_mem (value : Text) : originalFilterOrder value ∈ originalFilterOrders := by
  unfold originalFilterOrder
  split_ifs <;> decide

theorem originalFilterOrder_eq_self (hmem : value ∈ originalFilterOrders) :
    originalFilterOrder value = value := by
  have hall : ∀ value ∈ originalFilterOrders, originalFilterOrder value = value := by decide
  exact hall value hmem

/-- No chunk is a fill-value chunk, sizes and positions fit in 32 bits, the
variable has the byte order of its first chunk, a declared fill value is not
empty, and under emulation the filters are in the original order. -/
structure Writable (dmz : Dmz) (dc : DmrppCommon) : Prop where
  sizes : ∀ size ∈ dc.chunkDimensionSizes, size.toNat < 2 ^ 32
  positions : ∀ chunk ∈ dc.chunks, ∀ i ∈ chunk.positionInArray, i.toNat < 2 ^ 32
  stored : ∀ chunk ∈ dc.chunks, chunk.usesFillValue = false
  byteOrder : dc.byteOrder = firstByteOrder dc
  isByteOrder : IsByteOrder dc.byteOrder
  fillValue : dc.usesFillValue → dc.fillValueStr ≠ []
  filters : dmz.emulateOriginalFilterOrder → dc.filters ∈ originalFilterOrders

theorem map_lowHalf_eq_iff (values : List UInt64) :
    values.map lowHalf = values ↔ ∀ value ∈ values, value.toNat < 2 ^ 32 := by
  induction values with
  | nil => simp
  | cons value rest ih =>
    rw [map_cons, cons.injEq, lowHalf_eq_iff, ih, forall_mem_cons]

theorem reread_filters_eq_iff (dmz : Dmz) (elemType : DapType) (written : DmrppCommon) :
    (reread dmz elemType written).filters = written.filters ↔
      (dmz.emulateOriginalFilterOrder → written.filters ∈ originalFilterOrders) := by
  simp only [reread, rereadAttributes]
  split
  next hemu =>
    constructor
    · intro heq _
      rw [← heq]
      exact originalFilterOrder_mem _
    · intro hord
      exact originalFilterOrder_eq_self (hord hemu.2)
  next hskp =>
    constructor
    · intro _ hemu
      obtain hnil : written.filters = [] := by
        by_contra hne
        exact hskp ⟨hne, hemu⟩
      rw [hnil]
      decide
    · intro _
      rfl

theorem reread_fillValue_eq_iff (dmz : Dmz) (elemType : DapType) (written : DmrppCommon) :
    effectiveFillValue (reread dmz elemType written) = effectiveFillValue written ↔
      (written.usesFillValue → written.fillValueStr ≠ []) := by
  simp only [effectiveFillValue, reread, rereadAttributes]
  by_cases huss : written.usesFillValue = true <;>
    by_cases hnil : written.fillValueStr = [] <;> simp [huss, hnil]

theorem reread_chunks_iff (dmz : Dmz) (byteOrder : Text) (chunks : List ChunkRef) :
    Forall₂ (fun r w : ChunkRef => r.offset = w.offset ∧ r.size = w.size ∧
        r.positionInArray = w.positionInArray ∧ r.usesFillValue = w.usesFillValue)
      (chunks.map (rereadChunk dmz byteOrder)) chunks ↔
      (∀ chunk ∈ chunks, ∀ i ∈ chunk.positionInArray, i.toNat < 2 ^ 32) ∧
        ∀ chunk ∈ chunks, chunk.usesFillValue = false := by
  induction chunks with
  | nil => simp
  | cons chunk rest ih =>
    rw [map_cons, forall₂_cons, ih, forall_mem_cons, forall_mem_cons]
    simp only [rereadChunk, map_lowHalf_eq_iff, true_and, eq_comm (a := false)]
    tauto

/-- Writing and reading again gives the same metadata exactly for the writable
variables. -/
theorem processChunks_print_iff (dmz : Dmz) (elemType : DapType) (dc : DmrppCommon) :
    (∃ read, processChunks dmz (some elemType) {} (printChunksElement dc) = .ok read ∧
        SameMetadata dc read) ↔ Writable dmz dc := by
  rw [processChunks_print]
  constructor
  · rintro ⟨read, hread, hsame⟩
    split at hread
    next hord =>
      cases hread
      have hchu := (reread_chunks_iff dmz _ dc.chunks).mp hsame.chunks
      have hfst : firstByteOrder dc = dc.byteOrder := hsame.byteOrder
      exact {
        sizes := (map_lowHalf_eq_iff _).mp hsame.chunkDimensionSizes
        positions := hchu.1
        stored := hchu.2
        byteOrder := hfst.symm
        isByteOrder := hfst ▸ hord
        fillValue := (reread_fillValue_eq_iff dmz elemType dc).mp hsame.fillValue
        filters := (reread_filters_eq_iff dmz elemType dc).mp hsame.filters }
    · cases hread
  · intro hwri
    refine ⟨reread dmz elemType dc, ?_, ?_⟩
    · rw [if_pos (hwri.byteOrder ▸ hwri.isByteOrder)]
    · exact {
        chunkDimensionSizes := (map_lowHalf_eq_iff _).mpr hwri.sizes
        filters := (reread_filters_eq_iff dmz elemType dc).mpr hwri.filters
        byteOrder := hwri.byteOrder.symm
        fillValue := (reread_fillValue_eq_iff dmz elemType dc).mpr hwri.fillValue
        chunks := (reread_chunks_iff dmz _ dc.chunks).mpr ⟨hwri.positions, hwri.stored⟩ }

def fillValueVariable : DmrppCommon where
  byteOrder := "LE".toList
  chunkDimensionSizes := [4]
  usesFillValue := true
  fillValueStr := "-1".toList
  fillValueType := .dodsInt32
  chunks :=
    [{ byteOrder := "LE".toList, fillValue := "-1".toList, fillValueType := .dodsInt32,
       usesFillValue := true, size := 16, positionInArray := [0] }]

def versionedReader : Dmz where
  datasetElemHref := ⟨"https://s3.amazonaws.com/cloudydap/samples/d_int.h5".toList, false⟩

/-- The fill-value chunk is written like a stored one, with offset zero and its
size, and is read as a stored one. -/
theorem fillValueVariable_reread_stored :
    ¬ ∃ read, processChunks versionedReader (some .dodsInt32) {} (printChunksElement fillValueVariable) =
      .ok read ∧ SameMetadata fillValueVariable read := by
  rintro ⟨read, hread, hsame⟩
  cases hread
  cases hsame.chunks with
  | cons hfst _ =>
    obtain ⟨_, _, _, hkind⟩ := hfst
    exact Bool.noConfusion hkind

end Bes.Dmrpp.ChunkXml
