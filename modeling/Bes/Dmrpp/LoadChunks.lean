import Bes.Dmrpp.ChunkXml
import Bes.Dmrpp.Compact
import Bes.Lib.Rounding

/-! `DMZ::load_chunks`: the chunk elements of a variable are read and the chunks
that a file leaves out are added as fill-value chunks. The number of chunks an
array should have is computed in single precision, a significand of 24 bits. -/
namespace Bes.Dmrpp.LoadChunks
open Lib Dmrpp.ChunkMetadata Dmrpp.ChunkXml Dmrpp.Compact List

/-! The odometer over chunk origins. -/

/-- `DmrppChunkOdometer` as its constructor names the fields. The caller passes the
array's shape first: `shape` bounds the indices, `arrayShape` is what they step by. -/
structure DmrppChunkOdometer where
  shape : List UInt64
  arrayShape : List UInt64
  indices : List UInt64

def DmrppChunkOdometer.start (chunkShape arrayShape : List UInt64) : DmrppChunkOdometer :=
  ⟨chunkShape, arrayShape, chunkShape.map fun _ => 0⟩

def nextLoop : List UInt64 → List UInt64 → List UInt64 → List UInt64 × Bool
  | si :: shape, ai :: arrayShape, i :: indices =>
      if si ≤ i + ai then
        let (indices, status) := nextLoop shape arrayShape indices
        (0 :: indices, status)
      else ((i + ai) :: indices, true)
  | _, _, indices => (indices, false)

def DmrppChunkOdometer.next (odometer : DmrppChunkOdometer) : DmrppChunkOdometer × Bool :=
  let (indices, status) :=
    nextLoop odometer.shape.reverse odometer.arrayShape.reverse odometer.indices.reverse
  ({ odometer with indices := indices.reverse }, status)

/-- `(size_t) ceil ((float) a / (float) c)`. -/
def ceilQuotient (arrayDimSize chunkDimSize : UInt64) : UInt64 :=
  UInt64.ofNat ⌈Rounding.roundedDiv 24 arrayDimSize.toNat chunkDimSize.toNat⌉₊

/-- `logical_chunks`. A chunk size of zero divides by zero, and the infinity has no
value as a `size_t`. -/
def logicalChunks (arrayDimSizes chunkDimSizes : List UInt64) : Except Fault UInt64 :=
  if chunkDimSizes.length ≠ arrayDimSizes.length then
    .error (.thrown (.internalError ("Expected the chunk and array rank to match (chunk: " ++
      toString chunkDimSizes.length ++ ", array: " ++ toString arrayDimSizes.length ++ ")")))
  else if 0 ∈ chunkDimSizes then .error .undefined
  else .ok ((arrayDimSizes.zip chunkDimSizes).foldl (fun n d => n * ceilQuotient d.1 d.2) 1)

def getChunkMap (chunks : List ChunkRef) : List (List UInt64) :=
  chunks.map ChunkRef.positionInArray

/-- The do-while loop of `process_fill_value_chunks`. -/
def fillValueLoop (chunkMap : List (List UInt64)) (chunkSize : UInt64) :
    Nat → DmrppChunkOdometer → DmrppCommon → Except Fault DmrppCommon
  | 0, _, _ => .error .outOfFuel
  | fuel + 1, odometer, dc =>
      let dc :=
        if odometer.indices ∈ chunkMap then dc
        else addFillValueChunk dc dc.byteOrder dc.fillValueStr dc.fillValueType chunkSize
          odometer.indices
      let (odometer, status) := odometer.next
      if status then fillValueLoop chunkMap chunkSize fuel odometer dc else .ok dc

/-- `process_fill_value_chunks`. The loop is given one round per array element. -/
def processFillValueChunks (dc : DmrppCommon) (chunkMap : List (List UInt64))
    (chunkShape arrayShape : List UInt64) (chunkSize : UInt64) : Except Fault DmrppCommon :=
  fillValueLoop chunkMap chunkSize ((arrayShape.map UInt64.toNat).prod + 1)
    (DmrppChunkOdometer.start arrayShape chunkShape) dc

/-- What `load_chunks` does after the `dmrpp:chunks` element has been read. -/
def addMissingChunks (btp : Option ArrayPart) (dc : DmrppCommon) : Except Fault DmrppCommon :=
  match btp with
  | none => .ok dc
  | some array =>
      if dc.chunkDimensionSizes ≠ [] then do
        let numLogicalChunks ← logicalChunks array.shape dc.chunkDimensionSizes
        if numLogicalChunks.toNat ≠ dc.chunks.length then
          let chunkSizeBytes := dc.chunkDimensionSizes.foldl (· * ·) array.elemWidth
          processFillValueChunks dc (getChunkMap dc.chunks) dc.chunkDimensionSizes array.shape
            chunkSizeBytes
        else pure dc
      else if dc.chunks = [] then
        let arraySizeBytes := array.shape.foldl (· * ·) 1 * array.elemWidth
        -- the vector `pia (0, rank)` has no element
        .ok (addFillValueChunk dc dc.byteOrder dc.fillValueStr dc.fillValueType arraySizeBytes [])
      else .ok dc

/-- The children of a variable's element that `load_chunks` looks for. -/
structure VarNode where
  chunks : Option ChunksElement := none
  chunk : Option XmlElement := none
  compact : List Text := []

def loadChunksChild (dmz : Dmz) (btp : Variable) : Option ChunksElement → Except Fault Variable
  | none => pure btp
  | some child => do
      let elemType := btp.array.map ArrayPart.elemType
      let dc ← (processChunks dmz elemType btp.common child).mapError .thrown
      let dc ← addMissingChunks btp.array dc
      pure { btp with common := dc }

def loadChunkChild (dmz : Dmz) (btp : Variable) : Option XmlElement → Except Fault Variable
  | none => pure btp
  | some chunk => do
      let dc ← (processChunk dmz btp.common chunk).mapError .thrown
      pure { btp with common := dc }

/-- The third part. Of several `dmrpp:compact` elements the first is read. -/
def loadCompactChild (btp : Variable) : List Text → Except Fault Variable
  | [] => pure btp
  | compact :: _ => processCompact btp compact

def VarNode.elementsFound (varNode : VarNode) : Nat :=
  varNode.chunks.isSome.toNat + varNode.chunk.isSome.toNat + (!varNode.compact.isEmpty).toNat

def loadChunksAt (dmz : Dmz) (btp : Variable) (varNode : VarNode) : Except Fault Variable := do
  let btp ← loadChunksChild dmz btp varNode.chunks
  let btp ← loadChunkChild dmz btp varNode.chunk
  let btp ← loadCompactChild btp varNode.compact
  if dmz.requireChunks ∧ varNode.elementsFound ≠ 1 then
    throw (.thrown (.internalError
      ("Expected chunk, chunks or compact information in the DMR++ data. Found " ++
        toString varNode.elementsFound ++ " types of nodes.")))
  pure { btp with common := { btp.common with chunksLoaded := true } }

def loadChunks (dmz : Dmz) (btp : Variable) (varNode : Option VarNode) : Except Fault Variable :=
  if btp.common.chunksLoaded then .ok btp
  else
    match varNode with
    | none => .error (.thrown (.internalError
        "Could not find location of variable in the DMR++ XML document."))
    | some varNode => loadChunksAt dmz btp varNode

/-! The walk over a grid of chunks. -/

/-- `fits`: no index wraps around when the chunk size is added to it. -/
structure GridDim where
  arraySize : UInt64
  chunkSize : UInt64
  array_pos : 0 < arraySize.toNat
  chunk_pos : 0 < chunkSize.toNat
  fits : ∀ k, k * chunkSize.toNat < arraySize.toNat → (k + 1) * chunkSize.toNat < 2 ^ 64

def GridDim.count (dim : GridDim) : Nat :=
  Rounding.blocks dim.arraySize.toNat dim.chunkSize.toNat

def chunkCount (grid : List GridDim) : Nat := (grid.map GridDim.count).prod

def IsOrigin (grid : List GridDim) (position : List UInt64) : Prop :=
  Forall₂ (fun dim i => dim.chunkSize.toNat ∣ i.toNat ∧ i.toNat < dim.arraySize.toNat)
    grid position

/-- The odometer's indices, last dimension first, after `n` steps: the digits of
`n` to the chunk counts as bases, times the chunk sizes. -/
def walkAt : List GridDim → Nat → List UInt64
  | [], _ => []
  | dim :: grid, n =>
      UInt64.ofNat (n % dim.count * dim.chunkSize.toNat) :: walkAt grid (n / dim.count)

theorem GridDim.count_pos (dim : GridDim) : 0 < dim.count :=
  Rounding.blocks_pos dim.array_pos dim.chunk_pos

theorem GridDim.lt_count_iff (dim : GridDim) {k : Nat} :
    k < dim.count ↔ k * dim.chunkSize.toNat < dim.arraySize.toNat :=
  Rounding.lt_blocks_iff dim.chunk_pos

theorem GridDim.toNat_index (dim : GridDim) {k : Nat} (hk : k < dim.count) :
    (UInt64.ofNat (k * dim.chunkSize.toNat)).toNat = k * dim.chunkSize.toNat := by
  have hlt := dim.lt_count_iff.mp hk
  exact UInt64.toNat_ofNat_of_lt' (lt_trans hlt dim.arraySize.toNat_lt)

theorem GridDim.toNat_index_add (dim : GridDim) {k : Nat} (hk : k < dim.count) :
    (UInt64.ofNat (k * dim.chunkSize.toNat) + dim.chunkSize).toNat =
      (k + 1) * dim.chunkSize.toNat := by
  rw [UInt64.toNat_add, dim.toNat_index hk, ← Nat.succ_mul]
  exact Nat.mod_eq_of_lt (dim.fits k (dim.lt_count_iff.mp hk))

theorem chunkCount_pos (grid : List GridDim) : 0 < chunkCount grid := by
  apply prod_pos
  intro count hmem
  obtain ⟨dim, _, rfl⟩ := mem_map.mp hmem
  exact dim.count_pos

@[simp] theorem chunkCount_cons (dim : GridDim) (grid : List GridDim) :
    chunkCount (dim :: grid) = dim.count * chunkCount grid := by
  simp [chunkCount]

@[simp] theorem chunkCount_reverse (grid : List GridDim) :
    chunkCount grid.reverse = chunkCount grid := by
  rw [chunkCount, map_reverse, prod_reverse, chunkCount]

theorem nextLoop_walkAt {grid : List GridDim} {n : Nat} (hn : n < chunkCount grid) :
    nextLoop (grid.map GridDim.arraySize) (grid.map GridDim.chunkSize) (walkAt grid n) =
      (walkAt grid (n + 1), decide (n + 1 < chunkCount grid)) := by
  induction grid generalizing n with
  | nil =>
    have hzero : n = 0 := by simpa [chunkCount] using hn
    simp [hzero, nextLoop, walkAt, chunkCount]
  | cons dim grid ih =>
    have hpos := dim.count_pos
    have hdig : n % dim.count < dim.count := Nat.mod_lt n hpos
    have hcar : n / dim.count < chunkCount grid := Nat.div_lt_of_lt_mul hn
    have hsplit := Nat.div_add_mod n dim.count
    have hcrr : dim.arraySize ≤ UInt64.ofNat (n % dim.count * dim.chunkSize.toNat) + dim.chunkSize ↔
          ¬ n % dim.count + 1 < dim.count := by
      rw [UInt64.le_iff_toNat_le, dim.toNat_index_add hdig, dim.lt_count_iff, not_lt]
    rw [map_cons, map_cons, walkAt, nextLoop, walkAt, chunkCount_cons]
    by_cases hsty : n % dim.count + 1 < dim.count
    · -- no carry: only this digit changes
      have hnext : n + 1 = dim.count * (n / dim.count) + (n % dim.count + 1) := by omega
      have hmod : (n + 1) % dim.count = n % dim.count + 1 := by
        rw [hnext, Nat.mul_add_mod, Nat.mod_eq_of_lt hsty]
      have hdiv : (n + 1) / dim.count = n / dim.count := by
        rw [hnext, Nat.mul_add_div hpos, Nat.div_eq_of_lt hsty, Nat.add_zero]
      have hmore : n + 1 < dim.count * chunkCount grid := by
        calc n + 1 < dim.count * (n / dim.count) + dim.count := by omega
          _ = dim.count * (n / dim.count + 1) := by ring
          _ ≤ dim.count * chunkCount grid := Nat.mul_le_mul_left _ hcar
      rw [if_neg (by rwa [hcrr, not_not]), hmod, hdiv, decide_eq_true hmore]
      congr 2
      apply UInt64.toNat_inj.mp
      rw [dim.toNat_index_add hdig, dim.toNat_index hsty]
    · have hnext : n + 1 = dim.count * (n / dim.count + 1) := by
        rw [Nat.mul_succ]
        omega
      have hmod : (n + 1) % dim.count = 0 := by rw [hnext, Nat.mul_mod_right]
      have hdiv : (n + 1) / dim.count = n / dim.count + 1 := by
        rw [hnext, Nat.mul_div_cancel_left _ hpos]
      have hmore : n + 1 < dim.count * chunkCount grid ↔ n / dim.count + 1 < chunkCount grid := by
        rw [hnext, Nat.mul_lt_mul_left hpos]
      rw [if_pos (hcrr.mpr hsty), ih hcar, hmod, hdiv]
      simp [hmore]

theorem isOrigin_walkAt (grid : List GridDim) (n : Nat) : IsOrigin grid (walkAt grid n) := by
  induction grid generalizing n with
  | nil => exact .nil
  | cons dim grid ih =>
    have hdig : n % dim.count < dim.count := Nat.mod_lt n dim.count_pos
    refine .cons ?_ (ih _)
    rw [dim.toNat_index hdig]
    exact ⟨Nat.dvd_mul_left _ _, dim.lt_count_iff.mp hdig⟩

variable {grid : List GridDim}

theorem exists_walkAt (horigin : IsOrigin grid position) :
    ∃ n < chunkCount grid, walkAt grid n = position := by
  induction horigin with
  | nil => exact ⟨0, by simp [chunkCount], rfl⟩
  | @cons dim i grid position hi _ ih =>
    obtain ⟨n, hn, rfl⟩ := ih
    obtain ⟨⟨k, hk⟩, hlt⟩ := hi
    rw [Nat.mul_comm] at hk
    have hdig : k < dim.count := dim.lt_count_iff.mpr (hk ▸ hlt)
    refine ⟨dim.count * n + k, ?_, ?_⟩
    · calc dim.count * n + k < dim.count * n + dim.count := by omega
        _ = dim.count * (n + 1) := by ring
        _ ≤ dim.count * chunkCount grid := Nat.mul_le_mul_left _ hn
    · rw [walkAt, Nat.mul_add_mod, Nat.mod_eq_of_lt hdig, Nat.mul_add_div dim.count_pos,
        Nat.div_eq_of_lt hdig, Nat.add_zero, ← hk, UInt64.ofNat_toNat]

theorem length_walkAt (grid : List GridDim) (n : Nat) : (walkAt grid n).length = grid.length :=
  (isOrigin_walkAt grid n).length_eq.symm

theorem lex_append {first second : List UInt64} (hlex : List.Lex (· < ·) first second)
    (hlen : first.length = second.length) (rest others : List UInt64) :
    List.Lex (· < ·) (first ++ rest) (second ++ others) := by
  induction hlex with
  | nil => simp at hlen
  | cons _ ih => exact .cons (ih (Nat.succ.inj hlen))
  | rel hlt => exact .rel hlt

theorem walkAt_lex (hm : m < chunkCount grid) (hlt : n < m) :
    List.Lex (· < ·) (walkAt grid n).reverse (walkAt grid m).reverse := by
  induction grid generalizing n m with
  | nil =>
    simp only [chunkCount, map_nil, prod_nil] at hm
    omega
  | cons dim grid ih =>
    rw [walkAt, walkAt, reverse_cons, reverse_cons]
    obtain hcar | hcar := (Nat.div_le_div_right (c := dim.count) hlt.le).lt_or_eq
    · apply lex_append (ih (Nat.div_lt_of_lt_mul hm) hcar)
      rw [length_reverse, length_reverse, length_walkAt, length_walkAt]
    · -- the slower digits agree
      have hn := Nat.div_add_mod n dim.count
      have hm' := Nat.div_add_mod m dim.count
      rw [← hcar] at hm'
      have hdig : n % dim.count < m % dim.count := by omega
      rw [← hcar]
      apply List.Lex.append_left _ (.rel _)
      rw [UInt64.lt_iff_toNat_lt, dim.toNat_index (Nat.mod_lt n dim.count_pos),
        dim.toNat_index (Nat.mod_lt m dim.count_pos)]
      exact Nat.mul_lt_mul_of_pos_right hdig dim.chunk_pos

theorem walkAt_chunkCount (grid : List GridDim) : walkAt grid (chunkCount grid) = walkAt grid 0 := by
  induction grid with
  | nil => rfl
  | cons dim grid ih => simp [walkAt, ih, Nat.mul_div_cancel_left _ dim.count_pos]

def originAt (grid : List GridDim) (n : Nat) : List UInt64 := (walkAt grid.reverse n).reverse

def origins (grid : List GridDim) : List (List UInt64) :=
  (range (chunkCount grid)).map (originAt grid)

theorem mem_origins (grid : List GridDim) (position : List UInt64) :
    position ∈ origins grid ↔ IsOrigin grid position := by
  unfold origins originAt
  rw [mem_map]
  constructor
  · rintro ⟨n, _, rfl⟩
    have hrev := rel_reverse (isOrigin_walkAt grid.reverse n)
    rwa [reverse_reverse] at hrev
  · intro horigin
    obtain ⟨n, hn, heq⟩ := exists_walkAt (rel_reverse horigin)
    rw [chunkCount_reverse] at hn
    exact ⟨n, mem_range.mpr hn, by rw [heq, reverse_reverse]⟩

theorem origins_lex (grid : List GridDim) : (origins grid).Pairwise (List.Lex (· < ·)) := by
  apply pairwise_map.mpr
  apply pairwise_lt_range.imp_of_mem
  intro n m _ hm hlt
  rw [mem_range, ← chunkCount_reverse] at hm
  exact walkAt_lex hm hlt

theorem nodup_origins (grid : List GridDim) : (origins grid).Nodup :=
  (origins_lex grid).imp fun hlex => (hlex.imp (fun _ _ => UInt64.ne_of_lt) _ _).to_ne

def odometerAt (grid : List GridDim) (n : Nat) : DmrppChunkOdometer :=
  ⟨grid.map GridDim.arraySize, grid.map GridDim.chunkSize, originAt grid n⟩

theorem start_eq_odometerAt (grid : List GridDim) :
    DmrppChunkOdometer.start (grid.map GridDim.arraySize) (grid.map GridDim.chunkSize) =
      odometerAt grid 0 := by
  have hzero : ∀ grid : List GridDim, walkAt grid 0 = grid.map fun _ => 0 := by
    intro grid
    induction grid with
    | nil => rfl
    | cons dim grid ih => simp [walkAt, ih]
  simp [DmrppChunkOdometer.start, odometerAt, originAt, hzero, map_reverse, Function.comp_def]

theorem next_odometerAt (hn : n < chunkCount grid) :
    (odometerAt grid n).next = (odometerAt grid (n + 1), decide (n + 1 < chunkCount grid)) := by
  have hloop := @nextLoop_walkAt grid.reverse n (by rwa [chunkCount_reverse])
  rw [map_reverse, map_reverse, chunkCount_reverse] at hloop
  simp [DmrppChunkOdometer.next, odometerAt, originAt, hloop]

def DmrppChunkOdometer.after (odometer : DmrppChunkOdometer) (n : Nat) : DmrppChunkOdometer :=
  (fun odometer => odometer.next.1)^[n] odometer

theorem after_eq_odometerAt (hn : n ≤ chunkCount grid) :
    (DmrppChunkOdometer.start (grid.map GridDim.arraySize) (grid.map GridDim.chunkSize)).after n =
      odometerAt grid n := by
  induction n with
  | zero => exact start_eq_odometerAt grid
  | succ n ih =>
    rw [DmrppChunkOdometer.after, Function.iterate_succ_apply']
    change (DmrppChunkOdometer.after _ n).next.1 = _
    rw [ih (by omega), next_odometerAt (by omega)]

theorem next_visits_origins (grid : List GridDim) :
    let start := DmrppChunkOdometer.start (grid.map GridDim.arraySize) (grid.map GridDim.chunkSize)
    let visited := (range (chunkCount grid)).map fun n => (start.after n).indices
    (∀ n < chunkCount grid, (start.after n).next.2 = decide (n + 1 < chunkCount grid)) ∧
      visited.Pairwise (List.Lex (· < ·)) ∧ (∀ position, position ∈ visited ↔ IsOrigin grid position) ∧
      start.after (chunkCount grid) = start := by
  intro start visited
  have hvisit : visited = origins grid := map_congr_left fun n hn => by
    rw [after_eq_odometerAt (mem_range.mp hn).le]
    rfl
  rw [hvisit, after_eq_odometerAt le_rfl]
  refine ⟨fun n hn => ?_, origins_lex grid, mem_origins grid, ?_⟩
  · rw [after_eq_odometerAt hn.le, next_odometerAt hn]
  · rw [show start = odometerAt grid 0 from start_eq_odometerAt grid, odometerAt, odometerAt,
      originAt, originAt, ← chunkCount_reverse, walkAt_chunkCount]

theorem twoChunks_starts_over : ((DmrppChunkOdometer.start [2] [1]).after 1).next.2 = false ∧
    ¬ ∀ n ≥ 1, ((DmrppChunkOdometer.start [2] [1]).after n).next.2 = false :=
  ⟨by decide, fun h => absurd (h 2 (by decide)) (by decide)⟩

def fillValueChunk (dc : DmrppCommon) (chunkSize : UInt64) (position : List UInt64) : ChunkRef where
  byteOrder := dc.byteOrder
  fillValue := dc.fillValueStr
  fillValueType := dc.fillValueType
  usesFillValue := true
  size := chunkSize
  positionInArray := position

theorem fillValueLoop_odometerAt (hn : n < chunkCount grid)
    (hful : chunkCount grid ≤ n + fuel) (dc : DmrppCommon) :
    fillValueLoop chunkMap chunkSize fuel (odometerAt grid n) dc =
      .ok { dc with chunks := dc.chunks ++
        (((range' n (chunkCount grid - n)).map (originAt grid)).filter
          (· ∉ chunkMap)).map (fillValueChunk dc chunkSize) } := by
  induction fuel generalizing n dc with
  | zero => omega
  | succ fuel ih =>
    have hran : range' n (chunkCount grid - n) =
        n :: range' (n + 1) (chunkCount grid - (n + 1)) := by
      rw [show chunkCount grid - n = chunkCount grid - (n + 1) + 1 by omega, range'_succ]
    rw [fillValueLoop, next_odometerAt hn, hran, map_cons]
    by_cases hmore : n + 1 < chunkCount grid
    · by_cases hmem : originAt grid n ∈ chunkMap
      · have hskp : (odometerAt grid n).indices ∈ chunkMap := hmem
        simp only [if_pos hskp, decide_eq_true hmore, if_true]
        rw [ih hmore (by omega), filter_cons_of_neg (by simpa using hmem)]
      · have hadd : (odometerAt grid n).indices ∉ chunkMap := hmem
        simp only [if_neg hadd, decide_eq_true hmore, if_true]
        rw [ih hmore (by omega), filter_cons_of_pos (by simpa using hmem)]
        simp [addFillValueChunk, fillValueChunk, odometerAt]
    · have hnone : chunkCount grid - (n + 1) = 0 := by omega
      by_cases hmem : originAt grid n ∈ chunkMap
      · have hskp : (odometerAt grid n).indices ∈ chunkMap := hmem
        simp [hskp, hmore, hnone, hmem]
      · have hadd : (odometerAt grid n).indices ∉ chunkMap := hmem
        simp [hadd, hmore, hnone, hmem, addFillValueChunk, fillValueChunk]
        rfl

theorem chunkCount_le_prod (grid : List GridDim) :
    chunkCount grid ≤ ((grid.map GridDim.arraySize).map UInt64.toNat).prod := by
  induction grid with
  | nil => simp [chunkCount]
  | cons dim grid ih =>
    have hcnt : dim.count ≤ dim.arraySize.toNat := by
      have hpos := dim.chunk_pos
      by_contra hlt
      have hovr := dim.lt_count_iff.mp (not_le.mp hlt)
      nlinarith
    exact Nat.mul_le_mul hcnt ih

theorem processFillValueChunks_eq (grid : List GridDim) (chunkMap : List (List UInt64))
    (chunkSize : UInt64) (dc : DmrppCommon) :
    processFillValueChunks dc chunkMap (grid.map GridDim.chunkSize)
        (grid.map GridDim.arraySize) chunkSize =
      .ok { dc with chunks := dc.chunks ++
        ((origins grid).filter (· ∉ chunkMap)).map (fillValueChunk dc chunkSize) } := by
  have hle := chunkCount_le_prod grid
  unfold processFillValueChunks
  rw [start_eq_odometerAt, fillValueLoop_odometerAt (chunkCount_pos grid) (by omega),
    Nat.sub_zero, ← range_eq_range']
  rfl

/-! The count that decides whether the loop runs. -/

def roundedCount (grid : List GridDim) : Nat :=
  (grid.map fun dim =>
    ⌈Rounding.roundedDiv 24 dim.arraySize.toNat dim.chunkSize.toNat⌉₊).prod % 2 ^ 64

def fullChunkBytes (grid : List GridDim) (elemWidth : UInt64) : Nat :=
  elemWidth.toNat * (grid.map fun dim => dim.chunkSize.toNat).prod

private theorem foldl_mul_ofNat (f : α → Nat) (items : List α) (first : UInt64) :
    items.foldl (fun product item => product * UInt64.ofNat (f item)) first =
      first * UInt64.ofNat (items.map f).prod := by
  induction items generalizing first with
  | nil => simp
  | cons item items ih =>
    rw [foldl_cons, ih, map_cons, prod_cons, UInt64.ofNat_mul, mul_assoc]

theorem logicalChunks_grid (grid : List GridDim) :
    ∃ count, logicalChunks (grid.map GridDim.arraySize) (grid.map GridDim.chunkSize) = .ok count ∧
      count.toNat = roundedCount grid := by
  have hzero : (0 : UInt64) ∉ grid.map GridDim.chunkSize := by
    intro hmem
    obtain ⟨dim, _, heq⟩ := mem_map.mp hmem
    have hpos := dim.chunk_pos
    rw [heq] at hpos
    exact absurd hpos (by decide)
  unfold logicalChunks
  rw [if_neg (by simp), if_neg hzero]
  refine ⟨_, rfl, ?_⟩
  rw [zip_map', foldl_map]
  simp only [ceilQuotient]
  rw [foldl_mul_ofNat, one_mul, UInt64.toNat_ofNat']
  rfl

theorem chunkSizeBytes_grid (grid : List GridDim) (elemWidth : UInt64) :
    ((grid.map GridDim.chunkSize).foldl (· * ·) elemWidth).toNat =
      fullChunkBytes grid elemWidth % 2 ^ 64 := by
  have hfld : (grid.map GridDim.chunkSize).foldl (· * ·) elemWidth =
      grid.foldl (fun product dim => product * UInt64.ofNat dim.chunkSize.toNat) elemWidth := by
    rw [foldl_map]
    simp only [UInt64.ofNat_toNat]
  rw [hfld, foldl_mul_ofNat fun dim : GridDim => dim.chunkSize.toNat, UInt64.toNat_mul,
    UInt64.toNat_ofNat', Nat.mul_mod_mod]
  rfl

structure Stored (grid : List GridDim) (stored : List ChunkRef) : Prop where
  nodup : (stored.map ChunkRef.positionInArray).Nodup
  origins : ∀ chunk ∈ stored, IsOrigin grid chunk.positionInArray

structure Covers (grid : List GridDim) (elemWidth : UInt64) (stored chunks : List ChunkRef) :
    Prop where
  nodup : (chunks.map ChunkRef.positionInArray).Nodup
  origins : ∀ position, position ∈ chunks.map ChunkRef.positionInArray ↔ IsOrigin grid position
  keeps : ∀ chunk ∈ stored, chunk ∈ chunks
  filled : ∀ chunk ∈ chunks, chunk ∉ stored →
    chunk.usesFillValue ∧ chunk.size.toNat = fullChunkBytes grid elemWidth

def missing (grid : List GridDim) (stored : List ChunkRef) : List (List UInt64) :=
  (origins grid).filter (· ∉ getChunkMap stored)

theorem mem_missing (grid : List GridDim) (stored : List ChunkRef) (position : List UInt64) :
    position ∈ missing grid stored ↔
      IsOrigin grid position ∧ position ∉ stored.map ChunkRef.positionInArray := by
  unfold missing getChunkMap
  rw [mem_filter, mem_origins, decide_eq_true_eq]

theorem missing_eq_nil_iff (hstored : Stored grid stored) :
    missing grid stored = [] ↔ stored.length = chunkCount grid := by
  have hlen : (origins grid).length = chunkCount grid := by simp [origins]
  have hsub : stored.map ChunkRef.positionInArray ⊆ origins grid := by
    intro position hmem
    obtain ⟨chunk, hchunk, rfl⟩ := mem_map.mp hmem
    exact (mem_origins grid _).mpr (hstored.origins chunk hchunk)
  have hsbp := subperm_of_subset hstored.nodup hsub
  unfold missing getChunkMap
  rw [filter_eq_nil_iff]
  constructor
  · intro hall
    have hbck : origins grid ⊆ stored.map ChunkRef.positionInArray := by
      intro position hmem
      simpa using hall position hmem
    have hle := (subperm_of_subset (nodup_origins grid) hbck).length_le
    have hge := hsbp.length_le
    rw [hlen, length_map] at hle hge
    omega
  · intro hcnt position hmem
    have hprm := hsbp.perm_of_length_le (by rw [hlen, length_map, hcnt])
    simpa using hprm.mem_iff.mpr hmem

theorem covers_self_iff (hstored : Stored grid stored) :
    Covers grid elemWidth stored stored ↔ missing grid stored = [] := by
  constructor
  · intro hcover
    rw [eq_nil_iff_forall_not_mem]
    intro position hmem
    rw [mem_missing, ← hcover.origins] at hmem
    exact hmem.2 hmem.1
  · intro hnone
    refine ⟨hstored.nodup, ?_, fun _ hmem => hmem, fun _ hmem hnot => absurd hmem hnot⟩
    intro position
    constructor
    · intro hmem
      obtain ⟨chunk, hchunk, rfl⟩ := mem_map.mp hmem
      exact hstored.origins chunk hchunk
    · intro horigin
      by_contra hnot
      have hmem := (mem_missing grid stored position).mpr ⟨horigin, hnot⟩
      rw [hnone] at hmem
      exact not_mem_nil hmem

theorem covers_filled_iff (hstored : Stored grid stored) (dc : DmrppCommon) (chunkSize : UInt64) :
    Covers grid elemWidth stored
        (stored ++ (missing grid stored).map (fillValueChunk dc chunkSize)) ↔
      missing grid stored = [] ∨ chunkSize.toNat = fullChunkBytes grid elemWidth := by
  have hpoi : (stored ++ (missing grid stored).map (fillValueChunk dc chunkSize)).map
      ChunkRef.positionInArray =
      stored.map ChunkRef.positionInArray ++ missing grid stored := by
    rw [map_append, map_map]
    congr 1
    exact map_id _
  have hnos : ∀ position ∈ missing grid stored,
      fillValueChunk dc chunkSize position ∉ stored := by
    intro position hmem hchunk
    exact ((mem_missing grid stored position).mp hmem).2 (mem_map_of_mem hchunk)
  constructor
  · intro hcover
    rw [or_iff_not_imp_left]
    intro hsom
    obtain ⟨position, hmem⟩ := exists_mem_of_ne_nil _ hsom
    exact (hcover.filled (fillValueChunk dc chunkSize position)
      (mem_append_right _ (mem_map_of_mem hmem)) (hnos position hmem)).2
  · intro hsize
    refine ⟨?_, ?_, fun _ hmem => mem_append_left _ hmem, ?_⟩
    · rw [hpoi]
      refine hstored.nodup.append ((nodup_origins grid).filter _) ?_
      intro position hmem hmis
      exact ((mem_missing grid stored position).mp hmis).2 hmem
    · intro position
      rw [hpoi, mem_append, mem_missing]
      constructor
      · rintro (hmem | hmis)
        · obtain ⟨chunk, hchunk, rfl⟩ := mem_map.mp hmem
          exact hstored.origins chunk hchunk
        · exact hmis.1
      · intro horigin
        by_cases hmem : position ∈ stored.map ChunkRef.positionInArray
        · exact .inl hmem
        · exact .inr ⟨horigin, hmem⟩
    · intro chunk hmem hnot
      rcases mem_append.mp hmem with hchunk | hchunk
      · exact absurd hchunk hnot
      · obtain ⟨position, hpst, rfl⟩ := mem_map.mp hchunk
        rcases hsize with hnone | hsize
        · rw [hnone] at hpst
          exact absurd hpst not_mem_nil
        · exact ⟨rfl, hsize⟩

/-- The variable as `load_chunks` completes it: the rounded count decides whether
chunks are added. -/
def completed (grid : List GridDim) (elemWidth : UInt64) (dc : DmrppCommon) : DmrppCommon :=
  if roundedCount grid = dc.chunks.length then dc
  else
    let chunkSizeBytes := (grid.map GridDim.chunkSize).foldl (· * ·) elemWidth
    { dc with chunks :=
        dc.chunks ++ (missing grid dc.chunks).map (fillValueChunk dc chunkSizeBytes) }

theorem addMissingChunks_grid (hrnk : grid ≠ []) (hsha : array.shape = grid.map GridDim.arraySize)
    (hsize : dc.chunkDimensionSizes = grid.map GridDim.chunkSize) :
    addMissingChunks (some array) dc = .ok (completed grid array.elemWidth dc) := by
  obtain ⟨count, hcnt, hrou⟩ := logicalChunks_grid grid
  unfold addMissingChunks
  simp only [hsha, hsize, hcnt]
  rw [if_pos (by simpa using hrnk)]
  simp only [bind, Except.bind, hrou, processFillValueChunks_eq]
  split
  next hne =>
    rw [completed, if_neg hne]
    rfl
  next heq =>
    rw [completed, if_pos (not_not.mp heq)]
    rfl

theorem covers_completed_iff (hstored : Stored grid dc.chunks) :
    Covers grid elemWidth dc.chunks (completed grid elemWidth dc).chunks ↔
      dc.chunks.length = chunkCount grid ∨
        (roundedCount grid ≠ dc.chunks.length ∧ fullChunkBytes grid elemWidth < 2 ^ 64) := by
  have hwrp : fullChunkBytes grid elemWidth % 2 ^ 64 = fullChunkBytes grid elemWidth ↔
      fullChunkBytes grid elemWidth < 2 ^ 64 :=
    Nat.mod_eq_iff_lt (by decide)
  rw [← missing_eq_nil_iff hstored]
  unfold completed
  split
  next heq =>
    simp [covers_self_iff hstored, heq]
  next hne =>
    rw [covers_filled_iff hstored, chunkSizeBytes_grid, hwrp]
    simp [hne]

theorem loadChunks_grid
    (array : ArrayPart) (grid : List GridDim) (dc : DmrppCommon) (hfre : btp.common.chunksLoaded = false)
    (harr : btp.array = some array) (hsha : array.shape = grid.map GridDim.arraySize)
    (hrnk : grid ≠ []) (hread : processChunks dmz (some array.elemType) btp.common child = .ok dc)
    (hsize : dc.chunkDimensionSizes = grid.map GridDim.chunkSize) :
    loadChunks dmz btp (some { chunks := some child }) =
      .ok { btp with common :=
        { completed grid array.elemWidth dc with chunksLoaded := true } } := by
  simp [loadChunks, hfre, loadChunksAt, loadChunksChild, loadChunkChild, loadCompactChild,
    VarNode.elementsFound, harr, hread, Except.mapError, bind, Except.bind,
    addMissingChunks_grid hrnk hsha hsize, pure, Except.pure]

/-- After `load_chunks` the chunk list covers the array exactly when every chunk is
stored, or when the rounded count differs from the number of stored chunks and the
size of a chunk in bytes is a 64-bit number. -/
theorem loadChunks_covers_iff (dmz : Dmz) (btp : Variable) (array : ArrayPart)
    (child : ChunksElement) (grid : List GridDim) (dc : DmrppCommon)
    (hfresh : btp.common.chunksLoaded = false) (harray : btp.array = some array)
    (hshape : array.shape = grid.map GridDim.arraySize) (hrank : grid ≠ [])
    (hread : processChunks dmz (some array.elemType) btp.common child = .ok dc)
    (hsizes : dc.chunkDimensionSizes = grid.map GridDim.chunkSize)
    (hstored : Stored grid dc.chunks) :
    ∃ loaded, loadChunks dmz btp (some { chunks := some child }) = .ok loaded ∧
      (Covers grid array.elemWidth dc.chunks loaded.common.chunks ↔
        dc.chunks.length = chunkCount grid ∨ (roundedCount grid ≠ dc.chunks.length ∧
            fullChunkBytes grid array.elemWidth < 2 ^ 64)) :=
  ⟨_, loadChunks_grid array grid dc hfresh harray hshape hrank hread hsizes,
    covers_completed_iff hstored⟩

def oneChunkElement (sizes offset nBytes position : String) : ChunksElement where
  attributes := [("byteOrder", "LE".toList)]
  children :=
    [{ name := "dmrpp:chunkDimensionSizes", value := sizes.toList },
     { name := "dmrpp:chunk",
       attributes := [("offset", offset.toList), ("nBytes", nBytes.toList),
         ("chunkPositionInArray", position.toList)] }]

def oneChunkRead (size offset nBytes position : UInt64) : DmrppCommon where
  byteOrder := "LE".toList
  chunkDimensionSizes := [size]
  chunks :=
    [{ dataUrl := some versionedReader.datasetElemHref, byteOrder := "LE".toList, size := nBytes,
       offset, positionInArray := [position] }]

def shortDim : GridDim where
  arraySize := 5
  chunkSize := 2
  array_pos := by decide
  chunk_pos := by decide
  fits k h := by
    rw [Nat.succ_mul]
    exact lt_trans (Nat.add_lt_add_right h _) (by decide)

theorem loadChunks_covers_short : ∃ loaded, loadChunks versionedReader
        { array := some { shape := [5], elemType := .dodsInt32, elemWidth := 4 } }
        (some { chunks := some (oneChunkElement "2" "100" "8" "[2]") }) = .ok loaded ∧
      Covers [shortDim] 4 (oneChunkRead 2 100 8 2).chunks loaded.common.chunks := by
  have hstored : Stored [shortDim] (oneChunkRead 2 100 8 2).chunks := by
    refine ⟨by decide, ?_⟩
    intro chunk hmem
    rw [mem_singleton.mp hmem]
    exact .cons (by decide) .nil
  obtain ⟨loaded, hload, hcover⟩ := loadChunks_covers_iff versionedReader
    { array := some { shape := [5], elemType := .dodsInt32, elemWidth := 4 } }
    { shape := [5], elemType := .dodsInt32, elemWidth := 4 }
    (oneChunkElement "2" "100" "8" "[2]") [shortDim] (oneChunkRead 2 100 8 2)
    rfl rfl rfl (by simp) (by rfl) rfl hstored
  exact ⟨loaded, hload, hcover.mpr (.inr (by decide +kernel))⟩

def longDim : GridDim where
  arraySize := 16777217
  chunkSize := 16777216
  array_pos := by decide
  chunk_pos := by decide
  fits k h := by
    rw [Nat.succ_mul]
    exact lt_trans (Nat.add_lt_add_right h _) (by decide)

/-- The stored chunk counts as the only one, so the second origin has no chunk. -/
theorem loadChunks_long_not_covers : ¬ ∃ loaded, loadChunks versionedReader
        { array := some { shape := [16777217], elemType := .dodsByte, elemWidth := 1 } }
        (some { chunks := some (oneChunkElement "16777216" "4096" "16777216" "[0]") }) =
          .ok loaded ∧
      Covers [longDim] 1 (oneChunkRead 16777216 4096 16777216 0).chunks loaded.common.chunks := by
  rintro ⟨loaded, hload, hcover⟩
  have hstored : Stored [longDim] (oneChunkRead 16777216 4096 16777216 0).chunks := by
    refine ⟨by decide, ?_⟩
    intro chunk hmem
    rw [mem_singleton.mp hmem]
    exact .cons (by decide) .nil
  rw [loadChunks_grid { shape := [16777217], elemType := .dodsByte, elemWidth := 1 } [longDim]
    (oneChunkRead 16777216 4096 16777216 0) rfl rfl rfl (by simp) (by rfl) rfl] at hload
  cases hload
  exact absurd ((covers_completed_iff hstored).mp hcover) (by decide +kernel)

end Bes.Dmrpp.LoadChunks
