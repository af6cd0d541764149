import Bes.Dmrpp.Fletcher
import Bes.Dmrpp.Unshuffle

/-! What `Chunk::filter_chunk` makes of a chunk that went through HDF5's storage
filters. The way there is HDF5's and zlib's: `Zlib` is what is documented of the
compressor. -/
namespace Bes.Dmrpp.FilterPipeline
open Lib.Buffer List
open Dmrpp.Array Dmrpp.Filter Dmrpp.Unshuffle

theorem checksumFletcher32_some (hne : data ≠ []) : ∃ sum, checksumFletcher32 data = some sum := by
  obtain ⟨_, _, -, hblock, -⟩ :=
    @Fletcher.Sums.checkedBlocks [] 0 0 (data.length / 2) (data.length / 2) le_rfl .zero data (by omega)
  exact ⟨_, Fletcher.checksumFletcher32_eq hne hblock⟩

def checksumBytes (sum : UInt32) : List Byte :=
  [sum.toUInt8, (sum >>> 8).toUInt8, (sum >>> 16).toUInt8, (sum >>> 24).toUInt8]

private theorem setWidth_parts (x : BitVec 32) :
    (x.setWidth 8).setWidth 32 ||| (((x >>> 8).setWidth 8).setWidth 32 <<< 8) |||
      (((x >>> 16).setWidth 8).setWidth 32 <<< 16) |||
      (((x >>> 24).setWidth 8).setWidth 32 <<< 24) = x := by
  apply BitVec.eq_of_getLsbD_eq
  intro i hi
  simp only [BitVec.getLsbD_or, BitVec.getLsbD_setWidth, BitVec.getLsbD_shiftLeft,
    BitVec.getLsbD_ushiftRight]
  -- each bit comes from one of the four bytes
  by_cases hfirst : i < 8
  · grind
  by_cases hsecond : i < 16
  · grind
  by_cases hthi : i < 24
  · grind
  · grind

theorem readUInt32_checksumBytes (sum : UInt32) : readUInt32 (checksumBytes sum) = some sum := by
  apply congrArg some
  apply UInt32.toBitVec_inj.mp
  exact setWidth_parts sum.toBitVec

/-- What is documented of zlib: a stream is undone, a stream that is cut short is not
accepted, and no stream is empty. -/
structure Zlib where
  compress : List Byte → List Byte
  uncompress : List Byte → Option (List Byte)
  uncompress_compress : ∀ bytes, uncompress (compress bytes) = some bytes
  uncompress_cut : ∀ bytes n, n < (compress bytes).length →
    uncompress ((compress bytes).take n) = none
  compress_ne_nil : ∀ bytes, compress bytes ≠ []

inductive StorageFilter where
  | deflate
  | shuffle
  | fletcher32
deriving DecidableEq

def StorageFilter.name : StorageFilter → FilterName
  | .deflate => .deflate
  | .shuffle => .shuffle
  | .fletcher32 => .fletcher32

def encodeStage (z : Zlib) (width : Nat) (bytes : List Byte) : StorageFilter → List Byte
  | .deflate => z.compress bytes
  | .shuffle => shuffle width bytes
  | .fletcher32 => bytes ++ checksumBytes ((checksumFletcher32 bytes).getD 0)

def encode (z : Zlib) (width : Nat) (filters : List StorageFilter) (raw : List Byte) : List Byte :=
  filters.foldl (encodeStage z width) raw

def undo (z : Zlib) (count width : Nat) (filters : List StorageFilter) (data : ChunkData) :
    Option ChunkData :=
  (filters.map StorageFilter.name).reverse.foldlM
    (applyFilter z.uncompress (count * width) width) data

variable {z : Zlib} {count width : Nat} {filters : List StorageFilter}

@[simp] theorem encode_concat (f : StorageFilter) :
    encode z width (filters ++ [f]) raw = encodeStage z width (encode z width filters raw) f := by
  simp [encode]

@[simp] theorem undo_concat (f : StorageFilter) (data : ChunkData) :
    undo z count width (filters ++ [f]) data =
      (applyFilter z.uncompress (count * width) width data f.name).bind
        (undo z count width filters) := by
  simp only [undo, map_append, map_cons, map_nil, reverse_append,
    reverse_cons, reverse_nil, nil_append, singleton_append,
    foldlM_cons]
  rfl

theorem encode_ne_nil (hraw : raw ≠ []) : encode z width filters raw ≠ [] := by
  induction filters using reverseRecOn with
  | nil => exact hraw
  | append_singleton filters f ih =>
    rw [encode_concat]
    cases f with
    | deflate => exact z.compress_ne_nil _
    | shuffle =>
      intro hnil
      have hlen := length_shuffle width (encode z width filters raw)
      rw [encodeStage] at hnil
      rw [hnil, length_nil] at hlen
      exact ih (eq_nil_of_length_eq_zero hlen.symm)
    | fletcher32 => simp [encodeStage, checksumBytes]

structure Whole (bytes : List Byte) (data : ChunkData) : Prop where
  size : data.readBufferSize = bytes.length
  content : data.readBuffer.take data.readBufferSize = bytes

structure Part (full : Nat) (bytes : List Byte) (data : ChunkData) : Prop where
  size : data.readBufferSize = full
  content : data.readBuffer = bytes
  short : bytes.length < full
  counted : bytes.length ≤ full % 2 ^ 32

theorem inflate_compress (before : List Byte) (hsource : srcLen ≠ 0) (hdst : destLen ≠ 0) :
    inflate z.uncompress destLen (z.compress before) srcLen =
      if (z.compress before).length ≤ srcLen % 2 ^ 32 ∧ before.length ≤ destLen % 2 ^ 32 then
        some before else none := by
  unfold inflate
  rw [if_neg (by omega)]
  generalize srcLen % 2 ^ 32 = availIn
  by_cases hall : (z.compress before).length ≤ availIn
  · simp [take_of_length_le hall, z.uncompress_compress, hall]
  · simp [z.uncompress_cut before availIn (not_le.mp hall), hall]

theorem applyFilter_deflate (hfill : count * width ≠ 0)
    (htake : data.readBuffer.take data.readBufferSize = z.compress before)
    (hsize : data.readBufferSize ≠ 0) :
    applyFilter z.uncompress (count * width) width data .deflate =
      if (z.compress before).length ≤ data.readBufferSize % 2 ^ 32 ∧
          before.length ≤ count * width % 2 ^ 32 then
        some { data with readBuffer := before, readBufferSize := count * width }
      else none := by
  rw [applyFilter, htake, inflate_compress before hsize hfill]
  split <;> rfl

theorem applyFilter_shuffle_whole (hwidth : 0 < width) {before : List Byte} {data : ChunkData}
    (hwhole : Whole (shuffle width before) data) :
    applyFilter z.uncompress (count * width) width data .shuffle =
      if width < 2 ^ 32 ∨ before.length / width < 2 then
        some { data with readBuffer := before }
      else none := by
  have hund : unshuffle (data.readBuffer.take data.readBufferSize) data.readBufferSize width =
      if width < 2 ^ 32 ∨ before.length / width < 2 then some before else none := by
    rw [hwhole.content, hwhole.size, length_shuffle]
    exact unshuffle_shuffle hwidth before
  rw [applyFilter, hund]
  split <;> rfl

theorem applyFilter_fletcher32_whole {before : List Byte} {data : ChunkData} (hne : before ≠ [])
    (hwhole : Whole (before ++ checksumBytes ((checksumFletcher32 before).getD 0)) data) :
    applyFilter z.uncompress (count * width) width data .fletcher32 =
      some { data with readBufferSize := before.length } := by
  obtain ⟨sum, hsum⟩ := checksumFletcher32_some hne
  have hpos : 0 < before.length := length_pos_iff.mpr hne
  have hsize : data.readBufferSize = before.length + 4 := by
    rw [hwhole.size, length_append]
    rfl
  have hlng : data.readBufferSize ≤ data.readBuffer.length := by
    have hlen := congrArg length hwhole.content
    rw [length_take, ← hwhole.size] at hlen
    omega
  have hrest : data.readBufferSize - fletcher32Size = before.length := by
    rw [hsize]
    rfl
  simp only [applyFilter, checkFletcher32, ChunkData.recorded, if_pos hlng, hwhole.content, bind,
    Option.bind, hrest]
  rw [if_pos (by rw [hsize, fletcher32Size]; omega), drop_left, take_left,
    readUInt32_checksumBytes, hsum]
  simp

theorem applyFilter_shuffle_part {bytes : List Byte} {data : ChunkData} (hwidth : 0 < width)
    (hpart : Part (count * width) bytes data) :
    applyFilter z.uncompress (count * width) width data .shuffle =
      if width = 1 ∨ count = 1 then some data else none := by
  have hsho := hpart.short
  have hcnt : 0 < count := Nat.pos_of_ne_zero (by
    rintro rfl
    omega)
  have htake : data.readBuffer.take data.readBufferSize = data.readBuffer := by
    rw [hpart.size, hpart.content, take_of_length_le hsho.le]
  have hund : unshuffle data.readBuffer data.readBufferSize width =
      if width = 1 ∨ count = 1 then some data.readBuffer else none := by
    unfold unshuffle
    rw [if_neg (by omega), hpart.size, hpart.content, Nat.mul_div_cancel _ hwidth]
    by_cases hsti : width = 1 ∨ count = 1
    · rw [if_pos (by omega), if_pos hsti]
    · rw [if_neg (by omega), if_pos (.inl hsho), if_neg hsti]
  rw [applyFilter, htake, hund]
  split <;> rfl

theorem applyFilter_fletcher32_part (hpart : Part full bytes data) :
    applyFilter z.uncompress (count * width) width data .fletcher32 = none := by
  have hsho := hpart.short
  rw [applyFilter, checkFletcher32, ChunkData.recorded, hpart.size, hpart.content,
    if_neg (by omega)]
  rfl

def Restores (z : Zlib) (count width : Nat) (filters : List StorageFilter) (raw : List Byte)
    (data : ChunkData) : Prop :=
  ∃ final, undo z count width filters data = some final ∧ Whole raw final

/-- Whether a list, from its end, comes to a deflate before any filter that reads
the size on record; `still` says that shuffles move nothing. -/
def endsInDeflate (still : Bool) : List StorageFilter → Bool
  | .deflate :: _ => true
  | .shuffle :: before => still && endsInDeflate still before
  | _ => false

/-- What a filter needs of the data that the filters `pre` before it make. -/
def StageUndoable (z : Zlib) (count width : Nat) (raw : List Byte) (pre : List StorageFilter) :
    StorageFilter → Prop
  | .deflate =>
      (z.compress (encode z width pre raw)).length < 2 ^ 32 ∧
        (encode z width pre raw).length ≤ count * width % 2 ^ 32 ∧
        ((encode z width pre raw).length = count * width ∨
          endsInDeflate (width = 1 ∨ count = 1) pre.reverse)
  | .shuffle => width < 2 ^ 32 ∨ (encode z width pre raw).length / width < 2
  | .fletcher32 => True

def Undoable (z : Zlib) (count width : Nat) (raw : List Byte) (filters : List StorageFilter) :
    Prop :=
  ∀ pre f post, filters = pre ++ f :: post → StageUndoable z count width raw pre f

theorem undoable_concat (f : StorageFilter) : Undoable z count width raw (filters ++ [f]) ↔
      Undoable z count width raw filters ∧ StageUndoable z count width raw filters f := by
  constructor
  · intro hall
    refine ⟨?_, hall filters f [] rfl⟩
    intro pre g post hsplit
    exact hall pre g (post ++ [f]) (by rw [hsplit]; simp)
  · rintro ⟨hfil, hlast⟩ pre g post hsplit
    induction post using reverseRecOn with
    | nil =>
      obtain ⟨hpre, hg⟩ := append_inj' hsplit rfl
      rw [← hpre, ← singleton_injective hg]
      exact hlast
    | append_singleton post last _ =>
      rw [← cons_append, ← append_assoc] at hsplit
      exact hfil pre g post (append_inj' hsplit rfl).1

theorem restores_concat_some {f : StorageFilter} {data next : ChunkData}
    (hstep : applyFilter z.uncompress (count * width) width data f.name = some next) :
    Restores z count width (filters ++ [f]) raw data ↔ Restores z count width filters raw next := by
  simp [Restores, hstep]

theorem not_restores_concat_none {f : StorageFilter} {data : ChunkData}
    (hstep : applyFilter z.uncompress (count * width) width data f.name = none) :
    ¬ Restores z count width (filters ++ [f]) raw data := by
  simp [Restores, hstep]

structure UndoneWhen (z : Zlib) (count width : Nat) (raw : List Byte)
    (filters : List StorageFilter) : Prop where
  whole : ∀ data, Whole (encode z width filters raw) data →
    (Restores z count width filters raw data ↔ Undoable z count width raw filters)
  part : ∀ data, Part (count * width) (encode z width filters raw) data →
    (Restores z count width filters raw data ↔ Undoable z count width raw filters ∧
        endsInDeflate (width = 1 ∨ count = 1) filters.reverse)

theorem UndoneWhen.deflate (ih : UndoneWhen z count width raw filters)
    (hfill : count * width ≠ 0) {data : ChunkData}
    (htake : data.readBuffer.take data.readBufferSize = z.compress (encode z width filters raw))
    (hsize : data.readBufferSize ≠ 0)
    (hsen : (z.compress (encode z width filters raw)).length ≤ data.readBufferSize % 2 ^ 32 ↔
      (z.compress (encode z width filters raw)).length < 2 ^ 32) :
    Restores z count width (filters ++ [.deflate]) raw data ↔
      Undoable z count width raw (filters ++ [.deflate]) := by
  have hstep := applyFilter_deflate hfill htake hsize
  have hmod : count * width % 2 ^ 32 ≤ count * width := Nat.mod_le _ _
  rw [undoable_concat, StageUndoable, ← hsen]
  by_cases hrns : (z.compress (encode z width filters raw)).length ≤ data.readBufferSize % 2 ^ 32 ∧
      (encode z width filters raw).length ≤ count * width % 2 ^ 32
  · rw [if_pos hrns] at hstep
    rw [restores_concat_some hstep]
    by_cases hexa : (encode z width filters raw).length = count * width
    · rw [ih.whole _ ⟨hexa.symm, take_of_length_le hexa.le⟩]
      exact ⟨fun h => ⟨h, hrns.1, hrns.2, .inl hexa⟩, And.left⟩
    · rw [ih.part _ ⟨rfl, rfl, lt_of_le_of_ne (hrns.2.trans hmod) hexa, hrns.2⟩]
      exact ⟨fun h => ⟨h.1, hrns.1, hrns.2, .inr h.2⟩, fun h => ⟨h.1, h.2.2.2.resolve_left hexa⟩⟩
  · rw [if_neg hrns] at hstep
    have hnot := @not_restores_concat_none z count width filters raw .deflate data hstep
    exact ⟨fun h => absurd h hnot, fun h => absurd ⟨h.2.1, h.2.2.1⟩ hrns⟩

theorem UndoneWhen.shuffle (ih : UndoneWhen z count width raw filters) (hwidth : 0 < width) :
    UndoneWhen z count width raw (filters ++ [.shuffle]) := by
  refine ⟨?_, ?_⟩
  · intro data hwhole
    rw [encode_concat, encodeStage] at hwhole
    have hstep := @applyFilter_shuffle_whole z count width hwidth _ data hwhole
    rw [undoable_concat, StageUndoable]
    by_cases hrns : width < 2 ^ 32 ∨ (encode z width filters raw).length / width < 2
    · rw [if_pos hrns] at hstep
      have hsize : data.readBufferSize = (encode z width filters raw).length := by
        rw [hwhole.size, length_shuffle]
      rw [restores_concat_some hstep, ih.whole
        { data with readBuffer := encode z width filters raw }
        ⟨hsize, take_of_length_le hsize.ge⟩]
      exact ⟨fun h => ⟨h, hrns⟩, And.left⟩
    · rw [if_neg hrns] at hstep
      have hnot := @not_restores_concat_none z count width filters raw .shuffle data hstep
      exact ⟨fun h => absurd h hnot, fun h => absurd h.2 hrns⟩
  · intro data hpart
    have hstep := @applyFilter_shuffle_part z count width _ data hwidth hpart
    rw [encode_concat, encodeStage] at hpart
    have hsho := hpart.short
    rw [length_shuffle] at hsho
    rw [undoable_concat, StageUndoable, reverse_append, reverse_singleton,
      singleton_append, endsInDeflate]
    by_cases hsti : width = 1 ∨ count = 1
    · -- a plain copy both ways: the width is one, or less than one element is there
      have hfew : width = 1 ∨ (encode z width filters raw).length / width = 0 := by
        rcases hsti with hone | hone
        · exact .inl hone
        · rw [hone, Nat.one_mul] at hsho
          exact .inr (Nat.div_eq_of_lt hsho)
      have hrns : width < 2 ^ 32 ∨ (encode z width filters raw).length / width < 2 := by omega
      have hsame : Unshuffle.shuffle width (encode z width filters raw) =
          encode z width filters raw := if_neg (by omega)
      rw [hsame] at hpart
      rw [if_pos hsti] at hstep
      rw [restores_concat_some hstep, ih.part data hpart, decide_eq_true hsti, Bool.true_and]
      exact ⟨fun h => ⟨⟨h.1, hrns⟩, h.2⟩, fun h => ⟨h.1.1, h.2⟩⟩
    · rw [if_neg hsti] at hstep
      have hnot := @not_restores_concat_none z count width filters raw .shuffle data hstep
      simp [hnot, hsti]

theorem undoneWhen (hwidth : 0 < width) (hraw : raw.length = count * width)
    (hfill : count * width ≠ 0) : UndoneWhen z count width raw filters := by
  induction filters using reverseRecOn with
  | nil =>
    refine ⟨?_, ?_⟩
    · intro data hwhole
      have hempty : Undoable z count width raw [] := by
        intro pre f post hsplit
        exact absurd hsplit (by simp)
      exact ⟨fun _ => hempty, fun _ => ⟨data, rfl, hwhole⟩⟩
    · intro data hpart
      have hsho := hpart.short
      rw [show encode z width [] raw = raw from rfl] at hsho
      omega
  | append_singleton filters f ih =>
    have hne : encode z width filters raw ≠ [] := encode_ne_nil (by
      rintro rfl
      exact hfill hraw.symm)
    cases f with
    | deflate =>
      have hpos : 0 < (z.compress (encode z width filters raw)).length :=
        length_pos_iff.mpr (z.compress_ne_nil _)
      refine ⟨?_, ?_⟩
      · intro data hwhole
        rw [encode_concat, encodeStage] at hwhole
        have hsize := hwhole.size
        apply ih.deflate hfill hwhole.content (by omega)
        omega
      · intro data hpart
        rw [encode_concat, encodeStage] at hpart
        have hsho := hpart.short
        have hcou := hpart.counted
        have hsize := hpart.size
        have htake : data.readBuffer.take data.readBufferSize =
            z.compress (encode z width filters raw) := by
          rw [hsize, hpart.content, take_of_length_le hsho.le]
        rw [reverse_append, reverse_singleton, singleton_append, endsInDeflate, and_iff_left rfl]
        apply ih.deflate hfill htake (by omega)
        omega
    | shuffle => exact ih.shuffle hwidth
    | fletcher32 =>
      refine ⟨?_, ?_⟩
      · intro data hwhole
        rw [encode_concat, encodeStage] at hwhole
        have hstep := @applyFilter_fletcher32_whole z count width _ data hne hwhole
        have hcnt : data.readBuffer.take (encode z width filters raw).length =
            encode z width filters raw := by
          have hlon := congrArg (take (encode z width filters raw).length) hwhole.content
          rw [take_take, take_left, hwhole.size, length_append, Nat.min_eq_left (by omega)] at hlon
          exact hlon
        rw [restores_concat_some hstep, ih.whole
          { data with readBufferSize := (encode z width filters raw).length }
          ⟨rfl, hcnt⟩, undoable_concat, StageUndoable, and_true]
      · intro data hpart
        have hnot := @not_restores_concat_none z count width filters raw .fletcher32 data
          (applyFilter_fletcher32_part hpart)
        simp [hnot, endsInDeflate]

/-- `filter_chunk` restores a stored chunk exactly when its filter list is undoable,
and a second call changes nothing. -/
theorem filterChunk_encode_iff (z : Zlib) (filters : List StorageFilter) (count width : Nat)
    (raw : List Byte) (hwidth : 0 < width) (hraw : raw.length = count * width)
    (hfull : 0 < raw.length) :
    (∃ data, filterChunk z.uncompress (filters.map StorageFilter.name) count width
          ⟨encode z width filters raw, (encode z width filters raw).length, false⟩ = some data ∧
        data.readBufferSize = count * width ∧
        data.readBuffer.take data.readBufferSize = raw ∧
        filterChunk z.uncompress (filters.map StorageFilter.name) count width data = some data) ↔
      Undoable z count width raw filters := by
  have hwhole : Whole (encode z width filters raw)
      ⟨encode z width filters raw, (encode z width filters raw).length, false⟩ :=
    ⟨rfl, take_length⟩
  rw [← (undoneWhen hwidth hraw (by omega)).whole _ hwhole]
  have hcall : filterChunk z.uncompress (filters.map StorageFilter.name) count width
      ⟨encode z width filters raw, (encode z width filters raw).length, false⟩ =
      (undo z count width filters
        ⟨encode z width filters raw, (encode z width filters raw).length, false⟩).map
        fun data => { data with isInflated := true } := by
    simp only [filterChunk, undo, Bool.false_eq_true, if_false, bind, Option.map_eq_bind]
    rfl
  rw [hcall]
  constructor
  · rintro ⟨data, hdata, hsize, hcont, _⟩
    obtain ⟨final, hfin, rfl⟩ := Option.map_eq_some_iff.mp hdata
    exact ⟨final, hfin, hsize.trans hraw.symm, hcont⟩
  · rintro ⟨final, hfin, hwhole⟩
    refine ⟨{ final with isInflated := true }, ?_, hwhole.size.trans hraw, hwhole.content, ?_⟩
    · rw [hfin]
      rfl
    · simp [filterChunk]

/-! A small compressor that has zlib's laws: a mark before every byte and another at
the end. -/

def markedCompress : List Byte → List Byte
  | [] => [0]
  | b :: rest => 1 :: b :: markedCompress rest

def markedUncompress : List Byte → Option (List Byte)
  | 0 :: _ => some []
  | 1 :: b :: rest => (markedUncompress rest).map (b :: ·)
  | _ => none

def markedZlib : Zlib where
  compress := markedCompress
  uncompress := markedUncompress
  uncompress_compress := by
    intro bytes
    induction bytes with
    | nil => rfl
    | cons b rest ih => simp [markedCompress, markedUncompress, ih]
  uncompress_cut := by
    intro bytes
    induction bytes with
    | nil =>
      intro n hn
      obtain rfl : n = 0 := by simpa [markedCompress] using hn
      rfl
    | cons b rest ih =>
      intro n hn
      match n with
      | 0 | 1 => rfl
      | n + 2 =>
        simp only [markedCompress, length_cons] at hn
        simp [markedCompress, markedUncompress, ih n (by omega)]
  compress_ne_nil := by
    intro bytes
    cases bytes <;> simp [markedCompress]

theorem filterChunk_encode_usual :
    ∃ data, filterChunk markedZlib.uncompress [.shuffle, .deflate, .fletcher32] 2 2
        ⟨encode markedZlib 2 [.shuffle, .deflate, .fletcher32] [1, 2, 3, 4],
          (encode markedZlib 2 [.shuffle, .deflate, .fletcher32] [1, 2, 3, 4]).length, false⟩ =
          some data ∧
      data.readBufferSize = 4 ∧ data.readBuffer.take data.readBufferSize = [1, 2, 3, 4] ∧
      filterChunk markedZlib.uncompress [.shuffle, .deflate, .fletcher32] 2 2 data = some data := by
  refine (filterChunk_encode_iff markedZlib [.shuffle, .deflate, .fletcher32] 2 2 [1, 2, 3, 4]
    (by decide) rfl (by decide)).mpr ?_
  rw [show [StorageFilter.shuffle, .deflate, .fletcher32] =
    (([] ++ [.shuffle]) ++ [.deflate]) ++ [.fletcher32] from rfl, undoable_concat,
    undoable_concat, undoable_concat]
  refine ⟨⟨⟨?_, ?_⟩, ?_⟩, trivial⟩
  · intro pre f post hsplit
    exact absurd hsplit (by simp)
  · exact .inl (by decide)
  · exact ⟨by decide, by decide, .inl rfl⟩

/-- The checksum is appended before the compression: zlib gives back four bytes more
than the block has room for. -/
theorem filterChunk_fletcher32_deflate :
    ¬ ∃ data, filterChunk markedZlib.uncompress [.fletcher32, .deflate] 1 1
        ⟨encode markedZlib 1 [.fletcher32, .deflate] [7],
          (encode markedZlib 1 [.fletcher32, .deflate] [7]).length, false⟩ = some data := by
  rintro ⟨data, hdata⟩
  have hfail : filterChunk markedZlib.uncompress [.fletcher32, .deflate] 1 1
      ⟨encode markedZlib 1 [.fletcher32, .deflate] [7],
        (encode markedZlib 1 [.fletcher32, .deflate] [7]).length, false⟩ = none := by
    decide +kernel
  cases hdata

end Bes.Dmrpp.FilterPipeline
