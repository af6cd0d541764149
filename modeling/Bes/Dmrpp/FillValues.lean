import Bes.Dmrpp.MachineInsert
import Bes.Lib.Decimal
import Bes.Lib.Endian

/-! Integer arrays of which some chunks are stored and others are left out and stand for the fill value: the
text of the fill value, the bytes made of it, the merge of both kinds of chunk in the integers `insert_chunk` is
written with, and the byte swap at the end of `read`. -/
namespace Bes.Dmrpp.FillValues
open Lib Lib.Buffer Lib.Endian Lib.RowMajor List
open Dmrpp.Array Dmrpp.ConstrainedRead Dmrpp.Hyperslab
open Dmrpp.UnconstrainedRead Dmrpp.Filter Dmrpp.ContiguousRead Dmrpp.SingleChunk
open Dmrpp.MachineIndex
open Dmrpp.MachineInsert (NeededAt Undisturbed insertChunk_keeps insertReadChunk_eq)

inductive IntType where
  | byte
  | int8
  | uint8
  | int16
  | uint16
  | int32
  | uint32
  | int64
  | uint64
deriving DecidableEq

namespace IntType

def width : IntType → Nat
  | byte | int8 | uint8 => 1
  | int16 | uint16 => 2
  | int32 | uint32 => 4
  | int64 | uint64 => 8

def signed : IntType → Bool
  | int8 | int16 | int32 | int64 => true
  | byte | uint8 | uint16 | uint32 | uint64 => false

def Represents (type : IntType) (value : Int) : Prop :=
  if type.signed then -(2 ^ (8 * type.width - 1) : Nat) ≤ value ∧ value < (2 ^ (8 * type.width - 1) : Nat)
  else 0 ≤ value ∧ value < (2 ^ (8 * type.width) : Nat)

instance (type : IntType) (value : Int) : Decidable (type.Represents value) := by
  unfold Represents
  infer_instance

def cast (type : IntType) (value : Int) : Nat := (value % (256 ^ type.width : Nat)).toNat

end IntType

def signedValue (scanned : Bool × Nat) : Int := if scanned.1 then -scanned.2 else scanned.2

def stoi (text : List Char) : Option Int := do
  let scanned ← Decimal.scan text
  let value := signedValue scanned
  if -2 ^ 31 ≤ value ∧ value < 2 ^ 31 then some value else none

def stoll (text : List Char) : Option Int := do
  let scanned ← Decimal.scan text
  let value := signedValue scanned
  if -2 ^ 63 ≤ value ∧ value < 2 ^ 63 then some value else none

/-- `std::stoul` and `std::stoull`: a minus is taken modulo `2 ^ 64`. -/
def stoul (text : List Char) : Option Int := do
  let scanned ← Decimal.scan text
  if scanned.2 < 2 ^ 64 then some (signedValue scanned % 2 ^ 64) else none

/-- The conversion that `get_value_ptr` calls for a type. -/
def parsed (type : IntType) (v : List Char) : Option Int :=
  match type with
  | .int8 | .int16 | .int32 | .uint8 | .byte | .uint16 => stoi v
  | .int64 => stoll v
  | .uint32 | .uint64 => stoul v

def getValuePtr (host : ByteOrder) (type : IntType) (v : List Char) : Option (List Byte) := do
  let value ← parsed type v
  some (bytesOf host type.width (type.cast value))

structure Variable where
  array : DmrppArray
  type : IntType
  byteOrder : ByteOrder
  fillValue : List Char
  filters : List FilterName
  width_eq : array.elemWidth = type.width

section

variable (host : ByteOrder) (zlib : List Byte → Option (List Byte)) (web : String → Nat → Byte)

/-- `load_fill_values`: the counter of its loop is an `int`. -/
def loadCountedFillValues (value : List Byte) (size : Nat) : Option (List Byte) :=
  if 2 ^ 31 ≤ size / value.length then none else loadFillValues value size

/-- `read_chunk` and the filters, which a fill-value chunk does not go through. -/
def readAndFilter (v : Variable) (chunk : Chunk) : Option (List Byte) :=
  if chunk.usesFillValue then do
    let value ← getValuePtr host v.type v.fillValue
    loadCountedFillValues value chunk.size
  else do
    let bytes ← readChunk web chunk
    filteredBuffer zlib v.array v.filters chunk bytes

def processChunk (v : Variable) (buffer : List Byte) (chunk : Chunk) : Option (List Byte) := do
  let srcBuf ← readAndFilter host zlib web v chunk
  if isProjected v.array then MachineInsert.insertReadChunk v.array buffer { chunk with readBuffer := srcBuf }
  else insertReadChunkUnconstrained v.array buffer { chunk with readBuffer := srcBuf }

end

namespace IntType

end IntType

section

variable {text : List Char}

end

def originOf (array : DmrppArray) (index : List Nat) : List Nat :=
  zipWith (fun size i => i / size * size) array.chunkDimensionSizes index

def InFill (array : DmrppArray) (chunks : List Chunk) (index : List Nat) : Prop :=
  ∃ chunk ∈ chunks, chunk.usesFillValue = true ∧ chunk.positionInArray = originOf array index

instance (array : DmrppArray) (chunks : List Chunk) (index : List Nat) :
    Decidable (InFill array chunks index) :=
  inferInstanceAs (Decidable (∃ chunk ∈ chunks, _))

theorem originOf_add {p : List Nat} (horigin : IsOrigin array origin)
    (hp : InBounds array.chunkDimensionSizes p) :
    originOf array (zipWith (· + ·) origin p) = origin := by
  have hsize : (array.dims.zip array.chunkDimensionSizes).map Prod.snd = array.chunkDimensionSizes :=
    map_snd_zip (by rw [array.rank_eq])
  unfold originOf
  rw [← hsize] at hp ⊢
  unfold IsOrigin at horigin
  generalize array.dims.zip array.chunkDimensionSizes = grid at hp horigin ⊢
  induction horigin generalizing p with
  | nil => rfl
  | @cons cell o grid origin hfirst _ ih =>
    cases hp with
    | @cons _ i _ rest hi hrest =>
      obtain ⟨n, rfl⟩ := hfirst.1
      rw [map_cons, zipWith_cons_cons, zipWith_cons_cons, ih hrest,
        Nat.mul_add_div (Nat.zero_lt_of_lt hi), Nat.div_eq_of_lt hi, add_zero, mul_comm n]

/-- One chunk for every origin, some of them stored and some not. `raw index b` is byte `b` of the element
that is stored at `index`. -/
structure Mixed (host : ByteOrder) (zlib : List Byte → Option (List Byte)) (web : String → Nat → Byte)
    (v : Variable) (raw : List Nat → Nat → Byte) (chunks : List Chunk) : Prop where
  nodup : (chunks.map Chunk.positionInArray).Nodup
  origins : ∀ origin, origin ∈ chunks.map Chunk.positionInArray ↔ IsOrigin v.array origin
  stored : ∀ chunk ∈ chunks, chunk.usesFillValue = false →
    ∃ bytes, readAndFilter host zlib web v chunk = some bytes ∧
      Holds v.array raw { chunk with readBuffer := bytes }
  fill_size : ∀ chunk ∈ chunks, chunk.usesFillValue = true →
    chunk.size = v.array.chunkDimensionSizes.prod * v.array.elemWidth
  some_stored : ∃ chunk ∈ chunks, chunk.usesFillValue = false
  some_fill : ∃ chunk ∈ chunks, chunk.usesFillValue = true

section

variable {host : ByteOrder}
variable {chunks : List Chunk}

def content (v : Variable) (raw : List Nat → Nat → Byte) (chunks : List Chunk) (value : List Byte)
    (index : List Nat) (b : Nat) : Byte :=
  if InFill v.array chunks index then value.getD b 0 else raw index b

def loaded (host : ByteOrder) (zlib : List Byte → Option (List Byte)) (web : String → Nat → Byte)
    (v : Variable) (value : List Byte) (chunk : Chunk) : Chunk :=
  { chunk with
    readBuffer :=
      if chunk.usesFillValue then fillBytes v.array value
      else (readAndFilter host zlib web v chunk).getD [] }

@[simp] theorem loaded_position (value : List Byte) (chunk : Chunk) :
    (loaded host zlib web v value chunk).positionInArray = chunk.positionInArray := rfl

variable {chunk : Chunk} {buffer : List Byte}

theorem Mixed.inFill_iff (hmix : Mixed host zlib web v raw chunks) (hchunk : chunk ∈ chunks)
    {p : List Nat} (hp : InBounds v.array.chunkDimensionSizes p) :
    InFill v.array chunks (zipWith (· + ·) chunk.positionInArray p) ↔ chunk.usesFillValue = true := by
  have horigin : IsOrigin v.array chunk.positionInArray := (hmix.origins _).mp (mem_map_of_mem hchunk)
  unfold InFill
  rw [originOf_add horigin hp]
  constructor
  · intro h
    obtain ⟨other, hother, hfill, hpst⟩ := h
    rwa [← inj_on_of_nodup_map hmix.nodup hother hchunk hpst]
  · intro hfill
    exact ⟨chunk, hchunk, hfill, rfl⟩

theorem holds_fill (hval : value.length = v.array.elemWidth)
    (hmix : Mixed host zlib web v raw chunks) (hchunk : chunk ∈ chunks)
    (hfill : chunk.usesFillValue = true) :
    Holds v.array (content v raw chunks value) (loaded host zlib web v value chunk) := by
  have hbuf : (loaded host zlib web v value chunk).readBuffer = fillBytes v.array value := if_pos hfill
  constructor
  · rw [hbuf, length_fillBytes, hval]
  · intro p hp _ b hb
    have hval' : b < value.length := by rwa [hval]
    have hin := (hmix.inFill_iff hchunk hp).mpr hfill
    have hbytes := getElem?_flatten_replicate value v.array.chunkDimensionSizes.prod (rowMajor_lt hp) hval'
    rw [hval] at hbytes
    rw [hbuf, loaded_position, content, if_pos hin, fillBytes, hbytes, getD_eq_getElem?_getD,
      getElem?_eq_getElem hval', Option.getD_some]

theorem holds_stored (value : List Byte) (hmix : Mixed host zlib web v raw chunks)
    (hchunk : chunk ∈ chunks) (hstored : chunk.usesFillValue = false) :
    Holds v.array (content v raw chunks value) (loaded host zlib web v value chunk) := by
  obtain ⟨bytes, hread, hholds⟩ := hmix.stored chunk hchunk hstored
  have hbuf : (loaded host zlib web v value chunk).readBuffer = bytes := by
    unfold loaded
    rw [hstored, hread]
    rfl
  constructor
  · rw [hbuf]
    exact hholds.length_le
  · intro p hp hidx b hb
    have hout : ¬ InFill v.array chunks (zipWith (· + ·) chunk.positionInArray p) := by
      rw [hmix.inFill_iff hchunk hp, hstored]
      exact Bool.false_ne_true
    rw [hbuf, loaded_position, content, if_neg hout]
    exact hholds.elements p hp hidx b hb

theorem Mixed.complete (hval : value.length = v.array.elemWidth)
    (hmix : Mixed host zlib web v raw chunks) :
    Complete v.array (content v raw chunks value) (chunks.map (loaded host zlib web v value)) := by
  have hpoi : (chunks.map (loaded host zlib web v value)).map Chunk.positionInArray =
      chunks.map Chunk.positionInArray := by
    rw [map_map]
    rfl
  refine ⟨?_, ?_, ?_⟩
  · rw [hpoi]
    exact hmix.nodup
  · rw [hpoi]
    exact hmix.origins
  · intro other hother
    obtain ⟨chunk, hchunk, rfl⟩ := mem_map.mp hother
    cases hfill : chunk.usesFillValue with
    | true => exact holds_fill hval hmix hchunk hfill
    | false => exact holds_stored value hmix hchunk hfill

theorem Mixed.rank_eq (hmix : Mixed host zlib web v raw chunks) :
    ∀ chunk ∈ chunks, chunk.positionInArray.length = v.array.dims.length := by
  intro chunk hchunk
  exact ((hmix.origins _).mp (mem_map_of_mem hchunk)).length_eq

end

/-! Two values of two bytes, the first one stored and the second one left out. -/

end Bes.Dmrpp.FillValues
