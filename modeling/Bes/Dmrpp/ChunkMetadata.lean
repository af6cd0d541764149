import Bes.Dispatch.Util
import Bes.Lib.Decimal

/-! The chunk metadata of one variable, `DmrppCommon`, with the readers of the
texts a DMR++ document holds and the writer of the `dmrpp:chunks` element. The
XML library is taken as faithful: an element is its name, its attributes in
document order, its text and its children. -/
namespace Bes.Dmrpp.ChunkMetadata
open Lib Dispatch

abbrev Text := List Char

/-- What a reader can throw; `std::invalid_argument` and `std::out_of_range` come
from the number conversions. -/
inductive Exn where
  | internalError (message : String)
  | invalidArgument
  | outOfRange
  | runtimeError (message : String)
deriving DecidableEq

inductive DapType where
  | dodsNull | dodsByte | dodsInt16 | dodsUint16 | dodsInt32 | dodsUint32 | dodsFloat32
  | dodsFloat64 | dodsStr | dodsUrl | dodsStructure | dodsArray | dodsSequence | dodsGrid
  | dodsChar | dodsInt8 | dodsUint8 | dodsInt64 | dodsUint64 | dodsEnum | dodsOpaque | dodsGroup
deriving DecidableEq

/-- The part of `http::url` that a chunk's location is made of. -/
structure DataUrl where
  source : Text
  trusted : Bool
deriving DecidableEq

structure ChunkRef where
  dataUrl : Option DataUrl := none
  byteOrder : Text := []
  fillValue : Text := []
  fillValueType : DapType := .dodsNull
  usesFillValue : Bool := false
  size : UInt64 := 0
  offset : UInt64 := 0
  positionInArray : List UInt64 := []
deriving DecidableEq

structure DmrppCommon where
  compact : Bool := false
  filters : Text := []
  byteOrder : Text := []
  chunkDimensionSizes : List UInt64 := []
  chunks : List ChunkRef := []
  twiddleBytes : Bool := false
  chunksLoaded : Bool := false
  usesFillValue : Bool := false
  fillValueStr : Text := []
  fillValueType : DapType := .dodsNull
deriving DecidableEq

structure XmlElement where
  name : String
  attributes : List (String × Text) := []
  value : Text := []
deriving DecidableEq

structure ChunksElement where
  attributes : List (String × Text)
  children : List XmlElement
deriving DecidableEq

def stoull (text : Text) : Except Exn UInt64 :=
  match Decimal.scan text with
  | none => .error .invalidArgument
  | some (negative, value) =>
      if 2 ^ 64 ≤ value then .error .outOfRange
      else .ok (if negative then -UInt64.ofNat value else UInt64.ofNat value)

/-- `strtol` saturates, and a text without a number is zero; the result is stored
in an unsigned field. -/
def strtol (text : Text) : UInt64 :=
  match Decimal.scan text with
  | none => 0
  | some (negative, value) =>
      if negative then -UInt64.ofNat (min value (2 ^ 63))
      else UInt64.ofNat (min value (2 ^ 63 - 1))

def streamed (value : UInt64) : Text := Decimal.digits value.toNat

/-- What `ostream_iterator<unsigned int>` writes: the low half of the number. -/
def narrowed (value : UInt64) : Nat := value.toNat % 2 ^ 32

theorem stoull_digits (hn : n < 2 ^ 64) : stoull (Decimal.digits n) = .ok (UInt64.ofNat n) := by
  unfold stoull
  rw [Decimal.scan_digits]
  simp only [if_neg (not_le.mpr hn), Bool.false_eq_true, if_false]

@[simp] theorem stoull_streamed (value : UInt64) : stoull (streamed value) = .ok value := by
  unfold streamed
  rw [stoull_digits value.toNat_lt, UInt64.ofNat_toNat]

def lowHalf (value : UInt64) : UInt64 := UInt64.ofNat (narrowed value)

theorem narrowed_lt (value : UInt64) : narrowed value < 2 ^ 32 := Nat.mod_lt _ (by decide)

theorem strtol_digits_narrowed (value : UInt64) :
    strtol (Decimal.digits (narrowed value)) = lowHalf value := by
  have hlt := narrowed_lt value
  unfold strtol
  rw [Decimal.scan_digits]
  simp only [Bool.false_eq_true, if_false]
  rw [Nat.min_eq_left (by omega), lowHalf]

theorem stoull_digits_narrowed (value : UInt64) :
    stoull (Decimal.digits (narrowed value)) = .ok (lowHalf value) :=
  stoull_digits (lt_trans (narrowed_lt value) (by decide))

theorem lowHalf_eq_iff (value : UInt64) : lowHalf value = value ↔ value.toNat < 2 ^ 32 := by
  have hlt := narrowed_lt value
  unfold lowHalf
  rw [← UInt64.toNat_inj, UInt64.toNat_ofNat_of_lt' (lt_trans hlt (by decide))]
  constructor
  · intro heq
    rwa [heq] at hlt
  · exact Nat.mod_eq_of_lt

def originalFilterOrder (value : Text) : Text :=
  removeLeadingAndTrailingBlanks ((if "shuffle".toList <:+: value then " shuffle".toList else []) ++
      (if "deflate".toList <:+: value then " deflate".toList else []) ++
      (if "fletcher32".toList <:+: value then " fletcher32".toList else []))

def setFilter (emulateOriginalFilterOrder : Bool) (dc : DmrppCommon) (value : Text) :
    DmrppCommon :=
  { dc with filters := if emulateOriginalFilterOrder then originalFilterOrder value else value }

def ingestByteOrder (hostBigEndian : Bool) (dc : DmrppCommon) (byteOrderString : Text) :
    Except Exn DmrppCommon :=
  if byteOrderString = [] then .ok dc
  else if byteOrderString = "LE".toList then
    .ok { dc with byteOrder := "LE".toList, twiddleBytes := hostBigEndian }
  else if byteOrderString = "BE".toList then
    .ok { dc with byteOrder := "BE".toList, twiddleBytes := !hostBigEndian }
  else .error (.internalError "Did not recognize byteOrder.")

def parseChunkDimensionSizes (dc : DmrppCommon) (chunkDims : Text) : Except Exn DmrppCommon :=
  if chunkDims = [] then .ok { dc with chunkDimensionSizes := [] }
  else if chunkDims.any fun c => !(c.isDigit || c = ' ') then
    .error (.internalError "while processing chunk dimension information, illegal character(s)")
  else .ok { dc with chunkDimensionSizes := (chunkDims.splitOn ' ').map strtol }

def splitByComma (s : Text) : Except Exn (List UInt64) := (s.splitOn ',').mapM stoull

/-- `Chunk::parse_chunk_position_in_array_string`. A number out of range is not
caught. -/
def parseChunkPositionInArrayString (pia : Text) : Except Exn (List UInt64) :=
  if pia = [] then .ok []
  else if '[' ∉ pia ∨ ']' ∉ pia ∨ pia.length < 3 then
    .error (.internalError "while parsing a DMR++, chunk position string malformed")
  else if pia.any fun c => !(c = '[' || c = ']' || c.isDigit || c = ',') then
    .error (.internalError "while parsing a DMR++, chunk position string illegal character(s)")
  else
    match splitByComma ((pia.drop 1).take (pia.length - 2)) with
    | .error .invalidArgument => .error (.internalError
        "while parsing a DMR++, chunk position string illegal character(s): stoull")
    | result => result

def addChunk (dc : DmrppCommon) (dataUrl : Option DataUrl) (byteOrder : Text)
    (size offset : UInt64) (positionInArray : List UInt64) : DmrppCommon :=
  { dc with chunks := dc.chunks ++
      [{ dataUrl, byteOrder, size, offset, positionInArray }] }

/-- `add_chunk` for a chunk that holds only fill values. -/
def addFillValueChunk (dc : DmrppCommon) (byteOrder fillValue : Text) (fvType : DapType)
    (chunkSize : UInt64) (positionInArray : List UInt64) : DmrppCommon :=
  { dc with chunks := dc.chunks ++
      [{ byteOrder, fillValue, fillValueType := fvType, usesFillValue := true,
         size := chunkSize, positionInArray }] }

def printPosition (pia : List UInt64) : Text :=
  '[' :: Decimal.joined ',' (pia.map narrowed) ++ [']']

/-- One `dmrpp:chunk` element. Nothing of it tells a fill-value chunk apart. -/
def printChunk (chunk : ChunkRef) : XmlElement where
  name := "dmrpp:chunk"
  attributes :=
    [("offset", streamed chunk.offset), ("nBytes", streamed chunk.size)] ++
      if chunk.positionInArray ≠ [] then
        [("chunkPositionInArray", printPosition chunk.positionInArray)]
      else []

/-- The `byteOrder` attribute is that of the first chunk. -/
def firstByteOrder (dc : DmrppCommon) : Text :=
  match dc.chunks with
  | [] => []
  | firstChunk :: _ => firstChunk.byteOrder

def printChunksElement (dc : DmrppCommon) : ChunksElement where
  attributes :=
    (if dc.filters ≠ [] then [("compressionType", dc.filters)] else []) ++
      (if dc.usesFillValue ∧ dc.fillValueStr ≠ [] then [("fillValue", dc.fillValueStr)]
        else []) ++
      (if firstByteOrder dc ≠ [] then [("byteOrder", firstByteOrder dc)] else [])
  children :=
    (if dc.chunkDimensionSizes ≠ [] then
        [{ name := "dmrpp:chunkDimensionSizes",
           value := Decimal.joined ' ' (dc.chunkDimensionSizes.map narrowed) }]
      else []) ++
      dc.chunks.map printChunk

end Bes.Dmrpp.ChunkMetadata
