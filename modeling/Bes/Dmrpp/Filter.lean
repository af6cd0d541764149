import Bes.Dmrpp.Array
import Bes.Lib.Buffer

/-! The filters that a stored chunk went through, undone in reverse order.
Inflating is zlib's work and enters as a parameter: `zlib` gives the bytes of the
stream at the start of its input, or nothing when zlib reports an error. A thrown
error, a failed assertion and a read of memory that nobody set have no result. -/
namespace Bes.Dmrpp.Filter
open Lib.Buffer
open Dmrpp.Array

/-- The names that `filter_chunk` knows; it skips all others. -/
inductive FilterName
  | deflate
  | shuffle
  | fletcher32
  | unknown (name : String)
deriving DecidableEq

/-- `inflate` into a block of `destLen` bytes from one of `srcLen` bytes, of which
`src` have been set. `avail_in` and `avail_out` have 32 bits. A shorter stream
leaves the rest of the block unset; a longer one does not fit. -/
def inflate (zlib : List Byte → Option (List Byte)) (destLen : Nat) (src : List Byte)
    (srcLen : Nat) : Option (List Byte) := do
  if srcLen = 0 ∨ destLen = 0 then none
  let dest ← zlib (src.take (srcLen % 2 ^ 32))
  if dest.length ≤ destLen % 2 ^ 32 then some dest else none

/-- The destination block and the two pointers of the copy loops in `unshuffle`. -/
structure ShuffleState where
  dest : List Byte
  destIndex : Nat
  srcIndex : Nat

def duffGuts (src : List Byte) (width : Nat) (s : ShuffleState) : Option ShuffleState := do
  let dest ← memcpy s.dest s.destIndex src s.srcIndex 1
  some ⟨dest, s.destIndex + width, s.srcIndex + 1⟩

def duffPasses (elems : Nat) : List Nat :=
  (if elems % 8 = 0 then 8 else elems % 8) :: List.replicate ((elems + 7) / 8 - 1) 8

def unshuffleByte (src : List Byte) (width elems : Nat) (s : ShuffleState) (i : Nat) :
    Option ShuffleState :=
  (duffPasses elems).foldlM (fun s copies =>
    (List.range copies).foldlM (fun s _ => duffGuts src width s) s) { s with destIndex := i }

/-- The loops of `unshuffle` for a source that is set. The fresh destination is
written in full, so what it holds at first does not matter. -/
def unshuffleLoops (src : List Byte) (width : Nat) : Option (List Byte) := do
  let elems := src.length / width
  let fresh := List.replicate src.length 0
  let s ← (List.range width).foldlM (unshuffleByte src width elems) ⟨fresh, 0, 0⟩
  let leftover := src.length % width
  if leftover > 0 then
    memcpy s.dest (s.destIndex - (width - 1)) src s.srcIndex leftover
  else some s.dest

/-- `unshuffle` of a block of `srcSize` bytes, of which `src` have been set. A plain
copy moves a block as it is. The loop over the bytes of an element counts in an
`unsigned int`. -/
def unshuffle (src : List Byte) (srcSize width : Nat) : Option (List Byte) :=
  if width = 0 then none
  else if ¬ (width > 1 ∧ srcSize / width > 1) then some src
  else if src.length < srcSize ∨ 2 ^ 32 ≤ width then none
  else unshuffleLoops src width

def foldSum (sum : UInt32) : UInt32 := (sum &&& (0xffff : UInt32)) + (sum >>> 16)

/-- The inner loop over `tlen` words. -/
def fletcherWords : Nat → List Byte → UInt32 → UInt32 → Option (List Byte × UInt32 × UInt32)
  | 0, data, sum1, sum2 => some (data, sum1, sum2)
  | tlen + 1, high :: low :: data, sum1, sum2 =>
      let sum1 := sum1 + ((high.toUInt32 <<< 8) ||| low.toUInt32)
      fletcherWords tlen data sum1 (sum2 + sum1)
  | _ + 1, _, _, _ => none

/-- The outer loop over blocks of at most 360 words. The first number bounds the
rounds; every round takes at least one word. -/
def fletcherBlocks : Nat → Nat → List Byte → UInt32 → UInt32 → Option (List Byte × UInt32 × UInt32)
  | _, 0, data, sum1, sum2 => some (data, sum1, sum2)
  | 0, _ + 1, _, _, _ => none
  | rounds + 1, len + 1, data, sum1, sum2 => do
      let tlen := if len + 1 > 360 then 360 else len + 1
      let (data, sum1, sum2) ← fletcherWords tlen data sum1 sum2
      fletcherBlocks rounds (len + 1 - tlen) data (foldSum sum1) (foldSum sum2)

def checksumFletcher32 (data : List Byte) : Option UInt32 := do
  if data = [] then none
  let len := data.length / 2
  let (rest, sum1, sum2) ← fletcherBlocks len len data 0 0
  let (sum1, sum2) :=
    match rest with
    | last :: _ =>
        let sum1 := sum1 + (last.toUInt32 <<< 8)
        (foldSum sum1, foldSum (sum2 + sum1))
    | [] => (sum1, sum2)
  some ((foldSum sum2 <<< 16) ||| foldSum sum1)

/-- Four bytes read as a `uint32_t` of a little-endian host. -/
def readUInt32 : List Byte → Option UInt32
  | [b0, b1, b2, b3] =>
      some (b0.toUInt32 ||| (b1.toUInt32 <<< 8) ||| (b2.toUInt32 <<< 16) ||| (b3.toUInt32 <<< 24))
  | _ => none

/-- The part of a chunk that filtering works on. The block may be longer than
the size on record: dropping a checksum only lowers the size. -/
structure ChunkData where
  readBuffer : List Byte
  readBufferSize : Nat
  isInflated : Bool
deriving DecidableEq

def ChunkData.recorded (data : ChunkData) : Option (List Byte) :=
  if data.readBufferSize ≤ data.readBuffer.length then
    some (data.readBuffer.take data.readBufferSize)
  else none

def fletcher32Size : Nat := 4

def checkFletcher32 (data : ChunkData) : Option ChunkData := do
  let recorded ← data.recorded
  if data.readBufferSize > fletcher32Size then
    let size := data.readBufferSize - fletcher32Size
    let stored ← readUInt32 (recorded.drop size)
    let computed ← checksumFletcher32 (recorded.take size)
    if stored = computed then some { data with readBufferSize := size } else none
  else none

/-- One round of the loop in `filter_chunk`; `chunkSize` is in bytes. zlib stops
at the end of its stream, so it is handed what has been set. -/
def applyFilter (zlib : List Byte → Option (List Byte)) (chunkSize elemWidth : Nat)
    (data : ChunkData) : FilterName → Option ChunkData
  | .deflate => do
      let dest ← inflate zlib chunkSize (data.readBuffer.take data.readBufferSize)
        data.readBufferSize
      some { data with readBuffer := dest, readBufferSize := chunkSize }
  | .shuffle => do
      let dest ← unshuffle (data.readBuffer.take data.readBufferSize) data.readBufferSize elemWidth
      some { data with readBuffer := dest }
  | .fletcher32 => checkFletcher32 data
  | .unknown _ => some data

def filterChunk (zlib : List Byte → Option (List Byte)) (filters : List FilterName)
    (chunkSize elemWidth : Nat) (data : ChunkData) : Option ChunkData :=
  if data.isInflated then some data
  else do
    let data ← filters.reverse.foldlM (applyFilter zlib (chunkSize * elemWidth) elemWidth) data
    some { data with isInflated := true }

end Bes.Dmrpp.Filter
