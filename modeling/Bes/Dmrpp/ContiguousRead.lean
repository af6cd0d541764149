import Bes.Dmrpp.Filter
import Bes.Dmrpp.UnconstrainedRead

/-! Reading a variable that has a single chunk. `read` treats it as contiguous
storage: the chunk may be transferred in pieces, is filtered, and its bytes are
taken to be the array's in row-major order. The chunked path treats the same
chunk by its chunk shape. -/
namespace Bes.Dmrpp.ContiguousRead
open Lib.Buffer Lib.Loop Lib.RowMajor
open Dmrpp.Array Dmrpp.ConstrainedRead Dmrpp.Hyperslab
open Dmrpp.UnconstrainedRead Dmrpp.Filter

structure TransferConfig where
  useTransferThreads : Bool
  maxTransferThreads : Nat
  contiguousConcurrentThreshold : Nat
  threads_pos : 0 < maxTransferThreads

/-- Bytes `offset` to `offset + size` of a file. -/
def rangeBytes (file : Nat → Byte) (offset size : Nat) : List Byte :=
  (List.range size).map fun i => file (offset + i)

@[simp] theorem length_rangeBytes (file : Nat → Byte) (offset size : Nat) :
    (rangeBytes file offset size).length = size := by
  simp [rangeBytes]

theorem getElem?_rangeBytes (file : Nat → Byte) {i : Nat} (hi : i < size) :
    (rangeBytes file offset size)[i]? = some (file (offset + i)) := by
  simp [rangeBytes, hi]

def loadFillValues (value : List Byte) (size : Nat) : Option (List Byte) :=
  if value = [] then none
  else some (List.replicate (size / value.length) value).flatten

def readChunk (web : String → Nat → Byte) (chunk : Chunk) : Option (List Byte) :=
  if chunk.usesFillValue then loadFillValues chunk.fillValue chunk.size
  else do
    let url ← chunk.dataUrl
    some (rangeBytes (web url) chunk.offset chunk.size)

def megabyte : Nat := 1024 * 1024

def childChunks (theOneChunk : Chunk) (url : String) (numChunks : Nat) : List Chunk :=
  let chunkSize := theOneChunk.size / numChunks
  let chunkRemainder := theOneChunk.size % numChunks
  (List.range (numChunks - 1)).map (fun i =>
    { dataUrl := some url, size := chunkSize, offset := theOneChunk.offset + i * chunkSize }) ++
  [{ dataUrl := some url, size := chunkSize + chunkRemainder,
     offset := theOneChunk.offset + (numChunks - 1) * chunkSize }]

/-- `one_child_chunk_thread_new`: read a child and copy it to its place. -/
def readChildChunk (web : String → Nat → Byte) (theOneChunk : Chunk) (buffer : List Byte)
    (child : Chunk) : Option (List Byte) := do
  let bytes ← readChunk web child
  memcpy buffer (child.offset - theOneChunk.offset) bytes 0 bytes.length

def numChildChunks (config : TransferConfig) (size : Nat) : Nat :=
  if size / megabyte ≥ config.maxTransferThreads then config.maxTransferThreads
  else size / megabyte

/-- The chunk's bytes after `filter_chunk`, which is skipped for an empty list. -/
def filteredBuffer (zlib : List Byte → Option (List Byte)) (array : DmrppArray)
    (filters : List FilterName) (chunk : Chunk) (bytes : List Byte) : Option (List Byte) :=
  if filters = [] then some bytes
  else do
    let data ← filterChunk zlib filters array.chunkDimensionSizes.prod array.elemWidth
      ⟨bytes, chunk.size, false⟩
    some data.readBuffer

/-- The array's buffer and `*target_index`. -/
structure CopyState where
  targetIndex : Nat
  buffer : List Byte

def copyElement (width : Nat) (srcBuf : List Byte) (s : CopyState) (sourceIndex : Nat) :
    Option CopyState := do
  let buffer ← memcpy s.buffer (s.targetIndex * width) srcBuf (sourceIndex * width) width
  some ⟨s.targetIndex + 1, buffer⟩

def insertConstrainedContiguous (width : Nat) (arrayShape : List Nat) (srcBuf : List Byte) :
    List Dimension → List Nat → CopyState → Option CopyState
  | [], _, _ => none
  | [dim], subsetAddr, s =>
      if dim.stride = 1 then do
        let startIndex ← getIndex (subsetAddr ++ [dim.start]) arrayShape
        let stopIndex ← getIndex (subsetAddr ++ [dim.stop]) arrayShape
        (strided startIndex stopIndex 1).foldlM (copyElement width srcBuf) s
      else
        (strided dim.start dim.stop dim.stride).foldlM (fun s myDimIndex => do
          let sourceIndex ← getIndex (subsetAddr ++ [myDimIndex]) arrayShape
          copyElement width srcBuf s sourceIndex) s
  | dim :: next :: rest, subsetAddr, s =>
      (strided dim.start dim.stop dim.stride).foldlM (fun s myDimIndex =>
        insertConstrainedContiguous width arrayShape srcBuf (next :: rest)
          (subsetAddr ++ [myDimIndex]) s) s

end Bes.Dmrpp.ContiguousRead
