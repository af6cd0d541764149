import Bes.Dmrpp.LoadChunks

/-! The storage part of `DmrppArray::print_dap4`, and the way of an array's COMPACT
values through the document it writes. -/
namespace Bes.Dmrpp.PrintDap4
open Dmrpp.Array Dmrpp.ChunkMetadata Dmrpp.ChunkXml Dmrpp.Compact
  Bes.Dmrpp.LoadChunks

/-- The storage elements of an array's element, `d_print_chunks` being set. -/
def printDap4 (common : DmrppCommon) (array : ArrayPart) : Except Fault VarNode := do
  let chunks :=
    if common.chunks.length > 0 ∨ common.usesFillValue then some (printChunksElement common)
    else none
  let compact ← if common.compact ∧ array.readP then printCompact array else pure []
  pure { chunks, compact }

def declared (array : ArrayPart) : Variable where
  array := some { array with readP := false, values := .bytes [] }

structure CompactVariable where
  common : DmrppCommon
  array : ArrayPart
  compact : common.compact = true
  chunks : common.chunks = []
  sizes : common.chunkDimensionSizes = []
  readP : array.readP = true
  holds : array.Holds
  length_pos : 0 < array.length

/-- After the chunk elements the compact values decide, unless the process insists
on one kind of storage element and there are two. -/
theorem loadChunksAt_compact_iff {read : Variable} (node : VarNode)
    (hred : loadChunksChild dmz btp node.chunks = .ok read) (hchu : node.chunk = none)
    (hcom : node.compact = text :: texts) (hdec : Base64.decode text = .ok decoded)
    (harr : read.array = some array) (values : Values) :
    (∃ loaded, loadChunksAt dmz btp node = .ok loaded ∧
        loaded.array.map ArrayPart.values = some values) ↔
      (dmz.requireChunks → node.chunks = none) ∧ compactValues array decoded = .ok values := by
  have hfou : node.elementsFound = 1 ↔ node.chunks = none := by
    cases hchn : node.chunks <;> simp [VarNode.elementsFound, hchn, hchu, hcom]
  simp only [loadChunksAt, hred, hchu, hcom, loadChunkChild, loadCompactChild,
    processCompact, hdec, harr, Except.mapError, bind, Except.bind, pure, Except.pure]
  cases hvls : compactValues array decoded with
  | error fault => simp
  | ok restored =>
    by_cases hreq : dmz.requireChunks = true ∧ node.elementsFound ≠ 1
    · simp [throw, throwThe, MonadExceptOf.throw, hreq.1, ← hfou, hreq.2]
    · have hall : dmz.requireChunks = true → node.chunks = none := by
        intro hset
        rw [← hfou]
        by_contra hne
        exact hreq ⟨hset, hne⟩
      simp only [if_neg hreq, Except.ok.injEq, exists_eq_left', Option.map_some, Option.some.injEq]
      exact ⟨fun heq => ⟨hall, heq⟩, And.right⟩

theorem loadChunksChild_declared (dmz : Dmz) (btp : CompactVariable) :
    ∃ read, loadChunksChild dmz (declared btp.array)
        (if btp.common.usesFillValue then some (printChunksElement btp.common) else none) =
          .ok read ∧
      read.array = (declared btp.array).array := by
  split
  · have hpri := processChunks_print dmz btp.array.elemType btp.common
    rw [if_pos (by simp [firstByteOrder, btp.chunks, IsByteOrder])] at hpri
    simp [loadChunksChild, declared, hpri, Except.mapError, addMissingChunks, reread,
      btp.chunks, btp.sizes, bind, Except.bind, pure, Except.pure]
  · exact ⟨_, rfl, rfl⟩

theorem loadChunks_printed_iff (dmz : Dmz) (btp : CompactVariable)
    (hprint : printCompact btp.array = .ok texts) :
    (∃ node loaded, printDap4 btp.common btp.array = .ok node ∧
        loadChunks dmz (declared btp.array) (some node) = .ok loaded ∧
        loaded.array.map ArrayPart.values = some btp.array.values) ↔
      (dmz.requireChunks → btp.common.usesFillValue = false) ∧ btp.array.values.Restorable := by
  obtain ⟨text, rest, decoded, rfl, hdec, hrestore⟩ :=
    printCompact_restores btp.holds btp.length_pos hprint
  obtain ⟨read, hread, harr⟩ := loadChunksChild_declared dmz btp
  let node : VarNode := {
    chunks := if btp.common.usesFillValue then some (printChunksElement btp.common) else none
    compact := text :: rest }
  have hnode : printDap4 btp.common btp.array = .ok node := by
    simp [printDap4, btp.chunks, btp.compact, btp.readP, hprint, bind, Except.bind, pure,
      Except.pure, node]
  have hload := loadChunksAt_compact_iff node hread rfl rfl hdec harr btp.array.values
  rw [hrestore ⟨btp.array.shape, btp.array.elemType, btp.array.elemWidth, false, .bytes []⟩
    rfl rfl rfl] at hload
  have hchunks : node.chunks = none ↔ btp.common.usesFillValue = false := by
    cases huses : btp.common.usesFillValue <;> simp [node, huses]
  rw [hchunks] at hload
  rw [← hload]
  constructor
  · rintro ⟨written, loaded, hwritten, hloaded, hvalues⟩
    rw [hnode] at hwritten
    cases hwritten
    exact ⟨loaded, hloaded, hvalues⟩
  · rintro ⟨loaded, hloaded, hvalues⟩
    exact ⟨node, loaded, hnode, hloaded, hvalues⟩

/-- Values in the COMPACT layout survive the document exactly when they are
restorable and no fill value brings a second kind of storage element before a
process that requires one. -/
theorem loadChunks_printDap4_iff (dmz : Dmz) (btp : CompactVariable) :
    (∃ node loaded, printDap4 btp.common btp.array = .ok node ∧
        loadChunks dmz (declared btp.array) (some node) = .ok loaded ∧
        loaded.array.map ArrayPart.values = some btp.array.values) ↔
      (dmz.requireChunks → btp.common.usesFillValue = false) ∧ btp.array.values.Restorable := by
  cases hprint : printCompact btp.array with
  | ok texts => exact loadChunks_printed_iff dmz btp hprint
  | error fault =>
    constructor
    · rintro ⟨node, loaded, hnode, -⟩
      simp [printDap4, btp.compact, btp.readP, hprint, bind, Except.bind] at hnode
    · rintro ⟨-, hrestorable⟩
      obtain ⟨texts, htexts⟩ := printCompact_of_restorable btp.holds hrestorable
      rw [hprint] at htexts
      cases htexts

def twoStrings : CompactVariable where
  common := { compact := true }
  array :=
    { shape := [2], elemType := .dodsStr, elemWidth := 1, readP := true,
      values := .strings [[], [65]] }
  compact := rfl
  chunks := rfl
  sizes := rfl
  readP := rfl
  holds := ⟨rfl, rfl⟩
  length_pos := Nat.two_pos

/-- Each string has an element of its own, but the reader takes the first element and
copies two strings from the address of one. -/
theorem twoStrings_not_restored :
    ¬ ∃ node loaded, printDap4 twoStrings.common twoStrings.array = .ok node ∧
      loadChunks versionedReader (declared twoStrings.array) (some node) = .ok loaded ∧
      loaded.array.map ArrayPart.values = some twoStrings.array.values := by
  rintro ⟨node, loaded, hnode, hloa, _⟩
  have hpri : printDap4 twoStrings.common twoStrings.array =
      .ok { compact := [[], "QQ==".toList] } := by rfl
  rw [hpri] at hnode
  cases hnode
  have hfau : loadChunks versionedReader (declared twoStrings.array)
      (some { compact := [[], "QQ==".toList] }) = .error .undefined := by rfl
  cases hloa

end Bes.Dmrpp.PrintDap4
