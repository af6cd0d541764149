import Bes.Dmrpp.SingleChunk

/-! The child chunks that `read_contiguous` queues, with offsets as the 64-bit words they are. -/
namespace Bes.Dmrpp.ChildChunks
open Lib.Buffer List
open Dmrpp.Array Dmrpp.ContiguousRead Dmrpp.SingleChunk

def makeChildren (url : String) (chunkSize : UInt64) : Nat → UInt64 → List Chunk × UInt64
  | 0, chunkOffset => ([], chunkOffset)
  | rounds + 1, chunkOffset =>
      let made := makeChildren url chunkSize rounds (chunkOffset + chunkSize)
      ({ dataUrl := some url, size := chunkSize.toNat, offset := chunkOffset.toNat } :: made.1, made.2)

/-- `chunks_to_read` of the parallel branch. Dividing by a child count of zero ends the process. -/
def chunksToRead (config : TransferConfig) (url : String) (offset size : UInt64) : Option (List Chunk) :=
  let numChunks := numChildChunks config size.toNat
  if numChunks = 0 then none
  else
    let chunkSize := size / UInt64.ofNat numChunks
    let chunkRemainder := size % UInt64.ofNat numChunks
    let made := makeChildren url chunkSize (numChunks - 1) offset
    some (made.1 ++
      [{ dataUrl := some url, size := (chunkSize + chunkRemainder).toNat, offset := made.2.toNat }])

/-- `one_child_chunk_thread_new`, with the difference of the offsets taken in 64 bits. -/
def copyChild (web : String → Nat → Byte) (offset : UInt64) (buffer : List Byte) (child : Chunk) :
    Option (List Byte) := do
  let bytes ← readChunk web child
  memcpy buffer (UInt64.ofNat child.offset - offset).toNat bytes 0 bytes.length

/-- The chunks cover the bytes from `first` up to `last`, each from where the one before it ends. -/
def Tiles : Nat → List Chunk → Nat → Prop
  | first, [], last => first = last
  | first, chunk :: rest, last => chunk.offset = first ∧ Tiles (first + chunk.size) rest last

structure ExactSplit (url : String) (offset size : UInt64) (children : List Chunk) : Prop where
  nonempty : ∀ child ∈ children, 0 < child.size
  disjoint : children.Pairwise fun child later => child.offset + child.size ≤ later.offset
  tiles : Tiles offset.toNat children (offset.toNat + size.toNat)
  same_bytes : ∀ (web : String → Nat → Byte) (finished : List Chunk), finished.Perm children →
    ∀ buffer : List Byte, buffer.length = size.toNat →
      finished.foldlM (copyChild web offset) buffer =
        readChunk web { dataUrl := some url, size := size.toNat, offset := offset.toNat }

theorem Tiles.disjoint (htil : Tiles first chunks last) : (∀ chunk ∈ chunks, first ≤ chunk.offset) ∧
      chunks.Pairwise fun chunk later => chunk.offset + chunk.size ≤ later.offset := by
  induction chunks generalizing first with
  | nil => simp
  | cons chunk rest ih =>
    obtain ⟨hfirst, hrest⟩ := htil
    obtain ⟨hbeh, hpai⟩ := ih hrest
    constructor
    · intro later hlat
      cases mem_cons.mp hlat with
      | inl hsame =>
        rw [hsame]
        exact hfirst.ge
      | inr hlat =>
        have := hbeh later hlat
        omega
    · apply List.Pairwise.cons _ hpai
      intro later hlat
      rw [hfirst]
      exact hbeh later hlat

theorem tiles_append (hchunk : Tiles first chunks middle) (hmore : Tiles middle more last) :
    Tiles first (chunks ++ more) last := by
  induction chunks generalizing first with
  | nil =>
    have hsame : first = middle := hchunk
    rw [hsame]
    exact hmore
  | cons chunk rest ih => exact ⟨hchunk.1, ih hchunk.2⟩

theorem Tiles.last_offset
    (htil : Tiles first (chunks ++ [chunk]) last) : chunk.offset + chunk.size = last := by
  induction chunks generalizing first with
  | nil =>
    obtain ⟨hfirst, hlast⟩ := htil
    rw [hfirst]
    exact hlast
  | cons _ _ ih => exact ih htil.2

theorem makeChildren_last (url : String) (chunkSize : UInt64) (rounds : Nat) (offset : UInt64) :
    (makeChildren url chunkSize rounds offset).2.toNat =
      (offset.toNat + rounds * chunkSize.toNat) % 2 ^ 64 := by
  induction rounds generalizing offset with
  | zero => simp [makeChildren, Nat.mod_eq_of_lt offset.toNat_lt]
  | succ rounds ih =>
    rw [makeChildren, ih, UInt64.toNat_add, Nat.succ_mul, Nat.mod_add_mod]
    omega

theorem makeChildren_eq (hfits : offset.toNat + rounds * chunkSize.toNat < 2 ^ 64) (url : String) :
    (makeChildren url chunkSize rounds offset).1 = (range rounds).map fun i =>
      { dataUrl := some url, size := chunkSize.toNat, offset := offset.toNat + i * chunkSize.toNat } := by
  induction rounds generalizing offset with
  | zero => rfl
  | succ rounds ih =>
    rw [Nat.succ_mul] at hfits
    have hnext : (offset + chunkSize).toNat = offset.toNat + chunkSize.toNat := by
      rw [UInt64.toNat_add, Nat.mod_eq_of_lt]
      omega
    rw [makeChildren, ih (by rw [hnext]; omega), range_succ_eq_map, map_cons, map_map]
    apply cons_eq_cons.mpr
    constructor
    · rw [Nat.zero_mul, Nat.add_zero]
    · apply map_congr_left
      intro i _
      dsimp only [Function.comp_apply]
      rw [hnext, Nat.succ_mul, Nat.add_assoc, Nat.add_comm chunkSize.toNat]

section

variable {config : TransferConfig} {offset size : UInt64}

theorem numChildChunks_le (config : TransferConfig) (size : Nat) : numChildChunks config size ≤ size := by
  have hdiv : size / megabyte ≤ size := Nat.div_le_self size megabyte
  unfold numChildChunks
  split <;> omega

theorem toNat_numChunks (config : TransferConfig) (size : UInt64) :
    (UInt64.ofNat (numChildChunks config size.toNat)).toNat = numChildChunks config size.toNat := by
  exact Nat.mod_eq_of_lt (Nat.lt_of_le_of_lt (numChildChunks_le config size.toNat) size.toNat_lt)

def lastOffset (config : TransferConfig) (offset size : UInt64) : Nat :=
  offset.toNat + (numChildChunks config size.toNat - 1) * (size.toNat / numChildChunks config size.toNat)

theorem chunksToRead_of_pos (hpos : 0 < numChildChunks config size.toNat) (url : String) :
    chunksToRead config url offset size =
      some ((makeChildren url (size / UInt64.ofNat (numChildChunks config size.toNat))
          (numChildChunks config size.toNat - 1) offset).1 ++
        [{ dataUrl := some url,
           size := size.toNat / numChildChunks config size.toNat +
             size.toNat % numChildChunks config size.toNat,
           offset := lastOffset config offset size % 2 ^ 64 }]) := by
  have hcnt := toNat_numChunks config size
  have hsize := childSizes_add size.toNat hpos
  have hlt := size.toNat_lt
  unfold chunksToRead lastOffset
  dsimp only
  rw [if_neg hpos.ne', makeChildren_last, UInt64.toNat_add, UInt64.toNat_div, UInt64.toNat_mod, hcnt,
    Nat.mod_eq_of_lt (by omega)]

theorem chunksToRead_eq (hpos : 0 < numChildChunks config size.toNat)
    (hfits : lastOffset config offset size < 2 ^ 64) (url : String) :
    chunksToRead config url offset size =
      some (childChunks { dataUrl := some url, size := size.toNat, offset := offset.toNat } url
        (numChildChunks config size.toNat)) := by
  have hcnt := toNat_numChunks config size
  rw [chunksToRead_of_pos hpos, Nat.mod_eq_of_lt hfits, makeChildren_eq, UInt64.toNat_div, hcnt]
  · rfl
  · rw [UInt64.toNat_div, hcnt]
    exact hfits

end

theorem tiles_range (url : String) (chunkSize : Nat) (count first : Nat) :
    Tiles first ((range count).map fun i =>
      { dataUrl := some url, size := chunkSize, offset := first + i * chunkSize })
      (first + count * chunkSize) := by
  induction count with
  | zero => simp [Tiles]
  | succ count ih =>
    rw [range_succ, map_append]
    apply tiles_append ih
    rw [Nat.succ_mul, ← Nat.add_assoc]
    exact ⟨rfl, rfl⟩

theorem tiles_childChunks (theOneChunk : Chunk) (url : String) (hnum : 0 < numChunks) :
    Tiles theOneChunk.offset (childChunks theOneChunk url numChunks)
      (theOneChunk.offset + theOneChunk.size) := by
  have hsize := childSizes_add theOneChunk.size hnum
  apply tiles_append (tiles_range url (theOneChunk.size / numChunks) (numChunks - 1) theOneChunk.offset)
  constructor
  · rfl
  · dsimp only [Tiles]
    omega

theorem childChunks_nonempty (hnum : 0 < numChunks)
    (hle : numChunks ≤ theOneChunk.size) (url : String) :
    ∀ child ∈ childChunks theOneChunk url numChunks, 0 < child.size := by
  have hsize : 0 < theOneChunk.size / numChunks := Nat.div_pos hle hnum
  intro child hchi
  cases mem_append.mp hchi with
  | inl hear =>
    obtain ⟨i, -, rfl⟩ := mem_map.mp hear
    exact hsize
  | inr hlast =>
    rw [mem_singleton.mp hlast]
    exact Nat.add_pos_left hsize _

theorem copyChild_eq (hoff : theOneChunk.offset = offset.toNat) (hle : offset.toNat ≤ child.offset)
    (hlt : child.offset < 2 ^ 64) (buffer : List Byte) :
    copyChild web offset buffer child = readChildChunk web theOneChunk buffer child := by
  have hwrd : (UInt64.ofNat child.offset).toNat = child.offset := UInt64.toNat_ofNat_of_lt' hlt
  have hsub : (UInt64.ofNat child.offset - offset).toNat = child.offset - offset.toNat := by
    rw [UInt64.toNat_sub_of_le]
    · rw [hwrd]
    · rw [UInt64.le_iff_toNat_le, hwrd]
      exact hle
  unfold copyChild readChildChunk
  rw [hsub, hoff]

theorem childChunks_offset_le (hchi : child ∈ childChunks theOneChunk url numChunks) :
    child.offset ≤ theOneChunk.offset + (numChunks - 1) * (theOneChunk.size / numChunks) := by
  cases mem_append.mp hchi with
  | inl hear =>
    obtain ⟨i, hi, rfl⟩ := mem_map.mp hear
    exact Nat.add_le_add_left (Nat.mul_le_mul_right _ (mem_range.mp hi).le) _
  | inr hlast =>
    rw [mem_singleton.mp hlast]

section

variable {config : TransferConfig} {offset size : UInt64}

theorem exactSplit_childChunks (hpos : 0 < numChildChunks config size.toNat)
    (hfits : lastOffset config offset size < 2 ^ 64) (url : String) :
    ExactSplit url offset size
      (childChunks { dataUrl := some url, size := size.toNat, offset := offset.toNat } url
        (numChildChunks config size.toNat)) := by
  have htil := tiles_childChunks { dataUrl := some url, size := size.toNat, offset := offset.toNat } url hpos
  refine ⟨childChunks_nonempty hpos (numChildChunks_le config size.toNat) url, htil.disjoint.2, htil, ?_⟩
  intro web finished hprm buffer hbuf
  calc finished.foldlM (copyChild web offset) buffer
      = finished.foldlM (readChildChunk web
          { dataUrl := some url, size := size.toNat, offset := offset.toNat }) buffer := by
        apply foldlM_congr
        intro child hchi copied
        have hmem := hprm.mem_iff.mp hchi
        exact copyChild_eq rfl (mem_childChunks hpos hmem).2.2.1
          (Nat.lt_of_le_of_lt (childChunks_offset_le hmem) hfits) copied
    _ = some (rangeBytes (web url) offset.toNat size.toNat) :=
        childTransfers_eq web _ url hpos hprm hbuf
    _ = readChunk web { dataUrl := some url, size := size.toNat, offset := offset.toNat } := rfl

theorem lastOffset_lt (hpos : 0 < numChildChunks config size.toNat)
    (hchl : chunksToRead config url offset size = some children)
    (hsplit : ExactSplit url offset size children) : lastOffset config offset size < 2 ^ 64 := by
  rw [chunksToRead_of_pos hpos, Option.some.injEq] at hchl
  have htil := hsplit.tiles
  rw [← hchl] at htil
  have hlast := htil.last_offset
  dsimp only at hlast
  have hsize := childSizes_add size.toNat hpos
  have htru : lastOffset config offset size % 2 ^ 64 = lastOffset config offset size := by
    unfold lastOffset at hlast ⊢
    omega
  rw [← htru]
  exact Nat.mod_lt _ (by decide)

end

/-- The parallel branch splits every chunk exactly, but for chunks of less than a megabyte and offsets that
leave 64 bits. -/
theorem parallelSplit_exact_iff (config : TransferConfig) (url : String) (offset size : UInt64) :
    (¬ Serial config size.toNat → ∃ children, chunksToRead config url offset size = some children ∧
        ExactSplit url offset size children) ↔
      (Serial config size.toNat ∨ megabyte ≤ size.toNat ∧ lastOffset config offset size < 2 ^ 64) := by
  constructor
  · intro hexa
    by_cases hser : Serial config size.toNat
    · exact .inl hser
    · obtain ⟨children, hchl, hsplit⟩ := hexa hser
      have hpos : 0 < numChildChunks config size.toNat := by
        apply Nat.pos_of_ne_zero
        intro hzero
        unfold chunksToRead at hchl
        rw [if_pos hzero] at hchl
        cases hchl
      exact .inr ⟨(numChildChunks_pos config size.toNat).mp hpos, lastOffset_lt hpos hchl hsplit⟩
  · intro hcon hpar
    obtain ⟨hlar, hfits⟩ := hcon.resolve_left hpar
    have hpos := (numChildChunks_pos config size.toNat).mpr hlar
    exact ⟨_, chunksToRead_eq hpos hfits url, exactSplit_childChunks hpos hfits url⟩

def lowThreshold : TransferConfig := ⟨true, 8, 1000, Nat.succ_pos 7⟩

theorem half_megabyte_divides_by_zero : ¬ Serial lowThreshold (UInt64.toNat 524288) ∧
      chunksToRead lowThreshold "data" 0 524288 = none := by
  decide

end Bes.Dmrpp.ChildChunks
