import Bes.Dmrpp.ContiguousRead
import Bes.Lib.Extent

/-! `SuperChunk`: chunks that follow each other in one file are transferred by one
range request. The readers put the chunks they need into a queue of SuperChunks
before anything is read. Positions in a file are `unsigned long long`, so sums
wrap here. -/
namespace Bes.Dmrpp.ChunkGrouping
open Lib.Extent List
open Dmrpp.Array Dmrpp.ConstrainedRead Dmrpp.ContiguousRead

def wordSize : Nat := 2 ^ 64

/-- The ways in which grouping or reading SuperChunks ends without a result.
`nullUrl` and `badSubscript` are undefined behaviour, the others are thrown. -/
inductive ReadError where
  | expectedChunks
  | badSubscript
  | nullUrl
  | failedToAddChunk
  | noChunksFound
  | bufferIndexTooLarge (bindex size : Nat)
  | manyFillValueChunks
  | noFillValue
  | transferFailed
  | wrongByteCount (read expected : Nat)
deriving DecidableEq

structure SuperChunk where
  dataUrl : Option String := none
  chunks : List Chunk := []
  offset : Nat := 0
  size : Nat := 0
  isRead : Bool := false
  usesFillValue : Bool := false
deriving DecidableEq

/-- `Chunk::get_data_url`. `effective` is the URL at the end of the redirects, as
the `EffectiveUrlCache` knows it. -/
def getDataUrl (effective : String → String) (chunk : Chunk) : Except ReadError String :=
  match chunk.dataUrl with
  | none => .error .nullUrl
  | some url => .ok (effective url)

def isContiguous (effective : String → String) (sc : SuperChunk) (candidateChunk : Chunk) :
    Except ReadError Bool := do
  let candidateUrl ← getDataUrl effective candidateChunk
  match sc.dataUrl with
  | none => .error .nullUrl
  | some url =>
      .ok (candidateUrl = url ∧ (sc.offset + sc.size) % wordSize = candidateChunk.offset)

def addChunk (effective : String → String) (sc : SuperChunk) (candidateChunk : Chunk) :
    Except ReadError (SuperChunk × Bool) :=
  if sc.chunks = [] then do
    let dataUrl ← if candidateChunk.usesFillValue then .ok none
      else (getDataUrl effective candidateChunk).map some
    .ok ({ sc with
      chunks := [candidateChunk]
      offset := candidateChunk.offset
      size := candidateChunk.size
      usesFillValue := candidateChunk.usesFillValue
      dataUrl := dataUrl }, true)
  else if candidateChunk.usesFillValue then .ok (sc, false)
  else do
    let contiguous ← isContiguous effective sc candidateChunk
    if contiguous then
      .ok ({ sc with
        chunks := sc.chunks ++ [candidateChunk]
        size := (sc.size + candidateChunk.size) % wordSize }, true)
    else .ok (sc, false)

/-- The queue under construction: the SuperChunks that take no more chunks, and
the one at its end, `current_super_chunk`. -/
structure Grouping where
  closed : List SuperChunk := []
  current : SuperChunk := {}

def Grouping.queue (grouping : Grouping) : List SuperChunk :=
  grouping.closed ++ [grouping.current]

def groupChunk (effective : String → String) (grouping : Grouping) (chunk : Chunk) :
    Except ReadError Grouping := do
  let (current, added) ← addChunk effective grouping.current chunk
  if added then .ok { grouping with current := current }
  else
    let (fresh, added) ← addChunk effective {} chunk
    if added then .ok ⟨grouping.closed ++ [current], fresh⟩
    else .error .failedToAddChunk

def readChunksUnconstrainedQueue (effective : String → String) (chunks : List Chunk) :
    Except ReadError (List SuperChunk) :=
  if chunks.length < 2 then .error .expectedChunks
  else do
    let grouping ← chunks.foldlM (groupChunk effective) {}
    .ok grouping.queue

/-- The loop body of `read_chunks`; the flag is `found_needed_chunks`. -/
def groupNeededChunk (effective : String → String) (array : DmrppArray)
    (s : Grouping × Bool) (chunk : Chunk) : Except ReadError (Grouping × Bool) :=
  match findNeededChunks array chunk array.lastDim 0 chunk.positionInArray with
  | none => .error .badSubscript
  | some (none, _) => .ok s
  | some (some _, _) => do
      let grouping ← groupChunk effective s.1 chunk
      .ok (grouping, true)

def readChunksQueue (effective : String → String) (array : DmrppArray) (chunks : List Chunk) :
    Except ReadError (List SuperChunk) :=
  if chunks.length < 2 then .error .expectedChunks
  else do
    let (grouping, foundNeededChunks) ← chunks.foldlM (groupNeededChunk effective array) ({}, false)
    if foundNeededChunks then .ok grouping.queue else .error .noChunksFound

structure Slice where
  start : Nat
  size : Nat
deriving DecidableEq

/-- The loop of `map_chunks_to_buffer`, for a SuperChunk of `size` bytes. -/
def mapChunksLoop (size : Nat) : Nat → List Chunk → Except ReadError (List Slice)
  | _, [] => .ok []
  | bindex, chunk :: chunks =>
      let next := (bindex + chunk.size) % wordSize
      if size < next then .error (.bufferIndexTooLarge next size)
      else do
        let slices ← mapChunksLoop size next chunks
        .ok (⟨bindex, chunk.size⟩ :: slices)

def mapChunksToBuffer (sc : SuperChunk) : Except ReadError (List Slice) :=
  mapChunksLoop sc.size 0 sc.chunks

/-- The last byte that the range request of `get_range_arg_string` names. -/
def rangeLast (offset size : Nat) : Nat := (offset + size + (wordSize - 1)) % wordSize

/-- `read_aggregate_bytes` where a transfer of a well-formed range succeeds. The
aggregate chunk asks for the effective URL once more. -/
def readAggregateBytes (effective : String → String) (web : String → Nat → Byte)
    (sc : SuperChunk) : Except ReadError (List Byte) :=
  match sc.dataUrl with
  | none => .error .nullUrl
  | some url =>
      let last := rangeLast sc.offset sc.size
      if last < sc.offset then .error .transferFailed
      else
        let bytes := rangeBytes (web (effective url)) sc.offset (last - sc.offset + 1)
        if bytes.length = sc.size then .ok bytes
        else .error (.wrongByteCount bytes.length sc.size)

def readFillValueChunk (web : String → Nat → Byte) (sc : SuperChunk) :
    Except ReadError SuperChunk :=
  match sc.chunks with
  | [chunk] =>
      match readChunk web chunk with
      | none => .error .noFillValue
      | some bytes => .ok { sc with chunks := [{ chunk with readBuffer := bytes }] }
  | _ => .error .manyFillValueChunks

def setReadBuffer (buffer : List Byte) (chunk : Chunk) (slice : Slice) : Chunk :=
  { chunk with readBuffer := (buffer.drop slice.start).take slice.size }

def retrieveData (effective : String → String) (web : String → Nat → Byte) (sc : SuperChunk) :
    Except ReadError SuperChunk :=
  if sc.isRead then .ok sc
  else do
    let slices ← mapChunksToBuffer sc
    if sc.usesFillValue then readFillValueChunk web sc
    else
      let buffer ← readAggregateBytes effective web sc
      .ok { sc with
        chunks := zipWith (setReadBuffer buffer) sc.chunks slices
        isRead := true }

/-- A chunk as `load_chunks` makes it from a `chunk` element. -/
@[mk_iff]
structure Stored (chunk : Chunk) : Prop where
  notFill : chunk.usesFillValue = false
  hasUrl : chunk.dataUrl ≠ none
  size_pos : 1 ≤ chunk.size

def EndsInRange (chunk : Chunk) : Prop := chunk.offset + chunk.size < wordSize

instance (chunk : Chunk) : Decidable (Stored chunk) := decidable_of_iff' _ (stored_iff chunk)

instance (chunk : Chunk) : Decidable (EndsInRange chunk) :=
  inferInstanceAs (Decidable (_ < wordSize))

structure FillAlone (sc : SuperChunk) : Prop where
  usesFillValue : sc.usesFillValue = true
  alone : ∃ chunk, sc.chunks = [chunk] ∧ chunk.usesFillValue = true ∧
    sc.offset = chunk.offset ∧ sc.size = chunk.size

structure StoredRun (effective : String → String) (sc : SuperChunk) : Prop where
  notFill : sc.usesFillValue = false
  ne_nil : sc.chunks ≠ []
  stored : ∀ chunk ∈ sc.chunks, chunk.usesFillValue = false
  oneUrl : ∃ url, sc.dataUrl = some url ∧ ∀ chunk ∈ sc.chunks, getDataUrl effective chunk = .ok url
  contiguous : Contiguous Chunk.offset Chunk.size sc.offset sc.chunks
  size_eq : sc.size = total Chunk.size sc.chunks

def WellFormed (effective : String → String) (sc : SuperChunk) : Prop :=
  FillAlone sc ∨ StoredRun effective sc

/-- The chunk `after` is `chunk` holding its own bytes of the file at its URL. -/
def Retrieved (web : String → Nat → Byte) (chunk after : Chunk) : Prop :=
  ∃ url, chunk.dataUrl = some url ∧
    after = { chunk with readBuffer := rangeBytes (web url) chunk.offset chunk.size }

/-- A queue of SuperChunks that is right for the chunks `kept`. -/
structure Grouped (effective : String → String) (web : String → Nat → Byte)
    (kept : List Chunk) (queue : List SuperChunk) : Prop where
  chunks_eq : queue.flatMap SuperChunk.chunks = kept
  wellFormed : ∀ sc ∈ queue, WellFormed effective sc
  sliced : ∀ sc ∈ queue, mapChunksToBuffer sc =
    .ok (sc.chunks.map fun chunk => ⟨chunk.offset - sc.offset, chunk.size⟩)
  retrieved : ∀ sc ∈ queue, sc.usesFillValue = false →
    ∃ after, retrieveData effective web sc = .ok after ∧
      Forall₂ (Retrieved web) sc.chunks after.chunks

def Groupable (chunk : Chunk) : Prop :=
  chunk.usesFillValue = true ∨ Stored chunk ∧ EndsInRange chunk

def FillsLast (chunks : List Chunk) : Prop :=
  chunks.Pairwise fun chunk later => chunk.usesFillValue = true → later.usesFillValue = true

variable {effective : String → String} {chunk : Chunk}

theorem Stored.getDataUrl_eq (hstored : Stored chunk) (effective : String → String) :
    ∃ url, getDataUrl effective chunk = .ok url := by
  obtain ⟨url, hurl⟩ := Option.ne_none_iff_exists'.mp hstored.hasUrl
  exact ⟨effective url, by rw [getDataUrl, hurl]⟩

structure Pending (effective : String → String) (sc : SuperChunk) : Prop where
  wellFormed : WellFormed effective sc
  unread : sc.isRead = false

theorem addChunk_fresh (effective : String → String) (hchunk : Groupable chunk) :
    ∃ fresh, addChunk effective {} chunk = .ok (fresh, true) ∧ Pending effective fresh ∧
      fresh.chunks = [chunk] := by
  cases hchunk with
  | inl hfill =>
    refine ⟨⟨none, [chunk], chunk.offset, chunk.size, false, true⟩, ?_, ⟨?_, rfl⟩, rfl⟩
    · simp only [addChunk, hfill, ↓reduceIte]
      rfl
    · exact Or.inl ⟨rfl, chunk, rfl, hfill, rfl, rfl⟩
  | inr hstored =>
    obtain ⟨url, hurl⟩ := hstored.1.getDataUrl_eq effective
    refine ⟨⟨some url, [chunk], chunk.offset, chunk.size, false, false⟩, ?_, ⟨?_, rfl⟩, rfl⟩
    · simp only [addChunk, hstored.1.notFill, hurl, ↓reduceIte]
      rfl
    · refine Or.inr ⟨rfl, cons_ne_nil _ _, ?_, ⟨url, rfl, ?_⟩, ⟨rfl, trivial⟩, by simp⟩
      · intro other hmem
        rw [mem_singleton.mp hmem]
        exact hstored.1.notFill
      · intro other hmem
        rw [mem_singleton.mp hmem]
        exact hurl

theorem WellFormed.ne_nil (hfor : WellFormed effective sc) : sc.chunks ≠ [] := by
  cases hfor with
  | inl hfill =>
    obtain ⟨chunk, halo, -⟩ := hfill.alone
    rw [halo]
    exact cons_ne_nil chunk []
  | inr hrun => exact hrun.ne_nil

theorem StoredRun.end_lt (hrun : StoredRun effective sc)
    (hran : ∀ chunk ∈ sc.chunks, EndsInRange chunk) : sc.offset + sc.size < wordSize := by
  rw [hrun.size_eq]
  exact hrun.contiguous.end_lt hrun.ne_nil hran

theorem StoredRun.concat (hrun : StoredRun effective sc)
    (hran : ∀ chunk ∈ sc.chunks, EndsInRange chunk) (hstored : Stored chunk) (hchunk : EndsInRange chunk)
    (hcon : isContiguous effective sc chunk = .ok true) : StoredRun effective
      { sc with chunks := sc.chunks ++ [chunk], size := (sc.size + chunk.size) % wordSize } := by
  obtain ⟨url, hurl, hchn⟩ := hrun.oneUrl
  obtain ⟨candidateUrl, hcan⟩ := hstored.getDataUrl_eq effective
  have hend := hrun.end_lt hran
  have hboth : candidateUrl = url ∧ (sc.offset + sc.size) % wordSize = chunk.offset := by
    rw [isContiguous, hcan, hurl] at hcon
    exact of_decide_eq_true (Except.ok.inj hcon)
  rw [Nat.mod_eq_of_lt hend] at hboth
  have hfits : sc.size + chunk.size < wordSize := by
    unfold EndsInRange at hchunk
    omega
  refine ⟨hrun.notFill, by simp, ?_, ⟨url, hurl, ?_⟩, ?_, ?_⟩
  · intro other hmem
    cases mem_append.mp hmem with
    | inl hmem => exact hrun.stored other hmem
    | inr hmem =>
      rw [mem_singleton.mp hmem]
      exact hstored.notFill
  · intro other hmem
    cases mem_append.mp hmem with
    | inl hmem => exact hchn other hmem
    | inr hmem =>
      rw [mem_singleton.mp hmem, hcan, hboth.1]
  · apply contiguous_concat.mpr
    exact ⟨hrun.contiguous, by rw [← hrun.size_eq, hboth.2]⟩
  · rw [Nat.mod_eq_of_lt hfits, total_concat, hrun.size_eq]

theorem StoredRun.isContiguous_ok (hrun : StoredRun effective sc) (hstored : Stored chunk) :
    ∃ contiguous, isContiguous effective sc chunk = .ok contiguous := by
  obtain ⟨url, hurl, -⟩ := hrun.oneUrl
  obtain ⟨candidateUrl, hcan⟩ := hstored.getDataUrl_eq effective
  rw [isContiguous, hcan, hurl]
  exact ⟨_, rfl⟩

theorem Groupable.stored (hchunk : Groupable chunk) (hfill : chunk.usesFillValue = false) :
    Stored chunk ∧ EndsInRange chunk := by
  cases hchunk with
  | inl htru =>
    rw [hfill] at htru
    cases htru
  | inr hstored => exact hstored

theorem addChunk_next (hpen : Pending effective sc)
    (hchn : ∀ chunk ∈ sc.chunks, Groupable chunk) (hchunk : Groupable chunk)
    (horder : ∀ earlier ∈ sc.chunks, earlier.usesFillValue = true → chunk.usesFillValue = true) :
    addChunk effective sc chunk = .ok (sc, false) ∨
      ∃ longer, addChunk effective sc chunk = .ok (longer, true) ∧ Pending effective longer ∧
        longer.chunks = sc.chunks ++ [chunk] := by
  rw [addChunk, if_neg hpen.wellFormed.ne_nil]
  cases hfill : chunk.usesFillValue with
  | true => exact Or.inl rfl
  | false =>
    have hstored := hchunk.stored hfill
    cases hpen.wellFormed with
    | inl hfil =>
      -- a stored chunk never meets the null URL of a fill value SuperChunk
      obtain ⟨earlier, halo, hear, -⟩ := hfil.alone
      have hfal := horder earlier (by simp [halo]) hear
      rw [hfill] at hfal
      cases hfal
    | inr hrun =>
      have hran : ∀ chunk ∈ sc.chunks, EndsInRange chunk := fun other hmem =>
        ((hchn other hmem).stored (hrun.stored other hmem)).2
      obtain ⟨contiguous, hcon⟩ := hrun.isContiguous_ok hstored.1
      rw [hcon]
      cases contiguous with
      | false => exact Or.inl rfl
      | true =>
        have hlon := hrun.concat hran hstored.1 hstored.2 hcon
        exact Or.inr ⟨_, rfl, ⟨Or.inr hlon, hpen.unread⟩, rfl⟩

structure Grouping.Sound (effective : String → String) (grouping : Grouping)
    (processed : List Chunk) : Prop where
  chunks_eq : grouping.closed.flatMap SuperChunk.chunks ++ grouping.current.chunks = processed
  closed : ∀ sc ∈ grouping.closed, Pending effective sc
  current : Pending effective grouping.current

variable {grouping : Grouping} {kept : List Chunk}

theorem groupChunk_sound (hsou : grouping.Sound effective processed)
    (hpro : ∀ chunk ∈ processed, Groupable chunk) (hchunk : Groupable chunk)
    (horder : ∀ earlier ∈ processed, earlier.usesFillValue = true → chunk.usesFillValue = true) :
    ∃ after, groupChunk effective grouping chunk = .ok after ∧
      after.Sound effective (processed ++ [chunk]) := by
  have hmem : ∀ {other}, other ∈ grouping.current.chunks → other ∈ processed := by
    intro other hother
    rw [← hsou.chunks_eq]
    exact mem_append_right _ hother
  have hnext := addChunk_next hsou.current (fun other hother => hpro other (hmem hother)) hchunk
    (fun other hother => horder other (hmem hother))
  cases hnext with
  | inl href =>
    obtain ⟨fresh, hfre, hpen, hchn⟩ := addChunk_fresh effective hchunk
    refine ⟨⟨grouping.closed ++ [grouping.current], fresh⟩, ?_, ?_, ?_, hpen⟩
    · rw [groupChunk, href]
      rw [hfre]
      rfl
    · rw [hchn, ← hsou.chunks_eq]
      simp
    · intro sc hsc
      cases mem_append.mp hsc with
      | inl hclosed => exact hsou.closed sc hclosed
      | inr hlast =>
        rw [mem_singleton.mp hlast]
        exact hsou.current
  | inr hadd =>
    obtain ⟨longer, hadd, hpen, hchn⟩ := hadd
    refine ⟨{ grouping with current := longer }, ?_, ?_, hsou.closed, hpen⟩
    · rw [groupChunk, hadd]
      rfl
    · rw [hchn, ← hsou.chunks_eq, append_assoc]

theorem foldlM_groupChunk_sound (rest : List Chunk) :
    ∀ {grouping : Grouping} {processed : List Chunk}, grouping.Sound effective processed →
      (∀ chunk ∈ processed ++ rest, Groupable chunk) → FillsLast (processed ++ rest) →
      ∃ after, rest.foldlM (groupChunk effective) grouping = .ok after ∧
        after.Sound effective (processed ++ rest) := by
  induction rest with
  | nil =>
    intro grouping processed hsou _ _
    exact ⟨grouping, rfl, by rwa [append_nil]⟩
  | cons chunk rest ih =>
    intro grouping processed hsou hgro horder
    have hpai := pairwise_append.mp horder
    obtain ⟨middle, hstep, hmid⟩ := groupChunk_sound hsou
      (fun other hmem => hgro other (mem_append_left _ hmem))
      (hgro chunk (by simp))
      (fun earlier hmem => hpai.2.2 earlier hmem chunk mem_cons_self)
    rw [append_cons] at hgro horder ⊢
    obtain ⟨after, hrun, hafter⟩ := ih hmid hgro horder
    refine ⟨after, ?_, hafter⟩
    rw [foldlM_cons, hstep]
    exact hrun

theorem groupChunks_sound (effective : String → String) (hne : kept ≠ [])
    (hgro : ∀ chunk ∈ kept, Groupable chunk) (horder : FillsLast kept) :
    ∃ after, kept.foldlM (groupChunk effective) {} = .ok after ∧ after.Sound effective kept := by
  cases kept with
  | nil => exact absurd rfl hne
  | cons first rest =>
    obtain ⟨fresh, hfre, hpen, hchn⟩ := addChunk_fresh effective (hgro first mem_cons_self)
    have hfirst : groupChunk effective {} first = .ok ⟨[], fresh⟩ := by
      rw [groupChunk]
      rw [hfre]
      rfl
    have hsou : Grouping.Sound effective ⟨[], fresh⟩ [first] :=
      ⟨by simpa using hchn, by simp, hpen⟩
    obtain ⟨after, hrun, hafter⟩ := foldlM_groupChunk_sound rest hsou hgro horder
    refine ⟨after, ?_, hafter⟩
    rw [foldlM_cons, hfirst]
    exact hrun

theorem foldlM_groupNeededChunk :
    ∀ {kept : List Chunk} {s : Grouping × Bool}, neededChunks array chunks = some kept →
      chunks.foldlM (groupNeededChunk effective array) s =
        (kept.foldlM (groupChunk effective) s.1).map fun grouping =>
          (grouping, s.2 || !kept.isEmpty) := by
  induction chunks with
  | nil =>
    intro kept s hkept
    cases hkept
    simp [Except.map, pure, Except.pure]
  | cons chunk chunks ih =>
    intro kept s hkept
    simp only [neededChunks, Option.bind_eq_bind, Option.bind_eq_some_iff] at hkept
    obtain ⟨⟨needed, address⟩, hfound, others, hote, hkept⟩ := hkept
    rw [foldlM_cons, groupNeededChunk, hfound]
    cases needed with
    | none =>
      cases hkept
      exact ih hote
    | some found =>
      cases hkept
      rw [findNeededChunks_found _ hfound, foldlM_cons]
      cases groupChunk effective s.1 chunk with
      | error e => rfl
      | ok grouping =>
        have hrest := ih (s := (grouping, true)) hote
        rw [isEmpty_cons, Bool.not_false, Bool.or_true]
        exact hrest

theorem rangeBytes_slice (file : Nat → Byte) (offset : Nat) {count : Nat}
    (hle : start + count ≤ size) : ((rangeBytes file offset size).drop start).take count =
      rangeBytes file (offset + start) count := by
  apply ext_getElem?
  intro i
  rw [getElem?_take]
  split
  next hi =>
    rw [getElem?_drop, getElem?_rangeBytes _ hi, getElem?_rangeBytes _ (by omega), add_assoc]
  next hi =>
    rw [getElem?_eq_none]
    rw [length_rangeBytes]
    omega

theorem mapChunksLoop_eq (hsize : size < wordSize) :
    ∀ {bindex : Nat}, Contiguous Chunk.offset Chunk.size (offset + bindex) chunks →
      bindex + total Chunk.size chunks ≤ size → mapChunksLoop size bindex chunks =
        .ok (chunks.map fun chunk => ⟨chunk.offset - offset, chunk.size⟩) := by
  induction chunks with
  | nil =>
    intro bindex _ _
    rfl
  | cons chunk chunks ih =>
    intro bindex hcon hle
    rw [total_cons] at hle
    have hnext : (bindex + chunk.size) % wordSize = bindex + chunk.size :=
      Nat.mod_eq_of_lt (by omega)
    have hrest := hcon.2
    rw [add_assoc] at hrest
    rw [mapChunksLoop, hnext, if_neg (by omega), ih hrest (by omega), map_cons, hcon.1,
      Nat.add_sub_cancel_left]
    rfl

theorem mapChunksToBuffer_eq (hfor : WellFormed effective sc)
    (hchn : ∀ chunk ∈ sc.chunks, Groupable chunk) : mapChunksToBuffer sc =
      .ok (sc.chunks.map fun chunk => ⟨chunk.offset - sc.offset, chunk.size⟩) := by
  unfold mapChunksToBuffer
  cases hfor with
  | inl hfill =>
    obtain ⟨chunk, halo, -, hoff, hsize⟩ := hfill.alone
    have hmod : (0 + chunk.size) % wordSize ≤ chunk.size := by
      rw [zero_add]
      exact Nat.mod_le _ _
    rw [halo, hoff, hsize, mapChunksLoop, if_neg (by omega), map_singleton, Nat.sub_self]
    rfl
  | inr hrun =>
    have hend := hrun.end_lt fun chunk hmem =>
      ((hchn chunk hmem).stored (hrun.stored chunk hmem)).2
    apply mapChunksLoop_eq (by omega)
    · exact hrun.contiguous
    · rw [hrun.size_eq, zero_add]

theorem readAggregateBytes_eq (hurl : sc.dataUrl = some url)
    (hpos : 1 ≤ sc.size) (hend : sc.offset + sc.size < wordSize) : readAggregateBytes effective web sc =
      .ok (rangeBytes (web (effective url)) sc.offset sc.size) := by
  have hlast : rangeLast sc.offset sc.size = sc.offset + sc.size - 1 := by
    unfold rangeLast
    rw [show sc.offset + sc.size + (wordSize - 1) = sc.offset + sc.size - 1 + wordSize by omega,
      Nat.add_mod_right]
    exact Nat.mod_eq_of_lt (by omega)
  have hcnt : sc.offset + sc.size - 1 - sc.offset + 1 = sc.size := by omega
  rw [readAggregateBytes, hurl]
  dsimp only
  rw [hlast, if_neg (by omega), hcnt, if_pos (length_rangeBytes _ _ _)]

theorem retrieveData_eq (hunr : sc.isRead = false) (hstored : sc.usesFillValue = false)
    (hsli : mapChunksToBuffer sc = .ok slices)
    (hbuf : readAggregateBytes effective web sc = .ok buffer) :
    retrieveData effective web sc = .ok { sc with
      chunks := zipWith (setReadBuffer buffer) sc.chunks slices
      isRead := true } := by
  rw [retrieveData, hunr, hsli, hstored]
  rw [hbuf]
  rfl

/-- After `retrieve_data` each stored chunk holds its own bytes. `hweb` says that
following the redirects of a URL does not change the file. -/
theorem retrieveData_stored (hweb : ∀ url, web (effective url) = web url)
    (hpen : Pending effective sc) (hchn : ∀ chunk ∈ sc.chunks, Groupable chunk)
    (hstored : sc.usesFillValue = false) : ∃ after, retrieveData effective web sc = .ok after ∧
      Forall₂ (Retrieved web) sc.chunks after.chunks := by
  have hsli := mapChunksToBuffer_eq hpen.wellFormed hchn
  cases hpen.wellFormed with
  | inl hfill =>
    rw [hfill.usesFillValue] at hstored
    cases hstored
  | inr hrun =>
    have hgod : ∀ chunk ∈ sc.chunks, Stored chunk ∧ EndsInRange chunk := fun chunk hmem =>
      (hchn chunk hmem).stored (hrun.stored chunk hmem)
    have hend := hrun.end_lt fun chunk hmem => (hgod chunk hmem).2
    obtain ⟨first, hfirst⟩ := exists_mem_of_ne_nil _ hrun.ne_nil
    have hpos : 1 ≤ sc.size := by
      have hran := hrun.contiguous.mem_range hfirst
      have hsize := (hgod first hfirst).1.size_pos
      rw [hrun.size_eq]
      omega
    obtain ⟨url, hurl, hurls⟩ := hrun.oneUrl
    refine ⟨_, retrieveData_eq hpen.unread hstored hsli (readAggregateBytes_eq hurl hpos hend), ?_⟩
    rw [zipWith_map_right, zipWith_self, forall₂_map_right_iff, forall₂_same]
    intro chunk hmem
    have hran := hrun.contiguous.mem_range hmem
    rw [← hrun.size_eq] at hran
    have hown := hurls chunk hmem
    cases hchunk : chunk.dataUrl with
    | none => exact absurd hchunk (hgod chunk hmem).1.hasUrl
    | some own =>
      rw [getDataUrl, hchunk] at hown
      have hplace : sc.offset + (chunk.offset - sc.offset) = chunk.offset := by omega
      refine ⟨own, hchunk, ?_⟩
      unfold setReadBuffer
      dsimp only
      rw [rangeBytes_slice _ _ (by omega), hplace, hweb, ← Except.ok.inj hown, hweb]

theorem Grouping.Sound.grouped (hweb : ∀ url, web (effective url) = web url)
    (hsou : grouping.Sound effective kept) (hgro : ∀ chunk ∈ kept, Groupable chunk) :
    Grouped effective web kept grouping.queue := by
  have hpen : ∀ sc ∈ grouping.queue, Pending effective sc := by
    intro sc hsc
    cases mem_append.mp hsc with
    | inl hclosed => exact hsou.closed sc hclosed
    | inr hlast =>
      rw [mem_singleton.mp hlast]
      exact hsou.current
  have hflt : grouping.queue.flatMap SuperChunk.chunks = kept := by
    rw [← hsou.chunks_eq]
    simp [Grouping.queue]
  have hchn : ∀ sc ∈ grouping.queue, ∀ chunk ∈ sc.chunks, Groupable chunk := by
    intro sc hsc chunk hmem
    apply hgro
    rw [← hflt]
    exact mem_flatMap.mpr ⟨sc, hsc, hmem⟩
  exact {
    chunks_eq := hflt
    wellFormed := fun sc hsc => (hpen sc hsc).wellFormed
    sliced := fun sc hsc => mapChunksToBuffer_eq (hpen sc hsc).wellFormed (hchn sc hsc)
    retrieved := fun sc hsc => retrieveData_stored hweb (hpen sc hsc) (hchn sc hsc) }

theorem fillsLast_append (hstored : ∀ chunk ∈ stored, Stored chunk)
    (hfil : ∀ chunk ∈ fills, chunk.usesFillValue = true) : FillsLast (stored ++ fills) := by
  apply pairwise_append.mpr
  refine ⟨?_, ?_, ?_⟩
  · apply pairwise_of_forall_mem_list
    intro chunk hchunk later _ hfill
    rw [(hstored chunk hchunk).notFill] at hfill
    cases hfill
  · apply pairwise_of_forall_mem_list
    intro chunk _ later hlat _
    exact hfil later hlat
  · intro chunk _ later hlat _
    exact hfil later hlat

/-- Both readers build a right queue from the chunks that `load_chunks` made:
stored chunks first, then the fill value chunks. -/
theorem superChunks_grouped (effective : String → String) (web : String → Nat → Byte)
    (hweb : ∀ url, web (effective url) = web url) (array : DmrppArray)
    (stored fills : List Chunk) (hstored : ∀ chunk ∈ stored, Stored chunk)
    (hrange : ∀ chunk ∈ stored, EndsInRange chunk) (hfills : ∀ chunk ∈ fills, chunk.usesFillValue = true)
    (htwo : 2 ≤ (stored ++ fills).length) :
    (∃ queue, readChunksUnconstrainedQueue effective (stored ++ fills) = .ok queue ∧
      Grouped effective web (stored ++ fills) queue) ∧
    ∀ kept, neededChunks array (stored ++ fills) = some kept → kept ≠ [] →
      ∃ queue, readChunksQueue effective array (stored ++ fills) = .ok queue ∧
        Grouped effective web kept queue := by
  have hgro : ∀ chunk ∈ stored ++ fills, Groupable chunk := by
    intro chunk hmem
    cases mem_append.mp hmem with
    | inl hmem => exact Or.inr ⟨hstored chunk hmem, hrange chunk hmem⟩
    | inr hmem => exact Or.inl (hfills chunk hmem)
  have horder := fillsLast_append hstored hfills
  constructor
  · have hne : stored ++ fills ≠ [] := length_pos_iff.mp (by omega)
    obtain ⟨after, hrun, hafter⟩ := groupChunks_sound effective hne hgro horder
    refine ⟨after.queue, ?_, hafter.grouped hweb hgro⟩
    rw [readChunksUnconstrainedQueue, if_neg (by omega), hrun]
    rfl
  · intro kept hkept hne
    have hsub := neededChunks_sublist hkept
    have hkeptGroupable : ∀ chunk ∈ kept, Groupable chunk := fun chunk hmem =>
      hgro chunk (hsub.subset hmem)
    obtain ⟨after, hrun, hafter⟩ := groupChunks_sound effective hne hkeptGroupable (horder.sublist hsub)
    refine ⟨after.queue, ?_, hafter.grouped hweb hkeptGroupable⟩
    rw [readChunksQueue, if_neg (by omega), foldlM_groupNeededChunk hkept, hrun]
    simp [Except.map, hne, bind, Except.bind]

def sampleArray : DmrppArray where
  dims := [⟨16, 5, 13, 1, by decide, by decide, Nat.one_pos⟩]
  chunkDimensionSizes := [4]
  elemWidth := 1
  rank_pos := by decide
  rank_eq := by decide
  chunk_pos := by decide
  width_pos := Nat.one_pos

def sampleStored : List Chunk :=
  [{ dataUrl := some "first", size := 4, offset := 100, positionInArray := [0] },
   { dataUrl := some "first", size := 4, offset := 104, positionInArray := [4] },
   { dataUrl := some "second", size := 4, offset := 108, positionInArray := [8] }]

def sampleFills : List Chunk :=
  [{ size := 4, usesFillValue := true, fillValue := [0], positionInArray := [12] }]

def sampleWeb (url : String) (i : Nat) : Byte := UInt8.ofNat (url.length + i)

theorem superChunks_grouped_sample :
    (∃ queue, readChunksUnconstrainedQueue id (sampleStored ++ sampleFills) = .ok queue ∧
      Grouped id sampleWeb (sampleStored ++ sampleFills) queue) ∧
    ∃ queue, readChunksQueue id sampleArray (sampleStored ++ sampleFills) = .ok queue ∧
      Grouped id sampleWeb (sampleStored.tail ++ sampleFills) queue := by
  have hboth := superChunks_grouped id sampleWeb (fun _ => rfl) sampleArray sampleStored sampleFills
    (by decide) (by decide) (by decide) (by decide)
  exact ⟨hboth.1, hboth.2 (sampleStored.tail ++ sampleFills) (by decide) (by decide)⟩

def wrapChunks : List Chunk :=
  [{ dataUrl := some "file", size := 2 ^ 63, offset := 0 },
   { dataUrl := some "file", size := 2 ^ 63, offset := 2 ^ 63 }]

/-- Their sizes add up to `2 ^ 64`, which is zero, and the first slice is already
past the end of the SuperChunk. -/
theorem wrapChunks_not_grouped : (∀ chunk ∈ wrapChunks, Stored chunk) ∧ 2 ≤ wrapChunks.length ∧
      ∃ sc, readChunksUnconstrainedQueue id wrapChunks = .ok [sc] ∧ sc.size = 0 ∧
        mapChunksToBuffer sc = .error (.bufferIndexTooLarge (2 ^ 63) 0) ∧
        ¬ Grouped id sampleWeb wrapChunks [sc] := by
  have hfail : mapChunksToBuffer ⟨some "file", wrapChunks, 0, 0, false, false⟩ =
      .error (.bufferIndexTooLarge (2 ^ 63) 0) := rfl
  refine ⟨by decide, by decide, ⟨some "file", wrapChunks, 0, 0, false, false⟩, rfl, rfl, hfail, ?_⟩
  intro hgrp
  have hslc := hgrp.sliced _ mem_cons_self
  cases hslc

end Bes.Dmrpp.ChunkGrouping
