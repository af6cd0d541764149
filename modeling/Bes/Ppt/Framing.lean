import Bes.Ppt.Connection

/-! Sending and receiving are inverse: what is put into chunks on one side of a connection is
put together on the other, however the system cuts the bytes into pieces. -/
namespace Bes.Ppt
open Dispatch Lib List

/-- Bytes are left to read, and no call of `read` fails. -/
structure Socket.Ready (sock : Socket) (incoming : Str) : Prop where
  incoming_eq : sock.incoming = incoming
  data : ∀ n, ∃ count, (sock.events n).outcome = .data count

namespace Socket.Ready

variable {sock : Socket} {text rest buffer : Str} {inBuffLen : Nat}

theorem receiveLoop_eq (sock : Socket) (inSize : Nat) (interrupts : List Interrupt) :
    sock.receiveLoop inSize interrupts = sock.read inSize := by
  induction interrupts with
  | nil => rfl
  | cons interrupt interrupts ih => exact ih

theorem receive_eq (hrea : sock.Ready (text ++ rest)) (size : Nat) (hsiz : 0 < size)
    (htxt : size ≤ text.length) :
    ∃ piece more next, text = piece ++ more ∧ piece ≠ [] ∧ piece.length ≤ size
      ∧ sock.receive size = .ok (piece, next) ∧ next.Ready (more ++ rest) := by
  obtain ⟨count, hcnt⟩ := hrea.data 0
  let got := min (max count 1) size
  have hgot : got ≤ text.length := by omega
  have hred : sock.receive size
      = .ok (text.take got, ⟨text.drop got ++ rest, fun n => sock.events (n + 1)⟩) := by
    unfold Socket.receive
    rw [receiveLoop_eq, Socket.read, hcnt, hrea.incoming_eq]
    dsimp only
    rw [take_append_of_le_length hgot, drop_append_of_le_length hgot]
  have hlen : (text.take got).length = got := length_take_of_le hgot
  refine ⟨text.take got, text.drop got, _, (take_append_drop got text).symm, ?_, ?_, hred,
    rfl, fun n => hrea.data (n + 1)⟩
  · apply ne_nil_of_length_pos
    omega
  · omega

theorem piece_induction (size : Nat → Nat) (hsiz : ∀ n, 0 < n → 0 < size n ∧ size n ≤ n)
    {motive : Socket → Str → Prop} (step : ∀ sock piece more next, piece ≠ [] →
      sock.receive (size (piece ++ more).length) = .ok (piece, next) → next.Ready (more ++ rest) →
      (more ≠ [] → motive next more) → motive sock (piece ++ more))
    (hrea : sock.Ready (text ++ rest)) (hne : text ≠ []) : motive sock text := by
  induction hlen : text.length using Nat.strong_induction_on generalizing sock text with
  | _ length ih =>
    obtain ⟨hpos, hle⟩ := hsiz text.length (length_pos_of_ne_nil hne)
    obtain ⟨piece, more, next, rfl, hpie, -, hrcv, hnxt⟩ := hrea.receive_eq _ hpos hle
    refine step sock piece more next hpie hrcv hnxt fun hmor => ?_
    have hgot := length_pos_of_ne_nil hpie
    rw [length_append] at hlen
    exact ih more.length (by omega) hnxt hmor rfl

theorem readChunkHeader_eq (hrea : sock.Ready (text ++ rest)) (hne : text ≠ []) :
    ∃ next, readChunkHeader sock text.length buffer = .ok (buffer ++ text, next) ∧ next.Ready rest := by
  refine piece_induction (motive := fun sock text => ∀ buffer, ∃ next,
    readChunkHeader sock text.length buffer = .ok (buffer ++ text, next) ∧ next.Ready rest)
    (fun n => n) (fun n hn => ⟨hn, le_refl n⟩) ?_ hrea hne buffer
  intro sock piece more next hpie hrcv hnxt hmor buffer
  rw [readChunkHeader, hrcv]
  dsimp only
  rw [if_neg hpie, length_append]
  by_cases hnil : more = []
  · subst hnil
    rw [if_neg (by simp), append_nil]
    exact ⟨next, rfl, hnxt⟩
  · have hlft := length_pos_of_ne_nil hnil
    rw [if_pos (by omega), ← append_assoc, Nat.add_sub_cancel_left]
    exact hmor hnil (buffer ++ piece)

theorem receiveData_eq (hrea : sock.Ready (text ++ rest)) (hne : text ≠ [])
    (hbff : 0 < inBuffLen) (strm : Str) :
    ∃ next, receiveData inBuffLen sock text.length strm = .ok (strm ++ text, next)
      ∧ next.Ready rest := by
  refine piece_induction (motive := fun sock text => ∀ strm, ∃ next,
    receiveData inBuffLen sock text.length strm = .ok (strm ++ text, next) ∧ next.Ready rest)
    (fun n => min n inBuffLen) (fun n hn => ⟨Nat.lt_min.mpr ⟨hn, hbff⟩, Nat.min_le_left _ _⟩) ?_
    hrea hne strm
  intro sock piece more next hpie hrcv hnxt hmor strm
  rw [receiveData, hrcv]
  dsimp only
  rw [if_neg hpie, length_append]
  by_cases hnil : more = []
  · subst hnil
    rw [if_neg (by simp), append_nil]
    exact ⟨next, rfl, hnxt⟩
  · have hlft := length_pos_of_ne_nil hnil
    rw [if_pos (by omega), ← append_assoc, Nat.add_sub_cancel_left]
    exact hmor hnil (strm ++ piece)

end Socket.Ready

structure Connection.Ready (connection : Connection) (incoming : Str) : Prop where
  buffer : 9 ≤ connection.inBuffLen + 1
  sock : connection.sock.Ready incoming

theorem headerLength_padded (hn : n < 2 ^ 28) (kind : Char) :
    headerLength (Hex.padded 7 n ++ [kind]) = n := by
  have hn' : n < 16 ^ 7 := hn
  have htak : (Hex.padded 7 n ++ [kind]).take 7 = Hex.padded 7 n :=
    take_left' (Hex.length_padded hn')
  have hrun : (Hex.padded 7 n).takeWhile (fun c => decide (c ≠ '\x00')) = Hex.padded 7 n := by
    apply takeWhile_eq_self_iff.mpr
    intro c hc
    rw [decide_eq_true_eq]
    rintro rfl
    exact Hex.nul_not_mem_padded 7 n hc
  unfold headerLength
  rw [htak, hrun, Hex.scan_padded (by decide) hn']
  rfl

namespace Connection.Ready

variable {connection : Connection} {text rest strm : Str} {kind : Char} {extensions : Extensions}

theorem receive_header {header : Str} (hrea : connection.Ready (header ++ rest))
    (hhdr : header.length = 8) : ∃ next : Connection, connection.receive extensions strm
        = receiveChunk next (headerLength header) header[7]? extensions strm ∧ next.Ready rest := by
  have hne : header ≠ [] := ne_nil_of_length_pos (by omega)
  obtain ⟨sock, hred, hnxt⟩ := hrea.sock.readChunkHeader_eq hne
  rw [hhdr, nil_append] at hred
  refine ⟨{ connection with sock := sock }, ?_, hrea.buffer, hnxt⟩
  unfold Connection.receive
  rw [if_neg (by have := hrea.buffer; omega), hred]
  dsimp only
  rw [if_neg (not_not.mpr hhdr)]

theorem receive_frame (hrea : connection.Ready (frame kind text ++ rest)) (htxt : text.length < 2 ^ 28) :
    ∃ next : Connection, connection.receive extensions strm
        = receiveChunk next text.length (some kind) extensions strm ∧ next.Ready (text ++ rest) := by
  have hlen : (Hex.padded 7 text.length).length = 7 := Hex.length_padded htxt
  have hhdr : (Hex.padded 7 text.length ++ [kind]).length = 8 := by
    rw [length_append, hlen]
    rfl
  have hknd : (Hex.padded 7 text.length ++ [kind])[7]? = some kind := by
    rw [getElem?_append_right hlen.le, hlen]
    rfl
  have hfra : frame kind text ++ rest = (Hex.padded 7 text.length ++ [kind]) ++ (text ++ rest) := by
    simp [frame]
  rw [hfra] at hrea
  obtain ⟨next, hrcv, hnxt⟩ := @receive_header connection _ strm extensions _ hrea hhdr
  rw [headerLength_padded htxt, hknd] at hrcv
  exact ⟨next, hrcv, hnxt⟩

theorem receive_last (hrea : connection.Ready (frame 'd' [] ++ rest)) :
    ∃ next, connection.receive extensions strm = .ok ⟨true, extensions, strm, next⟩
      ∧ next.Ready rest := by
  obtain ⟨next, hrcv, hnxt⟩ := hrea.receive_frame (by decide)
  exact ⟨next, hrcv, hnxt⟩

theorem receiveChunk_data (hrea : connection.Ready (text ++ rest)) (hne : text ≠ []) :
    ∃ next, receiveChunk connection text.length (some 'd') extensions strm
        = .ok ⟨false, extensions, strm ++ text, next⟩ ∧ next.Ready rest := by
  obtain ⟨sock, hdat, hsck⟩ :=
    hrea.sock.receiveData_eq hne (Nat.succ_pos connection.recvBufferSize) strm
  refine ⟨{ connection with sock := sock }, ?_, hrea.buffer, hsck⟩
  have hnon : ¬ (text.length : Int) < 0 := by omega
  have hzer : (text.length : Int) ≠ 0 := by
    have hpos := length_pos_of_ne_nil hne
    omega
  rw [receiveChunk]
  simp only [if_neg hnon, if_neg hzer, Int.toNat_natCast, Connection.inBuffLen, hdat]

theorem receiveChunk_extensions {built : Extensions} (hrea : connection.Ready (text ++ rest))
    (hne : text ≠ []) (hred : readExtensions extensions text = .ok built) :
    ∃ next, receiveChunk connection text.length (some 'x') extensions strm
        = .ok ⟨false, built, strm, next⟩ ∧ next.Ready rest := by
  obtain ⟨sock, hdat, hsck⟩ :=
    hrea.sock.receiveData_eq hne (Nat.succ_pos connection.recvBufferSize) []
  refine ⟨{ connection with sock := sock }, ?_, hrea.buffer, hsck⟩
  have hnon : ¬ (text.length : Int) < 0 := by omega
  rw [receiveChunk]
  simp only [if_neg hnon, Int.toNat_natCast, Connection.inBuffLen, hdat, nil_append, hred]

theorem receive_data (hrea : connection.Ready (frame 'd' text ++ rest)) (hne : text ≠ [])
    (htxt : text.length < 2 ^ 28) :
    ∃ next, connection.receive extensions strm = .ok ⟨false, extensions, strm ++ text, next⟩
      ∧ next.Ready rest := by
  obtain ⟨next, hrcv, hnxt⟩ := hrea.receive_frame htxt
  rw [hrcv]
  exact hnxt.receiveChunk_data hne

theorem receive_extensions (hrea : connection.Ready (frame 'x' text ++ rest)) (hne : text ≠ [])
    (htxt : text.length < 2 ^ 28) (hred : readExtensions extensions text = .ok built) :
    ∃ next, connection.receive extensions strm = .ok ⟨false, built, strm, next⟩ ∧ next.Ready rest := by
  obtain ⟨next, hrcv, hnxt⟩ := hrea.receive_frame htxt
  rw [hrcv]
  exact hnxt.receiveChunk_extensions hne hred

end Connection.Ready

structure Plain (extension : Str × Str) : Prop where
  name_semi : ';' ∉ extension.1
  name_equals : '=' ∉ extension.1
  value_semi : ';' ∉ extension.2

section

variable {entries : List (Str × Str)} {extensions : Extensions} {text : Str}

def encodePart (extension : Str × Str) : Str :=
  extension.1 ++ if extension.2 = [] then [] else '=' :: extension.2

theorem takeWhile_ne {c : Char} (hfst : c ∉ first) (second : Str) :
    (first ++ c :: second).takeWhile (fun d => decide (d ≠ c)) = first := by
  rw [takeWhile_append_of_pos]
  · simp
  · intro d hd
    rw [decide_eq_true_eq]
    rintro rfl
    exact hfst hd

theorem Plain.semi_not_mem (hpla : Plain extension) : ';' ∉ encodePart extension := by
  unfold encodePart
  split
  · simpa using hpla.name_semi
  · simp [hpla.name_semi, hpla.value_semi]

theorem Plain.readExtension_eq (hpla : Plain extension) (extensions : Extensions) (text : Str) :
    readExtension extensions (encodePart extension) text
      = .ok (extensions.put extension.1 extension.2) := by
  unfold readExtension encodePart
  by_cases hval : extension.2 = []
  · rw [if_pos hval, append_nil, if_neg hpla.name_equals, hval]
  · rw [if_neg hval, if_pos (by simp), takeWhile_ne hpla.name_equals]
    have hdrp : (extension.1 ++ '=' :: extension.2).drop (extension.1.length + 1) = extension.2 := by
      rw [append_cons]
      exact drop_left' (by simp)
    dsimp only
    rw [hdrp, if_neg hval]

theorem readExtensions_cons (hpla : Plain extension) (rest : Str) :
    readExtensions extensions (encodeExtension extension ++ rest)
      = if rest = [] then .ok (extensions.put extension.1 extension.2)
        else readExtensions (extensions.put extension.1 extension.2) rest := by
  have htxt : encodeExtension extension ++ rest = encodePart extension ++ ';' :: rest := by
    simp [encodeExtension, encodePart]
  have hdrp : (encodePart extension ++ ';' :: rest).drop ((encodePart extension).length + 1)
      = rest := by
    rw [append_cons]
    exact drop_left' (by simp)
  rw [htxt, readExtensions, if_pos (by simp)]
  dsimp only
  rw [takeWhile_ne hpla.semi_not_mem, hpla.readExtension_eq, hdrp]

theorem encodeExtension_ne_nil (extension : Str × Str) : encodeExtension extension ≠ [] := by
  simp [encodeExtension]

theorem readExtensions_flatMap (hne : entries ≠ []) (hpla : ∀ entry ∈ entries, Plain entry) :
    readExtensions extensions (entries.flatMap encodeExtension)
      = .ok (entries.foldl (fun built entry => built.put entry.1 entry.2) extensions) := by
  induction entries generalizing extensions with
  | nil => contradiction
  | cons entry entries ih =>
    rw [flatMap_cons, readExtensions_cons (hpla entry mem_cons_self), foldl_cons]
    cases entries with
    | nil => rfl
    | cons second entries =>
      rw [if_neg (by simp [encodeExtension_ne_nil])]
      exact ih (by simp) fun other hoth => hpla other (mem_cons_of_mem _ hoth)

theorem readExtensions_encode (extensions : Extensions) (hne : extensions.entries ≠ [])
    (hpla : ∀ entry ∈ extensions.entries, Plain entry) :
    readExtensions .empty (encodeExtensions extensions) = .ok extensions := by
  unfold encodeExtensions
  rw [readExtensions_flatMap hne hpla, OrderedMap.foldl_put_entries]

end

/-- The calls of `receive` until one returns true, `fuel` of them at most. -/
def Connection.receiveUntil : Nat → Connection → Extensions → Str → Option (Except Failure Received)
  | 0, _, _, _ => none
  | fuel + 1, connection, extensions, strm =>
    match connection.receive extensions strm with
    | .error failure => some (.error failure)
    | .ok received =>
      if received.last then some (.ok received)
      else receiveUntil fuel received.connection received.extensions received.strm

def Connection.receiveMessages (fuel : Nat) :
    Nat → Connection → Option (Except Failure (List (Str × Extensions) × Connection))
  | 0, connection => some (.ok ([], connection))
  | count + 1, connection =>
    match connection.receiveUntil fuel .empty [] with
    | none => none
    | some (.error failure) => some (.error failure)
    | some (.ok received) =>
      match receiveMessages fuel count received.connection with
      | none => none
      | some (.error failure) => some (.error failure)
      | some (.ok (messages, connection)) =>
        some (.ok ((received.strm, received.extensions) :: messages, connection))

structure Message where
  buffer : Str
  extensions : Extensions
  buffer_lt : buffer.length < 2 ^ 28
  extensions_lt : (encodeExtensions extensions).length < 2 ^ 28
  plain : ∀ extension ∈ extensions.entries, Plain extension

def Message.sent (message : Message) : Str := send message.buffer message.extensions

def Message.pieces (message : Message) : List Str :=
  if message.buffer = [] then [] else [message.buffer]

section

variable {connection : Connection} {rest strm : Str} {extensions : Extensions} {pieces : List Str}

theorem receiveUntil_of_last
    (hrcv : connection.receive extensions strm = .ok received) (hlst : received.last = true) :
    connection.receiveUntil (fuel + 1) extensions strm = some (.ok received) := by
  rw [Connection.receiveUntil, hrcv]
  dsimp only
  rw [if_pos hlst]

theorem receiveUntil_of_not_last
    (hrcv : connection.receive extensions strm = .ok received) (hlst : received.last = false) :
    connection.receiveUntil (fuel + 1) extensions strm
      = received.connection.receiveUntil fuel received.extensions received.strm := by
  rw [Connection.receiveUntil, hrcv]
  dsimp only
  rw [if_neg (by simp [hlst])]

theorem receiveUntil_pieces (extensions : Extensions) (strm : Str)
    (hrea : connection.Ready (pieces.flatMap (frame 'd') ++ frame 'd' [] ++ rest))
    (hpcs : ∀ piece ∈ pieces, piece ≠ [] ∧ piece.length < 2 ^ 28) (hful : pieces.length < fuel) :
    ∃ next, connection.receiveUntil fuel extensions strm
        = some (.ok ⟨true, extensions, strm ++ pieces.flatten, next⟩) ∧ next.Ready rest := by
  obtain ⟨fuel, rfl⟩ := Nat.exists_eq_add_one_of_ne_zero (by omega : fuel ≠ 0)
  induction pieces generalizing connection strm fuel with
  | nil =>
    obtain ⟨next, hrcv, hnxt⟩ := hrea.receive_last
    refine ⟨next, ?_, hnxt⟩
    rw [receiveUntil_of_last hrcv rfl, flatten_nil, append_nil]
  | cons piece pieces ih =>
    rw [flatMap_cons, append_assoc, append_assoc] at hrea
    rw [length_cons, Nat.add_lt_add_iff_right] at hful
    obtain ⟨fuel, rfl⟩ := Nat.exists_eq_add_one_of_ne_zero (by omega : fuel ≠ 0)
    have hpie := hpcs piece mem_cons_self
    obtain ⟨between, hrcv, hbet⟩ := hrea.receive_data hpie.1 hpie.2
    rw [← append_assoc] at hbet
    obtain ⟨next, hunt, hnxt⟩ := ih (strm ++ piece) hbet
      (fun other hoth => hpcs other (mem_cons_of_mem _ hoth)) fuel hful
    refine ⟨next, ?_, hnxt⟩
    rw [receiveUntil_of_not_last hrcv rfl, flatten_cons, ← append_assoc]
    exact hunt

theorem Message.sent_eq (message : Message) : message.sent = sendExtensions message.extensions
      ++ (message.pieces.flatMap (frame 'd') ++ frame 'd' []) := by
  have hemp : sendExtensions .empty = [] := rfl
  unfold Message.sent send Message.pieces
  by_cases hbuf : message.buffer = []
  · simp [hbuf, sendChunk]
  · simp [hbuf, sendChunk, hemp]

theorem Message.flatten_pieces (message : Message) : message.pieces.flatten = message.buffer := by
  unfold Message.pieces
  split
  next hbuf =>
    exact hbuf.symm
  · exact flatten_singleton

theorem Message.pieces_spec (message : Message) :
    message.pieces.length ≤ 1 ∧ ∀ piece ∈ message.pieces, piece ≠ [] ∧ piece.length < 2 ^ 28 := by
  unfold Message.pieces
  split
  · simp
  next hbuf =>
    simpa [hbuf] using message.buffer_lt

theorem receiveUntil_sent (message : Message) (hrea : connection.Ready (message.sent ++ rest))
    (hful : 3 ≤ fuel) : ∃ next, connection.receiveUntil fuel .empty []
        = some (.ok ⟨true, message.extensions, message.buffer, next⟩) ∧ next.Ready rest := by
  obtain ⟨hlen, hpcs⟩ := message.pieces_spec
  rw [message.sent_eq, append_assoc] at hrea
  by_cases hent : message.extensions.entries = []
  · have hmap : message.extensions = .empty := OrderedMap.ext hent
    have hsnd : sendExtensions message.extensions = [] := by
      rw [hmap]
      rfl
    rw [hsnd, nil_append] at hrea
    rw [hmap]
    have hlss : message.pieces.length < fuel := by omega
    obtain ⟨next, hunt, hnxt⟩ := receiveUntil_pieces .empty [] hrea hpcs hlss
    rw [nil_append, message.flatten_pieces] at hunt
    exact ⟨next, hunt, hnxt⟩
  · obtain ⟨fuel, rfl⟩ := Nat.exists_eq_add_one_of_ne_zero (by omega : fuel ≠ 0)
    have hsnd : sendExtensions message.extensions
        = frame 'x' (encodeExtensions message.extensions) := by
      unfold sendExtensions
      rw [if_neg (by simpa [OrderedMap.size] using hent)]
    have hne : encodeExtensions message.extensions ≠ [] := by
      obtain ⟨entry, entries, heq⟩ := exists_cons_of_ne_nil hent
      rw [encodeExtensions, heq, flatMap_cons]
      simp [encodeExtension_ne_nil]
    rw [hsnd] at hrea
    obtain ⟨between, hrcv, hbet⟩ := hrea.receive_extensions hne message.extensions_lt
      (readExtensions_encode message.extensions hent message.plain)
    have hlss : message.pieces.length < fuel := by omega
    obtain ⟨next, hunt, hnxt⟩ := receiveUntil_pieces message.extensions [] hbet hpcs hlss
    rw [nil_append, message.flatten_pieces] at hunt
    refine ⟨next, ?_, hnxt⟩
    rw [receiveUntil_of_not_last hrcv rfl]
    exact hunt

/-- Messages sent one after the other are received one after the other, each as it was sent;
what follows them is left alone. -/
theorem receiveMessages_sent (messages : List Message)
    (hready : connection.Ready (messages.flatMap Message.sent ++ rest)) (hfuel : 3 ≤ fuel) :
    ∃ next, connection.receiveMessages fuel messages.length
        = some (.ok (messages.map fun message => (message.buffer, message.extensions), next))
      ∧ next.Ready rest := by
  induction messages generalizing connection with
  | nil => exact ⟨connection, rfl, hready⟩
  | cons message messages ih =>
    rw [flatMap_cons, append_assoc] at hready
    obtain ⟨between, hunt, hbet⟩ := receiveUntil_sent message hready hfuel
    obtain ⟨next, hmes, hnext⟩ := ih hbet
    refine ⟨next, ?_, hnext⟩
    rw [length_cons, Connection.receiveMessages, hunt]
    dsimp only
    rw [hmes]
    rfl

end

def sampleMessages : List Message :=
  [{ buffer := "show".toList
     extensions := (OrderedMap.empty.put "status".toList "a=b".toList).put "cap".toList []
     buffer_lt := by decide
     extensions_lt := by decide +kernel
     plain := by
      have hentries : ((OrderedMap.empty.put "status".toList "a=b".toList).put "cap".toList
          ([] : Str)).entries = [("cap".toList, []), ("status".toList, "a=b".toList)] := by
        decide +kernel
      intro extension hextension
      rw [hentries, mem_cons, mem_singleton] at hextension
      cases hextension with
      | inl hcap => rw [hcap]; exact ⟨by decide, by decide, by decide⟩
      | inr hstatus => rw [hstatus]; exact ⟨by decide, by decide, by decide⟩ },
   { buffer := []
     extensions := .empty
     buffer_lt := by decide
     extensions_lt := by decide
     plain := by
      intro extension hextension
      contradiction }]

def sampleConnection : Connection where
  sock := {
    incoming := sampleMessages.flatMap Message.sent
    events := fun n => ⟨[.eintr, .eagain], .data (n % 3 + 1)⟩ }
  recvBufferSize := 9

theorem receiveMessages_sent_sample : ∃ next, sampleConnection.receiveMessages 3 2
        = some (.ok (sampleMessages.map fun message => (message.buffer, message.extensions), next))
      ∧ next.Ready [] :=
  receiveMessages_sent sampleMessages
    ⟨by decide, (append_nil _).symm, fun n => ⟨n % 3 + 1, rfl⟩⟩ (by decide)

end Bes.Ppt
