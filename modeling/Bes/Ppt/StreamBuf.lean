import Bes.Ppt.Framing

/-! `PPTStreamBuf`, the stream buffer that sends what is written to it in chunks. It refines a
byte stream with marks: what is decoded on the other side are the bytes written between the
calls of `finish`. -/
namespace Bes.Ppt
open Dispatch Lib List

/-- The put area between `pbase` and `pptr`, and the bytes put on the descriptor. -/
structure StreamBuf where
  bufsize : Nat
  putArea : Str
  written : Str
  bufsize_pos : 0 < bufsize
  fits : putArea.length ≤ bufsize

namespace StreamBuf

/-- The constructor, and `open`. -/
def new (bufsize : Nat) : StreamBuf where
  bufsize := if bufsize = 0 then 1 else bufsize
  putArea := []
  written := []
  bufsize_pos := by split <;> omega
  fits := Nat.zero_le _

/-- The characters are stored at `pptr`. -/
def store (buf : StreamBuf) (s : Str) (hfits : buf.putArea.length + s.length ≤ buf.bufsize) :
    StreamBuf :=
  { buf with putArea := buf.putArea ++ s, fits := by rwa [length_append] }

def sync (buf : StreamBuf) : StreamBuf :=
  if buf.putArea ≠ [] then
    { buf with
      written := buf.written ++ (Hex.padded 7 buf.putArea.length ++ ['d']) ++ buf.putArea
      putArea := []
      fits := Nat.zero_le _ }
  else buf

theorem putArea_sync (buf : StreamBuf) : buf.sync.putArea = [] := by
  unfold sync
  split
  · rfl
  next hemp =>
    exact not_not.mp hemp

def overflow (buf : StreamBuf) : Option Char → StreamBuf
  | none => buf.sync
  | some c => buf.sync.store [c] (by rw [putArea_sync]; exact buf.sync.bufsize_pos)

def eodMarker : Str := "0000000d".toList

def finish (buf : StreamBuf) : StreamBuf :=
  { buf.sync with written := buf.sync.written ++ eodMarker }

def sputc (buf : StreamBuf) (c : Char) : StreamBuf :=
  if hroom : buf.putArea.length < buf.bufsize then buf.store [c] hroom else buf.overflow (some c)

/-- `std::streambuf::xsputn`: the put area is filled, and `overflow` takes the next character. -/
def xsputn (buf : StreamBuf) (s : Str) : StreamBuf :=
  if hroom : buf.putArea.length + s.length ≤ buf.bufsize then buf.store s hroom
  else
    let len := buf.bufsize - buf.putArea.length
    let full := buf.store (s.take len) (by
      have hfits := buf.fits
      rw [length_take]
      omega)
    match hrest : s.drop len with
    | [] => full
    | c :: rest => (full.overflow (some c)).xsputn rest
termination_by s.length
decreasing_by
  have hlength := congrArg length hrest
  rw [length_drop, length_cons] at hlength
  omega

end StreamBuf

inductive Op where
  | put (c : Char)
  | write (s : Str)
  | flush
  | overflow (c : Option Char)
  | finish

def StreamBuf.apply (buf : StreamBuf) : Op → StreamBuf
  | .put c => buf.sputc c
  | .write s => buf.xsputn s
  | .flush => buf.sync
  | .overflow c => buf.overflow c
  | .finish => buf.finish

def StreamBuf.run (bufsize : Nat) (ops : List Op) : StreamBuf :=
  ops.foldl apply (new bufsize)

structure History where
  finished : List Str
  current : Str

namespace History

def new : History := ⟨[], []⟩

def add (history : History) (s : Str) : History :=
  { history with current := history.current ++ s }

def apply (history : History) : Op → History
  | .put c => history.add [c]
  | .write s => history.add s
  | .flush => history
  | .overflow c => history.add c.toList
  | .finish => ⟨history.finished ++ [history.current], []⟩

def run (ops : List Op) : History :=
  ops.foldl apply new

end History

def framed (pieces : List Str) : Str :=
  pieces.flatMap (frame 'd') ++ frame 'd' []

structure Represents (buf : StreamBuf) (history : History) (done : List (List Str))
    (opened : List Str) : Prop where
  written_eq : buf.written = done.flatMap framed ++ opened.flatMap (frame 'd')
  finished_eq : history.finished = done.map flatten
  current_eq : history.current = opened.flatten ++ buf.putArea
  done_pieces : ∀ pieces ∈ done, ∀ piece ∈ pieces, piece ≠ [] ∧ piece.length < 2 ^ 28
  opened_pieces : ∀ piece ∈ opened, piece ≠ [] ∧ piece.length < 2 ^ 28

structure Refines (buf : StreamBuf) (history : History) : Prop where
  bufsize_lt : buf.bufsize < 2 ^ 28
  layout : ∃ done opened, Represents buf history done opened

namespace Refines

variable {buf : StreamBuf}

theorem new (hbuf : bufsize < 2 ^ 28) : Refines (.new bufsize) .new := by
  refine ⟨?_, [], [], ?_⟩
  · unfold StreamBuf.new
    dsimp only
    split <;> omega
  · exact ⟨rfl, rfl, rfl, by simp, by simp⟩

theorem store (href : Refines buf hist) (hfts : buf.putArea.length + s.length ≤ buf.bufsize) :
    Refines (buf.store s hfts) (hist.add s) := by
  obtain ⟨hlt, done, opened, hlay⟩ := href
  refine ⟨hlt, done, opened, hlay.written_eq, hlay.finished_eq, ?_, hlay.done_pieces,
    hlay.opened_pieces⟩
  unfold History.add StreamBuf.store
  rw [hlay.current_eq, append_assoc]

theorem sync (href : Refines buf history) : Refines buf.sync history := by
  unfold StreamBuf.sync
  split
  next hne =>
    obtain ⟨hlt, done, opened, hlay⟩ := href
    refine ⟨hlt, done, opened ++ [buf.putArea], ?_, hlay.finished_eq, ?_, hlay.done_pieces, ?_⟩
    · simp [hlay.written_eq, frame]
    · simp [hlay.current_eq]
    · intro piece hpie
      rw [mem_append, mem_singleton] at hpie
      cases hpie with
      | inl hope => exact hlay.opened_pieces piece hope
      | inr heq =>
        rw [heq]
        exact ⟨hne, buf.fits.trans_lt hlt⟩
  · exact href

theorem overflow (href : Refines buf hist) (c : Option Char) :
    Refines (buf.overflow c) (hist.add c.toList) := by
  cases c with
  | none =>
    have hadd : hist.add (none : Option Char).toList = hist := by
      unfold History.add
      rw [Option.toList_none, append_nil]
    rw [hadd]
    exact href.sync
  | some c =>
    apply href.sync.store
    rw [StreamBuf.putArea_sync]
    exact buf.sync.bufsize_pos

theorem sputc (href : Refines buf hist) (c : Char) : Refines (buf.sputc c) (hist.add [c]) := by
  unfold StreamBuf.sputc
  split
  · exact href.store _
  · exact href.overflow (some c)

theorem add_add (hist : History) (first second : Str) :
    (hist.add first).add second = hist.add (first ++ second) := by
  unfold History.add
  rw [append_assoc]

theorem xsputn (href : Refines buf hist) (s : Str) : Refines (buf.xsputn s) (hist.add s) := by
  induction hlength : s.length using Nat.strong_induction_on generalizing buf hist s with
  | _ length ih =>
    rw [StreamBuf.xsputn]
    split
    · exact href.store _
    · have hfts := buf.fits
      have hrom : buf.putArea.length + (s.take (buf.bufsize - buf.putArea.length)).length
          ≤ buf.bufsize := by
        rw [length_take]
        omega
      have hfll := href.store hrom
      have hspl := take_append_drop (buf.bufsize - buf.putArea.length) s
      dsimp only
      split
      next hrst =>
        rw [hrst, append_nil] at hspl
        have hadd : hist.add s = hist.add (s.take (buf.bufsize - buf.putArea.length)) := by
          rw [hspl]
        rw [hadd]
        exact hfll
      next c rest hrst =>
        rw [hrst] at hspl
        have hlss : rest.length < length := by
          rw [← hlength, ← hspl, length_append, length_cons]
          omega
        have hwri := ih rest.length hlss (hfll.overflow (some c)) rest rfl
        rw [add_add, add_add, Option.toList_some, singleton_append, hspl] at hwri
        exact hwri

theorem finish (href : Refines buf history) :
    Refines buf.finish ⟨history.finished ++ [history.current], []⟩ := by
  obtain ⟨hlt, done, opened, hlay⟩ := href.sync
  refine ⟨hlt, done ++ [opened], [], ?_, ?_, ?_, ?_, by simp⟩
  · have hmar : StreamBuf.eodMarker = frame 'd' [] := by decide
    unfold StreamBuf.finish
    simp [hlay.written_eq, hmar, framed]
  · rw [hlay.finished_eq, hlay.current_eq, StreamBuf.putArea_sync, append_nil, map_append]
    rfl
  · exact buf.putArea_sync.symm
  · intro pieces hpcs
    rw [mem_append, mem_singleton] at hpcs
    cases hpcs with
    | inl hdon => exact hlay.done_pieces pieces hdon
    | inr heq => rw [heq]; exact hlay.opened_pieces

theorem apply (href : Refines buf hist) (op : Op) : Refines (buf.apply op) (hist.apply op) := by
  cases op with
  | put c => exact href.sputc c
  | write s => exact href.xsputn s
  | flush => exact href.sync
  | overflow c => exact href.overflow c
  | finish => exact href.finish

theorem run (hbuf : bufsize < 2 ^ 28) (ops : List Op) : Refines (.run bufsize ops) (.run ops) := by
  induction ops using reverseRecOn with
  | nil => exact new hbuf
  | append_singleton ops op ih =>
    unfold StreamBuf.run History.run
    rw [foldl_append, foldl_append]
    exact ih.apply op

end Refines

/-- So many calls of `receive`. A call that returns true ends a message; `strm` is what the
message has so far. -/
def Connection.decode : Nat → Connection → Str → Except Failure (List Str × Str × Connection)
  | 0, connection, strm => .ok ([], strm, connection)
  | calls + 1, connection, strm =>
    match connection.receive .empty strm with
    | .error failure => .error failure
    | .ok received =>
      if received.last then
        (received.connection.decode calls []).map fun decoded =>
          (received.strm :: decoded.1, decoded.2)
      else received.connection.decode calls received.strm

def after (before : List Str) (decoded : List Str × Str × Connection) :
    List Str × Str × Connection :=
  (before ++ decoded.1, decoded.2)

theorem after_nil : after [] = id := rfl

theorem after_comp (first second : List Str) : after first ∘ after second = after (first ++ second) := by
  funext decoded
  exact congrArg (·, decoded.2) (append_assoc ..).symm

section

variable {connection : Connection} {rest strm : Str} {pieces : List Str} {done : List (List Str)}

theorem decode_pieces (hrea : connection.Ready (pieces.flatMap (frame 'd') ++ rest))
    (hpcs : ∀ piece ∈ pieces, piece ≠ [] ∧ piece.length < 2 ^ 28) (strm : Str) :
    ∃ next : Connection, (∀ calls, connection.decode (pieces.length + calls) strm
        = next.decode calls (strm ++ pieces.flatten)) ∧ next.Ready rest := by
  induction pieces generalizing connection strm with
  | nil =>
    refine ⟨connection, fun calls => ?_, hrea⟩
    rw [length_nil, zero_add, flatten_nil, append_nil]
  | cons piece pieces ih =>
    rw [flatMap_cons, append_assoc] at hrea
    have hpie := hpcs piece mem_cons_self
    obtain ⟨between, hrcv, hbet⟩ := hrea.receive_data hpie.1 hpie.2
    obtain ⟨next, hdec, hnxt⟩ := ih hbet
      (fun other hoth => hpcs other (mem_cons_of_mem _ hoth)) (strm ++ piece)
    refine ⟨next, fun calls => ?_, hnxt⟩
    rw [length_cons, add_right_comm, Connection.decode, hrcv, flatten_cons, ← append_assoc]
    exact hdec calls

theorem decode_framed (hrea : connection.Ready (framed pieces ++ rest))
    (hpcs : ∀ piece ∈ pieces, piece ≠ [] ∧ piece.length < 2 ^ 28) :
    ∃ next : Connection, (∀ calls, connection.decode (pieces.length + (1 + calls)) []
        = (next.decode calls []).map (after [pieces.flatten])) ∧ next.Ready rest := by
  unfold framed at hrea
  rw [append_assoc] at hrea
  obtain ⟨between, hdec, hbet⟩ := decode_pieces hrea hpcs []
  obtain ⟨next, hrcv, hnxt⟩ := hbet.receive_last
  refine ⟨next, fun calls => ?_, hnxt⟩
  rw [hdec, nil_append, add_comm 1, Connection.decode, hrcv]
  rfl

theorem decode_done (hrea : connection.Ready (done.flatMap framed ++ rest))
    (hdon : ∀ pieces ∈ done, ∀ piece ∈ pieces, piece ≠ [] ∧ piece.length < 2 ^ 28) :
    ∃ count, ∃ next : Connection, (∀ calls, connection.decode (count + calls) []
        = (next.decode calls []).map (after (done.map flatten))) ∧ next.Ready rest := by
  induction done generalizing connection with
  | nil =>
    refine ⟨0, connection, fun calls => ?_, hrea⟩
    rw [zero_add, map_nil, after_nil, Except.map_id, id]
  | cons pieces done ih =>
    rw [flatMap_cons, append_assoc] at hrea
    obtain ⟨between, hfra, hbet⟩ := decode_framed hrea (hdon pieces mem_cons_self)
    obtain ⟨count, next, hdec, hnxt⟩ :=
      ih hbet fun other hoth => hdon other (mem_cons_of_mem _ hoth)
    refine ⟨pieces.length + (1 + count), next, fun calls => ?_, hnxt⟩
    rw [add_assoc, add_assoc, hfra, hdec, map_cons, ← singleton_append, ← after_comp]
    cases next.decode calls [] <;> rfl

end

/-- What a stream buffer sends is decoded to the messages that were finished, in their order;
what was written since the last of them has been received, or is still in the put area. -/
theorem decode_run {bufsize : Nat} (hbufsize : bufsize < 2 ^ 28) (ops : List Op)
    {connection : Connection} {rest : Str}
    (hready : connection.Ready ((StreamBuf.run bufsize ops).written ++ rest)) :
    ∃ calls strm next, connection.decode calls [] = .ok ((History.run ops).finished, strm, next)
      ∧ strm ++ (StreamBuf.run bufsize ops).putArea = (History.run ops).current ∧ next.Ready rest := by
  obtain ⟨-, done, opened, hlay⟩ := Refines.run hbufsize ops
  rw [hlay.written_eq, append_assoc] at hready
  obtain ⟨count, between, hdone, hbet⟩ := decode_done hready hlay.done_pieces
  obtain ⟨next, hope, hnext⟩ := decode_pieces hbet hlay.opened_pieces []
  refine ⟨count + (opened.length + 0), opened.flatten, next, ?_, hlay.current_eq.symm, hnext⟩
  rw [hdone, hope, hlay.finished_eq, nil_append, Connection.decode]
  exact congrArg (fun finished => Except.ok (finished, _)) (append_nil _)

def sampleOps : List Op :=
  [.flush, .overflow none, .finish, .write "abc".toList, .put 'd', .flush, .finish, .put 'e']

def sampleReader : Connection where
  sock := {
    incoming := (StreamBuf.run 3 sampleOps).written
    events := fun n => ⟨[.eintr], .data (n % 3 + 1)⟩ }
  recvBufferSize := 9

theorem decode_run_sample : ∃ calls strm next,
      sampleReader.decode calls [] = .ok (["".toList, "abcd".toList], strm, next)
        ∧ strm ++ (StreamBuf.run 3 sampleOps).putArea = ['e'] ∧ next.Ready [] :=
  decode_run (by decide) sampleOps ⟨by decide, (append_nil _).symm, fun n => ⟨n % 3 + 1, rfl⟩⟩

end Bes.Ppt
