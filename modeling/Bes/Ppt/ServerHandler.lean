import Bes.Ppt.StreamBuf

/-! The responses of `BESServerHandler::execute`. Their text goes through a `PPTStreamBuf`, while
the status of an error is sent past that buffer. -/
namespace Bes.Ppt
open Dispatch Lib List

/-- What `BESXMLInterface` does with a command: what it writes before `execute_request` returns,
the status, and what it writes in `finish`. -/
structure Reply where
  output : List Op
  status : Int
  closing : List Op
  unfinished : Op.finish ∉ output ++ closing

def statusExtensions (status : Int) : Extensions :=
  let extensions := OrderedMap.empty.put "status".toList "error".toList
  if status = 2 then extensions.put "exit".toList "true".toList else extensions

/-- The buffer when what it has written is on its way. -/
def StreamBuf.drained (fds : StreamBuf) : StreamBuf := { fds with written := [] }

/-- A round of the loop from `execute_request` on: the bytes sent, and the buffer. -/
def respond (fds : StreamBuf) (reply : Reply) : Str × StreamBuf :=
  let fds := reply.output.foldl .apply fds.drained
  let status := if reply.status = 0 then [] else sendExtensions (statusExtensions reply.status)
  let finished := (reply.closing.foldl .apply fds.drained).finish
  (fds.written ++ status ++ finished.written, finished)

def responses (fds : StreamBuf) : List Reply → Str
  | [] => []
  | reply :: replies => (respond fds reply).1 ++ responses (respond fds reply).2 replies

def Reply.text (reply : Reply) : Str := (History.run (reply.output ++ reply.closing)).current

def Reply.extensions (reply : Reply) : Extensions :=
  if reply.status = 0 then .empty else statusExtensions reply.status

theorem History.foldl_apply (hunf : Op.finish ∉ ops) (hist : History) :
    ops.foldl History.apply hist = hist.add (History.run ops).current := by
  unfold History.run
  induction ops using reverseRecOn with
  | nil => simp [History.add, History.new]
  | append_singleton ops op ih =>
    rw [mem_append, mem_singleton, not_or] at hunf
    rw [foldl_concat, foldl_concat, ih hunf.1]
    cases op with
    | finish => exact absurd rfl hunf.2
    | flush => rfl
    | _ => exact Refines.add_add ..

variable {fds : StreamBuf} {pieces : List Str} {rest : Str} {connection : Connection}

theorem refines_drained (hlt : fds.bufsize < 2 ^ 28) (hunf : Op.finish ∉ ops) :
    Refines (ops.foldl .apply fds.drained) ⟨[], fds.putArea ++ (History.run ops).current⟩ := by
  have hfld : ∀ buf hist, Refines buf hist → Refines (ops.foldl .apply buf) (ops.foldl .apply hist) := by
    clear hunf
    induction ops with
    | nil => exact fun _ _ href => href
    | cons op ops ih => exact fun buf hist href => ih _ _ (href.apply op)
  have href := hfld fds.drained ⟨[], fds.putArea⟩ ⟨hlt, [], [], rfl, rfl, rfl, by simp, by simp⟩
  rwa [History.foldl_apply hunf] at href

def Sendable (pieces : List Str) : Prop := ∀ piece ∈ pieces, piece ≠ [] ∧ piece.length < 2 ^ 28

/-- The status stands between two chunks of the response. -/
theorem respond_eq (hlt : fds.bufsize < 2 ^ 28) (hput : fds.putArea = []) (reply : Reply) :
    (respond fds reply).2.bufsize < 2 ^ 28 ∧ (respond fds reply).2.putArea = [] ∧
      ∃ first second, Sendable first ∧ Sendable second ∧ reply.text = first.flatten ++ second.flatten ∧
        (respond fds reply).1 =
          first.flatMap (frame 'd') ++ sendExtensions reply.extensions ++ framed second := by
  have hunf := reply.unfinished
  rw [mem_append, not_or] at hunf
  obtain ⟨hmid, done, first, hlay⟩ := refines_drained hlt hunf.1
  obtain ⟨hend, done', opened, hlay'⟩ := (refines_drained hmid hunf.2).finish
  obtain rfl := map_eq_nil_iff.mp hlay.finished_eq.symm
  obtain ⟨second, rfl, hsec⟩ := map_eq_singleton_iff.mp hlay'.finished_eq.symm
  obtain ⟨hope, hempty⟩ := append_eq_nil_iff.mp hlay'.current_eq.symm
  obtain rfl : opened = [] := by
    apply eq_nil_iff_forall_not_mem.mpr
    intro piece hpie
    exact (hlay'.opened_pieces piece hpie).1 (flatten_eq_nil_iff.mp hope piece hpie)
  refine ⟨hend, hempty, first, second, hlay.opened_pieces, hlay'.done_pieces second mem_cons_self, ?_, ?_⟩
  · unfold Reply.text History.run
    have hcur := hlay.current_eq
    rw [hput, nil_append] at hcur
    rw [foldl_append, History.foldl_apply hunf.2, hsec, ← append_assoc, ← hcur]
    rfl
  · unfold respond Reply.extensions
    dsimp only
    rw [hlay.written_eq, hlay'.written_eq, flatMap_singleton, flatMap_nil, flatMap_nil, append_nil,
      nil_append]
    split <;> rfl

theorem Connection.Ready.data (hrea : connection.Ready (pieces.flatMap (frame 'd') ++ rest))
    (hsecond : Sendable pieces) (extensions : Extensions) (strm : Str) :
    ∃ next : Connection, next.Ready rest ∧ ∀ fuel, connection.receiveUntil (pieces.length + fuel)
      extensions strm = next.receiveUntil fuel extensions (strm ++ pieces.flatten) := by
  induction pieces generalizing connection strm with
  | nil => exact ⟨connection, hrea, fun fuel => by simp⟩
  | cons piece pieces ih =>
    rw [flatMap_cons, append_assoc] at hrea
    have hpie := hsecond piece mem_cons_self
    obtain ⟨between, hreceive, hbet⟩ := hrea.receive_data hpie.1 hpie.2
    obtain ⟨next, hnext, hunt⟩ := ih hbet (fun other hother => hsecond other (mem_cons_of_mem _ hother))
      (strm ++ piece)
    refine ⟨next, hnext, fun fuel => ?_⟩
    rw [length_cons, add_right_comm, receiveUntil_of_not_last hreceive rfl, hunt, flatten_cons,
      append_assoc]

theorem status_sent (status : Int) : ∃ text, sendExtensions (statusExtensions status) = frame 'x' text ∧
    text ≠ [] ∧ text.length < 2 ^ 28 ∧ readExtensions .empty text = .ok (statusExtensions status) := by
  unfold statusExtensions
  split
  · exact ⟨_, rfl, by decide +kernel, by decide +kernel, by decide +kernel⟩
  · exact ⟨_, rfl, by decide +kernel, by decide +kernel, by decide +kernel⟩

theorem Connection.Ready.status (reply : Reply)
    (hrea : connection.Ready (sendExtensions reply.extensions ++ rest)) (strm : Str) :
    ∃ calls ≤ 1, ∃ next : Connection, next.Ready rest ∧ ∀ fuel,
      connection.receiveUntil (calls + fuel) .empty strm = next.receiveUntil fuel reply.extensions strm := by
  unfold Reply.extensions at hrea ⊢
  by_cases hsta : reply.status = 0
  · rw [if_pos hsta] at hrea ⊢
    exact ⟨0, Nat.zero_le 1, connection, hrea, fun fuel => by rw [zero_add]⟩
  · obtain ⟨text, hsecond, hne, hlt, hread⟩ := status_sent reply.status
    rw [if_neg hsta] at hrea ⊢
    rw [hsecond] at hrea
    obtain ⟨next, hreceive, hnext⟩ := hrea.receive_extensions hne hlt hread
    refine ⟨1, le_rfl, next, hnext, fun fuel => ?_⟩
    rw [add_comm, receiveUntil_of_not_last hreceive rfl]

theorem receiveUntil_response (hlt : fds.bufsize < 2 ^ 28) (hput : fds.putArea = []) (reply : Reply) :
    ∃ calls, ∀ fuel (client : Connection) rest, calls ≤ fuel → client.Ready ((respond fds reply).1 ++ rest) →
      ∃ next, client.receiveUntil fuel .empty [] =
        some (.ok ⟨true, reply.extensions, reply.text, next⟩) ∧ next.Ready rest := by
  obtain ⟨-, -, first, second, hfirst, hsec, htext, hresult⟩ := respond_eq hlt hput reply
  refine ⟨first.length + second.length + 2, fun fuel client rest hful hrea => ?_⟩
  rw [hresult, append_assoc, append_assoc] at hrea
  obtain ⟨between, hbet, hdat⟩ := hrea.data hfirst .empty []
  obtain ⟨calls, hcal, after, hafter, hsta⟩ := hbet.status reply first.flatten
  obtain ⟨left, rfl⟩ := Nat.exists_eq_add_of_le (by omega : first.length + calls ≤ fuel)
  obtain ⟨next, hlast, hnext⟩ := receiveUntil_pieces reply.extensions first.flatten hafter hsec
    (by omega : second.length < left)
  refine ⟨next, ?_, hnext⟩
  rw [add_assoc, hdat, nil_append, hsta, hlast, htext]

/-- The client reads every response whole, and the status of an error with the response it belongs to,
however much of the response was sent before the error. -/
theorem receiveMessages_responses (fds : StreamBuf) (hbufsize : fds.bufsize < 2 ^ 28)
    (hputArea : fds.putArea = []) (replies : List Reply) : ∃ calls, ∀ fuel (client : Connection) rest,
      calls ≤ fuel → client.Ready (responses fds replies ++ rest) →
      ∃ next, client.receiveMessages fuel replies.length =
        some (.ok (replies.map fun reply => (reply.text, reply.extensions), next)) ∧ next.Ready rest := by
  induction replies generalizing fds with
  | nil => exact ⟨0, fun fuel client rest _ hrea => ⟨client, rfl, hrea⟩⟩
  | cons reply replies ih =>
    obtain ⟨hlt, hput, -⟩ := respond_eq hbufsize hputArea reply
    obtain ⟨calls, hone⟩ := receiveUntil_response hbufsize hputArea reply
    obtain ⟨more, hall⟩ := ih _ hlt hput
    refine ⟨max calls more, fun fuel client rest hful hrea => ?_⟩
    rw [responses, append_assoc] at hrea
    obtain ⟨between, hunt, hbet⟩ := hone fuel client _ (le_of_max_le_left hful) hrea
    obtain ⟨next, hrest, hnext⟩ := hall fuel between rest (le_of_max_le_right hful) hbet
    refine ⟨next, ?_, hnext⟩
    simp [Connection.receiveMessages, hunt, hrest]

/-- The error comes when the first four bytes of the response have been sent. -/
def failedReply : Reply where
  output := [.write "<bes>".toList]
  status := 2
  closing := [.put '!']
  unfinished := by simp

def failedClient : Connection where
  sock := ⟨responses (.new 4) [failedReply], fun n => ⟨[.eintr], .data (n % 3 + 1)⟩⟩
  recvBufferSize := 9

theorem receiveMessages_responses_failed :
    failedClient.sock.incoming =
        "0000004d<bes0000017xexit=true;status=error;0000002d>!0000000d".toList ∧
      ∃ calls next, failedClient.receiveMessages calls 1 =
        some (.ok ([("<bes>!".toList, statusExtensions 2)], next)) := by
  refine ⟨by decide +kernel, ?_⟩
  obtain ⟨calls, hall⟩ := receiveMessages_responses (.new 4) (by decide) rfl [failedReply]
  obtain ⟨next, hreceive, -⟩ := hall calls failedClient [] le_rfl
    ⟨by decide, (append_nil _).symm, fun n => ⟨_, rfl⟩⟩
  exact ⟨calls, next, hreceive⟩

end Bes.Ppt
