import Bes.Ppt.StreamBuf

/-! Writes that fail or are cut short. `Socket::send` looks at the result of `write` only for a failure, and
`PPTStreamBuf` does not look at it at all. -/
namespace Bes.Ppt
open Dispatch Lib List

/-- The result of a call of `write`: a failure, or so many bytes of the block, and at least one. -/
inductive WriteResult where
  | failed
  | wrote (count : Nat)
  deriving DecidableEq

def WriteResult.part : WriteResult → Str → Str
  | .failed, _ => []
  | .wrote count, block => block.take (max count 1)

/-- The result for a block is -1 as an `int`. -/
def WriteResult.MinusOne (result : WriteResult) (block : Str) : Prop :=
  result = .failed ∨ (result.part block).length % 2 ^ 32 = 2 ^ 32 - 1

instance (result : WriteResult) (block : Str) : Decidable (result.MinusOne block) :=
  inferInstanceAs (Decidable (_ ∨ _))

structure Descriptor where
  bytes : Str
  calls : Nat

abbrev Environment := Nat → WriteResult

section

variable (env : Environment)

def Descriptor.write (descriptor : Descriptor) (block : Str) : Descriptor :=
  ⟨descriptor.bytes ++ (env descriptor.calls).part block, descriptor.calls + 1⟩

/-- `str.substr(0, str.length())`, where the length goes through an `int`. -/
def wholeString (str : Str) : Str :=
  let stop := str.length % 2 ^ 32
  if stop < 2 ^ 31 then str.take stop else str

def sendFrames : List Str → Descriptor → Descriptor × Bool
  | [], descriptor => (descriptor, false)
  | buffer :: rest, descriptor =>
      let after := descriptor.write env (wholeString buffer)
      if (env descriptor.calls).MinusOne (wholeString buffer) then (after, true) else sendFrames rest after

end

/-- The frames of `sendChunk`, each of which is sent on its own. -/
def chunkFrames (buffer : Str) (extensions : Extensions) : List Str :=
  (if extensions.size = 0 then [] else [frame 'x' (encodeExtensions extensions)]) ++ [frame 'd' buffer]

def messageFrames (buffer : Str) (extensions : Extensions) : List Str :=
  if buffer ≠ [] then chunkFrames buffer extensions ++ chunkFrames [] .empty
  else chunkFrames [] extensions

namespace StreamBuf

def syncWrites (buf : StreamBuf) : List Str :=
  if buf.putArea ≠ [] then [Hex.padded 7 buf.putArea.length ++ ['d'], buf.putArea] else []

def finishWrites (buf : StreamBuf) : List Str := buf.syncWrites ++ [eodMarker]

def sputcWrites (buf : StreamBuf) : List Str :=
  if buf.putArea.length < buf.bufsize then [] else buf.syncWrites

def xsputnWrites (buf : StreamBuf) (s : Str) : List Str :=
  if buf.putArea.length + s.length ≤ buf.bufsize then []
  else
    let len := buf.bufsize - buf.putArea.length
    let full := buf.store (s.take len) (by
      have hfits := buf.fits
      rw [length_take]
      omega)
    match _hrest : s.drop len with
    | [] => []
    | c :: rest => full.syncWrites ++ (full.overflow (some c)).xsputnWrites rest
termination_by s.length
decreasing_by
  have hlength := congrArg length _hrest
  rw [length_drop, length_cons] at hlength
  omega

/-- The blocks that a call on the buffer writes. None of the results is looked at, so the put area goes on as
if all had been written. -/
def writes (buf : StreamBuf) : Op → List Str
  | .put _ => buf.sputcWrites
  | .write s => buf.xsputnWrites s
  | .flush => buf.syncWrites
  | .overflow _ => buf.syncWrites
  | .finish => buf.finishWrites

end StreamBuf

inductive SendStep where
  | message (buffer : Str) (extensions : Extensions)
  | stream (op : Op)

/-- The stream buffer and the descriptor, and whether a call has told of a failure. `sync` returns 0 and
`overflow` its argument, whatever the calls of `write` return, so that only `PPTConnection::send` can tell. -/
structure Sender where
  buf : StreamBuf
  descriptor : Descriptor
  told : Bool

def Sender.apply (env : Environment) (sender : Sender) : SendStep → Sender
  | .stream op =>
      { sender with
        buf := sender.buf.apply op
        descriptor := (sender.buf.writes op).foldl (Descriptor.write env) sender.descriptor }
  | .message buffer extensions =>
      let sent := sendFrames env (messageFrames buffer extensions) sender.descriptor
      { sender with descriptor := sent.1, told := sender.told || sent.2 }

def Sender.run (env : Environment) (bufsize : Nat) (steps : List SendStep) : Sender :=
  steps.foldl (Sender.apply env) ⟨.new bufsize, ⟨[], 0⟩, false⟩

/-- The blocks that a sender has to write, and whether `PPTConnection::send` writes them. -/
def blocks : StreamBuf → List SendStep → List (Bool × Str)
  | _, [] => []
  | buf, .stream op :: rest => (buf.writes op).map (Prod.mk false) ++ blocks (buf.apply op) rest
  | buf, .message buffer extensions :: rest =>
      (messageFrames buffer extensions).map (Prod.mk true) ++ blocks buf rest

def expected (bufsize : Nat) (steps : List SendStep) : Str :=
  ((blocks (.new bufsize) steps).map Prod.snd).flatten

def Reported (env : Environment) (bufsize : Nat) (steps : List SendStep) : Prop :=
  (Sender.run env bufsize steps).told = true ∨
    (Sender.run env bufsize steps).descriptor.bytes = expected bufsize steps

/-- What is passed to `write` for a block. -/
def passed (block : Bool × Str) : Str := if block.1 then wholeString block.2 else block.2

def MessageFails (env : Environment) (first : Nat) (blocks : List (Bool × Str)) : Prop :=
  ∃ i block, blocks[i]? = some block ∧ block.1 = true ∧ (env (first + i)).MinusOne (passed block)

def AllWhole (env : Environment) (first : Nat) (blocks : List (Bool × Str)) : Prop :=
  ∀ i block, blocks[i]? = some block → (env (first + i)).part (passed block) = block.2

def delivered (env : Environment) : Nat → List (Bool × Str) → Str
  | _, [] => []
  | call, block :: rest => (env call).part (passed block) ++ delivered env (call + 1) rest

section

variable {env : Environment}

theorem delivered_append (call : Nat) (first second : List (Bool × Str)) :
    delivered env call (first ++ second) =
      delivered env call first ++ delivered env (call + first.length) second := by
  induction first generalizing call with
  | nil => rfl
  | cons block first ih =>
    rw [cons_append, delivered, delivered, ih, append_assoc, length_cons, add_right_comm, add_assoc]

theorem messageFails_cons (call : Nat) (block : Bool × Str) (rest : List (Bool × Str)) :
    MessageFails env call (block :: rest) ↔
      (block.1 = true ∧ (env call).MinusOne (passed block)) ∨ MessageFails env (call + 1) rest := by
  constructor
  · intro h
    obtain ⟨i, other, hother, hmes, hfail⟩ := h
    cases i with
    | zero =>
      cases hother
      exact .inl ⟨hmes, hfail⟩
    | succ i =>
      rw [← add_assoc, add_right_comm] at hfail
      exact .inr ⟨i, other, hother, hmes, hfail⟩
  · intro h
    cases h with
    | inl hfirst => exact ⟨0, block, rfl, hfirst.1, hfirst.2⟩
    | inr hrest =>
      obtain ⟨i, other, hother, hmes, hfail⟩ := hrest
      rw [add_right_comm, add_assoc] at hfail
      exact ⟨i + 1, other, hother, hmes, hfail⟩

theorem messageFails_append (call : Nat) (first second : List (Bool × Str)) :
    MessageFails env call (first ++ second) ↔
      MessageFails env call first ∨ MessageFails env (call + first.length) second := by
  induction first generalizing call with
  | nil => simp [MessageFails]
  | cons block first ih =>
    rw [cons_append, messageFails_cons, messageFails_cons, ih, or_assoc, length_cons,
      add_right_comm call, add_assoc]

theorem length_part_le (result : WriteResult) (block : Bool × Str) :
    (result.part (passed block)).length ≤ block.2.length := by
  have hpas : (passed block).length ≤ block.2.length := by
    unfold passed wholeString
    dsimp only
    split
    · split
      · exact length_take_le' _ _
      · exact le_refl _
    · exact le_refl _
  cases result with
  | failed => exact Nat.zero_le _
  | wrote count => exact le_trans (length_take_le' _ _) hpas

theorem length_delivered_le (call : Nat) (blocks : List (Bool × Str)) :
    (delivered env call blocks).length ≤ ((blocks.map Prod.snd).flatten).length := by
  induction blocks generalizing call with
  | nil => exact le_refl _
  | cons block rest ih =>
    rw [delivered, map_cons, flatten_cons, length_append, length_append]
    exact Nat.add_le_add (length_part_le _ block) (ih (call + 1))

theorem allWhole_cons (call : Nat) (block : Bool × Str) (rest : List (Bool × Str)) :
    AllWhole env call (block :: rest) ↔
      (env call).part (passed block) = block.2 ∧ AllWhole env (call + 1) rest := by
  constructor
  · intro h
    refine ⟨h 0 block rfl, ?_⟩
    intro i other hother
    have hwhole := h (i + 1) other hother
    rwa [← add_assoc, add_right_comm] at hwhole
  · intro h i other hother
    cases i with
    | zero =>
      cases hother
      exact h.1
    | succ i =>
      rw [← add_assoc, add_right_comm]
      exact h.2 i other hother

theorem delivered_eq_iff (call : Nat) (blocks : List (Bool × Str)) :
    delivered env call blocks = (blocks.map Prod.snd).flatten ↔ AllWhole env call blocks := by
  induction blocks generalizing call with
  | nil => simp [delivered, AllWhole]
  | cons block rest ih =>
    rw [allWhole_cons, ← ih, delivered, map_cons, flatten_cons]
    constructor
    · intro hall
      have hfirst := length_part_le (env call) block
      have hrest := @length_delivered_le env (call + 1) rest
      have hlen := congrArg length hall
      rw [length_append, length_append] at hlen
      exact append_inj hall (by omega)
    · intro hboth
      rw [hboth.1, hboth.2]

theorem foldl_write (list : List Str) (descriptor : Descriptor) :
    list.foldl (Descriptor.write env) descriptor =
      ⟨descriptor.bytes ++ delivered env descriptor.calls (list.map (Prod.mk false)),
        descriptor.calls + list.length⟩ := by
  induction list generalizing descriptor with
  | nil => simp [delivered]
  | cons block rest ih =>
    rw [foldl_cons, ih, map_cons, delivered]
    simp only [Descriptor.write, passed, length_cons, append_assoc, Bool.false_eq_true, if_false,
      add_assoc, add_comm 1]

theorem not_messageFails_stream (list : List Str) (call : Nat) :
    ¬ MessageFails env call (list.map (Prod.mk false)) := by
  intro hfail
  obtain ⟨i, block, hblock, hmes, -⟩ := hfail
  obtain ⟨text, -, rfl⟩ := mem_map.mp (mem_of_getElem? hblock)
  cases hmes

theorem sendFrames_eq (frames : List Str) (descriptor : Descriptor)
    (hfin : ¬ MessageFails env descriptor.calls (frames.map (Prod.mk true))) :
    sendFrames env frames descriptor =
      (⟨descriptor.bytes ++ delivered env descriptor.calls (frames.map (Prod.mk true)),
        descriptor.calls + frames.length⟩, false) := by
  induction frames generalizing descriptor with
  | nil => simp [sendFrames, delivered]
  | cons block rest ih =>
    rw [map_cons, messageFails_cons, not_or, not_and] at hfin
    have hfirst : ¬ (env descriptor.calls).MinusOne (wholeString block) := hfin.1 rfl
    rw [sendFrames, if_neg hfirst, ih _ hfin.2, map_cons, delivered]
    simp only [Descriptor.write, passed, length_cons, append_assoc, if_true, add_assoc, add_comm 1]

theorem sendFrames_told (frames : List Str) (descriptor : Descriptor)
    (hfail : MessageFails env descriptor.calls (frames.map (Prod.mk true))) :
    (sendFrames env frames descriptor).2 = true := by
  induction frames generalizing descriptor with
  | nil =>
    obtain ⟨i, block, hblock, -⟩ := hfail
    cases hblock
  | cons block rest ih =>
    rw [map_cons, messageFails_cons] at hfail
    rw [sendFrames]
    by_cases hfirst : (env descriptor.calls).MinusOne (wholeString block)
    · rw [if_pos hfirst]
    · rw [if_neg hfirst]
      exact ih _ (hfail.resolve_left fun h => hfirst h.2)

theorem told_foldl (steps : List SendStep) (htld : sender.told = true) :
    (steps.foldl (Sender.apply env) sender).told = true := by
  induction steps generalizing sender with
  | nil => exact htld
  | cons step rest ih =>
    apply ih
    cases step with
    | stream op => exact htld
    | message buffer extensions =>
      change (sender.told || _) = true
      rw [htld, Bool.true_or]

theorem blocks_cons (env : Environment) (sender : Sender) (step : SendStep) (rest : List SendStep) :
    blocks sender.buf (step :: rest) =
      blocks sender.buf [step] ++ blocks (sender.apply env step).buf rest := by
  cases step with
  | stream op => simp only [blocks, append_nil, Sender.apply]
  | message buffer extensions => simp only [blocks, append_nil, Sender.apply]

theorem apply_fine (sender : Sender) (step : SendStep)
    (hfin : ¬ MessageFails env sender.descriptor.calls (blocks sender.buf [step])) :
    (sender.apply env step).told = sender.told ∧ (sender.apply env step).descriptor =
        ⟨sender.descriptor.bytes ++ delivered env sender.descriptor.calls (blocks sender.buf [step]),
          sender.descriptor.calls + (blocks sender.buf [step]).length⟩ := by
  cases step with
  | stream op =>
    simp only [blocks, append_nil, length_map]
    exact ⟨rfl, foldl_write _ _⟩
  | message buffer extensions =>
    simp only [blocks, append_nil, length_map] at hfin ⊢
    simp only [Sender.apply, sendFrames_eq _ _ hfin, Bool.or_false, and_self]

theorem apply_told (sender : Sender) (step : SendStep)
    (hfail : MessageFails env sender.descriptor.calls (blocks sender.buf [step])) :
    (sender.apply env step).told = true := by
  cases step with
  | stream op =>
    simp only [blocks, append_nil] at hfail
    exact absurd hfail (not_messageFails_stream _ _)
  | message buffer extensions =>
    simp only [blocks, append_nil] at hfail
    change (sender.told || (sendFrames env _ sender.descriptor).2) = true
    rw [sendFrames_told _ _ hfail, Bool.or_true]

theorem run_spec (env : Environment) (steps : List SendStep) (sender : Sender) (hsil : sender.told = false) :
    ((steps.foldl (Sender.apply env) sender).told = true ↔
      MessageFails env sender.descriptor.calls (blocks sender.buf steps)) ∧
    (¬ MessageFails env sender.descriptor.calls (blocks sender.buf steps) →
      (steps.foldl (Sender.apply env) sender).descriptor.bytes =
        sender.descriptor.bytes ++ delivered env sender.descriptor.calls (blocks sender.buf steps)) := by
  induction steps generalizing sender with
  | nil => simp [blocks, delivered, hsil, MessageFails]
  | cons step rest ih =>
    rw [foldl_cons]
    by_cases hfail : MessageFails env sender.descriptor.calls (blocks sender.buf [step])
    · have hall : MessageFails env sender.descriptor.calls (blocks sender.buf (step :: rest)) := by
        rw [blocks_cons env, messageFails_append]
        exact .inl hfail
      have htld : (rest.foldl (Sender.apply env) (sender.apply env step)).told = true :=
        told_foldl rest (apply_told sender step hfail)
      exact ⟨⟨fun _ => hall, fun _ => htld⟩, fun hnot => absurd hall hnot⟩
    · obtain ⟨htld, hdes⟩ := apply_fine sender step hfail
      obtain ⟨hiff, hbytes⟩ := ih (sender.apply env step) (htld.trans hsil)
      rw [hdes] at hiff hbytes
      rw [blocks_cons env, messageFails_append, or_iff_right hfail]
      refine ⟨hiff, ?_⟩
      intro hfin
      rw [hbytes hfin, delivered_append, append_assoc]

end

/-- The sender is told, or everything arrives, exactly where a call for a message returns -1 or every call
of the run is carried out in full. -/
theorem reported_iff (env : Environment) (bufsize : Nat) (steps : List SendStep) :
    Reported env bufsize steps ↔
      MessageFails env 0 (blocks (.new bufsize) steps) ∨ AllWhole env 0 (blocks (.new bufsize) steps) := by
  obtain ⟨htold, hbytes⟩ := run_spec env steps ⟨.new bufsize, ⟨[], 0⟩, false⟩ rfl
  unfold Reported Sender.run
  by_cases hfail : MessageFails env 0 (blocks (.new bufsize) steps)
  · exact ⟨fun _ => .inl hfail, fun _ => .inl (htold.mpr hfail)⟩
  · rw [hbytes hfail, nil_append, ← delivered_eq_iff, or_iff_right hfail, or_iff_right]
    · rfl
    · intro h
      exact hfail (htold.mp h)

/-- The marker at the end is cut after its first byte, and `finish` says nothing. -/
theorem cut_marker_unreported : ¬ Reported (fun _ => .wrote 1) 16 [.stream .finish] := by
  unfold Reported
  decide

end Bes.Ppt
