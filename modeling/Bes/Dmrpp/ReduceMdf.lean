import Bes.Dispatch.Util
import Bes.Lib.Find

/-! `reduce_mdf`: runs that share one file of recorded names and digests. -/
namespace Bes.Dmrpp.ReduceMdf
open Dispatch Lib.Find List

variable {Data : Type} (sha256 : Data → Fin 32 → UInt8)

def toHex (s : UInt8) : Str := Nat.toDigits 16 s.toNat

def retrieveDataSha256 (data : Data) : Str := (ofFn (sha256 data)).flatMap toHex

inductive Found
  | stored (names : Str)
  | malformed
  | absent

def search (sha256Buf text : Str) : Found :=
  if text = [] then .absent
  else
    let shaLine := text.takeWhile (· ≠ '\n')
    match find shaLine [' '] 0 with
    | none => .malformed
    | some fnameEpos =>
      match find shaLine [' '] (fnameEpos + 1) with
      | none => .malformed
      | some dnameEpos =>
        if shaLine.drop (dnameEpos + 1) = sha256Buf then
          .stored (shaLine.take fnameEpos ++
            ' ' :: (shaLine.drop (fnameEpos + 1)).take (dnameEpos - fnameEpos - 1))
        else search sha256Buf (text.drop (shaLine.length + 1))
termination_by text.length
decreasing_by
  have hpos := length_pos_iff.mpr ‹text ≠ []›
  rw [length_drop]
  omega

structure Run (Data : Type) where
  h5 : Str
  dmrpp : Str
  data : Data
  h5_plain : ' ' ∉ h5 ∧ '\n' ∉ h5
  dmrpp_plain : ' ' ∉ dmrpp ∧ '\n' ∉ dmrpp

/-- The line that `write_sha256_file` appends, without its end. -/
def Run.line (run : Run Data) : Str :=
  run.h5 ++ ' ' :: (run.dmrpp ++ ' ' :: retrieveDataSha256 sha256 run.data)

structure Outcome where
  retValue : Int
  recording : Str
  stored : Option Str

/-- A recording file that does not exist is written first, and then searched. -/
def updateSha256File (run : Run Data) (recording : Option Str) : Outcome :=
  let entry := run.line sha256 ++ ['\n']
  let text := recording.getD entry
  match search (retrieveDataSha256 sha256 run.data) text with
  | .stored names => ⟨0, text, some names⟩
  | .malformed => ⟨-1, text, none⟩
  | .absent => ⟨1, text ++ entry, none⟩

theorem newline_notMem (data : Data) : '\n' ∉ retrieveDataSha256 sha256 data := by
  have hdig : ∀ n < 256, '\n' ∉ Nat.toDigits 16 n := by decide +kernel
  intro h
  obtain ⟨s, -, hs⟩ := mem_flatMap.mp h
  exact hdig s.toNat s.toNat_lt hs

theorem search_line (run : Run Data) :
    ∃ names, search (retrieveDataSha256 sha256 run.data) (run.line sha256 ++ ['\n']) =
      .stored names := by
  have hlin : (run.line sha256 ++ ['\n']).takeWhile (· ≠ '\n') = run.line sha256 := by
    have hno : '\n' ∉ run.line sha256 := by
      simp [Run.line, newline_notMem, run.h5_plain.2, run.dmrpp_plain.2]
    rw [takeWhile_append_of_pos (by grind)]
    simp
  have hfst : find (run.line sha256) [' '] 0 = some run.h5.length := by
    rw [find_zero]
    exact firstAt_char run.h5_plain.1 _
  have hsnd : find (run.line sha256) [' '] (run.h5.length + 1) =
      some (run.h5.length + 1 + run.dmrpp.length) := by
    have hlen : run.h5.length + 1 = (run.h5 ++ [' ']).length := by simp
    rw [Run.line, append_cons, hlen, find_append_length, firstAt_char run.dmrpp_plain.1]
    simp [Nat.add_comm]
  have hsha : (run.line sha256).drop (run.h5.length + 1 + run.dmrpp.length + 1) =
      retrieveDataSha256 sha256 run.data := by
    rw [Run.line, append_cons, append_cons run.dmrpp, ← append_assoc]
    exact drop_left' (by grind)
  rw [search, if_neg (by simp)]
  simp only [hlin, hfst, hsnd, hsha, ↓reduceIte]
  exact ⟨_, rfl⟩

def recordingAfter (runs : List (Run Data)) : Option Str :=
  runs.foldl (fun recording run => some (updateSha256File sha256 run recording).recording) none

def Reuses [DecidableEq Data] (runs : List (Run Data)) : Prop :=
  ∀ before run after, runs = before ++ run :: after →
    let recording := recordingAfter sha256 before
    let outcome := updateSha256File sha256 run recording
    if ∃ earlier ∈ before, earlier.data = run.data then
      outcome.retValue = 0 ∧ ∃ earlier ∈ before, earlier.data = run.data ∧
        outcome.stored = some (earlier.h5 ++ ' ' :: earlier.dmrpp)
    else
      outcome.retValue = 1 ∧ outcome.recording = recording.getD [] ++ run.line sha256 ++ ['\n']

theorem not_reuses_cons [DecidableEq Data] (run : Run Data) (runs : List (Run Data)) :
    ¬ Reuses sha256 (run :: runs) := by
  intro h
  obtain ⟨names, hsto⟩ := search_line sha256 run
  have hrun := h [] run runs rfl
  simp [updateSha256File, recordingAfter, hsto] at hrun

theorem reuses_iff [DecidableEq Data] (runs : List (Run Data)) : Reuses sha256 runs ↔ runs = [] := by
  cases runs with
  | nil => simp [Reuses]
  | cons run runs => simp [not_reuses_cons]

theorem first_not_reuses :
    ¬ Reuses id [⟨['f'], ['d'], fun _ => 7, by decide, by decide⟩] :=
  not_reuses_cons id _ []

end Bes.Dmrpp.ReduceMdf
