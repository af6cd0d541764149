import Mathlib

/-! `BESUncompress3GZ::uncompress`: what `gzread` reads is written to a descriptor until `gzread`
returns 0. -/
namespace Bes.Dispatch.Uncompress3Gz
open List

/-- How `gzread` behaves: it gives the chunks in order, and then 0, or -1, again and again. -/
structure Source where
  chunks : List (List UInt8)
  failed : Bool
  chunk_pos : ∀ chunk ∈ chunks, 0 < chunk.length
  chunk_le : ∀ chunk ∈ chunks, chunk.length ≤ 4096

def Source.bytesRead (src : Source) (k : Nat) : Int :=
  match src.chunks[k]? with
  | some chunk => chunk.length
  | none => if src.failed then -1 else 0

/-- How `write` behaves: the count that each call returns, `none` for -1. After a failed read it is asked
for the largest `size_t`, so any count may come back. -/
structure Sink (src : Source) where
  count : Nat → Option Nat
  count_le : ∀ k, ∀ chunk ∈ src.chunks[k]?, ∀ n ∈ count k, n ≤ chunk.length

def Sink.bytesWritten (sink : Sink src) (k : Nat) : Int :=
  (sink.count k).elim (-1) fun n => (n : Int).bmod (2 ^ 32)

/-- The loop from its round `k` on, with what the descriptor has got so far. The exception reports the two
counts. -/
def uncompress (sink : Sink src) : Nat → Nat → List UInt8 → Option (Except (Int × Int) (List UInt8))
  | 0, _, _ => none
  | fuel + 1, k, out =>
      if src.bytesRead k = 0 then some (.ok out)
      else if sink.bytesWritten k < src.bytesRead k then
        some (.error (sink.bytesWritten k, src.bytesRead k))
      else uncompress sink fuel (k + 1) (out ++ (src.chunks[k]?.getD []).take ((sink.count k).getD 0))

def Uncompresses (sink : Sink src) : Prop :=
  ∃ fuel result, uncompress sink fuel 0 [] = some result ∧
    ∀ out, result = .ok out → src.failed = false ∧ out = src.chunks.flatten

variable {src : Source} {sink : Sink src}

theorem bytesRead_of_some (hchu : src.chunks[k]? = some chunk) : src.bytesRead k = chunk.length := by
  simp [Source.bytesRead, hchu]

theorem bytesRead_eq_zero : src.bytesRead k = 0 ↔ src.chunks[k]? = none ∧ src.failed = false := by
  cases hchu : src.chunks[k]? with
  | none => simp [Source.bytesRead, hchu]
  | some chunk =>
    have hpos := src.chunk_pos chunk (mem_of_getElem? hchu)
    rw [bytesRead_of_some hchu]
    simp [ne_nil_of_length_pos hpos]

theorem take_count (hchu : src.chunks[k]? = some chunk) (hall : ¬ sink.bytesWritten k < src.bytesRead k) :
    chunk.take ((sink.count k).getD 0) = chunk := by
  have hpos := src.chunk_pos chunk (mem_of_getElem? hchu)
  have hsma := src.chunk_le chunk (mem_of_getElem? hchu)
  rw [bytesRead_of_some hchu] at hall
  cases hcnt : sink.count k with
  | none =>
    simp only [Sink.bytesWritten, hcnt, Option.elim_none] at hall
    omega
  | some n =>
    have hn := sink.count_le k chunk hchu n hcnt
    have hint : sink.bytesWritten k = n := by
      rw [Sink.bytesWritten, hcnt, Option.elim_some, Int.bmod_eq_of_le]
      · omega
      · omega
    rw [hint] at hall
    exact take_of_length_le (by simpa using hall)

theorem failed_of_ended (hend : uncompress sink fuel k out = some result)
    (hno : ∀ j, ¬ sink.bytesWritten j < src.bytesRead j) : src.failed = false := by
  induction fuel generalizing k out with
  | zero => cases hend
  | succ fuel ih =>
    rw [uncompress, if_neg (hno k)] at hend
    split at hend
    next hzero =>
      exact (bytesRead_eq_zero.mp hzero).2
    · exact ih hend

theorem throws_of_failed (hfail : src.failed = true) (n : Nat) (out : List UInt8)
    (hthr : sink.bytesWritten (k + n) < src.bytesRead (k + n)) :
    ∃ fuel e, uncompress sink fuel k out = some (.error e) := by
  have hne : src.bytesRead k ≠ 0 := by
    rw [Ne, bytesRead_eq_zero, hfail]
    simp
  by_cases hnow : sink.bytesWritten k < src.bytesRead k
  · exact ⟨1, _, by rw [uncompress, if_neg hne, if_pos hnow]⟩
  · cases n with
    | zero => exact absurd hthr hnow
    | succ n =>
      rw [add_comm n, ← add_assoc] at hthr
      obtain ⟨fuel, e, hloop⟩ := throws_of_failed hfail n
        (out ++ (src.chunks[k]?.getD []).take ((sink.count k).getD 0)) hthr
      exact ⟨fuel + 1, e, by rw [uncompress, if_neg hne, if_neg hnow, hloop]⟩

theorem uncompress_of_not_failed (sink : Sink src) (hfail : src.failed = false) (n : Nat) (out : List UInt8)
    (hrest : k + n = src.chunks.length) : ∃ result, uncompress sink (n + 1) k out = some result ∧
      ∀ all, result = .ok all → all = out ++ (src.chunks.drop k).flatten := by
  induction n generalizing k out with
  | zero =>
    refine ⟨.ok out, ?_, ?_⟩
    · rw [uncompress, if_pos (bytesRead_eq_zero.mpr ⟨getElem?_eq_none (by omega), hfail⟩)]
    · rintro all ⟨⟩
      rw [drop_of_length_le (by omega), flatten_nil, append_nil]
  | succ n ih =>
    have hlt : k < src.chunks.length := by omega
    have hchu := getElem?_eq_getElem hlt
    have hne : src.bytesRead k ≠ 0 := by
      rw [Ne, bytesRead_eq_zero, hchu]
      simp
    by_cases hnow : sink.bytesWritten k < src.bytesRead k
    · exact ⟨_, by rw [uncompress, if_neg hne, if_pos hnow], fun _ h => by cases h⟩
    · rw [uncompress, if_neg hne, if_neg hnow, drop_eq_getElem_cons hlt, flatten_cons, ← append_assoc, hchu,
        Option.getD_some, take_count hchu hnow]
      exact ih _ (by omega)

theorem uncompresses_iff (sink : Sink src) :
    Uncompresses sink ↔ src.failed = false ∨ ∃ k, sink.bytesWritten k < src.bytesRead k := by
  constructor
  · rintro ⟨fuel, result, hend, -⟩
    by_contra! hno
    exact hno.1 (failed_of_ended hend fun j => not_lt.mpr (hno.2 j))
  · intro hcond
    cases hfail : src.failed with
    | false =>
      obtain ⟨result, hend, hall⟩ := uncompress_of_not_failed sink hfail src.chunks.length [] (zero_add _)
      exact ⟨_, result, hend, fun out hout => ⟨hfail, hall out hout⟩⟩
    | true =>
      obtain ⟨k, hthr⟩ := hcond.resolve_left (by simp [hfail])
      rw [← zero_add k] at hthr
      obtain ⟨fuel, e, hloop⟩ := throws_of_failed hfail k [] hthr
      exact ⟨fuel, _, hloop, fun _ h => by cases h⟩

def corrupt : Source := ⟨[], true, by simp, by simp⟩

def refusing : Sink corrupt := ⟨fun _ => none, by simp⟩

theorem refusing_not_uncompresses : ¬ Uncompresses refusing := by
  rintro ⟨fuel, result, hend, -⟩
  exact absurd (failed_of_ended hend fun _ => lt_irrefl (-1)) (by decide)

end Bes.Dispatch.Uncompress3Gz
