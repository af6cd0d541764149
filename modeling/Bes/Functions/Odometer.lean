import Bes.Functions.BBox

/-! The odometer of the function module under any sequence of calls: `next` counts the offset up by
one and turns the indices like wheels, `set_indices` computes the offset from the indices. -/
namespace Bes.Functions.BBox
open Lib.RowMajor Lib.MixedRadix List

def Odometer.reset (odometer : Odometer) : Odometer :=
  { odometer with indices := replicate odometer.shape.length 0, offset := 0 }

/-- The loop of `set_indices` over the reversed vectors; `chunk_size` has 32 bits. The source takes the
first round, with offset 0 and chunk size 1, before the loop. -/
def setLoop : List Nat → List Nat → Nat → Nat → Nat
  | size :: shape, i :: indices, offset, chunkSize =>
      setLoop shape indices (offset + chunkSize * i % 2 ^ 32) (chunkSize * size % 2 ^ 32)
  | _, _, offset, _ => offset

def Odometer.setIndices (odometer : Odometer) (indices : List Nat) : Odometer :=
  { odometer with indices, offset := setLoop odometer.shape.reverse indices.reverse 0 1 }

def Odometer.unsignedOffset (odometer : Odometer) : Nat := odometer.offset % 2 ^ 32

def Odometer.unsignedEnd (odometer : Odometer) : Nat := odometer.highestOffset % 2 ^ 32

inductive Reached (shape : List Nat) : Odometer → Prop
  | new : Reached shape (.new shape)
  | reset (h : Reached shape odometer) : Reached shape odometer.reset
  | setIndices (h : Reached shape odometer) (hbds : InBounds shape indices) :
      Reached shape (odometer.setIndices indices)
  | next (h : Reached shape odometer) (hlt : odometer.unsignedOffset < odometer.unsignedEnd) :
      Reached shape odometer.next

theorem setLoop_eq (hbds : InBounds shape indices) (offset : Nat) (hfit : chunkSize * shape.prod < 2 ^ 32) :
    setLoop shape indices offset chunkSize =
      offset + chunkSize * rowMajor shape.reverse indices.reverse := by
  induction hbds generalizing offset chunkSize with
  | nil => simp [setLoop]
  | @cons size i shape indices hi hrest ih =>
    rw [prod_cons, ← mul_assoc] at hfit
    have hpos : 0 < shape.prod := by
      rw [← prod_reverse]
      exact (Nat.zero_le _).trans_lt (rowMajor_lt (rel_reverse hrest))
    have hsize : chunkSize * size < 2 ^ 32 := (Nat.le_mul_of_pos_right _ hpos).trans_lt hfit
    have hterm : chunkSize * i < 2 ^ 32 := (Nat.mul_le_mul_left _ hi.le).trans_lt hsize
    rw [setLoop, Nat.mod_eq_of_lt hsize, Nat.mod_eq_of_lt hterm, ih _ hfit, reverse_cons, reverse_cons,
      rowMajor_append (by simp [hrest.length_eq]), rowMajor_singleton, prod_singleton]
    ring

section Calls

variable {shape : List Nat} (hfit : shape.prod < 2 ^ 32)
include hfit

theorem setIndices_eq (hbds : InBounds shape indices) (offset : Nat) (old : List Nat) :
    Odometer.setIndices ⟨shape, shape.prod, old, offset⟩ indices = .standing shape (rowMajor shape indices) := by
  have hloop := setLoop_eq (rel_reverse hbds) 0 (by rwa [prod_reverse, one_mul])
  rw [reverse_reverse, reverse_reverse, zero_add, one_mul] at hloop
  rw [Odometer.standing, unflatten_rowMajor hbds, Odometer.setIndices, hloop]

theorem Reached.cases (hpos : 0 < shape.prod) (h : Reached shape odometer) :
    ∃ indices offset, odometer = ⟨shape, shape.prod, indices, offset⟩ ∧ offset ≤ shape.prod ∧
      (offset < shape.prod → odometer = .standing shape offset) := by
  induction h with
  | new => exact ⟨_, 0, Odometer.new_eq shape, hpos.le, fun _ => Odometer.new_eq shape⟩
  | reset _ ih =>
    obtain ⟨indices, offset, rfl, _⟩ := ih
    refine ⟨_, 0, rfl, hpos.le, fun _ => ?_⟩
    rw [Odometer.standing, unflatten_zero]
    rfl
  | @setIndices _ indices _ hbds ih =>
    obtain ⟨old, offset, rfl, _⟩ := ih
    rw [setIndices_eq hfit hbds]
    exact ⟨_, _, rfl, (rowMajor_lt hbds).le, fun _ => rfl⟩
  | next _ hlt ih =>
    obtain ⟨indices, offset, rfl, hle, hsta⟩ := ih
    rw [Odometer.unsignedOffset, Odometer.unsignedEnd, Nat.mod_eq_of_lt hfit,
      Nat.mod_eq_of_lt (hle.trans_lt hfit)] at hlt
    refine ⟨_, offset + 1, rfl, hlt, fun hmore => ?_⟩
    rw [hsta hlt, Odometer.next_standing hmore]

theorem odometer_in_step (hpos : ∀ size ∈ shape, 1 ≤ size) (h : Reached shape odometer) :
    (odometer.unsignedOffset < odometer.unsignedEnd →
      odometer.unsignedOffset = rowMajor shape odometer.indices) ∧
    (∀ k < odometer.unsignedEnd - odometer.unsignedOffset,
      InBounds shape (Odometer.next^[k] odometer).indices ∧
      rowMajor shape (Odometer.next^[k] odometer).indices = odometer.unsignedOffset + k ∧
      (Odometer.next^[k] odometer).unsignedOffset = odometer.unsignedOffset + k) ∧
    (Odometer.next^[odometer.unsignedEnd - odometer.unsignedOffset] odometer).unsignedOffset =
      odometer.unsignedEnd := by
  obtain ⟨indices, offset, hodo, hle, hsta⟩ := h.cases hfit (prod_pos hpos)
  have hoff : odometer.unsignedOffset = offset := by
    rw [hodo]
    exact Nat.mod_eq_of_lt (hle.trans_lt hfit)
  have hend : odometer.unsignedEnd = shape.prod := by
    rw [hodo]
    exact Nat.mod_eq_of_lt hfit
  have hnext : ∀ k, offset + k < shape.prod → Odometer.next^[k] odometer = .standing shape (offset + k) := by
    intro k
    induction k with
    | zero => exact hsta
    | succ k ih =>
      intro hlt
      rw [Function.iterate_succ_apply', ih (by omega), Odometer.next_standing (by omega), add_assoc]
  rw [hoff, hend]
  refine ⟨fun hlt => ?_, fun k hk => ?_, ?_⟩
  · rw [hsta hlt]
    exact (rowMajor_unflatten hlt).symm
  · rw [hnext k (by omega)]
    have hlt : offset + k < shape.prod := by omega
    exact ⟨inBounds_unflatten hlt, rowMajor_unflatten hlt, Nat.mod_eq_of_lt (hlt.trans hfit)⟩
  · cases hrest : shape.prod - offset with
    | zero =>
      rw [Function.iterate_zero_apply, hoff]
      omega
    | succ k =>
      have hlast : offset + k + 1 = shape.prod := by omega
      rw [Function.iterate_succ_apply', hnext k (by omega)]
      exact (congrArg (· % 2 ^ 32) hlast).trans (Nat.mod_eq_of_lt hfit)

end Calls

theorem odometer_in_step_matrix :
    (Odometer.next^[4] ((Odometer.new [2, 3]).setIndices [0, 2])).unsignedOffset = 6 := by
  have hbds : InBounds [2, 3] [0, 2] := .cons (by decide) (.cons (by decide) .nil)
  exact (odometer_in_step (by decide) (by decide) (.setIndices .new hbds)).2.2

end Bes.Functions.BBox
