import Bes.Lib.RowMajor

/-! Counting through all addresses of a shape in row-major order, as an odometer does: the fastest
wheel turns first, and a wheel that comes round turns the next one. -/
namespace Bes.Lib.MixedRadix
open Lib.RowMajor List

def turn : List Nat → List Nat → List Nat
  | size :: shape, i :: indices => if i + 1 = size then 0 :: turn shape indices else (i + 1) :: indices
  | _, indices => indices

def succ (shape address : List Nat) : List Nat := (turn shape.reverse address.reverse).reverse

theorem turn_inBounds (hbds : InBounds shape indices) : InBounds shape (turn shape indices) := by
  induction hbds with
  | nil => exact .nil
  | @cons size i shape indices hi hrst ih =>
    rw [turn]
    split
    · exact .cons (by omega) ih
    · exact .cons (by omega) hrst

theorem rowMajor_turn (hbds : InBounds shape indices) :
    rowMajor shape.reverse (turn shape indices).reverse =
      (rowMajor shape.reverse indices.reverse + 1) % shape.prod := by
  induction hbds with
  | nil => rfl
  | @cons size i shape indices hi hrst ih =>
    have hlen : indices.reverse.length = shape.reverse.length := by
      simp [hrst.length_eq]
    have htur : (turn shape indices).reverse.length = shape.reverse.length := by
      simp [(turn_inBounds hrst).length_eq]
    rw [turn]
    split
    next hrou =>
      rw [reverse_cons, reverse_cons, reverse_cons, rowMajor_append htur,
        rowMajor_append hlen, rowMajor_singleton, rowMajor_singleton, prod_singleton, ih,
        add_zero, prod_cons, add_assoc, hrou, ← Nat.succ_mul, mul_comm size,
        Nat.mul_mod_mul_right]
    next hsty =>
      have hnxt : InBounds (size :: shape).reverse ((i + 1) :: indices).reverse :=
        rel_reverse (.cons (by omega) hrst)
      have hlt := rowMajor_lt hnxt
      rw [prod_reverse] at hlt
      have heq : rowMajor (size :: shape).reverse ((i + 1) :: indices).reverse =
          rowMajor (size :: shape).reverse (i :: indices).reverse + 1 := by
        rw [reverse_cons, reverse_cons, reverse_cons, rowMajor_append hlen,
          rowMajor_append hlen, rowMajor_singleton, rowMajor_singleton, add_assoc]
      rw [heq] at hlt ⊢
      exact (Nat.mod_eq_of_lt hlt).symm

theorem succ_unflatten (hlt : n + 1 < shape.prod) :
    succ shape (unflatten shape n) = unflatten shape (n + 1) := by
  have hbds := inBounds_unflatten (show n < shape.prod by omega)
  have hrev : InBounds shape.reverse (unflatten shape n).reverse := rel_reverse hbds
  have hpos := rowMajor_turn hrev
  rw [reverse_reverse, reverse_reverse, prod_reverse,
    rowMajor_unflatten (by omega), Nat.mod_eq_of_lt hlt] at hpos
  have hnxt : InBounds shape (succ shape (unflatten shape n)) := by
    have htur : InBounds shape.reverse.reverse (succ shape (unflatten shape n)) :=
      rel_reverse (turn_inBounds hrev)
    rwa [reverse_reverse] at htur
  rw [← hpos]
  exact (unflatten_rowMajor hnxt).symm

theorem unflatten_zero (shape : List Nat) : unflatten shape 0 = replicate shape.length 0 := by
  induction shape with
  | nil => rfl
  | cons size shape ih =>
    rw [unflatten, Nat.zero_div, Nat.zero_mod, ih]
    rfl

end Bes.Lib.MixedRadix
