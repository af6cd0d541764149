import Mathlib

/-! Row-major positions of index vectors. A shape is a list of dimension sizes,
slowest dimension first; the position of an in-bounds address is a bijection
onto the numbers below the product of the sizes. -/
namespace Bes.Lib.RowMajor
open List

abbrev InBounds (shape address : List Nat) : Prop :=
  Forall₂ (fun size i => i < size) shape address

def rowMajor : List Nat → List Nat → Nat
  | _ :: shape, i :: address => i * shape.prod + rowMajor shape address
  | _, _ => 0

def unflatten : List Nat → Nat → List Nat
  | [], _ => []
  | _ :: shape, position => position / shape.prod :: unflatten shape (position % shape.prod)

@[simp] theorem rowMajor_nil (address : List Nat) : rowMajor [] address = 0 := by
  simp [rowMajor]

@[simp] theorem rowMajor_cons (size i : Nat) (shape address : List Nat) :
    rowMajor (size :: shape) (i :: address) = i * shape.prod + rowMajor shape address := rfl

@[simp] theorem rowMajor_singleton (size i : Nat) : rowMajor [size] [i] = i := by
  simp [rowMajor]

variable {shape : List Nat}

theorem rowMajor_append (hlen : address.length = first.length) (second rest : List Nat) :
    rowMajor (first ++ second) (address ++ rest) =
      rowMajor first address * second.prod + rowMajor second rest := by
  induction first generalizing address with
  | nil =>
    obtain rfl : address = [] := eq_nil_of_length_eq_zero hlen
    simp
  | cons size first ih =>
    cases address with
    | nil => simp at hlen
    | cons i address =>
      simp only [cons_append, rowMajor_cons, prod_append, ih (Nat.succ.inj hlen)]
      ring

theorem rowMajor_lt (hbds : InBounds shape address) : rowMajor shape address < shape.prod := by
  induction hbds with
  | nil => simp
  | @cons size i shape address hi _ ih =>
    calc i * shape.prod + rowMajor shape address
        < i * shape.prod + shape.prod := by omega
      _ = (i + 1) * shape.prod := by ring
      _ ≤ size * shape.prod := Nat.mul_le_mul_right _ hi

theorem rowMajor_byte_lt (hbds : InBounds shape address) {b : Nat} (hb : b < width) :
    rowMajor shape address * width + b < shape.prod * width := by
  calc rowMajor shape address * width + b
      < (rowMajor shape address + 1) * width := by
        rw [add_mul]
        omega
    _ ≤ shape.prod * width := Nat.mul_le_mul_right _ (rowMajor_lt hbds)

theorem rowMajor_run_le (hbds : InBounds shape address) {i count : Nat} (hrun : i + count ≤ size) :
    rowMajor (shape ++ [size]) (address ++ [i]) + count ≤ (shape ++ [size]).prod := by
  have hlt := rowMajor_lt hbds
  rw [rowMajor_append hbds.length_eq.symm, rowMajor_singleton, prod_append, prod_singleton]
  calc rowMajor shape address * size + i + count
      ≤ rowMajor shape address * size + size := by omega
    _ = (rowMajor shape address + 1) * size := by ring
    _ ≤ shape.prod * size := Nat.mul_le_mul_right _ hlt

theorem rowMajor_run_eq (hlen : address.length = shape.length) (size i j : Nat) :
    rowMajor (shape ++ [size]) (address ++ [i]) + j =
      rowMajor (shape ++ [size]) (address ++ [i + j]) := by
  simp only [rowMajor_append hlen, rowMajor_singleton]
  omega

@[simp] theorem unflatten_rowMajor (hbds : InBounds shape address) :
    unflatten shape (rowMajor shape address) = address := by
  induction hbds with
  | nil => rfl
  | @cons size i shape address _ hrst ih =>
    have hlt := rowMajor_lt hrst
    simp only [rowMajor_cons, unflatten]
    rw [mul_comm i, Nat.mul_add_mod, Nat.mod_eq_of_lt hlt, ih,
      Nat.mul_add_div (by omega), Nat.div_eq_of_lt hlt, add_zero]

theorem forall_inBounds {P : List Nat → Prop}
    (hall : ∀ n < shape.prod, P (unflatten shape n)) : ∀ p, InBounds shape p → P p := by
  intro p hp
  have hunf := hall (rowMajor shape p) (rowMajor_lt hp)
  rwa [unflatten_rowMajor hp] at hunf

theorem inBounds_unflatten
    (hlt : position < shape.prod) : InBounds shape (unflatten shape position) := by
  induction shape generalizing position with
  | nil => exact .nil
  | cons size shape ih =>
    have hpos : 0 < shape.prod := Nat.pos_of_ne_zero (by
      rintro hzer
      simp [hzer] at hlt)
    exact .cons (Nat.div_lt_of_lt_mul (by rwa [mul_comm])) (ih (Nat.mod_lt _ hpos))

theorem rowMajor_unflatten
    (hlt : position < shape.prod) : rowMajor shape (unflatten shape position) = position := by
  induction shape generalizing position with
  | nil =>
    rw [prod_nil] at hlt
    simp [unflatten]
    omega
  | cons size shape ih =>
    have hpos : 0 < shape.prod := Nat.pos_of_ne_zero (by
      rintro hzer
      simp [hzer] at hlt)
    rw [unflatten, rowMajor_cons, ih (Nat.mod_lt _ hpos), mul_comm]
    exact Nat.div_add_mod position shape.prod

/-! Shapes that bound each other dimension by dimension. -/

theorem prod_le_prod (hle : Forall₂ (· ≤ ·) shape larger) : shape.prod ≤ larger.prod := by
  induction hle with
  | nil => exact le_rfl
  | cons hfirst _ ih =>
    exact Nat.mul_le_mul hfirst ih

end Bes.Lib.RowMajor
