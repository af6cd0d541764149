import Bes.Lib.RowMajor

/-! The elements of an array at the selected indices of each dimension, in row-major order. -/
namespace Bes.Lib
open Lib.RowMajor List

variable {α β : Type*}

def slab : List (List Nat) → (List Nat → α) → List α
  | [], content => [content []]
  | indices :: selected, content =>
    indices.flatMap fun i => slab selected fun address => content (i :: address)

theorem slab_cons (indices : List Nat) (selected : List (List Nat)) (content : List Nat → α) :
    slab (indices :: selected) content
      = indices.flatMap fun i => slab selected fun address => content (i :: address) := rfl

theorem map_slab (f : α → β) (selected : List (List Nat)) (content : List Nat → α) :
    (slab selected content).map f = slab selected fun address => f (content address) := by
  induction selected generalizing content with
  | nil => rfl
  | cons indices selected ih =>
    rw [slab_cons, slab_cons, map_flatMap]
    exact flatMap_congr fun i _ => ih _

theorem length_slab (selected : List (List Nat)) (content : List Nat → α) :
    (slab selected content).length = (selected.map length).prod := by
  induction selected generalizing content with
  | nil => rfl
  | cons indices selected ih =>
    rw [slab_cons, length_flatMap, map_cons, prod_cons,
      map_congr_left fun i _ => ih _, map_const', sum_replicate_nat]

theorem getElem?_flatMap_block {f : β → List α} (hlen : ∀ b, (f b).length = block)
    (hr : r < block) (l : List β) (i : Nat) :
    (l.flatMap f)[i * block + r]? = l[i]?.bind fun b => (f b)[r]? := by
  induction l generalizing i with
  | nil => simp
  | cons first rest ih =>
    rw [flatMap_cons]
    cases i with
    | zero =>
      rw [zero_mul, zero_add, getElem?_append_left (by rw [hlen]; exact hr)]
      rfl
    | succ i =>
      have hpos : (i + 1) * block + r = block + (i * block + r) := by
        rw [add_mul]
        omega
      rw [hpos, getElem?_append_right (by rw [hlen]; omega), hlen, Nat.add_sub_cancel_left, ih]
      rfl

def pick (selected : List (List Nat)) (address : List Nat) : List Nat :=
  zipWith (fun indices i => indices.getD i 0) selected address

@[simp] theorem pick_cons (indices : List Nat) (selected : List (List Nat)) (i : Nat) (address : List Nat) :
    pick (indices :: selected) (i :: address) = indices.getD i 0 :: pick selected address := rfl

theorem pick_append
    (hlen : selected.length = address.length) (more : List (List Nat)) (rest : List Nat) :
    pick (selected ++ more) (address ++ rest) = pick selected address ++ pick more rest :=
  zipWith_append hlen

theorem getElem?_slab (hbds : InBounds (selected.map length) address) (content : List Nat → α) :
    (slab selected content)[rowMajor (selected.map length) address]? =
      some (content (pick selected address)) := by
  induction selected generalizing address content with
  | nil =>
    cases hbds
    rfl
  | cons indices selected ih =>
    cases hbds with
    | @cons _ i _ address hi hrst =>
      have hblo : ∀ i, (slab selected fun address => content (i :: address)).length =
          (selected.map length).prod := fun i => length_slab selected _
      rw [slab_cons, map_cons, rowMajor_cons, getElem?_flatMap_block hblo (rowMajor_lt hrst),
        getElem?_eq_getElem hi, Option.bind_some, ih hrst, pick_cons,
        getD_eq_getElem?_getD, getElem?_eq_getElem hi, Option.getD_some]

end Bes.Lib
