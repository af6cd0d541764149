import Mathlib

/-! Items that each occupy an extent of a line of positions: lists of items that
follow each other without a gap, and the bytes of such a list as one range. -/
namespace Bes.Lib.Extent

section

variable {α : Type*} (start size : α → Nat)

def total (items : List α) : Nat := (items.map size).sum

@[simp] theorem total_nil : total size [] = 0 := rfl

@[simp] theorem total_cons (item : α) (items : List α) :
    total size (item :: items) = size item + total size items := by
  simp [total]

theorem total_concat (items : List α) (item : α) :
    total size (items ++ [item]) = total size items + size item := by
  simp [total]

/-- Every item starts where the one before it ends, the first one at `first`. -/
def Contiguous : Nat → List α → Prop
  | _, [] => True
  | first, item :: items => start item = first ∧ Contiguous (first + size item) items

variable {start size}

theorem contiguous_concat : Contiguous start size first (items ++ [item]) ↔
      Contiguous start size first items ∧ start item = first + total size items := by
  induction items generalizing first with
  | nil => simp [Contiguous]
  | cons other items ih =>
    rw [List.cons_append, Contiguous, Contiguous, ih, total_cons, and_assoc, add_assoc]

theorem Contiguous.end_lt (hcon : Contiguous start size first items) (hne : items ≠ [])
    (hbd : ∀ item ∈ items, start item + size item < bound) : first + total size items < bound := by
  induction items generalizing first with
  | nil => exact absurd rfl hne
  | cons item items ih =>
    have hitm := hbd item List.mem_cons_self
    rw [hcon.1] at hitm
    rw [total_cons, ← add_assoc]
    cases items with
    | nil => simpa using hitm
    | cons other items =>
      apply ih hcon.2 (List.cons_ne_nil other items)
      intro item hmem
      exact hbd item (List.mem_cons_of_mem _ hmem)

theorem Contiguous.mem_range (hcon : Contiguous start size first items) (hmem : item ∈ items) :
    first ≤ start item ∧ start item + size item ≤ first + total size items := by
  induction items generalizing first with
  | nil => cases hmem
  | cons other items ih =>
    rw [total_cons]
    cases hmem with
    | head =>
      have hsta := hcon.1
      omega
    | tail _ hmem =>
      have hran := ih hcon.2 hmem
      omega

end

end Bes.Lib.Extent
