import Bes.Lib.Buffer

/-! The function `dilate_array` on a mask of two dimensions. The loop variables are `unsigned`, so that
the bounds and offsets are taken modulo `2 ^ 32`. -/
namespace Bes.Functions.DilateArray
open Lib.Buffer List

def below (first last : Nat) : List Nat := range' first (last - first)

/-- Values of `x` in `for (x = first; x <= last; x++)`; up to the largest number it does not end. -/
def upTo (first last : Nat) : Option (List Nat) :=
  if last + 1 = 2 ^ 32 then none else some (range' first (last + 1 - first))

def minus (n dSize : Nat) : Nat := (n + 2 ^ 32 - dSize) % 2 ^ 32

/-- An offset from `2 ^ 31` on is negative as an `int` and outside of every vector. -/
def offset (maxI row col : Nat) : Nat := (col + row * maxI) % 2 ^ 32

/-- `at` throws outside of the vector. -/
def setAt (dest : List UInt8) (p : Nat) : Option (List UInt8) :=
  if p < dest.length then some (dest.set p 1) else none

def setSquare (maxI dSize i j : Nat) (dest : List UInt8) : Option (List UInt8) := do
  let xs ← upTo (i - dSize) ((i + dSize) % 2 ^ 32)
  xs.foldlM (fun dest x => do
    let ys ← upTo (j - dSize) ((j + dSize) % 2 ^ 32)
    ys.foldlM (fun dest y => setAt dest (offset maxI x y)) dest) dest

/-- The values of `i` and `j` in the two outer loops. -/
def cells (maxI maxJ dSize : Nat) : List (Nat × Nat) :=
  below dSize (minus maxI dSize) ×ˢ below dSize (minus maxJ dSize)

def dilateArray (maxI maxJ dSize : Nat) (mask : List UInt8) : Option (List UInt8) :=
  (cells maxI maxJ dSize).foldlM (fun dest (i, j) => do
    let value ← mask[offset maxI i j]?
    if value = 1 then setSquare maxI dSize i j dest else some dest) (replicate mask.length 0)

section

variable {maxI maxJ : Nat} {dest after : List UInt8}

def square (maxI dSize i j : Nat) : Set Nat :=
  { p | ∃ x y, i - dSize ≤ x ∧ x ≤ (i + dSize) % 2 ^ 32 ∧ j - dSize ≤ y ∧
    y ≤ (j + dSize) % 2 ^ 32 ∧ p = offset maxI x y }

def marks (maxI maxJ dSize : Nat) (mask : List UInt8) : Set Nat :=
  { p | ∃ cell ∈ cells maxI maxJ dSize, mask[offset maxI cell.1 cell.2]? = some 1 ∧
    p ∈ square maxI dSize cell.1 cell.2 }

theorem mem_cells {i j : Nat} : (i, j) ∈ cells maxI maxJ dSize ↔
    dSize ≤ i ∧ i < minus maxI dSize ∧ dSize ≤ j ∧ j < minus maxJ dSize := by
  rw [cells, below, below, mem_product, mem_range'_1, mem_range'_1]
  omega

theorem mem_of_upTo (hvalues : upTo first last = some values)
    (x : Nat) : x ∈ values ↔ first ≤ x ∧ x ≤ last := by
  unfold upTo at hvalues
  split at hvalues
  · simp at hvalues
  · cases hvalues
    rw [mem_range'_1]
    omega

theorem setAt_fills {p : Nat} (hset : setAt dest p = some after) :
    Fills (fun _ => some 1) {p} dest after := by
  unfold setAt at hset
  split at hset
  · next hlt =>
    cases hset
    refine ⟨length_set, ?_, ?_⟩
    · rintro _ rfl
      exact getElem?_set_self hlt
    · intro q hq
      exact getElem?_set_ne (Ne.symm hq)
  · simp at hset

theorem setSquare_fills {i j : Nat} (hrun : setSquare maxI dSize i j dest = some after) :
    Fills (fun _ => some 1) (square maxI dSize i j) dest after := by
  obtain ⟨xs, hxs, hrun⟩ := Option.bind_eq_some_iff.mp hrun
  have hrow : ∀ x ∈ xs, ∀ dest after, ((upTo (j - dSize) ((j + dSize) % 2 ^ 32)).bind fun ys =>
        ys.foldlM (fun dest y => setAt dest (offset maxI x y)) dest) = some after →
      Fills (fun _ => some 1) { p | ∃ y, j - dSize ≤ y ∧ y ≤ (j + dSize) % 2 ^ 32 ∧
        p = offset maxI x y } dest after := by
    intro x _ dest after hrow
    obtain ⟨ys, hys, hrow⟩ := Option.bind_eq_some_iff.mp hrow
    apply (foldlM_some_fills (fun y _ _ _ hset => setAt_fills hset) hrow).congr
    ext p
    simp [mem_of_upTo hys, and_assoc]
  apply (foldlM_some_fills hrow hrun).congr
  ext p
  simp [square, mem_of_upTo hxs, and_assoc]

theorem dilateArray_fills (hrun : dilateArray maxI maxJ dSize mask = some after) :
    Fills (fun _ => some 1) (marks maxI maxJ dSize mask) (replicate mask.length 0) after := by
  have hcell : ∀ cell ∈ cells maxI maxJ dSize, ∀ dest after,
      ((mask[offset maxI cell.1 cell.2]?).bind fun value =>
        if value = 1 then setSquare maxI dSize cell.1 cell.2 dest else some dest) = some after →
      Fills (fun _ => some 1) { p | mask[offset maxI cell.1 cell.2]? = some 1 ∧
        p ∈ square maxI dSize cell.1 cell.2 } dest after := by
    intro cell _ dest after hcell
    obtain ⟨value, hval, hcell⟩ := Option.bind_eq_some_iff.mp hcell
    by_cases hone : value = 1
    · rw [if_pos hone] at hcell
      exact (setSquare_fills hcell).congr (by simp [hval, hone])
    · rw [if_neg hone] at hcell
      cases hcell
      exact (Fills.refl _ dest).congr (by simp [hval, hone])
  apply (foldlM_some_fills hcell hrun).congr
  ext p
  simp only [marks, Set.mem_iUnion, Set.mem_ofPred_eq, exists_prop]

theorem offset_lt_of_run (hrun : dilateArray maxI maxJ dSize mask = some after) {i j : Nat}
    (hcell : (i, j) ∈ cells maxI maxJ dSize) : offset maxI i j < mask.length := by
  obtain ⟨_, _, hstep⟩ := foldlM_mem_some hrun (i, j) hcell
  obtain ⟨_, hval, _⟩ := Option.bind_eq_some_iff.mp hstep
  exact (List.getElem?_eq_some_iff.mp hval).1

end

/-! The rows and columns of the mask, and the cells that have to be marked. -/

structure Shape where
  maxI : Nat
  maxJ : Nat
  maxI_pos : 0 < maxI
  maxJ_pos : 0 < maxJ
  fits : maxI * maxJ < 2 ^ 31

namespace Shape

variable (shape : Shape) (dSize : Nat)

def Near (mask : List UInt8) (x y : Nat) : Prop :=
  ∃ i j, dSize ≤ i ∧ i + dSize < shape.maxI ∧ dSize ≤ j ∧ j + dSize < shape.maxJ ∧
    mask[i * shape.maxJ + j]? = some 1 ∧ x ≤ i + dSize ∧ i ≤ x + dSize ∧ y ≤ j + dSize ∧
    j ≤ y + dSize

def Dilates (mask : List UInt8) : Prop :=
  ∃ dest, dilateArray shape.maxI shape.maxJ dSize mask = some dest ∧
    dest.length = shape.maxI * shape.maxJ ∧ ∀ x < shape.maxI, ∀ y < shape.maxJ,
      (shape.Near dSize mask x y → dest[x * shape.maxJ + y]? = some 1) ∧
      (¬ shape.Near dSize mask x y → dest[x * shape.maxJ + y]? = some 0)

/-- No cell is looked at, or the offsets are those of the rows and columns. -/
def Dilatable : Prop :=
  minus shape.maxI dSize ≤ dSize ∨ minus shape.maxJ dSize ≤ dSize ∨
    2 * dSize < shape.maxI ∧ shape.maxI = shape.maxJ ∨ shape.maxI = 1 ∧ dSize = 0

variable {shape dSize}

theorem maxI_lt : shape.maxI < 2 ^ 31 :=
  (Nat.le_mul_of_pos_right _ shape.maxJ_pos).trans_lt shape.fits

theorem maxJ_lt : shape.maxJ < 2 ^ 31 :=
  (Nat.le_mul_of_pos_left _ shape.maxI_pos).trans_lt shape.fits

theorem mem_cells_iff (hI : dSize ≤ shape.maxI) (hJ : dSize ≤ shape.maxJ) {i j : Nat} :
    (i, j) ∈ cells shape.maxI shape.maxJ dSize ↔
      dSize ≤ i ∧ i + dSize < shape.maxI ∧ dSize ≤ j ∧ j + dSize < shape.maxJ := by
  have hltI := shape.maxI_lt
  have hltJ := shape.maxJ_lt
  rw [mem_cells, minus, minus]
  omega

theorem cell_lt (hx : x < shape.maxI) (hy : y < shape.maxJ) :
    x * shape.maxJ + y < shape.maxI * shape.maxJ := by
  have hrow := Nat.mul_le_mul_right shape.maxJ (show x + 1 ≤ shape.maxI from hx)
  rw [Nat.succ_mul] at hrow
  omega

theorem eq_of_mul_add {y' : Nat} (hy : y < n) (hy' : y' < n)
    (heq : x * n + y = x' * n + y') : x = x' ∧ y = y' := by
  have hx := congrArg (· / n) heq
  simp only [add_comm (_ * n), Nat.add_mul_div_right _ _ (Nat.zero_lt_of_lt hy),
    Nat.div_eq_of_lt hy, Nat.div_eq_of_lt hy', zero_add] at hx
  subst hx
  exact ⟨rfl, by omega⟩

theorem Near.cell (hner : shape.Near dSize mask x y) : cells shape.maxI shape.maxJ dSize ≠ [] := by
  obtain ⟨i, j, hi, hiI, hj, hjJ, -⟩ := hner
  apply ne_nil_of_mem (a := (i, j))
  rw [mem_cells_iff (by omega) (by omega)]
  omega

section

variable {mask : List UInt8} (hmask : mask.length = shape.maxI * shape.maxJ)

include hmask

theorem dilates_of_no_cell
    (hnone : cells shape.maxI shape.maxJ dSize = []) : shape.Dilates dSize mask := by
  refine ⟨replicate mask.length 0, ?_, by simp [hmask], ?_⟩
  · rw [dilateArray, hnone]
    rfl
  · intro x hx y hy
    refine ⟨fun hner => absurd hnone hner.cell, fun _ => ?_⟩
    exact getElem?_replicate_of_lt (hmask ▸ cell_lt hx hy)

variable (hI : 2 * dSize < shape.maxI) (hJ : 2 * dSize < shape.maxJ)
  (hoff : ∀ x < shape.maxI, ∀ y < shape.maxJ, offset shape.maxI x y = x * shape.maxJ + y)

include hI hJ hoff

theorem exists_dilateArray : ∃ dest, dilateArray shape.maxI shape.maxJ dSize mask = some dest := by
  have hltI := shape.maxI_lt
  have hltJ := shape.maxJ_lt
  let Whole (dest : List UInt8) : Prop := dest.length = shape.maxI * shape.maxJ
  have hset : ∀ x < shape.maxI, ∀ y < shape.maxJ, ∀ dest, Whole dest →
      ∃ after, setAt dest (offset shape.maxI x y) = some after ∧ Whole after := by
    intro x hx y hy dest hdst
    refine ⟨_, if_pos ?_, length_set.trans hdst⟩
    rw [hoff x hx y hy, hdst]
    exact cell_lt hx hy
  have hend : ∀ first last, last < 2 ^ 31 → ∃ values, upTo first last = some values :=
    fun first last hlast => ⟨_, if_neg (by omega)⟩
  have hcell : ∀ cell ∈ cells shape.maxI shape.maxJ dSize, ∀ dest, Whole dest →
      ∃ after, setSquare shape.maxI dSize cell.1 cell.2 dest = some after ∧ Whole after := by
    rintro ⟨i, j⟩ hcell dest hdst
    rw [mem_cells_iff (by omega) (by omega)] at hcell
    obtain ⟨xs, hxs⟩ := hend (i - dSize) ((i + dSize) % 2 ^ 32) (by omega)
    obtain ⟨ys, hys⟩ := hend (j - dSize) ((j + dSize) % 2 ^ 32) (by omega)
    simp only [setSquare, hxs, hys, Option.bind_eq_bind, Option.bind_some]
    apply foldlM_total _ hdst
    intro x hx dest hdst
    apply foldlM_total _ hdst
    intro y hy dest hdst
    rw [mem_of_upTo hxs] at hx
    rw [mem_of_upTo hys] at hy
    exact hset x (by omega) y (by omega) dest hdst
  have hzero : Whole (replicate mask.length 0) := length_replicate.trans hmask
  refine (foldlM_total ?_ hzero).imp fun _ hrun => hrun.1
  intro cell hmem dest hdst
  have hbounds := (mem_cells_iff (by omega) (by omega)).mp hmem
  have hread : offset shape.maxI cell.1 cell.2 < mask.length := by
    rw [hoff _ (by omega) _ (by omega), hmask]
    exact cell_lt (by omega) (by omega)
  simp only [getElem?_eq_getElem hread, Option.bind_eq_bind, Option.bind_some]
  split
  · exact hcell cell hmem dest hdst
  · exact ⟨dest, rfl, hdst⟩

theorem dilates_of_offset : shape.Dilates dSize mask := by
  obtain ⟨dest, hrun⟩ := exists_dilateArray hmask hI hJ hoff
  have hfil := dilateArray_fills hrun
  have hltI := shape.maxI_lt
  have hltJ := shape.maxJ_lt
  have hmarked : ∀ x < shape.maxI, ∀ y < shape.maxJ,
      x * shape.maxJ + y ∈ marks shape.maxI shape.maxJ dSize mask ↔ shape.Near dSize mask x y := by
    intro x hx y hy
    constructor
    · rintro ⟨⟨i, j⟩, hcell, hone, x', y', hx', hx'', hy', hy'', hp⟩
      rw [mem_cells_iff (by omega) (by omega)] at hcell
      rw [hoff i (by omega) j (by omega)] at hone
      rw [hoff x' (by omega) y' (by omega)] at hp
      obtain ⟨rfl, rfl⟩ := eq_of_mul_add hy (by omega) hp
      exact ⟨i, j, by omega, by omega, by omega, by omega, hone, by omega, by omega, by omega,
        by omega⟩
    · rintro ⟨i, j, hi, hiI, hj, hjJ, hone, hxi, hix, hyj, hjy⟩
      refine ⟨(i, j), ?_, ?_, x, y, ?_, ?_, ?_, ?_, (hoff x hx y hy).symm⟩
      · rw [mem_cells_iff (by omega) (by omega)]
        omega
      · rwa [hoff i (by omega) j (by omega)]
      all_goals omega
  refine ⟨dest, hrun, by simp [hfil.length_eq, hmask], ?_⟩
  intro x hx y hy
  rw [← hmarked x hx y hy]
  refine ⟨fun hin => hfil.inside _ hin, fun hout => (hfil.outside _ hout).trans ?_⟩
  exact getElem?_replicate_of_lt (hmask ▸ cell_lt hx hy)

end

theorem dilatable_of_ones {i j : Nat} (hcell : (i, j) ∈ cells shape.maxI shape.maxJ dSize)
    (hons : shape.Dilates dSize (replicate (shape.maxI * shape.maxJ) 1)) : shape.Dilatable dSize := by
  obtain ⟨dest, hrun, hlen, hcel⟩ := hons
  have hfil := dilateArray_fills hrun
  have hltJ := shape.maxJ_lt
  have hmar : ∀ {i j x y}, (i, j) ∈ cells shape.maxI shape.maxJ dSize →
      i - dSize ≤ x → x ≤ (i + dSize) % 2 ^ 32 → j - dSize ≤ y → y ≤ (j + dSize) % 2 ^ 32 →
      dest[offset shape.maxI x y]? = some 1 := by
    intro i j x y hcell hx hx' hy hy'
    have hread := offset_lt_of_run hrun hcell
    rw [length_replicate] at hread
    exact hfil.inside _ ⟨(i, j), hcell, getElem?_replicate_of_lt hread, x, y, hx, hx', hy, hy', rfl⟩
  rw [mem_cells] at hcell
  by_cases hwrp : shape.maxI ≤ 2 * dSize ∨ shape.maxJ ≤ 2 * dSize
  · -- Nothing is to be marked, but the first cell is.
    have hfirst : dest[offset shape.maxI 0 0]? = some 1 :=
      hmar (i := dSize) (j := dSize) (mem_cells.mpr (by omega)) (by omega) (by omega) (by omega)
        (by omega)
    have hzero := (hcel 0 shape.maxI_pos 0 shape.maxJ_pos).2 (by
      rintro ⟨i, j, hi⟩
      omega)
    have hsame : offset shape.maxI 0 0 = 0 * shape.maxJ + 0 := by simp [offset]
    rw [hsame, hzero] at hfirst
    simp at hfirst
  rcases Nat.lt_trichotomy shape.maxI shape.maxJ with hlt | heq | hgt
  · by_cases hrow : shape.maxI = 1
    · exact .inr (.inr (.inr ⟨hrow, by omega⟩))
    · -- The last cell is to be marked, and all offsets are smaller.
      have hlast := (hcel (shape.maxI - 1) (by omega) (shape.maxJ - 1) (by omega)).1
        ⟨shape.maxI - 1 - dSize, shape.maxJ - 1 - dSize, by omega, by omega, by omega, by omega,
          getElem?_replicate_of_lt (cell_lt (by omega) (by omega)), by omega, by omega, by omega,
          by omega⟩
      rw [hfil.outside, length_replicate,
        getElem?_replicate_of_lt (cell_lt (by omega) (by omega))] at hlast
      · simp at hlast
      · rintro ⟨⟨i, j⟩, hcell', -, x, y, -, hx, -, hy, hp⟩
        rw [mem_cells_iff (by omega) (by omega)] at hcell'
        have hmul := Nat.mul_le_mul_right shape.maxI (show x ≤ shape.maxI - 1 by omega)
        have hmul' := Nat.mul_lt_mul_of_pos_left hlt (show 0 < shape.maxI - 1 by omega)
        rw [offset] at hp
        omega
  · exact .inr (.inr (.inl ⟨by omega, heq⟩))
  · -- The first offset after the end is written to.
    have hend : dest[offset shape.maxI shape.maxJ 0]? = some 1 :=
      hmar (i := min shape.maxJ (shape.maxI - 1 - dSize)) (j := dSize) (by
        rw [mem_cells_iff (by omega) (by omega)]
        omega) (by omega) (by omega) (by omega) (by omega)
    have hsame : offset shape.maxI shape.maxJ 0 = dest.length := by
      have hfits := shape.fits
      rw [offset, zero_add, mul_comm, hlen, Nat.mod_eq_of_lt (by omega)]
    simp [hsame] at hend

/-- Every mask of a shape is dilated exactly if no cell is looked at, the mask is square, or it is a
row that is copied. -/
theorem dilates_iff (shape : Shape) (dSize : UInt32) :
    (∀ mask : List UInt8, mask.length = shape.maxI * shape.maxJ →
      shape.Dilates dSize.toNat mask) ↔ shape.Dilatable dSize.toNat := by
  have hnone : minus shape.maxI dSize.toNat ≤ dSize.toNat ∨
      minus shape.maxJ dSize.toNat ≤ dSize.toNat → cells shape.maxI shape.maxJ dSize.toNat = [] := by
    intro hempty
    rw [eq_nil_iff_forall_not_mem]
    rintro ⟨i, j⟩ hcell
    rw [mem_cells] at hcell
    omega
  have hoff : ∀ x < shape.maxI, ∀ y < shape.maxJ, shape.maxI = shape.maxJ ∨ x = 0 →
      offset shape.maxI x y = x * shape.maxJ + y := by
    intro x hx y hy hstr
    have hlt := (cell_lt hx hy).trans shape.fits
    have hsame : x * shape.maxI = x * shape.maxJ := by
      rcases hstr with heq | rfl
      · rw [heq]
      · simp
    rw [offset, hsame, Nat.mod_eq_of_lt (by omega), add_comm]
  constructor
  · intro hall
    by_cases hempty : minus shape.maxI dSize.toNat ≤ dSize.toNat ∨
        minus shape.maxJ dSize.toNat ≤ dSize.toNat
    · exact hempty.imp_right .inl
    · have hcell := (@mem_cells shape.maxI shape.maxJ dSize.toNat dSize.toNat dSize.toNat).mpr
        (by omega)
      exact dilatable_of_ones hcell (hall _ length_replicate)
  · rintro (hI | hJ | ⟨hI, heq⟩ | ⟨hrow, hzero⟩) mask hmask
    · exact dilates_of_no_cell hmask (hnone (.inl hI))
    · exact dilates_of_no_cell hmask (hnone (.inr hJ))
    · exact dilates_of_offset hmask hI (heq ▸ hI) fun x hx y hy => hoff x hx y hy (.inl heq)
    · have hpos := shape.maxJ_pos
      exact dilates_of_offset hmask (by omega) (by omega) fun x hx y hy =>
        hoff x hx y hy (.inr (by omega))

theorem column_fits : 2 * 1 < 2 ^ 31 := by decide

def column : Shape := ⟨2, 1, Nat.two_pos, Nat.one_pos, column_fits⟩

/-- The second row is looked for behind the end of the mask. -/
theorem column_not_dilated : ¬ column.Dilates 0 [0, 0] := by
  have hthr : dilateArray 2 1 0 [0, 0] = none := by decide
  rintro ⟨dest, hrun, -⟩
  simp [column, hthr] at hrun

end Shape

end Bes.Functions.DilateArray
