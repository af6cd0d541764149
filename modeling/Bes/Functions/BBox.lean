import Bes.Dispatch.Util
import Bes.Lib.MixedRadix
import Bes.Lib.Scan

/-! The server function `bbox`: the bounding box of the elements of an array whose values lie between
two limits. Arrays of rank one and two have searches of their own; the others are walked through with
an odometer. All three find the same box. -/
namespace Bes.Functions.BBox
open Dispatch Lib.RowMajor Lib.MixedRadix Lib.Scan List Option

structure Dim where
  name : Str
  size : Nat
deriving DecidableEq

structure ArrayVar (α : Type) where
  name : Str
  dims : List Dim
  values : List α
  rank_pos : dims ≠ []
  size_pos : ∀ dim ∈ dims, 1 ≤ dim.size
  length_eq : values.length = (dims.map Dim.size).prod

def ArrayVar.shape (theArray : ArrayVar α) : List Nat := theArray.dims.map Dim.size

structure Slice where
  start : Nat
  stop : Nat
  name : Str
deriving DecidableEq

structure Response where
  name : Str
  slices : List Slice
deriving DecidableEq

inductive Failure
  | error (text : Str)
  | internalErr (text : Str)
deriving DecidableEq

/-- `d_highest_offset` is computed once, as the product of the shape. -/
structure Odometer where
  shape : List Nat
  highestOffset : Nat
  indices : List Nat
  offset : Nat

namespace Odometer

def new (shape : List Nat) : Odometer :=
  ⟨shape, shape.foldl (· * ·) 1, replicate shape.length 0, 0⟩

def next (odometer : Odometer) : Odometer :=
  { odometer with
    indices := succ odometer.shape odometer.indices
    offset := odometer.offset + 1 }

/-- `do visit while (next () != end ())`, for a number of rounds. -/
def walk (visit : σ → Odometer → σ) : Nat → Odometer → σ → Option σ
  | 0, _, _ => none
  | rounds + 1, odometer, s =>
      if odometer.next.offset ≠ odometer.highestOffset then
        walk visit rounds odometer.next (visit s odometer)
      else some (visit s odometer)

def standing (shape : List Nat) (n : Nat) : Odometer := ⟨shape, shape.prod, unflatten shape n, n⟩

theorem new_eq (shape : List Nat) : new shape = standing shape 0 := by
  unfold new standing
  rw [unflatten_zero, ← prod_eq_foldl]

theorem next_standing {shape : List Nat} (hlt : n + 1 < shape.prod) :
    (standing shape n).next = standing shape (n + 1) := by
  unfold next standing
  rw [succ_unflatten hlt]

theorem walk_standing (visit : σ → Odometer → σ) (shape : List Nat) (rounds : Nat) :
    ∀ n s, n + rounds = shape.prod → 0 < rounds → walk visit rounds (standing shape n) s =
        some ((range' n rounds).foldl (fun s n => visit s (standing shape n)) s) := by
  induction rounds with
  | zero =>
    omega
  | succ rounds ih =>
    intro n s hsum _
    rw [walk, range'_succ, foldl_cons]
    cases rounds with
    | zero =>
      have hend : (standing shape n).next.offset = (standing shape n).highestOffset := hsum
      rw [if_neg (not_not.mpr hend)]
      rfl
    | succ rounds =>
      have hmore : (standing shape n).next.offset ≠ (standing shape n).highestOffset := by
        intro hend
        have hoff : n + 1 = shape.prod := hend
        omega
      rw [if_pos hmore, next_standing (by omega), ih (n + 1) _ (by omega) (by omega)]

theorem walk_new (visit : σ → Odometer → σ) {shape : List Nat} (hpos : 0 < shape.prod) (s : σ) :
    walk visit (new shape).highestOffset (new shape) s =
      some ((range shape.prod).foldl (fun s n => visit s (standing shape n)) s) := by
  rw [new_eq, range_eq_range']
  exact walk_standing visit shape shape.prod 0 s (zero_add _) hpos

end Odometer

section

variable {α : Type} [LinearOrder α] (print : α → Str) (minValue maxValue : α) (theArray : ArrayVar α)

/-- `the_values[ind] >= min_value && the_values[ind] <= max_value`. -/
def hit (ind : Nat) : Bool :=
  theArray.values[ind]?.any fun value => decide (value ≥ minValue ∧ value ≤ maxValue)

def noValues : Failure :=
  .error ("In function bbox(): No values between ".toList ++ print minValue ++ " and ".toList ++
    print maxValue ++ " were found in the array '".toList ++ theArray.name ++ "'".toList)

def startButNotStop : Failure :=
  .internalErr "In BBoxFunction: Found start but not stop.".toList

def bboxRank1 (dim : Dim) : Except Failure Response :=
  match findUp (hit minValue maxValue theArray) dim.size with
  | none => .error (noValues print minValue maxValue theArray)
  | some start =>
      match findDown (hit minValue maxValue theArray) 0 dim.size with
      | none => .error startButNotStop
      | some stop => .ok ⟨theArray.name, [⟨start, stop, dim.name⟩]⟩

structure RowScan where
  x : Nat
  y : Option Nat

def scanRow (pick : Nat → Nat → Nat) (scan : Nat → Option Nat) (s : RowScan) (j : Nat) : RowScan :=
  match scan j with
  | none => s
  | some i => ⟨pick i s.x, if s.y.isNone then some j else s.y⟩

def fromLeft (cols : Dim) (j : Nat) : Option Nat :=
  findUp (fun i => hit minValue maxValue theArray (j * cols.size + i)) cols.size

def fromRight (cols : Dim) (j : Nat) : Option Nat :=
  findDown (fun i => hit minValue maxValue theArray (j * cols.size + i)) 0 cols.size

/-- `x_start` and `y_start`: all rows from the top, each from the left. -/
def topDown (rows cols : Dim) : RowScan :=
  (range rows.size).foldl (scanRow min (fromLeft minValue maxValue theArray cols))
    ⟨cols.size - 1, none⟩

/-- `x_stop` and `y_stop`: the rows from the bottom up to `y_start`, each from the right. -/
def bottomUp (rows cols : Dim) (yStart : Nat) : RowScan :=
  (range' yStart (rows.size - yStart)).reverse.foldl
    (scanRow max (fromRight minValue maxValue theArray cols)) ⟨0, none⟩

def bboxRank2 (rows cols : Dim) : Except Failure Response :=
  let first := topDown minValue maxValue theArray rows cols
  match first.y with
  | none => .error (noValues print minValue maxValue theArray)
  | some yStart =>
      let last := bottomUp minValue maxValue theArray rows cols yStart
      match last.y with
      | none => .error startButNotStop
      | some yStop =>
          .ok ⟨theArray.name, [⟨yStart, yStop, rows.name⟩, ⟨first.x, last.x, cols.name⟩]⟩

structure Corners where
  min : List Nat
  max : List Nat

def record (s : Corners) (odometer : Odometer) : Corners :=
  if hit minValue maxValue theArray odometer.offset then
    ⟨zipWith (fun i m => if i < m then i else m) odometer.indices s.min,
      zipWith (fun i x => if i > x then i else x) odometer.indices s.max⟩
  else s

/-- The general search. No hit is recognised by the first minimum still being the size. No result means
that the loop does not end. -/
def bboxGeneral : Option (Except Failure Response) := do
  let shape := theArray.shape
  let odometer := Odometer.new shape
  let corners ← odometer.walk (record minValue maxValue theArray) odometer.highestOffset
    ⟨shape, replicate shape.length 0⟩
  if corners.min[0]? = shape[0]? then some (.error (noValues print minValue maxValue theArray))
  else some (.ok ⟨theArray.name, zipWith (fun bounds dim => ⟨bounds.1, bounds.2, dim.name⟩)
    (corners.min.zip corners.max) theArray.dims⟩)

def bboxHelper : Option (Except Failure Response) :=
  match theArray.dims with
  | [dim] => some (bboxRank1 print minValue maxValue theArray dim)
  | [rows, cols] => some (bboxRank2 print minValue maxValue theArray rows cols)
  | _ => bboxGeneral print minValue maxValue theArray

end

def Hits [LinearOrder α] (minValue maxValue : α) (theArray : ArrayVar α) : Set (List Nat) :=
  { indices | InBounds theArray.shape indices ∧ ∃ value,
    theArray.values[rowMajor theArray.shape indices]? = some value ∧
      minValue ≤ value ∧ value ≤ maxValue }

/-- The `d`-th indices of a set of elements. -/
def coordinates (elements : Set (List Nat)) (d : Nat) : Set Nat :=
  { i | ∃ indices ∈ elements, indices[d]? = some i }

structure IsBox (dims : List Dim) (elements : Set (List Nat)) (slices : List Slice) : Prop where
  names : slices.map Slice.name = dims.map Dim.name
  tight : ∀ (d : Nat) slice, slices[d]? = some slice →
    IsLeast (coordinates elements d) slice.start ∧ IsGreatest (coordinates elements d) slice.stop

theorem IsBox.unique
    (hbox : IsBox dims elements slices) (hbox' : IsBox dims elements slices') : slices = slices' := by
  have hnam : slices.map Slice.name = slices'.map Slice.name := hbox.names.trans hbox'.names.symm
  have hlen : slices.length = slices'.length := by
    simpa using congrArg length hnam
  apply ext_getElem hlen
  intro d hd hd'
  obtain ⟨hlea, hgre⟩ := hbox.tight d _ (getElem?_eq_getElem hd)
  obtain ⟨hlea', hgre'⟩ := hbox'.tight d _ (getElem?_eq_getElem hd')
  have hname : slices[d].name = slices'[d].name := by
    have hget := congrArg (fun names => names[d]?) hnam
    simpa [hd, hd'] using hget
  have hsta := hlea.unique hlea'
  have hstep := hgre.unique hgre'
  cases hsli : slices[d] with
  | mk start stop name =>
    cases hsli' : slices'[d] with
    | mk start' stop' name' =>
      rw [hsli, hsli'] at hname hsta hstep
      exact congr (congrArg₂ Slice.mk hsta hstep) hname

structure Correct [LinearOrder α] (print : α → Str) (minValue maxValue : α) (theArray : ArrayVar α)
    (result : Except Failure Response) : Prop where
  found : (∃ indices, indices ∈ Hits minValue maxValue theArray) → ∃ slices,
    result = .ok ⟨theArray.name, slices⟩ ∧
      IsBox theArray.dims (Hits minValue maxValue theArray) slices
  missing : (¬ ∃ indices, indices ∈ Hits minValue maxValue theArray) →
    result = .error (noValues print minValue maxValue theArray)

section

variable {α : Type} [LinearOrder α] {print : α → Str} {minValue maxValue : α} {theArray : ArrayVar α}

theorem Correct.unique (hcor : Correct print minValue maxValue theArray result)
    (hcor' : Correct print minValue maxValue theArray result') : result = result' := by
  by_cases hex : ∃ indices, indices ∈ Hits minValue maxValue theArray
  · obtain ⟨slices, hresult, hbox⟩ := hcor.found hex
    obtain ⟨slices', hres', hbox'⟩ := hcor'.found hex
    rw [hresult, hres', hbox.unique hbox']
  · rw [hcor.missing hex, hcor'.missing hex]

theorem hit_iff (ind : Nat) : hit minValue maxValue theArray ind = true ↔
      ∃ value, theArray.values[ind]? = some value ∧ minValue ≤ value ∧ value ≤ maxValue := by
  unfold hit
  cases hval : theArray.values[ind]? with
  | none => simp
  | some value => simp

theorem mem_hits : indices ∈ Hits minValue maxValue theArray ↔ InBounds theArray.shape indices ∧
      hit minValue maxValue theArray (rowMajor theArray.shape indices) = true := by
  rw [hit_iff]
  rfl

theorem bboxRank1_correct (hdims : theArray.dims = [dim]) :
    Correct print minValue maxValue theArray (bboxRank1 print minValue maxValue theArray dim) := by
  have hsha : theArray.shape = [dim.size] := by
    rw [ArrayVar.shape, hdims]
    rfl
  have hmem : ∀ indices, indices ∈ Hits minValue maxValue theArray ↔
      ∃ i, indices = [i] ∧ i < dim.size ∧ hit minValue maxValue theArray i = true := by
    intro indices
    rw [mem_hits, hsha]
    constructor
    · rintro ⟨hbounds, hhit⟩
      cases hbounds with
      | cons hi hnil =>
        cases hnil
        rw [rowMajor_singleton] at hhit
        exact ⟨_, rfl, hi, hhit⟩
    · rintro ⟨i, rfl, hi, hhit⟩
      rw [rowMajor_singleton]
      exact ⟨.cons hi .nil, hhit⟩
  have hcoo : ∀ i, i ∈ coordinates (Hits minValue maxValue theArray) 0 ↔
      i < dim.size ∧ hit minValue maxValue theArray i = true := by
    intro i
    constructor
    · rintro ⟨indices, hidx, hget⟩
      obtain ⟨i', rfl, hi, hhit⟩ := (hmem indices).mp hidx
      cases hget
      exact ⟨hi, hhit⟩
    · rintro ⟨hi, hhit⟩
      exact ⟨[i], (hmem [i]).mpr ⟨i, rfl, hi, hhit⟩, rfl⟩
  unfold bboxRank1
  cases hup : findUp (hit minValue maxValue theArray) dim.size with
  | none =>
    refine ⟨?_, fun _ => rfl⟩
    rintro ⟨indices, hidx⟩
    obtain ⟨i, -, hi, hhit⟩ := (hmem indices).mp hidx
    rw [findUp_eq_none hup i hi] at hhit
    cases hhit
  | some start =>
    obtain ⟨hsta, hhit, hfirst⟩ := findUp_eq_some hup
    have hex : ∃ indices, indices ∈ Hits minValue maxValue theArray :=
      ⟨[start], (hmem [start]).mpr ⟨start, rfl, hsta, hhit⟩⟩
    have hdow : findDown (hit minValue maxValue theArray) 0 dim.size ≠ none :=
      findDown_ne_none (Nat.zero_le start) (by omega) hhit
    obtain ⟨stop, hdwn⟩ := ne_none_iff_exists'.mp hdow
    obtain ⟨-, hstep, hhis, hlast⟩ := findDown_eq_some hdwn
    refine ⟨fun _ => ⟨[⟨start, stop, dim.name⟩], by rw [hdwn], ?_, ?_⟩, fun hnone => absurd hex hnone⟩
    · rw [hdims]
      rfl
    · intro d slice hsli
      cases d with
      | zero =>
        cases hsli
        refine ⟨⟨(hcoo start).mpr ⟨hsta, hhit⟩, ?_⟩, ⟨(hcoo stop).mpr ⟨by omega, hhis⟩, ?_⟩⟩
        · intro i hi
          obtain ⟨hlt, hhiti⟩ := (hcoo i).mp hi
          exact hfirst i hlt hhiti
        · intro i hi
          obtain ⟨hlt, hhiti⟩ := (hcoo i).mp hi
          exact hlast i (Nat.zero_le i) (by omega) hhiti
      | succ d => cases hsli

theorem foldl_scanRow_x (pick : Nat → Nat → Nat) (scan : Nat → Option Nat) (visited : List Nat)
    (s : RowScan) :
    (visited.foldl (scanRow pick scan) s).x = visited.foldl (keepBest pick scan) s.x := by
  induction visited generalizing s with
  | nil => rfl
  | cons j visited ih =>
    rw [foldl_cons, foldl_cons, ih]
    unfold scanRow keepBest
    cases scan j <;> rfl

theorem foldl_scanRow_y (pick : Nat → Nat → Nat) (scan : Nat → Option Nat) (visited : List Nat)
    (s : RowScan) :
    (visited.foldl (scanRow pick scan) s).y = s.y.or (visited.find? fun j => (scan j).isSome) := by
  induction visited generalizing s with
  | nil => simp
  | cons j visited ih =>
    rw [foldl_cons, ih, find?_cons]
    unfold scanRow
    cases hscan : scan j with
    | none => rfl
    | some i =>
      cases hy : s.y with
      | none => simp
      | some y => simp

def TableHit (minValue maxValue : α) (theArray : ArrayVar α) (rows cols : Dim) (j i : Nat) : Prop :=
  j < rows.size ∧ i < cols.size ∧ hit minValue maxValue theArray (j * cols.size + i) = true

theorem mem_hits_table (hdims : theArray.dims = [rows, cols]) :
    indices ∈ Hits minValue maxValue theArray ↔
      ∃ j i, indices = [j, i] ∧ TableHit minValue maxValue theArray rows cols j i := by
  have hsha : theArray.shape = [rows.size, cols.size] := by
    rw [ArrayVar.shape, hdims]
    rfl
  have hpst : ∀ j i, rowMajor [rows.size, cols.size] [j, i] = j * cols.size + i := by
    simp
  rw [mem_hits, hsha]
  constructor
  · rintro ⟨hbounds, hhit⟩
    cases hbounds with
    | cons hj hrest =>
      cases hrest with
      | cons hi hnil =>
        cases hnil
        rw [hpst] at hhit
        exact ⟨_, _, rfl, hj, hi, hhit⟩
  · rintro ⟨j, i, rfl, hj, hi, hhit⟩
    rw [hpst]
    exact ⟨.cons hj (.cons hi .nil), hhit⟩

theorem mem_coordinates_rows (hdims : theArray.dims = [rows, cols]) {j : Nat} :
    j ∈ coordinates (Hits minValue maxValue theArray) 0 ↔
      ∃ i, TableHit minValue maxValue theArray rows cols j i := by
  constructor
  · rintro ⟨indices, hidx, hget⟩
    obtain ⟨j', i, rfl, hhit⟩ := (mem_hits_table hdims).mp hidx
    cases hget
    exact ⟨i, hhit⟩
  · rintro ⟨i, hhit⟩
    exact ⟨[j, i], (mem_hits_table hdims).mpr ⟨j, i, rfl, hhit⟩, rfl⟩

theorem mem_coordinates_cols (hdims : theArray.dims = [rows, cols]) {i : Nat} :
    i ∈ coordinates (Hits minValue maxValue theArray) 1 ↔
      ∃ j, TableHit minValue maxValue theArray rows cols j i := by
  constructor
  · rintro ⟨indices, hidx, hget⟩
    obtain ⟨j, i', rfl, hhit⟩ := (mem_hits_table hdims).mp hidx
    cases hget
    exact ⟨j, hhit⟩
  · rintro ⟨j, hhit⟩
    exact ⟨[j, i], (mem_hits_table hdims).mpr ⟨j, i, rfl, hhit⟩, rfl⟩

section

variable {rows : Dim}

theorem fromLeft_some (hj : j < rows.size) (hscan : fromLeft minValue maxValue theArray cols j = some i) :
    TableHit minValue maxValue theArray rows cols j i ∧
      ∀ i', TableHit minValue maxValue theArray rows cols j i' → i ≤ i' := by
  obtain ⟨hi, hhit, hfirst⟩ := findUp_eq_some hscan
  exact ⟨⟨hj, hi, hhit⟩, fun i' hhit' => hfirst i' hhit'.2.1 hhit'.2.2⟩

theorem fromLeft_isSome (hhit : TableHit minValue maxValue theArray rows cols j i) :
    (fromLeft minValue maxValue theArray cols j).isSome = true := by
  rw [← ne_none_iff_isSome]
  intro hnone
  have hmss := findUp_eq_none hnone i hhit.2.1
  rw [hhit.2.2] at hmss
  cases hmss

theorem fromRight_some (hj : j < rows.size)
    (hscan : fromRight minValue maxValue theArray cols j = some i) :
    TableHit minValue maxValue theArray rows cols j i ∧
      ∀ i', TableHit minValue maxValue theArray rows cols j i' → i' ≤ i := by
  obtain ⟨-, hi, hhit, hlast⟩ := findDown_eq_some hscan
  rw [zero_add] at hi hlast
  exact ⟨⟨hj, hi, hhit⟩, fun i' hhit' => hlast i' (Nat.zero_le i') hhit'.2.1 hhit'.2.2⟩

theorem fromRight_isSome (hhit : TableHit minValue maxValue theArray rows cols j i) :
    (fromRight minValue maxValue theArray cols j).isSome = true := by
  rw [← ne_none_iff_isSome]
  apply findDown_ne_none (Nat.zero_le i)
  · rw [zero_add]
    exact hhit.2.1
  · exact hhit.2.2

variable (hdims : theArray.dims = [rows, cols])

include hdims

theorem topDown_spec (hy : (topDown minValue maxValue theArray rows cols).y = some yStart) :
    IsLeast (coordinates (Hits minValue maxValue theArray) 0) yStart ∧
      IsLeast (coordinates (Hits minValue maxValue theArray) 1)
        (topDown minValue maxValue theArray rows cols).x := by
  rw [topDown, foldl_scanRow_y, none_or] at hy
  obtain ⟨hsta, hsom, hfirst⟩ := findUp_eq_some hy
  obtain ⟨i, hscan⟩ := isSome_iff_exists.mp hsom
  obtain ⟨hhit, -⟩ := fromLeft_some hsta hscan
  have hlt := hhit.2.1
  have hlea := @isLeast_foldl_keepBest _ _ _ (cols.size - 1)
    ⟨yStart, mem_range.mpr hsta, i, by omega, hscan⟩
  rw [topDown, foldl_scanRow_x]
  refine ⟨⟨(mem_coordinates_rows hdims).mpr ⟨i, hhit⟩, ?_⟩, ?_, ?_⟩
  · intro j hj
    obtain ⟨i', hhit'⟩ := (mem_coordinates_rows hdims).mp hj
    exact hfirst j hhit'.1 (fromLeft_isSome hhit')
  · obtain ⟨j, hj, hscan⟩ := hlea.1
    exact (mem_coordinates_cols hdims).mpr ⟨j, (fromLeft_some (mem_range.mp hj) hscan).1⟩
  · intro i' hi'
    obtain ⟨j, hhit'⟩ := (mem_coordinates_cols hdims).mp hi'
    obtain ⟨left, hleft⟩ := isSome_iff_exists.mp (fromLeft_isSome hhit')
    have hle := hlea.2 ⟨j, mem_range.mpr hhit'.1, hleft⟩
    exact hle.trans ((fromLeft_some hhit'.1 hleft).2 i' hhit')

theorem bottomUp_spec (hfirst : IsLeast (coordinates (Hits minValue maxValue theArray) 0) yStart) :
    ∃ yStop, (bottomUp minValue maxValue theArray rows cols yStart).y = some yStop ∧
      IsGreatest (coordinates (Hits minValue maxValue theArray) 0) yStop ∧
      IsGreatest (coordinates (Hits minValue maxValue theArray) 1)
        (bottomUp minValue maxValue theArray rows cols yStart).x := by
  obtain ⟨i, hhit⟩ := (mem_coordinates_rows hdims).mp hfirst.1
  have hlt := hhit.1
  have hmem : ∀ j, j ∈ (range' yStart (rows.size - yStart)).reverse ↔
      yStart ≤ j ∧ j < rows.size := by
    intro j
    rw [mem_reverse, mem_range'_1]
    omega
  have hfound : findDown (fun j => (fromRight minValue maxValue theArray cols j).isSome) yStart
      (rows.size - yStart) ≠ none :=
    findDown_ne_none (le_refl yStart) (by omega) (fromRight_isSome hhit)
  obtain ⟨yStop, hstep⟩ := ne_none_iff_exists'.mp hfound
  obtain ⟨hstored, hstt, hsom, hlast⟩ := findDown_eq_some hstep
  obtain ⟨right, hright⟩ := isSome_iff_exists.mp hsom
  have hgre := @isGreatest_foldl_keepBest _ _ _ 0
    ⟨yStop, (hmem yStop).mpr ⟨hstored, by omega⟩, right, Nat.zero_le right, hright⟩
  have hle : ∀ {j i}, TableHit minValue maxValue theArray rows cols j i → yStart ≤ j :=
    fun hhit' => hfirst.2 ((mem_coordinates_rows hdims).mpr ⟨_, hhit'⟩)
  refine ⟨yStop, ?_, ⟨?_, ?_⟩, ?_⟩
  · rw [bottomUp, foldl_scanRow_y, none_or]
    exact hstep
  · exact (mem_coordinates_rows hdims).mpr ⟨right, (fromRight_some (by omega) hright).1⟩
  · intro j hj
    obtain ⟨i', hhit'⟩ := (mem_coordinates_rows hdims).mp hj
    have hj := hhit'.1
    exact hlast j (hle hhit') (by omega) (fromRight_isSome hhit')
  · rw [bottomUp, foldl_scanRow_x]
    constructor
    · obtain ⟨j, hj, hscan⟩ := hgre.1
      exact (mem_coordinates_cols hdims).mpr ⟨j, (fromRight_some ((hmem j).mp hj).2 hscan).1⟩
    · intro i' hi'
      obtain ⟨j, hhit'⟩ := (mem_coordinates_cols hdims).mp hi'
      obtain ⟨right, hright⟩ := isSome_iff_exists.mp (fromRight_isSome hhit')
      have hbd := hgre.2 ⟨j, (hmem j).mpr ⟨hle hhit', hhit'.1⟩, hright⟩
      exact ((fromRight_some hhit'.1 hright).2 i' hhit').trans hbd

theorem bboxRank2_correct : Correct print minValue maxValue theArray
      (bboxRank2 print minValue maxValue theArray rows cols) := by
  cases hy : (topDown minValue maxValue theArray rows cols).y with
  | none =>
    refine ⟨?_, fun _ => by simp only [bboxRank2, hy]⟩
    rintro ⟨indices, hidx⟩
    obtain ⟨j, i, -, hhit⟩ := (mem_hits_table hdims).mp hidx
    rw [topDown, foldl_scanRow_y, none_or] at hy
    have hmss := findUp_eq_none hy j hhit.1
    rw [fromLeft_isSome hhit] at hmss
    cases hmss
  | some yStart =>
    obtain ⟨hfirst, hleft⟩ := topDown_spec hdims hy
    obtain ⟨yStop, hstep, hlast, hright⟩ := bottomUp_spec hdims hfirst
    obtain ⟨indices, hidx, -⟩ := hfirst.1
    have hresult : bboxRank2 print minValue maxValue theArray rows cols =
        .ok ⟨theArray.name, [⟨yStart, yStop, rows.name⟩,
          ⟨(topDown minValue maxValue theArray rows cols).x,
            (bottomUp minValue maxValue theArray rows cols yStart).x, cols.name⟩]⟩ := by
      simp only [bboxRank2, hy, hstep]
    refine ⟨fun _ => ⟨_, hresult, ?_, ?_⟩, fun hnone => absurd ⟨_, hidx⟩ hnone⟩
    · rw [hdims]
      rfl
    · intro d slice hsli
      match d with
      | 0 =>
        cases hsli
        exact ⟨hfirst, hlast⟩
      | 1 =>
        cases hsli
        exact ⟨hleft, hright⟩
      | d + 2 => cases hsli

end

omit [LinearOrder α] in
theorem shape_prod_pos (theArray : ArrayVar α) : 0 < theArray.shape.prod := by
  apply prod_pos
  intro size hmem
  obtain ⟨dim, hdim, rfl⟩ := mem_map.mp hmem
  exact theArray.size_pos dim hdim

/-- The `d`-th index of the element at a position, where that is a hit. -/
def hitCoordinate (minValue maxValue : α) (theArray : ArrayVar α) (d n : Nat) : Option Nat :=
  if hit minValue maxValue theArray n then (unflatten theArray.shape n)[d]? else none

theorem mem_coordinates {i : Nat} : i ∈ coordinates (Hits minValue maxValue theArray) d ↔
      ∃ n ∈ range theArray.shape.prod, hitCoordinate minValue maxValue theArray d n = some i := by
  constructor
  · rintro ⟨indices, hidx, hget⟩
    obtain ⟨hbounds, hhit⟩ := mem_hits.mp hidx
    refine ⟨rowMajor theArray.shape indices, mem_range.mpr (rowMajor_lt hbounds), ?_⟩
    rw [hitCoordinate, if_pos hhit, unflatten_rowMajor hbounds, hget]
  · rintro ⟨n, hn, hval⟩
    rw [mem_range] at hn
    unfold hitCoordinate at hval
    split at hval
    next hhit =>
      refine ⟨unflatten theArray.shape n, mem_hits.mpr ⟨inBounds_unflatten hn, ?_⟩, hval⟩
      rwa [rowMajor_unflatten hn]
    · cases hval

omit [LinearOrder α] in
theorem length_unflatten (shape : List Nat) (n : Nat) : (unflatten shape n).length = shape.length := by
  induction shape generalizing n with
  | nil => rfl
  | cons size shape ih => rw [unflatten, length_cons, length_cons, ih]

def keepCorner (minValue maxValue : α) (theArray : ArrayVar α) (pick : Nat → Nat → Nat)
    (corner : List Nat) (n : Nat) : List Nat :=
  if hit minValue maxValue theArray n then zipWith pick (unflatten theArray.shape n) corner
  else corner

theorem length_keepCorner (hlen : corner.length = theArray.shape.length) :
    (keepCorner minValue maxValue theArray pick corner n).length = theArray.shape.length := by
  unfold keepCorner
  split
  · rw [length_zipWith, length_unflatten, hlen, Nat.min_self]
  · exact hlen

theorem getElem?_keepCorner
    (hlen : corner.length = theArray.shape.length) (hbst : corner[d]? = some best) :
    (keepCorner minValue maxValue theArray pick corner n)[d]? =
      some (keepBest pick (hitCoordinate minValue maxValue theArray d) best n) := by
  have hd : d < (unflatten theArray.shape n).length := by
    rw [length_unflatten, ← hlen]
    exact (List.getElem?_eq_some_iff.mp hbst).1
  unfold keepCorner keepBest hitCoordinate
  split
  · rw [getElem?_zipWith, getElem?_eq_getElem hd, hbst]
  · exact hbst

theorem foldl_keepCorner (pick : Nat → Nat → Nat) (visited : List Nat) {corner : List Nat}
    (hlen : corner.length = theArray.shape.length) :
    (visited.foldl (keepCorner minValue maxValue theArray pick) corner).length = theArray.shape.length ∧
      ∀ (d : Nat) best, corner[d]? = some best →
        (visited.foldl (keepCorner minValue maxValue theArray pick) corner)[d]? =
          some (visited.foldl (keepBest pick (hitCoordinate minValue maxValue theArray d)) best) := by
  induction visited generalizing corner with
  | nil => exact ⟨hlen, fun d best hbst => hbst⟩
  | cons n visited ih =>
    obtain ⟨hafter, hall⟩ := ih (length_keepCorner hlen)
    exact ⟨hafter, fun d best hbst => hall d _ (getElem?_keepCorner hlen hbst)⟩

theorem foldl_record (visited : List Nat) (s : Corners) : visited.foldl (fun s n =>
        record minValue maxValue theArray s (Odometer.standing theArray.shape n)) s =
      ⟨visited.foldl (keepCorner minValue maxValue theArray min) s.min,
        visited.foldl (keepCorner minValue maxValue theArray max) s.max⟩ := by
  have hmin : (fun i m : Nat => if i < m then i else m) = min := by
    funext i m
    split <;> omega
  have hmax : (fun i x : Nat => if i > x then i else x) = max := by
    funext i x
    split <;> omega
  induction visited generalizing s with
  | nil => rfl
  | cons n visited ih =>
    rw [foldl_cons, ih, foldl_cons, foldl_cons]
    unfold record keepCorner Odometer.standing
    rw [hmin, hmax]
    split <;> rfl

theorem hit_lt (hidx : indices ∈ Hits minValue maxValue theArray)
    {d i : Nat} (hsize : theArray.shape[d]? = some size) (hget : indices[d]? = some i) : i < size := by
  obtain ⟨hdim, rfl⟩ := List.getElem?_eq_some_iff.mp hsize
  obtain ⟨hd, rfl⟩ := List.getElem?_eq_some_iff.mp hget
  exact Forall₂.get (mem_hits.mp hidx).1 hdim hd

theorem walk_bounds (hsize : theArray.shape[d]? = some size)
    (hex : ∃ indices, indices ∈ Hits minValue maxValue theArray) :
    IsLeast (coordinates (Hits minValue maxValue theArray) d) ((range theArray.shape.prod).foldl
          (keepBest min (hitCoordinate minValue maxValue theArray d)) size) ∧
      IsGreatest (coordinates (Hits minValue maxValue theArray) d) ((range theArray.shape.prod).foldl
          (keepBest max (hitCoordinate minValue maxValue theArray d)) 0) := by
  obtain ⟨indices, hidx⟩ := hex
  have hd : d < indices.length := by
    rw [← (mem_hits.mp hidx).1.length_eq]
    exact (List.getElem?_eq_some_iff.mp hsize).1
  have hget : indices[d]? = some indices[d] := getElem?_eq_getElem hd
  obtain ⟨n, hn, hval⟩ := mem_coordinates.mp ⟨indices, hidx, hget⟩
  have hset : coordinates (Hits minValue maxValue theArray) d = { i | ∃ n ∈
      range theArray.shape.prod, hitCoordinate minValue maxValue theArray d n = some i } :=
    Set.ext fun _ => mem_coordinates
  rw [hset]
  exact ⟨isLeast_foldl_keepBest ⟨n, hn, _, (hit_lt hidx hsize hget).le, hval⟩,
    isGreatest_foldl_keepBest ⟨n, hn, _, Nat.zero_le _, hval⟩⟩

theorem walk_no_hits (hnone : ¬ ∃ indices, indices ∈ Hits minValue maxValue theArray) (d size : Nat) :
    (range theArray.shape.prod).foldl
      (keepBest min (hitCoordinate minValue maxValue theArray d)) size = size := by
  have hvalues : (range theArray.shape.prod).filterMap
      (hitCoordinate minValue maxValue theArray d) = [] := by
    rw [filterMap_eq_nil_iff]
    intro n hn
    rw [eq_none_iff_forall_ne_some]
    intro i hval
    obtain ⟨indices, hidx, -⟩ := mem_coordinates.mpr ⟨n, hn, hval⟩
    exact hnone ⟨indices, hidx⟩
  rw [foldl_keepBest, hvalues]
  rfl

theorem bboxGeneral_correct (print : α → Str) (minValue maxValue : α) (theArray : ArrayVar α) :
    ∃ result, bboxGeneral print minValue maxValue theArray = some result ∧
      Correct print minValue maxValue theArray result := by
  obtain ⟨dim, rest, hdims⟩ := exists_cons_of_ne_nil theArray.rank_pos
  have hfirst : theArray.shape[0]? = some dim.size := by
    rw [ArrayVar.shape, hdims]
    rfl
  have hwlk := Odometer.walk_new (record minValue maxValue theArray) (shape_prod_pos theArray)
    ⟨theArray.shape, replicate theArray.shape.length 0⟩
  rw [foldl_record] at hwlk
  obtain ⟨hmin, hmns⟩ := @foldl_keepCorner _ _ minValue maxValue theArray min
    (range theArray.shape.prod) theArray.shape rfl
  obtain ⟨hmax, hmxs⟩ := @foldl_keepCorner _ _ minValue maxValue theArray max
    (range theArray.shape.prod) (replicate theArray.shape.length 0) (by simp)
  have hrnk : theArray.shape.length = theArray.dims.length := by
    simp [ArrayVar.shape]
  unfold bboxGeneral
  simp only [hwlk, bind_eq_bind, bind_some, hmns 0 dim.size hfirst, hfirst]
  by_cases hex : ∃ indices, indices ∈ Hits minValue maxValue theArray
  · obtain ⟨indices, hidx, hget⟩ := (walk_bounds hfirst hex).1.1
    rw [if_neg (by simpa using (hit_lt hidx hfirst hget).ne)]
    refine ⟨_, rfl, fun _ => ⟨_, rfl, ?_, ?_⟩, fun hnone => absurd hex hnone⟩
    · apply ext_getElem
      · simp only [length_map, length_zipWith, length_zip, hmin, hmax]
        omega
      · simp
    · intro d slice hsli
      rw [getElem?_zipWith_eq_some] at hsli
      obtain ⟨bounds, dim', hcrn, -, rfl⟩ := hsli
      rw [getElem?_zip_eq_some] at hcrn
      obtain ⟨hlow, hhigh⟩ := hcrn
      have hd : d < theArray.shape.length := by
        rw [← hmin]
        exact (List.getElem?_eq_some_iff.mp hlow).1
      have hsize : theArray.shape[d]? = some theArray.shape[d] := getElem?_eq_getElem hd
      have hzero : (replicate theArray.shape.length 0)[d]? = some 0 := by
        simp [hd]
      rw [hmns d _ hsize, some.injEq] at hlow
      rw [hmxs d 0 hzero, some.injEq] at hhigh
      rw [← hlow, ← hhigh]
      exact walk_bounds hsize hex
  · rw [walk_no_hits hex, if_pos rfl]
    exact ⟨_, rfl, fun hsom => absurd hsom hex, fun _ => rfl⟩

end

/-- `bbox_helper` returns the tight box of the values between the limits, complains exactly when there
are none, and its searches for ranks one and two give what the general one gives. -/
theorem bboxHelper_tight {α : Type} [LinearOrder α] (print : α → Str) (minValue maxValue : α)
    (theArray : ArrayVar α) : (∃ result, bboxHelper print minValue maxValue theArray = some result ∧
      ((∃ indices, indices ∈ Hits minValue maxValue theArray) → ∃ slices,
        result = .ok ⟨theArray.name, slices⟩ ∧
          IsBox theArray.dims (Hits minValue maxValue theArray) slices) ∧
      ((¬ ∃ indices, indices ∈ Hits minValue maxValue theArray) →
        result = .error (noValues print minValue maxValue theArray))) ∧
    bboxHelper print minValue maxValue theArray = bboxGeneral print minValue maxValue theArray := by
  obtain ⟨general, hgen, hcor⟩ := bboxGeneral_correct print minValue maxValue theArray
  have hspec : bboxHelper print minValue maxValue theArray =
      bboxGeneral print minValue maxValue theArray := by
    unfold bboxHelper
    split
    next dim hdims =>
      rw [hgen, (bboxRank1_correct hdims).unique hcor]
    next rows cols hdims =>
      rw [hgen, (bboxRank2_correct hdims).unique hcor]
    · rfl
  exact ⟨⟨general, hspec.trans hgen, hcor.found, hcor.missing⟩, hspec⟩

end Bes.Functions.BBox
