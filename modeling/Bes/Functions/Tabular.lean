import Bes.Dispatch.Util
import Bes.Lib.Buffer
import Bes.Lib.Loop
import Bes.Lib.Scan

/-! The server function `tabular`: arrays become the columns of one table. The arrays of the lowest rank
are the independent variables; the others have one dimension more, whose index becomes a column too. -/
namespace Bes.Functions.Tabular
open Dispatch Lib.Buffer Lib.Loop Lib.Scan List

/-- `configure` defines `NDEBUG`, which takes the assertions out, unless it is told
`--enable-developer`. -/
inductive Build
  | release
  | developer
deriving DecidableEq

/-- A dimension, whose size is a C `int`. -/
structure Dim where
  name : Str
  size : Nat
  size_lt : size < 2 ^ 31
deriving DecidableEq

/-- An element of an array. The new index has DAP's type `UInt32`. -/
inductive Value (α : Type)
  | uint32 (n : UInt32)
  | other (value : α)
deriving DecidableEq

/-- An array that has been read, its values in row-major order. The number of dimensions is an
`unsigned int` and the length an `int`. -/
structure ArrayVar (α : Type) where
  name : Str
  dims : List Dim
  values : List (Value α)
  rank_lt : dims.length < 2 ^ 32
  length_eq : values.length = (dims.map Dim.size).prod
  length_lt : values.length < 2 ^ 31

inductive Arg (α : Type)
  | array (a : ArrayVar α)
  | other (name typeName : Str)

inductive Failure
  | error (text : Str)
  /-- `std::out_of_range`, or an access outside a vector. -/
  | outOfRange
  | abort
deriving DecidableEq

structure Column (α : Type) where
  name : Str
  values : List (Value α)

abbrev Row (α : Type) := List (Value α)

structure Table (α : Type) where
  name : Str
  columns : List Str
  rows : List (Row α)

variable {α : Type}

def ArrayVar.dimensions (a : ArrayVar α) : Nat := a.dims.length

def ArrayVar.shape (a : ArrayVar α) : List Nat := a.dims.map Dim.size

def ArrayVar.column (a : ArrayVar α) : Column α := ⟨a.name, a.values⟩

def shapeMatches (a : ArrayVar α) (shape : List Nat) : Bool :=
  shape.length == a.dimensions && (shape.zip a.shape).all fun sizes => sizes.1 == sizes.2

def matchReversed : List Nat → List Nat → Bool
  | _, [] => true
  | [], _ :: _ => false
  | d :: dep, i :: indep => i == d && matchReversed dep indep

def depIndepMatch (depShape indepShape : List Nat) : Bool :=
  matchReversed depShape.reverse indepShape.reverse

def numberOfValues (shape : List Nat) : Nat := shape.foldl (fun size n => size * n % 2 ^ 64) 1

theorem shape_length (a : ArrayVar α) : a.shape.length = a.dimensions := length_map ..

theorem all_zip_iff (shape sizes : List Nat) :
    (shape.length == sizes.length && (shape.zip sizes).all fun both => both.1 == both.2) = true ↔
      shape = sizes := by
  induction shape generalizing sizes with
  | nil => cases sizes <;> simp
  | cons n shape ih =>
    cases sizes with
    | nil => simp
    | cons m sizes =>
      have hrest := ih sizes
      simp only [length_cons, zip_cons_cons, all_cons, Bool.and_eq_true, beq_iff_eq,
        Nat.succ.injEq, cons.injEq, ← hrest]
      exact and_left_comm

theorem shapeMatches_iff (a : ArrayVar α) (shape : List Nat) :
    shapeMatches a shape = true ↔ a.shape = shape := by
  unfold shapeMatches
  rw [← shape_length, all_zip_iff]
  exact eq_comm

theorem matchReversed_iff (dep indep : List Nat) : matchReversed dep indep = true ↔ indep <+: dep := by
  induction dep generalizing indep with
  | nil => cases indep <;> simp [matchReversed]
  | cons d dep ih =>
    cases indep with
    | nil => simp [matchReversed]
    | cons i indep => simp [matchReversed, ih, cons_prefix_cons]

theorem depIndepMatch_iff (depShape indepShape : List Nat) :
    depIndepMatch depShape indepShape = true ↔ indepShape <:+ depShape := by
  unfold depIndepMatch
  rw [matchReversed_iff, reverse_prefix]

theorem foldl_wrapped (shape : List Nat) : ∀ size < 2 ^ 64,
      shape.foldl (fun size n => size * n % 2 ^ 64) size = size * shape.prod % 2 ^ 64 := by
  induction shape with
  | nil =>
    intro size hsize
    simpa using (Nat.mod_eq_of_lt hsize).symm
  | cons n shape ih =>
    intro size _
    rw [foldl_cons, ih _ (Nat.mod_lt _ (by decide)), prod_cons, Nat.mod_mul_mod, mul_assoc]

variable {shape : List Nat} {arrays : List (ArrayVar α)}

theorem numberOfValues_eq (hlt : shape.prod < 2 ^ 31) : numberOfValues shape = shape.prod := by
  unfold numberOfValues
  rw [foldl_wrapped shape 1 (by decide), one_mul, Nat.mod_eq_of_lt (by omega)]

def Column.at? (i : Nat) (column : Column α) : Except Failure (Value α) :=
  match column.values[i]? with
  | some value => .ok value
  | none => .error .outOfRange

def buildSequenceValues (columns : List (Column α)) (rows : Nat) : Except Failure (List (Row α)) :=
  (range rows).mapM fun i => columns.mapM (Column.at? i)

/-- The loop of `combine_sequence_values`; `ii` walks through the shorter table again and again. -/
def combineRows (indep : List (Row α)) : List (Row α) → Nat → Except Failure (List (Row α) × Nat)
  | [], ii => .ok ([], ii)
  | row :: dep, ii =>
      let ii := if ii = indep.length then 0 else ii
      match indep[ii]? with
      | none => .error .outOfRange
      | some more => do
          let (rows, last) ← combineRows indep dep (ii + 1)
          return ((row ++ more) :: rows, last)

def assertThat (build : Build) (condition : Bool) : Except Failure Unit :=
  if build = .developer ∧ condition = false then .error .abort else .ok ()

def combineSequenceValues (build : Build) (dep indep : List (Row α)) :
    Except Failure (List (Row α)) := do
  let (rows, ii) ← combineRows indep dep 0
  assertThat build (ii == indep.length)
  return rows

def fillBlocks (build : Build) (block : Nat) :
    List Nat → Nat → List UInt32 → Except Failure (List UInt32)
  | [], _, vals => .ok vals
  | i :: rest, iv, vals => do
      assertThat build (iv != vals.length)
      match memcpy vals iv (replicate block (UInt32.ofNat i)) 0 block with
      | none => .error .outOfRange
      | some vals => fillBlocks build block rest (iv + block) vals

def indexName (depVars : List (ArrayVar α)) : Str :=
  match (depVars.head?.bind (·.dims.head?)).map Dim.name with
  | some (c :: name) => c :: name
  | _ => "index".toList

def addIndexColumn (build : Build) (indepShape depShape : List Nat) (depVars : List (ArrayVar α)) :
    Except Failure (List (Column α)) := do
  assertThat build (decide (depVars.length > 0))
  assertThat build (depShape.length == indepShape.length + 1)
  let numIndepValues := numberOfValues indepShape
  let numDepValues := numberOfValues depShape
  match depShape.head? with
  | none => .error .outOfRange
  | some extra =>
      assertThat build (numDepValues == numIndepValues * extra)
      let indexVals ← fillBlocks build numIndepValues (range extra) 0
        (replicate numDepValues 0)
      return ⟨indexName depVars, indexVals.map .uint32⟩ :: depVars.map ArrayVar.column

def collectArrays : List (Arg α) → Except Failure (List (ArrayVar α))
  | [] => .ok []
  | .array a :: rest => do return a :: (← collectArrays rest)
  | .other name typeName :: _ =>
      .error (.error ("In function tabular(): Expected an array, but argument ".toList ++ name ++
        " is a ".toList ++ typeName ++ ".".toList))

/-- The rank of the independent variables; the loop starts from `ULONG_MAX`. -/
def minDimSize (arrays : List (ArrayVar α)) : Nat :=
  arrays.foldl (fun least a => min a.dimensions least) (2 ^ 64 - 1)

def sameShape (text : Str) : List (ArrayVar α) → Except Failure (List Nat)
  | [] => .error .outOfRange
  | first :: rest =>
      if rest.all (shapeMatches · first.shape) then .ok first.shape else .error (.error text)

def independentShape (indepVars : List (ArrayVar α)) : Except Failure (List Nat) :=
  sameShape ("In function tabular(): Expected all of the 'independent' variables to have the " ++
    "same shape.").toList indepVars

def dependentShape (indepShape : List Nat) (depVars : List (ArrayVar α)) :
    Except Failure (List Nat) := do
  let depShape ← sameShape ("In function tabular(): Expected all of the 'dependent' variables to " ++
    "have the same shape.").toList depVars
  if depShape.length > indepShape.length + 1 then
    .error (.error ("In function tabular(): The rank of the dependent variables may be at most one " ++
      "more than the rank of the independent variables").toList)
  else if depShape.length < indepShape.length then
    .error (.error ("In function tabular(): The rank of the dependent variables cannot be less than " ++
      "the rank of the independent variables").toList)
  else if depIndepMatch depShape indepShape = false then
    .error (.error ("In function tabular(): The 'independent' array shapes must match the " ++
      "right-most dimensions of the 'dependent' variables.").toList)
  else .ok depShape

def functionDap2Tabular (build : Build) (args : List (Arg α)) : Except Failure (Table α) := do
  let arrays ← collectArrays args
  if arrays.length < 1 then
    .error (.error "In function tabular(): Expected at least one Array variable.".toList)
  else
    let indepVars := arrays.filter fun a => a.dimensions == minDimSize arrays
    let depVars := arrays.filter fun a => !(a.dimensions == minDimSize arrays)
    let indepShape ← independentShape indepVars
    let indepSv ← buildSequenceValues (indepVars.map ArrayVar.column) (numberOfValues indepShape)
    if depVars.isEmpty then
      return ⟨"table".toList, indepVars.map ArrayVar.name, indepSv⟩
    else
      let depShape ← dependentShape indepShape depVars
      let depColumns ← addIndexColumn build indepShape depShape depVars
      let depSv ← buildSequenceValues depColumns (numberOfValues depShape)
      let rows ← combineSequenceValues build depSv indepSv
      return ⟨"table".toList, depColumns.map Column.name ++ indepVars.map ArrayVar.name, rows⟩

/-- The rows of a table of `n` rows, by the cells that row `i` is to hold. -/
def HoldsRows (rows : List (Row α)) (n : Nat) (cells : Nat → List (Option (Value α))) : Prop :=
  rows.length = n ∧ ∀ i < n, ∃ row, rows[i]? = some row ∧ row.map some = cells i

theorem buildSequenceValues_rows {columns : List (Column α)}
    (hlen : ∀ column ∈ columns, column.values.length = n) :
    ∃ rows, buildSequenceValues columns n = .ok rows ∧
      HoldsRows rows n fun i => columns.map (·.values[i]?) := by
  have hrow : ∀ i ∈ range n, ∃ row, columns.mapM (Column.at? i) = .ok row ∧
      row.map some = columns.map (·.values[i]?) := by
    intro i hi
    have hcell : ∀ column ∈ columns, ∃ value, column.at? i = .ok value ∧
        column.values[i]? = some value := by
      intro column hmem
      have hi' : i < column.values.length := by
        rw [hlen column hmem]
        exact mem_range.mp hi
      refine ⟨column.values[i], ?_, getElem?_eq_getElem hi'⟩
      unfold Column.at?
      rw [getElem?_eq_getElem hi']
    obtain ⟨row, hok, hall⟩ := mapM_forall₂ hcell
    refine ⟨row, hok, ?_⟩
    rw [← forall₂_eq_eq_eq, forall₂_map_left_iff, forall₂_map_right_iff]
    exact hall.flip.imp fun _ _ hval => hval.symm
  obtain ⟨rows, hok, hall⟩ := mapM_forall₂ hrow
  have hrws := hall.length_eq
  rw [length_range] at hrws
  refine ⟨rows, hok, hrws.symm, ?_⟩
  intro i hi
  have hi' : i < rows.length := hrws ▸ hi
  refine ⟨rows[i], getElem?_eq_getElem hi', ?_⟩
  have hcel := hall.get (length_range ▸ hi) hi'
  simpa using hcel

/-- The walk through the shorter table is cyclic: after `k` rows it stands at `k` modulo its length. It
ends at the end of the table when the number of rows is a multiple of that length. -/
theorem combineRows_cyclic (hpos : 0 < indep.length) (dep : List (Row α)) :
    ∀ ii k, ii ≤ indep.length → ii % indep.length = k % indep.length →
      ∃ rows last, combineRows indep dep ii = .ok (rows, last) ∧ rows.length = dep.length ∧
        (∀ j row more, dep[j]? = some row → indep[(k + j) % indep.length]? = some more →
          rows[j]? = some (row ++ more)) ∧
        last ≤ indep.length ∧ last % indep.length = (k + dep.length) % indep.length ∧
        (0 < ii ∨ dep ≠ [] → 0 < last) := by
  induction dep with
  | nil =>
    intro ii k hle hmod
    refine ⟨[], ii, rfl, rfl, ?_, hle, hmod, ?_⟩
    · intro j row more hrow
      simp at hrow
    · simp
  | cons first dep ih =>
    intro ii k hle hmod
    have hlt : k % indep.length < indep.length := Nat.mod_lt k hpos
    have hsta : (if ii = indep.length then 0 else ii) = k % indep.length := by
      split
      next hend =>
        rw [← hmod, hend, Nat.mod_self]
      next hins =>
        rw [← hmod, Nat.mod_eq_of_lt (by omega)]
    obtain ⟨rows, last, hok, hlen, hrws, hlast, hlas, hmov⟩ :=
      ih (k % indep.length + 1) (k + 1) hlt (Nat.mod_add_mod ..)
    refine ⟨(first ++ indep[k % indep.length]) :: rows, last, ?_, by simp [hlen], ?_, hlast, ?_, ?_⟩
    · rw [combineRows]
      simp only [hsta, getElem?_eq_getElem hlt, hok]
      rfl
    · intro j row more hrow hmore
      cases j with
      | zero =>
        simp only [getElem?_cons_zero, Option.some.injEq] at hrow
        rw [add_zero, getElem?_eq_getElem hlt, Option.some.injEq] at hmore
        rw [getElem?_cons_zero, hrow, hmore]
      | succ j =>
        apply hrws j row more hrow
        rw [← hmore]
        congr 2
        omega
    · rw [hlas, length_cons]
      congr 1
      omega
    · intro _
      exact hmov (.inl (Nat.succ_pos _))

theorem assertThat_ok
    (h : build = .developer → condition = true) : assertThat build condition = .ok () := by
  apply if_neg
  rintro ⟨hbui, hfal⟩
  rw [h hbui] at hfal
  cases hfal

theorem combineSequenceValues_rows (hdep : HoldsRows dep n depCells)
    (hind : HoldsRows indep m indepCells) (hpos : 0 < n → 0 < m) (hdvd : m ∣ n)
    (hass : build = .developer → 0 < n) : ∃ rows, combineSequenceValues build dep indep = .ok rows ∧
      HoldsRows rows n fun i => depCells i ++ indepCells (i % m) := by
  obtain ⟨hdel, hder⟩ := hdep
  obtain ⟨hine, hins⟩ := hind
  by_cases hn : 0 < n
  · have hm : 0 < indep.length := hine ▸ hpos hn
    obtain ⟨rows, last, hok, hlen, hrws, hlast, hlas, hmov⟩ :=
      combineRows_cyclic hm dep 0 0 (Nat.zero_le _) rfl
    have hend : last = indep.length := by
      have hstep := hmov (.inr (ne_nil_of_length_pos (by omega)))
      rw [zero_add, hdel, hine, Nat.mod_eq_zero_of_dvd hdvd] at hlas
      exact (Nat.le_of_dvd hstep (hine ▸ Nat.dvd_of_mod_eq_zero hlas)).antisymm' hlast
    refine ⟨rows, ?_, hlen.trans hdel, ?_⟩
    · unfold combineSequenceValues
      rw [hok]
      simp only [bind, Except.bind, pure, Except.pure]
      rw [assertThat_ok fun _ => by simpa using hend]
    · intro i hi
      obtain ⟨row, hrow, hcel⟩ := hder i hi
      obtain ⟨more, hmore, hmoe⟩ := hins (i % m) (Nat.mod_lt i (hpos hn))
      refine ⟨row ++ more, ?_, by rw [map_append, hcel, hmoe]⟩
      apply hrws i row more hrow
      rw [zero_add, hine, hmore]
  · have hempty : dep = [] := eq_nil_of_length_eq_zero (by omega)
    subst hempty
    refine ⟨[], ?_, hdel, fun i hi => absurd hi (by omega)⟩
    unfold combineSequenceValues combineRows
    simp only [bind, Except.bind, pure, Except.pure]
    rw [assertThat_ok fun hbui => absurd (hass hbui) hn]

theorem fillBlocks_fills (hass : build = .developer → 0 < block) (count : Nat) :
    ∀ first vals, vals.length = (first + count) * block →
      ∃ after, fillBlocks build block (range' first count) (first * block) vals = .ok after ∧
        Fills (fun j => some (UInt32.ofNat (j / block)))
          { j | first * block ≤ j ∧ j < (first + count) * block } vals after := by
  induction count with
  | zero =>
    intro first vals _
    refine ⟨vals, rfl, (Fills.refl _ vals).congr ?_⟩
    ext j
    simp
  | succ count ih =>
    intro first vals hlen
    have hroom : (first + 1 + count) * block = (first + (count + 1)) * block := by
      congr 1
      omega
    have hblock : first * block + block = (first + 1) * block := (Nat.succ_mul first block).symm
    have hins : (first + 1) * block ≤ (first + (count + 1)) * block :=
      Nat.mul_le_mul_right block (by omega)
    have hcnt : ∀ j < block, (replicate block (UInt32.ofNat first))[0 + j]? =
        some (UInt32.ofNat ((first * block + j) / block)) := by
      intro j hj
      rw [zero_add, getElem?_replicate, if_pos hj, mul_comm,
        Nat.mul_add_div (by omega), Nat.div_eq_of_lt hj, add_zero]
    obtain ⟨middle, hcopy, hfirst⟩ := memcpy_fills (fun j => some (UInt32.ofNat (j / block))) vals
      (replicate block (UInt32.ofNat first)) (first * block) 0 block (by omega) (by simp) hcnt
    obtain ⟨after, hok, hrest⟩ := ih (first + 1) middle (by rw [hfirst.length_eq, hlen, hroom])
    refine ⟨after, ?_, (hfirst.trans hrest).congr ?_⟩
    · rw [range'_succ, fillBlocks, assertThat_ok, hcopy, hblock]
      · exact hok
      · intro hbui
        have hpos := hass hbui
        simp only [bne_iff_ne, hlen]
        omega
    · ext j
      simp only [Set.mem_union, Set.mem_ofPred_eq, hblock, hroom]
      omega

theorem addIndexColumn_rows (hdep : depVars ≠ []) (hdel : (extra :: shape).prod < 2 ^ 31)
    (hind : shape.prod < 2 ^ 31) (hass : build = .developer → 0 < shape.prod) :
    ∃ index : List UInt32, addIndexColumn build shape (extra :: shape) depVars =
        .ok (⟨indexName depVars, index.map .uint32⟩ :: depVars.map ArrayVar.column) ∧
      index.length = (extra :: shape).prod ∧
      ∀ i < (extra :: shape).prod, index[i]? = some (UInt32.ofNat (i / shape.prod)) := by
  have hzero : (replicate (extra :: shape).prod (0 : UInt32)).length =
      (0 + extra) * shape.prod := by
    rw [length_replicate, prod_cons, zero_add]
  obtain ⟨index, hok, hfil⟩ := fillBlocks_fills hass extra 0 _ hzero
  rw [zero_mul, ← range_eq_range'] at hok
  refine ⟨index, ?_, by rw [hfil.length_eq, length_replicate], ?_⟩
  · unfold addIndexColumn
    rw [numberOfValues_eq hdel, numberOfValues_eq hind,
      assertThat_ok fun _ => by simpa using length_pos_iff.mpr hdep,
      assertThat_ok fun _ => by simp]
    simp only [bind, Except.bind, pure, Except.pure, head?_cons]
    rw [assertThat_ok fun _ => by simp [mul_comm], hok]
  · intro i hi
    apply hfil.inside
    simpa using hi

def Lowest (arrays : List (ArrayVar α)) (a : ArrayVar α) : Prop :=
  ∀ b ∈ arrays, a.dimensions ≤ b.dimensions

instance (arrays : List (ArrayVar α)) (a : ArrayVar α) : Decidable (Lowest arrays a) :=
  inferInstanceAs (Decidable (∀ b ∈ arrays, a.dimensions ≤ b.dimensions))

def lowest (arrays : List (ArrayVar α)) : List (ArrayVar α) :=
  arrays.filter fun a => decide (Lowest arrays a)

def higher (arrays : List (ArrayVar α)) : List (ArrayVar α) :=
  arrays.filter fun a => decide (¬ Lowest arrays a)

structure Fits (arrays : List (ArrayVar α)) (shape : List Nat) (extra : Nat) : Prop where
  lowest_shape : ∀ a ∈ lowest arrays, a.shape = shape
  higher_shape : ∀ a ∈ higher arrays, a.shape = extra :: shape

theorem minDimSize_spec (hne : arrays ≠ []) : (∀ a ∈ arrays, minDimSize arrays ≤ a.dimensions) ∧
      ∃ a ∈ arrays, a.dimensions = minDimSize arrays := by
  obtain ⟨a, ha⟩ := exists_mem_of_ne_nil arrays hne
  have hrnk : a.dimensions < 2 ^ 32 := a.rank_lt
  have hlea := @isLeast_foldl_keepBest _ (fun a : ArrayVar α => some a.dimensions) arrays
    (2 ^ 64 - 1) ⟨a, ha, a.dimensions, by omega, rfl⟩
  refine ⟨fun a ha => hlea.2 ⟨a, ha, rfl⟩, ?_⟩
  obtain ⟨a, ha, heq⟩ := hlea.1
  exact ⟨a, ha, Option.some.inj heq⟩

theorem lowest_iff {a : ArrayVar α} (ha : a ∈ arrays) :
    Lowest arrays a ↔ a.dimensions = minDimSize arrays := by
  obtain ⟨hle, least, hmem, hlea⟩ := minDimSize_spec (ne_nil_of_mem ha)
  constructor
  · intro hlow
    exact ((hlow least hmem).trans_eq hlea).antisymm (hle a ha)
  · intro heq b hb
    exact heq ▸ hle b hb

theorem lowest_eq (arrays : List (ArrayVar α)) :
    arrays.filter (fun a => a.dimensions == minDimSize arrays) = lowest arrays := by
  apply filter_congr
  intro a ha
  rw [Bool.eq_iff_iff, beq_iff_eq, decide_eq_true_iff, lowest_iff ha]

theorem higher_eq (arrays : List (ArrayVar α)) :
    arrays.filter (fun a => !(a.dimensions == minDimSize arrays)) = higher arrays := by
  apply filter_congr
  intro a ha
  rw [Bool.eq_iff_iff, Bool.not_eq_true', beq_eq_false_iff_ne, decide_eq_true_iff, lowest_iff ha]

theorem lowest_ne_nil (hne : arrays ≠ []) : lowest arrays ≠ [] := by
  obtain ⟨-, a, ha, hlea⟩ := minDimSize_spec hne
  exact ne_nil_of_mem (mem_filter.mpr ⟨ha, by simpa using (lowest_iff ha).mpr hlea⟩)

theorem dimensions_lt {a b : ArrayVar α} (ha : a ∈ lowest arrays)
    (hb : b ∈ higher arrays) : a.dimensions < b.dimensions := by
  obtain ⟨haMem, haLow⟩ := mem_filter.mp ha
  obtain ⟨hbMem, hbhi⟩ := mem_filter.mp hb
  rw [decide_eq_true_iff, lowest_iff haMem] at haLow
  rw [decide_eq_true_iff, lowest_iff hbMem] at hbhi
  have hle := (minDimSize_spec (ne_nil_of_mem haMem)).1 b hbMem
  omega

theorem sameShape_eq_ok (hne : arrays ≠ []) (hsha : ∀ a ∈ arrays, a.shape = shape) :
    sameShape text arrays = .ok shape := by
  cases arrays with
  | nil => exact absurd rfl hne
  | cons first rest =>
    have hfirst := hsha first mem_cons_self
    have hrest : rest.all (shapeMatches · first.shape) = true := by
      rw [all_eq_true]
      intro a ha
      rw [shapeMatches_iff, hfirst]
      exact hsha a (mem_cons_of_mem first ha)
    rw [sameShape, if_pos hrest, hfirst]

theorem sameShape_cases (text : Str) (hne : arrays ≠ []) :
    (∃ shape, sameShape text arrays = .ok shape ∧ ∀ a ∈ arrays, a.shape = shape) ∨
      sameShape text arrays = .error (.error text) := by
  cases arrays with
  | nil => exact absurd rfl hne
  | cons first rest =>
    rw [sameShape]
    split
    next hall =>
      refine .inl ⟨first.shape, rfl, ?_⟩
      intro a ha
      cases mem_cons.mp ha with
      | inl heq => rw [heq]
      | inr hrest => exact (shapeMatches_iff a _).mp (all_eq_true.mp hall a hrest)
    · exact .inr rfl

theorem independentShape_cases {indepVars : List (ArrayVar α)} (hne : indepVars ≠ []) :
    (∃ shape, ∀ a ∈ indepVars, a.shape = shape) ∨
      ∃ text, independentShape indepVars = .error (.error text) := by
  cases sameShape_cases _ hne with
  | inl hok =>
    obtain ⟨shape, -, hall⟩ := hok
    exact .inl ⟨shape, hall⟩
  | inr herr => exact .inr ⟨_, herr⟩

theorem dependentShape_eq_ok {depVars : List (ArrayVar α)}
    (hne : depVars ≠ []) (hsha : ∀ a ∈ depVars, a.shape = extra :: shape) :
    dependentShape shape depVars = .ok (extra :: shape) := by
  unfold dependentShape
  rw [sameShape_eq_ok hne hsha]
  have hmatch : depIndepMatch (extra :: shape) shape = true :=
    (depIndepMatch_iff _ _).mpr (suffix_cons extra shape)
  simp [bind, Except.bind, hmatch]

theorem dependentShape_cases {depVars : List (ArrayVar α)} (hne : depVars ≠ [])
    (hrnk : ∀ a ∈ depVars, shape.length < a.dimensions) :
    (∃ extra, ∀ a ∈ depVars, a.shape = extra :: shape) ∨
      ∃ text, dependentShape shape depVars = .error (.error text) := by
  unfold dependentShape
  cases sameShape_cases _ hne with
  | inr herr =>
    rw [herr]
    exact .inr ⟨_, rfl⟩
  | inl hok =>
    obtain ⟨depShape, hok, hall⟩ := hok
    rw [hok]
    simp only [bind, Except.bind]
    split
    · exact .inr ⟨_, rfl⟩
    · split
      · exact .inr ⟨_, rfl⟩
      · split
        · exact .inr ⟨_, rfl⟩
        next hmst _ hmatch =>
          rw [Bool.not_eq_false, depIndepMatch_iff] at hmatch
          obtain ⟨front, hfront⟩ := hmatch
          obtain ⟨a, ha⟩ := exists_mem_of_ne_nil depVars hne
          have hmore := hrnk a ha
          rw [← shape_length, hall a ha, ← hfront, length_append] at hmore
          rw [← hfront, length_append] at hmst
          obtain ⟨extra, hext⟩ := length_eq_one_iff.mp (show front.length = 1 by omega)
          refine .inl ⟨extra, ?_⟩
          intro b hb
          rw [hall b hb, ← hfront, hext]
          rfl

structure IsTableOf (arrays : List (ArrayVar α)) (shape : List Nat) (extra : Nat) (table : Table α) :
    Prop where
  name_eq : table.name = "table".toList
  of_one_rank : higher arrays = [] → table.columns = (lowest arrays).map ArrayVar.name ∧
    HoldsRows table.rows shape.prod fun i => (lowest arrays).map (·.values[i]?)
  of_two_ranks : higher arrays ≠ [] → ∃ index : Nat → UInt32,
    table.columns = indexName (higher arrays) ::
      ((higher arrays).map ArrayVar.name ++ (lowest arrays).map ArrayVar.name) ∧
    (∀ i < (extra :: shape).prod, (index i).toNat = i / shape.prod) ∧
    HoldsRows table.rows (extra :: shape).prod fun i =>
      some (.uint32 (index i)) :: ((higher arrays).map (·.values[i]?) ++
        (lowest arrays).map (·.values[i % shape.prod]?))

theorem collectArrays_map (arrays : List (ArrayVar α)) :
    collectArrays (arrays.map .array) = .ok arrays := by
  induction arrays with
  | nil => rfl
  | cons a arrays ih =>
    rw [map_cons, collectArrays, ih]
    rfl

theorem collectArrays_cases (args : List (Arg α)) :
    (∃ arrays : List (ArrayVar α), args = arrays.map .array) ∨
      ∃ text, collectArrays args = .error (.error text) := by
  induction args with
  | nil => exact .inl ⟨[], rfl⟩
  | cons arg args ih =>
    cases arg with
    | other name typeName => exact .inr ⟨_, rfl⟩
    | array a =>
      cases ih with
      | inl hex =>
        obtain ⟨arrays, rfl⟩ := hex
        exact .inl ⟨a :: arrays, rfl⟩
      | inr hex =>
        obtain ⟨text, herr⟩ := hex
        refine .inr ⟨text, ?_⟩
        rw [collectArrays, herr]
        rfl

theorem shape_prod (a : ArrayVar α) : a.shape.prod = a.values.length := a.length_eq.symm

theorem prod_lt (hne : arrays ≠ []) (hsha : ∀ a ∈ arrays, a.shape = shape) : shape.prod < 2 ^ 31 := by
  obtain ⟨a, ha⟩ := exists_mem_of_ne_nil arrays hne
  rw [← hsha a ha, shape_prod]
  exact a.length_lt

theorem column_length (hsha : ∀ a ∈ arrays, a.shape = shape) :
    ∀ column ∈ arrays.map ArrayVar.column, column.values.length = shape.prod := by
  intro column hmem
  obtain ⟨a, ha, rfl⟩ := mem_map.mp hmem
  rw [← hsha a ha, shape_prod]
  rfl

theorem extra_lt (hne : arrays ≠ [])
    (hsha : ∀ a ∈ arrays, a.shape = extra :: shape) : extra < 2 ^ 31 := by
  obtain ⟨a, ha⟩ := exists_mem_of_ne_nil arrays hne
  have hmem : extra ∈ a.shape := by
    rw [hsha a ha]
    exact mem_cons_self
  obtain ⟨dim, -, rfl⟩ := mem_map.mp hmem
  exact dim.size_lt

theorem functionDap2Tabular_map (build : Build)
    (hne : arrays ≠ []) (hsha : ∀ a ∈ lowest arrays, a.shape = shape) :
    ∃ indepSv, HoldsRows indepSv shape.prod (fun i => (lowest arrays).map (·.values[i]?)) ∧
      functionDap2Tabular build (arrays.map .array) =
        if (higher arrays).isEmpty then
          .ok ⟨"table".toList, (lowest arrays).map ArrayVar.name, indepSv⟩
        else do
          let depShape ← dependentShape shape (higher arrays)
          let depColumns ← addIndexColumn build shape depShape (higher arrays)
          let depSv ← buildSequenceValues depColumns (numberOfValues depShape)
          let rows ← combineSequenceValues build depSv indepSv
          return ⟨"table".toList,
            depColumns.map Column.name ++ (lowest arrays).map ArrayVar.name, rows⟩ := by
  have hlow := lowest_ne_nil hne
  obtain ⟨indepSv, hok, hrws⟩ := buildSequenceValues_rows (column_length hsha)
  refine ⟨indepSv, by simpa [ArrayVar.column, Function.comp_def] using hrws, ?_⟩
  have hlen : ¬ arrays.length < 1 := by
    have hpos := length_pos_iff.mpr hne
    omega
  unfold functionDap2Tabular independentShape
  rw [collectArrays_map]
  simp only [bind, Except.bind, pure, Except.pure, if_neg hlen, lowest_eq, higher_eq]
  rw [sameShape_eq_ok hlow hsha]
  simp only [numberOfValues_eq (prod_lt hlow hsha), hok]

theorem functionDap2Tabular_one_rank (hne : arrays ≠ []) (hfits : Fits arrays shape extra) (hhig : higher arrays = []) :
    ∃ table, functionDap2Tabular build (arrays.map .array) = .ok table ∧
      IsTableOf arrays shape extra table := by
  obtain ⟨indepSv, hrws, heq⟩ := functionDap2Tabular_map build hne hfits.lowest_shape
  rw [if_pos (isEmpty_iff.mpr hhig)] at heq
  exact ⟨_, heq, rfl, fun _ => ⟨rfl, hrws⟩, fun hsom => absurd hhig hsom⟩

theorem functionDap2Tabular_two_ranks (hne : arrays ≠ []) (hfits : Fits arrays shape extra) (hhig : higher arrays ≠ [])
    (hass : build = .developer → 0 < (extra :: shape).prod) :
    ∃ table, functionDap2Tabular build (arrays.map .array) = .ok table ∧
      IsTableOf arrays shape extra table := by
  have hine := prod_lt (lowest_ne_nil hne) hfits.lowest_shape
  have hdel := prod_lt hhig hfits.higher_shape
  have hpos : 0 < (extra :: shape).prod → 0 < shape.prod := by
    intro hprd
    exact Nat.pos_of_mul_pos_left hprd
  obtain ⟨indepSv, hind, heq⟩ := functionDap2Tabular_map build hne hfits.lowest_shape
  obtain ⟨index, hink, hinh, hidx⟩ := addIndexColumn_rows hhig hdel hine
    (fun hbui => hpos (hass hbui))
  have hlen : ∀ column ∈ Column.mk (indexName (higher arrays)) (index.map Value.uint32) ::
      (higher arrays).map ArrayVar.column, column.values.length = (extra :: shape).prod := by
    intro column hmem
    cases mem_cons.mp hmem with
    | inl heq => rw [heq, length_map, hinh]
    | inr hrest => exact column_length hfits.higher_shape column hrest
  obtain ⟨depSv, hdeo, hdep⟩ := buildSequenceValues_rows hlen
  obtain ⟨rows, hros, hrws⟩ := combineSequenceValues_rows hdep hind hpos
    (Dvd.intro_left extra (prod_cons ..).symm) hass
  rw [if_neg (by simpa using hhig), dependentShape_eq_ok hhig hfits.higher_shape] at heq
  simp only [bind, Except.bind, pure, Except.pure, hink, numberOfValues_eq hdel, hdeo, hros] at heq
  refine ⟨_, heq, rfl, fun hnone => absurd hnone hhig, fun _ =>
    ⟨fun i => UInt32.ofNat (i / shape.prod), ?_, ?_, hrws.1, ?_⟩⟩
  · simp [ArrayVar.column, Function.comp_def]
  · intro i hi
    have hquo : i / shape.prod < extra :=
      Nat.div_lt_of_lt_mul (by rwa [prod_cons, mul_comm] at hi)
    have hext := extra_lt hhig hfits.higher_shape
    exact UInt32.toNat_ofNat_of_lt (by simp [UInt32.size]; omega)
  · intro i hi
    obtain ⟨row, hrow, hcel⟩ := hrws.2 i hi
    refine ⟨row, hrow, hcel.trans ?_⟩
    simp [ArrayVar.column, Function.comp_def, hidx i hi]

theorem functionDap2Tabular_rejects (build : Build) (hne : arrays ≠ [])
    (hfits : ¬ ∃ shape extra, Fits arrays shape extra) :
    ∃ text, functionDap2Tabular build (arrays.map .array) = .error (.error text) := by
  cases independentShape_cases (lowest_ne_nil hne) with
  | inr hex =>
    obtain ⟨text, herr⟩ := hex
    have hlen : ¬ arrays.length < 1 := by
      have hpos := length_pos_iff.mpr hne
      omega
    refine ⟨text, ?_⟩
    unfold functionDap2Tabular
    rw [collectArrays_map]
    simp only [bind, Except.bind, if_neg hlen, lowest_eq, herr]
  | inl hex =>
    obtain ⟨shape, hsha⟩ := hex
    have hhig : higher arrays ≠ [] := by
      intro hnone
      apply hfits
      refine ⟨shape, 0, hsha, ?_⟩
      simp [hnone]
    have hrnk : ∀ b ∈ higher arrays, shape.length < b.dimensions := by
      intro b hb
      obtain ⟨a, ha⟩ := exists_mem_of_ne_nil _ (lowest_ne_nil hne)
      rw [← hsha a ha, shape_length]
      exact dimensions_lt ha hb
    obtain ⟨indepSv, -, heq⟩ := functionDap2Tabular_map build hne hsha
    cases dependentShape_cases hhig hrnk with
    | inl hex =>
      obtain ⟨extra, hext⟩ := hex
      exact absurd ⟨shape, extra, hsha, hext⟩ hfits
    | inr hex =>
      obtain ⟨text, herr⟩ := hex
      refine ⟨text, ?_⟩
      rw [heq, if_neg (by simpa using hhig), herr]
      rfl

/-- Arrays whose shapes fit become their relational table, and every other argument list is rejected. In
a developer build the assertions want the table to have a row. -/
theorem functionDap2Tabular_correct (build : Build) (args : List (Arg α)) :
    (∀ arrays shape extra, arrays ≠ [] → args = arrays.map .array → Fits arrays shape extra →
      (build = .developer → higher arrays ≠ [] → 0 < (extra :: shape).prod) →
      ∃ table, functionDap2Tabular build args = .ok table ∧ IsTableOf arrays shape extra table) ∧
    ((¬ ∃ arrays shape extra, arrays ≠ [] ∧ args = arrays.map .array ∧ Fits arrays shape extra) →
      ∃ text, functionDap2Tabular build args = .error (.error text)) := by
  constructor
  · intro arrays shape extra hne hargs hfits hass
    subst hargs
    by_cases hhig : higher arrays = []
    · exact functionDap2Tabular_one_rank hne hfits hhig
    · exact functionDap2Tabular_two_ranks hne hfits hhig fun hbui => hass hbui hhig
  · intro hnone
    cases collectArrays_cases args with
    | inr hex =>
      obtain ⟨text, herr⟩ := hex
      refine ⟨text, ?_⟩
      unfold functionDap2Tabular
      rw [herr]
      rfl
    | inl hex =>
      obtain ⟨arrays, rfl⟩ := hex
      by_cases hne : arrays = []
      · subst hne
        exact ⟨_, rfl⟩
      · apply functionDap2Tabular_rejects build hne
        rintro ⟨shape, extra, hfits⟩
        exact hnone ⟨arrays, shape, extra, hne, rfl, hfits⟩

end Bes.Functions.Tabular
