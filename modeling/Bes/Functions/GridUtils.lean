import Mathlib

/-! The Grids of a dataset, as `grid_utils.cc` looks for them. -/
namespace Bes.Functions

variable {γ : Type}

/-- `libdap::BaseType`, with an object for each Grid. -/
inductive BaseType (γ : Type) where
  | grid (object : γ)
  | structure (vars : List (BaseType γ))
  | array (template : BaseType γ)
  | sequence (vars : List (BaseType γ))
  | scalar

mutual

def getGrids : BaseType γ → List γ → List γ
  | .grid object, grids => grids ++ [object]
  -- The loop starts at `var_begin()` and compares with `var_begin()`.
  | .structure vars, grids => getGridsUntil 0 vars grids
  | .array _, grids | .sequence _, grids | .scalar, grids => grids

def getGridsUntil : Nat → List (BaseType γ) → List γ → List γ
  | 0, _, grids | _ + 1, [], grids => grids
  | distance + 1, var :: vars, grids => getGridsUntil distance vars (getGrids var grids)

end

def getGridsOfDds (dds : List (BaseType γ)) (grids : List γ) : List γ :=
  getGridsUntil dds.length dds grids

mutual

def allGrids : BaseType γ → List γ
  | .grid object => [object]
  | .structure vars => allGridsIn vars
  | .array _ | .sequence _ | .scalar => []

def allGridsIn : List (BaseType γ) → List γ
  | [] => []
  | var :: vars => allGrids var ++ allGridsIn vars

end

theorem getGridsOfDds_cons (var : BaseType γ) (dds : List (BaseType γ)) (grids : List γ) :
    getGridsOfDds (var :: dds) grids = getGridsOfDds dds (getGrids var grids) := by
  simp [getGridsOfDds, getGridsUntil]

theorem length_getGridsOfDds_le (dds : List (BaseType γ)) (grids : List γ) :
    (getGridsOfDds dds grids).length ≤ grids.length + (allGridsIn dds).length := by
  induction dds generalizing grids with
  | nil => simp [getGridsOfDds, getGridsUntil]
  | cons var dds ih =>
    have hrst := ih (getGrids var grids)
    rw [getGridsOfDds_cons]
    cases var <;> simp only [getGrids, getGridsUntil, allGridsIn, allGrids, List.length_append,
      List.length_singleton, List.length_nil] at hrst ⊢ <;> omega

/-- All Grids are found exactly when no Structure at the top level has a Grid in it. -/
theorem getGridsOfDds_eq_iff (dds : List (BaseType γ)) (grids : List γ) :
    getGridsOfDds dds grids = grids ++ allGridsIn dds ↔
      ∀ vars, .structure vars ∈ dds → allGridsIn vars = [] := by
  induction dds generalizing grids with
  | nil => simp [getGridsOfDds, getGridsUntil, allGridsIn]
  | cons var dds ih =>
    rw [getGridsOfDds_cons]
    cases var with
    | grid object => simp [getGrids, allGridsIn, allGrids, ← ih (grids ++ [object])]
    | «structure» vars =>
      have hlen := length_getGridsOfDds_le dds grids
      by_cases hnone : allGridsIn vars = []
      · simp [getGrids, getGridsUntil, allGridsIn, allGrids, hnone, ih grids]
      · refine iff_of_false (fun hsame => ?_) (by simp [hnone])
        -- The Grids of this Structure are missing, and nothing makes up for them.
        have hcnt := congrArg List.length hsame
        have hsome := List.length_pos_iff.mpr hnone
        simp only [getGrids, getGridsUntil, allGridsIn, allGrids, List.length_append] at hcnt
        omega
    | array _ | sequence _ | scalar => simp [getGrids, allGridsIn, allGrids, ih grids]

theorem nestedGrid_not_found :
    getGridsOfDds [.structure [.grid 0]] [] ≠ allGridsIn [BaseType.structure [.grid 0]] := by
  simp [getGridsOfDds, getGridsUntil, getGrids, allGridsIn, allGrids]

end Bes.Functions
