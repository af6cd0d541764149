import Bes.Dispatch.Util
import Bes.Lib.FirstWins

/-! Union aggregations of the NcML module. The global attributes and the variables of each dataset
are added to those of the output, unless their names are there. -/
namespace Bes.Ncml.Union
open Dispatch Lib.FirstWins List

variable {ν : Type}

/-- An entry of a `libdap::AttrTable`. -/
inductive Attribute where
  | simple (name type : Str) (values : List Str)
  | container (name : Str) (table : List Attribute)

def Attribute.name : Attribute → Str
  | .simple name _ _ | .container name _ => name

structure Variable (ν : Type) where
  name : Str
  content : ν

structure Dds (ν : Type) where
  attributes : List Attribute
  vars : List (Variable ν)

/-- `AttrTable::simple_find` looks at the entries of the table itself. -/
def findAttribute (table : List Attribute) (name : Str) : Option Attribute :=
  table.find? fun attr => attr.name = name

def appendContainer (out table : List Attribute) (name : Str) : List Attribute :=
  out ++ [.container name table]

def appendAttr (out : List Attribute) (name type : Str) (values : List Str) : List Attribute :=
  out ++ [.simple name type values]

def unionAttr (out : List Attribute) (attr : Attribute) : List Attribute :=
  match findAttribute out attr.name, attr with
  | some _, _ => out
  | none, .container name table => appendContainer out table name
  | none, .simple name type values => appendAttr out name type values

def unionAttrsInto (out fromTable : List Attribute) : List Attribute :=
  fromTable.foldl unionAttr out

def findVariableAtDDSTopLevel (vars : List (Variable ν)) (name : Str) : Option (Variable ν) :=
  vars.find? fun var => var.name = name

/-- With `add_at_top` at its default. -/
def addCopyOfVariableIfNameIsAvailable (out : List (Variable ν)) (var : Variable ν) :
    List (Variable ν) :=
  if (findVariableAtDDSTopLevel out var.name).isNone then out ++ [var] else out

def unionAllVariablesInto (out vars : List (Variable ν)) : List (Variable ν) :=
  vars.foldl addCopyOfVariableIfNameIsAvailable out

def unionDataset (out dataset : Dds ν) : Dds ν where
  attributes := unionAttrsInto out.attributes dataset.attributes
  vars := unionAllVariablesInto out.vars dataset.vars

def performUnionAggregation (out : Dds ν) (datasetsInOrder : List (Dds ν)) : Dds ν :=
  datasetsInOrder.foldl unionDataset out

theorem unionAttr_eq (out : List Attribute) (attr : Attribute) :
    unionAttr out attr = addAbsent Attribute.name out attr := by
  by_cases hnam : attr.name ∈ out.map Attribute.name
  · have hfou : (findAttribute out attr.name).isSome := by simpa [findAttribute] using hnam
    obtain ⟨found, hfou⟩ := Option.isSome_iff_exists.mp hfou
    simp [unionAttr, addAbsent, hfou, hnam]
  · have hnon : findAttribute out attr.name = none := by simpa [findAttribute] using hnam
    cases attr <;> simp_all [unionAttr, addAbsent, appendContainer, appendAttr]

theorem addCopyOfVariableIfNameIsAvailable_eq (out : List (Variable ν)) (var : Variable ν) :
    addCopyOfVariableIfNameIsAvailable out var = addAbsent Variable.name out var := by
  by_cases hnam : var.name ∈ out.map Variable.name <;>
    simp_all [addCopyOfVariableIfNameIsAvailable, findVariableAtDDSTopLevel, addAbsent]

theorem performUnionAggregation_eq (out : Dds ν) (datasets : List (Dds ν)) :
    performUnionAggregation out datasets =
      { attributes := (datasets.flatMap Dds.attributes).foldl (addAbsent Attribute.name)
          out.attributes
        vars := (datasets.flatMap Dds.vars).foldl (addAbsent Variable.name) out.vars } := by
  induction datasets generalizing out with
  | nil => rfl
  | cons dataset datasets ih =>
    rw [performUnionAggregation, foldl_cons, ← performUnionAggregation, ih, flatMap_cons,
      flatMap_cons, foldl_append, foldl_append, unionDataset, unionAttrsInto,
      unionAllVariablesInto, funext₂ unionAttr_eq, funext₂ addCopyOfVariableIfNameIsAvailable_eq]

theorem performUnionAggregation_append (out : Dds ν) (before after : List (Dds ν)) :
    performUnionAggregation out (before ++ after) =
      performUnionAggregation (performUnionAggregation out before) after :=
  foldl_append

theorem performUnionAggregation_again (out : Dds ν) (hsub : again ⊆ before) :
    performUnionAggregation (performUnionAggregation out before) again =
      performUnionAggregation out before := by
  simp only [performUnionAggregation_eq, foldl_addAbsent_again _ _ hsub]

/-- The output keeps what it has, and of the rest the first of each name is added. A second union,
or a dataset that comes again later in the list, changes nothing. -/
theorem performUnionAggregation_firstWins (out : Dds ν) (datasets : List (Dds ν)) :
    (performUnionAggregation out datasets).vars =
        out.vars ++ firsts Variable.name out.vars (datasets.flatMap Dds.vars) ∧
      (performUnionAggregation out datasets).attributes =
        out.attributes ++ firsts Attribute.name out.attributes (datasets.flatMap Dds.attributes) ∧
      performUnionAggregation (performUnionAggregation out datasets) datasets =
        performUnionAggregation out datasets ∧ ∀ before repeated between after : List (Dds ν),
        performUnionAggregation out (before ++ repeated ++ between ++ repeated ++ after) =
          performUnionAggregation out (before ++ repeated ++ between ++ after) := by
  refine ⟨?_, ?_, performUnionAggregation_again out (Subset.refl _), ?_⟩
  · simp only [performUnionAggregation_eq, foldl_addAbsent]
  · simp only [performUnionAggregation_eq, foldl_addAbsent]
  · intro before repeated between after
    have hsub : repeated ⊆ before ++ repeated ++ between := fun _ hmem =>
      mem_append_left between (mem_append_right before hmem)
    rw [performUnionAggregation_append _ _ after, performUnionAggregation_append _ _ repeated,
      performUnionAggregation_again out hsub, ← performUnionAggregation_append]

end Bes.Ncml.Union
