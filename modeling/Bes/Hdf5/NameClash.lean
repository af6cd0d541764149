import Bes.Lib.Decimal
import Bes.Dispatch.Util

/-! `File::Handle_General_NameClashing` and `HDF5CFUtil::gen_unique_name`. -/
namespace Bes.Hdf5.NameClash
open Dispatch Lib.Decimal List

def taken (str : Str) (namelist : Finset Str) (clashIndex : Nat) : Set Nat :=
  {k | clashIndex ≤ k ∧ str ++ digits k ∈ namelist}

theorem finite_taken (str : Str) (namelist : Finset Str) (clashIndex : Nat) :
    (taken str namelist clashIndex).Finite :=
  (namelist.finite_toSet.preimage fun _ _ _ _ h => digits_inj (append_cancel_left h)).subset
    fun _ h => h.2

def genUniqueName (str : Str) (namelist : Finset Str) (clashIndex : Nat) : Str × Finset Str :=
  if str ++ digits clashIndex ∈ namelist then genUniqueName str namelist (clashIndex + 1)
  else (str ++ digits clashIndex, insert (str ++ digits clashIndex) namelist)
termination_by (taken str namelist clashIndex).ncard
decreasing_by
  next hmem =>
  refine Set.ncard_lt_ncard ⟨fun k hk => ⟨Nat.le_of_succ_le hk.1, hk.2⟩, fun hsub => ?_⟩
    (finite_taken str namelist clashIndex)
  exact absurd (hsub ⟨le_refl _, hmem⟩).1 (Nat.not_succ_le_self _)

/-- The first loop: the set, `cl_to_ol` and `clashnamelist`. -/
def insertNames (objnameset : Finset Str) (olIndex : Nat) : List Str → Finset Str × List Nat × List Str
  | [] => (objnameset, [], [])
  | name :: names =>
    let (after, clToOl, clashes) := insertNames (insert name objnameset) (olIndex + 1) names
    if name ∈ objnameset then (after, olIndex :: clToOl, name :: clashes) else (after, clToOl, clashes)

def uniqueNames (objnameset : Finset Str) : List Str → Finset Str × List Str
  | [] => (objnameset, [])
  | name :: clashes =>
    let (unique, withUnique) := genUniqueName (name ++ ['_']) objnameset 1
    let (after, uniques) := uniqueNames withUnique clashes
    (after, unique :: uniques)

def handleGeneralNameClashing (objnameset : Finset Str) (objvec : List Str) :
    List Str × Finset Str :=
  let (inserted, clToOl, clashes) := insertNames objnameset 0 objvec
  let (after, uniques) := uniqueNames inserted clashes
  ((clToOl.zip uniques).foldl (fun names p => names.set p.1 p.2) objvec, after)

/-- The new names of objects, where those of `objnameset` are used already. -/
structure Resolves (objnameset : Finset Str) (names newNames : List Str) : Prop where
  distinct : newNames.Nodup
  unused : ∀ name ∈ newNames, name ∉ objnameset
  kept : ∀ i name, names[i]? = some name → name ∉ objnameset → name ∉ names.take i →
    newNames[i]? = some name
  renamed : Forall₂ (fun name new => new = name ∨ name ++ ['_'] <+: new) names newNames

theorem genUniqueName_spec (str : Str) (namelist : Finset Str) (clashIndex : Nat) :
    ∃ unique, genUniqueName str namelist clashIndex = (unique, insert unique namelist) ∧
      unique ∉ namelist ∧ str <+: unique := by
  fun_induction genUniqueName str namelist clashIndex with
  | case1 clashIndex hmem ih => exact ih
  | case2 clashIndex hmem => exact ⟨_, rfl, hmem, prefix_append ..⟩

theorem uniqueNames_spec (clashes : List Str) : ∀ objnameset,
    ∃ uniques, uniqueNames objnameset clashes = (objnameset ∪ uniques.toFinset, uniques) ∧
      uniques.Nodup ∧ (∀ unique ∈ uniques, unique ∉ objnameset) ∧
      Forall₂ (fun name unique => name ++ ['_'] <+: unique) clashes uniques := by
  induction clashes with
  | nil => exact fun objnameset => ⟨[], by simp [uniqueNames]⟩
  | cons name clashes ih =>
    intro objnameset
    obtain ⟨unique, hgen, hnew, hpre⟩ := genUniqueName_spec (name ++ ['_']) objnameset 1
    obtain ⟨uniques, heq, hnod, hnot, hall⟩ := ih (insert unique objnameset)
    refine ⟨unique :: uniques, ?_, ?_, ?_, .cons hpre hall⟩
    · simp [uniqueNames, hgen, heq]
    · grind
    · grind

def merge (objnameset : Finset Str) : List Str → List Str → List Str
  | name :: names, uniques =>
    if name ∈ objnameset then
      uniques.headD name :: merge (insert name objnameset) names uniques.tail
    else name :: merge (insert name objnameset) names uniques
  | [], _ => []

theorem foldl_set_eq_merge (names : List Str) : ∀ objnameset front uniques,
    (insertNames objnameset front.length names).2.2.length = uniques.length →
    ((insertNames objnameset front.length names).2.1.zip uniques).foldl
        (fun names p => names.set p.1 p.2) (front ++ names) =
      front ++ merge objnameset names uniques := by
  induction names with
  | nil => simp [insertNames, merge]
  | cons name names ih =>
    intro objnameset front uniques hlen
    have hrst := fun new => ih (insert name objnameset) (front ++ [new])
    simp only [length_append, length_singleton, append_assoc, singleton_append] at hrst
    by_cases hmem : name ∈ objnameset
    · simp only [insertNames, merge, hmem, if_true] at hlen ⊢
      cases uniques with
      | nil => simp at hlen
      | cons unique uniques => simpa using hrst unique uniques (by simpa using hlen)
    · simp only [insertNames, merge, hmem, if_false] at hlen ⊢
      exact hrst name uniques hlen

theorem insertNames_set (names : List Str) : ∀ objnameset olIndex,
    (insertNames objnameset olIndex names).1 = objnameset ∪ names.toFinset := by
  induction names with
  | nil => simp [insertNames]
  | cons name names ih =>
    intro objnameset olIndex
    rw [insertNames, apply_ite Prod.fst, ite_self, ih]
    simp

theorem mem_merge (names : List Str) : ∀ objnameset olIndex uniques,
    (insertNames objnameset olIndex names).2.2.length = uniques.length → ∀ name,
    (name ∈ merge objnameset names uniques → name ∈ names ∨ name ∈ uniques) ∧
      (name ∈ uniques → name ∈ merge objnameset names uniques) := by
  induction names with
  | nil =>
    intro objnameset olIndex uniques hlen
    obtain rfl := length_eq_zero_iff.mp hlen.symm
    simp [merge]
  | cons first names ih =>
    intro objnameset olIndex uniques hlen
    by_cases hmem : first ∈ objnameset
    · simp only [insertNames, merge, hmem, if_true] at hlen ⊢
      cases uniques with
      | nil => simp at hlen
      | cons unique uniques =>
        have := ih (insert first objnameset) (olIndex + 1) uniques (by simpa using hlen)
        grind
    · simp only [insertNames, merge, hmem, if_false] at hlen ⊢
      have := ih (insert first objnameset) (olIndex + 1) uniques hlen
      grind

theorem merge_resolves (names : List Str) : ∀ objnameset olIndex uniques,
    Forall₂ (fun name unique => name ++ ['_'] <+: unique) (insertNames objnameset olIndex names).2.2
      uniques → uniques.Nodup → (∀ unique ∈ uniques, unique ∉ objnameset ∧ unique ∉ names) →
    Resolves objnameset names (merge objnameset names uniques) := by
  induction names with
  | nil => exact fun _ _ _ _ _ _ => ⟨by simp [merge], by simp [merge], by simp, .nil⟩
  | cons name names ih =>
    intro objnameset olIndex uniques hall hnod hnew
    by_cases hmem : name ∈ objnameset
    · simp only [insertNames, merge, hmem, if_true] at hall ⊢
      obtain ⟨unique, uniques, hpre, hmor, rfl⟩ := forall₂_cons_left_iff.mp hall
      have hrst := ih (insert name objnameset) (olIndex + 1) uniques hmor (nodup_cons.mp hnod).2
        (by grind)
      have hin := mem_merge names _ _ uniques hmor.length_eq
      refine ⟨?_, ?_, ?_, .cons (.inr hpre) hrst.renamed⟩
      · have := hrst.distinct
        grind
      · have := hrst.unused
        grind
      · have := hrst.kept
        intro i
        cases i <;> grind
    · simp only [insertNames, merge, hmem, if_false] at hall ⊢
      have hrst := ih (insert name objnameset) (olIndex + 1) uniques hall hnod (by grind)
      refine ⟨?_, ?_, ?_, .cons (.inl rfl) hrst.renamed⟩
      · have := hrst.distinct
        have := hrst.unused
        grind
      · have := hrst.unused
        grind
      · have := hrst.kept
        intro i
        cases i <;> grind

/-- The names are made unique: those that do not clash are kept, the others are extended. -/
theorem handleGeneralNameClashing_resolves (objnameset : Finset Str) (objvec : List Str) :
    Resolves objnameset objvec (handleGeneralNameClashing objnameset objvec).1 ∧
      (handleGeneralNameClashing objnameset objvec).2 = objnameset ∪ objvec.toFinset ∪
        (handleGeneralNameClashing objnameset objvec).1.toFinset := by
  obtain ⟨uniques, huni, hnod, hnew, hall⟩ :=
    uniqueNames_spec (insertNames objnameset 0 objvec).2.2 (insertNames objnameset 0 objvec).1
  have hset := insertNames_set objvec objnameset 0
  have hmerge : (handleGeneralNameClashing objnameset objvec) =
      (merge objnameset objvec uniques, objnameset ∪ objvec.toFinset ∪ uniques.toFinset) := by
    refine Prod.ext ?_ ((congrArg Prod.fst huni).trans (congrArg (· ∪ _) hset))
    refine Eq.trans ?_ (foldl_set_eq_merge objvec objnameset [] uniques hall.length_eq)
    exact congrArg (fun u : Finset Str × List Str => foldl _ _ (zip _ u.2)) huni
  rw [hmerge]
  refine ⟨merge_resolves objvec objnameset 0 uniques hall hnod (by simpa [hset] using hnew), ?_⟩
  have hin := mem_merge objvec objnameset 0 uniques hall.length_eq
  ext name
  have := hin name
  simp only [Finset.mem_union, mem_toFinset]
  tauto

end Bes.Hdf5.NameClash
