import Bes.Lib.Buffer

/-! A sequence of single copies, each with its place in the destination and its place in the source. -/
namespace Bes.Lib.CopyTrace
open Lib.Buffer List

variable {α : Type*}

def copyOne (src dest : List α) (copy : Nat × Nat) : Option (List α) :=
  match src[copy.2]? with
  | none => none
  | some x => if copy.1 < dest.length then some (dest.set copy.1 x) else none

def copyAll (src : List α) (copies : List (Nat × Nat)) (dest : List α) : Option (List α) :=
  copies.foldlM (copyOne src) dest

theorem copyOne_eq (hsrc : copy.2 < src.length)
    (hdst : copy.1 < dest.length) : copyOne src dest copy = some (dest.set copy.1 src[copy.2]) := by
  unfold copyOne
  rw [getElem?_eq_getElem hsrc]
  exact if_pos hdst

theorem copyAll_writes {src dest : List α} {origin : Nat → Nat} {copies : List (Nat × Nat)}
    (hcop : ∀ copy ∈ copies, copy.2 = origin copy.1 ∧ copy.2 < src.length ∧ copy.1 < dest.length) :
    ∃ result, copyAll src copies dest = some result ∧ result.length = dest.length ∧
      ∀ p, result[p]? = if p ∈ copies.map Prod.fst then src[origin p]? else dest[p]? := by
  induction copies generalizing dest with
  | nil => exact ⟨dest, rfl, rfl, by simp⟩
  | cons copy copies ih =>
    obtain ⟨⟨horg, hsrc, hdst⟩, hrst⟩ := forall_mem_cons.mp hcop
    obtain ⟨result, hrun, hlen, hres⟩ := @ih (dest.set copy.1 src[copy.2]) (by
      intro other hoth
      rw [length_set]
      exact hrst other hoth)
    refine ⟨result, ?_, ?_, ?_⟩
    · unfold copyAll
      rw [foldlM_cons, copyOne_eq hsrc hdst]
      exact hrun
    · rw [hlen, length_set]
    · intro p
      rw [hres p, map_cons]
      by_cases hp : p ∈ copies.map Prod.fst
      · rw [if_pos hp, if_pos (mem_cons_of_mem _ hp)]
      · rw [if_neg hp]
        by_cases hfst : p = copy.1
        · rw [if_pos (hfst ▸ mem_cons_self), hfst, getElem?_set_self hdst, ← horg,
            getElem?_eq_getElem hsrc]
        · rw [if_neg, getElem?_set_ne (Ne.symm hfst)]
          rw [mem_cons, not_or]
          exact ⟨hfst, hp⟩

theorem copyAll_eq {src dest : List α} {origin : Nat → Nat} {copies : List (Nat × Nat)}
    (hcop : ∀ copy ∈ copies, copy.2 = origin copy.1 ∧ copy.2 < src.length)
    (hprm : (copies.map Prod.fst).Perm (range dest.length)) {result : List α}
    (hlen : result.length = dest.length) (hres : ∀ p < dest.length, result[p]? = src[origin p]?) :
    copyAll src copies dest = some result := by
  have hall : ∀ copy ∈ copies, copy.2 = origin copy.1 ∧ copy.2 < src.length ∧ copy.1 < dest.length := by
    intro copy hcpy
    have hmem := hprm.mem_iff.mp (mem_map_of_mem hcpy)
    exact ⟨(hcop copy hcpy).1, (hcop copy hcpy).2, mem_range.mp hmem⟩
  obtain ⟨written, hrun, hsam, hwri⟩ := copyAll_writes hall
  rw [hrun]
  apply congrArg some
  apply ext_getElem?
  intro p
  by_cases hp : p < dest.length
  · rw [hwri p, if_pos (hprm.mem_iff.mpr (mem_range.mpr hp)), hres p hp]
  · rw [getElem?_eq_none (by omega), getElem?_eq_none (by omega)]

theorem copyAll_append (src : List α) (first second : List (Nat × Nat)) (dest : List α) :
    copyAll src (first ++ second) dest = (copyAll src first dest).bind (copyAll src second) :=
  foldlM_append ..

theorem length_copyAll (hrun : copyAll src copies dest = some result) : result.length = dest.length := by
  induction copies generalizing dest with
  | nil => exact congrArg length (Option.some.inj hrun).symm
  | cons copy copies ih =>
    obtain ⟨next, hnxt, hrst⟩ := Option.bind_eq_some_iff.mp hrun
    rw [ih hrst]
    unfold copyOne at hnxt
    split at hnxt
    · cases hnxt
    · split at hnxt
      · cases hnxt
        exact length_set
      · cases hnxt

theorem memcpy_eq_copyAll {dest : List α} {i j count : Nat} (hdst : i + count ≤ dest.length)
    (hsrc : j + count ≤ src.length) :
    memcpy dest i src j count = copyAll src ((range count).map fun k => (i + k, j + k)) dest := by
  have hcop : ∀ copy ∈ (range count).map fun k => (i + k, j + k),
      copy.2 = j + (copy.1 - i) ∧ copy.2 < src.length ∧ copy.1 < dest.length := by
    intro copy hcpy
    obtain ⟨k, hk, rfl⟩ := mem_map.mp hcpy
    have := mem_range.mp hk
    omega
  obtain ⟨result, hrun, -, hres⟩ := @copyAll_writes α src dest (fun p => j + (p - i)) _ hcop
  obtain ⟨after, hcpy, hfil⟩ := memcpy_fills (fun p => src[j + (p - i)]?) dest src i j count hdst
    hsrc (by simp)
  have hmem : ∀ p, p ∈ ((range count).map fun k => (i + k, j + k)).map Prod.fst ↔
      i ≤ p ∧ p < i + count := by
    intro p
    simp only [map_map, mem_map, mem_range, Function.comp_apply]
    constructor
    · omega
    · intro hp
      exact ⟨p - i, by omega, by omega⟩
  rw [hcpy, hrun]
  apply congrArg some
  apply ext_getElem?
  intro p
  rw [hres p]
  split
  · exact hfil.inside p ((hmem p).mp ‹_›)
  · exact hfil.outside p (fun hp => absurd ((hmem p).mpr hp) ‹_›)

theorem memcpy_one (src dest : List α) (i j : Nat) :
    memcpy dest i src j 1 = copyAll src [(i, j)] dest := by
  by_cases hins : i < dest.length ∧ j < src.length
  · exact memcpy_eq_copyAll hins.1 hins.2
  · have hnon : memcpy dest i src j 1 = none := by
      unfold memcpy
      rw [if_neg]
      rintro ⟨-, hdst, hsrc⟩
      exact hins ⟨hdst, hsrc⟩
    rw [hnon, copyAll, foldlM_cons, copyOne]
    cases hsrc : src[j]? with
    | none => rfl
    | some x =>
      have hj := (List.getElem?_eq_some_iff.mp hsrc).1
      dsimp only
      rw [if_neg fun hi => hins ⟨hi, hj⟩]
      rfl

end Bes.Lib.CopyTrace
