import Mathlib

/-! `std::map`: entries in the order of their keys, one for each key. -/
namespace Bes.Lib
open List

variable {κ ν : Type*} [LinearOrder κ]

structure OrderedMap (κ ν : Type*) [LinearOrder κ] where
  entries : List (κ × ν)
  sorted : entries.Pairwise fun first second => first.1 < second.1

namespace OrderedMap

@[ext] theorem ext {right : OrderedMap κ ν} (hent : left.entries = right.entries) :
    left = right := by
  cases left with
  | mk left hlft =>
    cases right with
    | mk right hright =>
      cases hent
      rfl

instance [DecidableEq ν] : DecidableEq (OrderedMap κ ν) := fun _ _ =>
  decidable_of_iff _ OrderedMap.ext_iff.symm

def empty : OrderedMap κ ν where
  entries := []
  sorted := .nil

def find (map : OrderedMap κ ν) (key : κ) : Option ν :=
  (map.entries.find? fun entry => decide (entry.1 = key)).map Prod.snd

def size (map : OrderedMap κ ν) : Nat := map.entries.length

def putEntry (key : κ) (value : ν) : List (κ × ν) → List (κ × ν)
  | [] => [(key, value)]
  | entry :: entries =>
    if key < entry.1 then (key, value) :: entry :: entries
    else if key = entry.1 then (key, value) :: entries
    else entry :: putEntry key value entries

variable {map : OrderedMap κ ν} {key other : κ} {value : ν} {entries : List (κ × ν)}

theorem mem_putEntry (hsor : entries.Pairwise fun first second => first.1 < second.1) (entry : κ × ν) :
    entry ∈ putEntry key value entries ↔ entry = (key, value) ∨ entry ∈ entries ∧ entry.1 ≠ key := by
  induction entries with
  | nil => simp [putEntry]
  | cons first entries ih =>
    rw [pairwise_cons] at hsor
    rw [putEntry]
    split
    next hlt =>
      -- the keys that follow are greater still
      have hne : ∀ other ∈ first :: entries, other.1 ≠ key := by
        intro other hoth
        cases mem_cons.mp hoth with
        | inl heq => rw [heq]; exact hlt.ne'
        | inr hmem => exact (hlt.trans (hsor.1 other hmem)).ne'
      rw [mem_cons]
      exact or_congr_right ⟨fun hmem => ⟨hmem, hne entry hmem⟩, And.left⟩
    · split
      next heq =>
        subst heq
        rw [mem_cons, mem_cons]
        apply or_congr_right
        constructor
        · exact fun hmem => ⟨.inr hmem, (hsor.1 entry hmem).ne'⟩
        · rintro ⟨hfst | hmem, hne⟩
          · exact absurd (congrArg Prod.fst hfst) hne
          · exact hmem
      next hne =>
        rw [mem_cons, mem_cons, ih hsor.2]
        constructor
        · rintro (hfst | hput | ⟨hmem, hkey⟩)
          · exact .inr ⟨.inl hfst, by rw [hfst]; exact fun heq => hne heq.symm⟩
          · exact .inl hput
          · exact .inr ⟨.inr hmem, hkey⟩
        · rintro (hput | ⟨hfst | hmem, hkey⟩)
          · exact .inr (.inl hput)
          · exact .inl hfst
          · exact .inr (.inr ⟨hmem, hkey⟩)

theorem sorted_putEntry (hsor : entries.Pairwise fun first second => first.1 < second.1) :
    (putEntry key value entries).Pairwise fun first second => first.1 < second.1 := by
  induction entries with
  | nil => exact pairwise_singleton _ _
  | cons first entries ih =>
    have hcns := pairwise_cons.mp hsor
    rw [putEntry]
    split
    next hlt =>
      refine pairwise_cons.mpr ⟨?_, hsor⟩
      intro other hoth
      cases mem_cons.mp hoth with
      | inl heq => rw [heq]; exact hlt
      | inr hmem => exact hlt.trans (hcns.1 other hmem)
    · split
      next heq =>
        refine pairwise_cons.mpr ⟨?_, hcns.2⟩
        rw [heq]
        exact hcns.1
      next hnlt hne =>
        refine pairwise_cons.mpr ⟨?_, ih hcns.2⟩
        intro other hoth
        cases (mem_putEntry hcns.2 other).mp hoth with
        | inl hput => rw [hput]; exact lt_of_le_of_ne (not_lt.mp hnlt) (Ne.symm hne)
        | inr hmem => exact hcns.1 other hmem.1

/-- `map[key] = value`. -/
def put (map : OrderedMap κ ν) (key : κ) (value : ν) : OrderedMap κ ν where
  entries := putEntry key value map.entries
  sorted := sorted_putEntry map.sorted

def insert (map : OrderedMap κ ν) (key : κ) (value : ν) : OrderedMap κ ν :=
  if (map.find key).isSome then map else map.put key value

def erase (map : OrderedMap κ ν) (key : κ) : OrderedMap κ ν where
  entries := map.entries.filter fun entry => decide (entry.1 ≠ key)
  sorted := map.sorted.filter _

theorem mem_put (entry : κ × ν) : entry ∈ (map.put key value).entries
    ↔ entry = (key, value) ∨ entry ∈ map.entries ∧ entry.1 ≠ key :=
  mem_putEntry map.sorted entry

theorem mem_erase (entry : κ × ν) :
    entry ∈ (map.erase key).entries ↔ entry ∈ map.entries ∧ entry.1 ≠ key := by
  simp [erase]

theorem entries_erase_of_cons (hent : map.entries = entry :: entries) :
    (map.erase entry.1).entries = entries := by
  have hsor := map.sorted
  rw [hent, pairwise_cons] at hsor
  unfold erase
  dsimp only
  rw [hent, filter_cons_of_neg (by simp), filter_eq_self]
  intro other hoth
  exact decide_eq_true (hsor.1 other hoth).ne'

theorem find_eq_some_iff : map.find key = some value ↔ (key, value) ∈ map.entries := by
  obtain ⟨entries, hsor⟩ := map
  unfold find
  induction entries with
  | nil => simp
  | cons first entries ih =>
    rw [pairwise_cons] at hsor
    rw [find?_cons, mem_cons]
    by_cases hkey : first.1 = key
    · have hoth : (key, value) ∉ entries := by
        intro hmem
        exact (hsor.1 _ hmem).ne hkey
      rw [decide_eq_true hkey]
      simp only [Option.map_some, Option.some.injEq, hoth, or_false]
      constructor
      · intro hval
        rw [← hkey, ← hval]
      · intro hfst
        rw [← hfst]
    · have hfst : (key, value) ≠ first := fun heq => hkey (congrArg Prod.fst heq).symm
      rw [decide_eq_false hkey]
      simp only [hfst, false_or]
      exact ih hsor.2

theorem find_eq_none_iff : map.find key = none ↔ ∀ entry ∈ map.entries, entry.1 ≠ key := by
  simp [find]

@[simp] theorem find_put_self (map : OrderedMap κ ν) (key : κ) (value : ν) :
    (map.put key value).find key = some value :=
  find_eq_some_iff.mpr ((mem_put _).mpr (.inl rfl))

theorem find_put_of_ne (hne : other ≠ key) : (map.put key value).find other = map.find other := by
  apply Option.ext
  intro found
  rw [find_eq_some_iff, find_eq_some_iff, mem_put]
  constructor
  · rintro (heq | hmem)
    · exact absurd (congrArg Prod.fst heq) hne
    · exact hmem.1
  · exact fun hmem => .inr ⟨hmem, hne⟩

@[simp] theorem find_erase_self (map : OrderedMap κ ν) (key : κ) :
    (map.erase key).find key = none := by
  rw [find_eq_none_iff]
  exact fun entry henr => ((mem_erase entry).mp henr).2

theorem find_erase_of_ne (hne : other ≠ key) : (map.erase key).find other = map.find other := by
  apply Option.ext
  intro found
  rw [find_eq_some_iff, find_eq_some_iff, mem_erase]
  exact ⟨And.left, fun hmem => ⟨hmem, hne⟩⟩

theorem insert_of_find_none (hfnd : map.find key = none) : map.insert key value = map.put key value := by
  unfold insert
  rw [hfnd]
  rfl

theorem entries_put_of_forall_lt (hlt : ∀ entry ∈ map.entries, entry.1 < key) :
    (map.put key value).entries = map.entries ++ [(key, value)] := by
  obtain ⟨entries, hsor⟩ := map
  unfold put
  dsimp only at hlt ⊢
  clear hsor
  induction entries with
  | nil => rfl
  | cons first entries ih =>
    have hfst := hlt first mem_cons_self
    rw [putEntry, if_neg hfst.not_gt, if_neg hfst.ne', ih fun entry henr =>
      hlt entry (mem_cons_of_mem _ henr)]
    rfl

theorem foldl_put_entries (map : OrderedMap κ ν) :
    map.entries.foldl (fun built entry => built.put entry.1 entry.2) empty = map := by
  have hbui : ∀ (first second : List (κ × ν)) (built : OrderedMap κ ν), built.entries = first →
      (first ++ second).Pairwise (fun first second => first.1 < second.1) →
      (second.foldl (fun built entry => built.put entry.1 entry.2) built).entries
        = first ++ second := by
    intro first second
    induction second generalizing first with
    | nil =>
      intro built hfst _
      rw [append_nil]
      exact hfst
    | cons entry second ih =>
      intro built hfst hsor
      have hlt : ∀ other ∈ built.entries, other.1 < entry.1 := by
        intro other hoth
        rw [hfst] at hoth
        exact (pairwise_append.mp hsor).2.2 other hoth entry mem_cons_self
      have hput : (built.put entry.1 entry.2).entries = first ++ [entry] := by
        rw [entries_put_of_forall_lt hlt, hfst]
      rw [append_cons] at hsor ⊢
      exact ih (first ++ [entry]) _ hput hsor
  exact ext (hbui [] map.entries empty rfl map.sorted)

end OrderedMap

end Bes.Lib
