import Mathlib

/-! A cache that evicts what has not been used for the longest time. -/
namespace Bes.Lib
open List

structure Use (κ ν : Type*) where
  key : κ
  value : ν
  time : Nat

structure Lru (κ ν : Type*) where
  now : Nat
  uses : List (Use κ ν)
  sorted : uses.Pairwise fun older newer => older.time < newer.time
  past : ∀ use ∈ uses, use.time ≤ now
  nodup : (uses.map Use.key).Nodup

namespace Lru

variable {κ ν : Type*}

def empty : Lru κ ν where
  now := 0
  uses := []
  sorted := .nil
  past := by simp
  nodup := .nil

def contents (lru : Lru κ ν) : List (κ × ν) := lru.uses.map fun use => (use.key, use.value)

def tick (lru : Lru κ ν) : Lru κ ν :=
  { lru with
    now := lru.now + 1
    past := fun use huse => Nat.le_succ_of_le (lru.past use huse) }

def keep (lru : Lru κ ν) (p : Use κ ν → Bool) : Lru κ ν where
  now := lru.now
  uses := lru.uses.filter p
  sorted := lru.sorted.filter p
  past := fun use huse => lru.past use (mem_of_mem_filter huse)
  nodup := lru.nodup.sublist (filter_sublist.map _)

def older (uses : List (Use κ ν)) (use : Use κ ν) : Nat :=
  uses.countP fun other => decide (other.time < use.time)

/-- The `count` uses that are the oldest are forgotten, and no others. -/
def evict (lru : Lru κ ν) (count : Nat) : Lru κ ν :=
  lru.keep fun use => decide (count ≤ older lru.uses use)

theorem filter_older {uses : List (Use κ ν)}
    (hsor : uses.Pairwise fun older newer => older.time < newer.time) (count : Nat) :
    uses.filter (fun use => decide (count ≤ older uses use)) = uses.drop count := by
  induction uses generalizing count with
  | nil => simp
  | cons first uses ih =>
    rw [pairwise_cons] at hsor
    cases count with
    | zero => simp
    | succ count =>
      -- nothing is older than the first, and the first is older than all the others
      have hfir : older (first :: uses) first = 0 := by
        unfold older
        rw [countP_eq_zero]
        intro other hoth
        cases mem_cons.mp hoth with
        | inl heq => simp [heq]
        | inr hmem => simpa using le_of_lt (hsor.1 other hmem)
      have hote : ∀ use ∈ uses, older (first :: uses) use = older uses use + 1 := by
        intro use huse
        exact countP_cons_of_pos (decide_eq_true (hsor.1 use huse))
      rw [filter_cons_of_neg (by rw [hfir]; simp), drop_succ_cons, ← ih hsor.2]
      apply filter_congr
      intro use huse
      rw [hote use huse]
      simp

theorem uses_evict (lru : Lru κ ν) (count : Nat) : (lru.evict count).uses = lru.uses.drop count :=
  filter_older lru.sorted count

theorem contents_evict (lru : Lru κ ν) (count : Nat) :
    (lru.evict count).contents = lru.contents.drop count := by
  unfold contents
  rw [uses_evict, map_drop]

variable [DecidableEq κ] {lru : Lru κ ν} {key : κ} {value : ν}

def find (lru : Lru κ ν) (key : κ) : Option ν :=
  (lru.uses.find? fun use => decide (use.key = key)).map Use.value

def remove (lru : Lru κ ν) (key : κ) : Lru κ ν := lru.keep fun use => decide (use.key ≠ key)

def touch (lru : Lru κ ν) (key : κ) (value : ν) : Lru κ ν where
  now := lru.now + 1
  uses := (lru.remove key).uses ++ [⟨key, value, lru.now + 1⟩]
  sorted := by
    rw [pairwise_append]
    refine ⟨(lru.remove key).sorted, pairwise_singleton _ _, ?_⟩
    intro older holder newer hnewer
    rw [mem_singleton.mp hnewer]
    exact Nat.lt_succ_of_le ((lru.remove key).past older holder)
  past := by
    intro use huse
    cases mem_append.mp huse with
    | inl hkept => exact Nat.le_succ_of_le ((lru.remove key).past use hkept)
    | inr hnew =>
      obtain rfl := mem_singleton.mp hnew
      exact le_refl _
  nodup := by
    rw [map_append, map_singleton, nodup_append]
    refine ⟨(lru.remove key).nodup, nodup_singleton _, ?_⟩
    intro first hfirst second hsecond
    obtain ⟨use, huse, rfl⟩ := List.mem_map.mp hfirst
    rw [mem_singleton.mp hsecond]
    exact of_decide_eq_true (mem_filter.mp huse).2

theorem contents_remove (lru : Lru κ ν) (key : κ) :
    (lru.remove key).contents = lru.contents.filter fun entry => decide (entry.1 ≠ key) := by
  unfold contents
  rw [filter_map]
  rfl

theorem contents_touch (lru : Lru κ ν) (key : κ) (value : ν) : (lru.touch key value).contents
      = (lru.contents.filter fun entry => decide (entry.1 ≠ key)) ++ [(key, value)] := by
  rw [← contents_remove]
  unfold contents touch
  rw [map_append]
  rfl

theorem find_eq_some_iff : lru.find key = some value ↔ (key, value) ∈ lru.contents := by
  obtain ⟨now, uses, hsor, hpst, hnod⟩ := lru
  unfold find contents
  dsimp only
  clear hsor hpst
  induction uses with
  | nil => simp
  | cons first uses ih =>
    rw [map_cons, nodup_cons] at hnod
    rw [find?_cons, map_cons, mem_cons]
    by_cases hkey : first.key = key
    · have hoth : (key, value) ∉ uses.map fun use => (use.key, use.value) := by
        intro hmem
        obtain ⟨use, huse, heq⟩ := mem_map.mp hmem
        apply hnod.1
        rw [hkey, ← (Prod.mk.inj heq).1]
        exact mem_map_of_mem huse
      rw [decide_eq_true hkey]
      simp only [Option.map_some, Option.some.injEq, Prod.mk.injEq, hkey, true_and, hoth,
        or_false, eq_comm]
    · rw [decide_eq_false hkey]
      simp only [Prod.mk.injEq, Ne.symm hkey, false_and, false_or]
      exact ih hnod.2

end Lru

end Bes.Lib
