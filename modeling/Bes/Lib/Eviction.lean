import Mathlib

/-! Removing entries of a list from the front until what is left is small enough. -/
namespace Bes.Lib.Eviction
open List

variable {α : Type*} (size : α → Nat) (spared : α → Prop) [DecidablePred spared]

def evict (target : Nat) : List α → Nat → List α
  | [], _ => []
  | entry :: rest, total =>
      if total ≤ target then []
      else if spared entry then evict target rest total
      else entry :: evict target rest (total - size entry)

structure Minimal (candidates : List α) (target total : Nat) (removed : List α) : Prop where
  front : removed <+: candidates
  needed : ∀ n < removed.length, target < total - ((removed.take n).map size).sum
  enough : total - (removed.map size).sum ≤ target ∨ removed = candidates

theorem evict_minimal (target : Nat) (entries : List α) (total : Nat) :
    Minimal size (entries.filter fun entry => ¬ spared entry) target total
      (evict size spared target entries total) := by
  have hnon : ∀ candidates : List α, [] <+: candidates := fun _ => nil_prefix
  induction entries generalizing total with
  | nil => exact ⟨hnon _, by simp [evict], .inr rfl⟩
  | cons entry rest ih =>
    unfold evict
    by_cases hsma : total ≤ target
    · rw [if_pos hsma]
      exact ⟨hnon _, by simp, .inl (by simpa using hsma)⟩
    · rw [if_neg hsma]
      by_cases hspa : spared entry
      · rw [if_pos hspa, filter_cons_of_neg (by simpa using hspa)]
        exact ih total
      · rw [if_neg hspa, filter_cons_of_pos (by simpa using hspa)]
        have hrst := ih (total - size entry)
        refine ⟨cons_prefix_cons.mpr ⟨rfl, hrst.front⟩, ?_, ?_⟩
        · intro n hn
          cases n with
          | zero => simpa using hsma
          | succ n =>
            rw [take_succ_cons, map_cons, sum_cons, ← Nat.sub_sub]
            exact hrst.needed n (Nat.lt_of_succ_lt_succ hn)
        · rw [map_cons, sum_cons, ← Nat.sub_sub]
          cases hrst.enough with
          | inl hsma => exact .inl hsma
          | inr hall => exact .inr (congrArg (entry :: ·) hall)

section

variable (kept : α → Prop) [DecidablePred kept]

/-- Some entry is to be kept, is not spared, and is reached while the total is above the target. -/
def Reached (target : Nat) (entries : List α) (total : Nat) : Prop :=
  ∃ i, ∃ hi : i < entries.length, kept entries[i] ∧ ¬ spared entries[i] ∧
    target < total - (((entries.take i).filter fun entry => ¬ kept entry).map size).sum

variable {size spared kept}

omit [DecidablePred spared] in
theorem reached_cons (hhead : kept entry → spared entry) : Reached size spared kept target (entry :: rest) total ↔
      Reached size spared kept target rest (total - if kept entry then 0 else size entry) := by
  have hsum : ∀ i, total - ((((entry :: rest).take (i + 1)).filter fun entry => ¬ kept entry).map size).sum =
      total - (if kept entry then 0 else size entry) -
        (((rest.take i).filter fun entry => ¬ kept entry).map size).sum := by
    intro i
    by_cases hkept : kept entry <;> simp [hkept, Nat.sub_sub]
  constructor
  · rintro ⟨i, hi, hkept, hspared, htotal⟩
    cases i with
    | zero => exact absurd (hhead hkept) hspared
    | succ i => exact ⟨i, Nat.lt_of_succ_lt_succ hi, hkept, hspared, by rwa [hsum] at htotal⟩
  · rintro ⟨i, hi, hkept, hspared, htotal⟩
    exact ⟨i + 1, Nat.succ_lt_succ hi, hkept, hspared, by rwa [hsum]⟩

/-- A loop that spares too little removes what it should keep exactly where it reaches such an entry, and does
what it should otherwise. -/
theorem evict_of_reached (hspared : ∀ entry, spared entry → kept entry)
    (hreached : Reached size spared kept target entries total) :
    ∃ entry ∈ evict size spared target entries total, kept entry := by
  induction entries generalizing total with
  | nil =>
    obtain ⟨i, hi, -⟩ := hreached
    cases hi
  | cons entry rest ih =>
    have habove : ¬ total ≤ target := by
      obtain ⟨i, -, -, -, htotal⟩ := hreached
      omega
    unfold evict
    rw [if_neg habove]
    by_cases hhead : kept entry → spared entry
    · rw [reached_cons hhead] at hreached
      by_cases hkept : kept entry
      · rw [if_pos hkept] at hreached
        rw [if_pos (hhead hkept)]
        exact ih hreached
      · rw [if_neg hkept] at hreached
        rw [if_neg (mt (hspared entry) hkept)]
        obtain ⟨other, hother, hin⟩ := ih hreached
        exact ⟨other, mem_cons_of_mem entry hother, hin⟩
    · rw [Classical.not_imp] at hhead
      rw [if_neg hhead.2]
      exact ⟨entry, mem_cons_self, hhead.1⟩

theorem evict_eq_of_not_reached (hspared : ∀ entry, spared entry → kept entry)
    (hreached : ¬ Reached size spared kept target entries total) :
    evict size spared target entries total = evict size kept target entries total := by
  induction entries generalizing total with
  | nil => rfl
  | cons entry rest ih =>
    unfold evict
    by_cases hsmall : total ≤ target
    · rw [if_pos hsmall, if_pos hsmall]
    · rw [if_neg hsmall, if_neg hsmall]
      have hhead : kept entry → spared entry := by
        intro hkept
        by_contra hnot
        exact hreached ⟨0, Nat.succ_pos _, hkept, hnot, by simpa using hsmall⟩
      rw [reached_cons hhead] at hreached
      have hrest := ih hreached
      by_cases hkept : kept entry
      · rw [if_pos hkept] at hrest
        rw [if_pos hkept, if_pos (hhead hkept)]
        exact hrest
      · rw [if_neg hkept] at hrest
        rw [if_neg hkept, if_neg (mt (hspared entry) hkept), hrest]

end

omit [DecidablePred spared] in
theorem sum_left_add_removed [DecidableEq α] {removed : List α} (hnod : entries.Nodup)
    (hrem : removed.Sublist entries) :
    ((entries.filter fun entry => entry ∉ removed).map size).sum + (removed.map size).sum =
      (entries.map size).sum := by
  have hkpt : (entries.filter fun entry => entry ∈ removed).Perm removed := by
    rw [perm_ext_iff_of_nodup (hnod.filter _) (hrem.nodup hnod)]
    intro entry
    rw [mem_filter, decide_eq_true_eq]
    exact ⟨And.right, fun hent => ⟨hrem.subset hent, hent⟩⟩
  have hspl := (filter_append_perm (fun entry => decide (entry ∈ removed)) entries).map size
  rw [← (hkpt.map size).sum_eq, ← hspl.sum_eq, map_append, sum_append, add_comm]
  simp

end Bes.Lib.Eviction
