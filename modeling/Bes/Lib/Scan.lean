import Mathlib

/-! Scans for the first, the last and the extreme: loops that stop at their first hit, from either end,
and loops that keep the best value seen. -/
namespace Bes.Lib.Scan
open List

/-- The first hit of a loop that counts down to `low`, over `rounds` values. -/
def findDown (hit : Nat → Bool) (low rounds : Nat) : Option Nat :=
  (range' low rounds).reverse.find? hit

theorem findDown_succ (hit : Nat → Bool) (low rounds : Nat) : findDown hit low (rounds + 1) =
      if hit (low + rounds) then some (low + rounds) else findDown hit low rounds := by
  unfold findDown
  rw [range'_concat, one_mul, reverse_append]
  cases hhit : hit (low + rounds) with
  | true => simp [hhit]
  | false => simp [hhit]

variable {hit : Nat → Bool}

theorem findDown_eq_some {i : Nat} (hfou : findDown hit low rounds = some i) :
    low ≤ i ∧ i < low + rounds ∧ hit i = true ∧
      ∀ j, low ≤ j → j < low + rounds → hit j = true → j ≤ i := by
  induction rounds with
  | zero => simp [findDown] at hfou
  | succ rounds ih =>
    rw [findDown_succ] at hfou
    split at hfou
    next hhit =>
      cases hfou
      exact ⟨by omega, by omega, hhit, fun j _ hj _ => by omega⟩
    next hmss =>
      obtain ⟨hlow, hlt, hhit, hlst⟩ := ih hfou
      refine ⟨hlow, by omega, hhit, ?_⟩
      intro j hj hj' hhtj
      by_cases heq : j = low + rounds
      · exact absurd (heq ▸ hhtj) hmss
      · exact hlst j hj (by omega) hhtj

theorem findDown_ne_none {j : Nat} (hlow : low ≤ j)
    (hlt : j < low + rounds) (hhit : hit j = true) : findDown hit low rounds ≠ none := by
  intro hnon
  have hmss := find?_eq_none.mp hnon j (by simp [mem_range'_1, hlow, hlt])
  exact hmss hhit

def findUp (hit : Nat → Bool) (count : Nat) : Option Nat := (range count).find? hit

theorem findUp_eq_some {count i : Nat} (hfou : findUp hit count = some i) :
    i < count ∧ hit i = true ∧ ∀ j < count, hit j = true → i ≤ j := by
  obtain ⟨hhit, hmem, hfst⟩ := find?_range_eq_some.mp hfou
  refine ⟨by simpa using hmem, hhit, ?_⟩
  intro j _ hhtj
  by_contra hlt
  have hmss := hfst j (by omega)
  rw [hhtj] at hmss
  cases hmss

theorem findUp_eq_none {count : Nat} (hnon : findUp hit count = none) : ∀ j < count, hit j = false := by
  intro j hj
  have hall := find?_eq_none.mp hnon j (by simpa using hj)
  simpa using hall

def keepBest (pick : β → β → β) (value : ι → Option β) (best : β) (i : ι) : β :=
  match value i with
  | none => best
  | some seen => pick seen best

theorem foldl_keepBest (pick : β → β → β) (value : ι → Option β) (visited : List ι) (start : β) :
    visited.foldl (keepBest pick value) start =
      (visited.filterMap value).foldl (fun best seen => pick seen best) start := by
  rw [foldl_filterMap]
  congr 1
  funext best i
  unfold keepBest
  cases value i <;> rfl

section

variable {value : ι → Option Nat} {visited : List ι} {start : Nat}

theorem isLeast_foldl_keepBest (hsen : ∃ i ∈ visited, ∃ x ≤ start, value i = some x) :
    IsLeast { x | ∃ i ∈ visited, value i = some x } (visited.foldl (keepBest min value) start) := by
  obtain ⟨hmem, hle⟩ := min?_eq_some_iff.mp (@min?_cons' _ start _ (visited.filterMap value))
  rw [foldl_keepBest]
  simp only [mem_cons, mem_filterMap, forall_eq_or_imp, Nat.min_comm] at hmem hle ⊢
  refine ⟨?_, hle.2⟩
  cases hmem with
  | inl hsta =>
    obtain ⟨i, hi, x, hx, hval⟩ := hsen
    have hsam := (hle.2 x ⟨i, hi, hval⟩).antisymm (hx.trans_eq hsta.symm)
    exact ⟨i, hi, hsam ▸ hval⟩
  | inr hmem => exact hmem

theorem isGreatest_foldl_keepBest (hsen : ∃ i ∈ visited, ∃ x ≥ start, value i = some x) :
    IsGreatest { x | ∃ i ∈ visited, value i = some x } (visited.foldl (keepBest max value) start) := by
  obtain ⟨hmem, hle⟩ := max?_eq_some_iff.mp (@max?_cons' _ start _ (visited.filterMap value))
  rw [foldl_keepBest]
  simp only [mem_cons, mem_filterMap, forall_eq_or_imp, Nat.max_comm] at hmem hle ⊢
  refine ⟨?_, hle.2⟩
  cases hmem with
  | inl hsta =>
    obtain ⟨i, hi, x, hx, hval⟩ := hsen
    have hsam := (hle.2 x ⟨i, hi, hval⟩).antisymm (hsta.trans_le hx)
    exact ⟨i, hi, hsam ▸ hval⟩
  | inr hmem => exact hmem

end

end Bes.Lib.Scan
