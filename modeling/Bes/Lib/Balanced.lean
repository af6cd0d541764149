import Mathlib

/-! Texts in which two symbols, one that opens and one that closes, are balanced. -/
namespace Bes.Lib
open List

variable {α : Type*}

inductive Balanced (opening closing : α) : List α → Prop where
  | nil : Balanced opening closing []
  | char {c : α} {text : List α} : c ≠ opening → c ≠ closing → Balanced opening closing text →
      Balanced opening closing (c :: text)
  | nest {inner text : List α} : Balanced opening closing inner → Balanced opening closing text →
      Balanced opening closing (opening :: (inner ++ closing :: text))

variable [DecidableEq α]

/-- The greatest count a scan reaches that starts at `count`. -/
def height (opening closing : α) : Nat → List α → Nat
  | count, [] => count
  | count, c :: text =>
    max count (height opening closing
      (if c = opening then count + 1 else if c = closing then count - 1 else count) text)

theorem le_height (opening closing : α) (count : Nat) (text : List α) :
    count ≤ height opening closing count text := by
  cases text with
  | nil => exact le_refl count
  | cons c text => exact Nat.le_max_left _ _

variable {opening closing : α}

variable {text : List α}

section

variable (hne : opening ≠ closing) (hbal : Balanced opening closing text)

include hne hbal

theorem Balanced.height_append (count : Nat) (rest : List α) :
    height opening closing count (text ++ rest)
      = max (height opening closing count text) (height opening closing count rest) := by
  induction hbal generalizing count rest with
  | nil => exact (Nat.max_eq_right (le_height opening closing count rest)).symm
  | char hopn hclose _ ih =>
    rw [cons_append, height, height, if_neg hopn, if_neg hclose, ih]
    omega
  | nest _ _ ihinner ihtext =>
    have hlst (text : List α) : height opening closing (count + 1) (closing :: text)
        = max (count + 1) (height opening closing count text) := by
      rw [height, if_neg (Ne.symm hne), if_pos rfl, Nat.add_sub_cancel]
    rw [cons_append, height, height, if_pos rfl, append_assoc, cons_append,
      ihinner, ihinner, hlst, hlst, ihtext]
    omega

theorem Balanced.count_eq : text.count opening = text.count closing := by
  induction hbal with
  | nil => rfl
  | char hopn hclose _ ih => rw [count_cons_of_ne hopn, count_cons_of_ne hclose, ih]
  | nest _ _ ihinner ihtext =>
    rw [count_cons_self, count_append, count_cons_of_ne (Ne.symm hne),
      count_cons_of_ne hne, count_append, count_cons_self, ihinner, ihtext]
    omega

theorem Balanced.not_mem_closing (hopn : opening ∉ text) : closing ∉ text := by
  rw [← count_eq_zero] at hopn ⊢
  rw [← hbal.count_eq hne, hopn]

theorem Balanced.exists_first_closing (hopn : opening ∈ text) :
    ∃ before after, text = before ++ closing :: after ∧ closing ∉ before ∧ opening ∈ before := by
  induction hbal with
  | nil => cases hopn
  | @char c text hc hclose _ ih =>
    have htxt : opening ∈ text := (mem_cons.mp hopn).resolve_left (Ne.symm hc)
    obtain ⟨before, after, rfl, hbef, hmem⟩ := ih htxt
    refine ⟨c :: before, after, rfl, ?_, mem_cons_of_mem c hmem⟩
    exact not_mem_cons_of_ne_of_not_mem (Ne.symm hclose) hbef
  | @nest inner text hinn _ ih _ =>
    by_cases hnes : opening ∈ inner
    · obtain ⟨before, after, rfl, hbef, -⟩ := ih hnes
      refine ⟨opening :: before, after ++ closing :: text, by simp, ?_, mem_cons_self⟩
      exact not_mem_cons_of_ne_of_not_mem (Ne.symm hne) hbef
    · refine ⟨opening :: inner, text, rfl, ?_, mem_cons_self⟩
      exact not_mem_cons_of_ne_of_not_mem (Ne.symm hne) (hinn.not_mem_closing hne hnes)

end

end Bes.Lib
