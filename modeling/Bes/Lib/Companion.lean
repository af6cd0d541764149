import Mathlib

/-! Sets of things some of which need another one beside them, such as files with an index. A step adds things
and then takes things away, and what it takes away need not come in pairs. -/
namespace Bes.Lib.Companion

variable {α : Type} [DecidableEq α] (needs : α → Prop) (companion : α → α)

def Complete (things : Finset α) : Prop := ∀ x ∈ things, needs x → companion x ∈ things

def update (things gained lost : Finset α) : Finset α := (things ∪ gained) \ lost

structure Keeps (things gained lost : Finset α) : Prop where
  gained_complete : ∀ x ∈ gained, needs x → x ∉ lost → companion x ∈ things ∪ gained
  lost_together : ∀ x ∈ things ∪ gained, needs x → companion x ∈ lost → x ∈ lost

variable {needs companion} {gained lost : Finset α}

theorem complete_update_iff (hcom : Complete needs companion things) :
    Complete needs companion (update things gained lost) ↔ Keeps needs companion things gained lost := by
  simp only [Complete, update, Finset.mem_sdiff]
  constructor
  · intro haft
    constructor
    · intro x hx hnee hkpt
      exact (haft x ⟨Finset.mem_union_right _ hx, hkpt⟩ hnee).1
    · intro x hx hnee hlst
      by_contra hkpt
      exact (haft x ⟨hx, hkpt⟩ hnee).2 hlst
  · intro hkee x hx hnee
    refine ⟨?_, fun hlst => hx.2 (hkee.lost_together x hx.1 hnee hlst)⟩
    cases Finset.mem_union.mp hx.1 with
    | inl hold => exact Finset.mem_union_left _ (hcom x hold hnee)
    | inr hnew => exact hkee.gained_complete x hnew hnee hx.2

end Bes.Lib.Companion
