import Mathlib

/-! Parties that wait for each other. A deadlock is a set of parties each of which
waits for another party of the set. -/
namespace Bes.Lib.WaitFor

variable {ι : Type}

def Deadlocked (waitsFor : ι → ι → Prop) : Prop :=
  ∃ parties : Set ι, parties.Nonempty ∧ ∀ p ∈ parties, ∃ q ∈ parties, q ≠ p ∧ waitsFor p q

theorem not_deadlocked_of_rank (rank : ι → Nat)
    (hrnk : ∀ p q, waitsFor p q → rank q < rank p) : ¬ Deadlocked waitsFor := by
  rintro ⟨parties, ⟨first, hfst⟩, hwai⟩
  classical
  have hsom : ∃ n, ∃ p ∈ parties, rank p = n := ⟨rank first, first, hfst, rfl⟩
  obtain ⟨lowest, hlws, hlea⟩ := Nat.find_spec hsom
  obtain ⟨next, hnxt, -, hwat⟩ := hwai lowest hlws
  have hlow := hrnk lowest next hwat
  rw [hlea] at hlow
  exact Nat.find_min hsom hlow ⟨next, hnxt, rfl⟩

theorem deadlocked_pair {p : ι} (hne : p ≠ q)
    (hfor : waitsFor p q) (hbck : waitsFor q p) : Deadlocked waitsFor := by
  refine ⟨{p, q}, ⟨p, Set.mem_insert p _⟩, ?_⟩
  intro party hpar
  rcases hpar with rfl | rfl
  · exact ⟨q, Set.mem_insert_of_mem _ rfl, hne.symm, hfor⟩
  · exact ⟨p, Set.mem_insert p _, hne, hbck⟩

end Bes.Lib.WaitFor
