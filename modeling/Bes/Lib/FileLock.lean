import Bes.Lib.Run

/-! Advisory locks on one whole file. A process has at most one lock: a further
request replaces it, and a release drops it. A write lock is granted when no other
process has a lock, a read lock when no other process has a write lock. -/
namespace Bes.Lib.FileLock
open Lib.Run

inductive LockKind
  | read
  | write
deriving DecidableEq

def Compatible : LockKind → Option LockKind → Prop
  | .write, held => held = none
  | .read, held => held ≠ some .write

instance : (kind : LockKind) → (held : Option LockKind) → Decidable (Compatible kind held)
  | .write, held => inferInstanceAs (Decidable (held = none))
  | .read, held => inferInstanceAs (Decidable (held ≠ some .write))

/-- Process `p` gets the lock without waiting. -/
def Grants (locks : List (Option LockKind)) (p : Nat) (kind : LockKind) : Prop :=
  ∀ q < locks.length, q ≠ p → ∀ held ∈ locks[q]?, Compatible kind held

instance (locks : List (Option LockKind)) (p : Nat) (kind : LockKind) :
    Decidable (Grants locks p kind) :=
  inferInstanceAs (Decidable (∀ q < locks.length, q ≠ p → ∀ held ∈ locks[q]?, Compatible kind held))

def WriterAlone (locks : List (Option LockKind)) : Prop :=
  ∀ (p q : Nat) (held : Option LockKind), p ≠ q → locks[p]? = some (some .write) →
    locks[q]? = some held → held = none

variable {locks : List (Option LockKind)}

theorem Grants.compatible (hgra : Grants locks p kind) (hne : q ≠ p) (hhld : locks[q]? = some held) :
    Compatible kind held :=
  hgra q (List.getElem?_eq_some_iff.mp hhld).1 hne held hhld

theorem WriterAlone.grant (halo : WriterAlone locks)
    (hgra : Grants locks p kind) : WriterAlone (locks.set p (some kind)) := by
  intro i j held hne hi hj
  cases getElem?_set_cases hi with
  | inl hslf =>
    cases getElem?_set_cases hj with
    | inl hother => exact absurd (hslf.1.trans hother.1.symm) hne
    | inr hother =>
      have hcom := hgra.compatible hother.1 hother.2
      rw [← Option.some.inj hslf.2] at hcom
      exact hcom
  | inr hslf =>
    cases getElem?_set_cases hj with
    | inl hother =>
      -- the writer was there when the request was granted
      have hcom := hgra.compatible hslf.1 hslf.2
      cases kind with
      | read => exact absurd rfl hcom
      | write => cases hcom
    | inr hother => exact halo i j held hne hslf.2 hother.2

theorem WriterAlone.release (halo : WriterAlone locks) (p : Nat) : WriterAlone (locks.set p none) := by
  intro i j held hne hi hj
  cases getElem?_set_cases hi with
  | inl hslf => cases hslf.2
  | inr hslf =>
    cases getElem?_set_cases hj with
    | inl hother => exact hother.2
    | inr hother => exact halo i j held hne hslf.2 hother.2

theorem WriterAlone.set (halo : WriterAlone locks)
    (hnew : locks[p]? = some new ∨ new = none ∨ ∃ kind, new = some kind ∧ Grants locks p kind) :
    WriterAlone (locks.set p new) := by
  rcases hnew with hsam | rfl | ⟨kind, rfl, hgra⟩
  · obtain ⟨hlt, rfl⟩ := List.getElem?_eq_some_iff.mp hsam
    rw [List.set_getElem_self]
    exact halo
  · exact halo.release p
  · exact halo.grant hgra

end Bes.Lib.FileLock
