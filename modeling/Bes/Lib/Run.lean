import Mathlib

/-! Runs of a system that takes one event after another. An event that is not
enabled has no result, and a run is a list of events that are all enabled where
they happen. A property that holds throughout a run is tied to a condition on the
steps of the run. -/
namespace Bes.Lib.Run
open List

section

variable {σ ε : Type} (step : σ → ε → Option σ)

def run (s : σ) (events : List ε) : Option σ := events.foldlM step s

def Throughout (property : σ → Prop) : σ → List ε → Prop
  | s, [] => property s
  | s, e :: events => property s ∧ ∃ s', step s e = some s' ∧ Throughout property s' events

def Guarded (condition : σ → ε → Prop) : σ → List ε → Prop
  | _, [] => True
  | s, e :: events => condition s e ∧ ∃ s', step s e = some s' ∧ Guarded condition s' events

variable {step}

instance decidableGuarded {condition : σ → ε → Prop} [∀ s e, Decidable (condition s e)] :
    (s : σ) → (events : List ε) → Decidable (Guarded step condition s events)
  | _, [] => isTrue trivial
  | s, e :: events =>
      match hstep : step s e with
      | none => isFalse fun hguarded => by
          obtain ⟨-, s', hsome, -⟩ := hguarded
          rw [hstep] at hsome
          cases hsome
      | some s' =>
          have : Decidable (Guarded step condition s' events) := decidableGuarded s' events
          decidable_of_iff (condition s e ∧ Guarded step condition s' events) (by
            constructor
            · intro h
              exact ⟨h.1, s', hstep, h.2⟩
            · rintro ⟨hcondition, other, hother, hrest⟩
              rw [hstep, Option.some.injEq] at hother
              exact ⟨hcondition, hother ▸ hrest⟩)

@[simp] theorem run_nil (s : σ) : run step s [] = some s := rfl

@[simp] theorem run_cons (s : σ) (e : ε) (events : List ε) :
    run step s (e :: events) = (step s e).bind fun s' => run step s' events := rfl

theorem Guarded.throughout (invariant : σ → Prop) (hpro : ∀ s, invariant s → property s)
    (hkee : ∀ s e s', invariant s → condition s e → step s e = some s' → invariant s') {s : σ} (hinv : invariant s)
    (hgua : Guarded step condition s events) : Throughout step property s events := by
  induction events generalizing s with
  | nil => exact hpro s hinv
  | cons e events ih =>
    obtain ⟨hcon, s', hstp, hrst⟩ := hgua
    exact ⟨hpro s hinv, s', hstp, ih (hkee s e s' hinv hcon hstp) hrst⟩

/-- The rule for a condition that is exact: a step that does not meet it leads to
a state without the property. -/
theorem throughout_iff_guarded (invariant : σ → Prop) (hpro : ∀ s, invariant s → property s)
    (hkee : ∀ s e s', invariant s → condition s e → step s e = some s' → invariant s')
    (hexa : ∀ s e s', invariant s → step s e = some s' → property s' → condition s e)
    (events : List ε) {s : σ} (hinv : invariant s) :
    Throughout step property s events ↔ Guarded step condition s events := by
  constructor
  · intro hthr
    induction events generalizing s with
    | nil => trivial
    | cons e events ih =>
      obtain ⟨-, s', hstp, hrst⟩ := hthr
      have hnxt : property s' := by
        cases events with
        | nil => exact hrst
        | cons _ _ => exact hrst.1
      have hcon := hexa s e s' hinv hstp hnxt
      exact ⟨hcon, s', hstp, ih (hkee s e s' hinv hcon hstp) hrst⟩
  · exact Guarded.throughout invariant hpro hkee hinv

theorem Throughout.last {s : σ}
    (hthr : Throughout step property s events) (hrun : run step s events = some t) : property t := by
  induction events generalizing s with
  | nil =>
    rw [run_nil, Option.some.injEq] at hrun
    exact hrun ▸ hthr
  | cons e events ih =>
    obtain ⟨-, s', hstp, hrst⟩ := hthr
    rw [run_cons, hstp, Option.bind_some] at hrun
    exact ih hrst hrun

end

/-! Lists of parties, one of which changes. -/

section

variable {α : Type}

variable {parties : List α}

theorem sum_map_set (measure : α → Nat) {p : Nat} (hold : parties[p]? = some old) (new : α) :
    ((parties.set p new).map measure).sum + measure old = (parties.map measure).sum + measure new := by
  induction parties generalizing p with
  | nil => simp at hold
  | cons first rest ih =>
    cases p with
    | zero =>
      simp only [getElem?_cons_zero, Option.some.injEq] at hold
      subst hold
      simp only [set_cons_zero, map_cons, sum_cons]
      omega
    | succ p =>
      have hrst := ih hold
      simp only [set_cons_succ, map_cons, sum_cons]
      omega

theorem measure_le_sum (measure : α → Nat) {p : Nat}
    (hpar : parties[p]? = some party) : measure party ≤ (parties.map measure).sum := by
  have hmem := mem_of_getElem? hpar
  exact single_le_sum (by simp) _ (mem_map_of_mem hmem)

theorem exists_measure_pos (measure : α → Nat) (hpos : 0 < (parties.map measure).sum) :
    ∃ (p : Nat) (party : α), parties[p]? = some party ∧ 0 < measure party := by
  by_contra hnone
  push Not at hnone
  have hzer : (parties.map measure).sum = 0 := by
    rw [sum_eq_zero_iff]
    intro n hn
    obtain ⟨party, hmem, rfl⟩ := mem_map.mp hn
    obtain ⟨p, hp⟩ := mem_iff_getElem?.mp hmem
    have hle := hnone p party hp
    omega
  omega

theorem getElem?_set_cases {p : Nat} (hpar : (parties.set p new)[q]? = some party) :
    (q = p ∧ party = new) ∨ (q ≠ p ∧ parties[q]? = some party) := by
  by_cases hq : q = p
  · subst hq
    rw [getElem?_set_self'] at hpar
    cases hold : parties[q]? with
    | none => simp [hold] at hpar
    | some old =>
      simp only [hold, Option.map_eq_map, Option.map_some, Option.some.injEq,
        Function.const_apply] at hpar
      exact .inl ⟨rfl, hpar.symm⟩
  · rw [getElem?_set_ne (Ne.symm hq)] at hpar
    exact .inr ⟨hq, hpar⟩

end

end Bes.Lib.Run
