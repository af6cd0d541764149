import Bes.Lib.Loop

/-! Loops whose variable is a machine word. A step may wrap around, so such a loop need not end: it is
followed for as many tests as the word has values, and a loop that is still running then runs for
ever. -/
namespace Bes.Lib.WordLoop
open Lib.Loop Option

/-- Values of `i` in `for (i = first; inside (i); i = advance (i))`, or `none` when the variable is
inside in every one of the first `tests` tests. -/
def loopValues (inside : α → Bool) (advance : α → α) : Nat → α → Option (List α)
  | 0, _ => none
  | tests + 1, i =>
      if inside i then (loopValues inside advance tests (advance i)).map (i :: ·) else some []

variable {inside : α → Bool} {advance : α → α}

theorem loopValues_eq_none_iff (tests : Nat) (i : α) :
    loopValues inside advance tests i = none ↔ ∀ n < tests, inside (advance^[n] i) = true := by
  induction tests generalizing i with
  | zero => simp [loopValues]
  | succ tests ih =>
    rw [Nat.forall_lt_succ_left, loopValues]
    cases hins : inside i with
    | true =>
      simp only [↓reduceIte, map_eq_none_iff, ih, Function.iterate_succ_apply,
        Function.iterate_zero, id_eq, hins, true_and]
    | false => simp [hins]

theorem loopValues_eq_none_iff_forever {i : α}
    (hper : Function.IsPeriodicPt advance tests i) (hpos : 0 < tests) :
    loopValues inside advance tests i = none ↔ ∀ n, inside (advance^[n] i) = true := by
  rw [loopValues_eq_none_iff]
  constructor
  · intro hall n
    rw [← hper.iterate_mod_apply]
    exact hall _ (Nat.mod_lt n hpos)
  · intro hall n _
    exact hall n

/-- A loop that steps up to a bound without wrapping ends, and takes the values of the same loop over
unbounded numbers. -/
theorem loopValues_strided {toNat : α → Nat} {last step : Nat}
    (hins : ∀ i, inside i = decide (toNat i ≤ last))
    (hadv : ∀ i, toNat i ≤ last → toNat (advance i) = toNat i + step) (hstp : 0 < step) (tests : Nat) :
    ∀ i, last + 1 - toNat i < tests → ∃ values, loopValues inside advance tests i = some values ∧
      values.map toNat = strided (toNat i) last step := by
  induction tests with
  | zero =>
    omega
  | succ tests ih =>
    intro i hlt
    rw [loopValues, hins]
    by_cases hle : toNat i ≤ last
    · have hnxt := hadv i hle
      obtain ⟨values, hlop, hvls⟩ := ih (advance i) (by omega)
      refine ⟨i :: values, ?_, ?_⟩
      · simp [hle, hlop]
      · rw [List.map_cons, hvls, hnxt, strided_cons hle hstp]
    · exact ⟨[], by simp [hle], by rw [strided_of_lt (by omega)]; rfl⟩

variable {R : σ → τ → Prop}

theorem bind_rel {f : σ → Option σ'} (hxy : Rel R x y)
    (hfg : ∀ s t, R s t → Rel S (f s) (g t)) : Rel S (x.bind f) (y.bind g) := by
  cases hxy with
  | some hst => exact hfg _ _ hst
  | none => exact .none

theorem rel_mono (hxy : Rel R x y) (himp : ∀ s t, R s t → S s t) : Rel S x y := by
  cases hxy with
  | some hst => exact .some (himp _ _ hst)
  | none => exact .none

theorem map_eq_of_rel {f : σ → α}
    (hxy : Rel R x y) (hfg : ∀ s t, R s t → f s = g t) : x.map f = y.map g := by
  cases hxy with
  | some hst => rw [map_some, map_some, hfg _ _ hst]
  | none => rfl

theorem foldlM_rel {f : σ → ι → Option σ} (values : List ι)
    (hbdy : ∀ i ∈ values, ∀ s t, R s t → Rel R (f s i) (g t i)) :
    ∀ s t, R s t → Rel R (values.foldlM f s) (values.foldlM g t) := by
  induction values with
  | nil =>
    intro s t hst
    exact .some hst
  | cons first rest ih =>
    intro s t hst
    apply bind_rel (hbdy first List.mem_cons_self s t hst)
    intro s' t' hst'
    exact ih (fun i hi => hbdy i (List.mem_cons_of_mem first hi)) s' t' hst'

theorem foldlM_keeps {P : σ → Prop} {f : σ → ι → Option σ} (values : List ι)
    (hbdy : ∀ i ∈ values, ∀ s s', P s → f s i = some s' → P s') :
    ∀ s s', P s → values.foldlM f s = some s' → P s' := by
  induction values with
  | nil =>
    intro s s' hs hrun
    cases hrun
    exact hs
  | cons first rest ih =>
    intro s s' hs hrun
    rw [List.foldlM_cons, bind_eq_bind, bind_eq_some_iff] at hrun
    obtain ⟨middle, hstp, hrun⟩ := hrun
    exact ih (fun i hi => hbdy i (List.mem_cons_of_mem first hi)) middle s'
      (hbdy first List.mem_cons_self s middle hs hstp) hrun

end Bes.Lib.WordLoop
