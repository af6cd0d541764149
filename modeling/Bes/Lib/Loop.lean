import Mathlib

/-! The loop shapes of the array code: a counted loop with a stride, given
by the list of values its variable takes, a search loop that returns at the
first hit, and a loop that collects one result per iteration. -/
namespace Bes.Lib.Loop
open List

/-- Values of `i` in `for (i = first; i <= last; i += step)`, for a positive step. -/
def strided (first last step : Nat) : List Nat :=
  if first ≤ last then range' first ((last - first) / step + 1) step else []

variable {first last step : Nat}

theorem mem_strided (hstp : 0 < step) (i : Nat) :
    i ∈ strided first last step ↔ first ≤ i ∧ i ≤ last ∧ step ∣ i - first := by
  unfold strided
  split
  next hle =>
    rw [mem_range']
    constructor
    · rintro ⟨j, hj, rfl⟩
      have hbd : step * j ≤ last - first := by
        rw [mul_comm]
        exact (Nat.le_div_iff_mul_le hstp).mp (by omega)
      exact ⟨by omega, by omega, ⟨j, by omega⟩⟩
    · rintro ⟨hlow, hhgh, j, hj⟩
      refine ⟨j, ?_, by omega⟩
      have hle' : j ≤ (last - first) / step := by
        rw [Nat.le_div_iff_mul_le hstp, mul_comm]
        omega
      omega
  next hlt =>
    constructor
    · intro hmem
      simp at hmem
    · omega

theorem length_strided (hle : first ≤ last) (step : Nat) :
    (strided first last step).length = (last - first) / step + 1 := by
  rw [strided, if_pos hle, length_range']

theorem getElem?_strided {i : Nat} (hn : (strided first last step)[n]? = some i) :
    i = first + n * step ∧ n ≤ (last - first) / step := by
  unfold strided at hn
  split at hn
  · have hlt : n < (last - first) / step + 1 := by
      simpa using (List.getElem?_eq_some_iff.mp hn).1
    rw [getElem?_range' hlt, Option.some.injEq, mul_comm] at hn
    exact ⟨hn.symm, by omega⟩
  · simp at hn

theorem strided_of_lt (hlt : last < first) (step : Nat) : strided first last step = [] :=
  if_neg (by omega)

theorem strided_cons (hle : first ≤ last) (hstp : 0 < step) :
    strided first last step = first :: strided (first + step) last step := by
  rw [strided, if_pos hle, range'_succ, strided]
  split
  · have hcnt : (last - first) / step = (last - (first + step)) / step + 1 := by
      rw [← Nat.sub_sub, Nat.div_eq_sub_div hstp (by omega)]
    rw [hcnt]
  · rw [Nat.div_eq_of_lt (by omega)]
    rfl

theorem takeWhile_strided (hstp : 0 < step) (hbd : 0 < bound) (first last : Nat) :
    (strided first last step).takeWhile (fun i => decide (i < bound))
      = strided first (min last (bound - 1)) step := by
  induction hlen : last + 1 - first using Nat.strongRecOn generalizing first with
  | _ length ih =>
    by_cases hle : first ≤ last
    · rw [strided_cons hle hstp, takeWhile_cons]
      by_cases hlt : first < bound
      · rw [decide_eq_true hlt, if_pos rfl, ih _ (by omega) _ rfl, ← strided_cons (by omega) hstp]
      · have hemp : min last (bound - 1) < first := by omega
        rw [decide_eq_false hlt, strided_of_lt hemp]
        rfl
    · rw [strided_of_lt (by omega), strided_of_lt (by omega), takeWhile_nil]

theorem dropWhile_strided (hstp : 0 < step) (hle : bound ≤ first) (last : Nat) :
    (strided first last step).dropWhile (fun i => decide (i < bound)) = strided first last step := by
  by_cases hemp : first ≤ last
  · rw [strided_cons hemp hstp]
    exact dropWhile_cons_of_neg (by simpa using hle)
  · rw [strided_of_lt (by omega), dropWhile_nil]

theorem strided_add (first last step offset : Nat) :
    strided (first + offset) (last + offset) step = (strided first last step).map (· + offset) := by
  by_cases hle : first ≤ last
  · rw [strided, strided, if_pos hle, if_pos (Nat.add_le_add_right hle offset),
      Nat.add_sub_add_right, add_comm first offset, ← map_add_range']
    exact map_congr_left fun i _ => add_comm offset i
  · rw [strided_of_lt (by omega), strided_of_lt (by omega)]
    rfl

theorem strided_min (hstp : 0 < step) (hbd : last - first < bound) :
    strided first last (min step bound) = strided first last step := by
  by_cases hle : step ≤ bound
  · rw [Nat.min_eq_left hle]
  · by_cases hemp : first ≤ last
    · rw [strided_cons hemp hstp, strided_cons hemp (by omega), strided_of_lt (by omega),
        strided_of_lt (by omega)]
    · rw [strided_of_lt (by omega), strided_of_lt (by omega)]

/-- A search loop: run `body` until it returns something. `none` outside is a
fault of the body itself. -/
def firstFound (body : σ → ι → Option (Option β × σ)) : List ι → σ → Option (Option β × σ)
  | [], s => some (none, s)
  | i :: rest, s => do
      let (found, s') ← body s i
      match found with
      | some b => some (some b, s')
      | none => firstFound body rest s'

theorem firstFound_const (body : σ → ι → Option (Option β × σ)) (answer : Option β)
    (invariant : σ → Prop) (indices : List ι)
    (hbdy : ∀ i ∈ indices, ∀ s, invariant s → ∃ s', body s i = some (answer, s') ∧ invariant s') :
    ∀ s, invariant s → ∃ s',
      firstFound body indices s = some (if indices = [] then none else answer, s') ∧ invariant s' := by
  induction indices with
  | nil =>
    intro s hs
    exact ⟨s, by simp [firstFound], hs⟩
  | cons first rest ih =>
    intro s hs
    obtain ⟨middle, hstp, hmid⟩ := hbdy first (by simp) s hs
    cases answer with
    | some found => exact ⟨middle, by simp [firstFound, hstp], hmid⟩
    | none =>
      obtain ⟨last, hrun, hlst⟩ := ih (fun i hi => hbdy i (mem_cons_of_mem first hi)) middle hmid
      refine ⟨last, ?_, hlst⟩
      simpa [firstFound, hstp] using hrun

theorem firstFound_some (property : β → Prop)
    (hbdy : ∀ i ∈ indices, ∀ s b s', body s i = some (some b, s') → property b) :
    ∀ s b s', firstFound body indices s = some (some b, s') → property b := by
  induction indices with
  | nil =>
    intro s b s' hfou
    simp [firstFound] at hfou
  | cons first rest ih =>
    intro s b s' hfou
    rw [firstFound, Option.bind_eq_bind, Option.bind_eq_some_iff] at hfou
    obtain ⟨⟨answer, middle⟩, hstp, hrst⟩ := hfou
    cases answer with
    | some found =>
      cases hrst
      exact hbdy first mem_cons_self s b s' hstp
    | none =>
      exact ih (fun i hi => hbdy i (mem_cons_of_mem first hi)) middle b s' hrst

theorem mapM_forall₂ {body : ι → Except ε β} (hbdy : ∀ i ∈ indices, ∃ b, body i = .ok b ∧ ensures i b) :
    ∃ results, indices.mapM body = .ok results ∧ Forall₂ ensures indices results := by
  induction indices with
  | nil => exact ⟨[], rfl, Forall₂.nil⟩
  | cons first rest ih =>
    obtain ⟨b, hfst, hens⟩ := hbdy first mem_cons_self
    obtain ⟨results, hrst, hall⟩ := ih fun i hi => hbdy i (mem_cons_of_mem first hi)
    refine ⟨b :: results, ?_, Forall₂.cons hens hall⟩
    rw [mapM_cons, hfst, hrst]
    rfl

end Bes.Lib.Loop
