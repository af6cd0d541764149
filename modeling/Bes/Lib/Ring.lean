import Mathlib

/-! A ring of `n` places: walks around it that stop at their first hit, and the spans from one place on to
another. Arcs of a circle are spans of the numbers below its period. -/
namespace Bes.Lib.Ring

def place (n origin k : Nat) : Nat := (origin + k) % n

section

variable {origin : Nat}

theorem place_of_lt (h : origin + k < n) : place n origin k = origin + k := Nat.mod_eq_of_lt h

theorem place_of_le (h : n ≤ origin + k) (horg : origin < n) (hk : k < n) :
    place n origin k = origin + k - n := by
  unfold place
  rw [Nat.mod_eq_sub_mod h, Nat.mod_eq_of_lt (by omega)]

theorem place_lt (hn : 0 < n) : place n origin k < n := Nat.mod_lt _ hn

theorem place_zero (horg : origin < n) : place n origin 0 = origin := Nat.mod_eq_of_lt horg

theorem place_succ : (place n origin k + 1) % n = place n origin (k + 1) := by
  unfold place
  rw [Nat.mod_add_mod, add_assoc]

theorem exists_place (horg : origin < n) {i : Nat} (hi : i < n) : ∃ k < n, place n origin k = i := by
  by_cases hle : origin ≤ i
  · exact ⟨i - origin, by omega, by rw [place_of_lt (by omega)]; omega⟩
  · exact ⟨i + n - origin, by omega, by rw [place_of_le (by omega) horg (by omega)]; omega⟩

/-- Onward from `i` while the test holds. There is no result where the walk is back at its start. -/
def walkUp (n start : Nat) (go : Nat → Bool) : Nat → Nat → Option Nat
  | 0, _ => none
  | rounds + 1, i =>
      if go i then
        let next := (i + 1) % n
        if next = start then none else walkUp n start go rounds next
      else some i

def walkDown (n start : Nat) (go : Nat → Bool) : Nat → Nat → Option Nat
  | 0, _ => none
  | rounds + 1, i =>
      if go i then
        let next := if i = 0 then n - 1 else i - 1
        if next = start then none else walkDown n start go rounds next
      else some i

variable {go : Nat → Bool}

theorem walkUp_of_go {i : Nat} (hgo : ∀ i < n, go i = true) (hi : i < n) :
    walkUp n start go rounds i = none := by
  induction rounds generalizing i with
  | zero => rfl
  | succ rounds ih =>
    rw [walkUp, if_pos (hgo i hi)]
    dsimp only
    split
    · rfl
    · exact ih (Nat.mod_lt _ (by omega))

theorem walkDown_of_go {i : Nat} (hgo : ∀ i < n, go i = true) (hi : i < n) :
    walkDown n start go rounds i = none := by
  induction rounds generalizing i with
  | zero => rfl
  | succ rounds ih =>
    have hnxt : (if i = 0 then n - 1 else i - 1) < n := by split <;> omega
    rw [walkDown, if_pos (hgo i hi)]
    by_cases hbck : (if i = 0 then n - 1 else i - 1) = start
    · exact if_pos hbck
    · exact (if_neg hbck).trans (ih hnxt)

theorem walkUp_of_stop (horg : origin < n) {a : Nat} (ha : a < n) (hstp : go (place n origin a) = false)
    (hgo : ∀ j < a, go (place n origin j) = true) :
    walkUp n origin go n origin = some (place n origin a) := by
  have hfrm : ∀ d ≤ a, walkUp n origin go (n - (a - d)) (place n origin (a - d)) = some (place n origin a) := by
    intro d hd
    induction d with
    | zero =>
      obtain ⟨rounds, hrou⟩ : ∃ rounds, n - (a - 0) = rounds + 1 := ⟨n - a - 1, by omega⟩
      rw [hrou, walkUp, Nat.sub_zero, if_neg (by rw [hstp]; exact Bool.false_ne_true)]
    | succ d ih =>
      have hnxt : a - (d + 1) + 1 = a - d := by omega
      have hrou : n - (a - (d + 1)) = n - (a - d) + 1 := by omega
      have hoth : place n origin (a - d) ≠ origin := by
        by_cases hwrp : origin + (a - d) < n
        · rw [place_of_lt hwrp]
          omega
        · rw [place_of_le (by omega) horg (by omega)]
          omega
      rw [hrou, walkUp, if_pos (hgo _ (by omega))]
      rw [place_succ, hnxt, if_neg hoth]
      exact ih (by omega)
  have hwho := hfrm a (le_refl a)
  rwa [Nat.sub_self, Nat.sub_zero, place_zero horg] at hwho

theorem place_pred (horg : origin < n) (hk : k + 1 < n) :
    (if place n origin (k + 1) = 0 then n - 1 else place n origin (k + 1) - 1) = place n origin k := by
  by_cases hwrp : origin + (k + 1) < n
  · rw [place_of_lt hwrp, place_of_lt (by omega)]
    split <;> omega
  · rw [place_of_le (by omega) horg hk]
    by_cases hlst : origin + k < n
    · rw [place_of_lt hlst]
      split <;> omega
    · rw [place_of_le (by omega) horg (by omega)]
      split <;> omega

theorem walkDown_of_stop (horg : origin < n) {b : Nat} (hb : b < n) (hstp : go (place n origin b) = false)
    (hgo : ∀ j < n, b < j → go (place n origin j) = true) :
    walkDown n (place n origin (n - 1)) go n (place n origin (n - 1)) = some (place n origin b) := by
  have hfrm : ∀ k, b ≤ k → k < n →
      walkDown n (place n origin (n - 1)) go (k + 1) (place n origin k) = some (place n origin b) := by
    intro k hbk hkn
    induction k with
    | zero =>
      obtain rfl : b = 0 := by omega
      rw [walkDown, if_neg (by rw [hstp]; exact Bool.false_ne_true)]
    | succ k ih =>
      by_cases heq : b = k + 1
      · rw [walkDown, ← heq, if_neg (by rw [hstp]; exact Bool.false_ne_true)]
      · have hoth : place n origin k ≠ place n origin (n - 1) := by
          by_cases hwrp : origin + k < n
          · rw [place_of_lt hwrp]
            by_cases hlst : origin + (n - 1) < n
            · rw [place_of_lt hlst]
              omega
            · rw [place_of_le (by omega) horg (by omega)]
              omega
          · rw [place_of_le (by omega) horg (by omega), place_of_le (by omega) horg (by omega)]
            omega
        rw [walkDown, if_pos (hgo _ hkn (by omega))]
        rw [place_pred horg hkn, if_neg hoth]
        exact ih (by omega) (by omega)
  obtain ⟨m, rfl⟩ : ∃ m, n = m + 1 := ⟨n - 1, by omega⟩
  exact hfrm m (by omega) (by omega)

end

/-- What lies from `a` onward to `b`, around the end where `b` comes before `a`. -/
def Span {α : Type} [LE α] (a b x : α) : Prop := (a ≤ b ∧ a ≤ x ∧ x ≤ b) ∨ (¬ a ≤ b ∧ (a ≤ x ∨ x ≤ b))

theorem span_of_le [LE α] {a b : α} (hle : a ≤ b) : Span a b x ↔ a ≤ x ∧ x ≤ b := by
  simp [Span, hle]

theorem span_of_not_le [LE α] {a b : α} (hle : ¬ a ≤ b) : Span a b x ↔ a ≤ x ∨ x ≤ b := by
  simp [Span, hle]

section

variable {origin : Nat}

theorem span_place (horg : origin < n) (ha : a < n) (hb : b < n) (hk : k < n) :
    Span (place n origin a) (place n origin b) (place n origin k) ↔ Span a b k := by
  have hpla : ∀ j < n, place n origin j = if origin + j < n then origin + j else origin + j - n := by
    intro j hj
    split
    · exact place_of_lt ‹_›
    · exact place_of_le (by omega) horg hj
  unfold Span
  grind

/-- A span that is widened by at most one place at either end, but not around the end, still holds what it held,
unless both ends of the ring are in it and the widened ends have met. -/
theorem span_widened_iff (ha : a < n) (hb : b < n) (hlft : left = a ∨ left = a - 1)
    (hrig : right = b ∨ right = min (b + 1) (n - 1)) : (∀ i < n, Span a b i → Span left right i) ↔
      (Span a b 0 → Span a b (n - 1) → left ≤ right → left = 0 ∧ right = n - 1) := by
  constructor
  · intro h hfst hlst hle
    have h0 := (span_of_le hle).mp (h 0 (by omega) hfst)
    have h1 := (span_of_le hle).mp (h (n - 1) (by omega) hlst)
    omega
  · intro h i hi hspn
    by_cases hab : a ≤ b
    · rw [span_of_le hab] at hspn
      rw [span_of_le (by omega)]
      omega
    · simp only [span_of_not_le hab] at h hspn
      have hmet := h (.inr (Nat.zero_le b)) (.inl (by omega))
      by_cases hle : left ≤ right
      · rw [span_of_le hle]
        omega
      · rw [span_of_not_le hle]
        omega

theorem span_all_iff (hlft : left < n) (hrig : right < n) :
    (∀ i < n, Span left right i) ↔ (left = 0 ∧ right = n - 1) ∨ left = right + 1 := by
  by_cases hle : left ≤ right
  · simp only [span_of_le hle]
    constructor
    · intro h
      have h0 := h 0 (by omega)
      have h1 := h (n - 1) (by omega)
      omega
    · omega
  · simp only [span_of_not_le hle]
    constructor
    · intro h
      have hbet := h (right + 1) (by omega)
      omega
    · omega

end

section

variable {α : Type} [LinearOrder α] {origin : Nat} {t : Nat → α}

/-- Values that increase around a ring, with the seam before place `m`. At most the first and the last of them are
the same. -/
structure IncreasesAround (n m : Nat) (t : Nat → α) : Prop where
  le : m ≤ n
  before : ∀ i j, i < j → j < m → t i < t j
  after : ∀ i j, m ≤ i → i < j → j < n → t i < t j
  across : ∀ i j, i < m → m ≤ j → j < n → t j < t i ∨ (t j = t i ∧ i = 0 ∧ j = n - 1)

theorem sorted_from_least (haro : IncreasesAround n m t) (horg : origin < n)
    (hlea : ∀ i < n, t origin ≤ t i) (hfst : ∀ i < origin, t origin < t i) :
    (∀ j k, j ≤ k → k < n → t (place n origin j) ≤ t (place n origin k)) ∨
      (origin = 0 ∧ 2 ≤ n ∧ t 0 = t (n - 1) ∧ ∀ i j, i < j → j < n - 1 → t i < t j) := by
  obtain ⟨hle, hbef, haft, hacr⟩ := haro
  have hmon : origin = 0 → (∀ i j, i < j → j < n → t i < t j) →
      ∀ j k, j ≤ k → k < n → t (place n origin j) ≤ t (place n origin k) := by
    intro hzer hall j k hjk hk
    rw [place_of_lt (by omega), place_of_lt (by omega)]
    by_cases heq : j = k
    · rw [heq]
    · exact (hall _ _ (by omega) (by omega)).le
  by_cases hnon : m = n ∨ m = 0
  · have hall : ∀ i j, i < j → j < n → t i < t j := by
      intro i j hij hj
      cases hnon with
      | inl hm => exact hbef i j hij (by omega)
      | inr hm => exact haft i j (by omega) hij hj
    have hzer : origin = 0 := by
      by_contra hpos
      exact absurd (hlea 0 (by omega)) (not_le.mpr (hall 0 origin (by omega) horg))
    exact .inl (hmon hzer hall)
  · rcases hacr 0 m (by omega) (by omega) (by omega) with hlss | ⟨heq, -, hlst⟩
    · -- The smallest value stands at the seam.
      have hm : origin = m := by
        rcases Nat.lt_trichotomy origin m with hlt | heq | hgt
        · have h0 : t 0 ≤ t origin := by
            by_cases hzer : origin = 0
            · rw [hzer]
            · exact (hbef 0 origin (by omega) hlt).le
          exact absurd (hlea m (by omega)) (not_le.mpr (hlss.trans_le h0))
        · exact heq
        · exact absurd (hlea m (by omega)) (not_le.mpr (haft m origin (le_refl m) hgt horg))
      left
      intro j k hjk hk
      by_cases heq : j = k
      · rw [heq]
      by_cases hk' : origin + k < n
      · rw [place_of_lt (by omega), place_of_lt hk']
        exact (haft _ _ (by omega) (by omega) hk').le
      · rw [place_of_le (by omega) horg hk]
        by_cases hj' : origin + j < n
        · rw [place_of_lt hj']
          rcases hacr (origin + k - n) (origin + j) (by omega) (by omega) hj' with hlss | ⟨heq, -⟩
          · exact hlss.le
          · exact heq.le
        · rw [place_of_le (by omega) horg (by omega)]
          exact (hbef _ _ (by omega) (by omega)).le
    · -- The smallest value is the first and the last.
      right
      have hzer : origin = 0 := by
        by_contra hpos
        have hlss := hfst 0 (by omega)
        by_cases hm : origin = m
        · rw [hm, heq] at hlss
          exact lt_irrefl _ hlss
        · exact lt_asymm hlss (hbef 0 origin (by omega) (by omega))
      refine ⟨hzer, by omega, ?_, ?_⟩
      · rw [← hlst, heq]
      · intro i j hij hj
        exact hbef i j hij (by omega)

end

section

variable {α : Type} [Field α] [LinearOrder α] [IsStrictOrderedRing α] {period : α}

/-- The point is on the arc from `left` onward to `right`, in one of its turns. An arc that ends before it starts
ends one turn later. -/
def OnArc (period left right x : α) : Prop :=
  ∃ k : ℤ, left ≤ x + period * k ∧ x + period * k ≤ if left ≤ right then right else right + period

theorem turns_nonneg (hper : 0 < period) {k : ℤ} (hx : x < period) (hy : 0 ≤ y)
    (h : y ≤ x + period * k) : 0 ≤ k := by
  by_contra hk
  have hone : (k : α) ≤ -1 := by exact_mod_cast Int.le_sub_one_of_lt (Int.not_le.mp hk)
  have hstp : period * k ≤ period * -1 := by gcongr
  linarith

theorem turns_nonpos (hper : 0 < period) {k : ℤ} (hx : 0 ≤ x) (hy : y < period)
    (h : x + period * k ≤ y) : k ≤ 0 := by
  by_contra hk
  have hone : (1 : α) ≤ k := by exact_mod_cast Int.not_le.mp hk
  have hstp : period * 1 ≤ period * k := by gcongr
  linarith

section

variable {tl tr t : α} (hper : 0 < period) (hl : 0 ≤ tl) (hl' : tl < period) (hr : 0 ≤ tr) (hr' : tr < period)
  (ht : 0 ≤ t) (ht' : t < period)

include hper hl hr' ht ht' in
theorem exists_turn_iff : (∃ k : ℤ, tl ≤ t + period * k ∧ t + period * k ≤ tr) ↔ tl ≤ t ∧ t ≤ tr := by
  constructor
  · intro h
    obtain ⟨k, hlft, hrig⟩ := h
    obtain rfl : k = 0 :=
      le_antisymm (turns_nonpos hper ht hr' hrig) (turns_nonneg hper ht' hl hlft)
    simpa using And.intro hlft hrig
  · intro h
    exact ⟨0, by simpa using h⟩

include hper hl hl' hr ht ht' in
theorem exists_turn_around_iff :
    (∃ k : ℤ, tl ≤ t + period * k ∧ t + period * k ≤ tr + period) ↔ tl ≤ t ∨ t ≤ tr := by
  constructor
  · intro h
    obtain ⟨k, hlft, hrig⟩ := h
    by_cases hk : k = 0
    · rw [hk] at hlft
      exact .inl (by simpa using hlft)
    · have hpos : 0 ≤ k := turns_nonneg hper ht' hl hlft
      have hone : (1 : α) ≤ k := by exact_mod_cast (by omega : (1 : ℤ) ≤ k)
      have hstp : period * 1 ≤ period * k := by gcongr
      exact .inr (by linarith)
  · intro h
    cases h with
    | inl hlft => exact ⟨0, by simpa using hlft, by simp; linarith⟩
    | inr hrig => exact ⟨1, by simp; linarith, by simpa using hrig⟩

include hper hl hl' hr hr' ht ht' in
theorem onArc_iff {a b c : ℤ} (htrn : |tr + period * b - (tl + period * a)| ≤ period) :
    OnArc period (tl + period * a) (tr + period * b) (t + period * c) ↔
      tr + period * b - (tl + period * a) = period ∨ Span tl tr t := by
  obtain ⟨hlow, hhgh⟩ := abs_le.mp htrn
  -- The end of the arc, in turns after the one of its start.
  obtain ⟨d, hd⟩ : ∃ d : ℤ, (if tl + period * a ≤ tr + period * b then tr + period * b
      else tr + period * b + period) = tr + period * a + period * d := by
    split
    · exact ⟨b - a, by push_cast; ring⟩
    · exact ⟨b - a + 1, by push_cast; ring⟩
  have hshi : OnArc period (tl + period * a) (tr + period * b) (t + period * c) ↔
      ∃ k : ℤ, tl ≤ t + period * k ∧ t + period * k ≤ tr + period * d := by
    unfold OnArc
    rw [hd]
    constructor
    · intro h
      obtain ⟨k, hlft, hrig⟩ := h
      exact ⟨c + k - a, by push_cast; linarith, by push_cast; linarith⟩
    · intro h
      obtain ⟨k, hlft, hrig⟩ := h
      exact ⟨k + a - c, by push_cast; linarith, by push_cast; linarith⟩
  have hend : 0 ≤ tr - tl + period * d ∧ tr - tl + period * d ≤ period ∧
      (tr + period * b - (tl + period * a) = period ↔ tr - tl + period * d = period) := by
    split at hd
    · exact ⟨by linarith, by linarith, by constructor <;> intro h <;> linarith⟩
    · exact ⟨by linarith, by linarith, by constructor <;> intro h <;> linarith⟩
  obtain ⟨hsta, hlen, hwho⟩ := hend
  have hd0 : 0 ≤ d := turns_nonneg hper hr' hl (by linarith)
  have hd1 : d - 1 ≤ 0 := by
    apply turns_nonpos hper hr hl'
    push_cast
    linarith
  rw [hshi, hwho]
  obtain rfl | rfl : d = 0 ∨ d = 1 := by omega
  · have hle : tl ≤ tr := by simpa using hsta
    have hprt : ¬ tr - tl + period * ((0 : ℤ) : α) = period := by
      intro h
      rw [Int.cast_zero, mul_zero] at h
      linarith
    rw [or_iff_right hprt, span_of_le hle, ← exists_turn_iff hper hl hr' ht ht']
    simp
  · have haro : (∃ k : ℤ, tl ≤ t + period * k ∧ t + period * k ≤ tr + period * ((1 : ℤ) : α)) ↔
        tl ≤ t ∨ t ≤ tr := by
      rw [← exists_turn_around_iff hper hl hl' hr ht ht', Int.cast_one, mul_one]
    rw [haro]
    by_cases hle : tl ≤ tr
    · -- The ends are the same, and the arc is the whole circle.
      have heq : tr - tl + period * ((1 : ℤ) : α) = period := by
        rw [Int.cast_one, mul_one] at hlen ⊢
        linarith
      have hall : tl ≤ t ∨ t ≤ tr := (le_total tl t).imp_right fun h => h.trans hle
      exact ⟨fun _ => .inl heq, fun _ => hall⟩
    · have hprt : ¬ tr - tl + period * ((1 : ℤ) : α) = period := by
        intro h
        rw [Int.cast_one, mul_one] at h
        exact hle (by linarith)
      rw [or_iff_right hprt, span_of_not_le hle]

end

end

end Bes.Lib.Ring
