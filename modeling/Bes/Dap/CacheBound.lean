import Bes.Dap.ObjMemCache

/-! How many objects `ObjMemCache` holds. What `purge` removes is a truncated product, so a small fraction
of a small cache removes nothing. -/
namespace Bes.Dap
open Dispatch Lib List

variable {α : Type*}

def Fraction.exact (fraction : ℚ) : Fraction where
  product := fun count => ⌊count * fraction⌋.toNat

theorem Fraction.product_exact_eq_zero_iff (fraction : ℚ) (count : Nat) :
    (Fraction.exact fraction).product count = 0 ↔ count * fraction < 1 := by
  unfold Fraction.exact
  rw [Int.toNat_eq_zero, ← Int.lt_add_one_iff, zero_add, Int.floor_lt]
  norm_num

def Op.isPurge : Op α → Bool
  | .add _ _ => false
  | .get _ => false
  | .remove _ => false
  | .purge _ => true

def BoundedAfterAdds (α : Type*) (entriesThreshold : Nat) (purgeThreshold : Fraction) : Prop :=
  ∀ (ops : List (Op α)) (obj : α) (key : Str), (∀ op ∈ ops, op.isPurge = false) →
    (ops ++ [Op.add obj key]).length < 2 ^ 32 →
    (ObjMemCache.new entriesThreshold purgeThreshold).AddsAbsent (ops ++ [Op.add obj key]) →
    ∃ mem, (ObjMemCache.new entriesThreshold purgeThreshold).run (ops ++ [Op.add obj key]) = .ok mem
      ∧ mem.cache.size ≤ entriesThreshold + 1

section

variable {entriesThreshold : Nat} {purgeThreshold : Fraction} {lru : Lru Str α}

theorem length_touch_le (lru : Lru Str α) (key : Str) (obj : α) :
    (lru.touch key obj).uses.length ≤ lru.uses.length + 1 := by
  have hfil := length_filter_le (fun use => decide (use.key ≠ key)) lru.uses
  unfold Lru.touch Lru.remove Lru.keep
  simp only [length_append, length_singleton]
  omega

theorem length_touch_of_find (hfound : lru.find key = some held) :
    (lru.touch key obj).uses.length ≤ lru.uses.length := by
  obtain ⟨use, huse, heq⟩ := mem_map.mp (Lru.find_eq_some_iff.mp hfound)
  have hkey : use.key = key := (Prod.mk.inj heq).1
  have hlt : (lru.uses.filter fun use => decide (use.key ≠ key)).length < lru.uses.length := by
    apply length_filter_lt_length_iff_exists.mpr
    exact ⟨use, huse, by simp [hkey]⟩
  unfold Lru.touch Lru.remove Lru.keep
  simp only [length_append, length_singleton]
  omega

theorem length_lruKept (entriesThreshold : Nat) (purgeThreshold : Fraction) (lru : Lru Str α) :
    (lruKept entriesThreshold purgeThreshold lru).uses.length =
      if entriesThreshold ≠ 0 ∧ entriesThreshold < lru.uses.length then
        lru.uses.length - purgeThreshold.product lru.uses.length
      else lru.uses.length := by
  unfold lruKept
  split
  · rw [Lru.uses_evict, length_drop]
  · rfl

theorem length_lruStep_le (op : Op α) (hop : ∀ obj key, op ≠ .add obj key) :
    (lruStep entriesThreshold purgeThreshold lru op).uses.length ≤ lru.uses.length := by
  cases op with
  | add obj key => exact absurd rfl (hop obj key)
  | get key =>
    unfold lruStep
    dsimp only
    split
    · exact le_rfl
    next obj hfound =>
      exact length_touch_of_find hfound
  | remove key => exact length_filter_le _ _
  | purge fraction =>
    exact length_filter_le _ _

theorem length_lruStep_le_threshold (hthr : 0 < entriesThreshold)
    (hrem : 0 < purgeThreshold.product (entriesThreshold + 1))
    (hlen : lru.uses.length ≤ entriesThreshold + 1) (op : Op α) :
    (lruStep entriesThreshold purgeThreshold lru op).uses.length ≤ entriesThreshold + 1 := by
  cases op with
  | add obj key =>
    have htou := length_touch_le (lruKept entriesThreshold purgeThreshold lru) key obj
    have hkept := length_lruKept entriesThreshold purgeThreshold lru
    dsimp only [lruStep]
    split at hkept
    next hovr =>
      have hfill : lru.uses.length = entriesThreshold + 1 := by omega
      rw [hfill] at hkept
      omega
    · omega
  | get key =>
    exact (length_lruStep_le (.get key) (by simp)).trans hlen
  | remove key =>
    exact (length_lruStep_le (.remove key) (by simp)).trans hlen
  | purge fraction =>
    exact (length_lruStep_le (.purge fraction) (by simp)).trans hlen

theorem length_lruRun_le_threshold (hthr : 0 < entriesThreshold)
    (hrem : 0 < purgeThreshold.product (entriesThreshold + 1)) (ops : List (Op α)) :
    (lruRun entriesThreshold purgeThreshold ops).uses.length ≤ entriesThreshold + 1 := by
  induction ops using reverseRecOn with
  | nil => exact Nat.zero_le _
  | append_singleton ops op ih =>
    unfold lruRun at ih ⊢
    rw [foldl_append]
    exact length_lruStep_le_threshold hthr hrem ih op

theorem length_lruRun_le (entriesThreshold : Nat) (purgeThreshold : Fraction) (ops : List (Op α)) :
    (lruRun entriesThreshold purgeThreshold ops).uses.length ≤ ops.length := by
  induction ops using reverseRecOn with
  | nil => exact Nat.zero_le _
  | append_singleton ops op ih =>
    unfold lruRun at ih ⊢
    rw [foldl_append, length_append, length_singleton, foldl_cons, foldl_nil]
    cases op with
    | add obj key =>
      have htou := length_touch_le (lruKept entriesThreshold purgeThreshold
        (ops.foldl (lruStep entriesThreshold purgeThreshold) .empty)) key obj
      have hkept := length_lruKept entriesThreshold purgeThreshold
        (ops.foldl (lruStep entriesThreshold purgeThreshold) .empty)
      dsimp only [lruStep]
      split at hkept <;> omega
    | get key => exact ((length_lruStep_le (.get key) (by simp)).trans ih).trans (Nat.le_succ _)
    | remove key => exact ((length_lruStep_le (.remove key) (by simp)).trans ih).trans (Nat.le_succ _)
    | purge fraction => exact ((length_lruStep_le (.purge fraction) (by simp)).trans ih).trans (Nat.le_succ _)

end

namespace ObjMemCache

theorem addsAbsent_append (mem : ObjMemCache α) (ops more : List (Op α)) :
    mem.AddsAbsent (ops ++ more) ↔
      mem.AddsAbsent ops ∧ ∀ next, mem.run ops = .ok next → next.AddsAbsent more := by
  induction ops generalizing mem with
  | nil => simp [AddsAbsent, run]
  | cons op ops ih =>
    rw [cons_append, AddsAbsent, AddsAbsent, run, and_assoc]
    cases mem.step op with
    | error failure => simp
    | ok next => simp [ih next]

end ObjMemCache

def fillKey (i : Nat) : Str := replicate i 'a'

theorem fillKey_injective {i j : Nat} (h : fillKey i = fillKey j) : i = j := by
  have hlen := congrArg length h
  simpa [fillKey] using hlen

def fillOps (obj : α) (count : Nat) : List (Op α) := (range count).map fun i => Op.add obj (fillKey i)

theorem length_fillOps (obj : α) (count : Nat) : (fillOps obj count).length = count := by
  simp [fillOps]

theorem fillOps_succ (obj : α) (count : Nat) :
    fillOps obj (count + 1) = fillOps obj count ++ [Op.add obj (fillKey count)] := by
  simp [fillOps, range_succ]

theorem isPurge_fillOps (obj : α) (count : Nat) : ∀ op ∈ fillOps obj count, op.isPurge = false := by
  intro op hop
  obtain ⟨i, -, rfl⟩ := mem_map.mp hop
  rfl

section

variable {entriesThreshold : Nat} {purgeThreshold : Fraction}

section

variable (hkeeps : purgeThreshold.product (entriesThreshold + 1) = 0) (obj : α) {count : Nat}

include hkeeps

theorem contents_fill (hcnt : count ≤ entriesThreshold + 2) :
    (lruRun entriesThreshold purgeThreshold (fillOps obj count)).contents =
      (range count).map fun i => (fillKey i, obj) := by
  induction count with
  | zero => rfl
  | succ count ih =>
    have hcon := ih (by omega)
    have hlen : (lruRun entriesThreshold purgeThreshold (fillOps obj count)).uses.length = count := by
      have hsame := congrArg length hcon
      simpa [Lru.contents] using hsame
    have hkept : (lruKept entriesThreshold purgeThreshold
        (lruRun entriesThreshold purgeThreshold (fillOps obj count))).contents =
        (lruRun entriesThreshold purgeThreshold (fillOps obj count)).contents := by
      unfold lruKept
      split
      next hovr =>
        have hfill : count = entriesThreshold + 1 := by omega
        rw [Lru.contents_evict, hlen, hfill, hkeeps, drop_zero]
      · rfl
    have hfil : (((range count).map fun i => (fillKey i, obj)).filter
        fun entry => decide (entry.1 ≠ fillKey count)) =
        (range count).map fun i => (fillKey i, obj) := by
      rw [filter_eq_self]
      intro entry hent
      obtain ⟨i, hi, rfl⟩ := mem_map.mp hent
      apply decide_eq_true
      intro heq
      exact absurd (fillKey_injective heq) (mem_range.mp hi).ne
    have hrun : lruRun entriesThreshold purgeThreshold (fillOps obj (count + 1)) =
        (lruKept entriesThreshold purgeThreshold
          (lruRun entriesThreshold purgeThreshold (fillOps obj count))).touch (fillKey count) obj := by
      unfold lruRun
      rw [fillOps_succ, foldl_append]
      rfl
    rw [hrun, Lru.contents_touch, hkept, hcon, hfil, range_succ, map_append, map_singleton]

theorem addsAbsent_fill (hcnt : count ≤ entriesThreshold + 2) (hcal : count < 2 ^ 32) :
    (ObjMemCache.new entriesThreshold purgeThreshold).AddsAbsent (fillOps obj count) := by
  induction count with
  | zero => trivial
  | succ count ih =>
    have habs := ih (by omega) (by omega)
    rw [fillOps_succ, ObjMemCache.addsAbsent_append]
    refine ⟨habs, ?_⟩
    intro mem hmem
    obtain ⟨next, hrun, hrep⟩ := (Represents.new entriesThreshold purgeThreshold).run
      (fillOps obj count) (by rw [length_fillOps]; exact (Nat.zero_add _).trans_lt (by omega)) habs
    obtain rfl : next = mem := Except.ok.inj (hrun.symm.trans hmem)
    have hcon := contents_fill hkeeps obj (Nat.le_of_succ_le hcnt)
    unfold lruRun at hcon
    refine ⟨hrep.holds.find_eq_none_iff.mpr ?_, ?_⟩
    · rw [hcon]
      intro entry hent heq
      obtain ⟨i, hi, rfl⟩ := mem_map.mp hent
      exact absurd (fillKey_injective heq) (mem_range.mp hi).ne
    · split <;> trivial

theorem size_fill (hcnt : count ≤ entriesThreshold + 2) (hcal : count < 2 ^ 32) :
    ∃ mem, (ObjMemCache.new entriesThreshold purgeThreshold).run (fillOps obj count) = .ok mem ∧
      mem.cache.size = count := by
  obtain ⟨mem, hrun, hrep⟩ := (Represents.new entriesThreshold purgeThreshold).run
    (fillOps obj count) (by rw [length_fillOps]; exact (Nat.zero_add _).trans_lt hcal)
    (addsAbsent_fill hkeeps obj hcnt hcal)
  have hlen := congrArg length (contents_fill hkeeps obj hcnt)
  refine ⟨mem, hrun, ?_⟩
  rw [hrep.size_eq]
  simpa [Lru.contents, lruRun] using hlen

end

theorem not_bounded_of_keeps (hkeeps : purgeThreshold.product (entriesThreshold + 1) = 0) (obj : α)
    (hcal : entriesThreshold + 2 < 2 ^ 32) :
    ¬ BoundedAfterAdds α entriesThreshold purgeThreshold := by
  intro hbou
  have hops := fillOps_succ obj (entriesThreshold + 1)
  have habs := addsAbsent_fill hkeeps obj le_rfl hcal
  rw [hops] at habs
  obtain ⟨mem, hrun, hle⟩ := hbou (fillOps obj (entriesThreshold + 1)) obj _
    (isPurge_fillOps obj _) (by simpa [length_fillOps] using hcal) habs
  obtain ⟨filled, hfill, hsize⟩ := size_fill hkeeps obj le_rfl hcal
  rw [hops, hrun] at hfill
  obtain rfl := Except.ok.inj hfill
  omega

end

/-- The cache is bounded just when the fraction of one entry too many is a whole entry, or no run is long
enough to fill it. -/
theorem boundedAfterAdds_iff (obj : α) {entriesThreshold : Nat} (hthreshold : 1 ≤ entriesThreshold)
    (fraction : ℚ) :
    BoundedAfterAdds α entriesThreshold (.exact fraction) ↔
      1 ≤ ((entriesThreshold + 1 : Nat) : ℚ) * fraction ∨ 2 ^ 32 ≤ entriesThreshold + 2 := by
  constructor
  · intro hbou
    by_contra hnot
    rw [not_or, not_le, not_le] at hnot
    exact not_bounded_of_keeps ((Fraction.product_exact_eq_zero_iff fraction _).mpr hnot.1) obj hnot.2
      hbou
  · intro hcase ops call key _ hlen habs
    obtain ⟨mem, hrun, hrep⟩ := (Represents.new entriesThreshold (.exact fraction)).run
      (ops ++ [Op.add call key]) ((Nat.zero_add _).trans_lt hlen) habs
    refine ⟨mem, hrun, ?_⟩
    rw [hrep.size_eq]
    cases hcase with
    | inl hfraction =>
      have hrem : 0 < (Fraction.exact fraction).product (entriesThreshold + 1) := by
        rw [Nat.pos_iff_ne_zero, Ne, Fraction.product_exact_eq_zero_iff, not_lt]
        exact hfraction
      exact length_lruRun_le_threshold hthreshold hrem _
    | inr hlarge =>
      have hle := length_lruRun_le entriesThreshold (.exact fraction) (ops ++ [Op.add call key])
      unfold lruRun at hle
      omega

theorem boundedAfterAdds_fifth : 1 ≤ 4 ∧ BoundedAfterAdds Nat 4 (.exact (1 / 5)) :=
  ⟨by decide, (boundedAfterAdds_iff 0 (by decide) (1 / 5)).mpr (.inl (by norm_num))⟩

/-- A fifth of two is no entry: with a threshold of one, a third object stays. -/
theorem threeObjects_stay : (ObjMemCache.new 1 (.exact (1 / 5))).AddsAbsent (fillOps 0 3) ∧
      (∃ mem : ObjMemCache Nat, (ObjMemCache.new 1 (.exact (1 / 5))).run (fillOps 0 3) = .ok mem ∧
        mem.cache.size = 3) ∧
      ¬ BoundedAfterAdds Nat 1 (.exact (1 / 5)) := by
  have hkeeps : (Fraction.exact (1 / 5)).product (1 + 1) = 0 := by
    rw [Fraction.product_exact_eq_zero_iff]
    norm_num
  exact ⟨addsAbsent_fill hkeeps 0 (by decide) (by decide), size_fill hkeeps 0 (by decide) (by decide),
    not_bounded_of_keeps hkeeps 0 (by decide)⟩

end Bes.Dap
