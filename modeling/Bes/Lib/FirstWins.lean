import Mathlib

/-! Lists that are extended by elements with new keys only: of several elements with one key the
first one wins. -/
namespace Bes.Lib.FirstWins
open List

variable {α κ : Type} [DecidableEq κ] (key : α → κ)

def addAbsent (out : List α) (x : α) : List α :=
  if key x ∈ out.map key then out else out ++ [x]

/-- The elements whose key occurs neither in `out` nor at an earlier place. -/
def firsts (out xs : List α) : List α :=
  (xs.zipIdx.filter fun place => key place.1 ∉ (out ++ xs.take place.2).map key).map Prod.fst

theorem firsts_concat (out xs : List α) (x : α) : firsts key out (xs ++ [x]) =
      firsts key out xs ++ if key x ∈ (out ++ xs).map key then [] else [x] := by
  have hbef : ∀ place ∈ xs.zipIdx, (xs ++ [x]).take place.2 = xs.take place.2 := by
    intro place hpla
    have hlt := (mem_zipIdx hpla).2.1
    exact take_append_of_le_length (by omega)
  rw [firsts, zipIdx_append, filter_append, map_append, filter_congr
    fun place hpla => by rw [hbef place hpla], ← firsts]
  by_cases hx : key x ∈ (out ++ xs).map key <;>
    simp only [zipIdx_singleton, filter_cons, zero_add, take_left, hx] <;> simp

theorem mem_keys_addAbsent (out : List α) (x : α) (k : κ) :
    k ∈ (addAbsent key out x).map key ↔ k ∈ out.map key ∨ k = key x := by
  rw [addAbsent]
  split
  · next hx => exact ⟨.inl, fun hk => hk.elim id fun heq => heq ▸ hx⟩
  · rw [map_append, mem_append, map_singleton, mem_singleton]

theorem mem_keys_foldl (out xs : List α) (k : κ) :
    k ∈ (xs.foldl (addAbsent key) out).map key ↔ k ∈ (out ++ xs).map key := by
  induction xs generalizing out with
  | nil => simp
  | cons x xs ih =>
    rw [foldl_cons, ih, map_append, mem_append, mem_keys_addAbsent, map_append, mem_append,
      map_cons, mem_cons, or_assoc]

theorem foldl_addAbsent (out xs : List α) : xs.foldl (addAbsent key) out = out ++ firsts key out xs := by
  induction xs using reverseRecOn with
  | nil => simp [firsts]
  | append_singleton xs x ih =>
    simp only [foldl_append, foldl_cons, foldl_nil, addAbsent, firsts_concat, mem_keys_foldl]
    rw [ih]
    split <;> simp

theorem foldl_addAbsent_of_mem {xs : List α} (hxs : ∀ x ∈ xs, key x ∈ out.map key) :
    xs.foldl (addAbsent key) out = out := by
  induction xs with
  | nil => rfl
  | cons x xs ih =>
    rw [foldl_cons, addAbsent, if_pos (hxs x mem_cons_self)]
    exact ih fun y hy => hxs y (mem_cons_of_mem x hy)

theorem foldl_addAbsent_again (block : β → List α) {again : List β}
    (hsub : again ⊆ before) (out : List α) :
    (again.flatMap block).foldl (addAbsent key) ((before.flatMap block).foldl (addAbsent key) out) =
      (before.flatMap block).foldl (addAbsent key) out := by
  apply foldl_addAbsent_of_mem
  intro x hx
  obtain ⟨b, hb, hx⟩ := mem_flatMap.mp hx
  rw [mem_keys_foldl]
  exact mem_map_of_mem (mem_append_right out (mem_flatMap_of_mem (hsub hb) hx))

end Bes.Lib.FirstWins
