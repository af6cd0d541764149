import Mathlib

/-! A store in which the first value of a key stays. -/
namespace Bes.Lib.WriteOnce

variable {κ ν : Type*} [DecidableEq κ]

abbrev Store (κ ν : Type*) := κ → Option ν

def put (store : Store κ ν) (key : κ) (value : ν) : Store κ ν :=
  if (store key).isSome then store else Function.update store key (some value)

def putAll (store : Store κ ν) (entries : List (κ × ν)) : Store κ ν :=
  entries.foldl (fun store entry => put store entry.1 entry.2) store

theorem put_of_some {key : κ} (hold : store key = some old)
    (value : ν) : put store key value = store := by
  rw [put, hold, if_pos Option.isSome_some]

theorem put_of_none {key : κ} (hnon : store key = none) (value : ν) :
    put store key value = Function.update store key (some value) := by
  rw [put, hnon, if_neg (by simp)]

theorem put_self (store : Store κ ν) (key : κ) (value : ν) :
    put store key value key = (store key).or (some value) := by
  cases hkey : store key with
  | none => rw [put_of_none hkey, Function.update_self, Option.none_or]
  | some old => rw [put_of_some hkey, hkey, Option.some_or]

theorem put_of_ne {other : κ} (hne : key ≠ other) (value : ν) :
    put store other value key = store key := by
  cases hoth : store other with
  | none => rw [put_of_none hoth, Function.update_of_ne hne]
  | some old => rw [put_of_some hoth]

theorem putAll_apply (store : Store κ ν) (entries : List (κ × ν)) (key : κ) : putAll store entries key
      = (store key).or ((entries.find? fun entry => decide (entry.1 = key)).map Prod.snd) := by
  induction entries generalizing store with
  | nil => exact (Option.or_none).symm
  | cons entry entries ih =>
    change putAll (put store entry.1 entry.2) entries key = _
    rw [ih, List.find?_cons]
    by_cases hkey : entry.1 = key
    · subst hkey
      rw [put_self, decide_eq_true rfl, Option.map_some]
      cases store entry.1 <;> rfl
    · rw [put_of_ne (Ne.symm hkey), decide_eq_false hkey]

end Bes.Lib.WriteOnce
