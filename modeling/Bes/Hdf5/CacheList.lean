import Bes.Dispatch.Util

/-! `HDF5BaseArray::check_var_cache_files`. -/
namespace Bes.Hdf5.CacheList
open Dispatch List

def npos : Nat := 2 ^ 64 - 1

/-- The difference of two sizes as a `size_t`. -/
def sizeSub (m n : Nat) : Nat := (m + 2 ^ 64 - n) % 2 ^ 64

def rfindFrom (text sub : Str) : Nat → Nat
  | 0 => if sub <+: text then 0 else npos
  | p + 1 => if sub <+: text.drop (p + 1) then p + 1 else rfindFrom text sub p

def rfind (text sub : Str) : Nat :=
  if sub.length ≤ text.length then rfindFrom text sub (text.length - sub.length) else npos

def fullpath (fname varname : Str) : Str :=
  if fname.getLast? = some '/' then
    if varname.head? ≠ some '/' then fname ++ varname else fname.dropLast ++ varname
  else if varname.head? ≠ some '/' then fname ++ '/' :: varname else fname ++ varname

def checkVarCacheFiles (slist : List Str) (fname varname : Str) : Bool :=
  if fname = [] ∨ varname = [] then false
  else slist.any fun entry => decide (rfind (fullpath fname varname) entry =
    sizeSub (fullpath fname varname).length entry.length)

/-- Names that are not empty, and strings that fit into `std::string`. -/
structure Query where
  slist : List Str
  fname : Str
  varname : Str
  fname_ne : fname ≠ []
  varname_ne : varname ≠ []
  length_lt : fname.length + varname.length + 1 < 2 ^ 63
  slist_lt : ∀ entry ∈ slist, entry.length < 2 ^ 63

def Query.path (query : Query) : Str :=
  (if query.fname.getLast? = some '/' then query.fname.dropLast else query.fname) ++
    '/' :: (if query.varname.head? = some '/' then query.varname.tail else query.varname)

def Query.listed (query : Query) : Bool :=
  checkVarCacheFiles query.slist query.fname query.varname

theorem rfindFrom_le (text sub : Str) : ∀ p, rfindFrom text sub p ≤ p ∨ rfindFrom text sub p = npos
  | 0 => by
    unfold rfindFrom
    split <;> simp
  | p + 1 => by
    have := rfindFrom_le text sub p
    unfold rfindFrom
    split <;> omega

theorem rfindFrom_eq_self_iff (hp : p < npos) : rfindFrom text sub p = p ↔ sub <+: text.drop p := by
  cases p with
  | zero =>
    unfold rfindFrom
    split <;> simp_all [npos]
  | succ p =>
    have hle := rfindFrom_le text sub p
    unfold rfindFrom
    split
    · simp [*]
    · simp only [*, iff_false]
      omega

theorem prefix_drop_iff_suffix {text sub : Str} (h : sub.length ≤ text.length) :
    sub <+: text.drop (text.length - sub.length) ↔ sub <:+ text := by
  rw [suffix_iff_eq_drop]
  refine ⟨fun hpre => hpre.eq_of_length ?_, fun heq => heq ▸ prefix_rfl⟩
  rw [length_drop]
  omega

theorem rfind_eq_sizeSub_iff {text sub : Str} (ht : text.length < 2 ^ 63) (hs : sub.length < 2 ^ 63) :
    rfind text sub = sizeSub text.length sub.length ↔ sub <:+ text ∨ sub.length = text.length + 1 := by
  unfold rfind sizeSub
  split
  · next hle =>
    have hsub : (text.length + 2 ^ 64 - sub.length) % 2 ^ 64 = text.length - sub.length := by omega
    rw [hsub, rfindFrom_eq_self_iff (by unfold npos; omega), prefix_drop_iff_suffix hle]
    exact ⟨.inl, fun h => h.resolve_right (by omega)⟩
  · next hlt =>
    -- The difference wraps around: it is `npos` if it is minus one.
    have hno : ¬ sub <:+ text := fun h => hlt h.length_le
    simp only [hno, false_or]
    unfold npos
    omega

theorem Query.path_eq (query : Query) : query.path = fullpath query.fname query.varname := by
  unfold Query.path fullpath
  by_cases hf : query.fname.getLast? = some '/' <;> by_cases hv : query.varname.head? = some '/' <;>
    simp only [hf, hv, if_true, if_false, ne_eq, not_true, not_false_iff]
  · rw [cons_head?_tail hv]
  · rw [append_cons, dropLast_append_getLast? '/' hf]
  · rw [cons_head?_tail hv]

theorem Query.length_path (query : Query) : query.path.length < 2 ^ 63 := by
  have := query.length_lt
  unfold Query.path
  split <;> split <;> simp <;> omega

theorem Query.listed_iff (query : Query) : query.listed = true ↔
      ∃ entry ∈ query.slist, entry <:+ query.path ∨ entry.length = query.path.length + 1 := by
  unfold Query.listed checkVarCacheFiles
  rw [if_neg (by simp [query.fname_ne, query.varname_ne]), ← query.path_eq]
  simp only [any_eq_true, decide_eq_true_eq]
  refine exists_congr fun entry => and_congr_right fun hmem => ?_
  exact rfind_eq_sizeSub_iff query.length_path (query.slist_lt entry hmem)

/-- The answer is right exactly if an entry is a suffix, or none is longer than the path by one. -/
theorem Query.listed_right_iff (query : Query) :
    (query.listed = true ↔ ∃ entry ∈ query.slist, entry <:+ query.path) ↔
      (∃ entry ∈ query.slist, entry <:+ query.path) ∨
        ∀ entry ∈ query.slist, entry.length ≠ query.path.length + 1 := by
  rw [query.listed_iff]
  grind

def longEntry : Query where
  slist := ["abcd".toList]
  fname := "a".toList
  varname := "b".toList
  fname_ne := cons_ne_nil _ _
  varname_ne := cons_ne_nil _ _
  length_lt := by decide
  slist_lt := by simp

theorem longEntry_listed :
    longEntry.listed = true ∧ ¬ ∃ entry ∈ longEntry.slist, entry <:+ longEntry.path := by
  decide

end Bes.Hdf5.CacheList
