import Bes.Dispatch.Util
import Bes.Lib.Find

/-! `BESUtil::normalize_path`. -/
namespace Bes.Dispatch.NormalizePath
open Lib.Find List

variable {sep : Char}

theorem length_replaced {p : Nat} (h : find path [sep, sep] pos = some p) :
    (path.take p ++ [sep] ++ path.drop (p + 2)).length < path.length := by
  have hle : p + 2 ≤ path.length := (find_eq_some (cons_ne_nil _ _) h).2
  simp only [length_append, length_take, length_drop, length_singleton]
  omega

/-- The loop of `replace_all` for a doubled separator. The search goes on behind the replacement. -/
def replaceAll (sep : Char) (path : Str) (pos : Nat) : Str :=
  match _h : find path [sep, sep] pos with
  | none => path
  | some p => replaceAll sep (path.take p ++ [sep] ++ path.drop (p + 2)) (p + 1)
termination_by path.length
decreasing_by exact length_replaced _h

def setLeading (sep : Char) (leading : Bool) (path : Str) : Str :=
  if leading then if path.head? ≠ some sep then sep :: path else path
  else if path.head? = some sep then path.drop 1 else path

def setTrailing (sep : Char) (trailing : Bool) (path : Str) : Str :=
  if trailing then if path.getLast? ≠ some sep then path ++ [sep] else path
  else if path.getLast? = some sep then path.dropLast else path

def normalizePath (rawPath : Str) (leading trailing : Bool) : Str → Option Str
  | [sep] =>
    let path := replaceAll sep rawPath 0
    let path := if path = [] then [sep] else path
    if path = [sep] then some path
    else some (setTrailing sep trailing (setLeading sep leading path))
  | _ => none

def parts (sep : Char) (path : Str) : List Str :=
  (path.splitOn sep).filter fun part => decide (part ≠ [])

structure Normal (sep : Char) (leading trailing : Bool) (rawPath path : Str) : Prop where
  single : ¬ [sep, sep] <:+: path
  ends : path = [sep] ∨ (path.head? = some sep ↔ leading) ∧ (path.getLast? = some sep ↔ trailing)
  same_parts : parts sep path = parts sep rawPath
  stable : normalizePath path leading trailing [sep] = some path

def collapse (sep : Char) : Str → Str
  | [] => []
  | [c] => [c]
  | c :: d :: path =>
    if c = sep ∧ d = sep then sep :: collapse sep path else c :: collapse sep (d :: path)

theorem pair_prefix_iff {c : Char} : [sep, sep] <+: c :: path ↔ c = sep ∧ path.head? = some sep := by
  cases path <;> simp [cons_prefix_cons, eq_comm]

theorem replaceAll_eq (path : Str) (pos : Nat) :
    replaceAll sep path pos = match find path [sep, sep] pos with
      | none => path
      | some p => replaceAll sep (path.take p ++ [sep] ++ path.drop (p + 2)) (p + 1) := by
  conv_lhs => rw [replaceAll]
  split <;> simp_all

theorem replaceAll_skip {c : Char} (hnot : ¬ [sep, sep] <+: c :: path) :
    replaceAll sep (front ++ c :: path) front.length =
      replaceAll sep ((front ++ [c]) ++ path) (front ++ [c]).length := by
  have hfound : find (front ++ c :: path) [sep, sep] front.length =
      find (front ++ c :: path) [sep, sep] (front ++ [c]).length := by
    rw [find_append_length, firstAt_cons_of_not hnot, append_cons, find_append_length]
    simp [Function.comp_def, add_assoc]
  rw [replaceAll_eq, hfound, ← replaceAll_eq, append_cons]

theorem replaceAll_append (front path : Str) :
    replaceAll sep (front ++ path) front.length = front ++ collapse sep path := by
  induction path using collapse.induct sep generalizing front with
  | case1 =>
    rw [replaceAll_eq, find_append_length]
    rfl
  | case2 c =>
    rw [replaceAll_skip (by simp), replaceAll_eq, find_append_length]
    simp [firstAt, collapse]
  | case3 c d path hboth ih =>
    have hrest := ih (front ++ [sep])
    rw [hboth.1, hboth.2, replaceAll_eq, find_append_length,
      firstAt_of_prefix (pair_prefix_iff.mpr ⟨rfl, rfl⟩)]
    simp_all [collapse]
  | case4 c d path hnot ih =>
    rw [replaceAll_skip (by rwa [pair_prefix_iff, head?_cons, Option.some.injEq]), ih, collapse, if_neg hnot, append_assoc]
    rfl

theorem replaceAll_zero (path : Str) : replaceAll sep path 0 = collapse sep path :=
  replaceAll_append [] path

theorem head?_collapse (path : Str) : (collapse sep path).head? = path.head? := by
  induction path using collapse.induct sep with
  | case1 | case2 => rfl
  | case3 c d path hboth ih => simp [collapse, hboth]
  | case4 c d path hnot ih => simp [collapse, hnot]

theorem parts_append (first second : Str) :
    parts sep (first ++ sep :: second) = parts sep first ++ parts sep second := by
  rw [parts, splitOn_append_cons_self, filter_append]
  rfl

theorem parts_sep (path : Str) : parts sep (sep :: path) = parts sep path := parts_append [] path

theorem parts_collapse (front path : Str) :
    parts sep (front ++ collapse sep path) = parts sep (front ++ path) := by
  induction path using collapse.induct sep generalizing front with
  | case1 | case2 => rfl
  | case3 c d path hboth ih =>
    rw [collapse, if_pos hboth, hboth.1, hboth.2, parts_append, parts_append, parts_sep]
    exact congrArg _ (ih [])
  | case4 c d path hnot ih =>
    rw [collapse, if_neg hnot, append_cons, ih, ← append_cons]

theorem collapse_of_single (h : ¬ [sep, sep] <:+: path) : collapse sep path = path := by
  induction path using collapse.induct sep with
  | case1 | case2 => rfl
  | case3 c d path hboth ih => exact absurd (by simp [infix_cons_iff, hboth, cons_prefix_cons]) h
  | case4 c d path hnot ih =>
    rw [collapse, if_neg hnot, ih fun hin => h (hin.trans (suffix_cons c _).isInfix)]

theorem triple_infix_iff {c : Char} : [sep, sep, sep] <:+: c :: d :: path ↔
      (c = sep ∧ d = sep ∧ path.head? = some sep) ∨ [sep, sep, sep] <:+: d :: path := by
  rw [infix_cons_iff, cons_prefix_cons, pair_prefix_iff, eq_comm]

/-- Two separators in succession are left exactly of three or more. -/
theorem double_collapse_iff (path : Str) :
    [sep, sep] <:+: collapse sep path ↔ [sep, sep, sep] <:+: path := by
  induction path using collapse.induct sep with
  | case1 | case2 => simp [collapse, infix_cons_iff]
  | case3 c d path hboth ih =>
    rw [collapse, if_pos hboth, infix_cons_iff, ih, pair_prefix_iff, head?_collapse, triple_infix_iff]
    cases path with
    | nil => simp [infix_cons_iff]
    | cons e path =>
      rw [triple_infix_iff, head?_cons, Option.some.injEq]
      tauto
  | case4 c d path hnot ih =>
    rw [collapse, if_neg hnot, infix_cons_iff, ih, pair_prefix_iff, head?_collapse,
      triple_infix_iff, head?_cons, Option.some.injEq]
    tauto

structure Proper (sep : Char) (path : Str) : Prop where
  single : ¬ [sep, sep] <:+: path
  ne_nil : path ≠ []
  ne_sep : path ≠ [sep]

theorem Proper.reverse (h : Proper sep path) : Proper sep path.reverse := by
  refine ⟨fun hin => h.single ?_, by simpa using h.ne_nil, fun heq => h.ne_sep ?_⟩
  · rwa [← reverse_infix]
  · simpa using congrArg List.reverse heq

theorem setTrailing_eq (trailing : Bool) (path : Str) :
    setTrailing sep trailing path = (setLeading sep trailing path.reverse).reverse := by
  unfold setTrailing setLeading
  rw [head?_reverse]
  split <;> split <;> simp

theorem setLeading_spec (h : Proper sep path) (leading : Bool) :
    Proper sep (setLeading sep leading path) ∧
      ((setLeading sep leading path).head? = some sep ↔ leading) ∧
      (setLeading sep leading path).getLast? = path.getLast? := by
  obtain ⟨c, rest, rfl⟩ := exists_cons_of_ne_nil h.ne_nil
  by_cases hc : c = sep
  · cases leading with
    | true => exact ⟨by simpa [setLeading, hc] using h, by simp [setLeading, hc]⟩
    | false =>
      -- What is left does not begin with a separator, since no two of them are in succession.
      have hhead : rest.head? ≠ some sep := fun hh => h.single (pair_prefix_iff.mpr ⟨hc, hh⟩).isInfix
      have hne : rest ≠ [] := fun hnil => h.ne_sep (by rw [hc, hnil])
      obtain ⟨d, rest, rfl⟩ := exists_cons_of_ne_nil hne
      have hset : setLeading sep false (c :: d :: rest) = d :: rest := by simp [setLeading, hc]
      rw [hset]
      refine ⟨⟨fun hin => h.single (infix_cons hin), cons_ne_nil _ _, ?_⟩, by simpa using hhead, ?_⟩
      · rintro heq
        simp [heq] at hhead
      · rw [getLast?_cons_cons]
  · cases leading with
    | true =>
      have hset : setLeading sep true (c :: rest) = sep :: c :: rest := by simp [setLeading, hc]
      rw [hset]
      refine ⟨⟨?_, cons_ne_nil _ _, by simp⟩, by simp, getLast?_cons_cons⟩
      rw [infix_cons_iff, pair_prefix_iff]
      simp [hc, h.single]
    | false =>
      have hset : setLeading sep false (c :: rest) = c :: rest := by simp [setLeading, hc]
      rw [hset]
      exact ⟨h, by simp [hc], rfl⟩

theorem setLeading_of_iff {leading : Bool} (h : path.head? = some sep ↔ leading) :
    setLeading sep leading path = path := by
  cases leading <;> simp_all [setLeading]

theorem parts_setLeading (leading : Bool) (path : Str) :
    parts sep (setLeading sep leading path) = parts sep path := by
  unfold setLeading
  split <;> split
  · exact parts_sep path
  · rfl
  · next hhead =>
    obtain ⟨rest, rfl⟩ := head?_eq_some_iff.mp hhead
    exact (parts_sep rest).symm
  · rfl

theorem parts_concat (path : Str) : parts sep (path ++ [sep]) = parts sep path := by
  rw [parts_append]
  exact append_nil _

theorem parts_setTrailing (trailing : Bool) (path : Str) :
    parts sep (setTrailing sep trailing path) = parts sep path := by
  unfold setTrailing
  split <;> split
  · exact parts_concat path
  · rfl
  · next hlast =>
    obtain ⟨front, rfl⟩ := getLast?_eq_some_iff.mp hlast
    rw [dropLast_concat, parts_concat]
  · rfl

theorem normalizePath_of_proper (h : Proper sep (collapse sep rawPath))
    (leading trailing : Bool) : normalizePath rawPath leading trailing [sep] =
      some (setTrailing sep trailing (setLeading sep leading (collapse sep rawPath))) := by
  simp [normalizePath, replaceAll_zero, h.ne_nil, h.ne_sep]

theorem normal_of_proper (h : Proper sep (collapse sep rawPath)) (leading trailing : Bool) :
    Normal sep leading trailing rawPath
      (setTrailing sep trailing (setLeading sep leading (collapse sep rawPath))) := by
  obtain ⟨hproper, hhead, -⟩ := setLeading_spec h leading
  obtain ⟨hproper', hlast, hfirst⟩ := setLeading_spec hproper.reverse trailing
  rw [← reverse_reverse (setLeading sep trailing _), ← setTrailing_eq] at hproper' hlast hfirst
  rw [head?_reverse] at hlast
  rw [getLast?_reverse, getLast?_reverse] at hfirst
  have hpath := hproper'.reverse
  rw [reverse_reverse] at hpath
  rw [← hfirst] at hhead
  refine ⟨hpath.single, .inr ⟨hhead, hlast⟩, ?_, ?_⟩
  · rw [parts_setTrailing, parts_setLeading]
    exact parts_collapse [] rawPath
  · have hstable := collapse_of_single hpath.single
    rw [normalizePath_of_proper (hstable.symm ▸ hpath), hstable, setLeading_of_iff hhead,
      setTrailing_eq, setLeading_of_iff (by rwa [head?_reverse]), reverse_reverse]

theorem normal_iff (sep : Char) (rawPath : Str) :
    (∀ leading trailing, ∃ path, normalizePath rawPath leading trailing [sep] = some path ∧
      Normal sep leading trailing rawPath path) ↔ ¬ [sep, sep, sep] <:+: rawPath := by
  rw [← double_collapse_iff]
  constructor
  · intro hall hdouble
    obtain ⟨path, hpath, hnormal⟩ := hall true true
    apply hnormal.single
    have hne : collapse sep rawPath ≠ [] ∧ collapse sep rawPath ≠ [sep] := by
      constructor <;> intro heq <;> simp [heq, infix_cons_iff] at hdouble
    have hlead : ∀ path, path <:+: setLeading sep true path := by
      intro path
      rw [setLeading, if_pos rfl]
      split
      · exact (suffix_cons sep path).isInfix
      · exact infix_rfl
    have htrail : ∀ path, path <:+: setTrailing sep true path := by
      intro path
      rw [setTrailing_eq, ← reverse_infix, reverse_reverse]
      exact hlead path.reverse
    simp only [normalizePath, replaceAll_zero, hne, if_false, Option.some.injEq] at hpath
    exact hpath ▸ hdouble.trans ((hlead _).trans (htrail _))
  · intro hsingle leading trailing
    by_cases hproper : Proper sep (collapse sep rawPath)
    · exact ⟨_, normalizePath_of_proper hproper leading trailing,
        normal_of_proper hproper leading trailing⟩
    · have hempty : collapse sep rawPath = [] ∨ collapse sep rawPath = [sep] := by
        by_contra hne
        rw [not_or] at hne
        exact hproper ⟨hsingle, hne.1, hne.2⟩
      have hparts : parts sep [sep] = parts sep rawPath := by
        rw [← nil_append rawPath, ← parts_collapse]
        rcases hempty with heq | heq <;> rw [heq]
        · exact parts_sep []
        · rfl
      refine ⟨[sep], ?_, by simp [infix_cons_iff], .inl rfl, hparts, ?_⟩
      · rcases hempty with heq | heq <;> simp [normalizePath, replaceAll_zero, heq]
      · simp [normalizePath, replaceAll_zero, collapse]

theorem threeSlashes_not_normal : normalizePath "a///b".toList true true ['/'] = some "/a//b/".toList ∧
      ¬ Normal '/' true true "a///b".toList "/a//b/".toList := by
  refine ⟨?_, fun h => h.single ⟨"/a".toList, "b/".toList, rfl⟩⟩
  simp [normalizePath, replaceAll_zero, collapse, setLeading, setTrailing]

end Bes.Dispatch.NormalizePath
