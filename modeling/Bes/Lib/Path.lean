import Mathlib

/-! Path names of a file system without links. A path is followed from the root or
from the working directory, one component at a time; two paths name the same file
when they lead to the same place. -/
namespace Bes.Lib.Path
open List

abbrev Place := List (List Char)

def components (path : List Char) : List (List Char) :=
  (path.splitOn '/').filter fun part => decide (part ≠ [] ∧ part ≠ ['.'])

def walk (place : Place) (part : List Char) : Place :=
  if part = ['.', '.'] then place.dropLast else place ++ [part]

def resolve (cwd : Place) (path : List Char) : Place :=
  (components path).foldl walk (if path.head? = some '/' then [] else cwd)

structure IsName (name : List Char) : Prop where
  no_slash : '/' ∉ name
  ne_nil : name ≠ []
  ne_dot : name ≠ ['.']
  ne_dots : name ≠ ['.', '.']

variable {cwd : Place} {path name : List Char}

@[simp] theorem components_nil : components [] = [] := rfl

theorem components_append_slash (first second : List Char) :
    components (first ++ '/' :: second) = components first ++ components second := by
  rw [components, splitOn_append_cons_self, filter_append]
  rfl

theorem components_slash (path : List Char) : components ('/' :: path) = components path := by
  have hemp := components_append_slash [] path
  exact hemp

theorem components_rdropWhile (path : List Char) :
    components (path.rdropWhile fun c => decide (c = '/')) = components path := by
  induction path using reverseRecOn with
  | nil => rfl
  | append_singleton path c ih =>
    by_cases hc : c = '/'
    · rw [rdropWhile_concat_pos _ _ _ (by simpa using hc), ih, hc, components_append_slash,
        components_nil, append_nil]
    · rw [rdropWhile_concat_neg _ _ _ (by simpa using hc)]

theorem IsName.components_eq (hnam : IsName name) : components name = [name] := by
  rw [components, splitOn_eq_singleton hnam.no_slash]
  simp [hnam.ne_nil, hnam.ne_dot]

theorem IsName.foldl_walk (hnam : IsName name) (place : Place) :
    (components name).foldl walk place = place ++ [name] := by
  rw [hnam.components_eq, foldl_cons, foldl_nil, walk, if_neg hnam.ne_dots]

theorem resolve_slash (cwd : Place) (path : List Char) :
    resolve cwd ('/' :: path) = resolve [] path := by
  simp [resolve, components_slash]

theorem resolve_nil_eq (path : List Char) : resolve [] path = (components path).foldl walk [] := by
  simp [resolve]

theorem resolve_join (cwd : Place) (hpth : path ≠ []) (name : List Char) :
    resolve cwd (path ++ '/' :: name) = (components name).foldl walk (resolve cwd path) := by
  cases path with
  | nil => exact absurd rfl hpth
  | cons c path =>
    rw [resolve, components_append_slash, foldl_append]
    rfl

theorem length_foldl_walk_le (parts : List (List Char)) (hle : first.length ≤ second.length) :
    (parts.foldl walk first).length ≤ (parts.foldl walk second).length := by
  induction parts generalizing first second with
  | nil => exact hle
  | cons part parts ih =>
    apply ih
    unfold walk
    split
    · rw [length_dropLast, length_dropLast]
      omega
    · simpa using hle

theorem length_resolve_nil_le (cwd : Place) (path : List Char) :
    (resolve [] path).length ≤ (resolve cwd path).length := by
  rw [resolve_nil_eq, resolve]
  exact length_foldl_walk_le _ (Nat.zero_le _)

theorem length_foldl_walk_of_not_isName (hsla : '/' ∉ name) (hne : name ≠ [])
    (hnam : ¬ IsName name) (place : Place) :
    ((components name).foldl walk place).length ≤ place.length := by
  have hdts : name = ['.'] ∨ name = ['.', '.'] := by
    by_contra hnei
    rw [not_or] at hnei
    exact hnam ⟨hsla, hne, hnei.1, hnei.2⟩
  cases hdts with
  | inl hdot =>
    subst hdot
    exact le_refl _
  | inr hdts =>
    subst hdts
    have hpar : components ['.', '.'] = [['.', '.']] := by decide
    rw [hpar, foldl_cons, foldl_nil, walk, if_pos rfl, length_dropLast]
    exact Nat.sub_le _ _

theorem parts_induction {motive : List Char → Prop} (single : ∀ part, '/' ∉ part → motive part)
    (slash : ∀ part path, '/' ∉ part → motive path → motive (part ++ '/' :: path))
    (path : List Char) : motive path := by
  induction hlen : path.length using Nat.strong_induction_on generalizing path with
  | _ length ih =>
    by_cases hmem : '/' ∈ path
    · obtain ⟨part, rest, rfl, hprt⟩ := eq_append_cons_of_mem hmem
      apply slash part rest hprt
      apply ih rest.length _ rest rfl
      simp only [length_append, length_cons] at hlen
      omega
    · exact single path hmem

theorem eq_append_slash_of_mem (hmem : '/' ∈ path) :
    ∃ init part, path = init ++ '/' :: part ∧ '/' ∉ part := by
  obtain ⟨part, init, heq, hprt⟩ := eq_append_cons_of_mem (mem_reverse.mpr hmem)
  refine ⟨init.reverse, part.reverse, ?_, by simpa using hprt⟩
  rw [← reverse_reverse path, heq]
  simp

theorem slash_not_mem_of_mem_splitOn (hprt : part ∈ path.splitOn '/') : '/' ∉ part := by
  induction path using parts_induction with
  | single first hfirst =>
    rw [splitOn_eq_singleton hfirst, mem_singleton] at hprt
    rwa [hprt]
  | slash first path hfirst ih =>
    rw [splitOn_append_cons_self, splitOn_eq_singleton hfirst, mem_append, mem_singleton] at hprt
    cases hprt with
    | inl heq => rwa [heq]
    | inr hrst => exact ih hrst

theorem isInfix_of_mem_splitOn (hprt : part ∈ path.splitOn '/') : part <:+: path := by
  induction path using parts_induction with
  | single first hfirst =>
    rw [splitOn_eq_singleton hfirst, mem_singleton] at hprt
    subst hprt
    exact infix_refl part
  | slash first path hfirst ih =>
    rw [splitOn_append_cons_self, splitOn_eq_singleton hfirst, mem_append, mem_singleton] at hprt
    cases hprt with
    | inl heq =>
      rw [heq]
      exact (prefix_append first ('/' :: path)).isInfix
    | inr hrst =>
      exact (ih hrst).trans ⟨first ++ ['/'], [], by simp⟩

theorem length_splitOn (path : List Char) : (path.splitOn '/').length = path.count '/' + 1 := by
  induction path using parts_induction with
  | single part hprt =>
    rw [splitOn_eq_singleton hprt, count_eq_zero_of_not_mem hprt]
    rfl
  | slash part path hprt ih =>
    rw [splitOn_append_cons_self, splitOn_eq_singleton hprt, length_append, ih,
      count_append, count_eq_zero_of_not_mem hprt, count_cons_self,
      length_singleton]
    omega

def extend (path : List Char) (parts : List (List Char)) : List Char :=
  path ++ parts.flatMap fun part => '/' :: part

@[simp] theorem extend_nil (path : List Char) : extend path [] = path := by
  simp [extend]

theorem extend_cons (path part : List Char) (parts : List (List Char)) :
    extend path (part :: parts) = extend (path ++ '/' :: part) parts := by
  simp [extend]

theorem extend_concat (path part : List Char) (parts : List (List Char)) :
    extend path (parts ++ [part]) = extend path parts ++ '/' :: part := by
  simp [extend]

theorem extend_ne_nil (path : List Char) (hpar : parts ≠ []) : extend path parts ≠ [] := by
  cases parts with
  | nil => contradiction
  | cons part parts => simp [extend]

theorem splitOn_extend (path : List Char) (hpar : ∀ part ∈ parts, '/' ∉ part) :
    (extend path parts).splitOn '/' = path.splitOn '/' ++ parts := by
  induction parts generalizing path with
  | nil => simp
  | cons part parts ih =>
    rw [extend_cons, ih _ fun other hoth => hpar other (mem_cons_of_mem _ hoth),
      splitOn_append_cons_self, splitOn_eq_singleton (hpar part mem_cons_self),
      append_assoc]
    rfl

theorem extend_splitOn (base path : List Char) :
    extend base (path.splitOn '/') = base ++ '/' :: path := by
  induction path using parts_induction generalizing base with
  | single part hprt => rw [splitOn_eq_singleton hprt, extend_cons, extend_nil]
  | slash part path hprt ih =>
    rw [splitOn_append_cons_self, splitOn_eq_singleton hprt, singleton_append, extend_cons, ih]
    simp

end Bes.Lib.Path
