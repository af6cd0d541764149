import Mathlib

/-! Searches for a text in a text. Marked-up text is cut into the segments that begin with an opening
character; the search for a mark is then a search through the segments. -/
namespace Bes.Lib.Find
open List

variable {α : Type}

def join (opening : α) (segments : List (List α)) : List α := segments.flatMap (opening :: ·)

theorem join_cons (opening : α) (segment : List α) (segments : List (List α)) :
    join opening (segment :: segments) = opening :: (segment ++ join opening segments) := rfl

theorem join_append (opening : α) (first second : List (List α)) :
    join opening (first ++ second) = join opening first ++ join opening second :=
  flatMap_append

theorem take_drop_append (before middle rest : List α) :
    ((before ++ (middle ++ rest)).drop before.length).take ((before ++ middle).length - before.length) =
      middle := by
  rw [length_append, Nat.add_sub_cancel_left, drop_left, take_left]

variable {mark front sub text : List α} {opening : α}

theorem prefix_segment_iff {segment : List α} (hmrk : opening ∉ mark) (segments : List (List α)) :
    mark <+: segment ++ join opening segments ↔ mark <+: segment := by
  constructor
  · intro h
    cases prefix_or_prefix_of_prefix h (prefix_append segment _) with
    | inl hpre => exact hpre
    | inr hlon =>
      obtain ⟨more, rfl⟩ := hlon
      rw [prefix_append_right_inj] at h
      cases segments with
      | nil =>
        rw [prefix_nil.mp h, append_nil]
      | cons next segments =>
        cases more with
        | nil => rw [append_nil]
        | cons c more =>
          have hc := (cons_prefix_cons.mp h).1
          exact absurd (mem_append_right segment (hc ▸ mem_cons_self)) hmrk
  · intro h
    exact h.trans (prefix_append segment _)

theorem infix_append_cons {c : α} (hc : c ∉ mark)
    (h : mark <:+: first ++ c :: second) : mark <:+: first ∨ mark <:+: second := by
  induction first with
  | nil =>
    cases infix_cons_iff.mp h with
    | inl hpre =>
      cases mark with
      | nil => exact .inl nil_infix
      | cons d mark =>
        have hd := (cons_prefix_cons.mp hpre).1
        exact absurd (hd ▸ mem_cons_self) hc
    | inr hsnd => exact .inr hsnd
  | cons d first ih =>
    cases infix_cons_iff.mp h with
    | inl hpre =>
      cases prefix_or_prefix_of_prefix hpre (prefix_append (d :: first) (c :: second)) with
      | inl hshort => exact .inl hshort.isInfix
      | inr hlng =>
        obtain ⟨more, rfl⟩ := hlng
        have hmor : more <+: c :: second := (prefix_append_right_inj (d :: first)).mp hpre
        cases more with
        | nil =>
          rw [append_nil]
          exact .inl (infix_refl _)
        | cons e more =>
          have he := (cons_prefix_cons.mp hmor).1
          exact absurd (mem_append_right (d :: first) (he ▸ mem_cons_self)) hc
    | inr hrst =>
      cases ih hrst with
      | inl hfst => exact .inl (hfst.trans (suffix_cons d first).isInfix)
      | inr hsnd => exact .inr hsnd

theorem infix_of_infix_append (hne : mark ≠ [])
    (hfro : ∀ c ∈ front, c ∉ mark) (h : mark <:+: front ++ rest) : mark <:+: rest := by
  induction front with
  | nil => exact h
  | cons c front ih =>
    obtain ⟨hc, hrst⟩ := forall_mem_cons.mp hfro
    cases infix_cons_iff.mp h with
    | inl hpre =>
      obtain ⟨d, mark, rfl⟩ := exists_cons_of_ne_nil hne
      have hd : d = c := (cons_prefix_cons.mp hpre).1
      exact absurd (hd ▸ mem_cons_self) hc
    | inr hinside => exact ih hrst hinside

variable [DecidableEq α]

def firstAt (sub : List α) : List α → Option Nat
  | [] => if sub = [] then some 0 else none
  | c :: text => if sub <+: c :: text then some 0 else (firstAt sub text).map (1 + ·)

def find (text sub : List α) (pos : Nat) : Option Nat := (firstAt sub (text.drop pos)).map (pos + ·)

theorem firstAt_of_prefix (h : sub <+: text) : firstAt sub text = some 0 := by
  cases text with
  | nil => simp [firstAt, prefix_nil.mp h]
  | cons c text => rw [firstAt, if_pos h]

theorem firstAt_cons_of_not {c : α} (h : ¬ sub <+: c :: text) :
    firstAt sub (c :: text) = (firstAt sub text).map (1 + ·) := by
  rw [firstAt, if_neg h]

theorem prefix_drop_of_firstAt (h : firstAt sub text = some p) : sub <+: text.drop p := by
  induction text generalizing p with
  | nil =>
    rw [firstAt] at h
    split at h
    next hsub =>
      simp [hsub]
    · cases h
  | cons c text ih =>
    rw [firstAt] at h
    split at h
    next hpre =>
      cases h
      exact hpre
    · obtain ⟨q, hq, rfl⟩ := Option.map_eq_some_iff.mp h
      rw [add_comm, drop_succ_cons]
      exact ih hq

theorem add_length_le_of_firstAt (hne : sub ≠ [])
    (h : firstAt sub text = some p) : p + sub.length ≤ text.length := by
  have hlen := (prefix_drop_of_firstAt h).length_le
  have hpos := length_pos_iff.mpr hne
  rw [length_drop] at hlen
  omega

theorem find_eq_some (hne : sub ≠ [])
    (h : find text sub pos = some p) : pos ≤ p ∧ p + sub.length ≤ text.length := by
  obtain ⟨q, hq, rfl⟩ := Option.map_eq_some_iff.mp h
  have hlen := add_length_le_of_firstAt hne hq
  have hpos := length_pos_iff.mpr hne
  rw [length_drop] at hlen
  omega

theorem prefix_drop_of_find (h : find text sub pos = some p) : sub <+: text.drop p := by
  obtain ⟨q, hq, rfl⟩ := Option.map_eq_some_iff.mp h
  rw [← drop_drop]
  exact prefix_drop_of_firstAt hq

theorem find_append_length (before rest sub : List α) :
    find (before ++ rest) sub before.length = (firstAt sub rest).map (before.length + ·) := by
  unfold find
  rw [drop_left]

theorem find_zero (text sub : List α) : find text sub 0 = firstAt sub text := by
  unfold find
  simp

theorem firstAt_append (h : ∀ s, s ≠ [] → s <:+ front → ¬ sub <+: s ++ rest) :
    firstAt sub (front ++ rest) = (firstAt sub rest).map (front.length + ·) := by
  induction front with
  | nil => simp
  | cons c front ih =>
    have hfst : ¬ sub <+: c :: (front ++ rest) :=
      h (c :: front) (cons_ne_nil c front) (suffix_refl _)
    rw [cons_append, firstAt_cons_of_not hfst,
      ih fun s hs hsuf => h s hs (hsuf.trans (suffix_cons c front)), Option.map_map]
    congr 1
    funext n
    simp only [Function.comp_apply, length_cons]
    omega

theorem firstAt_eq_none (h : ¬ sub <:+: text) : firstAt sub text = none := by
  cases hfst : firstAt sub text with
  | none => rfl
  | some p =>
    have hdrp := (prefix_drop_of_firstAt hfst).isInfix
    exact absurd (hdrp.trans (drop_suffix p text).isInfix) h

theorem exists_firstAt_of_infix (h : sub <:+: front) (rest : List α) :
    ∃ p, firstAt sub (front ++ rest) = some p ∧ p + sub.length ≤ front.length := by
  induction front with
  | nil =>
    have hsub := infix_nil.mp h
    exact ⟨0, firstAt_of_prefix (by simp [hsub]), by simp [hsub]⟩
  | cons c front ih =>
    by_cases hpre : sub <+: c :: (front ++ rest)
    · cases infix_cons_iff.mp h with
      | inl hfro => exact ⟨0, firstAt_of_prefix hpre, by simpa using hfro.length_le⟩
      | inr hfro =>
        refine ⟨0, firstAt_of_prefix hpre, ?_⟩
        have hlen := hfro.length_le
        rw [length_cons]
        omega
    · cases infix_cons_iff.mp h with
      | inl hfro => exact absurd (hfro.trans (prefix_append (c :: front) rest)) hpre
      | inr hfro =>
        obtain ⟨p, hp, hle⟩ := ih hfro
        refine ⟨1 + p, ?_, ?_⟩
        · rw [cons_append, firstAt_cons_of_not hpre, hp]
          rfl
        · rw [length_cons]
          omega

theorem firstAt_char {c : α} (h : c ∉ front) (rest : List α) :
    firstAt [c] (front ++ c :: rest) = some front.length := by
  have hfst : firstAt [c] (c :: rest) = some 0 := firstAt_of_prefix (prefix_append [c] rest)
  rw [firstAt_append, hfst]
  · simp
  · intro s hs hsuf hpre
    obtain ⟨d, s, rfl⟩ := exists_cons_of_ne_nil hs
    have hd : c = d := (cons_prefix_cons.mp hpre).1
    exact h (hsuf.subset (hd ▸ mem_cons_self))

theorem firstAt_pair {a b : α} (hab : a ≠ b) (h : ¬ [a, b] <:+: front)
    (rest : List α) : firstAt [a, b] (front ++ a :: b :: rest) = some front.length := by
  have hfst : firstAt [a, b] (a :: b :: rest) = some 0 :=
    firstAt_of_prefix (prefix_append [a, b] rest)
  rw [firstAt_append, hfst]
  · simp
  · intro s hs hsuf hpre
    obtain ⟨d, s, rfl⟩ := exists_cons_of_ne_nil hs
    obtain ⟨had, hrst⟩ := cons_prefix_cons.mp hpre
    cases s with
    | nil => exact hab (cons_prefix_cons.mp hrst).1.symm
    | cons e s =>
      have hbe := (cons_prefix_cons.mp hrst).1
      apply h
      rw [had, hbe]
      exact (prefix_append [d, e] s).isInfix.trans hsuf.isInfix

theorem firstAt_plain (hpla : opening ∉ plain) (mark rest : List α) :
    firstAt (opening :: mark) (plain ++ rest) =
      (firstAt (opening :: mark) rest).map (plain.length + ·) := by
  apply firstAt_append
  intro s hs hsuf hpre
  obtain ⟨d, s, rfl⟩ := exists_cons_of_ne_nil hs
  have hd : opening = d := (cons_prefix_cons.mp hpre).1
  exact hpla (hsuf.subset (hd ▸ mem_cons_self))

theorem firstAt_join (hmrk : opening ∉ mark) (hbef : ∀ s ∈ before, opening ∉ s ∧ ¬ mark <+: s)
    (after : List (List α)) : firstAt (opening :: mark) (join opening (before ++ after)) =
      (firstAt (opening :: mark) (join opening after)).map ((join opening before).length + ·) := by
  induction before with
  | nil => simp [join]
  | cons segment before ih =>
    obtain ⟨⟨hope, hseg⟩, hrst⟩ := forall_mem_cons.mp hbef
    have hnot : ¬ opening :: mark <+: opening :: (segment ++ join opening (before ++ after)) := by
      rw [cons_prefix_cons, prefix_segment_iff hmrk]
      exact fun h => hseg h.2
    rw [cons_append, join_cons, firstAt_cons_of_not hnot, firstAt_plain hope, ih hrst,
      Option.map_map, Option.map_map, join_cons]
    congr 1
    funext n
    simp only [Function.comp_apply, length_cons, length_append]
    omega

theorem firstAt_join_of_prefix (opening : α) {segment : List α} (h : mark <+: segment)
    (after : List (List α)) : firstAt (opening :: mark) (join opening (segment :: after)) = some 0 := by
  apply firstAt_of_prefix
  exact cons_prefix_cons.mpr ⟨rfl, h.trans (prefix_append segment _)⟩

theorem firstAt_markup {plain : List α} (hmrk : opening ∉ mark)
    (hpla : opening ∉ plain) {before : List (List α)}
    (hbef : ∀ s ∈ before, opening ∉ s ∧ ¬ mark <+: s) {segment : List α} (h : mark <+: segment)
    (after : List (List α)) :
    firstAt (opening :: mark) (plain ++ join opening (before ++ segment :: after)) =
      some (plain.length + (join opening before).length) := by
  rw [firstAt_plain hpla, firstAt_join hmrk hbef, firstAt_join_of_prefix opening h]
  rfl

theorem firstAt_markup_none (hmrk : opening ∉ mark) (hpla : opening ∉ plain)
    (hsgm : ∀ s ∈ segments, opening ∉ s ∧ ¬ mark <+: s) :
    firstAt (opening :: mark) (plain ++ join opening segments) = none := by
  have hjon := firstAt_join hmrk hsgm []
  rw [append_nil] at hjon
  rw [firstAt_plain hpla, hjon]
  simp [join, firstAt]

end Bes.Lib.Find
