import Bes.Lib.Find

/-! Replacing a text wherever it is found. The search goes on at the place of the replacement, so that a
replacement can be part of the next find. -/
namespace Bes.Lib.Replace
open Lib.Find List

variable {α : Type}

structure Rule (α : Type) where
  sub : List α
  rep : List α
  shorter : rep.length < sub.length

theorem Rule.sub_ne_nil (rule : Rule α) : rule.sub ≠ [] := by
  intro hnil
  have hlen := rule.shorter
  rw [hnil] at hlen
  exact absurd hlen (Nat.not_lt_zero _)

theorem length_rewritten (rule : Rule α) (h : rule.sub <+: text) :
    (rule.rep ++ text.drop rule.sub.length).length < text.length := by
  have hle := h.length_le
  have hsho := rule.shorter
  rw [length_append, length_drop]
  omega

variable [DecidableEq α]

theorem length_replaced {rule : Rule α} {i p : Nat} (h : find text rule.sub i = some p) :
    (text.take p ++ rule.rep ++ text.drop (p + rule.sub.length)).length < text.length := by
  have hle := (find_eq_some rule.sub_ne_nil h).2
  have hsho := rule.shorter
  simp only [length_append, length_take, length_drop]
  omega

/-- `while ((i = in.find (sub, i)) != npos) in.replace (i, sub.length (), rep)`. -/
def replaceLoop (rule : Rule α) (text : List α) (i : Nat) : List α :=
  match _h : find text rule.sub i with
  | none => text
  | some p => replaceLoop rule (text.take p ++ rule.rep ++ text.drop (p + rule.sub.length)) p
termination_by text.length
decreasing_by exact length_replaced _h

def rewriteAll (rule : Rule α) : List α → List α
  | [] => []
  | c :: text =>
      if _h : rule.sub <+: c :: text then
        rewriteAll rule (rule.rep ++ (c :: text).drop rule.sub.length)
      else c :: rewriteAll rule text
termination_by text => text.length
decreasing_by
  · exact length_rewritten rule _h
  · exact Nat.lt_succ_self _

section

variable {rule : Rule α} {text : List α}

@[simp] theorem rewriteAll_nil (rule : Rule α) : rewriteAll rule [] = [] := by
  rw [rewriteAll]

theorem rewriteAll_of_found (rest : List α) :
    rewriteAll rule (rule.sub ++ rest) = rewriteAll rule (rule.rep ++ rest) := by
  obtain ⟨c, sub, hsub⟩ := exists_cons_of_ne_nil rule.sub_ne_nil
  have hpre : rule.sub <+: c :: (sub ++ rest) := by
    rw [← cons_append, ← hsub]
    exact prefix_append _ _
  have hdrp : (c :: (sub ++ rest)).drop rule.sub.length = rest := by
    rw [← cons_append, ← hsub, drop_left]
  nth_rewrite 1 [hsub]
  rw [cons_append, rewriteAll, dif_pos hpre, hdrp]

theorem rewriteAll_cons_of_not {c : α} (h : ¬ rule.sub <+: c :: text) :
    rewriteAll rule (c :: text) = c :: rewriteAll rule text := by
  rw [rewriteAll, dif_neg h]

theorem rewriteAll_append {front : List α} (h : ∀ s, s ≠ [] → s <:+ front → ¬ rule.sub <+: s ++ text) :
    rewriteAll rule (front ++ text) = front ++ rewriteAll rule text := by
  induction front with
  | nil => rfl
  | cons c front ih =>
    have hfst : ¬ rule.sub <+: c :: (front ++ text) :=
      h (c :: front) (cons_ne_nil c front) (suffix_refl _)
    rw [cons_append, rewriteAll_cons_of_not hfst,
      ih fun s hs hsuf => h s hs (hsuf.trans (suffix_cons c front)), cons_append]

theorem rewriteAll_of_firstAt {p : Nat} (h : firstAt rule.sub text = some p) : rewriteAll rule text =
      text.take p ++ rewriteAll rule (rule.rep ++ text.drop (p + rule.sub.length)) := by
  induction text generalizing p with
  | nil =>
    rw [firstAt, if_neg rule.sub_ne_nil] at h
    cases h
  | cons c text ih =>
    by_cases hpre : rule.sub <+: c :: text
    · have hzer := firstAt_of_prefix hpre
      rw [hzer] at h
      cases h
      rw [rewriteAll, dif_pos hpre, take_zero, nil_append, zero_add]
    · rw [firstAt_cons_of_not hpre] at h
      obtain ⟨q, hq, rfl⟩ := Option.map_eq_some_iff.mp h
      rw [rewriteAll_cons_of_not hpre, ih hq, add_comm 1 q, add_right_comm,
        take_succ_cons, drop_succ_cons, cons_append]

theorem rewriteAll_of_absent (h : ¬ rule.sub <:+: text) : rewriteAll rule text = text := by
  have hpas := @rewriteAll_append α _ rule [] text (by
    intro s _ hsuf hfou
    rw [append_nil] at hfou
    exact h (hfou.isInfix.trans hsuf.isInfix))
  simpa using hpas

theorem length_rewriteAll_le (rule : Rule α) (text : List α) :
    (rewriteAll rule text).length ≤ text.length := by
  induction text using rewriteAll.induct rule with
  | case1 => simp
  | case2 c text hpre ih =>
    have hlt := length_rewritten rule hpre
    rw [rewriteAll, dif_pos hpre]
    omega
  | case3 c text hpre ih =>
    rw [rewriteAll_cons_of_not hpre]
    exact Nat.succ_le_succ ih

theorem length_rewriteAll_lt (h : rule.sub <:+: text) : (rewriteAll rule text).length < text.length := by
  obtain ⟨p, hp, -⟩ := exists_firstAt_of_infix h []
  rw [append_nil] at hp
  have hle := add_length_le_of_firstAt rule.sub_ne_nil hp
  have hrst := length_rewriteAll_le rule (rule.rep ++ text.drop (p + rule.sub.length))
  have hsho := rule.shorter
  rw [rewriteAll_of_firstAt hp]
  simp only [length_append, length_take, length_drop] at hrst ⊢
  omega

end

theorem replaceLoop_eq (rule : Rule α) (text : List α) (i : Nat) :
    replaceLoop rule text i = text.take i ++ rewriteAll rule (text.drop i) := by
  induction text, i using replaceLoop.induct rule with
  | case1 text i hfnd =>
    have hinf : ¬ rule.sub <:+: text.drop i := by
      intro h
      obtain ⟨p, hp, -⟩ := exists_firstAt_of_infix h []
      rw [append_nil] at hp
      unfold find at hfnd
      rw [hp] at hfnd
      cases hfnd
    rw [replaceLoop, hfnd, rewriteAll_of_absent hinf, take_append_drop]
  | case2 text i p hfnd ih =>
    obtain ⟨q, hq, rfl⟩ := Option.map_eq_some_iff.mp hfnd
    have hle := (find_eq_some rule.sub_ne_nil hfnd).2
    have hlen : (text.take (i + q)).length = i + q := by
      rw [length_take]
      omega
    have htak : (text.take (i + q) ++ rule.rep ++ text.drop (i + q + rule.sub.length)).take (i + q) =
        text.take i ++ (text.drop i).take q := by
      rw [append_assoc, take_left' hlen, take_add]
    have hdrp : (text.take (i + q) ++ rule.rep ++ text.drop (i + q + rule.sub.length)).drop (i + q) =
        rule.rep ++ (text.drop i).drop (q + rule.sub.length) := by
      rw [append_assoc, drop_left' hlen, drop_drop, add_assoc]
    rw [replaceLoop, hfnd]
    dsimp only
    rw [ih, htak, hdrp, rewriteAll_of_firstAt hq, append_assoc]

theorem replaceLoop_zero (rule : Rule α) (text : List α) :
    replaceLoop rule text 0 = rewriteAll rule text := by
  rw [replaceLoop_eq]
  rfl

end Bes.Lib.Replace
