import Bes.Dispatch.Util
import Bes.Lib.Replace

/-! `BESUtil::id2xml` and `BESUtil::xml2id`: XML entities written for the characters that need them, and
read back by one pass over the text per entity. -/
namespace Bes.Dispatch.XmlEscape
open Lib.Find Lib.Replace List

def entity (c : Char) : Str :=
  match c with
  | '>' => "&gt;".toList
  | '<' => "&lt;".toList
  | '&' => "&amp;".toList
  | '\'' => "&apos;".toList
  | '"' => "&quot;".toList
  | c => [c]

def findFirstOf (text set : Str) (i : Nat) : Option Nat :=
  ((text.drop i).findIdx? fun c => decide (c ∈ set)).map (i + ·)

def special : Str := ['>', '<', '&', '\'', '"']

theorem forall_special {p : Char → Prop} (hgt : p '>') (hlt : p '<') (hamp : p '&') (haps : p '\'')
    (hqut : p '"') : ∀ c ∈ special, p c := by
  intro c hc
  simp only [special, mem_cons, not_mem_nil, or_false] at hc
  obtain rfl | rfl | rfl | rfl | rfl := hc
  · exact hgt
  · exact hlt
  · exact hamp
  · exact haps
  · exact hqut

theorem entity_of_not_special {c : Char} (hc : c ∉ special) : entity c = [c] := by
  simp only [special, mem_cons, not_mem_nil, or_false, not_or] at hc
  unfold entity
  split
  · exact absurd rfl hc.1
  · exact absurd rfl hc.2.1
  · exact absurd rfl hc.2.2.1
  · exact absurd rfl hc.2.2.2.1
  · exact absurd rfl hc.2.2.2.2
  · rfl

/-- The text of an entity behind its `&`. -/
def entityName (c : Char) : Str := (entity c).tail

theorem entity_eq : ∀ c ∈ special, entity c = '&' :: entityName c :=
  forall_special (by decide) (by decide) (by decide) (by decide) (by decide)

theorem entityName_all : ∀ c ∈ special, (entityName c).all (fun d => decide (d ∉ special)) = true :=
  forall_special (by decide) (by decide) (by decide) (by decide) (by decide)

theorem notMem_of_mem_entityName {c : Char} (hc : c ∈ special) (hd : d ∈ entityName c) : d ∉ special :=
  of_decide_eq_true (all_eq_true.mp (entityName_all c hc) d hd)

def remaining (text : Str) : Nat := (text.map fun c => (entity c).length).sum

theorem remaining_append (first second : Str) :
    remaining (first ++ second) = remaining first + remaining second := by
  simp [remaining]

theorem remaining_tail_lt (c : Char) : remaining (entity c).tail < (entity c).length := by
  by_cases hc : c ∈ special
  · exact forall_special (p := fun c => remaining (entity c).tail < (entity c).length)
      (by decide) (by decide) (by decide) (by decide) (by decide) c hc
  · rw [entity_of_not_special hc]
    exact Nat.zero_lt_one

theorem length_take_of_find {set : Str} {i p : Nat} (h : findFirstOf text set i = some p) :
    (text.take i).length = i ∧ p < text.length := by
  obtain ⟨q, hq, rfl⟩ := Option.map_eq_some_iff.mp h
  have hlt := (findIdx?_eq_some_iff_getElem.mp hq).1
  rw [length_drop] at hlt
  rw [length_take]
  omega

theorem findFirstOf_cut {set : Str} {i p : Nat} (h : findFirstOf text set i = some p) :
    ∃ before c rest, text.drop i = before ++ c :: rest ∧ text.take p = text.take i ++ before ∧
      text.getD p ' ' = c ∧ text.drop (p + 1) = rest ∧ c ∈ set ∧ ∀ d ∈ before, d ∉ set := by
  obtain ⟨q, hq, rfl⟩ := Option.map_eq_some_iff.mp h
  obtain ⟨hlt, hmem, hbefore⟩ := findIdx?_eq_some_iff_getElem.mp hq
  refine ⟨(text.drop i).take q, (text.drop i)[q], (text.drop i).drop (q + 1), ?_, take_add, ?_, ?_,
    of_decide_eq_true hmem, ?_⟩
  · rw [getElem_cons_drop, take_append_drop]
  · rw [length_drop] at hlt
    rw [getD_eq_getElem _ _ (by omega), getElem_drop]
  · rw [drop_drop, add_assoc]
  · intro d hd
    obtain ⟨j, hj, rfl⟩ := getElem_of_mem hd
    rw [length_take] at hj
    simpa using hbefore j (by omega)

theorem entity_cons (c : Char) : ∃ d, entity c = d :: entityName c := by
  by_cases hc : c ∈ special
  · exact ⟨'&', entity_eq c hc⟩
  · refine ⟨c, ?_⟩
    unfold entityName
    rw [entity_of_not_special hc]
    rfl

theorem drop_replaced (hfront : front.length = n) (c : Char) (rest : Str) :
    (front ++ entity c ++ rest).drop (n + 1) = entityName c ++ rest := by
  obtain ⟨d, hd⟩ := entity_cons c
  rw [append_assoc, ← drop_drop, drop_left' hfront, hd]
  rfl

theorem take_replaced (hfront : front.length = n) (c : Char) (rest : Str) :
    (front ++ entity c ++ rest).take (n + 1) ++ entityName c = front ++ entity c := by
  obtain ⟨d, hd⟩ := entity_cons c
  rw [append_assoc, take_add, take_left' hfront, drop_left' hfront, hd]
  simp

theorem remaining_replaced {set : Str} {i p : Nat} (h : findFirstOf text set i = some p) :
    remaining ((text.take p ++ entity (text.getD p ' ') ++ text.drop (p + 1)).drop (p + 1)) <
      remaining (text.drop i) := by
  obtain ⟨before, c, rest, hdrop, -, hc, hrest, -⟩ := findFirstOf_cut h
  have hlen : (text.take p).length = p := by
    have hlt := (length_take_of_find h).2
    rw [length_take]
    omega
  have htal := remaining_tail_lt c
  rw [drop_replaced hlen, hc, hrest, hdrop, remaining_append, remaining_append]
  simp only [remaining, entityName, map_cons, sum_cons] at htal ⊢
  omega

def id2xmlLoop (notAllowed : Str) (text : Str) (i : Nat) : Str :=
  match _h : findFirstOf text notAllowed i with
  | none => text
  | some p =>
      id2xmlLoop notAllowed (text.take p ++ entity (text.getD p ' ') ++ text.drop (p + 1)) (p + 1)
termination_by remaining (text.drop i)
decreasing_by exact remaining_replaced _h

/-- `id2xml`; the characters not allowed have a default. -/
def id2xml (text : Str) (notAllowed : Str := "><&'\"".toList) : Str := id2xmlLoop notAllowed text 0

def escape (set : Str) (text : Str) : Str := text.flatMap fun c => if c ∈ set then entity c else [c]

theorem escape_cons_of_mem {set : Str} {c : Char} (hc : c ∈ set) (text : Str) :
    escape set (c :: text) = entity c ++ escape set text := by
  unfold escape
  rw [flatMap_cons, if_pos hc]

theorem escape_cons_of_notMem {set : Str} {c : Char} (hc : c ∉ set) (text : Str) :
    escape set (c :: text) = c :: escape set text := by
  unfold escape
  rw [flatMap_cons, if_neg hc, singleton_append]

theorem escape_append (set first second : Str) :
    escape set (first ++ second) = escape set first ++ escape set second :=
  flatMap_append

theorem escape_of_forall {set : Str} (h : ∀ c ∈ text, c ∉ set) : escape set text = text := by
  induction text with
  | nil => rfl
  | cons c text ih =>
    obtain ⟨hc, htext⟩ := forall_mem_cons.mp h
    rw [escape_cons_of_notMem hc, ih htext]

theorem escape_nil (text : Str) : escape [] text = text := escape_of_forall fun _ _ => not_mem_nil

theorem id2xmlLoop_eq (text : Str) (i : Nat) :
    id2xmlLoop special text i = text.take i ++ escape special (text.drop i) := by
  induction text, i using id2xmlLoop.induct special with
  | case1 text i hfound =>
    have hall : ∀ c ∈ text.drop i, c ∉ special := by
      intro c hc
      have hnone := findIdx?_eq_none_iff.mp (Option.map_eq_none_iff.mp hfound) c hc
      exact of_decide_eq_false hnone
    rw [id2xmlLoop, hfound, escape_of_forall hall, take_append_drop]
  | case2 text i p hfound ih =>
    obtain ⟨before, c, rest, hdrop, htake, hc, hrest, hmem, hbefore⟩ := findFirstOf_cut hfound
    have hlen : (text.take p).length = p := by
      have hlt := (length_take_of_find hfound).2
      rw [length_take]
      omega
    have hnam : escape special (entityName c) = entityName c :=
      escape_of_forall fun _ => notMem_of_mem_entityName hmem
    rw [id2xmlLoop, hfound]
    dsimp only
    rw [ih, drop_replaced hlen, escape_append, hc, hnam, ← append_assoc,
      take_replaced hlen, hrest, htake, hdrop, escape_append, escape_of_forall hbefore,
      escape_cons_of_mem hmem]
    simp only [append_assoc]

theorem id2xml_eq (text : Str) : id2xml text = escape special text := id2xmlLoop_eq text 0

theorem length_lt_entity : ∀ c ∈ special, [c].length < (entity c).length :=
  forall_special (by decide) (by decide) (by decide) (by decide) (by decide)

def gtRule : Rule Char := ⟨"&gt;".toList, ">".toList, length_lt_entity '>' (by decide)⟩

def ltRule : Rule Char := ⟨"&lt;".toList, "<".toList, length_lt_entity '<' (by decide)⟩

def ampRule : Rule Char := ⟨"&amp;".toList, "&".toList, length_lt_entity '&' (by decide)⟩

def aposRule : Rule Char := ⟨"&apos;".toList, "'".toList, length_lt_entity '\'' (by decide)⟩

def quotRule : Rule Char := ⟨"&quot;".toList, "\"".toList, length_lt_entity '"' (by decide)⟩

def xml2id (text : Str) : Str :=
  let text := replaceLoop gtRule text 0
  let text := replaceLoop ltRule text 0
  let text := replaceLoop ampRule text 0
  let text := replaceLoop aposRule text 0
  replaceLoop quotRule text 0

structure Decodes (rule : Rule Char) (c : Char) : Prop where
  special : c ∈ special
  sub_eq : rule.sub = entity c
  rep_eq : rule.rep = [c]

section

variable {x : Char} {set : Str}

theorem prefix_escape_iff (hset : ∀ c ∈ set, c ∈ special)
    (hnam : ∀ d ∈ name, d ∉ special) (text : Str) : name <+: escape set text ↔ name <+: text := by
  induction name generalizing text with
  | nil => simp
  | cons d name ih =>
    obtain ⟨hd, hrest⟩ := forall_mem_cons.mp hnam
    cases text with
    | nil => rfl
    | cons c text =>
      by_cases hc : c ∈ set
      · have hcd : c ≠ d := fun heq => hd (heq ▸ hset c hc)
        have hamp : d ≠ '&' := by
          intro heq
          rw [heq] at hd
          exact hd (by decide)
        rw [escape_cons_of_mem hc, entity_eq c (hset c hc), cons_append, cons_prefix_cons,
          cons_prefix_cons]
        exact ⟨fun h => absurd h.1 hamp, fun h => absurd h.1.symm hcd⟩
      · rw [escape_cons_of_notMem hc, cons_prefix_cons, cons_prefix_cons, ih hrest]

theorem entity_not_prefix {c : Char} (hx : x ∈ special) (hc : c ∈ special) (hne : c ≠ x) :
    ¬ entity x <+: entity c ∧ ¬ entity c <+: entity x := by
  have hall : special.all (fun x => special.all fun c =>
      decide (c ≠ x → ¬ entity x <+: entity c ∧ ¬ entity c <+: entity x)) = true := by
    decide
  have hfirst := all_eq_true.mp hall x hx
  exact of_decide_eq_true (all_eq_true.mp hfirst c hc) hne

theorem rewriteAll_entity (hrule : Decodes rule x) {c : Char} (hc : c ∈ special) (hne : c ≠ x)
    (text : Str) : rewriteAll rule (entity c ++ text) = entity c ++ rewriteAll rule text := by
  apply rewriteAll_append
  intro s hs hsuf
  rw [hrule.sub_eq]
  rw [entity_eq c hc, suffix_cons_iff, ← entity_eq c hc] at hsuf
  cases hsuf with
  | inl hwhole =>
    intro hpre
    rw [hwhole] at hpre
    obtain ⟨hown, hother⟩ := entity_not_prefix hrule.special hc hne
    cases prefix_or_prefix_of_prefix hpre (prefix_append (entity c) text) with
    | inl h => exact hown h
    | inr h => exact hother h
  | inr hnam =>
    obtain ⟨d, s, rfl⟩ := exists_cons_of_ne_nil hs
    have hd := notMem_of_mem_entityName hc (hnam.subset mem_cons_self)
    rw [entity_eq x hrule.special, cons_append, cons_prefix_cons]
    intro h
    rw [← h.1] at hd
    exact hd (by decide)

theorem rewriteAll_plain (hrule : Decodes rule x) {c : Char} (hc : c ≠ '&') (text : Str) :
    rewriteAll rule (c :: text) = c :: rewriteAll rule text := by
  apply rewriteAll_cons_of_not
  rw [hrule.sub_eq, entity_eq x hrule.special, cons_prefix_cons]
  exact fun h => hc h.1.symm

theorem rewriteAll_own (hrule : Decodes rule x) (text : Str) :
    rewriteAll rule (entity x ++ text) = rewriteAll rule (x :: text) := by
  rw [← hrule.sub_eq, rewriteAll_of_found, hrule.rep_eq]
  rfl

variable (hrule : Decodes rule x) (hset : ∀ c ∈ set, c ∈ special) (hx : x ∉ set)
include hrule hset hx

theorem rewriteAll_escape_of_amp (hamp : '&' ∈ set) (text : Str) :
    rewriteAll rule (escape (x :: set) text) = escape set text := by
  have hxmp : x ≠ '&' := fun heq => hx (heq ▸ hamp)
  induction text with
  | nil => exact rewriteAll_nil rule
  | cons c text ih =>
    by_cases hc : c ∈ set
    · have hne : c ≠ x := fun heq => hx (heq ▸ hc)
      rw [escape_cons_of_mem (mem_cons_of_mem x hc), rewriteAll_entity hrule (hset c hc) hne, ih,
        escape_cons_of_mem hc]
    · rw [escape_cons_of_notMem hc]
      by_cases hcx : c = x
      · rw [hcx, escape_cons_of_mem mem_cons_self, rewriteAll_own hrule, rewriteAll_plain hrule hxmp, ih]
      · have hboth : c ∉ x :: set := by
          rw [mem_cons, not_or]
          exact ⟨hcx, hc⟩
        have hcmp : c ≠ '&' := fun heq => hc (heq ▸ hamp)
        rw [escape_cons_of_notMem hboth, rewriteAll_plain hrule hcmp, ih]

theorem rewriteAll_escape (hamp : '&' ∉ set) (text : Str) :
    rewriteAll rule (escape (x :: set) text) = escape set (rewriteAll rule text) := by
  have hboth : ∀ c ∈ x :: set, c ∈ special := by
    intro c hc
    cases mem_cons.mp hc with
    | inl heq => exact heq ▸ hrule.special
    | inr hmem => exact hset c hmem
  have hnam : ∀ d ∈ entityName x, d ∉ special := fun d => notMem_of_mem_entityName hrule.special
  have hesc : escape (x :: set) (entityName x) = entityName x :=
    escape_of_forall fun d hd hmem => hnam d hd (hboth d hmem)
  have hopen : ∀ text, rewriteAll rule (escape (x :: set) ('&' :: text)) =
      rewriteAll rule ('&' :: escape (x :: set) text) := by
    intro text
    by_cases hxmp : x = '&'
    · rw [← hxmp, escape_cons_of_mem mem_cons_self, rewriteAll_own hrule]
    · rw [escape_cons_of_notMem]
      rw [mem_cons, not_or]
      exact ⟨fun heq => hxmp heq.symm, hamp⟩
  -- A replaced `&` may begin the next find, so the induction is on the length.
  induction hlen : text.length using Nat.strong_induction_on generalizing text with
  | h n ih =>
    cases text with
    | nil => rw [rewriteAll_nil]; exact rewriteAll_nil rule
    | cons c text =>
      rw [length_cons] at hlen
      have htext := ih text.length (by omega) text rfl
      by_cases hcmp : c = '&'
      · rw [hcmp, hopen]
        by_cases hname : entityName x <+: text
        · obtain ⟨rest, rfl⟩ := hname
          have hpos : 0 < (entityName x).length :=
            forall_special (p := fun c => 0 < (entityName c).length) (by decide) (by decide) (by decide)
              (by decide) (by decide) x hrule.special
          rw [length_append] at hlen
          rw [escape_append, hesc, ← cons_append, ← entity_eq x hrule.special,
            rewriteAll_own hrule, ← cons_append, ← entity_eq x hrule.special, rewriteAll_own hrule]
          by_cases hxmp : x = '&'
          · have haga := ih ('&' :: rest).length (by rw [length_cons]; omega) ('&' :: rest) rfl
            rw [hopen] at haga
            rw [hxmp] at haga ⊢
            exact haga
          · rw [rewriteAll_plain hrule hxmp, rewriteAll_plain hrule hxmp,
              ih rest.length (by omega) rest rfl, escape_cons_of_notMem hx]
        · have hesa : ¬ rule.sub <+: '&' :: escape (x :: set) text := by
            rw [hrule.sub_eq, entity_eq x hrule.special, cons_prefix_cons, prefix_escape_iff hboth hnam]
            exact fun h => hname h.2
          have htex : ¬ rule.sub <+: '&' :: text := by
            rw [hrule.sub_eq, entity_eq x hrule.special, cons_prefix_cons]
            exact fun h => hname h.2
          rw [rewriteAll_cons_of_not hesa, rewriteAll_cons_of_not htex, htext, escape_cons_of_notMem hamp]
      · rw [rewriteAll_plain hrule hcmp]
        by_cases hc : c ∈ set
        · have hne : c ≠ x := fun heq => hx (heq ▸ hc)
          rw [escape_cons_of_mem (mem_cons_of_mem x hc), rewriteAll_entity hrule (hset c hc) hne,
            htext, escape_cons_of_mem hc]
        · rw [escape_cons_of_notMem hc, ← htext]
          by_cases hcx : c = x
          · rw [hcx, escape_cons_of_mem mem_cons_self, rewriteAll_own hrule,
              rewriteAll_plain hrule (hcx ▸ hcmp)]
          · rw [escape_cons_of_notMem, rewriteAll_plain hrule hcmp]
            rw [mem_cons, not_or]
            exact ⟨hcx, hc⟩

end

theorem decodes_gt : Decodes gtRule '>' := ⟨by decide, rfl, rfl⟩

theorem decodes_lt : Decodes ltRule '<' := ⟨by decide, rfl, rfl⟩

theorem decodes_amp : Decodes ampRule '&' := ⟨by decide, rfl, rfl⟩

theorem decodes_apos : Decodes aposRule '\'' := ⟨by decide, rfl, rfl⟩

theorem decodes_quot : Decodes quotRule '"' := ⟨by decide, rfl, rfl⟩

theorem xml2id_id2xml (text : Str) :
    xml2id (id2xml text) = rewriteAll quotRule (rewriteAll aposRule (rewriteAll ampRule text)) := by
  have hsub : ∀ (set : Str), set.all (fun c => decide (c ∈ special)) = true → ∀ c ∈ set, c ∈ special := by
    intro set hall c hc
    exact of_decide_eq_true (all_eq_true.mp hall c hc)
  unfold xml2id
  simp only [replaceLoop_zero]
  rw [id2xml_eq, special, rewriteAll_escape_of_amp decodes_gt (hsub _ (by decide)) (by decide) (by decide),
    rewriteAll_escape_of_amp decodes_lt (hsub _ (by decide)) (by decide) (by decide),
    rewriteAll_escape decodes_amp (hsub _ (by decide)) (by decide) (by decide),
    rewriteAll_escape decodes_apos (hsub _ (by decide)) (by decide) (by decide),
    rewriteAll_escape decodes_quot (hsub _ (by decide)) (by decide) (by decide), escape_nil]

/-- The round trip gives the text back just when the text spells none of the entities that are read after
the `&` of another one. -/
theorem xml2id_id2xml_eq_iff (text : Str) : xml2id (id2xml text) = text ↔
      ¬ "&amp;".toList <:+: text ∧ ¬ "&apos;".toList <:+: text ∧ ¬ "&quot;".toList <:+: text := by
  rw [xml2id_id2xml]
  constructor
  · intro h
    have hlen := congrArg length h
    have hquot := length_rewriteAll_le quotRule (rewriteAll aposRule (rewriteAll ampRule text))
    have hapos := length_rewriteAll_le aposRule (rewriteAll ampRule text)
    have hampNot : ¬ "&amp;".toList <:+: text := by
      intro hinf
      have hlt := @length_rewriteAll_lt _ _ ampRule text hinf
      omega
    rw [@rewriteAll_of_absent _ _ ampRule _ hampNot] at h hlen hquot hapos
    have haposNot : ¬ "&apos;".toList <:+: text := by
      intro hinf
      have hlt := @length_rewriteAll_lt _ _ aposRule text hinf
      omega
    rw [@rewriteAll_of_absent _ _ aposRule _ haposNot] at h hlen
    refine ⟨hampNot, haposNot, ?_⟩
    intro hinf
    have hlt := @length_rewriteAll_lt _ _ quotRule text hinf
    omega
  · intro h
    rw [@rewriteAll_of_absent _ _ ampRule _ h.1, @rewriteAll_of_absent _ _ aposRule _ h.2.1,
      @rewriteAll_of_absent _ _ quotRule _ h.2.2]

/-- A text that looks like an entity comes back as the character. -/
theorem xml2id_id2xml_apos :
    id2xml "&apos;".toList = "&amp;apos;".toList ∧ xml2id (id2xml "&apos;".toList) = "'".toList ∧
      xml2id (id2xml "&apos;".toList) ≠ "&apos;".toList := by
  have hapos : rewriteAll aposRule "&apos;".toList = "'".toList :=
    (@rewriteAll_of_found _ _ aposRule []).trans (rewriteAll_of_absent (by decide))
  have hback : xml2id (id2xml "&apos;".toList) = "'".toList := by
    rw [xml2id_id2xml, @rewriteAll_of_absent _ _ ampRule "&apos;".toList (by decide), hapos,
      @rewriteAll_of_absent _ _ quotRule "'".toList (by decide)]
  rw [hback, id2xml_eq]
  decide

/-- The entities that XML knows without a declaration. -/
def predefined : List (Str × Char) :=
  [("&lt;".toList, '<'), ("&gt;".toList, '>'), ("&amp;".toList, '&'), ("&apos;".toList, '\''),
    ("&quot;".toList, '"')]

/-- What a reader of XML takes character data for. -/
inductive Denotes : Str → Str → Prop
  | nil : Denotes [] []
  | plain (hc : c ≠ '&' ∧ c ≠ '<') (hrest : Denotes text value) : Denotes (c :: text) (c :: value)
  | reference (hc : (name, c) ∈ predefined) (hrest : Denotes text value) :
      Denotes (name ++ text) (c :: value)

theorem mem_predefined : ∀ c ∈ special, (entity c, c) ∈ predefined :=
  forall_special (by decide) (by decide) (by decide) (by decide) (by decide)

theorem eq_of_mem_predefined (hmem : (name, c) ∈ predefined) : c ∈ special ∧ name = entity c := by
  simp only [predefined, mem_cons, Prod.mk.injEq, not_mem_nil, or_false] at hmem
  obtain ⟨rfl, rfl⟩ | ⟨rfl, rfl⟩ | ⟨rfl, rfl⟩ | ⟨rfl, rfl⟩ | ⟨rfl, rfl⟩ := hmem <;>
    exact ⟨by decide, rfl⟩

theorem denotes_escape (text : Str) : Denotes (escape special text) text := by
  induction text with
  | nil => exact .nil
  | cons c text ih =>
    by_cases hc : c ∈ special
    · exact escape_cons_of_mem hc text ▸ .reference (mem_predefined c hc) ih
    · rw [escape_cons_of_notMem hc]
      exact .plain ⟨fun h => hc (h ▸ by decide), fun h => hc (h ▸ by decide)⟩ ih

theorem eq_of_denotes_escape (h : Denotes (escape special text) value) : value = text := by
  induction text generalizing value with
  | nil =>
    generalize hs : escape special [] = s at h
    cases h with
    | nil => rfl
    | plain => cases hs
    | reference hmem =>
      obtain ⟨hc, rfl⟩ := eq_of_mem_predefined hmem
      exact absurd (entity_eq _ hc ▸ hs) (by simp [escape])
  | cons c text ih =>
    by_cases hc : c ∈ special
    · rw [escape_cons_of_mem hc] at h
      generalize hs : entity c ++ escape special text = s at h
      cases h with
      | nil => exact absurd hs (by simp [entity_eq c hc])
      | plain hd => exact absurd (cons.inj (entity_eq c hc ▸ hs)).1.symm hd.1
      | @reference _ d _ _ hmem hrest =>
        obtain ⟨hd, rfl⟩ := eq_of_mem_predefined hmem
        obtain rfl : c = d := by
          by_contra hne
          obtain ⟨hno, hno'⟩ := entity_not_prefix hd hc hne
          cases prefix_or_prefix_of_prefix (prefix_append _ _) (hs ▸ prefix_append _ _) with
          | inl hpre => exact hno hpre
          | inr hpre => exact hno' hpre
        obtain rfl := append_cancel_left hs
        rw [ih hrest]
    · rw [escape_cons_of_notMem hc] at h
      generalize hs : c :: escape special text = s at h
      cases h with
      | nil => cases hs
      | plain _ hrest =>
        obtain ⟨rfl, rfl⟩ := cons.inj hs
        rw [ih hrest]
      | reference hmem =>
        obtain ⟨hd, rfl⟩ := eq_of_mem_predefined hmem
        rw [entity_eq _ hd] at hs
        exact absurd ((cons.inj hs).1 ▸ by decide) hc

/-- A reader of XML takes what `id2xml` writes for the text and for nothing else,
between quotes of either kind. -/
theorem denotes_id2xml_iff (text value : Str) : (Denotes (id2xml text) value ↔ value = text) ∧
    ∀ c ∈ id2xml text, c ∈ special → c = '&' := by
  rw [id2xml_eq]
  refine ⟨⟨eq_of_denotes_escape, fun h => h ▸ denotes_escape text⟩, ?_⟩
  intro c hc hspe
  obtain ⟨d, -, hd⟩ := mem_flatMap.mp hc
  split at hd
  next hdsp =>
    rw [entity_eq d hdsp] at hd
    exact (mem_cons.mp hd).resolve_right fun hnam => notMem_of_mem_entityName hdsp hnam hspe
  next hdno => exact absurd (mem_singleton.mp hd ▸ hspe) hdno

end Bes.Dispatch.XmlEscape
