import Bes.Dispatch.Util
import Bes.Lib.XmlTag

/-! `insert_xml_base`: a stored document is copied to a stream, with another value of the attribute
`xml:base` in the start tag of its `Dataset` element. The function looks for the attribute in the bytes
of its first `read` only. -/
namespace Bes.Dap.InsertXmlBase
open Dispatch Lib.XmlTag List Option

abbrev Reads := Nat → Option Nat

inductive Failure
  | internalError (text : Str)
  /-- The function uses bytes of its buffer that no `read` has written. -/
  | undefined

/-- The `k`-th call of `read`, when `file` is still unread. It returns a byte at least, unless the file
is at its end. -/
def read (reads : Reads) (k size : Nat) (file : Str) : Except Failure Str :=
  match reads k with
  | none => .error (.internalError "Could not read dds from the metadata store.".toList)
  | some n => .ok (file.take (max 1 (min n size)))

variable {text rest value : Str} {doc : Document}

theorem drop_read_lt {k : Nat} (hread : read reads k size file = .ok (c :: bytes)) :
    (file.drop (c :: bytes).length).length < file.length := by
  unfold read at hread
  split at hread
  · cases hread
  · have hlen := congrArg length (Except.ok.inj hread)
    rw [length_take, length_cons] at hlen
    rw [length_drop, length_cons]
    omega

def transferBytes (reads : Reads) (k : Nat) (file os : Str) : Except Failure Str :=
  match _hread : read reads k (16 * 1024) file with
  | .error failure => .error failure
  | .ok [] => .ok os
  | .ok (c :: bytes) =>
      transferBytes reads (k + 1) (file.drop (c :: bytes).length) (os ++ c :: bytes)
termination_by file.length
decreasing_by exact drop_read_lt _hread

def xmlBaseLiteral : Str := "xml:base".toList

/-- `while (buf[i++] != c)`: what is passed, and what follows in the buffer. -/
def passThrough (c : Char) : Str → Option (Str × Str)
  | [] => none
  | d :: buf =>
      if d = c then some ([d], buf)
      else (passThrough c buf).map fun (passed, buf) => (d :: passed, buf)

def insertion (xmlBase : Str) : Str := " xml:base=\"".toList ++ xmlBase ++ "\"".toList

def replacement (xmlBase : Str) : Str := "=\"".toList ++ xmlBase ++ "\"".toList

/-- The loop over the start tag: what is written, and what is left in the buffer. `passed` is the text
from `s` to `i`; it is lost when the loop comes to the end of the buffer. -/
def scan (xmlBase : Str) (j : Nat) (passed : Str) : Str → Option (Str × Str)
  | [] => some ([], [])
  | c :: buf =>
      if c = '>' then some (passed ++ insertion xmlBase, c :: buf)
      else if j = xmlBaseLiteral.length then do
        let (_, buf) ← passThrough '=' (c :: buf)
        let (_, buf) ← passThrough '"' buf
        let (_, buf) ← passThrough '"' buf
        some (passed ++ replacement xmlBase, buf)
      else if xmlBaseLiteral[j]? = some c then scan xmlBase (j + 1) (passed ++ [c]) buf
      else scan xmlBase 0 (passed ++ [c]) buf

def insertXmlBase (reads : Reads) (xmlBase file : Str) : Except Failure Str :=
  match read reads 0 1024 file with
  | .error failure => .error failure
  | .ok [] => .ok []
  | .ok (c :: bytes) =>
      match passThrough '>' (c :: bytes) with
      | none => .error .undefined
      | some (prolog, buf) =>
          match scan xmlBase 0 [] buf with
          | none => .error .undefined
          | some (written, buf) =>
              transferBytes reads 1 (file.drop (c :: bytes).length) (prolog ++ written ++ buf)

theorem xmlBase_ne : xmlBaseLiteral ≠ [] := by
  decide

theorem xmlBase_all : ∀ c ∈ xmlBaseLiteral, ¬ IsSpace c ∧ c ∉ ['=', '<', '>', '/', '"', '\''] := by
  have hall : xmlBaseLiteral.all (fun c => decide (¬ IsSpace c ∧ c ∉ ['=', '<', '>', '/', '"', '\''])) = true := by
    decide
  intro c hc
  exact of_decide_eq_true (all_eq_true.mp hall c hc)

def xmlBaseName : Name := ⟨xmlBaseLiteral, xmlBase_ne, xmlBase_all⟩

/-- A document: the XML declaration, the start tag of `Dataset` and the rest. -/
structure Document where
  declaration : Str
  gap : Str
  tag : StartTag
  content : Str
  declaration_gt : '>' ∉ declaration
  gap_all : ∀ c ∈ gap, IsSpace c
  tag_element : tag.element = "Dataset".toList

namespace Document

def prolog (doc : Document) : Str := "<?xml".toList ++ doc.declaration ++ "?>".toList

def render (doc : Document) : Str := doc.prolog ++ (doc.gap ++ doc.tag.render ++ '>' :: doc.content)

/-- The document whose `xml:base` has a value. -/
def withBase (doc : Document) (value : Str) : Document :=
  { doc with
    tag := doc.tag.set xmlBaseName value
    tag_element := (doc.tag.set_element xmlBaseName value).trans doc.tag_element }

end Document

def Served (reads : Reads) (value : Str) (doc : Document) : Prop :=
  insertXmlBase reads value doc.render = .ok (doc.withBase value).render

/-- How many letters of `xml:base` the loop has seen, after one more character. -/
def progress (j : Nat) (c : Char) : Nat := if xmlBaseLiteral[j]? = some c then j + 1 else 0

/-- The loop stops nowhere in a text: it has no `>`, and no `xml:base` that the loop would find. -/
def Quiet : Nat → Str → Prop
  | _, [] => True
  | j, c :: text => c ≠ '>' ∧ j ≠ xmlBaseLiteral.length ∧ Quiet (progress j c) text

instance : ∀ (j : Nat) (text : Str), Decidable (Quiet j text)
  | _, [] => .isTrue trivial
  | j, c :: text =>
      have := instDecidableQuiet (progress j c) text
      inferInstanceAs (Decidable (_ ∧ _ ∧ _))

theorem transferBytes_eq (sizes : Nat → Nat) (k : Nat) (file os : Str) :
    transferBytes (fun k => some (sizes k)) k file os = .ok (os ++ file) := by
  fun_induction transferBytes (fun k => some (sizes k)) k file os with
  | case1 k file os failure hread => cases hread
  | case2 k file os hread =>
    have htake := Except.ok.inj hread
    have hempty : file = [] := by
      cases file with
      | nil => rfl
      | cons c file =>
        have hlen := congrArg length htake
        rw [length_take, length_cons, length_nil] at hlen
        omega
    rw [hempty, append_nil]
  | case3 k file os c bytes hread ih =>
    have htake := Except.ok.inj hread
    have hfile : c :: bytes ++ file.drop (c :: bytes).length = file := by
      apply prefix_iff_eq_append.mp
      rw [← htake]
      exact take_prefix _ file
    rw [ih, append_assoc, hfile]

theorem passThrough_append (hfront : c ∉ front) (rest : Str) :
    passThrough c (front ++ c :: rest) = some (front ++ [c], rest) := by
  induction front with
  | nil => simp [passThrough]
  | cons d front ih =>
    rw [mem_cons, not_or] at hfront
    simp [passThrough, Ne.symm hfront.1, ih hfront.2]

theorem passThrough_eq_none (htext : c ∉ text) : passThrough c text = none := by
  induction text with
  | nil => rfl
  | cons d text ih =>
    rw [mem_cons, not_or] at htext
    simp [passThrough, Ne.symm htext.1, ih htext.2]

theorem passThrough_length
    (hpass : passThrough c text = some (passed, rest)) : rest.length < text.length := by
  induction text generalizing passed rest with
  | nil => cases hpass
  | cons d text ih =>
    rw [passThrough] at hpass
    split at hpass
    · cases hpass
      exact Nat.lt_succ_self _
    · obtain ⟨⟨passed', rest'⟩, hrest, heq⟩ := map_eq_some_iff.mp hpass
      cases heq
      exact Nat.lt_trans (ih hrest) (Nat.lt_succ_self _)

theorem scan_quiet (value rest : Str) : ∀ {j : Nat} (passed : Str), Quiet j text →
      scan value j passed (text ++ rest) = scan value (text.foldl progress j) (passed ++ text) rest := by
  induction text with
  | nil => simp
  | cons c text ih =>
    intro j passed hqui
    obtain ⟨hgt, hj, hrest⟩ := hqui
    have hstep : scan value j passed (c :: (text ++ rest)) =
        scan value (progress j c) (passed ++ [c]) (text ++ rest) := by
      rw [scan, if_neg hgt, if_neg hj]
      unfold progress
      split <;> rfl
    rw [cons_append, hstep, ih _ hrest, foldl_cons, append_assoc, singleton_append]

theorem exists_stop :
    ∀ {j : Nat}, ¬ Quiet j text → ∃ front c rest, text = front ++ c :: rest ∧ Quiet j front ∧
      (c = '>' ∨ c ≠ '>' ∧ front.foldl progress j = xmlBaseLiteral.length) := by
  induction text with
  | nil =>
    intro j hqui
    exact absurd trivial hqui
  | cons c text ih =>
    intro j hqui
    by_cases hgt : c = '>'
    · exact ⟨[], c, text, rfl, trivial, .inl hgt⟩
    · by_cases hj : j = xmlBaseLiteral.length
      · exact ⟨[], c, text, rfl, trivial, .inr ⟨hgt, hj⟩⟩
      · have hrest : ¬ Quiet (progress j c) text := fun hrest => hqui ⟨hgt, hj, hrest⟩
        obtain ⟨front, d, rest, htext, hfront, hstop⟩ := ih hrest
        exact ⟨c :: front, d, rest, by rw [htext, cons_append], ⟨hgt, hj, hfront⟩, hstop⟩

theorem scan_gt (value : Str) (j : Nat) (passed rest : Str) :
    scan value j passed ('>' :: rest) = some (passed ++ insertion value, '>' :: rest) := by
  rw [scan, if_pos rfl]

theorem scan_match (hc : c ≠ '>')
    (hscan : scan value xmlBaseLiteral.length passed (c :: rest) = some (written, buf)) :
    written = passed ++ replacement value ∧ buf.length + 3 ≤ (c :: rest).length := by
  rw [scan, if_neg hc, if_pos rfl] at hscan
  simp only [bind_eq_bind, bind_eq_some_iff] at hscan
  obtain ⟨⟨_, first⟩, hfirst, ⟨_, second⟩, hsecond, ⟨_, third⟩, hthi, heq⟩ := hscan
  cases heq
  have hlen := passThrough_length hfirst
  have hlen' := passThrough_length hsecond
  have hlength'' := passThrough_length hthi
  refine ⟨rfl, ?_⟩
  dsimp only at *
  omega

/-- The start tag and what follows, with `m` bytes of it in the buffer. -/
def serve (value : Str) (m : Nat) (body : Str) : Option Str :=
  (scan value 0 [] (body.take m)).map fun (written, buf) => written ++ buf ++ body.drop m

theorem serve_lost (hqui : Quiet 0 (body.take m)) : serve value m body = some (body.drop m) := by
  have hscan := scan_quiet value [] [] hqui
  rw [append_nil] at hscan
  unfold serve
  rw [hscan]
  simp [scan]

theorem serve_at (hqui : Quiet 0 front) (hlt : front.length < m) :
    serve value m (front ++ c :: rest) =
      (scan value (front.foldl progress 0) front (c :: rest.take (m - front.length - 1))).map
        fun (written, buf) => written ++ buf ++ rest.drop (m - front.length - 1) := by
  have hm : m - front.length = (m - front.length - 1) + 1 := by omega
  unfold serve
  rw [take_append, take_of_length_le (by omega), drop_append,
    drop_of_length_le (by omega), hm, take_succ_cons, drop_succ_cons, scan_quiet _ _ _ hqui,
    nil_append, nil_append]
  simp

theorem serve_gt (hqui : Quiet 0 front) (hlt : front.length < m) :
    serve value m (front ++ '>' :: rest) = some (front ++ insertion value ++ '>' :: rest) := by
  rw [serve_at hqui hlt, scan_gt]
  simp

theorem serve_match (hqui : Quiet 0 front)
    (hlt : front.length < m) (hc : c ≠ '>') (hmatch : front.foldl progress 0 = xmlBaseLiteral.length)
    (hser : serve value m (front ++ c :: rest) = some out) :
    ∃ tail, out = front ++ replacement value ++ tail ∧ tail.length + 3 ≤ (c :: rest).length := by
  rw [serve_at hqui hlt, hmatch] at hser
  obtain ⟨⟨written, buf⟩, hscan, hout⟩ := map_eq_some_iff.mp hser
  obtain ⟨hwritten, hlen⟩ := scan_match hc hscan
  refine ⟨buf ++ rest.drop (m - front.length - 1), ?_, ?_⟩
  · rw [← hout, ← hwritten]
    exact append_assoc ..
  · rw [length_cons, length_take] at hlen
    rw [length_append, length_drop, length_cons]
    omega

theorem exists_stop_take (hqui : ¬ Quiet 0 (text.take m)) :
    ∃ front c rest, text = front ++ c :: rest ∧ front.length < m ∧ Quiet 0 front ∧
      (c = '>' ∨ c ≠ '>' ∧ front.foldl progress 0 = xmlBaseLiteral.length) := by
  obtain ⟨front, c, rest, htake, hfront, hstop⟩ := exists_stop hqui
  refine ⟨front, c, rest ++ text.drop m, ?_, ?_, hfront, hstop⟩
  · rw [← cons_append, ← append_assoc, ← htake, take_append_drop]
  · have hlen := congrArg length htake
    rw [length_take, length_append, length_cons] at hlen
    omega

theorem insertion_eq (value : Str) :
    insertion value = ' ' :: (xmlBaseLiteral ++ '=' :: '"' :: (value ++ ['"'])) := by
  rfl

theorem replacement_eq (value : Str) : replacement value = '=' :: '"' :: (value ++ ['"']) := by
  rfl

theorem length_xmlBaseLiteral : xmlBaseLiteral.length = 8 := by
  rfl

theorem length_insertion (value : Str) : (insertion value).length = value.length + 12 := by
  rw [insertion_eq]
  simp only [length_cons, length_append, length_xmlBaseLiteral, length_nil]
  omega

theorem length_replacement (value : Str) : (replacement value).length = value.length + 3 := by
  rw [replacement_eq]
  simp only [length_cons, length_append, length_nil]

theorem serve_absent_iff (value front rest : Str) (m : Nat) :
    serve value m (front ++ '>' :: rest) = some (front ++ insertion value ++ '>' :: rest) ↔
      Quiet 0 front ∧ front.length < m := by
  constructor
  · intro hser
    by_cases hqui : Quiet 0 (front.take m)
    · by_cases hlt : front.length < m
      · rw [take_of_length_le (Nat.le_of_lt hlt)] at hqui
        exact ⟨hqui, hlt⟩
      · rw [serve_lost (by rwa [take_append_of_le_length (by omega)])] at hser
        have hlen := congrArg length (some.inj hser)
        simp only [length_drop, length_append, length_cons, length_insertion] at hlen
        omega
    · obtain ⟨t, c, u, hfront, hlt, ht, hstop⟩ := exists_stop_take hqui
      rw [hfront, append_assoc, cons_append] at hser
      cases hstop with
      | inl hgt =>
        -- the new attribute would stand in front of this character, not behind it
        rw [hgt, serve_gt ht hlt] at hser
        have heq := some.inj hser
        simp only [insertion_eq, append_assoc, append_cancel_left_eq, cons_append] at heq
        exact absurd (cons.inj heq).1 (by decide)
      | inr hmatch =>
        obtain ⟨tail, hout, hlen⟩ := serve_match ht hlt hmatch.1 hmatch.2 hser
        have hlng := congrArg length hout
        simp only [length_append, length_cons, length_insertion, length_replacement] at hlng hlen
        omega
  · intro hfound
    exact serve_gt hfound.1 hfound.2

theorem progress_of_isSpace (hc : IsSpace c) (j : Nat) : progress j c = 0 := by
  apply if_neg
  intro hget
  exact (xmlBase_all c (mem_of_getElem? hget)).1 hc

theorem foldl_progress_space (hne : space ≠ []) (hall : ∀ c ∈ space, IsSpace c) (j : Nat) :
    space.foldl progress j = 0 := by
  rw [← dropLast_append_getLast hne, foldl_append, foldl_cons, foldl_nil]
  exact progress_of_isSpace (hall _ (getLast_mem hne)) _

theorem quiet_append {j : Nat} :
    Quiet j (front ++ rest) ↔ Quiet j front ∧ Quiet (front.foldl progress j) rest := by
  induction front generalizing j with
  | nil => simp [Quiet]
  | cons c front ih =>
    rw [cons_append, Quiet, Quiet, ih, foldl_cons]
    simp only [and_assoc]

theorem quiet_take {j : Nat} (hqui : Quiet j text) (m : Nat) : Quiet j (text.take m) := by
  rw [← take_append_drop m text] at hqui
  exact (quiet_append.mp hqui).1

theorem quiet_literal : Quiet 0 xmlBaseLiteral := by
  decide

theorem foldl_progress_literal : xmlBaseLiteral.foldl progress 0 = xmlBaseLiteral.length := by
  decide

theorem escape_replicate (quote : Quote) (n : Nat) (c : Char) (hc : c = 'a' ∨ c = 'b') :
    escape quote (replicate n c) = replicate n c := by
  rw [escape_eq_self_iff]
  intro d hd
  rw [eq_of_mem_replicate hd]
  cases hc with
  | inl ha =>
    rw [ha]
    cases quote <;> decide
  | inr hb =>
    rw [hb]
    cases quote <;> decide

section

variable {front tail : Str} {a : Attribute}

def presentWith (front tail : Str) (a : Attribute) (text : Str) : Str :=
  front ++ xmlBaseLiteral ++ a.opening ++ text ++ a.quote.char :: tail

structure Found (front : Str) (a : Attribute) (m : Nat) : Prop where
  quiet : Quiet 0 front
  beforeEq_nil : a.beforeEq = []
  afterEq_nil : a.afterEq = []
  quote_double : a.quote = .double
  length_le : front.length + xmlBaseLiteral.length + 3 + a.text.length ≤ m

theorem length_presentWith (text : Str) : (presentWith front tail a text).length =
      front.length + 8 + a.opening.length + text.length + 1 + tail.length := by
  simp only [presentWith, length_append, length_cons, length_xmlBaseLiteral]
  omega

theorem char_of_double (hquo : a.quote = .double) : a.quote.char = '"' := by
  rw [hquo]
  rfl

theorem presentWith_eq (hbefore : a.beforeEq = []) (hafter : a.afterEq = []) (hquo : a.quote = .double)
    (text : Str) :
    presentWith front tail a text =
      (front ++ xmlBaseLiteral) ++ '=' :: '"' :: (text ++ '"' :: tail) := by
  simp [presentWith, Attribute.opening, hbefore, hafter, char_of_double hquo]

theorem exists_opening (a : Attribute) (rest : Str) :
    ∃ c opened, a.opening ++ rest = c :: opened ∧ c ≠ '>' := by
  unfold Attribute.opening
  cases hbefore : a.beforeEq with
  | nil => exact ⟨'=', _, rfl, by decide⟩
  | cons c before =>
    refine ⟨c, _, rfl, ?_⟩
    intro hgt
    have hspa := a.beforeEq_all c (hbefore ▸ mem_cons_self)
    rw [hgt] at hspa
    exact absurd hspa (by decide)

theorem quiet_front_literal (hqui : Quiet 0 front) (hfront : front.foldl progress 0 = 0) :
    Quiet 0 (front ++ xmlBaseLiteral) := by
  rw [quiet_append, hfront]
  exact ⟨hqui, quiet_literal⟩

theorem foldl_front_literal (hfront : front.foldl progress 0 = 0) :
    (front ++ xmlBaseLiteral).foldl progress 0 = xmlBaseLiteral.length := by
  rw [foldl_append, hfront, foldl_progress_literal]

theorem scan_value (value passed buf : Str) (htext : '"' ∉ text) :
    scan value xmlBaseLiteral.length passed ('=' :: '"' :: (text ++ '"' :: buf)) =
      some (passed ++ replacement value, buf) := by
  have hquo : passThrough '"' ('"' :: (text ++ '"' :: buf)) = some (['"'], text ++ '"' :: buf) := by
    rw [passThrough, if_pos rfl]
  rw [scan, if_neg (by decide), if_pos rfl, passThrough, if_pos rfl]
  simp only [bind_eq_bind, bind_some, hquo, passThrough_append htext]

theorem scan_unterminated (value passed : Str) (htext : '"' ∉ text) :
    scan value xmlBaseLiteral.length passed ['='] = none ∧
      scan value xmlBaseLiteral.length passed ('=' :: '"' :: text) = none := by
  constructor
  · rfl
  · have hquo : passThrough '"' ('"' :: text) = some (['"'], text) := by
      rw [passThrough, if_pos rfl]
    rw [scan, if_neg (by decide), if_pos rfl, passThrough, if_pos rfl]
    simp only [bind_eq_bind, bind_some, hquo, passThrough_eq_none htext]
    rfl

theorem serve_present (hfound : Found front a m) (hfront : front.foldl progress 0 = 0)
    (tail value : Str) :
    serve value m (presentWith front tail a a.text) = some (presentWith front tail a value) := by
  obtain ⟨hqui, hbefore, hafter, hquo, hle⟩ := hfound
  have htext : '"' ∉ a.text := char_of_double hquo ▸ a.text_quote
  obtain ⟨k, hk⟩ : ∃ k, m - (front ++ xmlBaseLiteral).length - 1 = (a.text.length + k + 1) + 1 := by
    refine ⟨m - (front.length + xmlBaseLiteral.length + 3 + a.text.length), ?_⟩
    rw [length_append]
    omega
  have htake : ('"' :: (a.text ++ '"' :: tail)).take (a.text.length + k + 1 + 1) =
      '"' :: (a.text ++ '"' :: tail.take k) := by
    rw [take_succ_cons, Nat.add_assoc, take_length_add_append, take_succ_cons]
  have hdrop : ('"' :: (a.text ++ '"' :: tail)).drop (a.text.length + k + 1 + 1) = tail.drop k := by
    rw [drop_succ_cons, Nat.add_assoc, drop_length_add_append, drop_succ_cons]
  rw [presentWith_eq hbefore hafter hquo, presentWith_eq hbefore hafter hquo,
    serve_at (quiet_front_literal hqui hfront) (by rw [length_append]; omega),
    foldl_front_literal hfront, hk, htake, hdrop, scan_value _ _ _ htext]
  simp [replacement_eq]

/-- The function serves values of one letter as it should. Three of them are enough to see all that can
go wrong: two different letters, and a value that is longer than the old one. -/
def ServesLetters (front tail : Str) (a : Attribute) (m : Nat) : Prop :=
  ∀ n c, c = 'a' ∨ c = 'b' → serve (replicate n c) m (presentWith front tail a a.text) =
      some (presentWith front tail a (replicate n c))

theorem ServesLetters.quiet (hsrv : ServesLetters front tail a m) : Quiet 0 (front.take m) := by
  by_contra hqui
  obtain ⟨t, c, u, hfront, hlt, ht, hstop⟩ := exists_stop_take hqui
  have hbody : presentWith front tail a a.text =
      t ++ c :: (u ++ xmlBaseLiteral ++ a.opening ++ a.text ++ a.quote.char :: tail) := by
    simp [presentWith, hfront]
  cases hstop with
  | inl hgt =>
    have hser := hsrv 1 'a' (.inl rfl)
    rw [hbody, hgt, serve_gt ht hlt] at hser
    have hlen := congrArg length (some.inj hser)
    rw [length_presentWith, hfront] at hlen
    simp only [length_append, length_cons, length_insertion, length_replicate,
      length_xmlBaseLiteral] at hlen
    omega
  | inr hmatch =>
    -- the first letter of the new value stands where the tag has a letter of its own
    have hlet : ∀ d, d = 'a' ∨ d = 'b' → (front ++ xmlBaseLiteral)[t.length + 2]? = some d := by
      intro d hd
      have hser := hsrv 1 d hd
      rw [hbody] at hser
      obtain ⟨rest, hout, -⟩ := serve_match ht hlt hmatch.1 hmatch.2 hser
      have hget := congrArg (·[t.length + 2]?) hout
      rw [presentWith, append_assoc, append_assoc, getElem?_append_left (by
        rw [hfront, length_append, length_append, length_cons, length_xmlBaseLiteral]
        omega)] at hget
      rw [hget, replacement_eq, append_assoc, getElem?_append_right (by omega),
        Nat.add_sub_cancel_left]
      rfl
    have hsame := (hlet 'a' (.inl rfl)).symm.trans (hlet 'b' (.inr rfl))
    exact absurd (some.inj hsame) (by decide)

theorem ServesLetters.lt (hsrv : ServesLetters front tail a m) (hfront : front.foldl progress 0 = 0) :
    front.length + xmlBaseLiteral.length < m := by
  by_contra hge
  have hqui : Quiet 0 ((presentWith front tail a a.text).take m) := by
    have hsho : (presentWith front tail a a.text).take m = (front ++ xmlBaseLiteral).take m := by
      rw [presentWith, append_assoc, append_assoc, take_append_of_le_length (by
        rw [length_append]
        omega)]
    rw [hsho]
    by_cases hle : m ≤ front.length
    · rw [take_append_of_le_length hle]
      exact hsrv.quiet
    · have hall := hsrv.quiet
      rw [take_of_length_le (by omega)] at hall
      exact quiet_take (quiet_front_literal hall hfront) m
  have hser := hsrv (a.text.length + 1) 'a' (.inl rfl)
  rw [serve_lost hqui] at hser
  have hlen := congrArg length (some.inj hser)
  rw [length_drop, length_presentWith, length_presentWith, length_replicate] at hlen
  omega

theorem opening_eq (heq : a.opening ++ rest = '=' :: '"' :: rest') :
    a.beforeEq = [] ∧ a.afterEq = [] ∧ a.quote = .double := by
  unfold Attribute.opening at heq
  have hbefore : a.beforeEq = [] := by
    cases hcase : a.beforeEq with
    | nil => rfl
    | cons c before =>
      rw [hcase] at heq
      have hspa := a.beforeEq_all c (hcase ▸ mem_cons_self)
      rw [(cons.inj heq).1] at hspa
      exact absurd hspa (by decide)
  have hafter : a.afterEq = [] := by
    cases hcase : a.afterEq with
    | nil => rfl
    | cons c after =>
      rw [hbefore, hcase] at heq
      have hspa := a.afterEq_all c (hcase ▸ mem_cons_self)
      rw [(cons.inj (cons.inj heq).2).1] at hspa
      exact absurd hspa (by decide)
  refine ⟨hbefore, hafter, ?_⟩
  rw [hbefore, hafter] at heq
  have hchar : a.quote.char = '"' := (cons.inj (cons.inj heq).2).1
  cases hcase : a.quote with
  | double => rfl
  | single =>
    rw [hcase] at hchar
    exact absurd hchar (by decide)

theorem ServesLetters.found (hsrv : ServesLetters front tail a m)
    (hfront : front.foldl progress 0 = 0) : Found front a m := by
  have hlt := hsrv.lt hfront
  have hqui := hsrv.quiet
  rw [take_of_length_le (by omega)] at hqui
  obtain ⟨c, opened, hope, hc⟩ := exists_opening a (a.text ++ a.quote.char :: tail)
  have hbody : presentWith front tail a a.text = (front ++ xmlBaseLiteral) ++ c :: opened := by
    rw [← hope]
    simp [presentWith]
  have hser := hsrv 1 'a' (.inl rfl)
  rw [hbody] at hser
  have hlt' : (front ++ xmlBaseLiteral).length < m := by
    rw [length_append]
    exact hlt
  obtain ⟨rest, hout, -⟩ := serve_match (quiet_front_literal hqui hfront) hlt' hc
    (foldl_front_literal hfront) hser
  obtain ⟨hbefore, hafter, hquo⟩ := opening_eq (show a.opening ++ _ = _ by
    simpa [presentWith, replacement_eq] using hout)
  refine ⟨hqui, hbefore, hafter, hquo, ?_⟩
  by_contra hlong
  have htext : '"' ∉ a.text := char_of_double hquo ▸ a.text_quote
  have hser' := hsrv 1 'a' (.inl rfl)
  rw [presentWith_eq hbefore hafter hquo, serve_at (quiet_front_literal hqui hfront) hlt',
    foldl_front_literal hfront] at hser'
  -- the buffer ends behind the equals sign or within the old value
  cases hk : m - (front ++ xmlBaseLiteral).length - 1 with
  | zero =>
    rw [hk, take_zero, (scan_unterminated _ _ htext).1] at hser'
    cases hser'
  | succ k =>
    have hcut : k ≤ a.text.length := by
      rw [length_append] at hk
      omega
    have hpart : '"' ∉ a.text.take k := fun hmem => htext (mem_of_mem_take hmem)
    rw [hk, take_succ_cons, take_append_of_le_length hcut, (scan_unterminated _ _ hpart).2] at hser'
    cases hser'

end

def firstRead (sizes : Nat → Nat) : Nat := max 1 (min (sizes 0) 1024)

theorem insertXmlBase_eq_ok_iff (sizes : Nat → Nat) (value : Str) (hfront : '>' ∉ front)
    (body out : Str) :
    insertXmlBase (fun k => some (sizes k)) value (front ++ '>' :: body) = .ok (front ++ '>' :: out) ↔
      front.length < firstRead sizes ∧
        serve value (firstRead sizes - front.length - 1) body = some out := by
  have hread : read (fun k => some (sizes k)) 0 1024 (front ++ '>' :: body) =
      .ok ((front ++ '>' :: body).take (firstRead sizes)) := rfl
  have hpos : 1 ≤ firstRead sizes := Nat.le_max_left 1 _
  have hdrop : ∀ bytes, (front ++ '>' :: body).take (firstRead sizes) = bytes →
      (front ++ '>' :: body).drop bytes.length = (front ++ '>' :: body).drop (firstRead sizes) := by
    intro bytes hbytes
    have happ := prefix_iff_eq_append.mp ( take_prefix (firstRead sizes) (front ++ '>' :: body))
    rw [hbytes] at happ
    have hboth : bytes ++ (front ++ '>' :: body).drop bytes.length =
        bytes ++ (front ++ '>' :: body).drop (firstRead sizes) := by
      rw [happ, ← hbytes, take_append_drop]
    exact append_cancel_left hboth
  cases htake : (front ++ '>' :: body).take (firstRead sizes) with
  | nil =>
    have hlen := congrArg length htake
    rw [length_take, length_append, length_cons, length_nil] at hlen
    omega
  | cons c bytes =>
    unfold insertXmlBase
    rw [hread, htake]
    dsimp only
    rw [hdrop _ htake, ← htake]
    by_cases hlt : front.length < firstRead sizes
    · have hsub : firstRead sizes - front.length = (firstRead sizes - front.length - 1) + 1 := by omega
      rw [take_append, take_of_length_le (by omega), drop_append,
        drop_of_length_le (by omega), hsub, take_succ_cons, drop_succ_cons,
        passThrough_append hfront]
      unfold serve
      cases hscan : scan value 0 [] (body.take (firstRead sizes - front.length - 1)) with
      | none => simp [hscan]
      | some result => simp [hscan, transferBytes_eq, hlt]
    · have hmis : '>' ∉ (front ++ '>' :: body).take (firstRead sizes) := by
        rw [take_append_of_le_length (by omega)]
        exact fun hmem => hfront (mem_of_mem_take hmem)
      rw [passThrough_eq_none hmis]
      simp [hlt]

namespace Document

theorem gt_notMem_prolog (doc : Document) : '>' ∉ "<?xml".toList ++ doc.declaration ++ ['?'] := by
  have hopen : '>' ∉ "<?xml".toList := by
    decide
  have hclo : '>' ∉ ['?'] := by
    decide
  rw [mem_append, mem_append, not_or, not_or]
  exact ⟨⟨hopen, doc.declaration_gt⟩, hclo⟩

theorem prolog_eq (doc : Document) : doc.prolog = ("<?xml".toList ++ doc.declaration ++ ['?']) ++ ['>'] := by
  rw [append_assoc _ ['?']]
  rfl

end Document

def inBuffer (sizes : Nat → Nat) (doc : Document) : Nat := firstRead sizes - doc.prolog.length

theorem served_eq_iff (sizes : Nat → Nat) (value : Str) (doc : Document) :
    Served (fun k => some (sizes k)) value doc ↔ doc.prolog.length ≤ firstRead sizes ∧
        serve value (inBuffer sizes doc) (doc.gap ++ doc.tag.render ++ '>' :: doc.content) =
          some (doc.gap ++ (doc.tag.set xmlBaseName value).render ++ '>' :: doc.content) := by
  have hpro : (doc.withBase value).prolog = doc.prolog := rfl
  have hcons : ∀ text : Str, doc.prolog ++ text =
      ("<?xml".toList ++ doc.declaration ++ ['?']) ++ '>' :: text := by
    intro text
    rw [doc.prolog_eq, append_assoc _ ['>'], singleton_append]
  have hlen : doc.prolog.length = ("<?xml".toList ++ doc.declaration ++ ['?']).length + 1 := by
    rw [doc.prolog_eq]
    exact length_append
  unfold Served Document.render inBuffer
  rw [hpro, hcons, hcons, insertXmlBase_eq_ok_iff sizes value doc.gt_notMem_prolog, hlen,
    Nat.sub_add_eq]
  rfl

/-- The loop finds the place: in a tag with the attribute its value, in a tag without it the end. -/
structure Findable (doc : Document) (n : Nat) : Prop where
  absent : xmlBaseName ∉ doc.tag.attributes.map Attribute.name →
    Quiet 0 (doc.gap ++ doc.tag.render) ∧ doc.prolog.length + (doc.gap ++ doc.tag.render).length < n
  present : ∀ before a after, doc.tag.attributes = before ++ a :: after → a.name = xmlBaseName →
    doc.prolog.length ≤ n ∧ Found (doc.gap ++ doc.tag.frontOf before a) a (n - doc.prolog.length)

theorem foldl_progress_front (doc : Document) (before : List Attribute) (a : Attribute) :
    (doc.gap ++ doc.tag.frontOf before a).foldl progress 0 = 0 := by
  unfold StartTag.frontOf
  rw [← append_assoc, foldl_append]
  exact foldl_progress_space a.space_ne a.space_all _

theorem render_around {after : List Attribute} {a : Attribute}
    (hsplit : doc.tag.attributes = before ++ a :: after) (hname : a.name = xmlBaseName) :
    doc.gap ++ doc.tag.render ++ '>' :: doc.content =
        presentWith (doc.gap ++ doc.tag.frontOf before a)
          (after.flatMap Attribute.render ++ doc.tag.close ++ '>' :: doc.content) a a.text ∧
      ∀ value, doc.gap ++ (doc.tag.set xmlBaseName value).render ++ '>' :: doc.content =
        presentWith (doc.gap ++ doc.tag.frontOf before a)
          (after.flatMap Attribute.render ++ doc.tag.close ++ '>' :: doc.content) a
          (escape a.quote value) := by
  have hcha : a.name.chars = xmlBaseLiteral := by
    rw [hname]
    rfl
  constructor
  · rw [render_cut hsplit, hcha]
    simp [presentWith]
  · intro value
    rw [render_set_cut hsplit hname, hcha]
    simp [presentWith]

theorem render_set_around (hname : xmlBaseName ∉ doc.tag.attributes.map Attribute.name)
    (value : Str) :
    doc.gap ++ (doc.tag.set xmlBaseName value).render ++ '>' :: doc.content =
      doc.gap ++ doc.tag.render ++ insertion (escape .double value) ++ '>' :: doc.content := by
  have hcha : xmlBaseName.chars = xmlBaseLiteral := rfl
  rw [render_set_absent hname, insertion_eq, hcha]
  simp

theorem findable_of_served
    (hsev : ∀ value, Plain .double value → Served (fun k => some (sizes k)) value doc) :
    Findable doc (firstRead sizes) := by
  constructor
  · intro hname
    have hempty := hsev [] (forall_mem_nil _)
    rw [served_eq_iff, render_set_around hname] at hempty
    obtain ⟨hpro, hser⟩ := hempty
    obtain ⟨hqui, hlt⟩ := (serve_absent_iff [] _ _ _).mp hser
    refine ⟨hqui, ?_⟩
    unfold inBuffer at hlt
    omega
  · intro before a after hsplit hname
    obtain ⟨hbody, hbod⟩ := render_around hsplit hname
    have hempty := hsev [] (forall_mem_nil _)
    rw [served_eq_iff] at hempty
    refine ⟨hempty.1, ?_⟩
    have hltt : ServesLetters (doc.gap ++ doc.tag.frontOf before a)
        (after.flatMap Attribute.render ++ doc.tag.close ++ '>' :: doc.content) a
        (inBuffer sizes doc) := by
      intro n c hc
      have hplace := (escape_eq_self_iff .double _).mp (escape_replicate .double n c hc)
      have hser := hsev _ hplace
      rw [served_eq_iff, hbody, hbod, escape_replicate a.quote n c hc] at hser
      exact hser.2
    exact hltt.found (foldl_progress_front doc before a)

theorem served_iff_plain (hfind : Findable doc (firstRead sizes))
    (value : Str) : Served (fun k => some (sizes k)) value doc ↔ Plain .double value := by
  rw [served_eq_iff, ← escape_eq_self_iff]
  by_cases hname : xmlBaseName ∈ doc.tag.attributes.map Attribute.name
  · obtain ⟨a, ha, hana⟩ := mem_map.mp hname
    obtain ⟨before, after, hsplit⟩ := append_of_mem ha
    obtain ⟨hbody, hbod⟩ := render_around hsplit hana
    obtain ⟨hpro, hfound⟩ := hfind.present before a after hsplit hana
    unfold inBuffer
    rw [hbody, hbod, serve_present hfound (foldl_progress_front doc before a), hfound.quote_double]
    simp [presentWith, hpro, eq_comm]
  · obtain ⟨hqui, hlt⟩ := hfind.absent hname
    have hser := (serve_absent_iff value (doc.gap ++ doc.tag.render) doc.content
      (inBuffer sizes doc)).mpr ⟨hqui, by unfold inBuffer; omega⟩
    have hpro : doc.prolog.length ≤ firstRead sizes := by omega
    rw [render_set_around hname, hser, insertion_eq, insertion_eq]
    simp [hpro, eq_comm]

/-- A document is served with every value that is written as it is, if and only if the loop finds the
place in the first fragment; and then it is served with no other value. -/
theorem served_iff_findable (sizes : Nat → Nat) (doc : Document) :
    ((∀ value, Plain .double value → Served (fun k => some (sizes k)) value doc) ↔
      Findable doc (firstRead sizes)) ∧
    (Findable doc (firstRead sizes) → ∀ value, Served (fun k => some (sizes k)) value doc →
      Plain .double value) := by
  constructor
  · constructor
    · exact findable_of_served
    · intro hfind value hplace
      exact (served_iff_plain hfind value).mpr hplace
  · intro hfind value hsev
    exact (served_iff_plain hfind value).mp hsev

theorem datasetName_ne : "name".toList ≠ [] := by
  decide

theorem datasetName_all : ∀ c ∈ "name".toList, ¬ IsSpace c ∧ c ∉ ['=', '<', '>', '/', '"', '\''] := by
  have hall : "name".toList.all (fun c => decide (¬ IsSpace c ∧ c ∉ ['=', '<', '>', '/', '"', '\''])) = true := by
    decide
  intro c hc
  exact of_decide_eq_true (all_eq_true.mp hall c hc)

def nameAttribute : Attribute :=
  newAttribute [] (forall_mem_nil _) ⟨"name".toList, datasetName_ne, datasetName_all⟩ "d".toList

def smallTag : StartTag :=
  ⟨"Dataset".toList, [nameAttribute], [], forall_mem_nil _, nodup_singleton _⟩

theorem smallTag_element : smallTag.element = "Dataset".toList := rfl

theorem smallDeclaration_gt : '>' ∉ " version=\"1.0\"".toList := by
  decide

def smallDocument : Document :=
  ⟨" version=\"1.0\"".toList, [], smallTag, "</Dataset>".toList, smallDeclaration_gt,
    forall_mem_nil _, smallTag_element⟩

/-- When the first fragment ends within the start tag, what it has of the tag is lost. -/
theorem smallDocument_loses : insertXmlBase (fun _ => some 30) "x".toList smallDocument.render =
        .ok "<?xml version=\"1.0\"?>name=\"d\"></Dataset>".toList ∧
      ¬ Served (fun _ => some 30) "x".toList smallDocument := by
  have hout : insertXmlBase (fun _ => some 30) "x".toList smallDocument.render =
      .ok "<?xml version=\"1.0\"?>name=\"d\"></Dataset>".toList :=
    (insertXmlBase_eq_ok_iff (fun _ => 30) "x".toList smallDocument.gt_notMem_prolog
      (smallDocument.gap ++ smallTag.render ++ '>' :: smallDocument.content)
      "name=\"d\"></Dataset>".toList).mpr (by decide)
  refine ⟨hout, ?_⟩
  unfold Served
  rw [hout]
  intro heq
  exact absurd (Except.ok.inj heq) (by decide)

end Bes.Dap.InsertXmlBase
