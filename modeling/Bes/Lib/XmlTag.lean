import Mathlib

/-! Start tags of XML elements as they are written, the attributes with their white space and their
quotes. Setting an attribute changes the text between its quotes and nothing else. -/
namespace Bes.Lib.XmlTag
open List

def IsSpace (c : Char) : Prop := c = ' ' ∨ c = '\t' ∨ c = '\n' ∨ c = '\r'

instance (c : Char) : Decidable (IsSpace c) :=
  inferInstanceAs (Decidable (c = ' ' ∨ c = '\t' ∨ c = '\n' ∨ c = '\r'))

inductive Quote
  | single
  | double
deriving DecidableEq

def Quote.char : Quote → Char
  | .single => '\''
  | .double => '"'

structure Name where
  chars : List Char
  chars_ne : chars ≠ []
  chars_all : ∀ c ∈ chars, ¬ IsSpace c ∧ c ∉ ['=', '<', '>', '/', '"', '\'']
deriving DecidableEq

structure Attribute where
  space : List Char
  name : Name
  beforeEq : List Char
  afterEq : List Char
  quote : Quote
  text : List Char
  space_ne : space ≠ []
  space_all : ∀ c ∈ space, IsSpace c
  beforeEq_all : ∀ c ∈ beforeEq, IsSpace c
  afterEq_all : ∀ c ∈ afterEq, IsSpace c
  text_quote : quote.char ∉ text
  text_lt : '<' ∉ text
deriving DecidableEq

def Attribute.render (a : Attribute) : List Char :=
  a.space ++ a.name.chars ++ a.beforeEq ++ '=' :: a.afterEq ++ a.quote.char :: a.text ++ [a.quote.char]

/-- How a character of a value is written between the quotes. White space other than a blank is written
as a reference, because a reader turns it into blanks. -/
def escapeChar (quote : Quote) (c : Char) : List Char :=
  if c = '&' then "&amp;".toList
  else if c = '<' then "&lt;".toList
  else if c = '\t' then "&#9;".toList
  else if c = '\n' then "&#10;".toList
  else if c = '\r' then "&#13;".toList
  else if c = quote.char then
    match quote with
    | .single => "&apos;".toList
    | .double => "&quot;".toList
  else [c]

def escape (quote : Quote) (value : List Char) : List Char := value.flatMap (escapeChar quote)

def Plain (quote : Quote) (value : List Char) : Prop := ∀ c ∈ value, escapeChar quote c = [c]

theorem escapeChar_cases (quote : Quote) (c : Char) :
    (escapeChar quote c = [c] ∧ c ≠ quote.char ∧ c ≠ '<') ∨
      (4 ≤ (escapeChar quote c).length ∧ quote.char ∉ escapeChar quote c ∧
        '<' ∉ escapeChar quote c) := by
  unfold escapeChar
  repeat' split
  all_goals first
    | exact .inl ⟨rfl, by assumption, by assumption⟩
    | exact .inr (by decide)
    | exact .inr (by cases quote <;> decide)

theorem quote_notMem_escape (quote : Quote) (value : List Char) : quote.char ∉ escape quote value := by
  intro hmem
  obtain ⟨c, -, hc⟩ := mem_flatMap.mp hmem
  cases escapeChar_cases quote c with
  | inl hslf =>
    rw [hslf.1, mem_singleton] at hc
    exact hslf.2.1 hc.symm
  | inr href => exact href.2.1 hc

theorem lt_notMem_escape (quote : Quote) (value : List Char) : '<' ∉ escape quote value := by
  intro hmem
  obtain ⟨c, -, hc⟩ := mem_flatMap.mp hmem
  cases escapeChar_cases quote c with
  | inl hslf =>
    rw [hslf.1, mem_singleton] at hc
    exact hslf.2.2 hc.symm
  | inr href => exact href.2.2 hc

theorem length_le_escape (quote : Quote) (value : List Char) :
    value.length ≤ (escape quote value).length := by
  induction value with
  | nil => exact Nat.zero_le _
  | cons c value ih =>
    have hrst : (escape quote (c :: value)).length =
        (escapeChar quote c).length + (escape quote value).length := by
      simp [escape]
    have hpos : 1 ≤ (escapeChar quote c).length := by
      cases escapeChar_cases quote c with
      | inl hslf => simp [hslf.1]
      | inr href => omega
    rw [hrst, length_cons]
    omega

theorem escape_eq_self_iff (quote : Quote) (value : List Char) :
    escape quote value = value ↔ Plain quote value := by
  induction value with
  | nil => simp [escape, Plain]
  | cons c value ih =>
    have hcns : escape quote (c :: value) = escapeChar quote c ++ escape quote value := by
      simp [escape]
    have hpla : Plain quote (c :: value) ↔ escapeChar quote c = [c] ∧ Plain quote value := by
      simp [Plain]
    rw [hcns, hpla, ← ih]
    cases escapeChar_cases quote c with
    | inl hslf => simp [hslf.1]
    | inr href =>
      have hlng := length_le_escape quote value
      constructor
      · intro heq
        have hlen := congrArg length heq
        rw [length_append, length_cons] at hlen
        omega
      · intro hbth
        rw [hbth.1] at href
        simp at href

/-- A start tag from its name to before its `>`. -/
structure StartTag where
  element : List Char
  attributes : List Attribute
  close : List Char
  close_all : ∀ c ∈ close, IsSpace c
  nodup : (attributes.map Attribute.name).Nodup

def StartTag.render (tag : StartTag) : List Char :=
  '<' :: tag.element ++ tag.attributes.flatMap Attribute.render ++ tag.close

def Attribute.withValue (a : Attribute) (value : List Char) : Attribute :=
  { a with
    text := escape a.quote value
    text_quote := quote_notMem_escape a.quote value
    text_lt := lt_notMem_escape a.quote value }

def setIn (name : Name) (value : List Char) (attributes : List Attribute) : List Attribute :=
  attributes.map fun a => if a.name = name then a.withValue value else a

theorem map_name_setIn (name : Name) (value : List Char) (attributes : List Attribute) :
    (setIn name value attributes).map Attribute.name = attributes.map Attribute.name := by
  unfold setIn
  rw [map_map]
  apply map_congr_left
  intro a _
  rw [Function.comp_apply]
  split <;> rfl

theorem setIn_of_forall_ne
    (hne : ∀ a ∈ attributes, a.name ≠ name) : setIn name value attributes = attributes := by
  conv_rhs => rw [← map_id attributes]
  apply map_congr_left
  intro a ha
  exact if_neg (hne a ha)

def newAttribute (space : List Char) (hspace : ∀ c ∈ space, IsSpace c) (name : Name)
    (value : List Char) : Attribute where
  space := space ++ [' ']
  name := name
  beforeEq := []
  afterEq := []
  quote := .double
  text := escape .double value
  space_ne := append_ne_nil_of_right_ne_nil space (cons_ne_nil ' ' [])
  space_all := by
    intro c hc
    cases mem_append.mp hc with
    | inl hspaced => exact hspace c hspaced
    | inr hblank => exact .inl (mem_singleton.mp hblank)
  beforeEq_all := forall_mem_nil _
  afterEq_all := forall_mem_nil _
  text_quote := quote_notMem_escape .double value
  text_lt := lt_notMem_escape .double value

def StartTag.set (tag : StartTag) (name : Name) (value : List Char) : StartTag :=
  if h : name ∈ tag.attributes.map Attribute.name then
    { tag with
      attributes := setIn name value tag.attributes
      nodup := (map_name_setIn name value tag.attributes).symm ▸ tag.nodup }
  else
    { tag with
      attributes := tag.attributes ++ [newAttribute tag.close tag.close_all name value]
      close := []
      close_all := forall_mem_nil _
      nodup := by
        rw [map_append, map_singleton, nodup_append]
        refine ⟨tag.nodup, nodup_singleton _, ?_⟩
        intro a ha b hb heq
        have hsame : a = name := heq.trans (mem_singleton.mp hb)
        exact h (hsame ▸ ha) }

@[simp] theorem StartTag.set_element (tag : StartTag) (name : Name) (value : List Char) :
    (tag.set name value).element = tag.element := by
  unfold StartTag.set
  split <;> rfl

def StartTag.frontOf (tag : StartTag) (before : List Attribute) (a : Attribute) : List Char :=
  '<' :: tag.element ++ before.flatMap Attribute.render ++ a.space

def Attribute.opening (a : Attribute) : List Char := a.beforeEq ++ '=' :: a.afterEq ++ [a.quote.char]

section

variable {tag : StartTag} {name : Name} {before after : List Attribute}

theorem render_cut (hspl : tag.attributes = before ++ a :: after) :
    tag.render = tag.frontOf before a ++ a.name.chars ++ a.opening ++ a.text ++
      a.quote.char :: (after.flatMap Attribute.render ++ tag.close) := by
  simp [StartTag.render, StartTag.frontOf, Attribute.opening, Attribute.render, hspl]

theorem ne_of_split (hspl : tag.attributes = before ++ a :: after) (hnam : a.name = name) :
    (∀ b ∈ before, b.name ≠ name) ∧ ∀ b ∈ after, b.name ≠ name := by
  have hnod := tag.nodup
  rw [hspl, map_append, map_cons, nodup_append] at hnod
  constructor
  · intro b hb heq
    exact hnod.2.2 b.name (mem_map_of_mem hb) a.name mem_cons_self (heq.trans hnam.symm)
  · intro b hb heq
    have hrst := (nodup_cons.mp hnod.2.1).1
    rw [hnam, ← heq] at hrst
    exact hrst (mem_map_of_mem hb)

theorem render_set_cut (hspl : tag.attributes = before ++ a :: after) (hnam : a.name = name)
    (value : List Char) :
    (tag.set name value).render = tag.frontOf before a ++ a.name.chars ++ a.opening ++
      escape a.quote value ++ a.quote.char :: (after.flatMap Attribute.render ++ tag.close) := by
  obtain ⟨hbef, haft⟩ := ne_of_split hspl hnam
  have hmem : name ∈ tag.attributes.map Attribute.name := by
    simp [hspl, hnam]
  have hset : setIn name value tag.attributes = before ++ a.withValue value :: after := by
    have happ : setIn name value tag.attributes =
        setIn name value before ++ (if a.name = name then a.withValue value else a) ::
          setIn name value after := by
      simp [setIn, hspl]
    rw [happ, if_pos hnam, setIn_of_forall_ne hbef, setIn_of_forall_ne haft]
  unfold StartTag.set
  rw [dif_pos hmem]
  simp [StartTag.render, StartTag.frontOf, Attribute.opening, Attribute.render, hset,
    Attribute.withValue]

end

theorem render_set_absent {tag : StartTag}
    (hnam : name ∉ tag.attributes.map Attribute.name) (value : List Char) : (tag.set name value).render =
      tag.render ++ ' ' :: name.chars ++ '=' :: '"' :: escape .double value ++ ['"'] := by
  unfold StartTag.set
  rw [dif_neg hnam]
  simp [StartTag.render, Attribute.render, newAttribute, Quote.char]

end Bes.Lib.XmlTag
