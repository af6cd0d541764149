import Bes.Dap.SplitCe

/-! `BESUtil::explode` and `BESUtil::implode`. -/
namespace Bes.Dispatch.Explode
open Dap.SplitCe List

structure InternalError where
  message : Str
deriving DecidableEq

variable {delim : Char} {rest value tail : Str}

/-- The quote at `k` stands behind a backslash that is not itself behind one. -/
def Escaped (rest : Str) (k : Nat) : Prop := rest[k - 1]? = some '\\' ∧ rest[k - 2]? ≠ some '\\'

instance : Decidable (Escaped rest k) := inferInstanceAs (Decidable (_ ∧ _))

/-- The quote that ends the value, looked for from `qstart` on. -/
def endQuote (rest : Str) (qstart : Nat) : Option Nat :=
  match _h : find '"' rest qstart with
  | none => none
  | some aquote => if Escaped rest aquote then endQuote rest (aquote + 1) else some aquote
termination_by rest.length - qstart
decreasing_by
  have := find_bounds _h
  omega

/-- `adelim`, with `none` for `npos`. Positions are counted from the start of the value: nothing
before it is read, since the look-back of two characters ends at the opening quote. -/
def nextDelim (delim : Char) (rest : Str) : Except InternalError (Option Nat) :=
  if rest.head? = some '"' then
    match endQuote rest 1 with
    | none => .error ⟨"BESUtil::explode - No end quote after value ".toList ++ rest⟩
    | some aquote =>
      let qstart := aquote + 1
      if rest[qstart]? ≠ some delim ∧ qstart ≠ rest.length then
        .error ⟨"BESUtil::explode - No delim after end quote ".toList ++ rest.take qstart⟩
      else .ok (if qstart = rest.length then none else some qstart)
  else .ok (find delim rest 0)

theorem nextDelim_quote (h : rest.head? = some '"') :
    nextDelim delim rest = .ok adelim ↔ ∃ a, endQuote rest 1 = some a ∧
      (rest[a + 1]? = some delim ∨ a + 1 = rest.length) ∧
        (if a + 1 = rest.length then none else some (a + 1)) = adelim := by
  rw [nextDelim, if_pos h]
  cases endQuote rest 1 with
  | none => simp
  | some a =>
    by_cases hbad : rest[a + 1]? ≠ some delim ∧ a + 1 ≠ rest.length
    · simp [hbad]
    · have hok := not_and_or.mp hbad
      simp only [if_neg hbad, Except.ok.injEq, Option.some.injEq, exists_eq_left']
      simp only [not_not] at hok
      simp [hok]

theorem nextDelim_lt (h : nextDelim delim rest = .ok (some a)) : a < rest.length := by
  by_cases hq : rest.head? = some '"'
  · obtain ⟨b, -, hok, hb⟩ := (nextDelim_quote hq).mp h
    split at hb
    · cases hb
    · next hne =>
      cases hb
      exact (List.getElem?_eq_some_iff.mp (hok.resolve_right hne)).1
  · rw [nextDelim, if_neg hq] at h
    exact (find_bounds (Except.ok.inj h)).2

def explode (delim : Char) (rest : Str) : Except InternalError (List Str) :=
  match _h : nextDelim delim rest with
  | .error failure => .error failure
  -- `npos + 1` is zero, the length of the empty string
  | .ok none => .ok (if rest = [] then [rest, []] else [rest])
  | .ok (some adelim) =>
    if adelim + 1 = rest.length then .ok [rest.take adelim, []]
    else (rest.take adelim :: ·) <$> explode delim (rest.drop (adelim + 1))
termination_by rest.length
decreasing_by
  have := nextDelim_lt _h
  rw [length_drop]
  omega

def implodeLoop (delim : Char) : Bool → Str → List Str → Except InternalError Str
  | _, result, [] => .ok result
  | first, result, value :: values =>
    let result := if first then result else result ++ [delim]
    if delim ∈ value ∧ value.head? ≠ some '"' then
      .error ⟨"BESUtil::implode - delimiter exists in value ".toList ++ value⟩
    else implodeLoop delim false (result ++ value) values

def implode (values : List Str) (delim : Char) : Except InternalError Str :=
  implodeLoop delim true [] values

def Plain (delim : Char) (value : Str) : Prop := delim ∉ value ∧ '"' ∉ value

def Quoted (value : Str) : Prop := ∃ inner, value = '"' :: inner ++ ['"']

def Readable (value : Str) : Prop :=
  ∀ k, 0 < k → value[k]? = some '"' → (Escaped value k ↔ k + 1 ≠ value.length)

structure Values where
  delim : Char
  values : List Str
  delim_ne : delim ≠ '"'
  nonempty : values ≠ []
  allowed : ∀ value ∈ values, Plain delim value ∨ Quoted value

theorem drop_quote (hk : q ≤ k) (h : rest[k]? = some '"') : (rest.drop q)[k - q]? = some '"' := by
  rw [getElem?_drop, Nat.add_sub_cancel' hk, h]

theorem find_quote (h : find '"' rest q = some a) :
    q ≤ a ∧ rest[a]? = some '"' ∧ ∀ k, q ≤ k → k < a → rest[k]? ≠ some '"' := by
  obtain ⟨before, after, hdrop, hno, rfl⟩ := find_eq_some h
  refine ⟨Nat.le_add_left .., ?_, fun k hk hlt hquote => hno ?_⟩
  · rw [Nat.add_comm, ← getElem?_drop, hdrop]
    simp
  · have hat := drop_quote hk hquote
    rw [hdrop, getElem?_append_left (by omega)] at hat
    exact mem_of_getElem? hat

theorem no_quote_of_find (h : find '"' rest q = none) (hk : q ≤ k) : rest[k]? ≠ some '"' := by
  intro hquote
  have hnone := findIdx?_eq_none_iff.mp (Option.map_eq_none_iff.mp h)
  simpa using hnone _ (mem_of_getElem? (drop_quote hk hquote))

theorem endQuote_eq_some_iff :
    endQuote rest q = some a ↔ q ≤ a ∧ rest[a]? = some '"' ∧ ¬ Escaped rest a ∧
      ∀ k, q ≤ k → k < a → rest[k]? = some '"' → Escaped rest k := by
  fun_induction endQuote rest q with
  | case1 q h => grind [no_quote_of_find]
  | case2 q p h hesc ih =>
    have hfound := find_quote h
    grind
  | case3 q p h hesc =>
    have hfound := find_quote h
    grind

theorem escaped_append (hk : k < value.length) : Escaped (value ++ tail) k ↔ Escaped value k := by
  unfold Escaped
  rw [getElem?_append_left (by omega), getElem?_append_left (by omega)]

theorem endQuote_append_iff (hq : Quoted value) :
    endQuote (value ++ tail) 1 = some (value.length - 1) ↔ Readable value := by
  obtain ⟨inner, rfl⟩ := hq
  have hlen : ('"' :: inner ++ ['"']).length = inner.length + 2 := by simp
  have hlast : ('"' :: inner ++ ['"'])[inner.length + 1]? = some '"' := by simp
  generalize '"' :: inner ++ ['"'] = value at hlen hlast
  have hesc : ∀ k < value.length, (Escaped (value ++ tail) k ↔ Escaped value k) :=
    fun k => escaped_append
  rw [endQuote_eq_some_iff]
  unfold Readable
  grind

theorem nextDelim_quoted_iff (hq : Quoted value) (hl : tail = [] ∨ tail.head? = some delim) :
    nextDelim delim (value ++ tail) = .ok (if tail = [] then none else some value.length) ↔
      Readable value := by
  rw [← @endQuote_append_iff value tail hq]
  obtain ⟨inner, rfl⟩ := hq
  rw [nextDelim_quote rfl]
  generalize hv : '"' :: inner ++ ['"'] = value
  have hnext : (value ++ tail)[value.length]? = tail.head? := by
    rw [getElem?_append_right (le_refl _), Nat.sub_self, head?_eq_getElem?]
  grind

theorem nextDelim_plain (hd : delim ≠ '"') (hp : Plain delim value)
    (hl : tail = [] ∨ tail.head? = some delim) :
    nextDelim delim (value ++ tail) = .ok (if tail = [] then none else some value.length) := by
  have hhead : (value ++ tail).head? ≠ some '"' := by
    have hno := hp.2
    cases value <;> grind
  rw [nextDelim, if_neg hhead]
  rcases tail with _ | ⟨c, tail⟩
  · rw [append_nil, find_eq_none hp.1]
    rfl
  · obtain rfl : c = delim := by simpa using hl
    rw [find_append hp.1]
    rfl

theorem take_eq_iff (h : a < (value ++ tail).length) :
    (value ++ tail).take a = value ↔ a = value.length := by
  refine ⟨fun heq => ?_, fun ha => ha ▸ take_left⟩
  have hlen := congrArg length heq
  rw [length_take] at hlen
  omega

theorem explode_last_iff :
    explode delim value = .ok [value] ↔ nextDelim delim value = .ok none ∧ value ≠ [] := by
  rw [explode]
  split
  · next h => simp [h]
  · next h => simp [h]
  · next a h =>
    have hlt := nextDelim_lt h
    have hne : value.take a ≠ value := by
      grind
    rw [h]
    split
    · simp
    · cases explode delim (value.drop (a + 1)) <;> simp [hne]

theorem explode_cons_iff : explode delim (value ++ delim :: rest) = .ok (value :: values) ↔
      nextDelim delim (value ++ delim :: rest) = .ok (some value.length) ∧
        if rest = [] then values = [[]] else explode delim rest = .ok values := by
  rw [explode]
  split
  · next h => simp [h]
  · next h => simp [h]
  · next a h =>
    have htake := take_eq_iff (nextDelim_lt h)
    rw [h]
    by_cases ha : a = value.length
    · subst ha
      have hend : value.length + 1 = (value ++ delim :: rest).length ↔ rest = [] := by simp
      have hdrop : (value ++ delim :: rest).drop (value.length + 1) = rest := by simp
      simp only [hend, hdrop, htake.mpr rfl, true_and]
      split
      · simp [eq_comm]
      · cases explode delim rest <;> simp
    · split
      · simp [htake, ha]
      · cases explode delim ((value ++ delim :: rest).drop (a + 1)) <;> simp [htake, ha]

theorem nextDelim_iff (hd : delim ≠ '"') (h : Plain delim value ∨ Quoted value)
    (hl : tail = [] ∨ tail.head? = some delim) :
    nextDelim delim (value ++ tail) = .ok (if tail = [] then none else some value.length) ↔
      (Quoted value → Readable value) := by
  rcases h with hp | hq
  · refine iff_of_true (nextDelim_plain hd hp hl) ?_
    rintro ⟨inner, rfl⟩
    exact absurd mem_cons_self hp.2
  · rw [nextDelim_quoted_iff hq hl]
    simp [hq]

theorem explode_iff (hd : delim ≠ '"') (values : List Str) :
    ∀ {value}, (∀ v ∈ value :: values, Plain delim v ∨ Quoted v) →
    (explode delim (value ++ values.flatMap (delim :: ·)) = .ok (value :: values) ↔
      value :: values ≠ [[]] ∧ ∀ v ∈ value :: values, Quoted v → Readable v) := by
  induction values with
  | nil =>
    intro value h
    have hnext := @nextDelim_iff _ _ [] hd (h value mem_cons_self) (.inl rfl)
    rw [append_nil, if_pos rfl] at hnext
    rw [flatMap_nil, append_nil, explode_last_iff, hnext]
    simp [and_comm]
  | cons next values ih =>
    intro value h
    have hnext := @nextDelim_iff _ _ (delim :: (next ++ values.flatMap (delim :: ·))) hd
      (h value mem_cons_self) (.inr rfl)
    rw [flatMap_cons, cons_append, explode_cons_iff]
    rw [if_neg (cons_ne_nil _ _)] at hnext
    rw [hnext]
    have hrest := ih fun v hv => h v (mem_cons_of_mem _ hv)
    split
    · next hnil =>
      obtain ⟨rfl, hvalues⟩ := append_eq_nil_iff.mp hnil
      obtain rfl := eq_nil_iff_forall_not_mem.mpr (by simpa using hvalues)
      have hno : ¬ Quoted [] := by simp [Quoted]
      simp [hno]
    · next hne =>
      grind

theorem delim_free_or_quote (h : Plain delim value ∨ Quoted value) :
    ¬ (delim ∈ value ∧ value.head? ≠ some '"') := by
  rintro ⟨hmem, hhead⟩
  obtain hp | ⟨inner, rfl⟩ := h
  · exact hp.1 hmem
  · exact hhead rfl

theorem implodeLoop_eq (values : List Str) : ∀ {result : Str},
    (∀ v ∈ values, Plain delim v ∨ Quoted v) →
    implodeLoop delim false result values = .ok (result ++ values.flatMap (delim :: ·)) := by
  induction values with
  | nil => simp [implodeLoop]
  | cons value values ih =>
    intro result h
    rw [implodeLoop, if_neg (delim_free_or_quote (h _ mem_cons_self)),
      ih fun v hv => h v (mem_cons_of_mem _ hv)]
    simp

theorem implode_eq (h : ∀ v ∈ value :: values, Plain delim v ∨ Quoted v) :
    implode (value :: values) delim = .ok (value ++ values.flatMap (delim :: ·)) := by
  rw [implode, implodeLoop, if_neg (delim_free_or_quote (h _ mem_cons_self)),
    implodeLoop_eq values fun v hv => h v (mem_cons_of_mem _ hv)]
  simp

def RoundTrips (given : Values) : Prop :=
  ((implode given.values given.delim).bind fun text => explode given.delim text) = .ok given.values

theorem roundTrips_iff (given : Values) : RoundTrips given ↔
      given.values ≠ [[]] ∧ ∀ value ∈ given.values, Quoted value → Readable value := by
  unfold RoundTrips
  obtain ⟨delim, _ | ⟨value, values⟩, hd, hne, h⟩ := given
  · exact absurd rfl hne
  rw [implode_eq h]
  exact explode_iff hd values h

def oneEmpty : Values where
  delim := ','
  values := [[]]
  delim_ne := Char.ne_of_val_ne (by decide)
  nonempty := cons_ne_nil _ _
  allowed := by simp [Plain]

theorem oneEmpty_not_roundTrips : ¬ RoundTrips oneEmpty :=
  fun h => (explode_last_iff.mp h).2 rfl

end Bes.Dispatch.Explode
