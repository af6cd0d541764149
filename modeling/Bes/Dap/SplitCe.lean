import Bes.Dispatch.Util
import Bes.Lib.Balanced

/-! `BESDapResponseBuilder::split_ce` takes the calls of server functions out of a constraint. It
finds the end of the first call by counting parentheses, and the end of the others at the next
closing parenthesis. -/
namespace Bes.Dap.SplitCe
open Dispatch Lib List

inductive Failure where
  | syntaxUser (message : Str)
  /-- The `int` that counts parentheses. -/
  | overflow

def find (c : Char) (ce : Str) (pos : Nat) : Option Nat :=
  ((ce.drop pos).findIdx? fun other => decide (other = c)).map (· + pos)

/-- The loop of `find_closing_paren`, at the position of the rest of the string. -/
def closingLoop (ce : Str) : Nat → Nat → Str → Except Failure Nat
  | _, _, [] =>
    .error (.syntaxUser ("Expected to find a matching closing parenthesis in: ".toList ++ ce))
  | count, pos, c :: rest =>
    if c = '(' then
      if count + 1 < 2 ^ 31 then closingLoop ce (count + 1) (pos + 1) rest else .error .overflow
    else if c = ')' then
      if 0 < count - 1 then closingLoop ce (count - 1) (pos + 1) rest else .ok pos
    else closingLoop ce count (pos + 1) rest

def findClosingParen (ce : Str) (pos : Nat) : Except Failure Nat :=
  closingLoop ce 1 (pos + 1) (ce.drop (pos + 1))

/-- The variables of the loop in `split_ce`. -/
structure Cursor where
  ce : Str
  pos : Nat
  btpFunctionCe : Str

def erase (ce : Str) (pos len : Nat) : Str := ce.take pos ++ ce.drop (pos + len)

def step (findFunction : Str → Bool) (cursor : Cursor) (firstParen closingParen : Nat) : Cursor :=
  let rest := cursor.ce.drop cursor.pos
  let len := closingParen + 1 - cursor.pos
  if findFunction (rest.take (firstParen - cursor.pos)) then
    let before :=
      if cursor.btpFunctionCe ≠ [] then cursor.btpFunctionCe ++ [','] else cursor.btpFunctionCe
    let ce := erase cursor.ce cursor.pos len
    { cursor with
      ce := if ce[cursor.pos]? = some ',' then erase ce cursor.pos 1 else ce
      btpFunctionCe := before ++ rest.take len }
  else
    let pos := closingParen + 1
    { cursor with pos := if cursor.ce[pos]? = some ',' then pos + 1 else pos }

variable {ce before name : Str} {pos : Nat} {calls : List Call}

theorem find_eq_some {i : Nat} (hfound : find c ce pos = some i) :
    ∃ before after, ce.drop pos = before ++ c :: after ∧ c ∉ before ∧ i = before.length + pos := by
  obtain ⟨j, hj, rfl⟩ := Option.map_eq_some_iff.mp hfound
  obtain ⟨hlt, hc, hbefore⟩ := findIdx?_eq_some_iff_getElem.mp hj
  refine ⟨(ce.drop pos).take j, (ce.drop pos).drop (j + 1), ?_, ?_, ?_⟩
  · rw [← of_decide_eq_true hc, getElem_cons_drop, take_append_drop]
  · intro hmem
    obtain ⟨k, hk, heq⟩ := getElem_of_mem hmem
    rw [length_take] at hk
    rw [getElem_take] at heq
    exact hbefore k (by omega) (decide_eq_true heq)
  · rw [length_take]
    omega

theorem find_bounds {i : Nat} (hfound : find c ce pos = some i) : pos ≤ i ∧ i < ce.length := by
  obtain ⟨before, after, hce, -, rfl⟩ := find_eq_some hfound
  have hlng := congrArg length hce
  rw [length_drop, length_append, length_cons] at hlng
  omega

theorem length_erase_lt (hlen : 0 < len) (hpos : pos < ce.length) :
    (erase ce pos len).length < ce.length := by
  unfold erase
  rw [length_append, length_take, length_drop]
  omega

theorem length_erase_le (ce : Str) (pos len : Nat) : (erase ce pos len).length ≤ ce.length := by
  unfold erase
  rw [length_append, length_take, length_drop]
  omega

theorem step_decreases (findFunction : Str → Bool) (cursor : Cursor) (firstParen : Nat) (hle : cursor.pos ≤ closingParen) (hlt : closingParen < cursor.ce.length) :
    (step findFunction cursor firstParen closingParen).ce.length
        - (step findFunction cursor firstParen closingParen).pos
      < cursor.ce.length - cursor.pos := by
  unfold step
  dsimp only
  split
  · have hers : (erase cursor.ce cursor.pos (closingParen + 1 - cursor.pos)).length
        < cursor.ce.length := length_erase_lt (by omega) (by omega)
    dsimp only
    split
    · have hcom := length_erase_le (erase cursor.ce cursor.pos (closingParen + 1 - cursor.pos))
        cursor.pos 1
      omega
    · omega
  · dsimp only
    split <;> omega

def laterCalls (findFunction : Str → Bool) (cursor : Cursor) : Cursor :=
  match find '(' cursor.ce cursor.pos with
  | none => cursor
  | some firstParen =>
    match _hclosing : find ')' cursor.ce cursor.pos with
    | none => cursor
    | some closingParen => laterCalls findFunction (step findFunction cursor firstParen closingParen)
termination_by cursor.ce.length - cursor.pos
decreasing_by
  have hbounds := find_bounds _hclosing
  exact step_decreases findFunction cursor firstParen hbounds.1 hbounds.2

/-- The members `d_dap2ce` and `d_btp_func_ce`. -/
structure Builder where
  dap2ce : Str
  btpFuncCe : Str

def Builder.constraint (builder : Builder) (expr : Str) : Str :=
  if expr ≠ [] then expr else builder.dap2ce

def Builder.splitCe (builder : Builder) (findFunction : Str → Bool) (expr : Str) :
    Except Failure Builder :=
  let ce := builder.constraint expr
  match find '(' ce 0 with
  | none => .ok ⟨ce, []⟩
  | some firstParen =>
    match findClosingParen ce firstParen with
    | .error failure => .error failure
    | .ok closingParen =>
      let last := laterCalls findFunction (step findFunction ⟨ce, 0, []⟩ firstParen closingParen)
      .ok ⟨last.ce, last.btpFunctionCe⟩

structure Functions where
  findFunction : Str → Bool
  opening : ∀ name, findFunction name = true → '(' ∉ name
  closing : ∀ name, findFunction name = true → ')' ∉ name

structure Call where
  name : Str
  args : Str
  balanced : Balanced '(' ')' args

def Call.text (call : Call) : Str := call.name ++ '(' :: (call.args ++ [')'])

def expression (calls : List Call) (items : List Str) : Str :=
  [','].intercalate (calls.map Call.text ++ items)

theorem find_append (hbefore : c ∉ before) (after : Str) :
    find c (before ++ c :: after) 0 = some before.length := by
  unfold find
  rw [drop_zero, findIdx_append hbefore]
  rfl

theorem find_eq_none (hce : c ∉ ce) : find c ce 0 = none := by
  unfold find
  rw [drop_zero, findIdx_eq_none hce]
  rfl

theorem closingLoop_closing (ce : Str) (count pos : Nat) (rest : Str) :
    closingLoop ce (count + 1) pos (')' :: rest)
      = if 0 < count then closingLoop ce count (pos + 1) rest else .ok pos := by
  rfl

theorem closingLoop_balanced (ce : Str) (harg : Balanced '(' ')' args) {count : Nat}
    (hpos : 0 < count) (hcnt : count < 2 ^ 31) (pos : Nat) (rest : Str) :
    closingLoop ce count pos (args ++ rest) = if height '(' ')' count args < 2 ^ 31
        then closingLoop ce count (pos + args.length) rest else .error .overflow := by
  induction harg generalizing count pos rest with
  | nil => exact (if_pos hcnt).symm
  | @char c text hopen hcls _ ih =>
    have hhei : height '(' ')' count (c :: text) = height '(' ')' count text := by
      rw [height, if_neg hopen, if_neg hcls]
      exact Nat.max_eq_right (le_height _ _ count text)
    rw [cons_append, closingLoop, if_neg hopen, if_neg hcls, ih hpos hcnt, hhei,
      length_cons, Nat.add_assoc, Nat.add_comm 1]
  | @nest inner text hinn _ ihinner ihtext =>
    have hhei : height '(' ')' count ('(' :: (inner ++ ')' :: text))
        = max (height '(' ')' (count + 1) inner) (height '(' ')' count text) := by
      have hlow := le_height '(' ')' (count + 1) inner
      rw [height, if_pos rfl, hinn.height_append (by decide), height, if_neg (by decide),
        if_pos rfl, Nat.add_sub_cancel]
      omega
    rw [cons_append, closingLoop, if_pos rfl, hhei, append_assoc, cons_append]
    by_cases hnext : count + 1 < 2 ^ 31
    · rw [if_pos hnext, ihinner (by omega) hnext]
      by_cases hdep : height '(' ')' (count + 1) inner < 2 ^ 31
      · rw [if_pos hdep, closingLoop_closing, if_pos hpos, ihtext hpos hcnt]
        have hlng : pos + 1 + inner.length + 1 + text.length
            = pos + ('(' :: (inner ++ ')' :: text)).length := by
          rw [length_cons, length_append, length_cons]
          omega
        rw [hlng]
        by_cases htext : height '(' ')' count text < 2 ^ 31
        · rw [if_pos htext, if_pos (Nat.max_lt.mpr ⟨hdep, htext⟩)]
        · rw [if_neg htext, if_neg fun hmax => htext (Nat.max_lt.mp hmax).2]
      · rw [if_neg hdep, if_neg fun hmax => hdep (Nat.max_lt.mp hmax).1]
    · have hdep : ¬ height '(' ')' (count + 1) inner < 2 ^ 31 := by
        have hlow := le_height '(' ')' (count + 1) inner
        omega
      rw [if_neg hnext, if_neg fun hmax => hdep (Nat.max_lt.mp hmax).1]

theorem findClosingParen_call (name : Str) (harg : Balanced '(' ')' args) (after : Str) :
    findClosingParen (name ++ '(' :: (args ++ ')' :: after)) name.length
      = if height '(' ')' 1 args < 2 ^ 31
        then .ok (name.length + 1 + args.length) else .error .overflow := by
  unfold findClosingParen
  have hdrop : (name ++ '(' :: (args ++ ')' :: after)).drop (name.length + 1)
      = args ++ ')' :: after := by
    rw [← drop_drop, drop_left]
    rfl
  rw [hdrop, closingLoop_balanced _ harg Nat.one_pos (by decide), closingLoop_closing _ 0,
    if_neg (Nat.lt_irrefl 0)]

def dropComma (ce : Str) : Str := if ce[0]? = some ',' then ce.drop 1 else ce

def extend (btpFunctionCe piece : Str) : Str :=
  if btpFunctionCe ≠ [] then btpFunctionCe ++ [','] ++ piece else piece

theorem step_call (hname : findFunction name = true) (args after btpFunctionCe : Str) :
    step findFunction ⟨name ++ '(' :: (args ++ ')' :: after), 0, btpFunctionCe⟩ name.length
        (name.length + 1 + args.length)
      = ⟨dropComma after, 0, extend btpFunctionCe (name ++ '(' :: (args ++ [')']))⟩ := by
  have hsplit : name ++ '(' :: (args ++ ')' :: after)
      = (name ++ '(' :: (args ++ [')'])) ++ after := by simp
  have hlng : name.length + 1 + args.length + 1 - 0 = (name ++ '(' :: (args ++ [')'])).length := by
    simp only [length_append, length_cons, length_nil]
    omega
  unfold step
  dsimp only
  rw [drop_zero, Nat.sub_zero, take_left, if_pos hname, hlng, hsplit, take_left]
  have hera (text : Str) (len : Nat) : erase text 0 len = text.drop len := by
    unfold erase
    rw [take_zero, nil_append, Nat.zero_add]
  rw [hera, hera, drop_left]
  unfold extend dropComma
  by_cases hempty : btpFunctionCe ≠ []
  · rw [if_pos hempty, if_pos hempty]
  · rw [if_neg hempty, if_neg hempty, not_not.mp hempty, nil_append]

theorem intercalate_cons (text : Str) (texts : List Str) :
    [','].intercalate (text :: texts) = text ++ texts.flatMap (',' :: ·) := by
  induction texts generalizing text with
  | nil => simp
  | cons next texts ih => simp [intercalate_cons_cons, ih]

theorem dropComma_flatMap (texts : List Str) :
    dropComma (texts.flatMap (',' :: ·)) = [','].intercalate texts := by
  cases texts with
  | nil => rfl
  | cons text texts =>
    rw [intercalate_cons]
    rfl

theorem expression_cons (call : Call) (calls : List Call) (items : List Str) :
    expression (call :: calls) items = call.name ++ '(' ::
          (call.args ++ ')' :: (calls.map Call.text ++ items).flatMap (',' :: ·)) := by
  unfold expression
  rw [map_cons, cons_append, intercalate_cons]
  simp [Call.text]

/-! The loop after the first call, as long as no arguments have parentheses. -/

theorem laterCalls_none (hce : '(' ∉ ce) (btpFunctionCe : Str) :
    laterCalls findFunction ⟨ce, 0, btpFunctionCe⟩ = ⟨ce, 0, btpFunctionCe⟩ := by
  rw [laterCalls, find_eq_none hce]

theorem laterCalls_call (functions : Functions)
    (hname : functions.findFunction name = true) (hbefore : ')' ∉ before)
    (after btpFunctionCe : Str) :
    laterCalls functions.findFunction ⟨name ++ '(' :: (before ++ ')' :: after), 0, btpFunctionCe⟩
      = laterCalls functions.findFunction
          ⟨dropComma after, 0, extend btpFunctionCe (name ++ '(' :: (before ++ [')']))⟩ := by
  have hclo : find ')' (name ++ '(' :: (before ++ ')' :: after)) 0
      = some (name.length + 1 + before.length) := by
    have hnot : ')' ∉ name ++ '(' :: before := by
      simp [functions.closing name hname, hbefore]
    have hfound := find_append hnot after
    rw [append_assoc, cons_append, length_append, length_cons] at hfound
    rw [hfound, Nat.add_assoc, Nat.add_comm 1]
  rw [laterCalls, find_append (functions.opening name hname), hclo]
  dsimp only
  rw [step_call hname]

theorem extend_of_ne_nil (hne : btpFunctionCe ≠ []) (piece : Str) :
    extend btpFunctionCe piece = btpFunctionCe ++ ',' :: piece := by
  rw [extend, if_pos hne, append_assoc, singleton_append]

theorem laterCalls_calls (functions : Functions)
    (hcal : ∀ call ∈ calls, functions.findFunction call.name = true)
    (hflt : ∀ call ∈ calls, '(' ∉ call.args) (hite : '(' ∉ expression [] items)
    {btpFunctionCe : Str} (hne : btpFunctionCe ≠ []) :
    laterCalls functions.findFunction ⟨expression calls items, 0, btpFunctionCe⟩
      = ⟨expression [] items, 0, btpFunctionCe ++ (calls.map Call.text).flatMap (',' :: ·)⟩ := by
  induction calls generalizing btpFunctionCe with
  | nil => simpa using laterCalls_none hite btpFunctionCe
  | cons call calls ih =>
    have hclo := call.balanced.not_mem_closing (by decide) (hflt call mem_cons_self)
    rw [expression_cons, laterCalls_call functions (hcal call mem_cons_self) hclo,
      dropComma_flatMap, extend_of_ne_nil hne]
    have hrest := ih (fun other hother => hcal other (mem_cons_of_mem call hother))
      (fun other hother => hflt other (mem_cons_of_mem call hother))
      (append_ne_nil_of_left_ne_nil hne (',' :: call.text))
    simpa [expression, Call.text] using hrest

/-! After a call is cut at a parenthesis inside of its arguments, a closing one is left over. -/

def Surplus (ce : Str) : Prop := ce.count '(' < ce.count ')'

theorem count_erase_comma (hc : c ≠ ',')
    (hcom : ce[pos]? = some ',') : (erase ce pos 1).count c = ce.count c := by
  obtain ⟨hpos, hget⟩ := List.getElem?_eq_some_iff.mp hcom
  have hsplit : ce = ce.take pos ++ ',' :: ce.drop (pos + 1) := by
    rw [← hget, getElem_cons_drop, take_append_drop]
  unfold erase
  conv_rhs => rw [hsplit]
  rw [count_append, count_append, count_cons_of_ne (Ne.symm hc)]

theorem opening_mem_before {after : Str}
    (heq : name ++ '(' :: args = before ++ ')' :: after) (hname : ')' ∉ name) : '(' ∈ before := by
  rcases append_eq_append_iff.mp heq with ⟨more, rfl, hmore⟩ | ⟨more, rfl, hmore⟩
  · cases more with
    | nil => simp at hmore
    | cons c more =>
      obtain ⟨rfl, -⟩ := cons.inj hmore
      simp
  · cases more with
    | nil => simp at hmore
    | cons c more =>
      obtain ⟨rfl, -⟩ := cons.inj hmore
      simp at hname

theorem count_erase {after : Str} (hdrop : ce.drop pos = before ++ ')' :: after) (c : Char) :
    (erase ce pos (before.length + 1)).count c + (before ++ [')']).count c = ce.count c := by
  have hafter : ce.drop (pos + (before.length + 1)) = after := by
    rw [← drop_drop, hdrop, ← drop_drop, drop_left]
    rfl
  conv_rhs => rw [← take_append_drop pos ce, hdrop]
  unfold erase
  rw [hafter]
  simp only [count_append, count_cons, count_nil]
  omega

theorem surplus_step (functions : Functions)
    (hfirst : find '(' cursor.ce cursor.pos = some firstParen)
    (hclo : find ')' cursor.ce cursor.pos = some closingParen) (hsur : Surplus cursor.ce) :
    Surplus (step functions.findFunction cursor firstParen closingParen).ce := by
  obtain ⟨name, args, hname, -, rfl⟩ := find_eq_some hfirst
  obtain ⟨before, after, hbefore, hnot, rfl⟩ := find_eq_some hclo
  have hlen : before.length + cursor.pos + 1 - cursor.pos = before.length + 1 := by omega
  unfold step
  dsimp only
  rw [Nat.add_sub_cancel, hlen, hname, take_left]
  by_cases hfound : functions.findFunction name = true
  · have hers : Surplus (erase cursor.ce cursor.pos (before.length + 1)) := by
      have hope : 0 < before.count '(' := count_pos_iff.mpr
        (opening_mem_before (hname.symm.trans hbefore) (functions.closing name hfound))
      have hopen := count_erase hbefore '('
      have hcls := count_erase hbefore ')'
      rw [count_append] at hopen hcls
      rw [count_eq_zero.mpr hnot, count_singleton_self] at hcls
      unfold Surplus at hsur ⊢
      omega
    rw [if_pos hfound]
    by_cases hcom : (erase cursor.ce cursor.pos (before.length + 1))[cursor.pos]? = some ','
    · rw [if_pos hcom]
      unfold Surplus
      rw [count_erase_comma (by decide) hcom, count_erase_comma (by decide) hcom]
      exact hers
    · rw [if_neg hcom]
      exact hers
  · rw [if_neg hfound]
    exact hsur

theorem surplus_laterCalls (functions : Functions) (hsur : Surplus cursor.ce) :
    Surplus (laterCalls functions.findFunction cursor).ce := by
  fun_induction laterCalls functions.findFunction cursor with
  | case1 cursor hfirst => exact hsur
  | case2 cursor firstParen hfirst hclo => exact hsur
  | case3 cursor firstParen hfirst closingParen hclo ih =>
    exact ih (surplus_step functions hfirst hclo hsur)

theorem count_dropComma (hc : c ≠ ',') (ce : Str) : (dropComma ce).count c = ce.count c := by
  unfold dropComma
  by_cases hcom : ce[0]? = some ','
  · rw [if_pos hcom]
    exact count_erase_comma hc hcom
  · rw [if_neg hcom]

theorem not_mem_expression (hc : c ≠ ',')
    (hite : ∀ item ∈ items, c ∉ item) : c ∉ expression [] items := by
  cases items with
  | nil => exact not_mem_nil
  | cons item items =>
    rw [expression, map_nil, nil_append, intercalate_cons, mem_append, mem_flatMap]
    rintro (hmem | ⟨other, hother, hmem⟩)
    · exact hite item mem_cons_self hmem
    · rcases mem_cons.mp hmem with rfl | hmem
      · exact hc rfl
      · exact hite other (mem_cons_of_mem item hother) hmem

theorem count_opening (functions : Functions)
    (hname : functions.findFunction name = true) (args after : Str) :
    (name ++ '(' :: (args ++ ')' :: after)).count '(' = args.count '(' + after.count '(' + 1 := by
  rw [count_append, count_eq_zero.mpr (functions.opening name hname),
    count_cons_self, count_append, count_cons_of_ne (by decide), Nat.zero_add]

theorem count_closing (functions : Functions)
    (hname : functions.findFunction name = true) (args after : Str) :
    (name ++ '(' :: (args ++ ')' :: after)).count ')' = args.count ')' + after.count ')' + 1 := by
  rw [count_append, count_eq_zero.mpr (functions.closing name hname),
    count_cons_of_ne (by decide), count_append, count_cons_self, Nat.zero_add,
    Nat.add_assoc]

theorem count_expression (functions : Functions)
    (hcal : ∀ call ∈ calls, functions.findFunction call.name = true)
    (hite : ∀ item ∈ items, '(' ∉ item ∧ ')' ∉ item) :
    (expression calls items).count '(' = (expression calls items).count ')' := by
  induction calls with
  | nil =>
    have hope := not_mem_expression (by decide) fun item hitm => (hite item hitm).1
    have hclo := not_mem_expression (by decide) fun item hitm => (hite item hitm).2
    rw [count_eq_zero.mpr hope, count_eq_zero.mpr hclo]
  | cons call calls ih =>
    have hname := hcal call mem_cons_self
    have hrest := ih fun other hother => hcal other (mem_cons_of_mem call hother)
    rw [expression, ← dropComma_flatMap, count_dropComma (by decide), count_dropComma (by decide)]
      at hrest
    rw [expression_cons, count_opening functions hname, count_closing functions hname,
      call.balanced.count_eq (by decide), hrest]

theorem surplus_of_nested (functions : Functions)
    (hcal : ∀ call ∈ calls, functions.findFunction call.name = true)
    (hite : ∀ item ∈ items, '(' ∉ item ∧ ')' ∉ item)
    (hnes : ∃ call ∈ calls, '(' ∈ call.args) (btpFunctionCe : Str) :
    Surplus (laterCalls functions.findFunction ⟨expression calls items, 0, btpFunctionCe⟩).ce := by
  induction calls generalizing btpFunctionCe with
  | nil => simp at hnes
  | cons call calls ih =>
    have hname := hcal call mem_cons_self
    have hbal := count_expression functions hcal hite
    rw [expression_cons] at hbal ⊢
    by_cases hope : '(' ∈ call.args
    · obtain ⟨before, after, harg, hbefore, hmem⟩ :=
        call.balanced.exists_first_closing (by decide) hope
      rw [harg, append_assoc, cons_append] at hbal ⊢
      rw [laterCalls_call functions hname hbefore]
      apply surplus_laterCalls
      -- The text that is cut off has two opening parentheses at least and one closing one.
      rw [count_opening functions hname, count_closing functions hname,
        count_eq_zero.mpr hbefore] at hbal
      have hcut : 0 < before.count '(' := count_pos_iff.mpr hmem
      unfold Surplus
      rw [count_dropComma (by decide), count_dropComma (by decide)]
      omega
    · have hclo := call.balanced.not_mem_closing (by decide) hope
      have hlat : ∃ other ∈ calls, '(' ∈ other.args := by
        obtain ⟨other, hother, hmem⟩ := hnes
        rcases mem_cons.mp hother with rfl | hother
        · exact absurd hmem hope
        · exact ⟨other, hother, hmem⟩
      rw [laterCalls_call functions hname hclo, dropComma_flatMap]
      exact ih (fun other hother => hcal other (mem_cons_of_mem call hother)) hlat _

theorem splitCe_cons (functions : Functions) (builder : Builder) (hname : functions.findFunction call.name = true)
    (hexp : builder.constraint expr = expression (call :: calls) items) :
    builder.splitCe functions.findFunction expr = if height '(' ')' 1 call.args < 2 ^ 31 then
          let last := laterCalls functions.findFunction ⟨expression calls items, 0, call.text⟩
          .ok ⟨last.ce, last.btpFunctionCe⟩
        else .error .overflow := by
  unfold Builder.splitCe
  dsimp only
  rw [hexp, expression_cons, find_append (functions.opening call.name hname)]
  dsimp only
  rw [findClosingParen_call call.name call.balanced]
  by_cases hhei : height '(' ')' 1 call.args < 2 ^ 31
  · rw [if_pos hhei, if_pos hhei]
    dsimp only
    rw [step_call hname, dropComma_flatMap]
    rfl
  · rw [if_neg hhei, if_neg hhei]

/-- The calls are taken off as they are, and the rest stays, exactly if the first call is not nested
deeper than an `int` counts and no later call has parentheses in its arguments. -/
theorem splitCe_splits_iff (functions : Functions) (builder : Builder) (expr : Str)
    (calls : List Call) (items : List Str)
    (hcalls : ∀ call ∈ calls, functions.findFunction call.name = true)
    (hitems : ∀ item ∈ items, '(' ∉ item ∧ ')' ∉ item)
    (hexpr : builder.constraint expr = expression calls items) :
    builder.splitCe functions.findFunction expr = .ok ⟨expression [] items, expression calls []⟩
      ↔ (∀ call ∈ calls.head?, height '(' ')' 1 call.args < 2 ^ 31)
        ∧ ∀ call ∈ calls.tail, '(' ∉ call.args := by
  have hope := not_mem_expression (c := '(') (by decide) fun item hitem => (hitems item hitem).1
  have hclo := not_mem_expression (c := ')') (by decide) fun item hitem => (hitems item hitem).2
  cases calls with
  | nil =>
    unfold Builder.splitCe
    dsimp only
    rw [hexpr, find_eq_none hope]
    simp [expression]
  | cons call calls =>
    have hlat : ∀ other ∈ calls, functions.findFunction other.name = true :=
      fun other hother => hcalls other (mem_cons_of_mem call hother)
    rw [splitCe_cons functions builder (hcalls call mem_cons_self) hexpr]
    constructor
    · intro hsplit
      have hhei : height '(' ')' 1 call.args < 2 ^ 31 := by
        by_contra hhei
        rw [if_neg hhei] at hsplit
        cases hsplit
      refine ⟨by simpa using hhei, ?_⟩
      by_contra hflat
      have hnes : ∃ other ∈ calls, '(' ∈ other.args := by simpa using hflat
      rw [if_pos hhei] at hsplit
      have hsur := surplus_of_nested functions hlat hitems hnes call.text
      have hce := congrArg Builder.dap2ce (Except.ok.inj hsplit)
      dsimp only at hce
      rw [hce, Surplus, count_eq_zero.mpr hclo] at hsur
      exact Nat.not_lt_zero _ hsur
    · rintro ⟨hhei, hflat⟩
      have hne : call.text ≠ [] := by simp [Call.text]
      rw [if_pos (hhei call rfl), laterCalls_calls functions hlat hflat hope hne]
      have hpart : expression (call :: calls) []
          = call.text ++ (calls.map Call.text).flatMap (',' :: ·) := by
        rw [expression, append_nil, map_cons, intercalate_cons]
      rw [hpart]

/-! `f` and `g` are registered; the argument of the second call is a call itself. -/

def sampleFunctions : Functions where
  findFunction name := decide (name = ['f'] ∨ name = ['g'])
  opening name hname := by
    rcases of_decide_eq_true hname with rfl | rfl <;> decide
  closing name hname := by
    rcases of_decide_eq_true hname with rfl | rfl <;> decide

def flatCall : Call := ⟨['f'], ['a'], .char (by decide) (by decide) .nil⟩

def nestedCall : Call where
  name := ['g']
  args := "h(x)".toList
  balanced := .char (by decide) (by decide) (.nest (.char (by decide) (by decide) .nil) .nil)

theorem splitCe_splits_iff_sample :
    (Builder.splitCe ⟨[], []⟩ sampleFunctions.findFunction "g(h(x)),f(a),u".toList).toOption
      = some ⟨['u'], "g(h(x)),f(a)".toList⟩ := by
  have hsplit := (splitCe_splits_iff sampleFunctions ⟨[], []⟩ "g(h(x)),f(a),u".toList
    [nestedCall, flatCall] [['u']] (by decide) (by decide) rfl).mpr (by decide)
  rw [hsplit]
  rfl

/-- The last parenthesis of the second call stays behind as the constraint. -/
theorem nestedCall_cut : "f(a),g(h(x))".toList = expression [flatCall, nestedCall] [] ∧
      Builder.splitCe ⟨[], []⟩ sampleFunctions.findFunction "f(a),g(h(x))".toList
        = .ok ⟨[')'], "f(a),g(h(x)".toList⟩ := by
  refine ⟨rfl, ?_⟩
  have hfirst : Builder.splitCe ⟨[], []⟩ sampleFunctions.findFunction
      (expression [flatCall, nestedCall] []) = _ :=
    splitCe_cons sampleFunctions _ rfl rfl
  have hcut : laterCalls sampleFunctions.findFunction ⟨expression [nestedCall] [], 0, flatCall.text⟩
      = laterCalls sampleFunctions.findFunction ⟨[')'], 0, "f(a),g(h(x)".toList⟩ :=
    laterCalls_call sampleFunctions (show sampleFunctions.findFunction ['g'] = true from rfl)
      (show ')' ∉ "h(x".toList by decide) [')'] flatCall.text
  rw [if_pos (by decide), hcut, laterCalls_none (by decide)] at hfirst
  exact hfirst

end Bes.Dap.SplitCe
