import Mathlib

/-! String functions of `BESUtil`, and `BESRegex` over the POSIX functions `regcomp` and
`regexec`. -/
namespace Bes.Dispatch
open List

abbrev Str := List Char

def isBlank (c : Char) : Bool := c = ' ' || c = '\t' || c = '\n' || c = '\r'

theorem findIdx_eq_none {c : Char} {s : Str} (hs : c ∉ s) :
    s.findIdx? (fun other => decide (other = c)) = none := by
  rw [findIdx?_eq_none_iff]
  intro other hoth
  exact decide_eq_false fun heq => hs (heq ▸ hoth)

theorem findIdx_append {c : Char} (hbef : c ∉ before) (after : Str) :
    (before ++ c :: after).findIdx? (fun other => decide (other = c)) = some before.length := by
  rw [findIdx?_append, findIdx_eq_none hbef, findIdx?_cons, decide_eq_true rfl]
  simp

def rfind (c : Char) (s : Str) : Option Nat :=
  (s.reverse.findIdx? fun other => decide (other = c)).map (s.length - 1 - ·)

def removeLeadingAndTrailingBlanks (key : Str) : Str :=
  ((key.dropWhile isBlank).reverse.dropWhile isBlank).reverse

def lowercase (s : Str) : Str :=
  s.map Char.toLower

/-- A compiled expression: the length of the match that is found in a string, -1 if there is
none. -/
abbrev Matcher := Str → Int

/-- Compiles an expression, or says with the text of `regerror` why it is none. -/
abbrev Regcomp := Str → Except Str Matcher

/-- The constructor of `BESRegex`; the exception by its message. -/
def newRegex (regcomp : Regcomp) (pattern : Str) : Except Str Matcher :=
  match regcomp pattern with
  | .error text => .error ("BESRegex error: ".toList ++ text)
  | .ok find => .ok find

def regexMatch (find : Matcher) (s : Str) : Int :=
  if 32766 < s.length then -1 else find s

end Bes.Dispatch
