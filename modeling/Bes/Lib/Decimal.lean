import Mathlib

/-! Decimal numerals as texts: the digits of a number, the scan that the C
library's number readers share, and lists of numerals with a separator. -/
namespace Bes.Lib.Decimal
open List

abbrev digits (n : Nat) : List Char := Nat.toDigits 10 n

def takeSign : List Char → Bool × List Char
  | '-' :: rest => (true, rest)
  | '+' :: rest => (false, rest)
  | text => (false, text)

/-- `isspace` in the C locale: the blank, and the tab, newline, vertical tab, form feed and return. -/
def isSpace (c : Char) : Bool := c = ' ' || ('\t' ≤ c && c ≤ '\r')

/-- Blanks, a sign, then the longest run of digits; what follows is ignored.
The result is the sign and the magnitude, or nothing where no digit stands. -/
def scan (text : List Char) : Option (Bool × Nat) :=
  let body := takeSign (text.dropWhile isSpace)
  let run := body.2.takeWhile Char.isDigit
  if run = [] then none else some (body.1, Nat.ofDigitChars 10 run 0)

theorem isDigit_of_mem_digits {c : Char} (hc : c ∈ digits n) : c.isDigit :=
  Nat.isDigit_of_mem_toDigits (by decide) (by decide) hc

theorem digits_ne_nil (n : Nat) : digits n ≠ [] := Nat.toDigits_ne_nil

theorem not_mem_digits {c : Char} (hc : c.isDigit = false) (n : Nat) : c ∉ digits n := by
  intro hmem
  rw [isDigit_of_mem_digits hmem] at hc
  exact Bool.noConfusion hc

theorem isSpace_of_isDigit {c : Char} (hc : c.isDigit) : isSpace c = false := by
  rw [Char.isDigit, Bool.and_eq_true, decide_eq_true_eq, decide_eq_true_eq] at hc
  have hlow : ¬ c ≤ '\r' := fun hle => absurd (UInt32.le_trans hc.1 hle) (by decide)
  have hbla : c ≠ ' ' := by
    intro hbla
    rw [hbla] at hc
    exact absurd hc.1 (by decide)
  simp [isSpace, hbla, hlow]

theorem scan_of_isDigit (hne : text ≠ []) (hdig : ∀ c ∈ text, c.isDigit) :
    scan text = some (false, Nat.ofDigitChars 10 text 0) := by
  cases text with
  | nil => exact absurd rfl hne
  | cons c rest =>
    have hc : c.isDigit := hdig c mem_cons_self
    have hsgn : takeSign (c :: rest) = (false, c :: rest) := by
      unfold takeSign
      split
      next heq =>
        rw [(cons.inj heq).1] at hc
        exact absurd hc (by decide)
      next heq =>
        rw [(cons.inj heq).1] at hc
        exact absurd hc (by decide)
      · rfl
    have hrun : (c :: rest).takeWhile Char.isDigit = c :: rest := takeWhile_eq_self_iff.mpr hdig
    simp only [scan]
    rw [dropWhile_cons_of_neg (by simp [isSpace_of_isDigit hc]), hsgn, hrun, if_neg hne]

@[simp] theorem scan_digits (n : Nat) : scan (digits n) = some (false, n) := by
  rw [scan_of_isDigit (digits_ne_nil n) fun _ => isDigit_of_mem_digits,
    Nat.ofDigitChars_toDigits (by decide) (by decide)]

theorem digits_inj (heq : digits m = digits n) : m = n := by
  have hscn := congrArg scan heq
  rw [scan_digits, scan_digits] at hscn
  exact congrArg Prod.snd (Option.some.inj hscn)

def joined (separator : Char) (values : List Nat) : List Char :=
  intercalate [separator] (values.map digits)

theorem splitOn_joined (hsep : separator.isDigit = false) (hne : values ≠ []) :
    splitOn separator (joined separator values) = values.map digits := by
  apply splitOn_intercalate
  · intro numeral hmem
    obtain ⟨n, _, rfl⟩ := mem_map.mp hmem
    exact not_mem_digits hsep n
  · simpa using hne

theorem mem_joined {c : Char} (hc : c ∈ joined separator values) : c = separator ∨ c.isDigit := by
  induction values with
  | nil => simp [joined] at hc
  | cons n rest ih =>
    cases rest with
    | nil =>
      simp only [joined, map_cons, map_nil, intercalate_singleton] at hc
      exact .inr (isDigit_of_mem_digits hc)
    | cons m rest =>
      simp only [joined, map_cons, intercalate_cons_cons, mem_append, mem_singleton] at hc ih
      rcases hc with (hc | hc) | hc
      · exact .inr (isDigit_of_mem_digits hc)
      · exact .inl hc
      · exact ih hc

theorem joined_ne_nil (hne : values ≠ []) : joined separator values ≠ [] := by
  intro hnil
  cases values with
  | nil => exact hne rfl
  | cons n rest =>
    cases rest with
    | nil =>
      simp only [joined, map_cons, map_nil, intercalate_singleton] at hnil
      exact digits_ne_nil n hnil
    | cons m rest => simp [joined, intercalate_cons_cons] at hnil

end Bes.Lib.Decimal
