import Bes.Lib.Decimal

/-! Hexadecimal numerals as the streams of C++ write and read them. -/
namespace Bes.Lib.Hex
open Decimal List

def digitOf (c : Char) : Option Nat :=
  if '0' ≤ c ∧ c ≤ '9' then some (c.toNat - '0'.toNat)
  else if 'a' ≤ c ∧ c ≤ 'f' then some (c.toNat - 'a'.toNat + 10)
  else if 'A' ≤ c ∧ c ≤ 'F' then some (c.toNat - 'A'.toNat + 10)
  else none

def value (digits : List Char) : Nat :=
  digits.foldl (fun value c => 16 * value + (digitOf c).getD 0) 0

/-- Takes off the `0x` that a number may start with. -/
def takeBase : List Char → List Char
  | '0' :: 'x' :: rest => rest
  | '0' :: 'X' :: rest => rest
  | text => text

/-- `>> hex`: blanks, a sign, then the longest run of digits. The result is the sign and the
magnitude, or nothing where no digit stands. -/
def scan (text : List Char) : Option (Bool × Nat) :=
  let body := takeSign (text.dropWhile isSpace)
  let run := (takeBase body.2).takeWhile fun c => (digitOf c).isSome
  if run = [] then none else some (body.1, value run)

/-- `<< hex << setw(width) << setfill('0')`. -/
def padded (width n : Nat) : List Char :=
  leftpad width '0' ((Nat.digits 16 n).reverse.map Nat.digitChar)

theorem digitOf_digitChar (hd : d < 16) : digitOf d.digitChar = some d := by
  revert d
  decide

theorem value_append (first second : List Char) : value (first ++ second)
      = second.foldl (fun value c => 16 * value + (digitOf c).getD 0) (value first) := by
  rw [value, foldl_append]
  rfl

theorem value_reverse_digitChar {digits : List Nat} (hdgt : ∀ d ∈ digits, d < 16) :
    value (digits.reverse.map Nat.digitChar) = Nat.ofDigits 16 digits := by
  induction digits with
  | nil => rfl
  | cons d digits ih =>
    rw [reverse_cons, map_append, value_append,
      ih fun other hoth => hdgt other (mem_cons_of_mem _ hoth), Nat.ofDigits_cons]
    simp only [map_cons, map_nil, foldl_cons, foldl_nil,
      digitOf_digitChar (hdgt d mem_cons_self), Option.getD_some]
    exact add_comm _ _

theorem value_replicate_append (count : Nat) (text : List Char) :
    value (replicate count '0' ++ text) = value text := by
  have hzer : value (replicate count '0') = 0 := by
    induction count with
    | zero => rfl
    | succ count ih =>
      rw [replicate_succ', value_append, ih]
      rfl
  rw [value_append, hzer]
  rfl

theorem value_padded (width n : Nat) : value (padded width n) = n := by
  unfold padded leftpad
  rw [value_replicate_append,
    value_reverse_digitChar fun d hd => Nat.digits_lt_base (by decide) hd, Nat.ofDigits_digits]

variable {width : Nat}

theorem length_padded (hn : n < 16 ^ width) : (padded width n).length = width := by
  have hle : (Nat.digits 16 n).length ≤ width := (Nat.digits_length_le_iff (by decide) n).mpr hn
  unfold padded
  rw [length_leftpad, length_map, length_reverse]
  exact max_eq_left hle

theorem mem_padded {c : Char} (hc : c ∈ padded width n) : ∃ d < 16, c = d.digitChar := by
  cases mem_append.mp hc with
  | inl hzer => exact ⟨0, by decide, (mem_replicate.mp hzer).2⟩
  | inr hdig =>
    obtain ⟨d, hd, rfl⟩ := mem_map.mp hdig
    exact ⟨d, Nat.digits_lt_base (by decide) (mem_reverse.mp hd), rfl⟩

theorem digitOf_plain {c : Char} (hc : (digitOf c).isSome) : isSpace c = false ∧ c ≠ '-' ∧ c ≠ '+' ∧ c ≠ 'x'
    ∧ c ≠ 'X' ∧ c ≠ '\x00' := by
  have hne : ∀ other, digitOf other = none → c ≠ other := by
    intro other hoth heq
    rw [heq, hoth] at hc
    exact Bool.false_ne_true hc
  have hlow : ¬ c ≤ '\r' := by
    intro hle
    have hdig : ∀ first : Char, ¬ first ≤ '\r' → ¬ first ≤ c := by
      intro first hfst hfrm
      exact hfst (UInt32.le_trans hfrm hle)
    unfold digitOf at hc
    rw [if_neg (fun h => hdig _ (by decide) h.1), if_neg (fun h => hdig _ (by decide) h.1),
      if_neg (fun h => hdig _ (by decide) h.1)] at hc
    exact Bool.false_ne_true hc
  refine ⟨?_, hne '-' rfl, hne '+' rfl, hne 'x' rfl, hne 'X' rfl, hne '\x00' rfl⟩
  simp [isSpace, hne ' ' rfl, hlow]

theorem isSome_digitOf_padded {c : Char} (hc : c ∈ padded width n) : (digitOf c).isSome := by
  obtain ⟨d, hd, rfl⟩ := mem_padded hc
  rw [digitOf_digitChar hd]
  rfl

theorem nul_not_mem_padded (width n : Nat) : '\x00' ∉ padded width n := by
  intro hmem
  exact (digitOf_plain (isSome_digitOf_padded hmem)).2.2.2.2.2 rfl

theorem scan_of_digits (hne : text ≠ [])
    (hdgt : ∀ c ∈ text, (digitOf c).isSome) : scan text = some (false, value text) := by
  cases text with
  | nil => contradiction
  | cons c rest =>
    obtain ⟨hbla, hmin, hpls, -, -, -⟩ := digitOf_plain (hdgt c mem_cons_self)
    have hsgn : takeSign (c :: rest) = (false, c :: rest) := by
      unfold takeSign
      split
      next heq =>
        exact absurd (cons.inj heq).1 hmin
      next heq =>
        exact absurd (cons.inj heq).1 hpls
      · rfl
    have hbas : takeBase (c :: rest) = c :: rest := by
      have hsnd : ∀ other ∈ rest, other ≠ 'x' ∧ other ≠ 'X' := by
        intro other hoth
        obtain ⟨-, -, -, hx, hX, -⟩ := digitOf_plain (hdgt other (mem_cons_of_mem _ hoth))
        exact ⟨hx, hX⟩
      unfold takeBase
      split
      next heq =>
        rw [(cons.inj heq).2] at hsnd
        exact absurd rfl (hsnd 'x' mem_cons_self).1
      next heq =>
        rw [(cons.inj heq).2] at hsnd
        exact absurd rfl (hsnd 'X' mem_cons_self).2
      · rfl
    have hrun : (c :: rest).takeWhile (fun c => (digitOf c).isSome) = c :: rest :=
      takeWhile_eq_self_iff.mpr hdgt
    simp only [scan]
    rw [dropWhile_cons_of_neg (by simp [hbla]), hsgn, hbas, hrun, if_neg hne]

theorem scan_padded (hwid : 0 < width) (hn : n < 16 ^ width) :
    scan (padded width n) = some (false, n) := by
  have hne : padded width n ≠ [] := by
    apply ne_nil_of_length_pos
    rwa [length_padded hn]
  rw [scan_of_digits hne fun c => isSome_digitOf_padded, value_padded]

end Bes.Lib.Hex
