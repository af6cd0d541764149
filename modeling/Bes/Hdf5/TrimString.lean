import Bes.Dispatch.Util

/-! `HDF5CFUtil::trim_string`. -/
namespace Bes.Hdf5.TrimString
open Dispatch List

inductive StrPad
  | nullTerm
  | spacePad
  | nullPad
deriving DecidableEq

def nul : Char := '\x00'

/-- `find_last_not_of (c) + 1`, which is zero where there is none. -/
def afterLastNotOf (c : Char) (sect : Str) : Nat := (sect.rdropWhile (· = c)).length

/-- `temp_pos`, with `none` for `npos`. The padding that is looked for in the last case is the digit. -/
def tempPos (pad : StrPad) (sect : Str) : Option Nat :=
  match pad with
  | .nullTerm => sect.findIdx? (· = nul)
  | .spacePad => some (afterLastNotOf ' ' sect)
  | .nullPad => some (afterLastNotOf '0' sect)

def trimSection (pad : StrPad) (sectSize : Nat) (sect : Str) : Str × Nat :=
  match tempPos pad sect with
  | some pos =>
    if pad = .spacePad then
      (if pos = sect.length then sect ++ [' '] else sect.take (pos + 1), pos + 1)
    else (sect.take pos, pos)
  | none =>
    if pad = .spacePad then (sect ++ [nul, ' '], sectSize + 1) else (sect, sectSize)

def tempSect (s : Str) (numSect sectSize i : Nat) : Str :=
  if i ≠ numSect - 1 then (s.drop (i * sectSize)).take sectSize
  else (s.drop ((numSect - 1) * sectSize)).take (s.length - (numSect - 1) * sectSize)

/-- The trimmed text and `sect_newsize`. -/
def trimString (pad : StrPad) (s : Str) (numSect sectSize : Nat) : Str × List Nat :=
  let sects := (range numSect).map fun i => trimSection pad sectSize (tempSect s numSect sectSize i)
  ((sects.map Prod.fst).flatten, sects.map Prod.snd)

structure Attribute where
  pad : StrPad
  numSect : Nat
  sectSize : Nat
  bytes : Str
  numSect_pos : 0 < numSect
  sectSize_pos : 0 < sectSize
  length_eq : bytes.length = numSect * sectSize

def Attribute.sect (attr : Attribute) (i : Nat) : Str :=
  (attr.bytes.drop (i * attr.sectSize)).take attr.sectSize

def sectValue (pad : StrPad) (sect : Str) : Str :=
  match pad with
  | .nullTerm => sect.takeWhile (· ≠ nul)
  | .spacePad => sect.rdropWhile (· = ' ') ++ [' ']
  | .nullPad => sect.rdropWhile (· = nul)

def Attribute.Trims (attr : Attribute) : Prop :=
  let (text, sizes) := trimString attr.pad attr.bytes attr.numSect attr.sectSize
  sizes.splitLengths text = (range attr.numSect).map (fun i => sectValue attr.pad (attr.sect i)) ∧
    sizes.sum = text.length

theorem rdropWhile_append_replicate (c : Char) (sect : Str) :
    ∃ n, sect = sect.rdropWhile (· = c) ++ replicate n c := by
  induction sect using reverseRecOn with
  | nil => exact ⟨0, rfl⟩
  | append_singleton sect other ih =>
    obtain ⟨n, hn⟩ := ih
    by_cases hc : other = c
    · refine ⟨n + 1, ?_⟩
      rw [rdropWhile_concat_pos _ _ _ (by simpa using hc), replicate_succ', ← append_assoc, ← hn, hc]
    · refine ⟨0, ?_⟩
      rw [rdropWhile_concat_neg _ _ _ (by simpa using hc)]
      simp

def trimmed (pad : StrPad) (sect : Str) : Str :=
  if pad = .nullPad then sect.rdropWhile (· = '0') else sectValue pad sect

theorem takeWhile_ne_nul (sect : Str) :
    sect.takeWhile (· ≠ nul) = sect.take ((sect.findIdx? (· = nul)).getD sect.length) := by
  simp [takeWhile_eq_take_findIdx_not, findIdx_eq_getD_findIdx?]

theorem trimSection_eq (pad : StrPad) (sect : Str) :
    trimSection pad sect.length sect = (trimmed pad sect, (trimmed pad sect).length) := by
  cases pad with
  | nullTerm =>
    simp only [trimSection, tempPos, trimmed, sectValue, takeWhile_ne_nul]
    cases hidx : sect.findIdx? (· = nul) with
    | none => simp
    | some pos => simp [(findIdx?_eq_some_iff_getElem.mp hidx).1.le]
  | spacePad =>
    obtain ⟨n, hn⟩ := rdropWhile_append_replicate ' ' sect
    simp only [trimSection, tempPos, afterLastNotOf, trimmed, sectValue, if_true]
    generalize sect.rdropWhile (· = ' ') = value at hn
    subst hn
    cases n with
    | zero => simp
    | succ n => simp [replicate_succ, take_append, take_of_length_le]
  | nullPad =>
    have htak := prefix_iff_eq_take.mp ( rdropWhile_prefix (· = '0') sect)
    simp [trimSection, tempPos, trimmed, afterLastNotOf, ← htak]

theorem trimmed_nullPad_iff (hne : sect ≠ []) : trimmed .nullPad sect = sectValue .nullPad sect ↔
      sect.getLast? ≠ some '0' ∧ sect.getLast? ≠ some nul := by
  obtain ⟨front, last, rfl⟩ := eq_nil_or_concat' sect |>.resolve_left hne
  have hno : ∀ c, front.rdropWhile (· = c) ≠ front ++ [last] := fun c heq => by
    have hlen := ( rdropWhile_prefix (· = c) front).length_le
    rw [heq, length_append, length_singleton] at hlen
    omega
  have hnul : '0' ≠ nul := by decide
  simp only [trimmed, sectValue, if_true, rdropWhile_concat, getLast?_concat, decide_eq_true_eq]
  by_cases hzer : last = '0' <;> by_cases hlst : last = nul
  · exact absurd (hzer.symm.trans hlst) hnul
  · simpa [hzer, hlst, hnul] using hzer ▸ hno '0'
  · simpa [hzer, hlst, hnul.symm] using (hlst ▸ hno nul).symm
  · simp [hzer, hlst]

theorem splitLengths_flatten (parts : List Str) : (parts.map length).splitLengths parts.flatten = parts := by
  induction parts with
  | nil => rfl
  | cons part parts ih => simp [ih]

theorem Attribute.length_sect (attr : Attribute) (hi : i < attr.numSect) :
    (attr.sect i).length = attr.sectSize := by
  have hle : (i + 1) * attr.sectSize ≤ attr.numSect * attr.sectSize := Nat.mul_le_mul_right _ hi
  rw [Nat.add_mul] at hle
  rw [Attribute.sect, length_take, length_drop, attr.length_eq]
  omega

theorem Attribute.tempSect_eq (attr : Attribute) (hi : i < attr.numSect) :
    tempSect attr.bytes attr.numSect attr.sectSize i = attr.sect i := by
  unfold tempSect Attribute.sect
  split
  · rfl
  · next hlst =>
    obtain rfl : i = attr.numSect - 1 := not_not.mp hlst
    have hsiz : attr.bytes.length - (attr.numSect - 1) * attr.sectSize = attr.sectSize := by
      rw [attr.length_eq, ← Nat.sub_mul, Nat.sub_sub_self attr.numSect_pos, Nat.one_mul]
    rw [hsiz]

theorem Attribute.trims_iff (attr : Attribute) : attr.Trims ↔ (attr.pad = .nullPad → ∀ i < attr.numSect,
      (attr.sect i).getLast? ≠ some '0' ∧ (attr.sect i).getLast? ≠ some nul) := by
  have hsects : (range attr.numSect).map (fun i => trimSection attr.pad attr.sectSize
      (tempSect attr.bytes attr.numSect attr.sectSize i)) =
      (range attr.numSect).map fun i =>
        (trimmed attr.pad (attr.sect i), (trimmed attr.pad (attr.sect i)).length) := by
    refine map_congr_left fun i hi => ?_
    have hi := mem_range.mp hi
    rw [attr.tempSect_eq hi, ← trimSection_eq, attr.length_sect hi]
  have hparts := splitLengths_flatten ((range attr.numSect).map fun i => trimmed attr.pad (attr.sect i))
  unfold Attribute.Trims trimString
  rw [hsects]
  simp only [map_map, Function.comp_def, length_flatten, and_true] at hparts ⊢
  rw [hparts, map_inj_left]
  by_cases hpad : attr.pad = .nullPad
  · have hne : ∀ i < attr.numSect, attr.sect i ≠ [] := fun i hi =>
      ne_nil_of_length_pos (attr.length_sect hi ▸ attr.sectSize_pos)
    simp only [hpad, mem_range, true_imp_iff]
    exact forall₂_congr fun i hi => trimmed_nullPad_iff (hne i hi)
  · simp [hpad, trimmed]

def padded : Attribute where
  pad := .nullPad
  numSect := 2
  sectSize := 2
  bytes := ['a', nul, 'b', nul]
  numSect_pos := Nat.two_pos
  sectSize_pos := Nat.two_pos
  length_eq := rfl

theorem padded_not_trims : ¬ padded.Trims := fun h => absurd h.1 (by decide)

end Bes.Hdf5.TrimString
