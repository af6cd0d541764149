import Bes.Dispatch.Util
import Bes.Lib.Decimal

/-! The disk cache of computed latitudes and longitudes of HDF-EOS5 grids. The name of a cache file is
made of the numbers that describe the grid, and the file is taken for the grid's own when its size is
the expected one. -/
namespace Bes.Hdf5.LatLonCache
open Dispatch Lib.Decimal

abbrev CInt := { x : Int // -2147483648 ≤ x ∧ x ≤ 2147483647 }

structure Grid where
  projcode : CInt
  zone : CInt
  sphere : CInt
  pixelreg : CInt
  origin : CInt
  ydimsize : CInt
  xdimsize : CInt
  ydim_pos : 1 ≤ ydimsize.val
  xdim_pos : 1 ≤ xdimsize.val
deriving DecidableEq

/-- `-x` in an `int`; the least value has no negative. -/
def negate (x : Int) : Int := if x = -2147483648 then x else -x

theorem natAbs_tdiv_ten (x : Int) : (x.tdiv 10).natAbs = x.natAbs / 10 := by
  rw [Int.natAbs_tdiv]
  rfl

/-- `while (abs_x /= 10) num_digit++`. -/
def countDigits (absX : Int) (numDigit : Nat) : Nat :=
  if _h : absX.tdiv 10 = 0 then numDigit else countDigits (absX.tdiv 10) (numDigit + 1)
termination_by absX.natAbs
decreasing_by
  have hne := Int.natAbs_ne_zero.mpr _h
  rw [natAbs_tdiv_ten] at hne ⊢
  omega

def formatInt (x : Int) : Str := if x < 0 then '-' :: digits x.natAbs else digits x.natAbs

def bufferSize (x : Int) : Nat :=
  let absX := if x < 0 then negate x else x
  let numDigit := countDigits absX 0
  if x ≤ 0 then numDigit + 1 else numDigit

def snprintf (size : Nat) (text : Str) : Str := text.take (size - 1)

/-- `x + '0'` as a character. -/
def digitOf (x : Int) : Char := Char.ofNat (x.toNat + '0'.toNat)

def getIntStr (x : Int) : Str :=
  if 0 < x ∧ x < 10 then [digitOf x]
  else if 10 < x ∧ x < 100 then [digitOf (x.tdiv 10), digitOf (x.tmod 10)]
  else snprintf (bufferSize x) (formatInt x)

inductive DirState
  | missing
  | notDirectory
  | denied
  | usable
deriving DecidableEq

structure Config where
  bescachedir : Str
  bescacheprefix : Str
  cachesize : Int
  dirState : DirState

def checkConfig (config : Config) : Except Str Unit :=
  if config.bescachedir = [] ∨ config.bescacheprefix = [] ∨ config.cachesize ≤ 0 then
    .error
      "Either the cached dir is empty or the prefix is nullptr or the cache size is not set.".toList
  else
    let errMesg := "The cached directory ".toList ++ config.bescachedir
    match config.dirState with
    | .missing => .error (errMesg ++ " doesn't exist.  ".toList)
    | .notDirectory => .error (errMesg ++ " is not a directory.".toList)
    | .denied => .error (errMesg ++ " can NOT be read,written or executable.".toList)
    | .usable => .ok ()

def Grid.fields (grid : Grid) : List Int :=
  [grid.projcode.val, grid.zone.val, grid.sphere.val, grid.pixelreg.val, grid.origin.val,
    grid.ydimsize.val, grid.xdimsize.val]

def obtainLlCacheName (config : Config) (doubles : Str) (grid : Grid) : Except Str Str := do
  checkConfig config
  let cacheFname := config.bescacheprefix ++ grid.fields.flatMap getIntStr ++ doubles
  .ok (config.bescachedir ++ "/".toList ++ cacheFname)

def expectedFileSize (grid : Grid) : Int :=
  Int.bmod (2 * grid.xdimsize.val * grid.ydimsize.val * 8) 4294967296

theorem length_digits (n : Nat) :
    (digits n).length = if n / 10 = 0 then 1 else (digits (n / 10)).length + 1 := by
  rw [digits, Nat.toDigits_eq_if (by decide)]
  by_cases hlt : n < 10
  · rw [if_pos hlt, if_pos (Nat.div_eq_of_lt hlt)]
    rfl
  · rw [if_neg hlt, if_neg (by omega), List.length_append, List.length_singleton]

theorem countDigits_eq (absX : Int) (numDigit : Nat) :
    countDigits absX numDigit + 1 = numDigit + (digits absX.natAbs).length := by
  induction hsize : absX.natAbs using Nat.strongRecOn generalizing absX numDigit with
  | _ size ih =>
    subst hsize
    have hdiv := natAbs_tdiv_ten absX
    rw [countDigits, length_digits]
    by_cases hzer : absX.tdiv 10 = 0
    · have hsma : absX.natAbs / 10 = 0 := by rw [← hdiv, hzer]; rfl
      rw [dif_pos hzer, if_pos hsma]
    · have hlar : absX.natAbs / 10 ≠ 0 := by
        rw [← hdiv]
        exact Int.natAbs_ne_zero.mpr hzer
      rw [dif_neg hzer, if_neg hlar, ih (absX.natAbs / 10) (by omega) _ _ hdiv]
      omega

theorem natAbs_negate (x : Int) : (negate x).natAbs = x.natAbs := by
  unfold negate
  split
  · rfl
  · exact Int.natAbs_neg x

theorem bufferSize_eq (x : Int) :
    bufferSize x + 1 = (digits x.natAbs).length + if x ≤ 0 then 1 else 0 := by
  have habs : (if x < 0 then negate x else x).natAbs = x.natAbs := by
    split
    · exact natAbs_negate x
    · rfl
  have hcnt := countDigits_eq (if x < 0 then negate x else x) 0
  rw [habs, zero_add] at hcnt
  unfold bufferSize
  simp only
  split <;> omega

/-- The numbers that `get_int_str` prints in full. -/
def Short (x : Int) : Prop := 0 < x ∧ x < 10 ∨ 10 < x ∧ x < 100

instance (x : Int) : Decidable (Short x) := inferInstanceAs (Decidable (_ ∨ _))

/-- What is left of a number: all of a short one; of the others the sign and the hundreds, where the
last two characters of the text are not the whole text. -/
def shortText (x : Int) : Str :=
  if Short x then digits x.natAbs
  else if 100 ≤ x then digits (x.natAbs / 100)
  else if -10 < x then []
  else if -100 < x then ['-']
  else '-' :: digits (x.natAbs / 100)

theorem take_digits (n : Nat) :
    (digits n).take ((digits n).length - 2) = if n < 100 then [] else digits (n / 100) := by
  by_cases hlt : n < 100
  · have hlen := length_digits n
    have htns := length_digits (n / 10)
    rw [if_pos (by omega)] at htns
    rw [if_pos hlt, List.take_eq_nil_iff]
    split at hlen <;> omega
  · have htns : digits n = digits (n / 10) ++ [Nat.digitChar (n % 10)] :=
      Nat.toDigits_of_base_le (by decide) (by omega)
    have hhun : digits (n / 10) = digits (n / 100) ++ [Nat.digitChar (n / 10 % 10)] := by
      rw [digits, Nat.toDigits_of_base_le (by decide) (by omega), Nat.div_div_eq_div_mul]
    rw [if_neg hlt, htns, hhun, List.append_assoc, List.length_append]
    exact List.take_left

theorem take_formatInt (hsho : ¬ Short x) :
    (formatInt x).take ((formatInt x).length - 2) = shortText x := by
  have htak := take_digits x.natAbs
  unfold formatInt shortText
  rw [if_neg hsho]
  by_cases hneg : x < 0
  · have hlen := length_digits x.natAbs
    rw [if_pos hneg, if_neg (by omega), List.length_cons]
    by_cases hone : -10 < x
    · rw [if_pos (by omega)] at hlen
      rw [if_pos hone, hlen]
      rfl
    · have hrst := List.length_pos_of_ne_nil (digits_ne_nil (x.natAbs / 10))
      rw [if_neg (by omega)] at hlen
      rw [if_neg hone, show (digits x.natAbs).length + 1 - 2 = (digits x.natAbs).length - 2 + 1 by omega,
        List.take_succ_cons, htak]
      by_cases htwo : -100 < x
      · rw [if_pos htwo, if_pos (by omega)]
      · rw [if_neg htwo, if_neg (by omega)]
  · rw [if_neg hneg, htak]
    by_cases hlar : 100 ≤ x
    · rw [if_pos hlar, if_neg (by omega)]
    · rw [if_neg hlar, if_pos (by omega), if_pos (by omega)]

theorem digitOf_eq {n : Nat} (hlt : n < 10) : digitOf n = Nat.digitChar n := by
  interval_cases n <;> rfl

theorem getIntStr_eq (x : Int) : getIntStr x = shortText x := by
  unfold getIntStr
  by_cases hone : 0 < x ∧ x < 10
  · obtain ⟨n, rfl⟩ := Int.eq_ofNat_of_zero_le hone.1.le
    have hlt : n < 10 := by omega
    rw [if_pos hone, shortText, if_pos (.inl hone), Int.natAbs_natCast, digits,
      Nat.toDigits_of_lt_base hlt, digitOf_eq hlt]
  · by_cases htwo : 10 < x ∧ x < 100
    · obtain ⟨n, rfl⟩ := Int.eq_ofNat_of_zero_le (by omega : 0 ≤ x)
      have htns : n / 10 < 10 := by omega
      have huni : n % 10 < 10 := by omega
      rw [if_neg hone, if_pos htwo, shortText, if_pos (.inr htwo), Int.natAbs_natCast, digits,
        Nat.toDigits_of_base_le (by decide) (by omega), Nat.toDigits_of_lt_base htns,
        ← digitOf_eq htns, ← digitOf_eq huni]
      rfl
    · have hsho : ¬ Short x := by
        unfold Short
        tauto
      have hsiz := bufferSize_eq x
      rw [if_neg hone, if_neg htwo, snprintf, ← take_formatInt hsho]
      congr 1
      -- the sign is counted in the text, and so is the one place more for numbers below one
      unfold formatInt
      split
      · rw [if_pos (by omega)] at hsiz
        rw [List.length_cons]
        omega
      · split at hsiz
        · have hzer : x = 0 := by omega
          subst hzer
          simp at hsiz ⊢
          omega
        · omega

def label (grid : Grid) : Str := grid.fields.flatMap shortText

def SharesFile (config : Config) (doubles : Str) (grid other : Grid) : Prop :=
  (∃ name, obtainLlCacheName config doubles grid = .ok name ∧
    obtainLlCacheName config doubles other = .ok name) ∧
    expectedFileSize grid = expectedFileSize other

theorem obtainLlCacheName_eq (hcon : checkConfig config = .ok ()) (doubles : Str) (grid : Grid) :
    obtainLlCacheName config doubles grid =
      .ok (config.bescachedir ++ "/".toList ++ (config.bescacheprefix ++ label grid ++ doubles)) := by
  have hfie : grid.fields.flatMap getIntStr = label grid := by
    congr 1
    exact funext getIntStr_eq
  unfold obtainLlCacheName
  rw [hcon, hfie]
  rfl

theorem sharesFile_iff (hcon : checkConfig config = .ok ()) (doubles : Str) (grid other : Grid) :
    SharesFile config doubles grid other ↔
      label grid = label other ∧ expectedFileSize grid = expectedFileSize other := by
  unfold SharesFile
  rw [obtainLlCacheName_eq hcon, obtainLlCacheName_eq hcon]
  simp [eq_comm]

theorem shortText_of_small (hsma : x = 10 ∨ -10 < x ∧ x ≤ 0) : shortText x = [] := by
  rw [shortText, if_neg (by unfold Short; omega), if_neg (by omega), if_pos (by omega)]

theorem shortText_of_short (hshort : Short x) : shortText x = shortText (100 * x) := by
  have hlarge : ¬ Short (100 * x) := by
    unfold Short at *
    omega
  have hdiv : (100 * x).natAbs / 100 = x.natAbs := by omega
  rw [shortText, if_pos hshort, shortText, if_neg hlarge, if_pos (by unfold Short at hshort; omega), hdiv]

/-- Two numbers that are not short, of the same sign and with the same hundreds. -/
theorem shortText_eq_of_hundreds (hfirst : 100 ≤ x ∧ 100 ≤ y ∨ x ≤ -100 ∧ y ≤ -100)
    (hdiv : x.natAbs / 100 = y.natAbs / 100) : shortText x = shortText y := by
  have hlong : ¬ Short x ∧ ¬ Short y := by
    unfold Short
    omega
  unfold shortText
  rw [if_neg hlong.1, if_neg hlong.2, hdiv]
  rcases hfirst with hboth | hboth
  · rw [if_pos hboth.1, if_pos hboth.2]
  · rw [if_neg (by omega), if_neg (by omega), if_neg (by omega), if_neg (by omega), if_neg (by omega),
      if_neg (by omega)]

theorem shortText_of_minus (hminus : -100 < x ∧ x ≤ -10) : shortText x = ['-'] := by
  rw [shortText, if_neg (by unfold Short; omega), if_neg (by omega), if_neg (by omega), if_pos hminus.1]

/-- The neighbour in the same hundred. -/
theorem exists_same_hundreds (hlarge : 100 ≤ x ∨ x ≤ -100) (hrange : -2147483648 ≤ x ∧ x ≤ 2147483647) :
    ∃ y : Int, (-2147483648 ≤ y ∧ y ≤ 2147483647) ∧ x ≠ y ∧
      (100 ≤ x ∧ 100 ≤ y ∨ x ≤ -100 ∧ y ≤ -100) ∧ x.natAbs / 100 = y.natAbs / 100 := by
  by_cases hpos : 0 < x
  · by_cases hzero : x % 100 = 0
    · exact ⟨x + 1, by omega⟩
    · exact ⟨x - 1, by omega⟩
  · by_cases hzero : x % 100 = 0
    · exact ⟨x - 1, by omega⟩
    · exact ⟨x + 1, by omega⟩

/-- Every number has another one that is shortened to the same text. -/
theorem exists_same_shortText (x : CInt) : ∃ y : CInt, x ≠ y ∧ shortText x.val = shortText y.val := by
  suffices hint : ∃ y : Int, (-2147483648 ≤ y ∧ y ≤ 2147483647) ∧ x.val ≠ y ∧
      shortText x.val = shortText y by
    obtain ⟨y, hrange, hne, htext⟩ := hint
    exact ⟨⟨y, hrange⟩, fun heq => hne (congrArg Subtype.val heq), htext⟩
  obtain ⟨x, hrange⟩ := x
  dsimp only
  by_cases hshort : Short x
  · refine ⟨100 * x, ?_, ?_, shortText_of_short hshort⟩ <;> unfold Short at hshort <;> omega
  by_cases hsmall : x = 10 ∨ -10 < x ∧ x ≤ 0
  · refine ⟨if x = 0 then 10 else 0, by omega, by omega, ?_⟩
    rw [shortText_of_small hsmall, shortText_of_small (by omega)]
  by_cases hminus : -100 < x ∧ x ≤ -10
  · refine ⟨if x = -10 then -11 else -10, by omega, by omega, ?_⟩
    rw [shortText_of_minus hminus, shortText_of_minus (by omega)]
  have hlarge : 100 ≤ x ∨ x ≤ -100 := by
    unfold Short at hshort
    omega
  obtain ⟨y, hy, hne, hsign, hdiv⟩ := exists_same_hundreds hlarge hrange
  exact ⟨y, hy, hne, shortText_eq_of_hundreds hsign hdiv⟩

/-- Every cached file that answers a request for the grid is the grid's own. -/
def Belongs (config : Config) (doubles : Str) (grid : Grid) : Prop :=
  ∀ other, SharesFile config doubles grid other → grid = other

/-- No grid is safe: the file of another zone always passes for its own. -/
theorem not_belongs (config : Config) (doubles : Str) (grid : Grid)
    (hconfig : checkConfig config = .ok ()) : ¬ Belongs config doubles grid := by
  intro hbelongs
  obtain ⟨zone, hne, htext⟩ := exists_same_shortText grid.zone
  have hlabel : label grid = label { grid with zone } := by
    simp only [label, Grid.fields, List.flatMap_cons, htext]
  have hgrid := hbelongs { grid with zone } ((sharesFile_iff hconfig doubles _ _).mpr ⟨hlabel, rfl⟩)
  exact hne (congrArg Grid.zone hgrid)

theorem small_range (n : Fin 100) : -2147483648 ≤ (n.val : Int) ∧ (n.val : Int) ≤ 2147483647 := by
  omega

def small (n : Fin 100) : CInt := ⟨n.val, small_range n⟩

theorem one_le_small : 1 ≤ (small 1).val := by
  decide

def utmGrid (zone : Fin 100) : Grid :=
  { projcode := small 1, zone := small zone, sphere := small 0, pixelreg := small 0
    origin := small 0, ydimsize := small 1, xdimsize := small 1
    ydim_pos := one_le_small, xdim_pos := one_le_small }

def sampleConfig : Config :=
  { bescachedir := "/tmp".toList, bescacheprefix := "ll".toList, cachesize := 1, dirState := .usable }

theorem not_belongs_utm :
    checkConfig sampleConfig = .ok () ∧ ¬ Belongs sampleConfig [] (utmGrid 11) := by
  have hconfig : checkConfig sampleConfig = .ok () := by decide
  exact ⟨hconfig, not_belongs sampleConfig [] _ hconfig⟩

/-- Zone 10 is printed as nothing at all, like zone 0, so the two zones share one file. -/
theorem utm_zones_share_file : getIntStr 10 = [] ∧ getIntStr 0 = [] ∧
      SharesFile sampleConfig [] (utmGrid 10) (utmGrid 0) ∧ utmGrid 10 ≠ utmGrid 0 := by
  have hcon : checkConfig sampleConfig = .ok () := by decide
  have hten : getIntStr 10 = [] := by
    rw [getIntStr_eq, shortText_of_small (.inl rfl)]
  have hzero : getIntStr 0 = [] := by
    rw [getIntStr_eq, shortText_of_small (by decide)]
  refine ⟨hten, hzero, ?_, by decide⟩
  rw [sharesFile_iff hcon]
  exact ⟨by decide, by decide⟩

end Bes.Hdf5.LatLonCache
