import Bes.Lib.Ring

/-! `GeoConstraint`, from which the server function `geogrid` has its bounding box. The values of the maps are
taken as exact numbers. -/
namespace Bes.Functions.Geo
open Lib.Ring

structure MapVector where
  values : List ℚ
  ne_nil : values ≠ []
deriving DecidableEq

namespace MapVector

def of (first : ℚ) (rest : List ℚ) : MapVector := ⟨first :: rest, List.cons_ne_nil first rest⟩

def length (map : MapVector) : Nat := map.values.length

def value (map : MapVector) (i : Nat) : ℚ := map.values.getD i 0

def apply (f : ℚ → ℚ) (map : MapVector) : MapVector where
  values := map.values.map f
  ne_nil := by simpa using map.ne_nil

theorem length_pos (map : MapVector) : 0 < map.length := List.length_pos_of_ne_nil map.ne_nil

@[simp] theorem length_apply (f : ℚ → ℚ) (map : MapVector) : (map.apply f).length = map.length :=
  List.length_map f

theorem value_apply (f : ℚ → ℚ) {map : MapVector} {i : Nat} (hi : i < map.length) :
    (map.apply f).value i = f (map.value i) := by
  unfold length at hi
  simp [value, apply, hi]

end MapVector

inductive Notation
  | unknownNotation
  | pos
  | negPos
deriving DecidableEq

inductive LatitudeSense
  | unknownSense
  | normal
  | inverted
deriving DecidableEq

inductive Failure
  | moreThanOne
  | noIntersection
  | noIndex (longitude : ℚ)
deriving DecidableEq

def categorizeNotation (left right : ℚ) : Notation :=
  if left < 0 ∨ right < 0 then .negPos else .pos

def toPos (longitude : ℚ) : ℚ := if longitude < 0 then longitude + 360 else longitude

def transformLongitudeToPosNotation (lon : MapVector) : MapVector := lon.apply toPos

def isBoundingBoxValid (lat lon : MapVector) (sense : LatitudeSense) (left top right bottom : ℚ) : Bool :=
  let lastLon := lon.value (lon.length - 1)
  let lastLat := lat.value (lat.length - 1)
  if (left < lon.value 0 ∧ right < lon.value 0) ∨ (lastLon < left ∧ lastLon < right) then false
  else if sense = .normal then
    ¬ ((lat.value 0 < top ∧ lat.value 0 < bottom) ∨ (top < lastLat ∧ bottom < lastLat))
  else ¬ ((top < lat.value 0 ∧ bottom < lat.value 0) ∨ (lastLat < top ∧ lastLat < bottom))

def fmod (x y : ℚ) : ℚ := x - y * (if 0 ≤ x / y then ⌊x / y⌋ else ⌈x / y⌉ : ℤ)

def turned (lon : MapVector) (i : Nat) : ℚ := fmod (lon.value i) 360

def lonOriginIndex (lon : MapVector) : Nat :=
  ((List.range lon.length).foldl
    (fun best i => if turned lon i < best.1 then (turned lon i, i) else best) (turned lon 0, 0)).2

def stepBack (exact : Bool) (i : Nat) : Nat := if exact then i else if 0 < i - 1 then i - 1 else 0

def stepOn (length : Nat) (exact : Bool) (i : Nat) : Nat :=
  if exact then i else if i + 1 < length - 1 then i + 1 else length - 1

def findLongitudeIndeces (lon : MapVector) (left right : ℚ) : Except Failure (Nat × Nat) :=
  let tLeft := fmod left 360
  let tRight := fmod right 360
  let origin := lonOriginIndex lon
  match walkUp lon.length origin (fun i => turned lon i < tLeft) lon.length origin with
  | none => .error (.noIndex left)
  | some i =>
      -- The vector is circular: the largest value is next to the smallest.
      let largest := place lon.length origin (lon.length - 1)
      match walkDown lon.length largest (fun i => tRight < turned lon i) lon.length largest with
      | none => .error (.noIndex right)
      | some j => .ok (stepBack (turned lon i = tLeft) i, stepOn lon.length (turned lon j = tRight) j)

/-- `while (i < limit && go(i)) ++i`, for `rounds` places up to the limit. -/
def climb (go : Nat → Bool) : Nat → Nat → Nat
  | 0, i => i
  | rounds + 1, i => if go i then climb go rounds (i + 1) else i

/-- `while (i > 0 && go(i)) --i`. -/
def descend (go : Nat → Bool) : Nat → Nat
  | 0 => 0
  | i + 1 => if go (i + 1) then descend go i else i + 1

def findLatitudeIndeces (lat : MapVector) (top bottom : ℚ) (sense : LatitudeSense) : Nat × Nat :=
  let last := lat.length - 1
  if sense = .normal then
    let i := climb (fun i => top < lat.value i) last 0
    let j := descend (fun j => lat.value j < bottom) last
    (stepBack (lat.value i = top) i, stepOn lat.length (lat.value j = bottom) j)
  else
    let i := descend (fun i => top < lat.value i) last
    let j := climb (fun j => lat.value j < bottom) last 0
    (stepOn lat.length (lat.value i = top) i, stepBack (lat.value j = bottom) j)

def categorizeLatitude (lat : MapVector) : LatitudeSense :=
  if lat.value (lat.length - 1) ≤ lat.value 0 then .normal else .inverted

structure GeoConstraint where
  lat : MapVector
  lon : MapVector
  latitudeIndexTop : Nat
  latitudeIndexBottom : Nat
  longitudeIndexLeft : Nat
  longitudeIndexRight : Nat
  boundingBoxSet : Bool
  longitudeRightmost : Bool
  longitudeNotation : Notation
  latitudeSense : LatitudeSense
deriving DecidableEq

def GeoConstraint.new (lat lon : MapVector) (longitudeRightmost : Bool) : GeoConstraint where
  lat := lat
  lon := lon
  latitudeIndexTop := 0
  latitudeIndexBottom := 0
  longitudeIndexLeft := 0
  longitudeIndexRight := 0
  boundingBoxSet := false
  longitudeRightmost := longitudeRightmost
  longitudeNotation := .unknownNotation
  latitudeSense := .unknownSense

structure Box where
  top : ℚ
  left : ℚ
  bottom : ℚ
  right : ℚ

def GeoConstraint.setBoundingBox (constraint : GeoConstraint) (box : Box) : Except Failure GeoConstraint :=
  if constraint.boundingBoxSet then .error .moreThanOne
  else
    let sense := categorizeLatitude constraint.lat
    let boxNotation := categorizeNotation box.left box.right
    let left := if boxNotation = .negPos then toPos box.left else box.left
    let right := if boxNotation = .negPos then toPos box.right else box.right
    let lon :=
      if categorizeNotation (constraint.lon.value 0) (constraint.lon.value (constraint.lon.length - 1)) = .negPos
      then transformLongitudeToPosNotation constraint.lon
      else constraint.lon
    if isBoundingBoxValid constraint.lat lon sense left box.top right box.bottom then
      let (indexTop, indexBottom) := findLatitudeIndeces constraint.lat box.top box.bottom sense
      match findLongitudeIndeces lon left right with
      | .error failure => .error failure
      | .ok (indexLeft, indexRight) =>
          .ok { constraint with
            lon := lon
            latitudeIndexTop := indexTop
            latitudeIndexBottom := indexBottom
            longitudeIndexLeft := indexLeft
            longitudeIndexRight := indexRight
            boundingBoxSet := true
            longitudeNotation := boxNotation
            latitudeSense := sense }
    else .error .noIntersection

theorem climb_spec (go : Nat → Bool) (rounds i : Nat) :
    i ≤ climb go rounds i ∧ climb go rounds i ≤ i + rounds ∧
      (∀ j, i ≤ j → j < climb go rounds i → go j = true) ∧
      (climb go rounds i < i + rounds → go (climb go rounds i) = false) := by
  induction rounds generalizing i with
  | zero =>
    rw [climb]
    exact ⟨le_refl i, le_refl i, fun j hij hji => by omega, fun h => by omega⟩
  | succ rounds ih =>
    rw [climb]
    cases hgo : go i with
    | false =>
      rw [if_neg Bool.false_ne_true]
      exact ⟨le_refl i, by omega, fun j hij hji => by omega, fun _ => hgo⟩
    | true =>
      rw [if_pos rfl]
      obtain ⟨hle, hbd, hall, hstp⟩ := ih (i + 1)
      refine ⟨by omega, by omega, ?_, fun h => hstp (by omega)⟩
      intro j hij hji
      by_cases heq : j = i
      · rw [heq, hgo]
      · exact hall j (by omega) hji

theorem descend_spec (go : Nat → Bool) (i : Nat) :
    descend go i ≤ i ∧ (∀ j, descend go i < j → j ≤ i → go j = true) ∧
      (0 < descend go i → go (descend go i) = false) := by
  induction i with
  | zero =>
    rw [descend]
    exact ⟨le_refl 0, fun j hj hj' => by omega, fun h => by omega⟩
  | succ i ih =>
    rw [descend]
    cases hgo : go (i + 1) with
    | false =>
      rw [if_neg Bool.false_ne_true]
      exact ⟨le_refl _, fun j hj hj' => by omega, fun _ => hgo⟩
    | true =>
      rw [if_pos rfl]
      obtain ⟨hle, hall, hstp⟩ := ih
      refine ⟨by omega, ?_, hstp⟩
      intro j hj hji
      by_cases heq : j = i + 1
      · rw [heq, hgo]
      · exact hall j hj (by omega)

theorem stepBack_cases (exact : Bool) (i : Nat) : stepBack exact i = i ∨ stepBack exact i = i - 1 := by
  unfold stepBack
  split <;> [skip; split] <;> omega

theorem stepOn_cases (length : Nat) (exact : Bool) (i : Nat) :
    stepOn length exact i = i ∨ stepOn length exact i = min (i + 1) (length - 1) := by
  unfold stepOn
  split <;> [skip; split] <;> omega

theorem lonOriginIndex_spec (lon : MapVector) :
    lonOriginIndex lon < lon.length ∧ (∀ i < lon.length, turned lon (lonOriginIndex lon) ≤ turned lon i) ∧
      ∀ i < lonOriginIndex lon, turned lon (lonOriginIndex lon) < turned lon i := by
  have hlop : ∀ count, ∃ j, (List.range count).foldl
      (fun best i => if turned lon i < best.1 then (turned lon i, i) else best) (turned lon 0, 0) =
        (turned lon j, j) ∧ (j < count ∨ j = 0) ∧ (∀ i < count, turned lon j ≤ turned lon i) ∧
        ∀ i < j, turned lon j < turned lon i := by
    intro count
    induction count with
    | zero => exact ⟨0, rfl, .inr rfl, fun i hi => by omega, fun i hi => by omega⟩
    | succ count ih =>
      obtain ⟨j, hfld, hj, hlea, hfst⟩ := ih
      rw [List.range_succ, List.foldl_append, hfld, List.foldl_cons, List.foldl_nil]
      by_cases hlss : turned lon count < turned lon j
      · rw [if_pos hlss]
        refine ⟨count, rfl, .inl (by omega), ?_, ?_⟩
        · intro i hi
          by_cases heq : i = count
          · rw [heq]
          · exact hlss.le.trans (hlea i (by omega))
        · intro i hi
          exact hlss.trans_le (hlea i hi)
      · rw [if_neg hlss]
        refine ⟨j, rfl, by omega, ?_, hfst⟩
        intro i hi
        by_cases heq : i = count
        · rw [heq]
          exact not_lt.mp hlss
        · exact hlea i (by omega)
  obtain ⟨j, hfld, hj, hlea, hfst⟩ := hlop lon.length
  have hpos := lon.length_pos
  have hidx : lonOriginIndex lon = j := by rw [lonOriginIndex, hfld]
  rw [hidx]
  exact ⟨by omega, hlea, hfst⟩

section

variable {lon : MapVector} {left right : ℚ}

structure Found (lon : MapVector) (left right : ℚ) (a b : Nat) : Prop where
  left_lt : a < lon.length
  right_lt : b < lon.length
  left_le : fmod left 360 ≤ turned lon (place lon.length (lonOriginIndex lon) a)
  before_left : ∀ k < a, turned lon (place lon.length (lonOriginIndex lon) k) < fmod left 360
  right_le : turned lon (place lon.length (lonOriginIndex lon) b) ≤ fmod right 360
  after_right : ∀ k < lon.length, b < k →
    fmod right 360 < turned lon (place lon.length (lonOriginIndex lon) k)
  indices : ∃ exactLeft exactRight, findLongitudeIndeces lon left right =
    .ok (stepBack exactLeft (place lon.length (lonOriginIndex lon) a),
      stepOn lon.length exactRight (place lon.length (lonOriginIndex lon) b))

theorem exists_walkUp (lon : MapVector) (tLeft : ℚ) (hlft : ∃ i < lon.length, tLeft ≤ turned lon i) :
    ∃ a < lon.length, tLeft ≤ turned lon (place lon.length (lonOriginIndex lon) a) ∧
      (∀ k < a, turned lon (place lon.length (lonOriginIndex lon) k) < tLeft) ∧
      walkUp lon.length (lonOriginIndex lon) (fun i => turned lon i < tLeft) lon.length (lonOriginIndex lon) =
        some (place lon.length (lonOriginIndex lon) a) := by
  have horg := (lonOriginIndex_spec lon).1
  have hpla : ∃ a, a < lon.length ∧ tLeft ≤ turned lon (place lon.length (lonOriginIndex lon) a) := by
    obtain ⟨i, hi, hle⟩ := hlft
    obtain ⟨k, hk, rfl⟩ := exists_place horg hi
    exact ⟨k, hk, hle⟩
  classical
  have hfst := Nat.find_spec hpla
  have hbef : ∀ k < Nat.find hpla, turned lon (place lon.length (lonOriginIndex lon) k) < tLeft := by
    intro k hk
    have hnot := Nat.find_min hpla hk
    rw [not_and, not_le] at hnot
    exact hnot (hk.trans hfst.1)
  refine ⟨Nat.find hpla, hfst.1, hfst.2, hbef, ?_⟩
  apply walkUp_of_stop horg hfst.1
  · exact decide_eq_false (not_lt.mpr hfst.2)
  · exact fun k hk => decide_eq_true (hbef k hk)

theorem exists_walkDown (lon : MapVector) (tRight : ℚ) (hrig : ∃ i < lon.length, turned lon i ≤ tRight) :
    ∃ b < lon.length, turned lon (place lon.length (lonOriginIndex lon) b) ≤ tRight ∧
      (∀ k < lon.length, b < k → tRight < turned lon (place lon.length (lonOriginIndex lon) k)) ∧
      walkDown lon.length (place lon.length (lonOriginIndex lon) (lon.length - 1))
        (fun i => tRight < turned lon i) lon.length
        (place lon.length (lonOriginIndex lon) (lon.length - 1)) =
        some (place lon.length (lonOriginIndex lon) b) := by
  have horg := (lonOriginIndex_spec lon).1
  have hpla : ∃ d, d < lon.length ∧
      turned lon (place lon.length (lonOriginIndex lon) (lon.length - 1 - d)) ≤ tRight := by
    obtain ⟨i, hi, hle⟩ := hrig
    obtain ⟨k, hk, rfl⟩ := exists_place horg hi
    refine ⟨lon.length - 1 - k, by omega, ?_⟩
    have hbck : lon.length - 1 - (lon.length - 1 - k) = k := by omega
    rwa [hbck]
  classical
  have hlst := Nat.find_spec hpla
  have haft : ∀ k < lon.length, lon.length - 1 - Nat.find hpla < k →
      tRight < turned lon (place lon.length (lonOriginIndex lon) k) := by
    intro k hk hlt
    have hnot := @Nat.find_min _ _ hpla (lon.length - 1 - k) (by omega)
    have hbck : lon.length - 1 - (lon.length - 1 - k) = k := by omega
    rw [not_and, not_le, hbck] at hnot
    exact hnot (by omega)
  refine ⟨lon.length - 1 - Nat.find hpla, by omega, hlst.2, haft, ?_⟩
  apply walkDown_of_stop horg (by omega)
  · exact decide_eq_false (not_lt.mpr hlst.2)
  · exact fun k hk hlt => decide_eq_true (haft k hk hlt)

theorem exists_found (hlft : ∃ i < lon.length, fmod left 360 ≤ turned lon i)
    (hrig : ∃ i < lon.length, turned lon i ≤ fmod right 360) : ∃ a b, Found lon left right a b := by
  obtain ⟨a, ha, hle, hbef, hup⟩ := exists_walkUp lon _ hlft
  obtain ⟨b, hb, hge, haft, hdwn⟩ := exists_walkDown lon _ hrig
  have hfnd : findLongitudeIndeces lon left right =
      .ok (stepBack (turned lon (place lon.length (lonOriginIndex lon) a) = fmod left 360)
          (place lon.length (lonOriginIndex lon) a),
        stepOn lon.length (turned lon (place lon.length (lonOriginIndex lon) b) = fmod right 360)
          (place lon.length (lonOriginIndex lon) b)) := by
    rw [findLongitudeIndeces, hup]
    dsimp only
    rw [hdwn]
  exact ⟨a, b, ha, hb, hle, hbef, hge, haft, _, _, hfnd⟩

theorem reached_of_ok (hok : findLongitudeIndeces lon left right = .ok indices) :
    (∃ i < lon.length, fmod left 360 ≤ turned lon i) ∧ ∃ i < lon.length, turned lon i ≤ fmod right 360 := by
  have horg := (lonOriginIndex_spec lon).1
  constructor
  · by_contra hnon
    push Not at hnon
    have hgo : ∀ i < lon.length, decide (turned lon i < fmod left 360) = true :=
      fun i hi => decide_eq_true (hnon i hi)
    rw [findLongitudeIndeces, walkUp_of_go hgo horg] at hok
    cases hok
  · by_contra hnon
    push Not at hnon
    have hgo : ∀ i < lon.length, decide (fmod right 360 < turned lon i) = true :=
      fun i hi => decide_eq_true (hnon i hi)
    rw [findLongitudeIndeces] at hok
    split at hok
    · cases hok
    · dsimp only at hok
      rw [walkDown_of_go hgo (place_lt lon.length_pos)] at hok
      cases hok

theorem found_of_ok (hok : findLongitudeIndeces lon left right = .ok (indexLeft, indexRight)) :
    ∃ a b, Found lon left right a b ∧ (indexLeft = place lon.length (lonOriginIndex lon) a ∨
        indexLeft = place lon.length (lonOriginIndex lon) a - 1) ∧
      (indexRight = place lon.length (lonOriginIndex lon) b ∨
        indexRight = min (place lon.length (lonOriginIndex lon) b + 1) (lon.length - 1)) := by
  obtain ⟨hlft, hrig⟩ := reached_of_ok hok
  obtain ⟨a, b, hfou⟩ := exists_found hlft hrig
  obtain ⟨exactLeft, exactRight, hidx⟩ := hfou.indices
  rw [hok, Except.ok.injEq, Prod.mk.injEq] at hidx
  obtain ⟨rfl, rfl⟩ := hidx
  exact ⟨a, b, hfou, stepBack_cases _ _, stepOn_cases _ _ _⟩

theorem index_lt_of_ok (hok : findLongitudeIndeces lon left right = .ok (indexLeft, indexRight)) :
    indexLeft < lon.length ∧ indexRight < lon.length := by
  obtain ⟨a, b, -, hlft, hrig⟩ := found_of_ok hok
  have hpos := lon.length_pos
  have ha : place lon.length (lonOriginIndex lon) a < lon.length := place_lt hpos
  have hb : place lon.length (lonOriginIndex lon) b < lon.length := place_lt hpos
  omega

end

theorem stepBack_lt {i : Nat} (exact : Bool) (hi : i < n) : stepBack exact i < n := by
  have hcas := stepBack_cases exact i
  omega

theorem stepOn_lt {i : Nat} (exact : Bool) (hi : i < length) : stepOn length exact i < length := by
  have hcas := stepOn_cases length exact i
  omega

theorem findLatitudeIndeces_lt (lat : MapVector) (top bottom : ℚ) (sense : LatitudeSense) :
    (findLatitudeIndeces lat top bottom sense).1 < lat.length ∧
      (findLatitudeIndeces lat top bottom sense).2 < lat.length := by
  have hpos := lat.length_pos
  have hcli : ∀ go, climb go (lat.length - 1) 0 < lat.length := by
    intro go
    have hbd := (climb_spec go (lat.length - 1) 0).2.1
    omega
  have hdes : ∀ go, descend go (lat.length - 1) < lat.length := by
    intro go
    have hbd := (descend_spec go (lat.length - 1)).1
    omega
  unfold findLatitudeIndeces
  split
  · exact ⟨stepBack_lt _ (hcli _), stepOn_lt _ (hdes _)⟩
  · exact ⟨stepOn_lt _ (hdes _), stepBack_lt _ (hcli _)⟩

end Bes.Functions.Geo
