import Bes.Functions.GeoGrid

/-! Whether the values that `geogrid` sends are still those of their coordinates. Longitudes are compared modulo
one turn. -/
namespace Bes.Functions.Geo
open Lib Lib.Ring Lib.RowMajor List

variable {α : Type}

/-- Each element that is sent is the one of the source at the latitude and longitude of its maps and at its
index of the remaining dimension, and the maps are as long as the dimensions of the array. -/
structure Kept (lat lon : MapVector) (rightmost : Bool) (data : List Nat → α)
    (leading : List (List Nat)) (grid : ConstrainedGrid α) : Prop where
  latMap_length : grid.latMap.length = grid.latLength
  lonMap_length : grid.lonMap.length = grid.lonLength
  array_length : grid.arrayData.length =
    (leading.map length ++ inOrder rightmost grid.latLength grid.lonLength).prod
  kept : ∀ k, InBounds (leading.map length) k → ∀ y < grid.latLength, ∀ x < grid.lonLength,
    ∃ i < lat.length, ∃ j < lon.length,
      grid.arrayData[gridPosition leading rightmost grid.latLength grid.lonLength k y x]? =
        some (data (pick leading k ++ inOrder rightmost i j)) ∧
      grid.latMap[y]? = some (lat.value i) ∧
      ∃ longitude, grid.lonMap[x]? = some longitude ∧ longitude ≡ lon.value j [PMOD 360]

def KeepsCoordinates (maps : List GridMap) (rightmost : Bool) (data : List Nat → α)
    (grid : ConstrainedGrid α) : Prop :=
  ∃ lat lon, maps.drop (maps.length - 2) = inOrder rightmost lat lon ∧
    lat.isLatitude = true ∧ lon.isLongitude = true ∧
    Kept lat.vector lon.vector rightmost data (leadingSelected maps) grid

def FlipKeeps (lat lon : MapVector) (geo : GeoConstraint) : Prop :=
  ∀ y < geo.latLength, ∀ x < geo.lonLength,
    let p := flippedFrom geo.latLength geo.lonLength (x * geo.latLength + y)
    lat.value (geo.top + p % geo.latLength) = lat.value (geo.bottom - y) ∧
      lon.value (geo.longitudeIndexLeft + x) ≡
        lon.value (geo.longitudeIndexLeft + p / geo.latLength) [PMOD 360]

theorem toPos_modEq (x : ℚ) : toPos x ≡ x [PMOD 360] := by
  unfold toPos
  split
  · exact ⟨0, 1, by rw [zero_nsmul, one_nsmul]; ring⟩
  · rfl

theorem toNegPos_modEq (x : ℚ) : toNegPos x ≡ x [PMOD 360] := by
  unfold toNegPos
  split
  · exact ⟨1, 0, by rw [zero_nsmul, one_nsmul]; ring⟩
  · rfl

theorem GeoConstraint.written_modEq (geo : GeoConstraint) (x : ℚ) :
    geo.written x ≡ x [PMOD 360] := by
  unfold GeoConstraint.written
  split
  · exact toNegPos_modEq x
  · rfl

structure Bounds (unset geo : GeoConstraint) : Prop where
  applies : geo.Applies
  lat_eq : geo.lat = unset.lat
  rightmost_eq : geo.longitudeRightmost = unset.longitudeRightmost
  lon_length : geo.lon.length = unset.lon.length
  lon_modEq : ∀ j < unset.lon.length, geo.lon.value j ≡ unset.lon.value j [PMOD 360]

/-- `apply_constraint_to_data` does not throw. A size that is too small for the data throws nothing. -/
def NotThrown (result : Except GridFailure (ConstrainedGrid α)) : Prop :=
  ∀ failure, result = .error failure → failure = .overflow

theorem returns_of_notThrown (hset : geo.boundingBoxSet = true)
    (hreturns : NotThrown (applyConstraintToData width data blank leading geo)) :
    geo.top ≤ geo.bottom ∧ (geo.Wraps → geo.longitudeRightmost = true) := by
  unfold applyConstraintToData at hreturns
  rw [if_neg (by rw [hset]; decide)] at hreturns
  by_cases horder : geo.bottom < geo.top
  · rw [if_pos horder] at hreturns
    cases hreturns _ rfl
  · refine ⟨by omega, fun hwraps => ?_⟩
    by_contra hrightmost
    have hthrown : unwrapLongitudes width data blank leading geo
        (indexRange geo.top geo.bottom) = .error .wrapsAround := by
      rw [unwrapLongitudes, if_pos hwraps, reorderDataLongitudeAxis, if_neg hrightmost]
    rw [if_neg horder] at hreturns
    dsimp only at hreturns
    rw [hthrown] at hreturns
    cases hreturns _ rfl

theorem bounds_of_notThrown (hset : unset.setBoundingBox box = .ok geo)
    (hreturns : NotThrown (applyConstraintToData width data blank leading geo)) :
    Bounds unset geo := by
  have hreturned := fun hset => returns_of_notThrown hset hreturns
  unfold GeoConstraint.setBoundingBox at hset
  split at hset
  · cases hset
  · dsimp only at hset
    generalize hlon : (if categorizeNotation (unset.lon.value 0) (unset.lon.value (unset.lon.length - 1)) = .negPos
      then transformLongitudeToPosNotation unset.lon else unset.lon) = lon at hset
    generalize (if categorizeNotation box.left box.right = .negPos then toPos box.left else box.left) = left at hset
    generalize (if categorizeNotation box.left box.right = .negPos then toPos box.right else box.right) = right at hset
    have hlen : lon.length = unset.lon.length := by
      rw [← hlon]
      split
      · exact MapVector.length_apply toPos unset.lon
      · rfl
    have hmod : ∀ j < unset.lon.length, lon.value j ≡ unset.lon.value j [PMOD 360] := by
      intro j hj
      rw [← hlon]
      split
      · rw [transformLongitudeToPosNotation, MapVector.value_apply toPos hj]
        exact toPos_modEq _
      · rfl
    have hlai := findLatitudeIndeces_lt unset.lat box.top box.bottom (categorizeLatitude unset.lat)
    split at hset
    · split at hset
      · cases hset
      next hfound =>
        have hlog := index_lt_of_ok hfound
        cases hset
        obtain ⟨horder, hwra⟩ := hreturned rfl
        refine ⟨⟨rfl, ?_, hlog.1, hlog.2, horder, hwra⟩, rfl, rfl, hlen, hmod⟩
        unfold GeoConstraint.bottom
        split
        · exact hlai.1
        · exact hlai.2
    · cases hset

section

variable {unset geo : GeoConstraint}

def OriginAgrees (lat lon : MapVector) (geo : GeoConstraint) : Prop :=
  ∀ y < geo.latLength, ∀ x < geo.lonLength,
    lat.value (geo.origin y x).1 = lat.value (geo.sentLatitude y) ∧
      lon.value (geo.sentLongitude x) ≡ lon.value (geo.origin y x).2 [PMOD 360]

theorem sentLongitude_lt (geo : GeoConstraint) (x : Nat) : geo.sentLongitude x < geo.lon.length :=
  place_lt geo.lon.length_pos

theorem origin_lt (happ : geo.Applies) (hy : y < geo.latLength) (x : Nat) :
    (geo.origin y x).1 < geo.lat.length ∧ (geo.origin y x).2 < geo.lon.length := by
  have hbot := happ.bottom_lt
  have horder := happ.order
  have hlat : geo.latLength = geo.bottom - geo.top + 1 := rfl
  unfold GeoConstraint.origin
  split
  · refine ⟨?_, sentLongitude_lt geo _⟩
    have hmod := Nat.mod_lt (flippedFrom geo.latLength geo.lonLength (x * geo.latLength + y))
      (Nat.zero_lt_of_lt hy)
    dsimp only
    omega
  · refine ⟨?_, sentLongitude_lt geo x⟩
    unfold GeoConstraint.sentLatitude
    split <;> omega

variable {data : List Nat → α} {grid : ConstrainedGrid α}

theorem Sends.sent (hbounds : Bounds unset geo) (hsen : Sends data leading geo grid)
    (hy : y < geo.latLength) (hx : x < geo.lonLength) :
    grid.latMap[y]? = some (unset.lat.value (geo.sentLatitude y)) ∧
      ∃ longitude, grid.lonMap[x]? = some longitude ∧
        longitude ≡ unset.lon.value (geo.sentLongitude x) [PMOD 360] := by
  have hlng : geo.sentLongitude x < unset.lon.length := hbounds.lon_length ▸ sentLongitude_lt geo x
  constructor
  · rw [hsen.latMap_eq, getElem?_map, getElem?_range hy, ← hbounds.lat_eq]
    rfl
  · refine ⟨geo.written (geo.lon.value (geo.sentLongitude x)), ?_, ?_⟩
    · rw [hsen.lonMap_eq, getElem?_map, getElem?_range hx]
      rfl
    · exact (geo.written_modEq _).trans (hbounds.lon_modEq _ hlng)

theorem kept_of_agrees (hbounds : Bounds unset geo) (hsen : Sends data leading geo grid)
    (hagr : OriginAgrees unset.lat unset.lon geo) :
    Kept unset.lat unset.lon unset.longitudeRightmost data leading grid where
  latMap_length := by
    rw [hsen.latMap_eq, hsen.latLength_eq, length_map, length_range]
  lonMap_length := by
    rw [hsen.lonMap_eq, hsen.lonLength_eq, length_map, length_range]
  array_length := by
    rw [hsen.holds.length_eq, hsen.latLength_eq, hsen.lonLength_eq, prod_append]
    cases unset.longitudeRightmost <;> simp [inOrder, Nat.mul_comm]
  kept := by
    rw [hsen.latLength_eq, hsen.lonLength_eq, ← hbounds.rightmost_eq, ← hbounds.lon_length]
    intro k hk y hy x hx
    obtain ⟨hlat, longitude, hlon, hmod⟩ := hsen.sent hbounds hy hx
    obtain ⟨hltt, hlng⟩ := hagr y hy x hx
    obtain ⟨hi, hj⟩ := origin_lt hbounds.applies hy x
    rw [hbounds.lat_eq] at hi
    rw [← hltt] at hlat
    exact ⟨_, hi, _, hj, hsen.holds.cell k hk y hy x hx, hlat, longitude, hlon, hmod.trans hlng⟩

theorem agrees_of_kept {grid : ConstrainedGrid (List Nat)} (hbounds : Bounds unset geo)
    (hsen : Sends id leading geo grid) (hlea : ∀ selected ∈ leading, selected ≠ [])
    (hkept : Kept unset.lat unset.lon unset.longitudeRightmost id leading grid) :
    OriginAgrees unset.lat unset.lon geo := by
  have hk : InBounds (leading.map length) (leading.map fun _ => 0) := by
    rw [InBounds, forall₂_map_left_iff, forall₂_map_right_iff, forall₂_same]
    exact fun selected hmem => length_pos_of_ne_nil (hlea selected hmem)
  have hcel := hkept.kept _ hk
  rw [hsen.latLength_eq, hsen.lonLength_eq, ← hbounds.rightmost_eq] at hcel
  intro y hy x hx
  obtain ⟨i, -, j, -, hval, hlat, longitude, hlon, hmod⟩ := hcel y hy x hx
  obtain ⟨hlat', longitude', hlon', hmodEq'⟩ := hsen.sent hbounds hy hx
  rw [hsen.holds.cell _ hk y hy x hx, Option.some.injEq, id, id, append_cancel_left_eq,
    inOrder_inj] at hval
  rw [hlat, Option.some.injEq] at hlat'
  rw [hlon, Option.some.injEq] at hlon'
  rw [hval.1, hval.2]
  exact ⟨hlat', (hlon' ▸ hmodEq').symm.trans hmod⟩

theorem lonLength_of_not_wraps (hwra : ¬ geo.Wraps) :
    geo.lonLength = geo.longitudeIndexRight - geo.longitudeIndexLeft + 1 := if_neg hwra

theorem originAgrees_iff (lat lon : MapVector) (happ : geo.Applies) : OriginAgrees lat lon geo ↔
      geo.longitudeRightmost = true ∨ geo.latitudeSense ≠ .inverted ∨ FlipKeeps lat lon geo := by
  by_cases hcase : geo.latitudeSense = .inverted ∧ geo.longitudeRightmost = false
  · have hor : (geo.longitudeRightmost = true ∨ geo.latitudeSense ≠ .inverted ∨ FlipKeeps lat lon geo) ↔
        FlipKeeps lat lon geo := by
      simp [hcase.1, hcase.2]
    have hwra : ¬ geo.Wraps := by
      intro hlt
      rw [happ.wraps hlt] at hcase
      exact Bool.noConfusion hcase.2
    have hlon := lonLength_of_not_wraps hwra
    have hright := happ.right_lt
    have hsnt : ∀ x < geo.lonLength, geo.sentLongitude x = geo.longitudeIndexLeft + x :=
      fun x hx => place_of_lt (by omega)
    rw [hor, OriginAgrees, FlipKeeps]
    apply forall_congr'
    intro y
    apply imp_congr_right
    intro hy
    apply forall_congr'
    intro x
    apply imp_congr_right
    intro hx
    have hltt : geo.sentLatitude y = geo.bottom - y := if_pos hcase.1
    rw [GeoConstraint.origin, if_pos hcase, hltt, hsnt x hx]
    dsimp only
    rw [hsnt _ (flippedFrom_div_lt hy hx)]
  · have hagr : OriginAgrees lat lon geo := by
      intro y _ x _
      rw [GeoConstraint.origin, if_neg hcase]
      exact ⟨rfl, AddCommGroup.modEq_rfl⟩
    have hor : geo.longitudeRightmost = true ∨ geo.latitudeSense ≠ .inverted := by
      rw [not_and_or, Bool.not_eq_false] at hcase
      exact hcase.symm
    exact iff_of_true hagr (hor.imp_right .inl)

end

theorem drop_eq_pair {l : List β} (hlen : l.length = n + 2)
    (hfirst : l[n]? = some first) (hsecond : l[n + 1]? = some second) : l.drop n = [first, second] := by
  apply ext_getElem?
  intro i
  rw [getElem?_drop]
  match i with
  | 0 => exact hfirst
  | 1 => exact hsecond
  | i + 2 => exact getElem?_eq_none (by omega)

theorem last_maps_of_ok (hnew : gridGeoConstraint maps = .ok unset) :
    ∃ lat lon, maps.drop (maps.length - 2) = inOrder unset.longitudeRightmost lat lon ∧
      lat.isLatitude = true ∧ lon.isLongitude = true ∧ lat.vector = unset.lat ∧ lon.vector = unset.lon := by
  unfold gridGeoConstraint at hnew
  split at hnew
  · cases hnew
  next hrnk =>
    split at hnew
    next lat latDim lon lonDim hlat hlon =>
      have hlam := mem_zipIdx_iff_getElem?.mp (mem_of_find?_eq_some hlat)
      have hlom := mem_zipIdx_iff_getElem?.mp (mem_of_find?_eq_some hlon)
      split at hnew
      next rightmost hdims =>
        cases hnew
        have hisl : lat.isLatitude = true := by simpa using find?_some hlat
        have hiso : lon.isLongitude = true := by simpa using find?_some hlon
        refine ⟨lat, lon, ?_, hisl, hiso, rfl, rfl⟩
        unfold latLonDimensionsOk at hdims
        split at hdims
        next hplace =>
          cases hdims
          have hlad : latDim = maps.length - 2 := by omega
          have hlod : lonDim = maps.length - 2 + 1 := by omega
          exact drop_eq_pair (by omega) (hlad ▸ hlam) (hlod ▸ hlom)
        · split at hdims
          next hplace =>
            cases hdims
            have hlad : latDim = maps.length - 2 + 1 := by omega
            have hlod : lonDim = maps.length - 2 := by omega
            exact drop_eq_pair (by omega) (hlod ▸ hlom) (hlad ▸ hlam)
          · cases hdims
      · cases hnew
    · cases hnew

theorem flipKeeps_iff (happ : geo.Applies) (hwra : ¬ geo.Wraps)
    (hlat : ∀ i < geo.lat.length, ∀ j < geo.lat.length, lat.value i = lat.value j → i = j)
    (hlon : ∀ i < geo.lon.length, ∀ j < geo.lon.length, lon.value i ≡ lon.value j [PMOD 360] → i = j) :
    FlipKeeps lat lon geo ↔ geo.latLength = 1 ∨ geo.lonLength = 1 := by
  have hbot := happ.bottom_lt
  have horder := happ.order
  have hright := happ.right_lt
  have hlal : geo.latLength = geo.bottom - geo.top + 1 := rfl
  have hlol := lonLength_of_not_wraps hwra
  constructor
  · -- The first element is the one at the start of the last run.
    intro hkeeps
    have hlap : 0 < geo.latLength := by omega
    have hloop : 0 < geo.lonLength := by omega
    have hfirst : flippedFrom geo.latLength geo.lonLength (0 * geo.latLength + 0) =
        (geo.latLength - 1) * geo.lonLength := by simp [flippedFrom]
    have hkept := hkeeps 0 hlap 0 hloop
    have hcol := flippedFrom_div_lt hlap hloop
    rw [hfirst] at hkept hcol
    have hrow := Nat.mod_lt ((geo.latLength - 1) * geo.lonLength) hlap
    have hmod := hlat _ (by omega) _ (by omega) hkept.1
    have hdiv := hlon _ (by omega) _ (by omega) hkept.2
    have hpos := Nat.div_add_mod ((geo.latLength - 1) * geo.lonLength) geo.latLength
    have hzero : (geo.latLength - 1) * geo.lonLength / geo.latLength = 0 := by omega
    rw [hzero, Nat.mul_zero, Nat.zero_add] at hpos
    have hsame : (geo.latLength - 1) * geo.lonLength = (geo.latLength - 1) * 1 := by omega
    by_cases hone : geo.latLength = 1
    · exact .inl hone
    · exact .inr (Nat.eq_of_mul_eq_mul_left (by omega) hsame)
  · intro hone y hy x hx
    dsimp only
    cases hone with
    | inl hlatOne =>
      have hx' : flippedFrom geo.latLength geo.lonLength (x * geo.latLength + y) = x := by
        rw [hlatOne] at hy ⊢
        obtain rfl : y = 0 := by omega
        simp [flippedFrom, Nat.mod_eq_of_lt hx]
      have hend : geo.top = geo.bottom - y := by omega
      rw [hx', hlatOne, Nat.mod_one, Nat.div_one, Nat.add_zero, ← hend]
      exact ⟨rfl, AddCommGroup.modEq_rfl⟩
    | inr hlonOne =>
      obtain rfl : x = 0 := by omega
      have hy' : flippedFrom geo.latLength geo.lonLength (0 * geo.latLength + y) = geo.latLength - 1 - y := by
        rw [hlonOne]
        simp [flippedFrom, Nat.mod_one]
      have hrow : geo.top + (geo.latLength - 1 - y) = geo.bottom - y := by omega
      rw [hy', Nat.mod_eq_of_lt (by omega), Nat.div_eq_of_lt (by omega), hrow]
      exact ⟨rfl, AddCommGroup.modEq_rfl⟩

/-- The values keep their coordinates for every content of the array exactly if the bytes of a selection that
goes through the buffer can be counted in an `int`, and the longitude is rightmost, or the latitudes run from
north to south, or the flip happens to keep them. -/
theorem keepsCoordinates_iff (width : Nat) (maps : List GridMap) (unset geo : GeoConstraint) (box : Box)
    (hnew : gridGeoConstraint maps = .ok unset) (hset : unset.setBoundingBox box = .ok geo)
    (hreturns : NotThrown
      (applyConstraintToData width (fun _ => ()) () (leadingSelected maps) geo)) :
    (∀ (α : Type) (data : List Nat → α) (blank : α),
      ∃ grid, applyConstraintToData width data blank (leadingSelected maps) geo = .ok grid ∧
        KeepsCoordinates maps unset.longitudeRightmost data grid) ↔
      geo.SizeFits width (leadingSelected maps) ∧ (unset.longitudeRightmost = true ∨
        geo.latitudeSense ≠ .inverted ∨ FlipKeeps unset.lat unset.lon geo) := by
  have hbounds := bounds_of_notThrown hset hreturns
  obtain ⟨lat, lon, hmaps, hlat, hlon, hlatEq, hlonEq⟩ := last_maps_of_ok hnew
  have hlea : ∀ selected ∈ leadingSelected maps, selected ≠ [] := by
    intro selected hmem
    obtain ⟨map, -, rfl⟩ := mem_map.mp hmem
    exact map.selected_ne_nil
  have hsize : 0 < volume (leadingSelected maps) := by
    apply prod_pos
    intro length hmem
    obtain ⟨selected, hselect, rfl⟩ := mem_map.mp hmem
    exact length_pos_of_ne_nil (hlea selected hselect)
  have hagreesIff := originAgrees_iff unset.lat unset.lon hbounds.applies
  rw [hbounds.rightmost_eq] at hagreesIff
  rw [← hagreesIff]
  constructor
  · intro hkeeps
    obtain ⟨grid, hok, lat', lon', hmaps', -, -, hkept⟩ := hkeeps (List Nat) id []
    have hfits := sizeFits_of_ok hbounds.applies hok
    obtain ⟨grid', hok', hsen⟩ := applyConstraintToData_spec hbounds.applies id [] hsize hfits
    rw [hok, Except.ok.injEq] at hok'
    rw [← hok'] at hsen
    rw [hmaps] at hmaps'
    obtain ⟨rfl, rfl⟩ := inOrder_inj.mp hmaps'
    rw [hlatEq, hlonEq] at hkept
    exact ⟨hfits, agrees_of_kept hbounds hsen hlea hkept⟩
  · rintro ⟨hfits, hagr⟩ α data blank
    obtain ⟨grid, hok, hsen⟩ := applyConstraintToData_spec hbounds.applies data blank hsize hfits
    have hkept := kept_of_agrees hbounds hsen hagr
    rw [← hlatEq, ← hlonEq] at hkept
    exact ⟨grid, hok, lat, lon, hmaps, hlat, hlon, hkept⟩

/-! A latitude map from south to north, behind the times and before or behind the longitudes. -/

def wholeMap (vector : MapVector) (isLatitude isLongitude : Bool) (last : Nat) : GridMap :=
  ⟨vector, isLatitude, isLongitude, range (last + 1), range_ne_nil.mpr last.succ_ne_zero⟩

def times : GridMap := wholeMap (.of 0 [1]) false false 1
def southToNorth : GridMap := wholeMap (.of 0 [10]) true false 1
def quarterTurns : GridMap := wholeMap (.of 0 [90, 180, 270]) false true 3

def bothLatitudes (rightmost : Bool) (left right : Nat) : GeoConstraint where
  lat := southToNorth.vector
  lon := quarterTurns.vector
  latitudeIndexTop := 1
  latitudeIndexBottom := 0
  longitudeIndexLeft := left
  longitudeIndexRight := right
  boundingBoxSet := true
  longitudeRightmost := rightmost
  longitudeNotation := .pos
  latitudeSense := .inverted

theorem keepsCoordinates_iff_wrapping :
    ∃ grid, applyConstraintToData 8 id [] (leadingSelected [times, southToNorth, quarterTurns])
        (bothLatitudes true 3 0) = .ok grid ∧
      KeepsCoordinates [times, southToNorth, quarterTurns] true id grid := by
  have hnew : gridGeoConstraint [times, southToNorth, quarterTurns] =
      .ok (GeoConstraint.new southToNorth.vector quarterTurns.vector true) := rfl
  have hset : (GeoConstraint.new southToNorth.vector quarterTurns.vector true).setBoundingBox ⟨10, 270, 0, 0⟩ =
      .ok (bothLatitudes true 3 0) := by
    decide +kernel
  have hok : applyConstraintToData 8 (fun _ => ()) () (leadingSelected [times, southToNorth, quarterTurns])
      (bothLatitudes true 3 0) = .ok ⟨[10, 0], [270, 0], 2, 2, replicate 8 ()⟩ := by decide +kernel
  refine (keepsCoordinates_iff 8 [times, southToNorth, quarterTurns] _ _ ⟨10, 270, 0, 0⟩ hnew hset ?_).mpr
    ⟨fun _ => by decide, .inl rfl⟩ (List Nat) id []
  intro failure hfailure
  rw [hok] at hfailure
  cases hfailure

/-- Every element of the source is its own index: longitude first, then latitude. -/
theorem latitude_rightmost_separated : gridGeoConstraint [quarterTurns, southToNorth] =
        .ok (GeoConstraint.new southToNorth.vector quarterTurns.vector false) ∧
      (GeoConstraint.new southToNorth.vector quarterTurns.vector false).setBoundingBox ⟨10, 0, 0, 90⟩ =
        .ok (bothLatitudes false 0 1) ∧
      applyConstraintToData 8 id [] (leadingSelected [quarterTurns, southToNorth]) (bothLatitudes false 0 1) =
        .ok ⟨[10, 0], [0, 90], 2, 2, [[1, 0], [1, 1], [0, 0], [0, 1]]⟩ ∧
      ¬ KeepsCoordinates [quarterTurns, southToNorth] false id
        ⟨[10, 0], [0, 90], 2, 2, [[1, 0], [1, 1], [0, 0], [0, 1]]⟩ := by
  refine ⟨rfl, by decide +kernel, by decide +kernel, ?_⟩
  rintro ⟨lat, lon, hmaps, -, -, hkept⟩
  obtain ⟨rfl, rfl⟩ : southToNorth = lat ∧ quarterTurns = lon :=
    inOrder_inj.mp (show inOrder false southToNorth quarterTurns = _ from hmaps)
  -- The first element should be the one at latitude 10.
  obtain ⟨i, -, j, -, hval, hlat, -⟩ := hkept.kept [] .nil 0 (by decide) 0 (by decide)
  have hidx : [1, 0] = [j, i] := Option.some.inj hval
  cases hidx
  exact absurd hlat (by decide +kernel)

end Bes.Functions.Geo
