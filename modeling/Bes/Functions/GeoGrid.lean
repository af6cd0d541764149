import Bes.Functions.GeoConstraint
import Bes.Lib.Buffer
import Bes.Lib.Slab

/-! `GridGeoConstraint`: how `geogrid` brings a bounding box to the array and the maps of a grid. Positions in a
buffer are counted in elements of the array; the size of a buffer is an `int` of bytes. -/
namespace Bes.Functions.Geo
open Lib Lib.Buffer Lib.Ring Lib.RowMajor List

variable {α β : Type}

/-- A map of a grid. Whether it is the latitude or the longitude is what its units or name say, or which of
the maps the caller names. -/
structure GridMap where
  vector : MapVector
  isLatitude : Bool
  isLongitude : Bool
  selected : List Nat
  selected_ne_nil : selected ≠ []

inductive GridFailure
  | dimensions
  | noLatLonMaps
  | notRightmost
  | boxNotSet
  | latitudesReversed
  | wrapsAround
  | sizeNotCopied
  | outOfBounds
  /-- A negative size, for which `new` and `vector` throw. -/
  | badLength
  /-- A size that is not the one of the data, so that the buffer is left. -/
  | overflow
deriving DecidableEq

def latLonDimensionsOk (dimensions latDim lonDim : Nat) : Option Bool :=
  if lonDim + 1 = dimensions ∧ latDim + 2 = dimensions then some true
  else if latDim + 1 = dimensions ∧ lonDim + 2 = dimensions then some false
  else none

def gridGeoConstraint (maps : List GridMap) : Except GridFailure GeoConstraint :=
  if maps.length < 2 ∨ 3 < maps.length then .error .dimensions
  else
    match maps.zipIdx.find? (fun map => map.1.isLatitude), maps.zipIdx.find? (fun map => map.1.isLongitude) with
    | some (lat, latDim), some (lon, lonDim) =>
        match latLonDimensionsOk maps.length latDim lonDim with
        | some rightmost => .ok (GeoConstraint.new lat.vector lon.vector rightmost)
        | none => .error .notRightmost
    | _, _ => .error .noLatLonMaps

def leadingSelected (maps : List GridMap) : List (List Nat) :=
  (maps.take (maps.length - 2)).map GridMap.selected

def inOrder (rightmost : Bool) (lat lon : β) : List β :=
  if rightmost then [lat, lon] else [lon, lat]

def indexRange (first last : Nat) : List Nat := List.range' first (last + 1 - first)

abbrev volume (dims : List (List Nat)) : Nat := (dims.map List.length).prod

def countDimensionsExceptLongitude (dims : List (List Nat)) : Nat := volume dims.dropLast

def countSizeExceptLatitudeAndLongitude (dims : List (List Nat)) : Nat :=
  if dims.length ≤ 2 then 1 else volume (dims.take (dims.length - 2))

/-- `d_array_data_size`, for elements of `width` bytes. -/
def arrayDataSize (width count : Nat) : Except GridFailure Nat :=
  let size := count * width % 2 ^ 32
  if 2 ^ 31 ≤ size then .error .badLength
  else if size ≠ count * width then .error .overflow
  else .ok size

/-- Row `i` of the left part and behind it row `i` of the right part. -/
def joinRow (leftData rightData : List α) (leftRow rightRow : Nat) (joined : List α) (i : Nat) :
    Option (List α) := do
  let joined ← memcpy joined ((leftRow + rightRow) * i) leftData (leftRow * i) leftRow
  memcpy joined ((leftRow + rightRow) * i + leftRow) rightData (rightRow * i) rightRow

def joinRows (blank : α) (leftData rightData : List α) (leftRow rightRow rows : Nat) : Option (List α) :=
  (range rows).foldlM (joinRow leftData rightData leftRow rightRow)
    (replicate (leftData.length + rightData.length) blank)

/-- `left` to the end and the start to `right`, for an array whose other dimensions are constrained already. -/
def reorderDataLongitudeAxis (width : Nat) (data : List Nat → α) (blank : α) (leading : List (List Nat))
    (rightmost : Bool) (latitudes : List Nat) (lonLength left right : Nat) :
    Except GridFailure (List α) :=
  if rightmost then do
    let leftDims := leading ++ inOrder rightmost latitudes (indexRange left (lonLength - 1))
    let rightDims := leading ++ inOrder rightmost latitudes (indexRange 0 right)
    let _ ← arrayDataSize width ((slab leftDims data).length + (slab rightDims data).length)
    match joinRows blank (slab leftDims data) (slab rightDims data) (lonLength - left) (right + 1)
        (countDimensionsExceptLongitude rightDims) with
    | some joined => .ok joined
    | none => .error .outOfBounds
  else .error .wrapsAround

/-- The loop over the latitudes of block `i`. -/
def flipBlock (arrayData : List α) (latLonSize latLength lonLength : Nat) (tmpData : List α) (i : Nat) :
    Option (List α) :=
  (range latLength).foldlM
    (fun tmpData lat => memcpy tmpData (i * latLonSize + lat * lonLength) arrayData
      (i * latLonSize + (latLength - 1 - lat) * lonLength) lonLength)
    tmpData

def flipLatitudeWithinArray (blank : α) (arrayData : List α) (size latLength lonLength : Nat) :
    Option (List α) :=
  (range size).foldlM (flipBlock arrayData (arrayData.length / size) latLength lonLength)
    (replicate arrayData.length blank)

def reorderLongitudeMap (lon : List ℚ) (left : Nat) : List ℚ := lon.drop left ++ lon.take left

def toNegPos (longitude : ℚ) : ℚ := if 180 < longitude then longitude - 360 else longitude

/-- The elements from `first` on, `length` of them, in reverse. -/
def transposeVector (vector : List ℚ) (first length : Nat) : List ℚ :=
  vector.take first ++ ((vector.drop first).take length).reverse ++ vector.drop (first + length)

structure ConstrainedGrid (α : Type) where
  latMap : List ℚ
  lonMap : List ℚ
  latLength : Nat
  lonLength : Nat
  arrayData : List α
deriving DecidableEq

structure Unwrapped (α : Type) where
  lon : List ℚ
  left : Nat
  right : Nat
  arrayData : Option (List α)

def unwrapLongitudes (width : Nat) (data : List Nat → α) (blank : α) (leading : List (List Nat))
    (geo : GeoConstraint) (latitudes : List Nat) : Except GridFailure (Unwrapped α) :=
  let left := geo.longitudeIndexLeft
  let right := geo.longitudeIndexRight
  if right < left then
    match reorderDataLongitudeAxis width data blank leading geo.longitudeRightmost latitudes
        geo.lon.length left right with
    | .error failure => .error failure
    | .ok joined => .ok
        { lon := reorderLongitudeMap geo.lon.values left
          left := 0
          right := geo.lon.length - left + right
          arrayData := some joined }
  else .ok { lon := geo.lon.values, left := left, right := right, arrayData := none }

def GeoConstraint.top (geo : GeoConstraint) : Nat :=
  if geo.latitudeSense = .inverted then geo.latitudeIndexBottom else geo.latitudeIndexTop

def GeoConstraint.bottom (geo : GeoConstraint) : Nat :=
  if geo.latitudeSense = .inverted then geo.latitudeIndexTop else geo.latitudeIndexBottom

def GeoConstraint.latLength (geo : GeoConstraint) : Nat := geo.bottom - geo.top + 1

/-- The branch for a map that runs from south to north. The array is read here, unless the longitudes have
brought it already. -/
def invertLatitudes (width : Nat) (data : List Nat → α) (blank : α) (dims : List (List Nat))
    (geo : GeoConstraint) (lonLength : Nat) (arrayData : Option (List α)) : Except GridFailure (List ℚ × Option (List α)) :=
  if geo.latitudeSense = .inverted then do
    let _ ← arrayDataSize width (arrayData.getD (slab dims data)).length
    match flipLatitudeWithinArray blank (arrayData.getD (slab dims data))
        (countSizeExceptLatitudeAndLongitude dims) geo.latLength lonLength with
    | none => .error .outOfBounds
    | some flipped =>
        .ok (transposeVector geo.lat.values geo.top geo.latLength, some flipped)
  else .ok (geo.lat.values, arrayData)

/-- The end of `apply_constraint_to_data`: the array is set from the buffer, if there is one. -/
def setArray (data : List Nat → α) (dims : List (List Nat)) : Option (List α) → Except GridFailure (List α)
  | none => .ok (slab dims data)
  | some arrayData => if volume dims = arrayData.length then .ok arrayData
      else .error .sizeNotCopied

def applyConstraintToData (width : Nat) (data : List Nat → α) (blank : α) (leading : List (List Nat))
    (geo : GeoConstraint) : Except GridFailure (ConstrainedGrid α) :=
  if geo.boundingBoxSet = false then .error .boxNotSet
  else if geo.bottom < geo.top then .error .latitudesReversed
  else do
    let latitudes := indexRange geo.top geo.bottom
    let unwrapped ← unwrapLongitudes width data blank leading geo latitudes
    let lon := if geo.longitudeNotation = .negPos then unwrapped.lon.map toNegPos else unwrapped.lon
    let longitudes := indexRange unwrapped.left unwrapped.right
    let lonLength := unwrapped.right - unwrapped.left + 1
    let dims := leading ++ inOrder geo.longitudeRightmost latitudes longitudes
    let (lat, arrayData) ← invertLatitudes width data blank dims geo lonLength unwrapped.arrayData
    let arrayData ← setArray data dims arrayData
    return {
      latMap := (lat.drop geo.top).take geo.latLength
      lonMap := (lon.drop unwrapped.left).take lonLength
      latLength := latitudes.length
      lonLength := longitudes.length
      arrayData := arrayData }

section

variable {arrayData : List α}

def joinedAt (leftData rightData : List α) (leftRow rightRow p : Nat) : Option α :=
  let i := p / (leftRow + rightRow)
  let x := p % (leftRow + rightRow)
  if x < leftRow then leftData[leftRow * i + x]? else rightData[rightRow * i + (x - leftRow)]?

theorem joinedAt_left {i : Nat} (hx : x < leftRow) :
    joinedAt leftData rightData leftRow rightRow ((leftRow + rightRow) * i + x) = leftData[leftRow * i + x]? := by
  have hlt : x < leftRow + rightRow := by omega
  simp only [joinedAt, Nat.mul_add_mod, Nat.mod_eq_of_lt hlt, Nat.mul_add_div (Nat.zero_lt_of_lt hlt),
    Nat.div_eq_of_lt hlt, Nat.add_zero, if_pos hx]

theorem joinedAt_right {i : Nat} (hx : x < rightRow) :
    joinedAt leftData rightData leftRow rightRow ((leftRow + rightRow) * i + (leftRow + x)) =
      rightData[rightRow * i + x]? := by
  have hlt : leftRow + x < leftRow + rightRow := by omega
  have hnot : ¬ leftRow + x < leftRow := by omega
  simp only [joinedAt, Nat.mul_add_mod, Nat.mod_eq_of_lt hlt, Nat.mul_add_div (Nat.zero_lt_of_lt hlt),
    Nat.div_eq_of_lt hlt, Nat.add_zero, if_neg hnot, Nat.add_sub_cancel_left]

theorem mul_add_le_mul_of_lt {i : Nat} (row : Nat) (hi : i < rows) : row * i + row ≤ row * rows := by
  exact Nat.mul_le_mul_left row hi

theorem joinRow_fills {i : Nat} (hi : i < rows)
    (hleft : leftData.length = leftRow * rows) (hright : rightData.length = rightRow * rows)
    (hjoi : joined.length = (leftRow + rightRow) * rows) :
    ∃ after, joinRow leftData rightData leftRow rightRow joined i = some after ∧
      after.length = (leftRow + rightRow) * rows ∧
      Fills (joinedAt leftData rightData leftRow rightRow)
        { p | (leftRow + rightRow) * i ≤ p ∧ p < (leftRow + rightRow) * i + (leftRow + rightRow) } joined after := by
  have hrow := mul_add_le_mul_of_lt (leftRow + rightRow) hi
  have hleftRow := mul_add_le_mul_of_lt leftRow hi
  have hrightRow := mul_add_le_mul_of_lt rightRow hi
  obtain ⟨middle, hfirst, hfillsFirst⟩ := memcpy_fills (joinedAt leftData rightData leftRow rightRow) joined
    leftData ((leftRow + rightRow) * i) (leftRow * i) leftRow (by omega) (by omega)
    (fun x hx => (joinedAt_left hx).symm)
  have hmid := hfillsFirst.length_eq
  obtain ⟨after, hsecond, hfillsSecond⟩ := memcpy_fills (joinedAt leftData rightData leftRow rightRow) middle
    rightData ((leftRow + rightRow) * i + leftRow) (rightRow * i) rightRow (by omega) (by omega)
    (fun x hx => by rw [Nat.add_assoc, joinedAt_right hx])
  refine ⟨after, ?_, by rw [hfillsSecond.length_eq, hmid, hjoi], ?_⟩
  · rw [joinRow, hfirst]
    exact hsecond
  · apply (hfillsFirst.trans hfillsSecond).congr
    ext p
    simp only [Set.mem_union, Set.mem_ofPred_eq]
    omega

theorem joinRows_spec (blank : α) (leftRow rightRow rows : Nat) (hleft : leftData.length = leftRow * rows)
    (hright : rightData.length = rightRow * rows) :
    ∃ joined, joinRows blank leftData rightData leftRow rightRow rows = some joined ∧
      joined.length = (leftRow + rightRow) * rows ∧ ∀ i < rows,
        (∀ x < leftRow, joined[(leftRow + rightRow) * i + x]? = leftData[leftRow * i + x]?) ∧
        ∀ x < rightRow, joined[(leftRow + rightRow) * i + (leftRow + x)]? = rightData[rightRow * i + x]? := by
  have hbla : (replicate (leftData.length + rightData.length) blank).length =
      (leftRow + rightRow) * rows := by
    rw [length_replicate, hleft, hright, Nat.add_mul]
  obtain ⟨joined, hrun, hlen, hfil⟩ := foldlM_fills (joinedAt leftData rightData leftRow rightRow) id
    (fun joined => joined.length = (leftRow + rightRow) * rows) (joinRow leftData rightData leftRow rightRow) _
    (range rows) (fun i hi joined hjoi => joinRow_fills (mem_range.mp hi) hleft hright hjoi)
    _ hbla
  refine ⟨joined, hrun, hlen, ?_⟩
  intro i hi
  have hins : ∀ x < leftRow + rightRow, joined[(leftRow + rightRow) * i + x]? =
      joinedAt leftData rightData leftRow rightRow ((leftRow + rightRow) * i + x) := by
    intro x hx
    apply hfil.inside
    simp only [Set.mem_iUnion, mem_range]
    exact ⟨i, hi, by omega, by omega⟩
  constructor
  · intro x hx
    rw [hins x (by omega), joinedAt_left hx]
  · intro x hx
    rw [hins (leftRow + x) (by omega), joinedAt_right hx]

def flippedAt (arrayData : List α) (size latLength lonLength p : Nat) : Option α :=
  match unflatten [size, latLength, lonLength] p with
  | [i, lat, x] => arrayData[rowMajor [size, latLength, lonLength] [i, latLength - 1 - lat, x]]?
  | _ => none

theorem flippedAt_rowMajor {i : Nat} (hi : i < size) (hlat : lat < latLength) (hx : x < lonLength) :
    flippedAt arrayData size latLength lonLength (rowMajor [size, latLength, lonLength] [i, lat, x]) =
      arrayData[rowMajor [size, latLength, lonLength] [i, latLength - 1 - lat, x]]? := by
  have hbounds : InBounds [size, latLength, lonLength] [i, lat, x] := .cons hi (.cons hlat (.cons hx .nil))
  rw [flippedAt, unflatten_rowMajor hbounds]

theorem rowMajor_three (size latLength lonLength i lat x : Nat) :
    rowMajor [size, latLength, lonLength] [i, lat, x] = i * (latLength * lonLength) + lat * lonLength + x := by
  simp [Nat.add_assoc]

theorem flipBlock_fills {i : Nat} (hi : i < size)
    (harr : arrayData.length = size * (latLength * lonLength)) (htmp : tmpData.length = arrayData.length) :
    ∃ after, flipBlock arrayData (latLength * lonLength) latLength lonLength tmpData i = some after ∧
      after.length = arrayData.length ∧ Fills (flippedAt arrayData size latLength lonLength)
        (⋃ lat ∈ range latLength, { p | i * (latLength * lonLength) + lat * lonLength ≤ p ∧
          p < i * (latLength * lonLength) + lat * lonLength + lonLength }) tmpData after := by
  have hend : ∀ lat < latLength, i * (latLength * lonLength) + lat * lonLength + lonLength ≤
      arrayData.length := by
    intro lat hlat
    have hin := mul_add_le_mul_of_lt lonLength hlat
    have hout := mul_add_le_mul_of_lt (latLength * lonLength) hi
    rw [Nat.mul_comm lonLength, Nat.mul_comm lonLength] at hin
    rw [Nat.mul_comm _ i, Nat.mul_comm _ size] at hout
    omega
  apply foldlM_fills (flippedAt arrayData size latLength lonLength) id
    (fun tmpData => tmpData.length = arrayData.length)
  · intro lat hlat tmpData htmp
    rw [mem_range] at hlat
    obtain ⟨after, hcopy, hfil⟩ := memcpy_fills (flippedAt arrayData size latLength lonLength) tmpData
      arrayData (i * (latLength * lonLength) + lat * lonLength)
      (i * (latLength * lonLength) + (latLength - 1 - lat) * lonLength) lonLength
      (htmp ▸ hend lat hlat) (hend _ (by omega))
      (fun x hx => by rw [← rowMajor_three size, ← rowMajor_three size, flippedAt_rowMajor hi hlat hx])
    exact ⟨after, hcopy, hfil.length_eq.trans htmp, hfil⟩
  · exact htmp

theorem flipLatitudeWithinArray_spec (blank : α) (hsiz : 0 < size)
    (harr : arrayData.length = size * (latLength * lonLength)) :
    ∃ flipped, flipLatitudeWithinArray blank arrayData size latLength lonLength = some flipped ∧
      flipped.length = arrayData.length ∧ ∀ i < size, ∀ lat < latLength, ∀ x < lonLength,
        flipped[rowMajor [size, latLength, lonLength] [i, lat, x]]? =
          arrayData[rowMajor [size, latLength, lonLength] [i, latLength - 1 - lat, x]]? := by
  have hblock : arrayData.length / size = latLength * lonLength := by
    rw [harr, Nat.mul_div_cancel_left _ hsiz]
  have hbla : (replicate arrayData.length blank).length = arrayData.length := length_replicate
  obtain ⟨flipped, hrun, hlen, hfil⟩ := foldlM_fills (flippedAt arrayData size latLength lonLength) id
    (fun tmpData => tmpData.length = arrayData.length)
    (flipBlock arrayData (latLength * lonLength) latLength lonLength) _ (range size)
    (fun i hi tmpData htmp => flipBlock_fills (mem_range.mp hi) harr htmp) _ hbla
  refine ⟨flipped, ?_, hlen, ?_⟩
  · rw [flipLatitudeWithinArray, hblock, hrun]
  · intro i hi lat hlat x hx
    rw [← flippedAt_rowMajor hi hlat hx]
    apply hfil.inside
    rw [rowMajor_three]
    simp only [Set.mem_iUnion, mem_range]
    exact ⟨i, hi, lat, hlat, by omega, by omega⟩

end

section

variable {data : List Nat → α}
variable {latLength lonLength : Nat}

theorem map_inOrder (f : β → γ) (lat lon : β) :
    (inOrder rightmost lat lon).map f = inOrder rightmost (f lat) (f lon) := by
  cases rightmost <;> rfl

theorem inOrder_inj :
    inOrder rightmost lat lon = inOrder rightmost lat' lon' ↔ lat = lat' ∧ lon = lon' := by
  cases rightmost <;> simp [inOrder, and_comm]

theorem length_indexRange (first last : Nat) : (indexRange first last).length = last + 1 - first :=
  length_range'

theorem getD_indexRange {i : Nat} (hi : first + i ≤ last) : (indexRange first last).getD i 0 = first + i := by
  have hlt : i < last + 1 - first := by omega
  simp [indexRange, hlt]

/-- The position of the element at `k` in the leading dimensions and at the given latitude and longitude. -/
def gridPosition (leading : List (List Nat)) (rightmost : Bool) (latLength lonLength : Nat)
    (k : List Nat) (y x : Nat) : Nat :=
  rowMajor (leading.map List.length ++ inOrder rightmost latLength lonLength)
    (k ++ inOrder rightmost y x)

theorem gridPosition_rightmost {k : List Nat} (hk : InBounds (leading.map length) k) (y x : Nat) :
    gridPosition leading true latLength lonLength k y x =
      rowMajor (leading.map length) k * (latLength * lonLength) + (y * lonLength + x) := by
  simp [gridPosition, rowMajor_append hk.length_eq.symm, inOrder]

theorem gridPosition_leftmost {k : List Nat} (hk : InBounds (leading.map length) k) (y x : Nat) :
    gridPosition leading false latLength lonLength k y x =
      rowMajor (leading.map length) k * (lonLength * latLength) + (x * latLength + y) := by
  simp [gridPosition, rowMajor_append hk.length_eq.symm, inOrder]

/-- Each element is the one of the source that `origin` names. -/
structure Holds (data : List Nat → α) (leading : List (List Nat)) (rightmost : Bool)
    (latLength lonLength : Nat) (origin : Nat → Nat → Nat × Nat) (values : List α) : Prop where
  length_eq : values.length = volume leading * (latLength * lonLength)
  cell : ∀ k, InBounds (leading.map List.length) k → ∀ y < latLength, ∀ x < lonLength,
    values[gridPosition leading rightmost latLength lonLength k y x]? =
      some (data (pick leading k ++ inOrder rightmost (origin y x).1 (origin y x).2))

theorem Holds.congr {origin other : Nat → Nat → Nat × Nat} {values : List α}
    (hholds : Holds data leading rightmost latLength lonLength origin values)
    (heq : ∀ y < latLength, ∀ x < lonLength, origin y x = other y x) :
    Holds data leading rightmost latLength lonLength other values where
  length_eq := hholds.length_eq
  cell := by
    intro k hk y hy x hx
    rw [hholds.cell k hk y hy x hx, heq y hy x hx]

theorem holds_slab (data : List Nat → α) (leading : List (List Nat)) (rightmost : Bool)
    (latitudes longitudes : List Nat) :
    Holds data leading rightmost latitudes.length longitudes.length
      (fun y x => (latitudes.getD y 0, longitudes.getD x 0))
      (slab (leading ++ inOrder rightmost latitudes longitudes) data) where
  length_eq := by
    rw [length_slab, map_append, prod_append, map_inOrder]
    cases rightmost <;> simp [inOrder, Nat.mul_comm]
  cell := by
    intro k hk y hy x hx
    have hbounds : InBounds ((leading ++ inOrder rightmost latitudes longitudes).map length)
        (k ++ inOrder rightmost y x) := by
      rw [map_append, map_inOrder]
      apply rel_append hk
      cases rightmost with
      | true => exact .cons hy (.cons hx .nil)
      | false => exact .cons hx (.cons hy .nil)
    have hlen : leading.length = k.length := by simpa using hk.length_eq
    have hcell := getElem?_slab hbounds data
    rw [pick_append hlen, map_append, map_inOrder] at hcell
    rw [gridPosition, hcell]
    cases rightmost <;> rfl

theorem arrayDataSize_ok {count : Nat} (hfits : count * width < 2 ^ 31) :
    arrayDataSize width count = .ok (count * width) := by
  have hmod : count * width % 2 ^ 32 = count * width := Nat.mod_eq_of_lt (by omega)
  unfold arrayDataSize
  dsimp only
  rw [hmod, if_neg (by omega), if_neg (not_not.mpr rfl)]

theorem arrayDataSize_error {count : Nat} (hwide : ¬ count * width < 2 ^ 31) :
    ∃ failure, arrayDataSize width count = .error failure := by
  unfold arrayDataSize
  dsimp only
  split
  · exact ⟨_, rfl⟩
  · exact ⟨_, if_pos (by omega)⟩

theorem length_left_add_right (data : List Nat → α) (leading : List (List Nat)) (latitudes : List Nat)
    (right : Nat) (hleft : left < n) :
    (slab (leading ++ inOrder true latitudes (indexRange left (n - 1))) data).length +
      (slab (leading ++ inOrder true latitudes (indexRange 0 right)) data).length =
      volume leading * (latitudes.length * (n - left + (right + 1))) := by
  have hlast : n - 1 + 1 - left = n - left := by omega
  rw [(holds_slab data leading true _ _).length_eq, (holds_slab data leading true _ _).length_eq,
    length_indexRange, length_indexRange, hlast, Nat.sub_zero]
  ring

theorem reorderDataLongitudeAxis_holds (data : List Nat → α) (blank : α) (leading : List (List Nat))
    (latitudes : List Nat) (hleft : left < n) (hwra : right < left)
    (hfits : volume leading * (latitudes.length * (n - left + (right + 1))) * width < 2 ^ 31) :
    ∃ joined, reorderDataLongitudeAxis width data blank leading true latitudes n left right = .ok joined ∧
      Holds data leading true latitudes.length (n - left + (right + 1))
        (fun y x => (latitudes.getD y 0, place n left x)) joined := by
  have hleftHolds := holds_slab data leading true latitudes (indexRange left (n - 1))
  have hrightHolds := holds_slab data leading true latitudes (indexRange 0 right)
  have hleftLength : (indexRange left (n - 1)).length = n - left := by
    rw [length_indexRange]
    omega
  have hrightLength : (indexRange 0 right).length = right + 1 := length_indexRange 0 right
  rw [hleftLength] at hleftHolds
  rw [hrightLength] at hrightHolds
  have hrws : countDimensionsExceptLongitude (leading ++ inOrder true latitudes (indexRange 0 right)) =
      volume leading * latitudes.length := by
    have hdims : leading ++ inOrder true latitudes (indexRange 0 right) =
        (leading ++ [latitudes]) ++ [indexRange 0 right] := by simp [inOrder]
    rw [countDimensionsExceptLongitude, hdims, dropLast_concat]
    simp [volume]
  obtain ⟨joined, hjon, hlen, hpar⟩ := joinRows_spec blank (n - left) (right + 1)
    (volume leading * latitudes.length) (by rw [hleftHolds.length_eq]; ring)
    (by rw [hrightHolds.length_eq]; ring)
  refine ⟨joined, ?_, by rw [hlen]; ring, ?_⟩
  · rw [reorderDataLongitudeAxis, if_pos rfl]
    dsimp only
    rw [length_left_add_right data leading latitudes right hleft, arrayDataSize_ok hfits]
    dsimp only [bind, Except.bind]
    rw [hrws, hjon]
  · intro k hk y hy x hx
    -- The row of the element, the same in both parts and in the joined array.
    have hrow : rowMajor (leading.map length) k * latitudes.length + y <
        volume leading * latitudes.length := rowMajor_byte_lt hk hy
    have hpos : ∀ length x, gridPosition leading true latitudes.length length k y x =
        length * (rowMajor (leading.map List.length) k * latitudes.length + y) + x := by
      intro length x
      rw [gridPosition_rightmost hk]
      ring
    obtain ⟨hleftPart, hrightPart⟩ := hpar _ hrow
    by_cases hpart : x < n - left
    · have hcell := hleftHolds.cell k hk y hy x hpart
      rw [hpos] at hcell ⊢
      rw [hleftPart x hpart, hcell]
      rw [getD_indexRange (by omega), place_of_lt (by omega)]
    · obtain ⟨d, rfl⟩ : ∃ d, x = n - left + d := ⟨x - (n - left), by omega⟩
      have hd : d < right + 1 := by omega
      have hcell := hrightHolds.cell k hk y hy d hd
      have hplace : place n left (n - left + d) = 0 + d := by
        rw [place_of_le (by omega) hleft (by omega)]
        omega
      rw [hpos] at hcell ⊢
      rw [hrightPart d hd, hcell]
      rw [getD_indexRange (by omega), hplace]

/-- The position that `flip_latitude_within_array` copies to position `p` of a block. -/
def flippedFrom (latLength lonLength p : Nat) : Nat :=
  (latLength - 1 - p / lonLength) * lonLength + p % lonLength

theorem Holds.flip_rightmost (blank : α)
    (hholds : Holds data leading true latLength lonLength origin values)
    (hsiz : 0 < volume leading) :
    ∃ flipped, flipLatitudeWithinArray blank values (volume leading) latLength lonLength =
        some flipped ∧
      Holds data leading true latLength lonLength (fun y x => origin (latLength - 1 - y) x) flipped := by
  obtain ⟨flipped, hflp, hlen, hcel⟩ := flipLatitudeWithinArray_spec blank hsiz hholds.length_eq
  refine ⟨flipped, hflp, hlen.trans hholds.length_eq, ?_⟩
  intro k hk y hy x hx
  have hcell := hcel _ (rowMajor_lt hk) y hy x hx
  rw [rowMajor_three, rowMajor_three, Nat.add_assoc, Nat.add_assoc, ← gridPosition_rightmost hk,
    ← gridPosition_rightmost hk] at hcell
  rw [hcell]
  exact hholds.cell k hk _ (by omega) x hx

theorem flippedFrom_lt {p : Nat} (hp : p < lonLength * latLength) :
    flippedFrom latLength lonLength p < lonLength * latLength := by
  have hlon : 0 < lonLength := Nat.pos_of_ne_zero (by
    rintro rfl
    simp at hp)
  have hlat : latLength - 1 - p / lonLength < latLength :=
    (Nat.sub_le _ _).trans_lt (Nat.sub_one_lt_of_lt (Nat.div_lt_of_lt_mul hp))
  have hrow := mul_add_le_mul_of_lt lonLength hlat
  have hcol := Nat.mod_lt p hlon
  rw [flippedFrom, Nat.mul_comm _ lonLength]
  omega

theorem position_lt (hy : y < latLength) (hx : x < lonLength) :
    x * latLength + y < lonLength * latLength := by
  have hrow := mul_add_le_mul_of_lt latLength hx
  rw [Nat.mul_comm latLength, Nat.mul_comm latLength] at hrow
  omega

theorem flippedFrom_div_lt (hy : y < latLength) (hx : x < lonLength) :
    flippedFrom latLength lonLength (x * latLength + y) / latLength < lonLength := by
  have hlt := flippedFrom_lt (position_lt hy hx)
  rw [Nat.mul_comm lonLength] at hlt
  exact Nat.div_lt_of_lt_mul hlt

theorem Holds.flip_leftmost (blank : α)
    (hholds : Holds data leading false latLength lonLength origin values)
    (hsiz : 0 < volume leading) :
    ∃ flipped, flipLatitudeWithinArray blank values (volume leading) latLength lonLength =
        some flipped ∧ Holds data leading false latLength lonLength
        (fun y x => origin (flippedFrom latLength lonLength (x * latLength + y) % latLength)
          (flippedFrom latLength lonLength (x * latLength + y) / latLength)) flipped := by
  obtain ⟨flipped, hflp, hlen, hcel⟩ := flipLatitudeWithinArray_spec blank hsiz hholds.length_eq
  refine ⟨flipped, hflp, hlen.trans hholds.length_eq, ?_⟩
  intro k hk y hy x hx
  have hlon : 0 < lonLength := by omega
  have hlat : 0 < latLength := by omega
  have hp := position_lt hy hx
  have hrow : (x * latLength + y) / lonLength < latLength := Nat.div_lt_of_lt_mul hp
  have hcell := hcel _ (rowMajor_lt hk) _ hrow _ (Nat.mod_lt (x * latLength + y) hlon)
  rw [rowMajor_three, rowMajor_three, Nat.add_assoc, Nat.add_assoc, Nat.mul_comm (_ / lonLength), Nat.div_add_mod,
    Nat.mul_comm latLength lonLength, ← gridPosition_leftmost hk] at hcell
  rw [hcell]
  have hfrm := hholds.cell k hk _ (Nat.mod_lt (flippedFrom latLength lonLength (x * latLength + y)) hlat) _
    (flippedFrom_div_lt hy hx)
  rw [gridPosition_leftmost hk, Nat.mul_comm (_ / latLength), Nat.div_add_mod] at hfrm
  exact hfrm

end

namespace GeoConstraint

variable (geo : GeoConstraint)

abbrev Wraps : Prop := geo.longitudeIndexRight < geo.longitudeIndexLeft

def lonLength : Nat :=
  if geo.Wraps then geo.lon.length - geo.longitudeIndexLeft + (geo.longitudeIndexRight + 1)
  else geo.longitudeIndexRight - geo.longitudeIndexLeft + 1

/-- The latitude that is sent at `y`, as an index of the source. -/
def sentLatitude (y : Nat) : Nat :=
  if geo.latitudeSense = .inverted then geo.bottom - y else geo.top + y

def sentLongitude (x : Nat) : Nat := place geo.lon.length geo.longitudeIndexLeft x

def written (longitude : ℚ) : ℚ :=
  if geo.longitudeNotation = .negPos then toNegPos longitude else longitude

/-- The latitude and longitude from which the element at `y` and `x` is taken. The flip copies runs of as many
elements as there are longitudes, also where it is the latitudes that lie side by side. -/
def origin (y x : Nat) : Nat × Nat :=
  if geo.latitudeSense = .inverted ∧ geo.longitudeRightmost = false then
    let p := flippedFrom geo.latLength geo.lonLength (x * geo.latLength + y)
    (geo.top + p % geo.latLength, geo.sentLongitude (p / geo.latLength))
  else (geo.sentLatitude y, geo.sentLongitude x)

/-- A box has been set, and `apply_constraint_to_data` does not throw. -/
structure Applies : Prop where
  set : geo.boundingBoxSet = true
  bottom_lt : geo.bottom < geo.lat.length
  left_lt : geo.longitudeIndexLeft < geo.lon.length
  right_lt : geo.longitudeIndexRight < geo.lon.length
  order : geo.top ≤ geo.bottom
  wraps : geo.Wraps → geo.longitudeRightmost = true

/-- The bytes of the selection. -/
def bytes (width : Nat) (leading : List (List Nat)) : Nat :=
  volume leading * (geo.latLength * geo.lonLength) * width

/-- The values go through the buffer only if the longitudes wrap or the latitudes are turned round. -/
def SizeFits (width : Nat) (leading : List (List Nat)) : Prop :=
  geo.Wraps ∨ geo.latitudeSense = .inverted → geo.bytes width leading < 2 ^ 31

/-- The array that is sent, with the elements that `origin` names. -/
abbrev Holds (data : List Nat → α) (leading : List (List Nat)) (origin : Nat → Nat → Nat × Nat)
    (values : List α) : Prop :=
  Geo.Holds data leading geo.longitudeRightmost geo.latLength geo.lonLength origin values

end GeoConstraint

theorem MapVector.getElem?_values {map : MapVector} {i : Nat} (hi : i < map.length) :
    map.values[i]? = some (map.value i) := by
  unfold MapVector.length at hi
  simp [MapVector.value, hi]

theorem take_drop_eq_map {l : List ℚ} {count : Nat} {f : Nat → ℚ}
    (h : ∀ i < count, l[first + i]? = some (f i)) : (l.drop first).take count = (range count).map f := by
  apply ext_getElem?
  intro i
  by_cases hi : i < count
  · rw [getElem?_take_of_lt hi, getElem?_drop, h i hi, getElem?_map, getElem?_range hi]
    rfl
  · rw [getElem?_eq_none (by rw [length_take]; omega), getElem?_eq_none (by simpa using hi)]

section

variable {data : List Nat → α} {geo : GeoConstraint} (happ : geo.Applies)

theorem getElem?_reorderLongitudeMap {lon : MapVector} (hleft : left < lon.length)
    (hx : x < lon.length) : (reorderLongitudeMap lon.values left)[x]? = some (lon.value (place lon.length left x)) := by
  have hplace : place lon.length left x < lon.length := place_lt (by omega)
  have hlen : (lon.values.drop left).length = lon.length - left := length_drop
  rw [reorderLongitudeMap, ← MapVector.getElem?_values hplace]
  by_cases hpart : left + x < lon.length
  · rw [getElem?_append_left (by omega), getElem?_drop, place_of_lt hpart]
  · rw [getElem?_append_right (by omega), hlen, getElem?_take_of_lt (by omega),
      place_of_le (by omega) hleft hx]
    congr 1
    omega

theorem getElem?_transposeVector {length : Nat} (hend : first + length ≤ vector.length)
    (hy : y < length) : (transposeVector vector first length)[first + y]? = vector[first + (length - 1 - y)]? := by
  have hfront : (vector.take first).length = first := by
    rw [length_take]
    omega
  have hpart : ((vector.drop first).take length).length = length := by
    rw [length_take, length_drop]
    omega
  rw [transposeVector, append_assoc, getElem?_append_right (by omega), hfront, Nat.add_sub_cancel_left,
    getElem?_append_left (by rw [length_reverse, hpart]; exact hy),
    getElem?_reverse (by rw [hpart]; exact hy), hpart, getElem?_take_of_lt (by omega), getElem?_drop]

include happ

theorem length_latitudes : (indexRange geo.top geo.bottom).length = geo.latLength := by
  have horder := happ.order
  rw [length_indexRange, GeoConstraint.latLength]
  omega

theorem unwrapLongitudes_spec (data : List Nat → α) (blank : α) (leading : List (List Nat))
    (hfits : geo.Wraps → geo.bytes width leading < 2 ^ 31) :
    ∃ unwrapped, unwrapLongitudes width data blank leading geo (indexRange geo.top geo.bottom) = .ok unwrapped ∧
      unwrapped.right - unwrapped.left + 1 = geo.lonLength ∧
      (indexRange unwrapped.left unwrapped.right).length = geo.lonLength ∧
      (∀ x < geo.lonLength, unwrapped.lon[unwrapped.left + x]? =
        some (geo.lon.value (geo.sentLongitude x))) ∧
      geo.Holds data leading (fun y x => (geo.top + y, geo.sentLongitude x))
        (unwrapped.arrayData.getD (slab (leading ++ inOrder geo.longitudeRightmost
          (indexRange geo.top geo.bottom) (indexRange unwrapped.left unwrapped.right)) data)) := by
  have hleft := happ.left_lt
  have hright := happ.right_lt
  have hlai := length_latitudes happ
  have hltt : ∀ y < geo.latLength, (indexRange geo.top geo.bottom).getD y 0 = geo.top + y := by
    intro y hy
    rw [← hlai, length_indexRange] at hy
    exact getD_indexRange (by omega)
  unfold GeoConstraint.bytes GeoConstraint.lonLength at hfits
  unfold unwrapLongitudes GeoConstraint.Holds GeoConstraint.lonLength GeoConstraint.sentLongitude
  by_cases hcase : geo.Wraps
  · have hsize := hfits hcase
    rw [if_pos hcase, ← hlai] at hsize
    obtain ⟨joined, hjoi, hholds⟩ := reorderDataLongitudeAxis_holds data blank leading
      (indexRange geo.top geo.bottom) hleft hcase hsize
    rw [hlai] at hholds
    simp only [if_pos hcase, happ.wraps hcase, hjoi, length_indexRange]
    refine ⟨_, rfl, by dsimp only; omega, by dsimp only; omega, ?_, hholds.congr ?_⟩
    · intro x hx
      rw [Nat.zero_add]
      exact getElem?_reorderLongitudeMap hleft (by omega)
    · intro y hy x _
      rw [hltt y hy]
  · have hholds := holds_slab data leading geo.longitudeRightmost (indexRange geo.top geo.bottom)
      (indexRange geo.longitudeIndexLeft geo.longitudeIndexRight)
    have hlen : geo.longitudeIndexRight + 1 - geo.longitudeIndexLeft =
        geo.longitudeIndexRight - geo.longitudeIndexLeft + 1 := by omega
    rw [hlai, length_indexRange, hlen] at hholds
    simp only [if_neg hcase, length_indexRange]
    refine ⟨_, rfl, rfl, hlen, ?_, hholds.congr ?_⟩
    · intro x hx
      dsimp only
      rw [place_of_lt (by omega)]
      exact MapVector.getElem?_values (by omega)
    · intro y hy x hx
      rw [hltt y hy, getD_indexRange (by omega), place_of_lt (by omega)]

theorem unwrapLongitudes_error (data : List Nat → α) (blank : α) (leading : List (List Nat))
    (hwraps : geo.Wraps) (hwide : ¬ geo.bytes width leading < 2 ^ 31) :
    ∃ failure, unwrapLongitudes width data blank leading geo (indexRange geo.top geo.bottom) =
      .error failure := by
  have hlengths := length_left_add_right data leading
    (indexRange geo.top geo.bottom) geo.longitudeIndexRight happ.left_lt
  rw [GeoConstraint.bytes, GeoConstraint.lonLength, if_pos hwraps, ← length_latitudes happ,
    ← hlengths] at hwide
  obtain ⟨failure, herror⟩ := arrayDataSize_error hwide
  refine ⟨failure, ?_⟩
  rw [unwrapLongitudes, if_pos hwraps, happ.wraps hwraps, reorderDataLongitudeAxis, if_pos rfl]
  dsimp only
  rw [herror]
  rfl

theorem invertLatitudes_spec (blank : α)
    (hfits : geo.latitudeSense = .inverted → geo.bytes width leading < 2 ^ 31)
    (hsiz : 0 < volume leading) (hcnt : countSizeExceptLatitudeAndLongitude dims = volume leading)
    (hholds : geo.Holds data leading (fun y x => (geo.top + y, geo.sentLongitude x))
      (arrayData.getD (slab dims data))) :
    ∃ lat inverted, invertLatitudes width data blank dims geo geo.lonLength arrayData =
        .ok (lat, inverted) ∧
      (∀ y < geo.latLength, lat[geo.top + y]? = some (geo.lat.value (geo.sentLatitude y))) ∧
      geo.Holds data leading geo.origin (inverted.getD (slab dims data)) := by
  have hbot := happ.bottom_lt
  have horder := happ.order
  have hlatLength : geo.latLength = geo.bottom - geo.top + 1 := rfl
  unfold invertLatitudes GeoConstraint.sentLatitude
  by_cases hsen : geo.latitudeSense = .inverted
  · have hidx : ∀ y < geo.latLength, geo.top + (geo.latLength - 1 - y) = geo.bottom - y := by omega
    have hend : geo.top + geo.latLength ≤ geo.lat.values.length := by
      unfold MapVector.length at hbot
      omega
    have hlat : ∀ y < geo.latLength, (transposeVector geo.lat.values geo.top geo.latLength)[geo.top + y]? =
        some (geo.lat.value (geo.bottom - y)) := by
      intro y hy
      rw [getElem?_transposeVector hend hy, hidx y hy, MapVector.getElem?_values (by omega)]
    obtain ⟨flipped, hflp, hfli⟩ : ∃ flipped, flipLatitudeWithinArray blank
        (arrayData.getD (slab dims data)) (volume leading) geo.latLength geo.lonLength = some flipped ∧
        geo.Holds data leading geo.origin flipped := by
      unfold GeoConstraint.Holds at hholds ⊢
      cases hrgh : geo.longitudeRightmost with
      | true =>
        rw [hrgh] at hholds
        obtain ⟨flipped, hflp, hfli⟩ := hholds.flip_rightmost blank hsiz
        refine ⟨flipped, hflp, hfli.congr ?_⟩
        intro y hy x hx
        simp [GeoConstraint.origin, GeoConstraint.sentLatitude, hsen, hrgh, hidx y hy]
      | false =>
        rw [hrgh] at hholds
        obtain ⟨flipped, hflp, hfli⟩ := hholds.flip_leftmost blank hsiz
        refine ⟨flipped, hflp, hfli.congr ?_⟩
        simp [GeoConstraint.origin, hsen, hrgh]
    have hsize : (arrayData.getD (slab dims data)).length * width < 2 ^ 31 := by
      rw [hholds.length_eq]
      exact hfits hsen
    simp only [if_pos hsen, hcnt, hflp, arrayDataSize_ok hsize]
    exact ⟨_, _, rfl, hlat, hfli⟩
  · simp only [if_neg hsen]
    refine ⟨_, _, rfl, ?_, hholds.congr ?_⟩
    · intro y hy
      exact MapVector.getElem?_values (by omega)
    · simp [GeoConstraint.origin, GeoConstraint.sentLatitude, hsen]

omit happ

theorem setArray_spec (hlen : (arrayData.getD (slab dims data)).length = volume dims) :
    setArray data dims arrayData = .ok (arrayData.getD (slab dims data)) := by
  cases arrayData with
  | none => rfl
  | some arrayData => exact if_pos hlen.symm

structure Sends (data : List Nat → α) (leading : List (List Nat)) (geo : GeoConstraint)
    (grid : ConstrainedGrid α) : Prop where
  latLength_eq : grid.latLength = geo.latLength
  lonLength_eq : grid.lonLength = geo.lonLength
  latMap_eq : grid.latMap = (range geo.latLength).map fun y => geo.lat.value (geo.sentLatitude y)
  lonMap_eq : grid.lonMap = (range geo.lonLength).map
    fun x => geo.written (geo.lon.value (geo.sentLongitude x))
  holds : geo.Holds data leading geo.origin grid.arrayData

theorem countSize_leading (leading : List (List Nat)) (rightmost : Bool) (latitudes longitudes : List Nat) :
    countSizeExceptLatitudeAndLongitude (leading ++ inOrder rightmost latitudes longitudes) =
      volume leading := by
  have hlen : (leading ++ inOrder rightmost latitudes longitudes).length = leading.length + 2 := by
    cases rightmost <;> simp [inOrder]
  rw [countSizeExceptLatitudeAndLongitude, hlen, Nat.add_sub_cancel, take_left]
  split
  · have hnil : leading = [] := eq_nil_of_length_eq_zero (by omega)
    rw [hnil]
    rfl
  · rfl

include happ

theorem applyConstraintToData_spec (data : List Nat → α) (blank : α) (hsiz : 0 < volume leading)
    (hfits : geo.SizeFits width leading) :
    ∃ grid, applyConstraintToData width data blank leading geo = .ok grid ∧ Sends data leading geo grid := by
  have horder := happ.order
  have hlai := length_latitudes happ
  obtain ⟨unwrapped, hunw, hlonLength, hlng, hlon, hholds⟩ :=
    unwrapLongitudes_spec happ data blank leading fun hwraps => hfits (.inl hwraps)
  have hcnt := countSize_leading leading geo.longitudeRightmost
    (indexRange geo.top geo.bottom) (indexRange unwrapped.left unwrapped.right)
  obtain ⟨lat, arrayData, hinv, hlat, hsnt⟩ := invertLatitudes_spec happ blank
    (fun hinverted => hfits (.inr hinverted)) hsiz hcnt hholds
  have hdims : volume (leading ++ inOrder geo.longitudeRightmost (indexRange geo.top geo.bottom)
      (indexRange unwrapped.left unwrapped.right)) = volume leading * (geo.latLength * geo.lonLength) := by
    rw [volume, ← length_slab _ data, (holds_slab data leading _ _ _).length_eq, hlai, hlng]
  have harr := setArray_spec (hsnt.length_eq.trans hdims.symm)
  rw [applyConstraintToData, if_neg (by rw [happ.set]; decide), if_neg (by omega)]
  dsimp only
  rw [hunw]
  simp only [bind, Except.bind, hlonLength]
  rw [hinv]
  dsimp only
  rw [harr]
  refine ⟨_, rfl, hlai, hlng, take_drop_eq_map hlat, take_drop_eq_map ?_, hsnt⟩
  intro x hx
  unfold GeoConstraint.written
  split
  · rw [getElem?_map, hlon x hx]
    rfl
  · exact hlon x hx

theorem sizeFits_of_ok {data : List Nat → α}
    (hok : applyConstraintToData width data blank leading geo = .ok grid) :
    geo.SizeFits width leading := by
  intro hbuffer
  by_contra hwide
  have horder := happ.order
  rw [applyConstraintToData, if_neg (by rw [happ.set]; decide), if_neg (by omega)] at hok
  dsimp only at hok
  by_cases hwraps : geo.Wraps
  · obtain ⟨failure, herror⟩ := unwrapLongitudes_error happ data blank leading hwraps hwide
    rw [herror] at hok
    cases hok
  · obtain ⟨unwrapped, hunw, hlonLength, -, -, hholds⟩ :=
      unwrapLongitudes_spec happ data blank leading fun h => absurd h hwraps
    rw [GeoConstraint.bytes, ← hholds.length_eq] at hwide
    obtain ⟨failure, herror⟩ := arrayDataSize_error hwide
    rw [hunw] at hok
    simp only [bind, Except.bind, hlonLength] at hok
    rw [invertLatitudes, if_pos (hbuffer.resolve_left hwraps), herror] at hok
    cases hok

end

end Bes.Functions.Geo
