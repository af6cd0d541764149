import Bes.Functions.GeoConstraint

/-! Which points of a grid `set_bounding_box` selects. The box is an arc of longitudes, and the indices of its
ends are searched for around the ring of the map. -/
namespace Bes.Functions.Geo
open Lib.Ring

def InPos (x : ℚ) : Prop := 0 ≤ x ∧ x ≤ 360
def InNegPos (x : ℚ) : Prop := -180 ≤ x ∧ x ≤ 180

structure LongitudeMap (lon : MapVector) : Prop where
  increasing : ∀ i j, i < j → j < lon.length → lon.value i < lon.value j
  oneNotation : (∀ i < lon.length, InPos (lon.value i)) ∨ ∀ i < lon.length, InNegPos (lon.value i)

def LatitudeMap (lat : MapVector) : Prop :=
  (∀ i j, i < j → j < lat.length → lat.value i < lat.value j) ∨
    ∀ i j, i < j → j < lat.length → lat.value j < lat.value i

namespace Box

structure Wellformed (box : Box) : Prop where
  bottom_le_top : box.bottom ≤ box.top
  oneNotation : (InPos box.left ∧ InPos box.right) ∨ (InNegPos box.left ∧ InNegPos box.right)

def Latitudes (box : Box) (x : ℚ) : Prop := box.bottom ≤ x ∧ x ≤ box.top

def Longitudes (box : Box) (x : ℚ) : Prop := OnArc 360 box.left box.right x

def WholeCircle (box : Box) : Prop := box.right - box.left = 360

end Box

def GeoConstraint.SelectsLatitude (constraint : GeoConstraint) (i : Nat) : Prop :=
  if constraint.latitudeSense = .normal then
    constraint.latitudeIndexTop ≤ i ∧ i ≤ constraint.latitudeIndexBottom
  else constraint.latitudeIndexBottom ≤ i ∧ i ≤ constraint.latitudeIndexTop

def GeoConstraint.SelectsLongitude (constraint : GeoConstraint) (j : Nat) : Prop :=
  Span constraint.longitudeIndexLeft constraint.longitudeIndexRight j

/-- `set_bounding_box` returns, and every point of the box is selected. -/
def SelectsBox (lat lon : MapVector) (longitudeRightmost : Bool) (box : Box) : Prop :=
  ∃ constraint, (GeoConstraint.new lat lon longitudeRightmost).setBoundingBox box = .ok constraint ∧
    (∀ i < lat.length, box.Latitudes (lat.value i) → constraint.SelectsLatitude i) ∧
    ∀ j < lon.length, box.Longitudes (lon.value j) → constraint.SelectsLongitude j

def remainder (x : ℚ) : ℚ := fmod (toPos x) 360

theorem fmod_of_lt (h0 : 0 ≤ x) (h360 : x < 360) : fmod x 360 = x := by
  have hnone : 0 ≤ x / 360 := by positivity
  have hflo : ⌊x / 360⌋ = 0 := by
    rw [Int.floor_eq_zero_iff, Set.mem_Ico]
    exact ⟨hnone, by rw [div_lt_one (by norm_num)]; exact h360⟩
  rw [fmod, if_pos hnone, hflo]
  simp

theorem fmod_turn : fmod 360 360 = 0 := by
  have hone : (360 : ℚ) / 360 = 1 := by norm_num
  rw [fmod, hone, if_pos (by norm_num), Int.floor_one]
  norm_num

theorem remainder_cases (hlow : -180 ≤ x) (hhigh : x ≤ 360) :
    (x < 0 ∧ remainder x = x + 360) ∨ (0 ≤ x ∧ x < 360 ∧ remainder x = x) ∨
      (x = 360 ∧ remainder x = 0) := by
  unfold remainder toPos
  by_cases hneg : x < 0
  · rw [if_pos hneg, fmod_of_lt (by linarith) (by linarith)]
    exact .inl ⟨hneg, rfl⟩
  · rw [if_neg hneg]
    by_cases hlt : x < 360
    · rw [fmod_of_lt (not_lt.mp hneg) hlt]
      exact .inr (.inl ⟨not_lt.mp hneg, hlt, rfl⟩)
    · obtain rfl : x = 360 := le_antisymm hhigh (not_lt.mp hlt)
      exact .inr (.inr ⟨rfl, fmod_turn⟩)

theorem remainder_spec (hlow : -180 ≤ x) (hhigh : x ≤ 360) :
    0 ≤ remainder x ∧ remainder x < 360 ∧ ∃ k : ℤ, x = remainder x + 360 * k := by
  rcases remainder_cases hlow hhigh with ⟨hneg, heq⟩ | ⟨hpos, hlt, heq⟩ | ⟨hx, heq⟩
  · rw [heq]
    exact ⟨by linarith, by linarith, -1, by push_cast; ring⟩
  · rw [heq]
    exact ⟨hpos, hlt, 0, by push_cast; ring⟩
  · rw [heq, hx]
    exact ⟨le_refl 0, by norm_num, 1, by push_cast; ring⟩

theorem Box.Wellformed.bounds {box : Box} (hbox : box.Wellformed) :
    (-180 ≤ box.left ∧ box.left ≤ 360) ∧ (-180 ≤ box.right ∧ box.right ≤ 360) ∧
      |box.right - box.left| ≤ 360 := by
  rw [abs_le]
  rcases hbox.oneNotation with ⟨hl, hr⟩ | ⟨hl, hr⟩
  · obtain ⟨hl0, hl1⟩ := hl
    obtain ⟨hr0, hr1⟩ := hr
    exact ⟨⟨by linarith, hl1⟩, ⟨by linarith, hr1⟩, by linarith, by linarith⟩
  · obtain ⟨hl0, hl1⟩ := hl
    obtain ⟨hr0, hr1⟩ := hr
    exact ⟨⟨hl0, by linarith⟩, ⟨hr0, by linarith⟩, by linarith, by linarith⟩

theorem Box.longitudes_iff {box : Box} (hbox : box.Wellformed) (hlow : -180 ≤ x) (hhigh : x ≤ 360) :
    box.Longitudes x ↔
      box.WholeCircle ∨ Span (remainder box.left) (remainder box.right) (remainder x) := by
  obtain ⟨hleft, hright, htrn⟩ := hbox.bounds
  obtain ⟨hl0, hl1, a, ha⟩ := remainder_spec hleft.1 hleft.2
  obtain ⟨hr0, hr1, b, hb⟩ := remainder_spec hright.1 hright.2
  obtain ⟨hx0, hx1, c, hc⟩ := remainder_spec hlow hhigh
  unfold Box.Longitudes Box.WholeCircle
  rw [ha, hb] at htrn
  have harc := onArc_iff (by norm_num : (0 : ℚ) < 360) hl0 hl1 hr0 hr1 hx0 hx1 htrn (c := c)
  rwa [← ha, ← hb, ← hc] at harc

section

variable {lon : MapVector}

theorem turned_toPos {i : Nat} (hi : i < lon.length) : turned (lon.apply toPos) i = remainder (lon.value i) := by
  rw [turned, MapVector.value_apply toPos hi, remainder]

theorem LongitudeMap.bounds (hlon : LongitudeMap lon) {i : Nat} (hi : i < lon.length) :
    -180 ≤ lon.value i ∧ lon.value i ≤ 360 := by
  cases hlon.oneNotation with
  | inl hpos =>
    obtain ⟨h0, h1⟩ := hpos i hi
    exact ⟨by linarith, h1⟩
  | inr hneg =>
    obtain ⟨h0, h1⟩ := hneg i hi
    exact ⟨h0, by linarith⟩

theorem LongitudeMap.exists_seam (hlon : LongitudeMap lon) (bound : ℚ) :
    ∃ m ≤ lon.length, (∀ i < m, lon.value i < bound) ∧ ∀ i, m ≤ i → i < lon.length → bound ≤ lon.value i := by
  have hex : ∃ m, m = lon.length ∨ bound ≤ lon.value m := ⟨lon.length, .inl rfl⟩
  classical
  have hle : Nat.find hex ≤ lon.length := Nat.find_min' hex (.inl rfl)
  refine ⟨Nat.find hex, hle, ?_, ?_⟩
  · intro i hi
    have hnot := Nat.find_min hex hi
    rw [not_or, not_le] at hnot
    exact hnot.2
  · intro i hmi hi
    have hsem := (Nat.find_spec hex).resolve_left (by omega)
    by_cases heq : Nat.find hex = i
    · rwa [heq] at hsem
    · exact hsem.trans (hlon.increasing _ i (by omega) hi).le

theorem LongitudeMap.increasesAround (hlon : LongitudeMap lon) :
    ∃ m, IncreasesAround lon.length m (turned (lon.apply toPos)) := by
  -- Below the seam the remainders are the longitudes and `lift`, from it on they are one turn less.
  have hsha : ∃ bound lift : ℚ, (∀ i < lon.length, lon.value i < bound → remainder (lon.value i) = lon.value i + lift) ∧
      (∀ i < lon.length, bound ≤ lon.value i → remainder (lon.value i) = lon.value i + lift - 360) ∧
      ∀ i < lon.length, ∀ j < lon.length, lon.value j ≤ lon.value i + 360 := by
    cases hlon.oneNotation with
    | inl hpos =>
      refine ⟨360, 0, ?_, ?_, ?_⟩
      · intro i hi hless
        rw [remainder, toPos, if_neg (not_lt.mpr (hpos i hi).1), fmod_of_lt (hpos i hi).1 hless, add_zero]
      · intro i hi hge
        have heq : lon.value i = 360 := le_antisymm (hpos i hi).2 hge
        rw [remainder, toPos, if_neg (not_lt.mpr (hpos i hi).1), heq, fmod_turn]
        norm_num
      · intro i hi j hj
        linarith [(hpos i hi).1, (hpos j hj).2]
    | inr hneg =>
      refine ⟨0, 360, ?_, ?_, ?_⟩
      · intro i hi hless
        rw [remainder, toPos, if_pos hless, fmod_of_lt (by linarith [(hneg i hi).1]) (by linarith)]
      · intro i hi hge
        rw [remainder, toPos, if_neg (not_lt.mpr hge), fmod_of_lt hge (by linarith [(hneg i hi).2])]
        ring
      · intro i hi j hj
        linarith [(hneg i hi).1, (hneg j hj).2]
  obtain ⟨bound, lift, hbel, habo, htrn⟩ := hsha
  obtain ⟨m, hm, hbefore, hafter⟩ := hlon.exists_seam bound
  have hlow : ∀ i < m, turned (lon.apply toPos) i = lon.value i + lift := by
    intro i hi
    rw [turned_toPos (by omega), hbel i (by omega) (hbefore i hi)]
  have hhigh : ∀ i, m ≤ i → i < lon.length → turned (lon.apply toPos) i = lon.value i + lift - 360 := by
    intro i hmi hi
    rw [turned_toPos hi, habo i hi (hafter i hmi hi)]
  refine ⟨m, hm, ?_, ?_, ?_⟩
  · intro i j hij hj
    rw [hlow i (by omega), hlow j hj]
    have hless := hlon.increasing i j hij (by omega)
    linarith
  · intro i j hmi hij hj
    rw [hhigh i hmi (by omega), hhigh j (by omega) hj]
    have hless := hlon.increasing i j hij hj
    linarith
  · intro i j hi hmj hj
    rw [hlow i hi, hhigh j hmj hj]
    by_cases hend : i = 0 ∧ j = lon.length - 1
    · have hle := htrn i (by omega) j hj
      rcases hle.lt_or_eq with hless | heq
      · exact .inl (by linarith)
      · exact .inr ⟨by linarith, hend⟩
    · -- Between the ends there is less than a turn.
      have hless : lon.value j < lon.value i + 360 := by
        by_cases hi0 : i = 0
        · have hnext := hlon.increasing j (lon.length - 1) (by omega) (by omega)
          exact hnext.trans_le (htrn i (by omega) _ (by omega))
        · have hprv := hlon.increasing 0 i (by omega) (by omega)
          have hle := htrn 0 (by omega) j hj
          linarith
      exact .inl (by linarith)

/-- Where the first and the last longitude of the map are both in the box, the selection goes around the end of
the map, or it is the whole map; and it is the whole map for a whole circle. -/
structure EndsSelected (lon : MapVector) (box : Box) (indexLeft indexRight : Nat) : Prop where
  whole : box.WholeCircle → (indexLeft = 0 ∧ indexRight = lon.length - 1) ∨ indexLeft = indexRight + 1
  ends : box.Longitudes (lon.value 0) → box.Longitudes (lon.value (lon.length - 1)) →
    indexLeft ≤ indexRight → indexLeft = 0 ∧ indexRight = lon.length - 1

variable {box : Box} {left right : ℚ}

theorem span_turned_iff (hfou : Found lon left right a b) (hsorted : ∀ j k, j ≤ k → k < lon.length →
      turned lon (place lon.length (lonOriginIndex lon) j) ≤ turned lon (place lon.length (lonOriginIndex lon) k))
    (hpoi : ∃ j < lon.length, Span (fmod left 360) (fmod right 360) (turned lon j))
    {j : Nat} (hj : j < lon.length) : Span (fmod left 360) (fmod right 360) (turned lon j) ↔
      Span (place lon.length (lonOriginIndex lon) a) (place lon.length (lonOriginIndex lon) b) j := by
  have horigin := (lonOriginIndex_spec lon).1
  have hleft : ∀ k < lon.length, fmod left 360 ≤ turned lon (place lon.length (lonOriginIndex lon) k) ↔ a ≤ k := by
    intro k hk
    constructor
    · intro hle
      by_contra hlt
      exact absurd hle (not_le.mpr (hfou.before_left k (by omega)))
    · intro hle
      exact hfou.left_le.trans (hsorted a k hle hk)
  have hright : ∀ k < lon.length,
      turned lon (place lon.length (lonOriginIndex lon) k) ≤ fmod right 360 ↔ k ≤ b := by
    intro k hk
    constructor
    · intro hle
      by_contra hlt
      exact absurd hle (not_le.mpr (hfou.after_right k hk (by omega)))
    · intro hle
      exact (hsorted k b hle hfou.right_lt).trans hfou.right_le
  obtain ⟨k, hk, rfl⟩ := exists_place horigin hj
  rw [span_place horigin hfou.left_lt hfou.right_lt hk]
  by_cases hle : fmod left 360 ≤ fmod right 360
  · have hab : a ≤ b := by
      obtain ⟨j', hj', hspn⟩ := hpoi
      obtain ⟨k', hk', rfl⟩ := exists_place horigin hj'
      rw [span_of_le hle, hleft k' hk', hright k' hk'] at hspn
      omega
    rw [span_of_le hle, span_of_le hab, hleft k hk, hright k hk]
  · have hab : ¬ a ≤ b := by
      intro hab
      have hcha := (hleft a hfou.left_lt).mpr (le_refl a)
      exact hle (hcha.trans ((hright a hfou.left_lt).mpr hab))
    rw [span_of_not_le hle, span_of_not_le hab, hleft k hk, hright k hk]

theorem selected_of_repeated (hfou : Found lon left right a b) (horigin : lonOriginIndex lon = 0)
    (hlen : 2 ≤ lon.length) (hrep : turned lon 0 = turned lon (lon.length - 1))
    (hleft : indexLeft = a ∨ indexLeft = a - 1) : b = lon.length - 1 ∧
      ((∀ j < lon.length, Span (fmod left 360) (fmod right 360) (turned lon j) → indexLeft ≤ j) ↔
        (Span (fmod left 360) (fmod right 360) (turned lon 0) → indexLeft = 0)) := by
  have hplace : ∀ k < lon.length, place lon.length (lonOriginIndex lon) k = k := by
    intro k hk
    rw [horigin, place_of_lt (by omega), zero_add]
  have hlea : ∀ j < lon.length, turned lon 0 ≤ turned lon j := by
    intro j hj
    have hspecial := (lonOriginIndex_spec lon).2.1 j hj
    rwa [horigin] at hspecial
  have hrea : turned lon 0 ≤ fmod right 360 := by
    have hright := hfou.right_le
    rw [hplace b hfou.right_lt] at hright
    exact (hlea b hfou.right_lt).trans hright
  constructor
  · by_contra hne
    have hlt := hfou.right_lt
    have hafter := hfou.after_right (lon.length - 1) (by omega) (by omega)
    rw [hplace _ (by omega), ← hrep] at hafter
    exact absurd hrea (not_le.mpr hafter)
  · constructor
    · intro h hfirst
      have hzero := h 0 (by omega) hfirst
      omega
    · intro h j hj hspn
      by_contra hlt
      have hbefore := hfou.before_left j (by omega)
      rw [hplace j hj] at hbefore
      by_cases hle : fmod left 360 ≤ fmod right 360
      · rw [span_of_le hle] at hspn
        exact absurd hspn.1 (not_le.mpr hbefore)
      · have hzero := h ((span_of_not_le hle).mpr (.inr hrea))
        omega

end

section

variable {lon : MapVector} {left right : ℚ}

theorem selected_span_iff (haro : IncreasesAround lon.length m (turned lon))
    (hpoi : ∃ j < lon.length, Span (fmod left 360) (fmod right 360) (turned lon j))
    (hfound : findLongitudeIndeces lon left right = .ok (indexLeft, indexRight)) :
    (∀ j < lon.length, Span (fmod left 360) (fmod right 360) (turned lon j) → Span indexLeft indexRight j) ↔
      (Span (fmod left 360) (fmod right 360) (turned lon 0) →
        Span (fmod left 360) (fmod right 360) (turned lon (lon.length - 1)) →
        indexLeft ≤ indexRight → indexLeft = 0 ∧ indexRight = lon.length - 1) := by
  obtain ⟨a, b, hfou, hleft, hright⟩ := found_of_ok hfound
  obtain ⟨horigin, hlea, hfirst⟩ := lonOriginIndex_spec lon
  have hpos := lon.length_pos
  rcases sorted_from_least haro horigin hlea hfirst with hsorted | ⟨hzero, htwo, hrep, -⟩
  · have hspn : ∀ j < lon.length, Span (fmod left 360) (fmod right 360) (turned lon j) ↔
        Span (place lon.length (lonOriginIndex lon) a) (place lon.length (lonOriginIndex lon) b) j :=
      fun j hj => span_turned_iff hfou hsorted hpoi hj
    rw [hspn 0 hpos, hspn (lon.length - 1) (by omega),
      ← span_widened_iff (place_lt hpos) (place_lt hpos) hleft hright]
    exact forall₂_congr fun j hj => by rw [hspn j hj]
  · have hplace : ∀ k < lon.length, place lon.length (lonOriginIndex lon) k = k := by
      intro k hk
      rw [hzero, place_of_lt (by omega), zero_add]
    rw [hplace a hfou.left_lt] at hleft
    obtain ⟨hb, hselect⟩ := selected_of_repeated hfou hzero htwo hrep hleft
    rw [hplace b hfou.right_lt, hb] at hright
    have ha := hfou.left_lt
    obtain rfl : indexRight = lon.length - 1 := by omega
    have hle : indexLeft ≤ lon.length - 1 := by omega
    rw [← hrep]
    have hfrm : ∀ j < lon.length, Span indexLeft (lon.length - 1) j ↔ indexLeft ≤ j := by
      intro j hj
      rw [span_of_le hle]
      omega
    constructor
    · intro h hfirst _ _
      exact ⟨hselect.mp (fun j hj hspn => (hfrm j hj).mp (h j hj hspn)) hfirst, rfl⟩
    · intro h j hj hspn
      exact (hfrm j hj).mpr (hselect.mpr (fun hfirst => (h hfirst hfirst hle).1) j hj hspn)

end

section

variable {lat lon : MapVector} {box : Box}

theorem selected_iff (hlon : LongitudeMap lon) (hbox : box.Wellformed)
    (hpoi : ∃ j < lon.length, box.Longitudes (lon.value j))
    (hfound : findLongitudeIndeces (lon.apply toPos) (toPos box.left) (toPos box.right) = .ok (indexLeft, indexRight)) :
    (∀ j < lon.length, box.Longitudes (lon.value j) → Span indexLeft indexRight j) ↔
      EndsSelected lon box indexLeft indexRight := by
  have hin : ∀ j < lon.length, box.Longitudes (lon.value j) ↔ box.WholeCircle ∨
      Span (fmod (toPos box.left) 360) (fmod (toPos box.right) 360) (turned (lon.apply toPos) j) := by
    intro j hj
    rw [turned_toPos hj]
    exact Box.longitudes_iff hbox (hlon.bounds hj).1 (hlon.bounds hj).2
  have hpos := lon.length_pos
  have hidx := index_lt_of_ok hfound
  rw [MapVector.length_apply] at hidx
  by_cases hwhole : box.WholeCircle
  · have hall : (∀ j < lon.length, box.Longitudes (lon.value j) → Span indexLeft indexRight j) ↔
        ∀ j < lon.length, Span indexLeft indexRight j :=
      forall₂_congr fun j hj => imp_iff_right ((hin j hj).mpr (.inl hwhole))
    rw [hall, span_all_iff hidx.1 hidx.2]
    constructor
    · intro h
      exact ⟨fun _ => h, fun _ _ hle => by omega⟩
    · intro h
      exact h.whole hwhole
  · simp only [hwhole, false_or] at hin
    obtain ⟨m, haro⟩ := hlon.increasesAround
    rw [← MapVector.length_apply toPos lon] at haro
    have hspn := selected_span_iff haro (by
      obtain ⟨j, hj, hlng⟩ := hpoi
      exact ⟨j, by rwa [MapVector.length_apply], (hin j hj).mp hlng⟩) hfound
    rw [MapVector.length_apply, ← hin 0 hpos, ← hin (lon.length - 1) (by omega)] at hspn
    have hsame : (∀ j < lon.length, box.Longitudes (lon.value j) → Span indexLeft indexRight j) ↔
        ∀ j < lon.length, Span (fmod (toPos box.left) 360) (fmod (toPos box.right) 360)
          (turned (lon.apply toPos) j) → Span indexLeft indexRight j :=
      forall₂_congr fun j hj => by rw [hin j hj]
    rw [hsame, hspn]
    constructor
    · intro h
      exact ⟨fun h => absurd h hwhole, h⟩
    · exact EndsSelected.ends

end

section

variable {lat : MapVector} {box : Box}

theorem latitude_selected {i : Nat} (hi : i < lat.length) (hin : box.Latitudes (lat.value i))
    (sense : LatitudeSense) :
    if sense = .normal then
      (findLatitudeIndeces lat box.top box.bottom sense).1 ≤ i ∧
        i ≤ (findLatitudeIndeces lat box.top box.bottom sense).2
    else
      (findLatitudeIndeces lat box.top box.bottom sense).2 ≤ i ∧
        i ≤ (findLatitudeIndeces lat box.top box.bottom sense).1 := by
  obtain ⟨hbot, htop⟩ := hin
  have hup : ∀ (go : Nat → Bool) (exact : Bool), go i = false →
      stepBack exact (climb go (lat.length - 1) 0) ≤ i := by
    intro go exact hstep
    obtain ⟨-, -, hall, -⟩ := climb_spec go (lat.length - 1) 0
    have hle : climb go (lat.length - 1) 0 ≤ i := by
      by_contra hlt
      rw [hall i (Nat.zero_le i) (by omega)] at hstep
      cases hstep
    have hste := stepBack_cases exact (climb go (lat.length - 1) 0)
    omega
  have hdwn : ∀ (go : Nat → Bool) (exact : Bool), go i = false →
      i ≤ stepOn lat.length exact (descend go (lat.length - 1)) := by
    intro go exact hstep
    obtain ⟨-, hall, -⟩ := descend_spec go (lat.length - 1)
    have hle : i ≤ descend go (lat.length - 1) := by
      by_contra hlt
      rw [hall i (by omega) (by omega)] at hstep
      cases hstep
    have hste := stepOn_cases lat.length exact (descend go (lat.length - 1))
    omega
  have htop' : decide (box.top < lat.value i) = false := decide_eq_false (not_lt.mpr htop)
  have hbot' : decide (lat.value i < box.bottom) = false := decide_eq_false (not_lt.mpr hbot)
  by_cases hnor : sense = .normal
  · rw [if_pos hnor, findLatitudeIndeces, if_pos hnor]
    exact ⟨hup _ _ htop', hdwn _ _ hbot'⟩
  · rw [if_neg hnor, findLatitudeIndeces, if_neg hnor]
    exact ⟨hup _ _ hbot', hdwn _ _ htop'⟩

theorem LatitudeMap.between (hlat : LatitudeMap lat) {i : Nat} (hi : i < lat.length) :
    if categorizeLatitude lat = .normal then
      lat.value (lat.length - 1) ≤ lat.value i ∧ lat.value i ≤ lat.value 0
    else lat.value 0 ≤ lat.value i ∧ lat.value i ≤ lat.value (lat.length - 1) := by
  have hnor : categorizeLatitude lat = .normal ↔ lat.value (lat.length - 1) ≤ lat.value 0 := by
    unfold categorizeLatitude
    split <;> simp [*]
  simp only [hnor]
  cases hlat with
  | inl hinc =>
    have hle : ∀ j k, j ≤ k → k < lat.length → lat.value j ≤ lat.value k := by
      intro j k hjk hk
      by_cases heq : j = k
      · rw [heq]
      · exact (hinc j k (by omega) hk).le
    have hfirst := hle 0 i (Nat.zero_le i) hi
    have hlast := hle i (lat.length - 1) (by omega) (by omega)
    split
    next hsame =>
      exact ⟨hsame.trans hfirst, hlast.trans hsame⟩
    · exact ⟨hfirst, hlast⟩
  | inr hdec =>
    have hle : ∀ j k, j ≤ k → k < lat.length → lat.value k ≤ lat.value j := by
      intro j k hjk hk
      by_cases heq : j = k
      · rw [heq]
      · exact (hdec j k (by omega) hk).le
    rw [if_pos (hle 0 (lat.length - 1) (Nat.zero_le _) (by omega))]
    exact ⟨hle i (lat.length - 1) (by omega) (by omega), hle 0 i (Nat.zero_le i) hi⟩

end

/-- The box is not wholly west of the first longitude of the map, nor wholly east of the last, in the notation
from 0 on. -/
structure MeetsMap (lon : MapVector) (box : Box) : Prop where
  west : ¬ (toPos box.left < toPos (lon.value 0) ∧ toPos box.right < toPos (lon.value 0))
  east : ¬ (toPos (lon.value (lon.length - 1)) < toPos box.left ∧
    toPos (lon.value (lon.length - 1)) < toPos box.right)

structure EndsReached (lon : MapVector) (box : Box) : Prop where
  left : ∃ i < lon.length, remainder box.left ≤ remainder (lon.value i)
  right : ∃ i < lon.length, remainder (lon.value i) ≤ remainder box.right

section

variable {lat lon : MapVector} {box : Box}

theorem toPos_left_right (box : Box) :
    (if categorizeNotation box.left box.right = .negPos then toPos box.left else box.left) = toPos box.left ∧
      (if categorizeNotation box.left box.right = .negPos then toPos box.right else box.right) =
        toPos box.right := by
  unfold categorizeNotation
  by_cases hneg : box.left < 0 ∨ box.right < 0
  · simp [hneg]
  · rw [not_or] at hneg
    simp [hneg, toPos]

theorem LongitudeMap.apply_toPos (hlon : LongitudeMap lon) :
    (if categorizeNotation (lon.value 0) (lon.value (lon.length - 1)) = .negPos
      then transformLongitudeToPosNotation lon else lon) = lon.apply toPos := by
  unfold categorizeNotation
  by_cases hneg : lon.value 0 < 0 ∨ lon.value (lon.length - 1) < 0
  · simp [hneg, transformLongitudeToPosNotation]
  · rw [if_neg hneg, if_neg (by decide)]
    rw [not_or, not_lt, not_lt] at hneg
    have hsame : lon.values.map toPos = lon.values.map id := by
      apply List.map_congr_left
      intro v hv
      obtain ⟨i, hi, rfl⟩ := List.mem_iff_getElem.mp hv
      have hval : lon.value i = lon.values[i] := by simp [MapVector.value, hi]
      have hle : lon.value 0 ≤ lon.value i := by
        by_cases hzero : i = 0
        · rw [hzero]
        · exact (hlon.increasing 0 i (by omega) hi).le
      rw [← hval, toPos, if_neg (not_lt.mpr (hneg.1.trans hle)), id]
    rw [List.map_id] at hsame
    cases lon
    unfold MapVector.apply
    congr 1
    exact hsame.symm

theorem valid_iff (hlat : LatitudeMap lat) (hpoi : ∃ i < lat.length, box.Latitudes (lat.value i)) :
    isBoundingBoxValid lat (lon.apply toPos) (categorizeLatitude lat) (toPos box.left) box.top (toPos box.right)
      box.bottom = true ↔ MeetsMap lon box := by
  have hpos := lon.length_pos
  have hfirst : (lon.apply toPos).value 0 = toPos (lon.value 0) := MapVector.value_apply toPos hpos
  have hlast : (lon.apply toPos).value ((lon.apply toPos).length - 1) = toPos (lon.value (lon.length - 1)) := by
    rw [MapVector.length_apply]
    exact MapVector.value_apply toPos (by omega)
  have hmee : MeetsMap lon box ↔
      ¬ ((toPos box.left < toPos (lon.value 0) ∧ toPos box.right < toPos (lon.value 0)) ∨
        (toPos (lon.value (lon.length - 1)) < toPos box.left ∧
          toPos (lon.value (lon.length - 1)) < toPos box.right)) := by
    rw [not_or]
    exact ⟨fun h => ⟨h.west, h.east⟩, fun h => ⟨h.1, h.2⟩⟩
  obtain ⟨i, hi, hbot, htop⟩ := hpoi
  have hbet := hlat.between hi
  rw [hmee, isBoundingBoxValid, hfirst, hlast]
  by_cases hout : (toPos box.left < toPos (lon.value 0) ∧ toPos box.right < toPos (lon.value 0)) ∨
      (toPos (lon.value (lon.length - 1)) < toPos box.left ∧
        toPos (lon.value (lon.length - 1)) < toPos box.right)
  · rw [if_pos hout]
    exact ⟨fun h => absurd h Bool.false_ne_true, fun h => absurd hout h⟩
  · rw [if_neg hout, iff_true_right hout]
    by_cases hnor : categorizeLatitude lat = .normal
    · rw [if_pos hnor] at hbet ⊢
      rw [decide_eq_true_eq]
      rintro (h | h)
      · linarith
      · linarith
    · rw [if_neg hnor] at hbet ⊢
      rw [decide_eq_true_eq]
      rintro (h | h)
      · linarith
      · linarith

theorem endsReached_iff : EndsReached lon box ↔
    ∃ indices, findLongitudeIndeces (lon.apply toPos) (toPos box.left) (toPos box.right) = .ok indices := by
  constructor
  · intro h
    obtain ⟨i, hi, hleft⟩ := h.left
    obtain ⟨j, hj, hright⟩ := h.right
    have hfou := @exists_found (lon.apply toPos) (toPos box.left) (toPos box.right)
      ⟨i, by rwa [MapVector.length_apply], by rw [turned_toPos hi]; exact hleft⟩
      ⟨j, by rwa [MapVector.length_apply], by rw [turned_toPos hj]; exact hright⟩
    obtain ⟨a, b, hfou⟩ := hfou
    obtain ⟨exactLeft, exactRight, hok⟩ := hfou.indices
    exact ⟨_, hok⟩
  · intro h
    obtain ⟨indices, hok⟩ := h
    obtain ⟨⟨i, hi, hleft⟩, j, hj, hright⟩ := reached_of_ok hok
    rw [MapVector.length_apply] at hi hj
    rw [turned_toPos hi] at hleft
    rw [turned_toPos hj] at hright
    exact ⟨⟨i, hi, hleft⟩, ⟨j, hj, hright⟩⟩

/-- On the ring of the longitudes, which begins with the first of the least ones, `a` is the place of the first
at or after the left end of the box and `b` that of the last at or before the right end. -/
structure BoxEnds (lon : MapVector) (box : Box) (origin a b : Nat) : Prop where
  origin_lt : origin < lon.length
  least : ∀ i < lon.length, remainder (lon.value origin) ≤ remainder (lon.value i)
  first : ∀ i < origin, remainder (lon.value origin) < remainder (lon.value i)
  left_lt : a < lon.length
  right_lt : b < lon.length
  left_le : remainder box.left ≤ remainder (lon.value (place lon.length origin a))
  before_left : ∀ k < a, remainder (lon.value (place lon.length origin k)) < remainder box.left
  right_le : remainder (lon.value (place lon.length origin b)) ≤ remainder box.right
  after_right : ∀ k < lon.length, b < k →
    remainder box.right < remainder (lon.value (place lon.length origin k))

/-- An end of the box that is no longitude of the map is moved by one. -/
def offMap (lon : MapVector) (i : Nat) (x : ℚ) : Nat := if remainder (lon.value i) = remainder x then 0 else 1

/-- With the ends of the box moved off the map, those of a box around the ends of the map stay apart, or they
take in the whole map. -/
structure EndsApart (lon : MapVector) (box : Box) (i j : Nat) : Prop where
  whole : box.WholeCircle → i = j + offMap lon j box.right + offMap lon i box.left + 1 ∨
    (i ≤ offMap lon i box.left ∧ lon.length ≤ j + offMap lon j box.right + 1)
  ends : box.Longitudes (lon.value 0) → box.Longitudes (lon.value (lon.length - 1)) →
    j + offMap lon j box.right + offMap lon i box.left < i ∨
      (i ≤ offMap lon i box.left ∧ lon.length ≤ j + offMap lon j box.right + 1)

theorem BoxEnds.origin_eq (hends : BoxEnds lon box origin a b) :
    lonOriginIndex (lon.apply toPos) = origin := by
  obtain ⟨hlt, hleast, hfirst⟩ := lonOriginIndex_spec (lon.apply toPos)
  rw [MapVector.length_apply] at hlt hleast
  have hle := hleast origin hends.origin_lt
  rw [turned_toPos hlt, turned_toPos hends.origin_lt] at hle
  rcases lt_trichotomy (lonOriginIndex (lon.apply toPos)) origin with hbefore | heq | hafter
  · exact absurd hle (not_le.mpr (hends.first _ hbefore))
  · exact heq
  · have hnot := hfirst origin hafter
    rw [turned_toPos hlt, turned_toPos hends.origin_lt] at hnot
    exact absurd (hends.least _ hlt) (not_le.mpr hnot)

theorem BoxEnds.found (hends : BoxEnds lon box origin a b) :
    findLongitudeIndeces (lon.apply toPos) (toPos box.left) (toPos box.right) =
      .ok (place lon.length origin a - offMap lon (place lon.length origin a) box.left,
        min (place lon.length origin b + offMap lon (place lon.length origin b) box.right) (lon.length - 1)) := by
  have hpos := lon.length_pos
  have hturned : ∀ k, turned (lon.apply toPos) (place lon.length origin k) =
      remainder (lon.value (place lon.length origin k)) := fun k => turned_toPos (place_lt hpos)
  have hup : walkUp lon.length origin (fun i => turned (lon.apply toPos) i < fmod (toPos box.left) 360)
      lon.length origin = some (place lon.length origin a) := walkUp_of_stop hends.origin_lt hends.left_lt
    (decide_eq_false (not_lt.mpr (by rw [hturned]; exact hends.left_le)))
    fun k hk => decide_eq_true (by rw [hturned]; exact hends.before_left k hk)
  have hdown : walkDown lon.length (place lon.length origin (lon.length - 1))
      (fun i => fmod (toPos box.right) 360 < turned (lon.apply toPos) i) lon.length
      (place lon.length origin (lon.length - 1)) = some (place lon.length origin b) :=
    walkDown_of_stop hends.origin_lt hends.right_lt
    (decide_eq_false (not_lt.mpr (by rw [hturned]; exact hends.right_le)))
    fun k hk hlt => decide_eq_true (by rw [hturned]; exact hends.after_right k hk hlt)
  have hback : ∀ i, stepBack (remainder (lon.value i) = remainder box.left) i = i - offMap lon i box.left := by
    intro i
    unfold stepBack offMap
    by_cases hexact : remainder (lon.value i) = remainder box.left
    · simp [hexact]
    · simp only [hexact, decide_false, Bool.false_eq_true, if_false]
      split <;> omega
  have hon : ∀ j < lon.length, stepOn lon.length (remainder (lon.value j) = remainder box.right) j =
      min (j + offMap lon j box.right) (lon.length - 1) := by
    intro j hj
    unfold stepOn offMap
    by_cases hexact : remainder (lon.value j) = remainder box.right
    · simp only [hexact, decide_true, if_true]
      omega
    · simp only [hexact, decide_false, Bool.false_eq_true, if_false]
      split <;> omega
  rw [findLongitudeIndeces, hends.origin_eq, MapVector.length_apply, hup]
  dsimp only
  rw [hdown]
  dsimp only
  rw [hturned, hturned, ← hback, ← hon _ (place_lt hpos)]
  rfl

theorem EndsReached.exists_boxEnds (hreached : EndsReached lon box) : ∃ origin a b, BoxEnds lon box origin a b := by
  have hpos := lon.length_pos
  obtain ⟨i, hi, hleft⟩ := hreached.left
  obtain ⟨j, hj, hright⟩ := hreached.right
  obtain ⟨a, b, hfound⟩ := @exists_found (lon.apply toPos) (toPos box.left) (toPos box.right)
    ⟨i, by rwa [MapVector.length_apply], by rw [turned_toPos hi]; exact hleft⟩
    ⟨j, by rwa [MapVector.length_apply], by rw [turned_toPos hj]; exact hright⟩
  obtain ⟨hlt, hleast, hfirst⟩ := lonOriginIndex_spec (lon.apply toPos)
  obtain ⟨ha, hb, hle, hbefore, hge, hafter, -⟩ := hfound
  rw [MapVector.length_apply] at hlt hleast ha hb hle hbefore hge hafter
  have hturned : ∀ k, turned (lon.apply toPos) (place lon.length (lonOriginIndex (lon.apply toPos)) k) =
      remainder (lon.value (place lon.length (lonOriginIndex (lon.apply toPos)) k)) :=
    fun k => turned_toPos (place_lt hpos)
  refine ⟨lonOriginIndex (lon.apply toPos), a, b, hlt, ?_, ?_, ha, hb, ?_, ?_, ?_, ?_⟩
  · intro i hi
    rw [← turned_toPos hlt, ← turned_toPos hi]
    exact hleast i hi
  · intro i hi
    rw [← turned_toPos hlt, ← turned_toPos (hi.trans hlt)]
    exact hfirst i hi
  · rw [← hturned]
    exact hle
  · intro k hk
    rw [← hturned]
    exact hbefore k hk
  · rw [← hturned]
    exact hge
  · intro k hk hlt
    rw [← hturned]
    exact hafter k hk hlt

theorem endsSelected_iff {i j : Nat} (hi : i < lon.length) (hj : j < lon.length) :
    EndsSelected lon box (i - offMap lon i box.left) (min (j + offMap lon j box.right) (lon.length - 1)) ↔
      EndsApart lon box i j := by
  constructor
  · intro hselected
    refine ⟨fun hwhole => ?_, fun hfirst hlast => ?_⟩
    · have hcases := hselected.whole hwhole
      omega
    · have hcases := hselected.ends hfirst hlast
      omega
  · intro hapart
    refine ⟨fun hwhole => ?_, fun hfirst hlast hle => ?_⟩
    · have hcases := hapart.whole hwhole
      omega
    · have hcases := hapart.ends hfirst hlast
      omega

theorem setBoundingBox_eq (hlon : LongitudeMap lon) (longitudeRightmost : Bool) :
    (GeoConstraint.new lat lon longitudeRightmost).setBoundingBox box =
      if isBoundingBoxValid lat (lon.apply toPos) (categorizeLatitude lat) (toPos box.left) box.top
          (toPos box.right) box.bottom then
        (findLongitudeIndeces (lon.apply toPos) (toPos box.left) (toPos box.right)).map fun indices =>
          { lat := lat
            lon := lon.apply toPos
            latitudeIndexTop := (findLatitudeIndeces lat box.top box.bottom (categorizeLatitude lat)).1
            latitudeIndexBottom := (findLatitudeIndeces lat box.top box.bottom (categorizeLatitude lat)).2
            longitudeIndexLeft := indices.1
            longitudeIndexRight := indices.2
            boundingBoxSet := true
            longitudeRightmost := longitudeRightmost
            longitudeNotation := categorizeNotation box.left box.right
            latitudeSense := categorizeLatitude lat }
      else .error .noIntersection := by
  unfold GeoConstraint.setBoundingBox GeoConstraint.new
  dsimp only
  rw [if_neg Bool.false_ne_true, (toPos_left_right box).1, (toPos_left_right box).2, hlon.apply_toPos]
  split
  · cases findLongitudeIndeces (lon.apply toPos) (toPos box.left) (toPos box.right) with
    | error failure => rfl
    | ok indices => rfl
  · rfl

end

/-- Of a box that holds a point of the grid, all points are selected exactly where the box meets the map as the
first test has it, its ends are reached, and they stay apart. -/
theorem selectsBox_iff (lat lon : MapVector) (longitudeRightmost : Bool) (box : Box) (hlat : LatitudeMap lat)
    (hlon : LongitudeMap lon) (hbox : box.Wellformed)
    (hlatitude : ∃ i < lat.length, box.Latitudes (lat.value i))
    (hlongitude : ∃ j < lon.length, box.Longitudes (lon.value j)) :
    SelectsBox lat lon longitudeRightmost box ↔ MeetsMap lon box ∧ EndsReached lon box ∧
        ∀ origin a b, BoxEnds lon box origin a b →
          EndsApart lon box (place lon.length origin a) (place lon.length origin b) := by
  have hpos := lon.length_pos
  unfold SelectsBox
  rw [setBoundingBox_eq hlon, ← valid_iff hlat hlatitude]
  constructor
  · rintro ⟨constraint, hok, -, hselects⟩
    split at hok
    next hvalid =>
      cases hfind : findLongitudeIndeces (lon.apply toPos) (toPos box.left) (toPos box.right) with
      | error failure =>
        rw [hfind] at hok
        cases hok
      | ok indices =>
        rw [hfind] at hok
        cases hok
        refine ⟨hvalid, endsReached_iff.mpr ⟨indices, hfind⟩, ?_⟩
        intro origin a b hends
        have hselected := (selected_iff hlon hbox hlongitude hfind).mp hselects
        rw [hends.found] at hfind
        cases hfind
        exact (endsSelected_iff (place_lt hpos) (place_lt hpos)).mp hselected
    · cases hok
  · rintro ⟨hvalid, hreached, hapart⟩
    obtain ⟨origin, a, b, hends⟩ := hreached.exists_boxEnds
    have hfind := hends.found
    rw [if_pos hvalid, hfind]
    refine ⟨_, rfl, ?_, ?_⟩
    · intro i hi hin
      exact latitude_selected hi hin (categorizeLatitude lat)
    · exact (selected_iff hlon hbox hlongitude hfind).mpr
        ((endsSelected_iff (place_lt hpos) (place_lt hpos)).mpr (hapart origin a b hends))

/-! Four longitudes in either notation. -/

def quarters : MapVector := .of 0 [90, 180, 270]
def westQuarters : MapVector := .of (-180) [-90, 0, 90]
def twoLatitudes : MapVector := .of 10 [0]

theorem value_lt_of_pairwise {map : MapVector} (h : map.values.Pairwise (· < ·)) (i j : Nat) (hij : i < j)
    (hj : j < map.length) : map.value i < map.value j := by
  unfold MapVector.length at hj
  have hless := List.pairwise_iff_getElem.mp h i j (by omega) hj hij
  simpa [MapVector.value, hj, hij.trans hj] using hless

theorem longitudeMap_quarters : LongitudeMap quarters where
  increasing := value_lt_of_pairwise (by decide +kernel)
  oneNotation := by
    left
    unfold InPos
    decide +kernel

theorem longitudeMap_westQuarters : LongitudeMap westQuarters where
  increasing := value_lt_of_pairwise (by decide +kernel)
  oneNotation := by
    right
    unfold InNegPos
    decide +kernel

theorem latitudeMap_twoLatitudes : LatitudeMap twoLatitudes := by
  right
  intro i j hij hj
  obtain ⟨rfl, rfl⟩ : i = 0 ∧ j = 1 := by
    change j < 2 at hj
    omega
  decide +kernel

theorem selectsBox_iff_quarters : SelectsBox twoLatitudes quarters true ⟨10, 0, 0, 270⟩ := by
  have hbox : Box.Wellformed ⟨10, 0, 0, 270⟩ := by
    refine ⟨by decide +kernel, .inl ?_⟩
    unfold InPos
    decide +kernel
  have hltt : ∃ i < twoLatitudes.length, Box.Latitudes ⟨10, 0, 0, 270⟩ (twoLatitudes.value i) := by
    refine ⟨0, by decide, ?_⟩
    unfold Box.Latitudes
    decide +kernel
  have hlng : ∃ j < quarters.length, Box.Longitudes ⟨10, 0, 0, 270⟩ (quarters.value j) :=
    ⟨0, by decide, 0, by decide +kernel⟩
  have hmee : MeetsMap quarters ⟨10, 0, 0, 270⟩ := ⟨by decide +kernel, by decide +kernel⟩
  have hrea : EndsReached quarters ⟨10, 0, 0, 270⟩ :=
    ⟨⟨0, by decide, by decide +kernel⟩, 0, by decide, by decide +kernel⟩
  apply (selectsBox_iff twoLatitudes quarters true ⟨10, 0, 0, 270⟩ latitudeMap_twoLatitudes
    longitudeMap_quarters hbox hltt hlng).mpr
  refine ⟨hmee, hrea, ?_⟩
  intro origin a b hends
  have hfound := hends.found
  have hfind : findLongitudeIndeces (quarters.apply toPos) (toPos 0) (toPos 270) = .ok (0, 3) := by
    decide +kernel
  rw [hfind, Except.ok.injEq, Prod.mk.injEq] at hfound
  have hlength : quarters.length = 4 := rfl
  rw [hlength] at hfound ⊢
  refine ⟨fun _ => .inr ?_, fun _ _ => .inr ?_⟩ <;> rw [hlength] <;> omega

theorem eastern_box_rejected : LatitudeMap twoLatitudes ∧ LongitudeMap westQuarters ∧
      Box.Longitudes ⟨10, 0, 0, 90⟩ (westQuarters.value 2) ∧ Box.Latitudes ⟨10, 0, 0, 90⟩ (twoLatitudes.value 0) ∧
      (GeoConstraint.new twoLatitudes westQuarters true).setBoundingBox ⟨10, 0, 0, 90⟩ =
        .error .noIntersection ∧ ¬ SelectsBox twoLatitudes westQuarters true ⟨10, 0, 0, 90⟩ := by
  have hthr : (GeoConstraint.new twoLatitudes westQuarters true).setBoundingBox ⟨10, 0, 0, 90⟩ =
      .error .noIntersection := by
    decide +kernel
  refine ⟨latitudeMap_twoLatitudes, longitudeMap_westQuarters, ⟨0, ?_⟩, ?_, hthr, ?_⟩
  · decide +kernel
  · unfold Box.Latitudes
    decide +kernel
  · intro h
    obtain ⟨constraint, hok, -⟩ := h
    rw [hthr] at hok
    cases hok

end Bes.Functions.Geo
