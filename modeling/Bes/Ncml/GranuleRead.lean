import Bes.Ncml.Aggregation

/-! What the two kinds of aggregation have in common: the transfer of constraints to a template of
the right shape, the read of one dataset, the two ways to pass its values on, and the loop over the
outer dimension. -/
namespace Bes.Ncml
open Dispatch Lib Lib.Buffer Lib.Loop List

variable {α σ : Type}

theorem Dim.ext_of_shape {second : Dim} (hsha : first.shape = second.shape)
    (hsta : first.start = second.start) (hstr : first.stride = second.stride)
    (hstp : first.stop = second.stop) : first = second := by
  cases second
  obtain ⟨hnam, hsiz⟩ := Prod.mk.inj hsha
  subst hnam hsiz hsta hstr hstp
  rfl

theorem Dim.addConstraint_eq (hval : dim.Valid) {other : Dim} (hsha : other.shape = dim.shape) :
    other.addConstraint dim.start dim.stride dim.stop = .ok dim := by
  have hsiz : other.size = dim.size := (Prod.mk.inj hsha).2
  unfold Dim.addConstraint
  rw [dif_pos (by rw [hsiz]; exact ⟨hval.start_le, hval.stop_lt, hval.stride_le, dim.stride_pos⟩)]
  exact congrArg _ (Dim.ext_of_shape hsha rfl rfl rfl)

theorem addConstraints_eq {toArray : List Dim} (hsha : toArray.map Dim.shape = fromArray.map Dim.shape)
    (hval : ∀ dim ∈ fromArray, dim.Valid) : addConstraints toArray fromArray = .ok fromArray := by
  induction fromArray generalizing toArray with
  | nil =>
    rw [map_nil, map_eq_nil_iff] at hsha
    rw [hsha]
    rfl
  | cons dim fromArray ih =>
    cases toArray with
    | nil => contradiction
    | cons other toArray =>
      obtain ⟨hfst, hrst⟩ := cons.inj hsha
      rw [addConstraints, Dim.addConstraint_eq (hval dim mem_cons_self) hfst,
        ih hrst fun other hoth => hval other (mem_cons_of_mem _ hoth)]
      rfl

theorem map_shape_reset (dims : List Dim) : (dims.map Dim.reset).map Dim.shape = dims.map Dim.shape := by
  rw [map_map]
  rfl

theorem length_selected {dim : Dim} (hle : dim.start ≤ dim.stop) :
    dim.selected.length = dim.constrainedSize := length_strided hle dim.stride

theorem length_hyperslab (hle : ∀ dim ∈ dims, dim.start ≤ dim.stop)
    (content : List Nat → α) : (hyperslab dims content).length = length dims := by
  unfold hyperslab length
  rw [length_slab, map_map]
  exact congrArg prod (map_congr_left fun dim hdim => length_selected (hle dim hdim))

def row (inner : List Dim) (content : List Nat → α) (i : Nat) : List α :=
  hyperslab inner fun address => content (i :: address)

theorem hyperslab_cons (outer : Dim) (inner : List Dim) (content : List Nat → α) :
    hyperslab (outer :: inner) content = outer.selected.flatMap (row inner content) := rfl

/-- The constraint of the array has been accepted, and its length is an `int`. -/
structure Accepted (array : Aggregate α) : Prop where
  start_le : array.outer.start ≤ array.outer.stop
  stop_lt : array.outer.stop < array.outer.size
  size_lt : array.outer.size < 2 ^ 31
  inner_valid : ∀ dim ∈ array.inner, dim.Valid
  length_lt : length array.dims < 2 ^ 31

theorem Accepted.start_le_stop (hacc : Accepted array) : ∀ dim ∈ array.dims, dim.start ≤ dim.stop :=
  forall_mem_cons.mpr ⟨hacc.start_le, fun dim hdim => (hacc.inner_valid dim hdim).start_le⟩

theorem Accepted.length_rows (hacc : Accepted array) {after : List Nat} {written : List α}
    (hspl : before ++ after = array.outer.selected)
    (hwri : written.map some = before.flatMap (row array.inner content)) :
    written.length ≤ length array.dims := by
  rw [← length_hyperslab hacc.start_le_stop content, Aggregate.dims, hyperslab_cons, ← hspl,
    flatMap_append, ← hwri, length_append, length_map]
  exact Nat.le_add_right _ _

theorem Accepted.length_eq (hacc : Accepted array) {written : List α}
    (hwri : written.map some = hyperslab array.dims content) : written.length = length array.dims := by
  rw [← length_hyperslab hacc.start_le_stop content, ← hwri, length_map]

theorem readDataset_eq (hsha : dataset.dims.map Dim.shape = template.map Dim.shape)
    (hval : ∀ dim ∈ template, dim.Valid) (varName : Str) :
    readDatasetArrayDataForAggregation template varName dataset
      = .ok (hyperslab template dataset.content) := by
  have hlen : dataset.dims.length = template.length := by
    have hlen := congrArg List.length hsha
    rwa [length_map, length_map] at hlen
  have htra : transferArrayConstraints dataset.dims template false false = .ok template := by
    unfold transferArrayConstraints
    rw [if_neg (by simp [hlen]), addConstraints_eq _ hval]
    rw [map_shape_reset, hsha]
  unfold readDatasetArrayDataForAggregation
  rw [htra]
  simp [doShapesMatch, bind, Except.bind]

def Appends (emit : Emit α σ) (capacity : Nat) (Content : σ → List α → Prop) : Prop :=
  ∀ out written values, Content out written → written.length + values.length ≤ capacity →
    ∃ next, emit out written.length values.length values = .ok next
      ∧ Content next (written ++ values)

def Stored (capacity : Nat) (output : List (Option α)) (written : List α) : Prop :=
  output.length = capacity ∧ written.map some <+: output

theorem store_appends (capacity : Nat) : Appends (store : Emit α _) capacity (Stored capacity) := by
  rintro output written values ⟨hlen, rest, hrst⟩ hrom
  have hfts : written.length + (values.map some).length ≤ output.length := by
    rw [length_map, hlen]
    exact hrom
  have hcpy := memcpy_whole output (values.map some) written.length hfts
  rw [length_map] at hcpy
  refine ⟨overwrite output written.length (values.map some), ?_, ?_, ?_⟩
  · unfold store
    rw [hcpy]
  · rw [length_overwrite hfts, hlen]
  · have hfro : output.take written.length = written.map some := by
      rw [← hrst, take_left' (length_map _)]
    rw [overwrite, hfro, map_append]
    exact prefix_append _ _

/-- The length has been announced and a part put for each of the datasets read so far. -/
def Announced (partOf : PartOf α) (element : Element) (num : Nat) (puts : List (Put α))
    (written : List α) : Prop :=
  ∃ granules : List (List α), granules.flatten = written ∧ puts = .vectorStart num
    :: granules.map fun values => .vectorPart (partOf element values values.length)

theorem put_appends (partOf : PartOf α) (element : Element) (num capacity : Nat) :
    Appends (put partOf element) capacity (Announced partOf element num) := by
  rintro puts written values ⟨granules, hgranules, hputs⟩ -
  refine ⟨_, rfl, granules ++ [values], ?_, ?_⟩
  · rw [flatten_append, hgranules, flatten_singleton]
  · rw [hputs, map_append]
    rfl

def Dim.lastIndex (outer : Dim) (i : Nat) : Nat := i + (outer.stop - i) / outer.stride * outer.stride

theorem outerLoop_from
    (hstp : outer.stop < outer.size) (hsiz : outer.size < 2 ^ 31) (Inv : Nat → σ → Prop)
    (hvis : ∀ i state, i ≤ outer.stop → Inv i state →
      ∃ next, visit i state = .ok next ∧ Inv (i + outer.stride) next)
    {i : Nat} (hi : i ≤ outer.stop) (hinv : Inv i state) : ∃ last, outerLoop outer visit i state
        = (if outer.lastIndex i + outer.stride < 2 ^ 31 then .ok last else .error .overflow)
      ∧ ∃ j, outer.stop < j ∧ Inv j last := by
  have hpos := outer.stride_pos
  induction hlen : outer.stop - i using Nat.strongRecOn generalizing i state with
  | _ length ih =>
    obtain ⟨next, hnxt, hinv⟩ := hvis i state hi hinv
    rw [outerLoop, if_pos ⟨hi, by omega⟩, hnxt]
    dsimp only
    by_cases hmor : i + outer.stride ≤ outer.stop
    · obtain ⟨last, hlop, hlst⟩ := ih (outer.stop - (i + outer.stride)) (by omega) hmor hinv rfl
      have hidx : outer.lastIndex (i + outer.stride) = outer.lastIndex i := by
        unfold Dim.lastIndex
        rw [Nat.div_eq_sub_div hpos (by omega : outer.stride ≤ outer.stop - i), Nat.sub_sub,
          Nat.add_one_mul]
        omega
      rw [hidx] at hlop
      rw [if_pos (by omega)]
      exact ⟨last, hlop, hlst⟩
    · have hidx : outer.lastIndex i = i := by
        unfold Dim.lastIndex
        rw [Nat.div_eq_of_lt (by omega)]
        omega
      have hend : outerLoop outer visit (i + outer.stride) next = .ok next := by
        rw [outerLoop, if_neg fun hle => hmor hle.1]
      refine ⟨next, ?_, i + outer.stride, by omega, hinv⟩
      rw [hidx, hend]

/-- The loop variable fits in an `int` when it leaves the range. -/
def Dim.NoOverflow (outer : Dim) : Prop :=
  outer.lastIndex outer.start + outer.stride < 2 ^ 31

instance (outer : Dim) : Decidable outer.NoOverflow := Nat.decLt _ _

theorem outerLoop_rule (hsta : outer.start ≤ outer.stop) (hstp : outer.stop < outer.size)
    (hsiz : outer.size < 2 ^ 31) (Inv : Nat → σ → Prop) (hvis : ∀ i state, i ≤ outer.stop → Inv i state →
      ∃ next, visit i state = .ok next ∧ Inv (i + outer.stride) next) (hinv : Inv outer.start state) :
    ∃ last, outerLoop outer visit outer.start state
        = (if outer.NoOverflow then .ok last else .error .overflow) ∧ ∃ j, outer.stop < j ∧ Inv j last :=
  outerLoop_from hstp hsiz Inv hvis hsta hinv

end Bes.Ncml
