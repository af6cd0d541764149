import Bes.Ncml.GranuleRead

/-! Reading a `joinExisting` aggregation gives the hyperslab of the arrays of its datasets put one
behind the other. The walk over the outer dimension is cut into one walk in each dataset. -/
namespace Bes.Ncml.JoinExisting
open Dispatch Lib Lib.Buffer Lib.Loop List

variable {α σ : Type}

def concatenated : List (Granule α) → List Nat → Option α
  | [], _ => none
  | _ :: _, [] => none
  | dataset :: datasets, i :: address =>
    if i < dataset.cachedSize then some (dataset.content (i :: address))
    else concatenated datasets ((i - dataset.cachedSize) :: address)

def datasetOf : List (Granule α) → Nat → Nat
  | [], _ => 0
  | dataset :: datasets, i =>
    if i < dataset.cachedSize then 0 else datasetOf datasets (i - dataset.cachedSize) + 1

def At (datasets : List (Granule α)) (position : Position α) : Prop :=
  ∃ before, datasets = before ++ position.current :: position.following
    ∧ position.index = before.length ∧ position.head = (before.map Granule.cachedSize).sum

namespace At

variable {datasets : List (Granule α)} {position : Position α}

theorem concatenated_eq (hat : At datasets position) (hlow : position.head ≤ i)
    (hhigh : i < position.head + position.current.cachedSize) (address : List Nat) :
    concatenated datasets (i :: address)
      = some (position.current.content ((i - position.head) :: address)) := by
  obtain ⟨before, rfl, -, hhead⟩ := hat
  rw [hhead] at hlow hhigh ⊢
  clear hhead
  induction before generalizing i with
  | nil =>
    rw [map_nil, sum_nil, Nat.zero_add] at hhigh
    rw [nil_append, concatenated, if_pos hhigh]
    rfl
  | cons dataset before ih =>
    rw [map_cons, sum_cons] at hlow hhigh ⊢
    rw [cons_append, concatenated, if_neg (by omega), ih (by omega) (by omega), Nat.sub_sub]

theorem datasetOf_eq (hat : At datasets position) (hlow : position.head ≤ i)
    (hhigh : i < position.head + position.current.cachedSize) :
    datasetOf datasets i = position.index := by
  obtain ⟨before, rfl, hidx, hhead⟩ := hat
  rw [hhead] at hlow hhigh
  rw [hidx]
  clear hhead hidx
  induction before generalizing i with
  | nil =>
    rw [map_nil, sum_nil, Nat.zero_add] at hhigh
    rw [nil_append, datasetOf, if_pos hhigh]
    rfl
  | cons dataset before ih =>
    rw [map_cons, sum_cons] at hlow hhigh
    rw [cons_append, datasetOf, if_neg (by omega), ih (by omega) (by omega)]
    rfl

theorem datasetOf_lt (hat : At datasets position) (hlt : i < position.head) :
    datasetOf datasets i < position.index := by
  obtain ⟨before, rfl, hidx, hhead⟩ := hat
  rw [hhead] at hlt
  rw [hidx]
  clear hhead hidx
  induction before generalizing i with
  | nil => contradiction
  | cons dataset before ih =>
    rw [map_cons, sum_cons] at hlt
    rw [cons_append, datasetOf, length_cons]
    split
    · exact Nat.succ_pos _
    · exact Nat.succ_lt_succ (ih (by omega))

theorem getElem?_eq (hat : At datasets position) :
    datasets[position.index]? = some position.current := by
  obtain ⟨before, rfl, hidx, -⟩ := hat
  rw [hidx]
  simp

theorem mem (hat : At datasets position) : position.current ∈ datasets := by
  obtain ⟨before, rfl, -, -⟩ := hat
  simp

theorem seek_eq {head : Nat} (hat : At datasets ⟨index, head, current, following, wasRead⟩)
    (hlow : head ≤ i) (hsum : i < (datasets.map Granule.cachedSize).sum) :
    ∃ position, seek index head current wasRead (i - head) following
        = .ok (position, i - position.head) ∧ At datasets position ∧ position.head ≤ i
      ∧ i < position.head + position.current.cachedSize
      ∧ (position = ⟨index, head, current, following, wasRead⟩
        ∨ head + current.cachedSize ≤ position.head ∧ position.wasRead = false) := by
  induction following generalizing index head current wasRead with
  | nil =>
    have hlt : i < head + current.cachedSize := by
      obtain ⟨before, rfl, -, hhead⟩ := hat
      simp at hsum hhead
      omega
    rw [seek, if_pos (by omega)]
    exact ⟨_, rfl, hat, hlow, hlt, .inl rfl⟩
  | cons next following ih =>
    rw [seek]
    split
    · exact ⟨_, rfl, hat, hlow, by dsimp only; omega, .inl rfl⟩
    · have hnext : At datasets ⟨index + 1, head + current.cachedSize, next, following, false⟩ := by
        obtain ⟨before, rfl, hidx, hhead⟩ := hat
        refine ⟨before ++ [current], ?_, ?_, ?_⟩
        · simp
        · simpa using hidx
        · simpa using hhead
      obtain ⟨position, hsek, hpst, hhead, hlt, hcase⟩ := ih hnext (by omega)
      rw [Nat.sub_sub]
      refine ⟨position, hsek, hpst, hhead, hlt, .inr ?_⟩
      cases hcase with
      | inl heq => rw [heq]; exact ⟨Nat.le_refl _, rfl⟩
      | inr hmov => exact ⟨(Nat.le_add_right _ _).trans hmov.1, hmov.2⟩

end At

structure ReadsOf (datasets : List (Granule α)) (indices : List Nat) (reads : List (Nat × Dim)) :
    Prop where
  increasing : (reads.map Prod.fst).Pairwise (· < ·)
  mem_iff : ∀ index, index ∈ reads.map Prod.fst ↔ ∃ i ∈ indices, datasetOf datasets i = index
  valid : ∀ read ∈ reads, read.2.Valid
    ∧ (datasets[read.1]?).map Granule.cachedSize = some read.2.size

theorem ReadsOf.nil (datasets : List (Granule α)) : ReadsOf datasets [] [] where
  increasing := .nil
  mem_iff := by simp
  valid := by simp

theorem ReadsOf.append {datasets : List (Granule α)} {position : Position α} {before now : List Nat}
    {reads : List (Nat × Dim)} {dim : Dim} (hrea : ReadsOf datasets before reads)
    (hat : At datasets position) (hbefore : ∀ i ∈ before, i < position.head) (hne : now ≠ [])
    (hnow : ∀ i ∈ now, position.head ≤ i ∧ i < position.head + position.current.cachedSize)
    (hval : dim.Valid) (hsize : dim.size = position.current.cachedSize) :
    ReadsOf datasets (before ++ now) (reads ++ [(position.index, dim)]) where
  increasing := by
    rw [map_append, pairwise_append]
    refine ⟨hrea.increasing, pairwise_singleton _ _, ?_⟩
    intro earlier hear index hidx
    obtain ⟨i, hi, rfl⟩ := (hrea.mem_iff earlier).mp hear
    rw [mem_singleton.mp hidx]
    exact hat.datasetOf_lt (hbefore i hi)
  mem_iff := by
    intro index
    obtain ⟨first, hfirst⟩ := exists_mem_of_ne_nil now hne
    have heq := fun i hi => hat.datasetOf_eq (hnow i hi).1 (hnow i hi).2
    rw [map_append, mem_append, hrea.mem_iff]
    constructor
    · rintro (⟨i, hi, hidx⟩ | hidx)
      · exact ⟨i, mem_append_left _ hi, hidx⟩
      · rw [mem_singleton.mp hidx]
        exact ⟨first, mem_append_right _ hfirst, heq first hfirst⟩
    · rintro ⟨i, hi, hidx⟩
      cases mem_append.mp hi with
      | inl hold => exact .inl ⟨i, hold, hidx⟩
      | inr hnew =>
        rw [heq i hnew] at hidx
        exact .inr (mem_singleton.mpr hidx.symm)
  valid := by
    intro read hread
    cases mem_append.mp hread with
    | inl hold => exact hrea.valid read hold
    | inr hnew =>
      rw [mem_singleton.mp hnew, hat.getElem?_eq, hsize]
      exact ⟨hval, rfl⟩

/-- What the class takes for granted of the object: the sizes make up the outer dimension, and the
arrays of the datasets and the template have the shape that the aggregation was made for. -/
structure WellFormed (array : Aggregate α) : Prop extends Accepted array where
  sizes_sum : (array.datasets.map Granule.cachedSize).sum = array.outer.size
  datasets_shape : ∀ dataset ∈ array.datasets, dataset.dims.map Dim.shape
      = (array.outer.name, dataset.cachedSize) :: array.inner.map Dim.shape
  template_shape : ∃ dim rest, array.template = dim :: rest ∧ dim.name = array.outer.name
    ∧ rest.map Dim.shape = array.inner.map Dim.shape

def Position.within (position : Position α) (j : Nat) : Bool :=
  decide (j < position.head + position.current.cachedSize)

/-- The selected outer indices that are left when the loop variable is `i`: those of a dataset
that has been read are done. -/
def remaining (outer : Dim) (position : Position α) (i : Nat) : List Nat :=
  let rest := strided i outer.stop outer.stride
  if position.wasRead then rest.dropWhile position.within else rest

structure Inv (array : Aggregate α) (Content : σ → List α → Prop) (i : Nat) (state : State α σ) :
    Prop where
  position_at : At array.datasets state.position
  head_le : state.position.head ≤ i
  template_eq : ∃ dim, state.template = dim :: array.inner ∧ dim.name = array.outer.name
  progress : ∃ done written, done ++ remaining array.outer state.position i = array.outer.selected
    ∧ (∀ j ∈ done, state.position.wasRead = true
      ∧ j < state.position.head + state.position.current.cachedSize)
    ∧ written.map some = done.flatMap (row array.inner (concatenated array.datasets))
    ∧ Content state.out written ∧ state.nextOutputBufferElementIndex = written.length
    ∧ ReadsOf array.datasets done state.reads

section

variable {array : Aggregate α} {Content : σ → List α → Prop} {position : Position α}

theorem addConstraint_local (outer : Dim) (hlow : position.head ≤ i)
    (hhigh : i < position.head + position.current.cachedSize) (hstp : i ≤ outer.stop) (dim : Dim)
    (hdim : dim.size = position.current.cachedSize) :
    ∃ inside : Dim, dim.addConstraint (i - position.head)
        (min outer.stride position.current.cachedSize)
        (min (outer.stop - position.head) (position.current.cachedSize - 1)) = .ok inside
      ∧ inside.Valid ∧ inside.shape = (dim.name, position.current.cachedSize)
      ∧ inside.selected.map (· + position.head)
        = (strided i outer.stop outer.stride).takeWhile position.within := by
  have hpos := outer.stride_pos
  have hacc : i - position.head ≤ min (outer.stop - position.head) (position.current.cachedSize - 1)
      ∧ min (outer.stop - position.head) (position.current.cachedSize - 1) < dim.size
      ∧ min outer.stride position.current.cachedSize ≤ dim.size
      ∧ 0 < min outer.stride position.current.cachedSize := by omega
  unfold Dim.addConstraint
  rw [dif_pos hacc]
  refine ⟨_, rfl, ⟨hacc.1, hacc.2.1, hacc.2.2.1⟩, ?_, ?_⟩
  · exact congrArg (dim.name, ·) hdim
  · unfold Dim.selected Position.within
    dsimp only
    rw [strided_min hpos (by omega), ← strided_add, takeWhile_strided hpos (by omega)]
    congr 1 <;> omega

theorem read_local (hfor : WellFormed array) (hat : At array.datasets position)
    (hval : inside.Valid) (hsha : inside.shape = (array.outer.name, position.current.cachedSize)) :
    ∃ values, readDatasetArrayDataForAggregation (inside :: array.inner) array.name position.current
        = .ok values ∧ values.length = length (inside :: array.inner)
      ∧ values.map some = (inside.selected.map (· + position.head)).flatMap
        (row array.inner (concatenated array.datasets)) := by
  have hval : ∀ dim ∈ inside :: array.inner, dim.Valid :=
    forall_mem_cons.mpr ⟨hval, hfor.inner_valid⟩
  refine ⟨_, readDataset_eq ?_ hval array.name, ?_, ?_⟩
  · rw [hfor.datasets_shape _ hat.mem, map_cons, hsha]
  · exact length_hyperslab (fun dim hdim => (hval dim hdim).start_le) _
  · unfold hyperslab
    rw [map_slab, map_cons, slab_cons, flatMap_map]
    apply flatMap_congr
    intro index hidx
    have hle := ((mem_strided inside.stride_pos index).mp hidx).2.1
    have hlt : index < position.current.cachedSize := by
      rw [← (Prod.mk.inj hsha).2]
      exact hle.trans_lt (hval inside mem_cons_self).stop_lt
    apply congrArg (slab _)
    funext address
    rw [hat.concatenated_eq (Nat.le_add_left _ _) (by omega), Nat.add_sub_cancel]

theorem dropWhile_within (outer : Dim) (hstp : i ≤ outer.stop)
    (hhigh : i < position.head + position.current.cachedSize) :
    (strided i outer.stop outer.stride).dropWhile position.within
      = (strided (i + outer.stride) outer.stop outer.stride).dropWhile position.within := by
  have hwit : position.within i = true := decide_eq_true hhigh
  rw [strided_cons hstp outer.stride_pos, dropWhile_cons, hwit, if_pos rfl]

theorem mem_takeWhile_within {outer : Dim} (hhead : position.head ≤ i) {j : Nat}
    (hj : j ∈ (strided i outer.stop outer.stride).takeWhile position.within) :
    position.head ≤ j ∧ j < position.head + position.current.cachedSize := by
  have hmem := (mem_strided outer.stride_pos j).mp ((takeWhile_sublist _).subset hj)
  have hwit : position.within j = true := mem_takeWhile_imp hj
  exact ⟨hhead.trans hmem.1, of_decide_eq_true hwit⟩

theorem remaining_of_passed
    (hpas : position.wasRead = true → position.head + position.current.cachedSize ≤ i) :
    remaining array.outer position i = strided i array.outer.stop array.outer.stride := by
  unfold remaining
  split
  next hread =>
    exact dropWhile_strided array.outer.stride_pos (hpas hread) _
  · rfl

theorem visit_unread (hfor : WellFormed array)
    (hemt : Appends emit (length array.dims) Content) (hat : At array.datasets position)
    (hhead : position.head ≤ i) (hhigh : i < position.head + position.current.cachedSize)
    (hstp : i ≤ array.outer.stop) {outerDim : Dim} (hname : outerDim.name = array.outer.name)
    (hsplit : done ++ strided i array.outer.stop array.outer.stride = array.outer.selected)
    (hear : ∀ j ∈ done, j < position.head)
    (hwritten : written.map some = done.flatMap (row array.inner (concatenated array.datasets)))
    (hcnt : Content out written) (hrea : ReadsOf array.datasets done reads) : ∃ inside values next,
      Dim.addConstraint { outerDim with size := position.current.cachedSize } (i - position.head)
          (min array.outer.stride position.current.cachedSize)
          (min (array.outer.stop - position.head) (position.current.cachedSize - 1)) = .ok inside
      ∧ readDatasetArrayDataForAggregation (inside :: array.inner) array.name position.current
          = .ok values
      ∧ emit out written.length (length (inside :: array.inner)) values = .ok next
      ∧ Inv array Content (i + array.outer.stride)
          { position := { position with wasRead := true }
            template := inside :: array.inner
            reads := reads ++ [(position.index, inside)]
            nextOutputBufferElementIndex :=
              (written.length + length (inside :: array.inner)) % 2 ^ 32
            out := next } := by
  obtain ⟨inside, hins, hval, hsha, hselect⟩ := addConstraint_local array.outer hhead
    hhigh hstp { outerDim with size := position.current.cachedSize } rfl
  dsimp only at hsha
  rw [hname] at hsha
  obtain ⟨values, hvalues, hlen, hrws⟩ := read_local hfor hat hval hsha
  rw [hselect] at hrws
  have hcut : (done ++ (strided i array.outer.stop array.outer.stride).takeWhile position.within)
      ++ (strided i array.outer.stop array.outer.stride).dropWhile position.within
      = array.outer.selected := by
    rw [append_assoc, takeWhile_append_dropWhile, hsplit]
  have hwritten : (written ++ values).map some
      = (done ++ (strided i array.outer.stop array.outer.stride).takeWhile position.within).flatMap
        (row array.inner (concatenated array.datasets)) := by
    rw [map_append, flatMap_append, hwritten, hrws]
  have hroom : written.length + values.length ≤ length array.dims := by
    rw [← length_append]
    exact hfor.length_rows hcut hwritten
  obtain ⟨next, hnext, hcnt⟩ := hemt out written values hcnt hroom
  rw [hlen] at hnext
  refine ⟨inside, values, next, hins, hvalues, hnext, hat, by dsimp only; omega,
    ⟨inside, rfl, (Prod.mk.inj hsha).1⟩,
    done ++ (strided i array.outer.stop array.outer.stride).takeWhile position.within,
    written ++ values, ?_, ?_, hwritten, hcnt, ?_, ?_⟩
  · rw [← hcut, dropWhile_within array.outer hstp hhigh]
    rfl
  · intro j hj
    refine ⟨rfl, ?_⟩
    cases mem_append.mp hj with
    | inl hold => exact (hear j hold).trans_le (Nat.le_add_right _ _)
    | inr hnew => exact (mem_takeWhile_within hhead hnew).2
  · have hlt := hfor.length_lt
    rw [length_append, ← hlen]
    exact Nat.mod_eq_of_lt (by omega)
  · refine hrea.append hat hear ?_ (fun j => mem_takeWhile_within hhead) hval (Prod.mk.inj hsha).2
    have hwit : position.within i = true := decide_eq_true hhigh
    rw [strided_cons hstp array.outer.stride_pos, takeWhile_cons, hwit, if_pos rfl]
    exact cons_ne_nil _ _

theorem visit_inv (hfor : WellFormed array) (hemt : Appends emit (length array.dims) Content)
    (hstp : i ≤ array.outer.stop) (hinv : Inv array Content i state) :
    ∃ next, visit array.name array.outer emit i state = .ok next
      ∧ Inv array Content (i + array.outer.stride) next := by
  obtain ⟨hat, hlow, ⟨outerDim, htem, hname⟩, done, written, hsplit, hdon, hwritten, hcnt,
    hnext, hrea⟩ := hinv
  have hsum : i < (array.datasets.map Granule.cachedSize).sum := by
    rw [hfor.sizes_sum]
    exact hstp.trans_lt hfor.stop_lt
  obtain ⟨position, hsek, hpst, hhead, hhigh, hcase⟩ := hat.seek_eq hlow hsum
  unfold visit
  dsimp only
  rw [hsek]
  dsimp only [bind, Except.bind]
  cases hread : position.wasRead with
  | true =>
    -- the walk has not left a dataset that was read
    have hsame : position = state.position := hcase.resolve_right (by simp [hread])
    have hrest : remaining array.outer position i
        = remaining array.outer position (i + array.outer.stride) := by
      unfold remaining
      rw [if_pos hread, if_pos hread, dropWhile_within array.outer hstp hhigh]
    refine ⟨_, rfl, hpst, by dsimp only; omega, ⟨outerDim, htem, hname⟩, done, written, ?_⟩
    rw [← hrest, hsame]
    exact ⟨hsplit, hdon, hwritten, hcnt, hnext, hrea⟩
  | false =>
    have hwas : state.position.wasRead = true →
        state.position.head + state.position.current.cachedSize ≤ position.head := by
      intro hwas
      cases hcase with
      | inl hsame => rw [hsame, hwas] at hread; contradiction
      | inr hmov => exact hmov.1
    rw [remaining_of_passed fun hread => (hwas hread).trans hhead] at hsplit
    have hear : ∀ j ∈ done, j < position.head :=
      fun j hj => (hdon j hj).2.trans_le (hwas (hdon j hj).1)
    obtain ⟨inside, values, out, hins, hvalues, hout, hinv⟩ := visit_unread hfor hemt
      hpst hhead hhigh hstp hname hsplit hear hwritten hcnt hrea
    rw [htem]
    dsimp only
    rw [hins]
    dsimp only
    rw [hvalues]
    dsimp only
    rw [hnext, hout]
    exact ⟨_, rfl, hinv⟩

end

section

variable {array : Aggregate α}

theorem transferHook_eq (hfor : WellFormed array) :
    ∃ dim, transferOutputConstraintsIntoGranuleTemplateHook array = .ok (dim :: array.inner)
      ∧ dim.name = array.outer.name := by
  obtain ⟨dim, rest, htem, hname, hsha⟩ := hfor.template_shape
  refine ⟨dim.reset, ?_, hname⟩
  have hlen := congrArg List.length hsha
  rw [length_map, length_map] at hlen
  unfold transferOutputConstraintsIntoGranuleTemplateHook transferArrayConstraints Aggregate.dims
  dsimp only
  rw [htem, if_neg (by simp [hlen]), map_cons, tail_cons, tail_cons,
    addConstraints_eq (by rw [map_shape_reset, hsha]) hfor.inner_valid]
  rfl

theorem traverse_eq (hfor : WellFormed array)
    (hemt : Appends emit (length array.dims) Content) (hout : Content out []) (hname : dim.name = array.outer.name) :
    ∃ state, traverse array emit (dim :: array.inner) out
        = (if array.outer.NoOverflow then .ok state else .error .overflow)
      ∧ (∃ inside, state.template = inside :: array.inner ∧ inside.name = array.outer.name)
      ∧ ReadsOf array.datasets array.outer.selected state.reads
      ∧ ∃ written, Content state.out written ∧ state.nextOutputBufferElementIndex = written.length
        ∧ written.map some = hyperslab array.dims (concatenated array.datasets) := by
  cases hdots : array.datasets with
  | nil =>
    have hsum := hfor.sizes_sum
    have hlt := hfor.stop_lt
    rw [hdots, map_nil, sum_nil] at hsum
    omega
  | cons current following =>
    have hint : Inv array Content array.outer.start
        ⟨⟨0, 0, current, following, false⟩, dim :: array.inner, [], 0, out⟩ := by
      refine ⟨⟨[], hdots, rfl, rfl⟩, Nat.zero_le _, ⟨dim, rfl, hname⟩, [], [], rfl, ?_, rfl,
        hout, rfl, .nil _⟩
      intro j hj
      contradiction
    obtain ⟨state, hloop, j, hj, hlast⟩ := outerLoop_rule hfor.start_le hfor.stop_lt
      hfor.size_lt _ (fun i state hi hinv => visit_inv hfor hemt hi hinv) hint
    obtain ⟨-, -, htem, done, written, hsplit, -, hwritten, hcnt, hnext, hrea⟩ := hlast
    have hempty : remaining array.outer state.position j = [] := by
      unfold remaining
      rw [strided_of_lt hj]
      exact ite_self _
    rw [hempty, append_nil] at hsplit
    rw [hsplit] at hwritten hrea
    rw [← hdots]
    refine ⟨state, ?_, htem, hrea, written, hcnt, hnext, hwritten⟩
    unfold traverse
    rw [hdots]
    dsimp only
    rw [hloop]
    split <;> rfl

theorem readHook_eq (hfor : WellFormed array) (hname : dim.name = array.outer.name) :
    ∃ state, readConstrainedGranuleArraysAndAggregateDataHook array (dim :: array.inner)
        = (if array.outer.NoOverflow then .ok state else .error .overflow)
      ∧ state.out = hyperslab array.dims (concatenated array.datasets)
      ∧ state.nextOutputBufferElementIndex = length array.dims
      ∧ ReadsOf array.datasets array.outer.selected state.reads := by
  have hstored : Stored (length array.dims) array.capacity ([] : List α) :=
    ⟨length_replicate, nil_prefix⟩
  obtain ⟨state, htrv, -, hrea, written, ⟨hlen, hout⟩, hnext, hwritten⟩ :=
    traverse_eq hfor (store_appends _) hstored hname
  have hfill := hfor.length_eq hwritten
  refine ⟨state, htrv, ?_, hnext.trans hfill, hrea⟩
  rw [← hwritten]
  exact (hout.eq_of_length (by rw [length_map, hfill, hlen])).symm

end

def Concatenates (array : Aggregate α) : Prop :=
  ∃ template state, transferOutputConstraintsIntoGranuleTemplateHook array = .ok template
    ∧ readConstrainedGranuleArraysAndAggregateDataHook array template = .ok state
    ∧ state.out = hyperslab array.dims (concatenated array.datasets)
    ∧ state.nextOutputBufferElementIndex = length array.dims
    ∧ ReadsOf array.datasets array.outer.selected state.reads

theorem Concatenates.noOverflow (hfor : WellFormed array)
    (hcon : Concatenates array) : array.outer.NoOverflow := by
  obtain ⟨dim, htra, hname⟩ := transferHook_eq hfor
  obtain ⟨state, hread, -⟩ := readHook_eq hfor hname
  obtain ⟨template, other, hother, hsta, -⟩ := hcon
  rw [htra] at hother
  rw [← Except.ok.inj hother, hread] at hsta
  by_contra hovf
  rw [if_neg hovf] at hsta
  contradiction

theorem concatenates_iff (array : Aggregate α) (hformed : WellFormed array) :
    Concatenates array ↔ array.outer.NoOverflow := by
  refine ⟨Concatenates.noOverflow hformed, fun hfits => ?_⟩
  obtain ⟨dim, htra, hname⟩ := transferHook_eq hformed
  obtain ⟨state, hread, hout, hnext, hrea⟩ := readHook_eq hformed hname
  rw [if_pos hfits] at hread
  exact ⟨_, state, htra, hread, hout, hnext, hrea⟩

def sampleDim (name : String) (size start stride stop : Nat) (hstride : 0 < stride) : Dim :=
  ⟨name.toList, size, start, stride, stop, hstride⟩

def sampleDataset (size : Nat) (first : Nat) : Granule Nat where
  location := []
  cachedSize := size
  dims := [sampleDim "time" size 0 1 0 (by decide), sampleDim "x" 2 0 1 0 (by decide)]
  content := fun address => address.foldl (fun sum i => 10 * sum + i) first

def sampleArray : Aggregate Nat where
  name := "u".toList
  element := .cardinal
  outer := sampleDim "time" 5 1 2 4 (by decide)
  inner := [sampleDim "x" 2 0 1 1 (by decide)]
  datasets := [sampleDataset 2 1, sampleDataset 0 2, sampleDataset 3 3]
  template := [sampleDim "time" 2 0 1 1 (by decide), sampleDim "x" 2 0 1 1 (by decide)]
  requested := true
  values := none

theorem sampleArray_wellFormed : WellFormed sampleArray := by
  refine ⟨⟨by decide, by decide, by decide, ?_, by decide⟩, by decide, ?_, ⟨_, _, rfl, rfl, rfl⟩⟩
  · intro dim hdim
    rw [mem_singleton.mp hdim]
    exact ⟨by decide, by decide, by decide⟩
  · intro dataset hdat
    simp only [sampleArray, mem_cons, not_mem_nil, or_false] at hdat
    rcases hdat with rfl | rfl | rfl <;> rfl

theorem concatenates_iff_sample : Concatenates sampleArray :=
  (concatenates_iff sampleArray sampleArray_wellFormed).mpr (by decide)

def longArray : Aggregate Nat where
  name := "u".toList
  element := .cardinal
  outer := sampleDim "time" (2 ^ 30 + 1) (2 ^ 30) (2 ^ 30) (2 ^ 30) (by decide)
  inner := []
  datasets := [{
    location := []
    cachedSize := 2 ^ 30 + 1
    dims := [sampleDim "time" (2 ^ 30 + 1) 0 1 0 (by decide)]
    content := fun _ => 0 }]
  template := [sampleDim "time" (2 ^ 30 + 1) 0 1 0 (by decide)]
  requested := true
  values := none

theorem longArray_wellFormed : WellFormed longArray := by
  refine ⟨⟨by decide, by decide, by decide, by simp [longArray], by decide⟩, by decide, ?_,
    ⟨_, _, rfl, rfl, rfl⟩⟩
  intro dataset hdat
  rw [mem_singleton.mp hdat]
  rfl

/-- The loop variable goes from `2 ^ 30` to `2 ^ 31`. -/
theorem longArray_overflows : WellFormed longArray ∧ ¬ Concatenates longArray := by
  refine ⟨longArray_wellFormed, fun hcon => ?_⟩
  exact absurd (hcon.noOverflow longArray_wellFormed) (by decide)

end Bes.Ncml.JoinExisting
