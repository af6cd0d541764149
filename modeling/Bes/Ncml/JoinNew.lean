import Bes.Ncml.GranuleRead

/-! Reading a `joinNew` aggregation: the arrays of the datasets are the rows of the aggregated one. -/
namespace Bes.Ncml.JoinNew
open Dispatch Lib Lib.Buffer Lib.Loop List

variable {α σ : Type}

def stacked (datasets : List (Granule α)) : List Nat → Option α
  | [] => none
  | i :: address => (datasets[i]?).map fun dataset => dataset.content address

structure WellFormed (array : Aggregate α) : Prop extends Accepted array where
  size_eq : array.outer.size = array.datasets.length
  datasets_shape : ∀ dataset ∈ array.datasets,
    dataset.dims.map Dim.shape = array.inner.map Dim.shape
  template_shape : array.template.map Dim.shape = array.inner.map Dim.shape

def Inv (array : Aggregate α) (Content : σ → List α → Prop) (i : Nat) (state : State σ) : Prop :=
  ∃ done written, done ++ strided i array.outer.stop array.outer.stride = array.outer.selected
    ∧ written.map some = done.flatMap (row array.inner (stacked array.datasets))
    ∧ Content state.out written ∧ state.nextElementIndex = written.length

section

variable {array : Aggregate α} {Content : σ → List α → Prop}

theorem transferHook_eq (hfor : WellFormed array) :
    transferOutputConstraintsIntoGranuleTemplateHook array = .ok array.inner := by
  have hlen := congrArg List.length hfor.template_shape
  rw [length_map, length_map] at hlen
  unfold transferOutputConstraintsIntoGranuleTemplateHook transferArrayConstraints Aggregate.dims
  rw [if_neg (by simp [hlen]), tail_cons,
    addConstraints_eq (by rw [map_shape_reset, hfor.template_shape]) hfor.inner_valid]

theorem visit_inv (hfor : WellFormed array) (hemt : Appends emit (length array.dims) Content)
    {i : Nat} (hstp : i ≤ array.outer.stop) (hinv : Inv array Content i state) :
    ∃ next, visit array array.inner emit i state = .ok next
      ∧ Inv array Content (i + array.outer.stride) next := by
  obtain ⟨done, written, hspl, hwri, hcnt, hnxt⟩ := hinv
  have hlt : i < array.datasets.length := by
    rw [← hfor.size_eq]
    exact hstp.trans_lt hfor.stop_lt
  have hdat : array.datasets[i]? = some array.datasets[i] := getElem?_eq_getElem hlt
  have hred := readDataset_eq (hfor.datasets_shape _ (getElem_mem hlt)) hfor.inner_valid array.name
  have hlen := length_hyperslab (fun dim hdim => (hfor.inner_valid dim hdim).start_le)
    array.datasets[i].content
  have hrow : (hyperslab array.inner array.datasets[i].content).map some
      = row array.inner (stacked array.datasets) i := by
    unfold row hyperslab stacked
    dsimp only
    rw [map_slab, hdat]
    rfl
  have hcut : (done ++ [i]) ++ strided (i + array.outer.stride) array.outer.stop array.outer.stride
      = array.outer.selected := by
    rw [append_assoc, singleton_append, ← strided_cons hstp array.outer.stride_pos, hspl]
  have hwri : (written ++ hyperslab array.inner array.datasets[i].content).map some
      = (done ++ [i]).flatMap (row array.inner (stacked array.datasets)) := by
    rw [map_append, flatMap_append, hwri, hrow, flatMap_singleton]
  have hrom : written.length + (hyperslab array.inner array.datasets[i].content).length
      ≤ length array.dims := by
    rw [← length_append]
    exact hfor.length_rows hcut hwri
  obtain ⟨out, hout, hcnt⟩ := hemt state.out written _ hcnt hrom
  rw [hlen] at hout hrom
  have hfts := hrom.trans_lt hfor.length_lt
  refine ⟨⟨written.length + length array.inner, out⟩, ?_, done ++ [i], _, hcut, hwri, hcnt, ?_⟩
  · unfold visit
    rw [hdat]
    dsimp only
    rw [hred]
    dsimp only [bind, Except.bind]
    rw [hnxt, hout]
    exact if_pos hfts
  · rw [length_append, hlen]

theorem traverse_eq (hfor : WellFormed array)
    (hemt : Appends emit (length array.dims) Content) (hout : Content out []) :
    ∃ state, traverse array emit array.inner out
        = (if array.outer.NoOverflow then .ok state else .error .overflow)
      ∧ ∃ written, Content state.out written
        ∧ written.map some = hyperslab array.dims (stacked array.datasets) := by
  have hint : Inv array Content array.outer.start ⟨0, out⟩ :=
    ⟨[], [], rfl, rfl, hout, rfl⟩
  obtain ⟨state, hlop, j, hj, done, written, hspl, hwri, hcnt, hnxt⟩ :=
    outerLoop_rule hfor.start_le hfor.stop_lt hfor.size_lt _
      (fun i state hi hinv => visit_inv hfor hemt hi hinv) hint
  rw [strided_of_lt hj, append_nil] at hspl
  rw [hspl] at hwri
  have hfll : state.nextElementIndex = length array.dims := hnxt.trans (hfor.length_eq hwri)
  refine ⟨state, ?_, written, hcnt, hwri⟩
  unfold traverse
  rw [if_neg (not_not.mpr hfor.size_eq), hlop]
  split
  · dsimp only [bind, Except.bind]
    rw [if_neg (not_not.mpr hfll)]
  · rfl

end

end Bes.Ncml.JoinNew
