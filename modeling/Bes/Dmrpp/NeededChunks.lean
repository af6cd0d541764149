import Bes.Dmrpp.Hyperslab

/-! Which chunks `find_needed_chunks` asks for although they hold no selected element. In the outer
dimensions a loop over the selected indices decides; in the last dimension only comparisons do. -/
namespace Bes.Dmrpp.NeededChunks
open Dmrpp.Array Dmrpp.ConstrainedRead Dmrpp.Hyperslab List

variable {array : DmrppArray} {chunk : Chunk}

def next (axis : Axis) : Nat := axis.chunkOrigin + axis.chunkStart

def Meets (axis : Axis) : Prop := ∃ k, axis.Covers k

/-- The comparisons let the chunk through, and its next index is the one just behind the chunk or lies
behind the end of the constraint. -/
def Grazes (axis : Axis) : Prop :=
  axis.chunkOrigin ≤ axis.thisDim.stop ∧ next axis ≤ axis.chunkOrigin + axis.chunkSize ∧
    (next axis = axis.chunkOrigin + axis.chunkSize ∨ axis.thisDim.stop < next axis)

instance (axis : Axis) : Decidable (Grazes axis) := inferInstanceAs (Decidable (_ ∧ _))

def HoldsSelected (array : DmrppArray) (chunk : Chunk) : Prop :=
  ∀ axis ∈ axesAt array chunk.positionInArray, Meets axis

def Exact (array : DmrppArray) (chunk : Chunk) : Prop :=
  ∀ address, ∃ answer address',
    findNeededChunks array chunk array.lastDim 0 address = some (answer, address') ∧
      (answer = some chunk ↔ HoldsSelected array chunk) ∧
      (answer = none ↔ ¬ HoldsSelected array chunk)

def Superfluous (array : DmrppArray) (chunk : Chunk) : Prop :=
  ∃ init last, axesAt array chunk.positionInArray = init ++ [last] ∧
    (∀ axis ∈ init, Meets axis) ∧ Grazes last

theorem meets_iff (axis : Axis) :
    Meets axis ↔ next axis < axis.chunkOrigin + axis.chunkSize ∧ next axis ≤ axis.thisDim.stop := by
  constructor
  · rintro ⟨k, hlow, hhigh, hstep⟩
    have hlea := getChunkStart_least axis.thisDim axis.chunkOrigin (Nat.add_sub_of_le hlow).symm
    change axis.chunkStart ≤ _ at hlea
    unfold next
    omega
  · rintro ⟨hins, hstep⟩
    obtain ⟨k, hselect⟩ := getChunkStart_selected axis.thisDim axis.chunkOrigin
    refine ⟨k, ?_, ?_, ?_⟩
    · rw [hselect]
      exact Nat.le_add_right _ _
    · rwa [hselect]
    · rwa [hselect]

theorem kept_iff (axis : Axis) : axis.Kept ↔
      axis.chunkOrigin ≤ axis.thisDim.stop ∧ next axis ≤ axis.chunkOrigin + axis.chunkSize := by
  obtain ⟨k, hselect⟩ := getChunkStart_selected axis.thisDim axis.chunkOrigin
  have hsta : axis.thisDim.start ≤ axis.thisDim.select k := Nat.le_add_right _ _
  change _ = axis.chunkOrigin + axis.chunkStart at hselect
  unfold Axis.Kept next
  omega

theorem kept_iff_meets_or_grazes (axis : Axis) : axis.Kept ↔ Meets axis ∨ Grazes axis := by
  have horigin : axis.chunkOrigin ≤ next axis := Nat.le_add_right _ _
  rw [kept_iff, meets_iff, Grazes]
  omega

theorem not_meets_of_grazes (hgraph : Grazes axis) : ¬ Meets axis := by
  rw [meets_iff]
  unfold Grazes at hgraph
  omega

theorem chunkIndices_ne_nil_iff (hsize : 0 < axis.chunkSize) (hkept : axis.Kept) :
    axis.chunkIndices ≠ [] ↔ Meets axis := by
  have hstep := ((kept_iff axis).mp hkept).1
  constructor
  · intro hne
    obtain ⟨p, hp⟩ := exists_mem_of_ne_nil _ hne
    exact ⟨_, (Axis.covers_iff hsize hstep _).mpr ⟨p, hp, rfl⟩⟩
  · rintro ⟨k, hcover⟩
    obtain ⟨p, hp, -⟩ := (Axis.covers_iff hsize hstep k).mp hcover
    exact ne_nil_of_mem hp

theorem needed_iff (hsize : ∀ axis ∈ init, 0 < axis.chunkSize) :
    Needed (init ++ [last]) ↔ (∀ axis ∈ init, Meets axis) ∧ last.Kept := by
  induction init with
  | nil => simp [Needed]
  | cons axis init ih =>
    have hrest := ih fun other hother => hsize other (mem_cons_of_mem _ hother)
    have hunf : Needed (axis :: (init ++ [last])) ↔
        axis.Kept ∧ axis.chunkIndices ≠ [] ∧ Needed (init ++ [last]) := by
      cases init <;> rfl
    rw [cons_append, hunf, hrest, forall_mem_cons, and_assoc]
    constructor
    · rintro ⟨hkept, hloop, hote⟩
      exact ⟨(chunkIndices_ne_nil_iff (hsize axis mem_cons_self) hkept).mp hloop, hote⟩
    · rintro ⟨hmee, hote⟩
      have hkept := (kept_iff_meets_or_grazes axis).mpr (.inl hmee)
      exact ⟨hkept, (chunkIndices_ne_nil_iff (hsize axis mem_cons_self) hkept).mpr hmee, hote⟩

theorem findNeededChunks_axes (hof : AxesOf array chunk (init ++ [last])) (address : List Nat) :
    ∃ address', findNeededChunks array chunk array.lastDim 0 address =
      some (if Needed (init ++ [last]) then some chunk else none, address') := by
  have hlast : array.lastDim = init.length := by
    have hlen := congrArg length hof.sizes
    rw [length_map, length_append, length_singleton] at hlen
    unfold DmrppArray.lastDim
    omega
  rw [hlast]
  cases init with
  | nil => exact findNeededChunks_eq hof [] last [] address rfl
  | cons axis init =>
    have hfound := findNeededChunks_eq hof (init ++ [last]) axis [] address rfl
    rwa [length_append, length_singleton] at hfound

theorem findNeededChunks_exact_iff (array : DmrppArray) (chunk : Chunk)
    (hrank : chunk.positionInArray.length = array.dims.length) :
    Exact array chunk ↔ ¬ Superfluous array chunk := by
  have hof := axesOf_axesAt hrank
  have hne := axes_ne_nil hof
  obtain ⟨init, last, hsplit⟩ : ∃ init last, axesAt array chunk.positionInArray = init ++ [last] :=
    ⟨_, _, (dropLast_append_getLast hne).symm⟩
  have hsize : ∀ axis ∈ init, 0 < axis.chunkSize := fun axis haxis =>
    hof.size_pos (hsplit ▸ mem_append_left _ haxis)
  have hholds : HoldsSelected array chunk ↔ (∀ axis ∈ init, Meets axis) ∧ Meets last := by
    unfold HoldsSelected
    rw [hsplit, forall_mem_append, forall_mem_singleton]
  have hsup : Superfluous array chunk ↔ (∀ axis ∈ init, Meets axis) ∧ Grazes last := by
    constructor
    · rintro ⟨init', last', hspl', hmee, hgraph⟩
      obtain ⟨rfl, hlast⟩ := append_inj' (hsplit.symm.trans hspl') rfl
      cases hlast
      exact ⟨hmee, hgraph⟩
    · rintro ⟨hmee, hgraph⟩
      exact ⟨init, last, hsplit, hmee, hgraph⟩
  rw [hsplit] at hof
  have hfound := findNeededChunks_axes hof
  have hneeded : Needed (init ++ [last]) ↔
      (∀ axis ∈ init, Meets axis) ∧ (Meets last ∨ Grazes last) := by
    rw [needed_iff hsize, kept_iff_meets_or_grazes]
  constructor
  · -- a superfluous chunk is returned and holds nothing
    intro hexa hbad
    obtain ⟨hmee, hgraph⟩ := hsup.mp hbad
    obtain ⟨answer, address', hans, hsome, -⟩ := hexa []
    obtain ⟨address'', heq⟩ := hfound []
    rw [if_pos (hneeded.mpr ⟨hmee, .inr hgraph⟩), hans] at heq
    cases heq
    exact not_meets_of_grazes hgraph (hholds.mp (hsome.mp rfl)).2
  · intro hgood address
    obtain ⟨address', heq⟩ := hfound address
    have hiff : Needed (init ++ [last]) ↔ HoldsSelected array chunk := by
      rw [hneeded, hholds]
      constructor
      · rintro ⟨hmee, hlast | hgraph⟩
        · exact ⟨hmee, hlast⟩
        · exact absurd (hsup.mpr ⟨hmee, hgraph⟩) hgood
      · rintro ⟨hmee, hlast⟩
        exact ⟨hmee, .inl hlast⟩
    refine ⟨_, address', heq, ?_⟩
    rw [← hiff]
    by_cases hcase : Needed (init ++ [last]) <;> simp [hcase]

def halfArray : DmrppArray where
  dims := [⟨10, 5, 9, 1, by decide, by decide, Nat.one_pos⟩]
  chunkDimensionSizes := [5]
  elemWidth := 1
  rank_pos := cons_ne_nil _ _
  rank_eq := rfl
  chunk_pos := by simp
  width_pos := Nat.one_pos

def halfChunk (origin : Nat) : Chunk := { positionInArray := [origin] }

theorem halfChunk_not_superfluous : ¬ Superfluous halfArray (halfChunk 5) := by
  rintro ⟨init, last, hsplit, -, hgraph⟩
  cases init with
  | nil =>
    cases hsplit
    revert hgraph
    decide
  | cons axis init => cases init <;> cases hsplit

theorem findNeededChunks_exact_iff_half : Exact halfArray (halfChunk 5) :=
  (findNeededChunks_exact_iff halfArray (halfChunk 5) rfl).mpr halfChunk_not_superfluous

/-- The chunk of the first half ends just before the first selected element and is asked for. -/
theorem halfChunk_superfluous : findNeededChunks halfArray (halfChunk 0) halfArray.lastDim 0 [0]
        = some (some (halfChunk 0), [0]) ∧ ¬ HoldsSelected halfArray (halfChunk 0) := by
  refine ⟨by decide, fun hholds => ?_⟩
  have hmee := hholds _ mem_cons_self
  rw [meets_iff] at hmee
  revert hmee
  decide

end Bes.Dmrpp.NeededChunks
