import Bes.Dispatch.Util

/-! The function `bbox_union`, which combines bounding boxes dimension by dimension. -/
namespace Bes.Functions.BBoxUnion
open Dispatch List

inductive Operation where
  | union
  | intersection

def Operation.ofText (text : Str) : Option Operation :=
  let operation := text.map Char.toLower
  if operation = "union".toList then some .union
  else if operation = "inter".toList ∨ operation = "intersection".toList then some .intersection
  else none

@[ext]
structure Slice where
  start : Int
  stop : Int
  name : Str

abbrev Box := List Slice

inductive Failure where
  | arguments
  | shape
  | names
  | empty (dimension : Nat)
  | operator
  /-- `slices->var(i)` behind the end, which is not defined. -/
  | outside

def combine (operation : Option Operation) (i : Nat) (result slice : Slice) :
    Except Failure Slice :=
  if result.name ≠ slice.name then .error .names
  else match operation with
    | some .union =>
      .ok ⟨min result.start slice.start, max result.stop slice.stop, result.name⟩
    | some .intersection =>
      let start := max result.start slice.start
      let stop := min result.stop slice.stop
      if stop < start then .error (.empty i) else .ok ⟨start, stop, result.name⟩
    | none => .error .operator

/-- The loop over the dimensions of the result, from the `i`-th on. -/
def addBox (operation : Option Operation) : Nat → Box → Box → Except Failure Box
  | _, [], _ => .ok []
  | _, _ :: _, [] => .error .outside
  | i, slice :: result, other :: bbox => do
    let slice ← combine operation i slice other
    let result ← addBox operation (i + 1) result bbox
    return slice :: result

def functionBboxUnion (operation : Str) : List Box → Except Failure Box
  | [] => .error .arguments
  | first :: rest =>
    -- For each of the others it is the first box whose rank is compared.
    if ∃ _ ∈ rest, first.length ≠ first.length then .error .shape
    else rest.foldlM (addBox (Operation.ofText operation) 0) first

def Conflict (op : Operation) (s t : Slice) : Prop :=
  s.name ≠ t.name ∨ op = .intersection ∧ min s.stop t.stop < max s.start t.start

def join : Operation → Slice → Slice → Slice
  | .union, s, t => ⟨min s.start t.start, max s.stop t.stop, s.name⟩
  | .intersection, s, t => ⟨max s.start t.start, min s.stop t.stop, s.name⟩

def Disagree (op : Operation) (b c : Box) : Prop := ∃ p ∈ b.zip c, Conflict op p.1 p.2

variable {i : Nat} {all : Set Box}

theorem combine_of_conflict (h : Conflict op s t) :
    ∃ e ≠ .outside, combine (some op) i s t = .error e := by
  by_cases hnam : s.name = t.name
  · obtain ⟨rfl, hempty⟩ := h.resolve_left (not_not_intro hnam)
    exact ⟨.empty i, by simp, by simp only [combine, hnam, ne_eq, not_true_eq_false, if_false,
      if_pos hempty]⟩
  · exact ⟨.names, by simp, if_pos hnam⟩

theorem combine_of_not_conflict (h : ¬ Conflict op s t) :
    combine (some op) i s t = .ok (join op s t) := by
  rw [Conflict, not_or, not_not] at h
  cases op <;> simp_all [combine, join]

theorem addBox_of_disagree (h : Disagree op r b) :
    ∃ e ≠ .outside, addBox (some op) i r b = .error e := by
  induction r generalizing b i with
  | nil => simp [Disagree] at h
  | cons s r ih =>
    cases b with
    | nil => simp [Disagree] at h
    | cons t b =>
      by_cases hfirst : Conflict op s t
      · obtain ⟨e, he, herr⟩ := combine_of_conflict (i := i) hfirst
        exact ⟨e, he, by rw [addBox, herr]; rfl⟩
      · have hrest : Disagree op r b := by simpa [Disagree, hfirst] using h
        obtain ⟨e, he, herr⟩ := ih (i := i + 1) hrest
        exact ⟨e, he, by rw [addBox, combine_of_not_conflict hfirst, herr]; rfl⟩

theorem addBox_of_agree (h : ¬ Disagree op r b) : addBox (some op) i r b =
      if r.length ≤ b.length then .ok (zipWith (join op) r b) else .error .outside := by
  induction r generalizing b i with
  | nil => simp [addBox]
  | cons s r ih =>
    cases b with
    | nil => simp [addBox]
    | cons t b =>
      have hboth : ¬ Conflict op s t ∧ ¬ Disagree op r b := by simpa [Disagree] using h
      simp only [addBox, combine_of_not_conflict hboth.1, ih hboth.2, length_cons,
        Nat.add_le_add_iff_right]
      split <;> rfl

/-! The boxes that are combined, as a set: what is said of them does not depend on their order. -/

def slicesAt (boxes : Set Box) (i : Nat) : Set Slice := { s | ∃ b ∈ boxes, b[i]? = some s }

def Bounds : Operation → Set Slice → Slice → Prop
  | .union, parts, s =>
    IsLeast (Slice.start '' parts) s.start ∧ IsGreatest (Slice.stop '' parts) s.stop
  | .intersection, parts, s =>
    IsGreatest (Slice.start '' parts) s.start ∧ IsLeast (Slice.stop '' parts) s.stop

structure Hull (op : Operation) (boxes : Set Box) (box : Box) : Prop where
  names : ∀ b ∈ boxes, b.map Slice.name = box.map Slice.name
  bounds : ∀ i s, box[i]? = some s → Bounds op (slicesAt boxes i) s

def Solid (op : Operation) (box : Box) : Prop :=
  op = .intersection → ∀ s ∈ box, s.start ≤ s.stop

structure Combination (op : Operation) (boxes : Set Box) (box : Box) : Prop where
  hull : Hull op boxes box
  solid : Solid op box

theorem hull_singleton (b : Box) : Hull op {b} b := by
  refine ⟨by simp, ?_⟩
  intro i s hs
  have hpar : slicesAt {b} i = {s} := by
    simp [slicesAt, hs, eq_comm]
  cases op <;> simp [Bounds, hpar]

theorem Hull.exists_slice (hull : Hull op boxes r) (hb : b ∈ boxes) (ht : b[i]? = some t) :
    ∃ s, r[i]? = some s ∧ t.name = s.name := by
  have hnam := congrArg (·[i]?) (hull.names b hb)
  simpa [ht, eq_comm] using hnam

theorem Hull.length_eq (hull : Hull op boxes r) (hb : b ∈ boxes) : b.length = r.length := by
  simpa using congrArg length (hull.names b hb)

theorem disagree_iff : Disagree op r b ↔
    ∃ (i : Nat) (s t : Slice), r[i]? = some s ∧ b[i]? = some t ∧ Conflict op s t := by
  simp only [Disagree, Prod.exists, mem_iff_getElem?, getElem?_zip_eq_some]
  exact ⟨fun ⟨s, t, ⟨i, hs, ht⟩, h⟩ => ⟨i, s, t, hs, ht, h⟩,
    fun ⟨i, s, t, hs, ht, h⟩ => ⟨s, t, ⟨i, hs, ht⟩, h⟩⟩

theorem hull_insert (hull : Hull op boxes r) (hlen : r.length = b.length)
    (h : ¬ Disagree op r b) : Hull op (insert b boxes) (zipWith (join op) r b) := by
  have hagr : ∀ {i : Nat} {s t}, r[i]? = some s → b[i]? = some t → ¬ Conflict op s t :=
    fun hs ht hcon => h (disagree_iff.mpr ⟨_, _, _, hs, ht, hcon⟩)
  have hjon : (zipWith (join op) r b).map Slice.name = r.map Slice.name := by
    apply ext_getElem (by simp [hlen])
    cases op <;> simp [join]
  refine ⟨?_, ?_⟩
  · rintro c (rfl | hc)
    · rw [hjon]
      apply ext_getElem (by simp [hlen])
      intro i hi hi'
      rw [getElem_map, getElem_map]
      by_contra hne
      exact hagr (getElem?_eq_getElem _) (getElem?_eq_getElem _) (.inl (Ne.symm hne))
    · rw [hjon, hull.names c hc]
  · intro i u hu
    obtain ⟨s, t, hs, ht, rfl⟩ := getElem?_zipWith_eq_some.mp hu
    have hpar : slicesAt (insert b boxes) i = insert t (slicesAt boxes i) := by
      ext
      simp [slicesAt, ht, eq_comm]
    have hbou := hull.bounds i s hs
    cases op <;> rw [Bounds, hpar, Set.image_insert_eq, Set.image_insert_eq, join, min_comm,
      max_comm] <;> exact ⟨hbou.1.insert _, hbou.2.insert _⟩

theorem Hull.unique (hull : Hull op boxes r) (hull' : Hull op boxes box) (hb : b ∈ boxes) : r = box := by
  have hlen := (hull.length_eq hb).symm.trans (hull'.length_eq hb)
  have hnam := (hull.names b hb).symm.trans (hull'.names b hb)
  apply ext_getElem hlen
  intro i hi hi'
  have hr := hull.bounds i _ (getElem?_eq_getElem hi)
  have hc := hull'.bounds i _ (getElem?_eq_getElem hi')
  have hname : r[i].name = box[i].name := by
    simpa [getElem?_eq_getElem, hi, hi'] using congrArg (·[i]?) hnam
  cases op <;> exact Slice.ext (hr.1.unique hc.1) (hr.2.unique hc.2) hname

theorem solid_join (h : ¬ Disagree op r b) : Solid op (zipWith (join op) r b) := by
  rintro rfl u hu
  obtain ⟨i, hu⟩ := mem_iff_getElem?.mp hu
  obtain ⟨s, t, hs, ht, rfl⟩ := getElem?_zipWith_eq_some.mp hu
  by_contra hempty
  exact h (disagree_iff.mpr ⟨i, s, t, hs, ht, .inr ⟨rfl, not_le.mp hempty⟩⟩)

theorem disagree_of_mem (hull : Hull op boxes r) (hc : c ∈ boxes) (h : Disagree op c b) :
    Disagree op r b := by
  obtain ⟨i, s', t, hs', ht, hcon⟩ := disagree_iff.mp h
  obtain ⟨s, hs, hnam⟩ := hull.exists_slice hc hs'
  refine disagree_iff.mpr ⟨i, s, t, hs, ht, ?_⟩
  rcases hcon with hne | ⟨rfl, hempty⟩
  · exact .inl (hnam ▸ hne)
  · have hsta := (hull.bounds i s hs).1.2 ⟨s', ⟨c, hc, hs'⟩, rfl⟩
    have hstep := (hull.bounds i s hs).2.2 ⟨s', ⟨c, hc, hs'⟩, rfl⟩
    exact .inr ⟨rfl, by omega⟩

theorem not_combination (hull : Hull op boxes r) (hc : c ∈ boxes) (hsub : boxes ⊆ all)
    (hb : b ∈ all) (h : Disagree op r b) (box : Box) : ¬ Combination op all box := by
  intro hbox
  obtain ⟨i, s, t, hs, ht, hcon⟩ := disagree_iff.mp h
  obtain ⟨u, hu, htu⟩ := hbox.hull.exists_slice hb ht
  have hbou := hbox.hull.bounds i u hu
  rcases hcon with hne | ⟨rfl, hempty⟩
  · have hnam := (hbox.hull.names c (hsub hc)).symm.trans (hull.names c hc)
    have hname := congrArg (·[i]?) hnam
    simp [hu, hs] at hname
    exact hne (hname ▸ htu.symm)
  · obtain ⟨s₁, ⟨b₁, hb₁, hs₁⟩, hsta⟩ := (hull.bounds i s hs).1.1
    obtain ⟨s₂, ⟨b₂, hb₂, hs₂⟩, hstep⟩ := (hull.bounds i s hs).2.1
    have h₁ := hbou.1.2 ⟨s₁, ⟨b₁, hsub hb₁, hs₁⟩, rfl⟩
    have h₂ := hbou.2.2 ⟨s₂, ⟨b₂, hsub hb₂, hs₂⟩, rfl⟩
    have h₃ := hbou.1.2 ⟨t, ⟨b, hb, ht⟩, rfl⟩
    have h₄ := hbou.2.2 ⟨t, ⟨b, hb, ht⟩, rfl⟩
    have hnone := hbox.solid rfl u (mem_of_getElem? hu)
    omega

theorem foldlM_addBox (hran : ∀ b ∈ all, ∀ c ∈ all, b.length ≠ c.length → Disagree op b c) :
    ∀ (rest : List Box) (boxes : Set Box) (r : Box), Hull op boxes r → boxes.Nonempty →
      boxes ∪ { b | b ∈ rest } = all →
      (∃ box, rest.foldlM (addBox (some op) 0) r = .ok box ∧ Hull op all box ∧
        (Solid op r ∨ rest ≠ [] → Solid op box)) ∨
      ∃ e ≠ .outside, rest.foldlM (addBox (some op) 0) r = .error e ∧
        ∀ box, ¬ Combination op all box := by
  intro rest
  induction rest with
  | nil =>
    rintro boxes r hull - rfl
    exact .inl ⟨r, rfl, by simpa using hull, by simp⟩
  | cons b rest ih =>
    rintro boxes r hull ⟨c, hc⟩ hall
    have hsub : boxes ⊆ all := hall ▸ Set.subset_union_left
    have hb : b ∈ all := hall ▸ .inr mem_cons_self
    rw [foldlM_cons]
    by_cases h : Disagree op r b
    · obtain ⟨e, he, herr⟩ := addBox_of_disagree h
      exact .inr ⟨e, he, by rw [herr]; rfl, not_combination hull hc hsub hb h⟩
    · have hlen : r.length = b.length := by
        rw [← hull.length_eq hc]
        by_contra hne
        exact h (disagree_of_mem hull hc (hran c (hsub hc) b hb hne))
      rw [addBox_of_agree h, if_pos hlen.le]
      have hset : insert b boxes ∪ { b | b ∈ rest } = all := by
        rw [← hall]
        ext
        simp [or_assoc, or_left_comm]
      refine (ih _ _ (hull_insert hull hlen h) (Set.insert_nonempty ..) hset).imp ?_ id
      exact fun ⟨box, hrun, hbox, hsol⟩ =>
        ⟨box, hrun, hbox, fun _ => hsol (.inl (solid_join h))⟩

def Answers (outcome : Except Failure Box) : Option Box → Prop
  | some box => outcome = .ok box
  | none => ∃ e ≠ .outside, outcome = .error e

/-- In every order of the boxes the call has the same answer: their combination, or an exception if
they have none. -/
def CombinesAsOne (op : Operation) (boxes : List Box) : Prop :=
  ∃ answer, (∀ order, order.Perm boxes → ∀ operation, Operation.ofText operation = some op →
      Answers (functionBboxUnion operation order) answer) ∧
    ∀ box, answer = some box ↔ Combination op { b | b ∈ boxes } box

/-- Boxes of different rank disagree, and a single box is not empty. -/
def Consistent (op : Operation) (boxes : List Box) : Prop :=
  (∀ b ∈ boxes, ∀ c ∈ boxes, b.length ≠ c.length → Disagree op b c) ∧ ∀ b, boxes = [b] → Solid op b

theorem functionBboxUnion_cons (hop : Operation.ofText operation = some op)
    (first : Box) (rest : List Box) :
    functionBboxUnion operation (first :: rest) = rest.foldlM (addBox (some op) 0) first := by
  simp [functionBboxUnion, hop]

theorem exists_text (op : Operation) : ∃ operation, Operation.ofText operation = some op := by
  cases op
  · exact ⟨"union".toList, rfl⟩
  · exact ⟨"inter".toList, rfl⟩

theorem functionBboxUnion_answer {boxes : List Box} (hprm : order.Perm boxes)
    (hne : boxes ≠ []) (h : Consistent op boxes) (hop : Operation.ofText operation = some op) :
    (∃ box, functionBboxUnion operation order = .ok box ∧ Combination op { b | b ∈ boxes } box) ∨
      ∃ e ≠ .outside, functionBboxUnion operation order = .error e ∧
        ∀ box, ¬ Combination op { b | b ∈ boxes } box := by
  cases order with
  | nil => exact absurd (nil_perm.mp hprm) hne
  | cons first rest =>
    rw [functionBboxUnion_cons hop]
    have hset : {first} ∪ { b | b ∈ rest } = { b | b ∈ boxes } := by
      ext
      simp [← hprm.mem_iff]
    refine (foldlM_addBox h.1 rest _ first (hull_singleton first) ⟨first, rfl⟩ hset).imp ?_ id
    rintro ⟨box, hrun, hull, hsol⟩
    refine ⟨box, hrun, hull, hsol ?_⟩
    cases rest with
    | nil => exact .inl (h.2 first (singleton_perm.mp hprm).symm)
    | cons => exact .inr (by simp)

theorem Disagree.symm (h : Disagree op b c) : Disagree op c b := by
  obtain ⟨i, s, t, hs, ht, hcon⟩ := disagree_iff.mp h
  refine disagree_iff.mpr ⟨i, t, s, ht, hs, ?_⟩
  rwa [Conflict, ne_comm, min_comm, max_comm]

theorem exists_perm_cons (hb : b ∈ l) : ∃ rest, (b :: rest).Perm l := by
  obtain ⟨front, back, rfl⟩ := append_of_mem hb
  exact ⟨front ++ back, perm_middle.symm⟩

theorem CombinesAsOne.consistent
    (h : CombinesAsOne op (first :: rest)) : Consistent op (first :: rest) := by
  obtain ⟨answer, hanw, hans⟩ := h
  obtain ⟨operation, hop⟩ := exists_text op
  -- A box after a longer one with which it agrees is read behind its end.
  have hlon : ∀ b ∈ first :: rest, ∀ c ∈ first :: rest, c.length < b.length → Disagree op b c := by
    intro b hb c hc hlt
    by_contra h
    obtain ⟨others, hote⟩ := exists_perm_cons hb
    have hc' : c ∈ others := by
      rcases mem_cons.mp (hote.mem_iff.mpr hc) with rfl | hmem
      · exact absurd hlt (lt_irrefl _)
      · exact hmem
    obtain ⟨others', hoth'⟩ := exists_perm_cons hc'
    have hrun := hanw _ ((hoth'.cons b).trans hote) operation hop
    rw [functionBboxUnion_cons hop, foldlM_cons, addBox_of_agree h, if_neg (by omega)] at hrun
    cases answer with
    | none =>
      obtain ⟨e, he, heq⟩ := hrun
      cases heq
      exact he rfl
    | some box => cases hrun
  refine ⟨?_, ?_⟩
  · intro b hb c hc hne
    rcases Nat.lt_or_gt_of_ne hne with hlt | hgt
    · exact (hlon c hc b hb hlt).symm
    · exact hlon b hb c hc hgt
  · intro b hsin
    obtain ⟨rfl, rfl⟩ := cons.inj hsin
    have hrun := hanw _ (Perm.refl _) operation hop
    cases answer with
    | none =>
      obtain ⟨e, he, heq⟩ := hrun
      cases heq
    | some box =>
      cases hrun
      exact ((hans first).mp rfl).solid

theorem Consistent.combinesAsOne {boxes : List Box} (hne : boxes ≠ [])
    (h : Consistent op boxes) : CombinesAsOne op boxes := by
  obtain ⟨b, hb⟩ := exists_mem_of_ne_nil _ hne
  by_cases hex : ∃ box, Combination op { b | b ∈ boxes } box
  · obtain ⟨box, hbox⟩ := hex
    have hunique : ∀ {other}, Combination op { b | b ∈ boxes } other → box = other :=
      fun hother => hbox.hull.unique hother.hull hb
    refine ⟨some box, ?_, fun other => ⟨?_, fun hother => congrArg some (hunique hother)⟩⟩
    · intro order hprm operation hop
      rcases functionBboxUnion_answer hprm hne h hop with ⟨other, hrun, hother⟩ | ⟨e, -, -, hno⟩
      · rw [hunique hother]
        exact hrun
      · exact absurd hbox (hno box)
    · rintro ⟨⟩
      exact hbox
  · refine ⟨none, ?_, fun box => ⟨by simp, fun hbox => absurd ⟨box, hbox⟩ hex⟩⟩
    intro order hprm operation hop
    rcases functionBboxUnion_answer hprm hne h hop with ⟨box, -, hbox⟩ | ⟨e, he, hrun, -⟩
    · exact absurd ⟨box, hbox⟩ hex
    · exact ⟨e, he, hrun⟩

theorem combinesAsOne_iff (op : Operation) (first : Box) (rest : List Box) :
    CombinesAsOne op (first :: rest) ↔ Consistent op (first :: rest) :=
  ⟨CombinesAsOne.consistent, Consistent.combinesAsOne (cons_ne_nil first rest)⟩

def flat : Box := [⟨0, 1, ['x']⟩]

def tall : Box := [⟨0, 1, ['x']⟩, ⟨5, 9, ['y']⟩]

/-- The second dimension of a box after a shorter one is left out. -/
theorem flat_tall_not_combined : ¬ CombinesAsOne .union [flat, tall] := by
  rintro ⟨answer, hanw, hans⟩
  have hrun := hanw [flat, tall] (Perm.refl _) "union".toList rfl
  cases answer with
  | none =>
    obtain ⟨e, -, herr⟩ := hrun
    cases herr
  | some box =>
    cases hrun
    have hnam := ((hans _).mp rfl).hull.names tall (by simp)
    cases hnam

end Bes.Functions.BBoxUnion
