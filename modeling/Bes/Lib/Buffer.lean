import Mathlib

/-! Flat memory blocks and the copies made between them. A copy that leaves
either block is undefined behaviour in C and has no result here. `Fills` is
the frame law of a program that only ever writes the bytes of one fixed ideal
content, so overlapping writes need no separate argument. -/
namespace Bes.Lib.Buffer
open List

/-- `memcpy (target + targetStart, source + sourceStart, count)` between two
distinct blocks. The count is an integer because callers subtract. -/
def memcpy (target : List α) (targetStart : Nat) (source : List α) (sourceStart : Nat)
    (count : Int) : Option (List α) :=
  if 0 ≤ count ∧ targetStart + count.toNat ≤ target.length ∧
      sourceStart + count.toNat ≤ source.length then
    some (target.take targetStart ++ (source.drop sourceStart).take count.toNat ++
      target.drop (targetStart + count.toNat))
  else none

/-- `after` is `before` with the positions of `region` overwritten by `content`. -/
structure Fills (content : Nat → Option α) (region : Set Nat) (before after : List α) :
    Prop where
  length_eq : after.length = before.length
  inside : ∀ i ∈ region, after[i]? = content i
  outside : ∀ i ∉ region, after[i]? = before[i]?

theorem Fills.refl (content : Nat → Option α) (before : List α) : Fills content ∅ before before := by
  refine ⟨rfl, ?_, ?_⟩
  · intro i hi
    exact absurd hi (Set.notMem_empty i)
  · intro i _
    rfl

variable {after source target : List α} {ι σ : Type}

theorem Fills.trans (hfst : Fills content first before middle)
    (hsnd : Fills content second middle after) : Fills content (first ∪ second) before after := by
  refine ⟨hsnd.length_eq.trans hfst.length_eq, ?_, ?_⟩
  · intro i hi
    by_cases hlst : i ∈ second
    · exact hsnd.inside i hlst
    · rw [hsnd.outside i hlst]
      exact hfst.inside i (hi.resolve_right hlst)
  · intro i hi
    rw [Set.mem_union, not_or] at hi
    rw [hsnd.outside i hi.2, hfst.outside i hi.1]

theorem Fills.congr (hfil : Fills content region before after)
    (heq : region = other) : Fills content other before after := by
  subst heq
  exact hfil

theorem Fills.unique (hlft : Fills content region before after)
    (hrig : Fills content region before' after') (hlen : before.length = before'.length)
    (hall : ∀ i < before.length, i ∈ region) : after = after' := by
  apply ext_getElem?
  intro i
  by_cases hi : i < before.length
  · rw [hlft.inside i (hall i hi), hrig.inside i (hall i hi)]
  · rw [getElem?_eq_none (by rw [hlft.length_eq]; omega),
      getElem?_eq_none (by rw [hrig.length_eq]; omega)]

theorem memcpy_fills (content : Nat → Option α) (target source : List α)
    (targetStart sourceStart count : Nat) (htgt : targetStart + count ≤ target.length)
    (hsrc : sourceStart + count ≤ source.length)
    (hcnt : ∀ j < count, source[sourceStart + j]? = content (targetStart + j)) :
    ∃ after, memcpy target targetStart source sourceStart count = some after ∧
      Fills content { i | targetStart ≤ i ∧ i < targetStart + count } target after := by
  have hran : (0 : Int) ≤ count ∧ targetStart + (count : Int).toNat ≤ target.length ∧
      sourceStart + (count : Int).toNat ≤ source.length := by
    refine ⟨by omega, ?_, ?_⟩ <;> simpa using ‹_›
  refine ⟨_, if_pos hran, ?_⟩
  have hfro : (target.take targetStart).length = targetStart := by
    rw [length_take]
    omega
  have hmid : ((source.drop sourceStart).take count).length = count := by
    rw [length_take, length_drop]
    omega
  simp only [Int.toNat_natCast]
  refine ⟨?_, ?_, ?_⟩
  · simp only [length_append, hfro, hmid, length_drop]
    omega
  · rintro i ⟨hlow, hhgh⟩
    rw [getElem?_append_left (by rw [length_append, hfro, hmid]; omega),
      getElem?_append_right (by rw [hfro]; omega), hfro,
      getElem?_take_of_lt (by omega), getElem?_drop,
      hcnt (i - targetStart) (by omega)]
    congr 1
    omega
  · intro i hi
    simp only [Set.mem_ofPred_eq, not_and, not_lt] at hi
    by_cases hlow : i < targetStart
    · rw [append_assoc, getElem?_append_left (by rw [hfro]; omega), getElem?_take_of_lt hlow]
    · rw [getElem?_append_right (by rw [length_append, hfro, hmid]; omega),
        length_append, hfro, hmid, getElem?_drop]
      congr 1
      omega

/-- Byte positions of `count` consecutive elements of `width` bytes each. -/
def elementRun (width start count : Nat) : Set Nat :=
  { i | ∃ e < count, ∃ b < width, i = (start + e) * width + b }

private theorem elementRun_eq (width start count : Nat) :
    { i | start * width ≤ i ∧ i < start * width + count * width } = elementRun width start count := by
  ext i
  simp only [elementRun, Set.mem_ofPred_eq]
  constructor
  · rintro ⟨hlow, hhgh⟩
    have hwid : 0 < width := Nat.pos_of_ne_zero (by
      rintro rfl
      omega)
    refine ⟨(i - start * width) / width, ?_, (i - start * width) % width, Nat.mod_lt _ hwid, ?_⟩
    · rw [Nat.div_lt_iff_lt_mul hwid]
      omega
    · have hdec := Nat.div_add_mod (i - start * width) width
      rw [add_mul, mul_comm (_ / _)]
      omega
  · rintro ⟨e, he, b, hb, rfl⟩
    have hle : (e + 1) * width ≤ count * width := Nat.mul_le_mul_right width he
    rw [add_mul] at hle ⊢
    omega

theorem elementRun_blocks (width start count block : Nat) :
    { i | ∃ n < count, i ∈ elementRun width (start + n * block) block } =
      elementRun width start (count * block) := by
  ext i
  constructor
  · rintro ⟨n, hn, e, he, b, hb, rfl⟩
    have hle : (n + 1) * block ≤ count * block := Nat.mul_le_mul_right block hn
    rw [add_mul] at hle
    exact ⟨n * block + e, by omega, b, hb, by rw [add_assoc]⟩
  · rintro ⟨e, he, b, hb, rfl⟩
    have hblo : 0 < block := Nat.pos_of_ne_zero (by
      rintro rfl
      omega)
    have hdec := Nat.div_add_mod e block
    refine ⟨e / block, (Nat.div_lt_iff_lt_mul hblo).mpr he, e % block, Nat.mod_lt e hblo, b, hb, ?_⟩
    rw [mul_comm (e / block)]
    congr 2
    omega

theorem mem_elementRun_zero (width count i : Nat) :
    i ∈ elementRun width 0 count ↔ i < count * width := by
  rw [← elementRun_eq]
  simp

theorem memcpy_elements (content : Nat → Option α) (target source : List α)
    (targetStart sourceStart count width : Nat) (htgt : (targetStart + count) * width ≤ target.length)
    (hsrc : (sourceStart + count) * width ≤ source.length) (hcnt : ∀ e < count, ∀ b < width,
      source[(sourceStart + e) * width + b]? = content ((targetStart + e) * width + b)) :
    ∃ after, memcpy target (targetStart * width) source (sourceStart * width)
        ((count : Int) * width) = some after ∧
      Fills content (elementRun width targetStart count) target after := by
  rw [add_mul] at htgt hsrc
  have hbyt : ∀ j < count * width,
      source[sourceStart * width + j]? = content (targetStart * width + j) := by
    intro j hj
    have hmem : targetStart * width + j ∈ elementRun width targetStart count := by
      rw [← elementRun_eq]
      exact ⟨by omega, by omega⟩
    obtain ⟨e, he, b, hb, hpos⟩ := hmem
    rw [hpos, ← hcnt e he b hb]
    rw [add_mul] at hpos ⊢
    congr 1
    omega
  obtain ⟨after, hcpy, hfil⟩ := memcpy_fills content target source _ _ _ htgt hsrc hbyt
  rw [elementRun_eq] at hfil
  exact ⟨after, hcpy, hfil⟩

/-- The loop rule: when every iteration succeeds, keeps the invariant and fills
its own region, the loop fills the union of the regions. -/
theorem foldlM_fills (content : Nat → Option α) (buffer : σ → List α)
    (invariant : σ → Prop) (body : σ → ι → Option σ) (region : ι → Set Nat) (indices : List ι)
    (hbdy : ∀ i ∈ indices, ∀ s, invariant s → ∃ s', body s i = some s' ∧ invariant s' ∧
      Fills content (region i) (buffer s) (buffer s')) :
    ∀ s, invariant s → ∃ s', indices.foldlM body s = some s' ∧ invariant s' ∧
      Fills content (⋃ i ∈ indices, region i) (buffer s) (buffer s') := by
  induction indices with
  | nil =>
    intro s hs
    refine ⟨s, rfl, hs, (Fills.refl content (buffer s)).congr ?_⟩
    simp
  | cons first rest ih =>
    intro s hs
    obtain ⟨middle, hstp, hmid, hfst⟩ := hbdy first (by simp) s hs
    obtain ⟨last, hrun, hlst, hrst⟩ :=
      ih (fun i hi => hbdy i (mem_cons_of_mem first hi)) middle hmid
    refine ⟨last, ?_, hlst, (hfst.trans hrst).congr ?_⟩
    · rw [foldlM_cons, hstp]
      exact hrun
    · simp

theorem foldlM_buffer_fills {α ι : Type} {content : Nat → Option α} {n : Nat}
    {body : List α → ι → Option (List α)} {region : ι → Set Nat} {indices : List ι}
    (hbdy : ∀ i ∈ indices, ∀ buffer, buffer.length = n → ∃ after, body buffer i = some after ∧
      Fills content (region i) buffer after) {buffer : List α} (hlen : buffer.length = n) :
    ∃ after, indices.foldlM body buffer = some after ∧
      Fills content (⋃ i ∈ indices, region i) buffer after := by
  obtain ⟨after, hrun, -, hfil⟩ := foldlM_fills content id (fun buffer => buffer.length = n) body
    region indices (by
      intro i hi buffer hbuf
      obtain ⟨after, hstp, hfil⟩ := hbdy i hi buffer hbuf
      exact ⟨after, hstp, hfil.length_eq.trans hbuf, hfil⟩) buffer hlen
  exact ⟨after, hrun, hfil⟩

theorem foldlM_fills_counted (content : Nat → Option α) (buffer : σ → List α)
    (body : σ → ι → Option σ) (indices : List ι) (invariant : Nat → σ → Prop) (region : Nat → Set Nat)
    (hbdy : ∀ n i, indices[n]? = some i → ∀ s, invariant n s → ∃ s', body s i = some s' ∧
      invariant (n + 1) s' ∧ Fills content (region n) (buffer s) (buffer s')) :
    ∀ s, invariant 0 s → ∃ s', indices.foldlM body s = some s' ∧ invariant indices.length s' ∧
      Fills content { p | ∃ n < indices.length, p ∈ region n } (buffer s) (buffer s') := by
  induction indices generalizing invariant region with
  | nil =>
    intro s hs
    refine ⟨s, rfl, hs, (Fills.refl content (buffer s)).congr ?_⟩
    simp
  | cons first rest ih =>
    intro s hs
    obtain ⟨middle, hstp, hmid, hfst⟩ := hbdy 0 first rfl s hs
    obtain ⟨last, hrun, hlst, hrst⟩ := ih (fun n => invariant (n + 1)) (fun n => region (n + 1))
      (fun n i hi => hbdy (n + 1) i hi) middle hmid
    refine ⟨last, ?_, hlst, (hfst.trans hrst).congr ?_⟩
    · rw [foldlM_cons, hstp]
      exact hrun
    · ext p
      simp only [Set.mem_union, Set.mem_ofPred_eq, length_cons]
      constructor
      · intro hp
        cases hp with
        | inl hzer => exact ⟨0, by omega, hzer⟩
        | inr hlat =>
          obtain ⟨n, hn, hmem⟩ := hlat
          exact ⟨n + 1, by omega, hmem⟩
      · rintro ⟨n, hn, hmem⟩
        cases n with
        | zero => exact .inl hmem
        | succ n => exact .inr ⟨n, by omega, hmem⟩

theorem foldlM_mem_some {indices : List ι} {s : σ} (hrun : indices.foldlM body s = some s') :
    ∀ i ∈ indices, ∃ t t', body t i = some t' := by
  induction indices generalizing s with
  | nil => simp
  | cons first rest ih =>
    rw [foldlM_cons] at hrun
    cases hstp : body s first with
    | none => simp [hstp] at hrun
    | some middle =>
      rw [hstp] at hrun
      intro i hi
      cases mem_cons.mp hi with
      | inl heq => exact ⟨s, middle, heq ▸ hstp⟩
      | inr hrst => exact ih hrun i hrst

theorem foldlM_total {P : σ → Prop} {indices : List ι}
    (hbdy : ∀ i ∈ indices, ∀ s, P s → ∃ s', body s i = some s' ∧ P s') {s : σ} (hs : P s) :
    ∃ s', indices.foldlM body s = some s' ∧ P s' := by
  induction indices generalizing s with
  | nil => exact ⟨s, rfl, hs⟩
  | cons first rest ih =>
    obtain ⟨middle, hfst, hmid⟩ := hbdy first mem_cons_self s hs
    obtain ⟨s', hrst, hs'⟩ := ih (fun i hi => hbdy i (mem_cons_of_mem first hi)) hmid
    exact ⟨s', by simp [foldlM_cons, hfst, hrst], hs'⟩

theorem foldlM_some_fills {region : ι → Set Nat} {indices : List ι}
    (hbdy : ∀ i ∈ indices, ∀ buffer after, body buffer i = some after →
      Fills content (region i) buffer after) (hrun : indices.foldlM body buffer = some after) :
    Fills content (⋃ i ∈ indices, region i) buffer after := by
  induction indices generalizing buffer with
  | nil =>
    cases hrun
    exact (Fills.refl content _).congr (by simp)
  | cons first rest ih =>
    obtain ⟨middle, hfst, hrst⟩ := Option.bind_eq_some_iff.mp hrun
    exact ((hbdy first mem_cons_self _ _ hfst).trans
      (ih (fun i hi => hbdy i (mem_cons_of_mem first hi)) hrst)).congr (by simp)

theorem foldlM_congr {other : σ → ι → Option σ} {indices : List ι}
    (hbdy : ∀ i ∈ indices, ∀ s, body s i = other s i) (s : σ) :
    indices.foldlM body s = indices.foldlM other s := by
  induction indices generalizing s with
  | nil => rfl
  | cons first rest ih =>
    rw [foldlM_cons, foldlM_cons, hbdy first mem_cons_self]
    congr 1
    funext s'
    exact ih (fun i hi => hbdy i (mem_cons_of_mem first hi)) s'

theorem memcpy_some_source {count : Nat}
    (hcpy : memcpy target targetStart source sourceStart count = some after) :
    sourceStart + count ≤ source.length := by
  unfold memcpy at hcpy
  split at hcpy
  next hran =>
    simpa using hran.2.2
  · cases hcpy

theorem memcpy_some_fills {count : Nat}
    (hcpy : memcpy target targetStart source sourceStart count = some after) :
    targetStart + count ≤ target.length ∧ Fills (fun i => source[sourceStart + (i - targetStart)]?)
        { i | targetStart ≤ i ∧ i < targetStart + count } target after := by
  have htgt : targetStart + count ≤ target.length := by
    unfold memcpy at hcpy
    split at hcpy
    next hran =>
      simpa using hran.2.1
    · cases hcpy
  obtain ⟨after', hcopy', hfil⟩ := memcpy_fills
    (fun i => source[sourceStart + (i - targetStart)]?) target source targetStart sourceStart count
    htgt (memcpy_some_source hcpy) (by
      intro j _
      rw [Nat.add_sub_cancel_left])
  rw [hcpy, Option.some.injEq] at hcopy'
  exact ⟨htgt, hcopy' ▸ hfil⟩

/-! Blocks that are written from the front. -/

def overwrite (target : List α) (start : Nat) (source : List α) : List α :=
  target.take start ++ source ++ target.drop (start + source.length)

theorem memcpy_whole (target source : List α) (start : Nat)
    (hfts : start + source.length ≤ target.length) :
    memcpy target start source 0 source.length = some (overwrite target start source) := by
  have hran : (0 : Int) ≤ source.length ∧ start + (source.length : Int).toNat ≤ target.length ∧
      0 + (source.length : Int).toNat ≤ source.length := by
    omega
  rw [memcpy, if_pos hran]
  simp [overwrite]

theorem length_overwrite (hfts : start + source.length ≤ target.length) :
    (overwrite target start source).length = target.length := by
  simp only [overwrite, length_append, length_take, length_drop]
  omega

@[simp] theorem overwrite_nil (target : List α) (start : Nat) :
    overwrite target start [] = target := by
  simp [overwrite]

theorem overwrite_overwrite (second : List α) (hfts : start + first.length ≤ target.length) :
    overwrite (overwrite target start first) (start + first.length) second =
      overwrite target start (first ++ second) := by
  have hfro : (target.take start ++ first).length = start + first.length := by
    rw [length_append, length_take]
    omega
  have hdrp : (target.take start ++ first).drop (start + first.length + second.length) = [] :=
    drop_of_length_le (by omega)
  unfold overwrite
  rw [take_append_of_le_length hfro.ge, take_of_length_le hfro.le,
    drop_append, hdrp, hfro, length_append, drop_drop]
  simp only [append_assoc, nil_append]
  congr 4
  omega

theorem overwrite_zero (hlen : source.length = target.length) : overwrite target 0 source = source := by
  simp [overwrite, hlen]

end Bes.Lib.Buffer
