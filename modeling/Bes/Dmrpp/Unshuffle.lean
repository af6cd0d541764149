import Bes.Dmrpp.Filter
import Bes.Lib.CopyTrace

/-! `unshuffle` statement by statement: the jump into the unrolled loop, the two running pointers, and every
single byte that is copied. -/
namespace Bes.Dmrpp.Unshuffle
open Lib.Buffer Lib.CopyTrace List
open Dmrpp.Array Dmrpp.Filter

/-! The byte shuffle and its inverse. -/

def shuffledFrom (width elems position : Nat) : Nat :=
  if position < elems * width then position % elems * width + position / elems else position

/-- HDF5's shuffle: the first bytes of all elements, then the second ones, and so on;
bytes left over stay in place. -/
def shuffle (width : Nat) (bytes : List Byte) : List Byte :=
  if width > 1 ∧ bytes.length / width > 1 then
    (range bytes.length).map fun position =>
      bytes.getD (shuffledFrom width (bytes.length / width) position) 0
  else bytes

@[simp] theorem length_shuffle (width : Nat) (bytes : List Byte) :
    (shuffle width bytes).length = bytes.length := by
  unfold shuffle
  split
  · simp
  · rfl

/-- The pointers `_dest` and `_src`, and the copies made so far. -/
structure Pointers where
  dest : Nat
  src : Nat
  copies : List (Nat × Nat)

/-- `DUFF_GUTS`: `*_dest = *_src++; _dest += width;`. -/
def guts (width : Nat) (s : Pointers) : Pointers :=
  ⟨s.dest + width, s.src + 1, s.copies ++ [(s.dest, s.src)]⟩

def memcpyAll (size : Nat) (s : Pointers) : Pointers :=
  { s with copies := s.copies ++ (range size).map fun k => (s.dest + k, s.src + k) }

/-- The last `count` of the eight statements of the loop. -/
def statements (width : Nat) : Nat → Pointers → Pointers
  | 0, s => s
  | count + 1, s => statements width count (guts width s)

/-- The statements from a label to the end of the loop; the label `0` stands before all eight. There is no
label above `7`. -/
def fromLabel (width : Nat) (label : Nat) (s : Pointers) : Option Pointers :=
  if label = 0 then some (statements width 8 s)
  else if label < 8 then some (statements width label s)
  else none

/-- `while (--duffs_index > 0)` and the rounds that follow. A counter that is zero wraps around. -/
def duffRounds (width : Nat) : Nat → Pointers → Option Pointers
  | 0, _ => none
  | 1, s => some s
  | index + 2, s => duffRounds width (index + 1) (statements width 8 s)

def duffsDevice (width elems : Nat) (s : Pointers) : Option Pointers := do
  let s ← fromLabel width (elems % 8) s
  duffRounds width ((elems + 7) / 8) s

def plainLoop (width : Nat) : Nat → Pointers → Option Pointers
  | 0, s => some s
  | j + 1, s => plainLoop width j (guts width s)

/-- The copies of `unshuffle` with the loop over the elements as a parameter. The loop over the bytes of an
element counts in an `unsigned int`. -/
def copiesWith (elementLoop : Nat → Nat → Pointers → Option Pointers) (srcSize width : Nat) :
    Option (List (Nat × Nat)) :=
  if width = 0 then none
  else
    let elems := srcSize / width
    if ¬ (width > 1 ∧ elems > 1) then some (memcpyAll srcSize ⟨0, 0, []⟩).copies
    else if 2 ^ 32 ≤ width then none
    else do
      let s ← (range width).foldlM (fun s i => elementLoop width elems { s with dest := i })
        ⟨0, 0, []⟩
      let leftover := srcSize % width
      if leftover > 0 then some (memcpyAll leftover { s with dest := s.dest - (width - 1) }).copies
      else some s.copies

def unshuffleCopies : Nat → Nat → Option (List (Nat × Nat)) := copiesWith duffsDevice

def plainCopies : Nat → Nat → Option (List (Nat × Nat)) := copiesWith plainLoop

theorem statements_add (width first second : Nat) (s : Pointers) :
    statements width (first + second) s = statements width second (statements width first s) := by
  induction first generalizing s with
  | zero => rw [zero_add, statements]
  | succ first ih => rw [Nat.succ_add, statements, statements, ih]

theorem duffRounds_eq (hidx : 0 < index) (width : Nat) (s : Pointers) :
    duffRounds width index s = some (statements width (8 * (index - 1)) s) := by
  induction index generalizing s with
  | zero => exact absurd hidx (lt_irrefl 0)
  | succ index ih =>
    cases index with
    | zero => rfl
    | succ index =>
      rw [duffRounds, ih (Nat.succ_pos index), ← statements_add]
      congr 2
      omega

variable {width : Nat}

theorem duffsDevice_eq (hele : 0 < elems) (width : Nat) (s : Pointers) :
    duffsDevice width elems s = some (statements width elems s) := by
  have hlab : fromLabel width (elems % 8) s =
      some (statements width (elems - 8 * ((elems + 7) / 8 - 1)) s) := by
    unfold fromLabel
    by_cases hzero : elems % 8 = 0
    · rw [if_pos hzero]
      congr 2
      omega
    · rw [if_neg hzero, if_pos (by omega)]
      congr 2
      omega
  unfold duffsDevice
  rw [hlab]
  dsimp only [bind, Option.bind]
  rw [duffRounds_eq (by omega), ← statements_add]
  congr 2
  omega

theorem plainLoop_eq (width elems : Nat) (s : Pointers) :
    plainLoop width elems s = some (statements width elems s) := by
  induction elems generalizing s with
  | zero => rfl
  | succ elems ih => exact ih (guts width s)

theorem unshuffleCopies_eq_plainCopies (srcSize width : Nat) :
    unshuffleCopies srcSize width = plainCopies srcSize width := by
  unfold unshuffleCopies plainCopies copiesWith
  split
  · rfl
  · dsimp only
    split
    · rfl
    next hmov =>
      have hsame : (fun (s : Pointers) i => duffsDevice width (srcSize / width) { s with dest := i }) =
          fun s i => plainLoop width (srcSize / width) { s with dest := i } := by
        funext s i
        rw [duffsDevice_eq (by omega), plainLoop_eq]
      rw [hsame]

theorem statements_eq (width count : Nat) (s : Pointers) :
    statements width count s = ⟨s.dest + count * width, s.src + count,
      s.copies ++ (range count).map fun j => (s.dest + j * width, s.src + j)⟩ := by
  induction count generalizing s with
  | zero => simp [statements]
  | succ count ih =>
    rw [statements, ih, guts, range_succ_eq_map, map_cons, map_map]
    congr 1
    · dsimp only
      rw [Nat.succ_mul]
      omega
    · dsimp only
      omega
    · rw [append_assoc, singleton_append]
      congr 2
      · simp
      · apply map_congr_left
        intro j _
        dsimp only [Function.comp_apply]
        rw [Nat.succ_mul]
        congr 1 <;> omega

def elementCopies (width elems bytes : Nat) : List (Nat × Nat) :=
  (range bytes).flatMap fun i => (range elems).map fun j => (j * width + i, i * elems + j)

theorem elementCopies_succ (width elems bytes : Nat) :
    elementCopies width elems (bytes + 1) = elementCopies width elems bytes ++
      (range elems).map fun j => (bytes + j * width, bytes * elems + j) := by
  unfold elementCopies
  rw [range_succ, flatMap_append, flatMap_singleton]
  simp only [add_comm bytes]

theorem elementLoops_eq (hele : 0 < elems) (bytes : Nat) :
    (range bytes).foldlM (fun (s : Pointers) i => duffsDevice width elems { s with dest := i })
        ⟨0, 0, []⟩ =
      some ⟨if bytes = 0 then 0 else bytes - 1 + elems * width, bytes * elems,
        elementCopies width elems bytes⟩ := by
  induction bytes with
  | zero => simp [elementCopies]
  | succ bytes ih =>
    rw [range_succ, foldlM_append, ih]
    dsimp only [bind, Option.bind]
    rw [foldlM_cons, duffsDevice_eq hele, statements_eq]
    rw [elementCopies_succ, Nat.succ_mul]
    rfl

theorem unshuffleCopies_eq (hwidth : width < 2 ^ 32) (hmov : width > 1 ∧ srcSize / width > 1) :
    unshuffleCopies srcSize width = some (elementCopies width (srcSize / width) width ++
        (range (srcSize % width)).map fun k =>
          (srcSize / width * width + k, srcSize / width * width + k)) := by
  have hbck : width - 1 + srcSize / width * width - (width - 1) = srcSize / width * width := by omega
  unfold unshuffleCopies copiesWith
  rw [if_neg (by omega)]
  rw [if_neg (not_not.mpr hmov), if_neg (by omega), elementLoops_eq (by omega)]
  dsimp only [bind, Option.bind]
  rw [if_neg (show ¬ width = 0 by omega), mul_comm width]
  split
  · rw [hbck]
    rfl
  next hnone =>
    rw [Nat.eq_zero_of_not_pos hnone]
    simp

theorem unshuffleCopies_of_still (hpos : 0 < width) (hsti : ¬ (width > 1 ∧ srcSize / width > 1)) :
    unshuffleCopies srcSize width = some ((range srcSize).map fun k => (k, k)) := by
  unfold unshuffleCopies copiesWith
  rw [if_neg hpos.ne']
  rw [if_pos hsti]
  simp [memcpyAll]

/-! Every byte of the destination is written once. -/

theorem mem_elementCopies : copy ∈ elementCopies width elems width ↔
      ∃ i < width, ∃ j < elems, (j * width + i, i * elems + j) = copy := by
  simp [elementCopies]

theorem lt_block {i j : Nat} (hi : i < width) (hj : j < elems) : j * width + i < elems * width := by
  calc j * width + i < j * width + width := by omega
    _ = (j + 1) * width := by rw [Nat.succ_mul]
    _ ≤ elems * width := Nat.mul_le_mul_right _ hj

theorem mem_elementPlaces (hwidth : 0 < width) :
    p ∈ (elementCopies width elems width).map Prod.fst ↔ p < elems * width := by
  rw [mem_map]
  constructor
  · intro h
    obtain ⟨copy, hcopy, rfl⟩ := h
    obtain ⟨i, hi, j, hj, rfl⟩ := mem_elementCopies.mp hcopy
    exact lt_block hi hj
  · intro hp
    refine ⟨_, mem_elementCopies.mpr ⟨p % width, Nat.mod_lt p hwidth, p / width, ?_, rfl⟩, ?_⟩
    · exact (Nat.div_lt_iff_lt_mul hwidth).mpr hp
    · exact Nat.div_add_mod' p width

theorem nodup_elementPlaces (hwidth : 0 < width) :
    ((elementCopies width elems width).map Prod.fst).Nodup := by
  unfold elementCopies
  rw [map_flatMap, nodup_flatMap]
  refine ⟨?_, ?_⟩
  · intro i _
    rw [map_map]
    apply List.Nodup.map _ nodup_range
    intro j k hjk
    exact Nat.eq_of_mul_eq_mul_right hwidth (Nat.add_right_cancel hjk)
  · apply nodup_range.imp_of_mem
    intro i k hi hk hne p hfirst hsecond
    simp only [map_map, mem_map, Function.comp_apply] at hfirst hsecond
    obtain ⟨j, -, rfl⟩ := hfirst
    obtain ⟨l, -, hsame⟩ := hsecond
    -- the byte of the element is the place modulo the width
    have hmod := congrArg (· % width) hsame
    simp only [Nat.mul_add_mod_self_right, Nat.mod_eq_of_lt (mem_range.mp hi),
      Nat.mod_eq_of_lt (mem_range.mp hk)] at hmod
    exact hne hmod.symm

theorem sum_duffPasses (hpos : 0 < elems) : (duffPasses elems).sum = elems := by
  rw [duffPasses, sum_cons, sum_replicate_nat]
  split <;> omega

theorem foldlM_passes (body : σ → Option σ) (passes : List Nat) (s : σ) :
    passes.foldlM (fun s copies => (range copies).foldlM (fun s _ => body s) s) s =
      (range passes.sum).foldlM (fun s _ => body s) s := by
  induction passes generalizing s with
  | nil => rfl
  | cons copies passes ih =>
    rw [foldlM_cons, sum_cons, range_add, foldlM_append]
    congr 1
    funext middle
    rw [foldlM_map]
    exact ih middle

theorem duffGuts_run (src : List Byte) (width count : Nat) (s : ShuffleState) :
    (range count).foldlM (fun s _ => duffGuts src width s) s =
      (copyAll src ((range count).map fun j => (s.destIndex + j * width, s.srcIndex + j)) s.dest).map
        fun dest => ⟨dest, s.destIndex + count * width, s.srcIndex + count⟩ := by
  induction count with
  | zero => simp [copyAll]
  | succ count ih =>
    rw [range_succ, foldlM_append, ih, map_append, copyAll_append]
    cases copyAll src ((range count).map fun j => (s.destIndex + j * width, s.srcIndex + j))
      s.dest with
    | none => rfl
    | some dest =>
      dsimp only [Option.map_some, Option.bind_some, bind]
      rw [foldlM_cons, duffGuts, memcpy_one, map_singleton, Nat.succ_mul, ← add_assoc]
      cases copyAll src [(s.destIndex + count * width, s.srcIndex + count)] dest <;> rfl

theorem elementLoops_run (hele : 0 < elems) (src dest : List Byte) (width bytes : Nat) :
    (range bytes).foldlM (unshuffleByte src width elems) ⟨dest, 0, 0⟩ =
      (copyAll src (elementCopies width elems bytes) dest).map fun dest =>
        ⟨dest, if bytes = 0 then 0 else bytes - 1 + elems * width, bytes * elems⟩ := by
  induction bytes with
  | zero => simp [elementCopies, copyAll]
  | succ bytes ih =>
    rw [range_succ, foldlM_append, ih, elementCopies_succ, copyAll_append]
    cases copyAll src (elementCopies width elems bytes) dest with
    | none => rfl
    | some dest =>
      rw [if_neg (Nat.succ_ne_zero bytes), Nat.succ_mul]
      dsimp only [Option.map_some, bind, Option.bind]
      rw [foldlM_cons, unshuffleByte, foldlM_passes, sum_duffPasses hele, duffGuts_run]
      simp

theorem unshuffleLoops_eq (hwidth : width < 2 ^ 32) (hmov : width > 1 ∧ src.length / width > 1)
    (hcop : unshuffleCopies src.length width = some copies) :
    unshuffleLoops src width = copyAll src copies (replicate src.length 0) := by
  have hsplit := Nat.div_add_mod' src.length width
  have hbck : width - 1 + src.length / width * width - (width - 1) = src.length / width * width := by
    omega
  rw [unshuffleCopies_eq hwidth hmov, Option.some.injEq] at hcop
  unfold unshuffleLoops
  dsimp only
  rw [← hcop, elementLoops_run (by omega), copyAll_append]
  cases hrun : copyAll src (elementCopies width (src.length / width) width)
    (replicate src.length 0) with
  | none => rfl
  | some dest =>
    have hlen := length_copyAll hrun
    rw [length_replicate] at hlen
    dsimp only [Option.map_some, bind, Option.bind]
    rw [if_neg (show ¬ width = 0 by omega), hbck, mul_comm width,
      memcpy_eq_copyAll (by omega) (by omega)]
    split
    · rfl
    next hnone =>
      rw [Nat.eq_zero_of_not_pos hnone]
      rfl

/-! Where a byte comes from. The shuffle of `elems` elements of `width` bytes is undone by the shuffle of
`width` elements of `elems` bytes. -/

theorem shuffledFrom_of_block {i j : Nat} (hi : i < width) (hj : j < elems) :
    shuffledFrom elems width (j * width + i) = i * elems + j := by
  have hblock := lt_block hi hj
  rw [mul_comm elems] at hblock
  rw [shuffledFrom, if_pos hblock, Nat.mul_add_mod_self_right, Nat.mod_eq_of_lt hi, mul_comm j,
    Nat.mul_add_div (Nat.zero_lt_of_lt hi), Nat.div_eq_of_lt hi, add_zero]

theorem shuffledFrom_of_not_lt (hp : width * elems ≤ p) : shuffledFrom elems width p = p := by
  rw [shuffledFrom, if_neg (not_lt.mpr hp)]

theorem shuffledFrom_shuffledFrom (width elems p : Nat) :
    shuffledFrom width elems (shuffledFrom elems width p) = p := by
  by_cases hp : p < width * elems
  · have hpos : 0 < width := Nat.pos_of_lt_mul_right hp
    have hi : p % width < width := Nat.mod_lt p hpos
    have hj : p / width < elems := Nat.div_lt_of_lt_mul hp
    have hplace : p / width * width + p % width = p := Nat.div_add_mod' p width
    rw [← hplace, shuffledFrom_of_block hi hj, shuffledFrom_of_block hj hi]
  · have hout := not_lt.mp hp
    rw [shuffledFrom_of_not_lt hout, shuffledFrom_of_not_lt (by rwa [mul_comm])]

theorem shuffledFrom_lt (hsize : width * elems ≤ size) (hp : p < size) :
    shuffledFrom elems width p < size := by
  by_cases hblock : p < width * elems
  · have hi : p % width < width := Nat.mod_lt p (Nat.pos_of_lt_mul_right hblock)
    have hj : p / width < elems := Nat.div_lt_of_lt_mul hblock
    have hplace : p / width * width + p % width = p := Nat.div_add_mod' p width
    rw [← hplace, shuffledFrom_of_block hi hj]
    exact lt_of_lt_of_le (lt_block hj hi) hsize
  · rwa [shuffledFrom_of_not_lt (not_lt.mp hblock)]

theorem shuffledFrom_of_still (hpos : 0 < width) (hsti : ¬ (width > 1 ∧ elems > 1))
    (p : Nat) : shuffledFrom elems width p = p := by
  by_cases hblock : p < width * elems
  · by_cases hone : width = 1
    · subst hone
      rw [shuffledFrom, if_pos hblock, Nat.mod_one, zero_mul, zero_add, Nat.div_one]
    · have hele : elems = 1 := by
        have := Nat.pos_of_lt_mul_left hblock
        omega
      subst hele
      rw [mul_one] at hblock
      rw [shuffledFrom, if_pos (by omega), Nat.mod_eq_of_lt hblock, Nat.div_eq_of_lt hblock, mul_one,
        add_zero]
  · exact shuffledFrom_of_not_lt (not_lt.mp hblock)

theorem getElem?_shuffle (width : Nat) (bytes : List Byte) (p : Nat) :
    (shuffle width bytes)[p]? = bytes[shuffledFrom width (bytes.length / width) p]? := by
  have hblock := Nat.div_mul_le_self bytes.length width
  by_cases hp : p < bytes.length
  · by_cases hmov : width > 1 ∧ bytes.length / width > 1
    · rw [shuffle, if_pos hmov, getElem?_map, getElem?_range hp, Option.map_some,
        getD_eq_getElem?_getD, getElem?_eq_getElem (shuffledFrom_lt hblock hp),
        Option.getD_some]
    · rw [shuffle, if_neg hmov]
      by_cases hele : 0 < bytes.length / width
      · rw [shuffledFrom_of_still hele (fun h => hmov h.symm)]
      · rw [shuffledFrom_of_not_lt (by rw [Nat.eq_zero_of_not_pos hele]; omega)]
  · rw [shuffledFrom_of_not_lt (by omega), getElem?_eq_none (by rw [length_shuffle]; omega),
      getElem?_eq_none (not_lt.mp hp)]

theorem unshuffleCopies_places {srcSize width : Nat} (hpos : 0 < width) (hwidth : width < 2 ^ 32) :
    ∃ copies, unshuffleCopies srcSize width = some copies ∧ (copies.map Prod.fst).Perm (range srcSize) ∧
      ∀ copy ∈ copies, copy.2 = shuffledFrom (srcSize / width) width copy.1 := by
  by_cases hmov : width > 1 ∧ srcSize / width > 1
  · have hsplit : srcSize / width * width + srcSize % width = srcSize := Nat.div_add_mod' srcSize width
    refine ⟨_, unshuffleCopies_eq hwidth hmov, ?_, ?_⟩
    · have hplc : ((elementCopies width (srcSize / width) width).map Prod.fst).Perm
          (range (srcSize / width * width)) := by
        rw [perm_ext_iff_of_nodup (nodup_elementPlaces hpos) nodup_range]
        intro p
        rw [mem_elementPlaces hpos, mem_range]
      have hran : range srcSize = range (srcSize / width * width) ++
          (range (srcSize % width)).map (srcSize / width * width + ·) := by
        rw [← range_add, hsplit]
      rw [hran, map_append, map_map]
      exact hplc.append_right _
    · intro copy hcopy
      obtain hcopy | hcopy := mem_append.mp hcopy
      · obtain ⟨i, hi, j, hj, rfl⟩ := mem_elementCopies.mp hcopy
        exact (shuffledFrom_of_block hi hj).symm
      · obtain ⟨k, -, rfl⟩ := mem_map.mp hcopy
        rw [shuffledFrom_of_not_lt]
        rw [mul_comm]
        omega
  · refine ⟨_, unshuffleCopies_of_still hpos hmov, ?_, ?_⟩
    · rw [map_map]
      exact Perm.of_eq (map_id' _)
    · intro copy hcopy
      obtain ⟨k, -, rfl⟩ := mem_map.mp hcopy
      exact (shuffledFrom_of_still hpos hmov k).symm

def gathered (width : Nat) (src : List Byte) : List Byte :=
  (range src.length).map fun p => src.getD (shuffledFrom (src.length / width) width p) 0

@[simp] theorem length_gathered (width : Nat) (src : List Byte) :
    (gathered width src).length = src.length := by
  simp [gathered]

theorem getElem?_gathered (hp : p < src.length) :
    (gathered width src)[p]? = src[shuffledFrom (src.length / width) width p]? := by
  have hfrm := shuffledFrom_lt (Nat.mul_div_le src.length width) hp
  rw [gathered, getElem?_map, getElem?_range hp, Option.map_some, getD_eq_getElem?_getD,
    getElem?_eq_getElem hfrm, Option.getD_some]

theorem shuffle_gathered (width : Nat) (src : List Byte) : shuffle width (gathered width src) = src := by
  apply ext_getElem?
  intro p
  rw [getElem?_shuffle, length_gathered]
  by_cases hp : p < src.length
  · rw [getElem?_gathered (shuffledFrom_lt (Nat.div_mul_le_self src.length width) hp),
      shuffledFrom_shuffledFrom]
  · have hout : src.length / width * width ≤ p :=
      le_trans (Nat.div_mul_le_self src.length width) (not_lt.mp hp)
    rw [shuffledFrom_of_not_lt hout, getElem?_eq_none (by rw [length_gathered]; omega),
      getElem?_eq_none (not_lt.mp hp)]

theorem gathered_shuffle (width : Nat) (bytes : List Byte) : gathered width (shuffle width bytes) = bytes := by
  apply ext_getElem?
  intro p
  by_cases hp : p < bytes.length
  · rw [getElem?_gathered (by rwa [length_shuffle]), getElem?_shuffle, length_shuffle,
      shuffledFrom_shuffledFrom]
  · rw [getElem?_eq_none (by simpa using hp), getElem?_eq_none (not_lt.mp hp)]

theorem copyAll_gathered (hdst : dest.length = src.length) (hprm : (copies.map Prod.fst).Perm (range src.length))
    (horigin : ∀ copy ∈ copies, copy.2 = shuffledFrom (src.length / width) width copy.1) :
    copyAll src copies dest = some (gathered width src) := by
  apply @copyAll_eq Byte src dest (shuffledFrom (src.length / width) width) copies
  · intro copy hcopy
    have hplace := mem_range.mp (hprm.mem_iff.mp (mem_map_of_mem hcopy))
    rw [horigin copy hcopy]
    exact ⟨rfl, shuffledFrom_lt (Nat.mul_div_le src.length width) hplace⟩
  · rwa [hdst]
  · rw [length_gathered, hdst]
  · intro p hp
    exact getElem?_gathered (hdst ▸ hp)

theorem unshuffle_shuffle (hwidth : 0 < width) (bytes : List Byte) :
    unshuffle (shuffle width bytes) bytes.length width =
      if width < 2 ^ 32 ∨ bytes.length / width < 2 then some bytes else none := by
  unfold unshuffle
  rw [if_neg (by omega)]
  by_cases hmov : width > 1 ∧ bytes.length / width > 1
  · rw [if_neg (by simpa using hmov), length_shuffle]
    by_cases hlar : 2 ^ 32 ≤ width
    · rw [if_pos (.inr hlar), if_neg (by omega)]
    · rw [if_neg (by omega), if_pos (.inl (by omega))]
      have hlen := length_shuffle width bytes
      obtain ⟨copies, hcop, hprm, horigin⟩ :=
        @unshuffleCopies_places (shuffle width bytes).length width hwidth (by omega)
      rw [unshuffleLoops_eq (by omega) (by rwa [hlen]) hcop,
        copyAll_gathered (length_replicate ..) hprm horigin, gathered_shuffle]
  · have hsta : shuffle width bytes = bytes := if_neg hmov
    rw [if_pos hmov, hsta, if_pos]
    by_contra hnot
    exact hmov ⟨by omega, by omega⟩

/-- The copies of `unshuffle` write every byte of the destination once, are those of the plain loop, and
bring back the bytes that were shuffled. -/
theorem unshuffle_undoes_shuffle {width : Nat} (hpos : 1 ≤ width) (hwidth : width < 2 ^ 32)
    (src dest : List Byte) (hdest : dest.length = src.length) :
    ∃ copies result, unshuffleCopies src.length width = some copies ∧
      plainCopies src.length width = some copies ∧ (copies.map Prod.fst).Perm (range dest.length) ∧
      copyAll src copies dest = some result ∧ unshuffle src src.length width = some result ∧
      shuffle width result = src ∧ ∀ bytes, shuffle width bytes = src → result = bytes := by
  obtain ⟨copies, hcop, hperm, horigin⟩ := @unshuffleCopies_places src.length width hpos hwidth
  have hinv := shuffle_gathered width src
  refine ⟨copies, gathered width src, hcop, ?_, ?_, ?_, ?_, hinv, ?_⟩
  · rw [← unshuffleCopies_eq_plainCopies]
    exact hcop
  · rw [hdest]
    exact hperm
  · exact copyAll_gathered hdest hperm horigin
  · have hund := unshuffle_shuffle hpos (gathered width src)
    rwa [hinv, length_gathered, if_pos (.inl hwidth)] at hund
  · intro bytes hbytes
    rw [← hbytes]
    exact gathered_shuffle width bytes

theorem unshuffle_undoes_shuffle_of_seven :
    ∃ copies, unshuffleCopies 7 3 = some copies ∧ (copies.map Prod.fst).Perm (range 7) ∧
      copyAll [(1 : Byte), 4, 2, 5, 3, 6, 7] copies (replicate 7 0) = some [1, 2, 3, 4, 5, 6, 7] := by
  obtain ⟨copies, result, hcop, -, hperm, hrun, -, -, hback⟩ :=
    @unshuffle_undoes_shuffle 3 (by decide) (by decide) [1, 4, 2, 5, 3, 6, 7] (replicate 7 0) rfl
  rw [hback [1, 2, 3, 4, 5, 6, 7] (by decide)] at hrun
  exact ⟨copies, hcop, hperm, hrun⟩

end Bes.Dmrpp.Unshuffle
