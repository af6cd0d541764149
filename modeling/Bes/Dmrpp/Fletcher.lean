import Bes.Dmrpp.Filter

/-! `checksum_fletcher32` in 32 bits. A version of it whose additions stop at an overflow gives the same sum,
and the two halves of the sum are the sums of the words and of their prefix sums modulo 65535. -/
namespace Bes.Dmrpp.Fletcher
open Dmrpp.Array Dmrpp.Filter List

/-! The function with additions that stop at an overflow. -/

def checkedAdd (a b : UInt32) : Option UInt32 :=
  if a.toNat + b.toNat < 2 ^ 32 then some (a + b) else none

def checkedFoldSum (sum : UInt32) : Option UInt32 :=
  checkedAdd (sum &&& (0xffff : UInt32)) (sum >>> 16)

def checkedWords : Nat → List Byte → UInt32 → UInt32 → Option (List Byte × UInt32 × UInt32)
  | 0, data, sum1, sum2 => some (data, sum1, sum2)
  | tlen + 1, high :: low :: data, sum1, sum2 => do
      let sum1 ← checkedAdd sum1 ((high.toUInt32 <<< 8) ||| low.toUInt32)
      let sum2 ← checkedAdd sum2 sum1
      checkedWords tlen data sum1 sum2
  | _ + 1, _, _, _ => none

def checkedBlocks : Nat → Nat → List Byte → UInt32 → UInt32 → Option (List Byte × UInt32 × UInt32)
  | _, 0, data, sum1, sum2 => some (data, sum1, sum2)
  | 0, _ + 1, _, _, _ => none
  | rounds + 1, len + 1, data, sum1, sum2 => do
      let tlen := if len + 1 > 360 then 360 else len + 1
      let (data, sum1, sum2) ← checkedWords tlen data sum1 sum2
      let sum1 ← checkedFoldSum sum1
      let sum2 ← checkedFoldSum sum2
      checkedBlocks rounds (len + 1 - tlen) data sum1 sum2

def checkedOdd (rest : List Byte) (sum1 sum2 : UInt32) : Option (UInt32 × UInt32) :=
  match rest with
  | last :: _ => do
      let sum1 ← checkedAdd sum1 (last.toUInt32 <<< 8)
      let sum2 ← checkedAdd sum2 sum1
      let sum1 ← checkedFoldSum sum1
      let sum2 ← checkedFoldSum sum2
      some (sum1, sum2)
  | [] => some (sum1, sum2)

/-- The sums with the odd last byte, as `checksum_fletcher32` adds them. -/
def oddSums (rest : List Byte) (sum1 sum2 : UInt32) : UInt32 × UInt32 :=
  match rest with
  | last :: _ =>
      let sum1 := sum1 + (last.toUInt32 <<< 8)
      (foldSum sum1, foldSum (sum2 + sum1))
  | [] => (sum1, sum2)

def checkedChecksum (data : List Byte) : Option UInt32 := do
  if data = [] then none
  let len := data.length / 2
  let (rest, sum1, sum2) ← checkedBlocks len len data 0 0
  let (sum1, sum2) ← checkedOdd rest sum1 sum2
  let sum2 ← checkedFoldSum sum2
  let sum1 ← checkedFoldSum sum1
  some ((sum2 <<< 16) ||| sum1)

def words : List Byte → List Nat
  | [] => []
  | [last] => [last.toNat * 256]
  | high :: low :: data => (high.toNat * 256 + low.toNat) :: words data

theorem words_append {first : List Byte} (hevn : first.length % 2 = 0) (second : List Byte) :
    words (first ++ second) = words first ++ words second := by
  match first with
  | [] => rfl
  | [last] =>
    rw [length_singleton] at hevn
    omega
  | high :: low :: first =>
    simp only [length_cons] at hevn
    rw [cons_append, cons_append, words, words, words_append (by omega), cons_append]

def prefixSums (words : List Nat) : List Nat :=
  (range words.length).map fun k => (words.take (k + 1)).sum

theorem sum_prefixSums_append (done : List Nat) (word : Nat) :
    (prefixSums (done ++ [word])).sum = (prefixSums done).sum + (done.sum + word) := by
  have hfst : ∀ k ∈ range done.length,
      ((done ++ [word]).take (k + 1)).sum = (done.take (k + 1)).sum := by
    intro k hk
    rw [take_append_of_le_length (mem_range.mp hk)]
  unfold prefixSums
  rw [length_append, length_singleton, range_succ, map_append, sum_append,
    map_congr_left hfst, map_singleton, sum_singleton, take_of_length_le]
  · simp
  · simp

theorem toNat_word (high low : Byte) :
    ((high.toUInt32 <<< 8) ||| low.toUInt32).toNat = high.toNat * 256 + low.toNat := by
  have hhgh := high.toNat_lt
  have hlow : low.toNat < 2 ^ 8 := low.toNat_lt
  have hor := Nat.shiftLeft_add_eq_or_of_lt hlow high.toNat
  rw [Nat.shiftLeft_eq] at hor
  rw [UInt32.toNat_or, UInt32.toNat_shiftLeft]
  simp only [UInt8.toNat_toUInt32, UInt32.reduceToNat, Nat.shiftLeft_eq, Nat.reduceMod, Nat.reducePow]
  rw [Nat.mod_eq_of_lt (by omega)]
  exact hor.symm

theorem toNat_lastWord (last : Byte) : (last.toUInt32 <<< 8).toNat = last.toNat * 256 := by
  have hlst := last.toNat_lt
  rw [UInt32.toNat_shiftLeft]
  simp only [UInt8.toNat_toUInt32, UInt32.reduceToNat, Nat.shiftLeft_eq, Nat.reduceMod, Nat.reducePow]
  rw [Nat.mod_eq_of_lt (by omega)]

theorem toNat_low (sum : UInt32) : (sum &&& (0xffff : UInt32)).toNat = sum.toNat % 65536 := by
  exact Nat.and_two_pow_sub_one_eq_mod sum.toNat 16

theorem toNat_high (sum : UInt32) : (sum >>> 16).toNat = sum.toNat / 65536 := by
  simp [Nat.shiftRight_eq_div_pow]

theorem checkedAdd_eq {a b : UInt32} (h : a.toNat + b.toNat < 2 ^ 32) :
    checkedAdd a b = some (a + b) ∧ (a + b).toNat = a.toNat + b.toNat := by
  refine ⟨if_pos h, ?_⟩
  rw [UInt32.toNat_add, Nat.mod_eq_of_lt h]

theorem checkedFoldSum_eq (sum : UInt32) : checkedFoldSum sum = some (foldSum sum) ∧
      (foldSum sum).toNat = sum.toNat % 65536 + sum.toNat / 65536 ∧
      (foldSum sum).toNat ≡ sum.toNat [MOD 65535] := by
  have hlt := sum.toNat_lt
  have hlow := toNat_low sum
  have hhgh := toNat_high sum
  obtain ⟨hadd, hton⟩ := @checkedAdd_eq (sum &&& (0xffff : UInt32)) (sum >>> 16) (by omega)
  have hfld : (foldSum sum).toNat = sum.toNat % 65536 + sum.toNat / 65536 := by
    unfold foldSum
    omega
  refine ⟨hadd, hfld, ?_⟩
  unfold Nat.ModEq
  omega

def secondBound (count : Nat) : Nat := 131070 + count * 65896 + count * (count + 1) / 2 * 65535

theorem secondBound_succ (count : Nat) :
    secondBound (count + 1) = secondBound count + (65896 + (count + 1) * 65535) := by
  have hhlf : (count + 1) * (count + 1 + 1) / 2 = count * (count + 1) / 2 + (count + 1) := by
    have hdou : (count + 1) * (count + 1 + 1) = count * (count + 1) + (count + 1) * 2 := by
      ring
    rw [hdou, Nat.add_mul_div_right _ _ (by decide)]
  unfold secondBound
  rw [hhlf]
  ring

theorem secondBound_lt {count : Nat} (hcnt : count ≤ 360) : secondBound count < 2 ^ 32 := by
  have hmon : Monotone secondBound := by
    apply monotone_nat_of_le_succ
    intro n
    rw [secondBound_succ]
    exact Nat.le_add_right _ _
  exact (hmon hcnt).trans_lt (by decide)

/-- The two sums after some words, the last `count` of them in the block at hand. -/
structure Sums (done : List Nat) (count : Nat) (sum1 sum2 : UInt32) : Prop where
  first_le : sum1.toNat ≤ 65896 + count * 65535
  second_le : sum2.toNat ≤ secondBound count
  first_mod : sum1.toNat ≡ done.sum [MOD 65535]
  second_mod : sum2.toNat ≡ (prefixSums done).sum [MOD 65535]

namespace Sums

variable {done : List Nat} {count : Nat}

theorem zero : Sums [] 0 0 0 where
  first_le := Nat.zero_le _
  second_le := Nat.zero_le _
  first_mod := rfl
  second_mod := rfl

theorem add (hsms : Sums done count sum1 sum2) (hcnt : count < 360) (hwrd : word.toNat ≤ 65535) :
    checkedAdd sum1 word = some (sum1 + word) ∧
      checkedAdd sum2 (sum1 + word) = some (sum2 + (sum1 + word)) ∧
      Sums (done ++ [word.toNat]) (count + 1) (sum1 + word) (sum2 + (sum1 + word)) := by
  have hfst := hsms.first_le
  have hsnd := hsms.second_le
  have hbd := secondBound_lt (Nat.succ_le_of_lt hcnt)
  rw [secondBound_succ] at hbd
  obtain ⟨hadd, hton⟩ := @checkedAdd_eq sum1 word (by omega)
  obtain ⟨hadd', htoNat'⟩ := @checkedAdd_eq sum2 (sum1 + word) (by rw [hton]; omega)
  refine ⟨hadd, hadd', ?_, ?_, ?_, ?_⟩
  · omega
  · rw [secondBound_succ]
    omega
  · rw [hton, sum_append, sum_singleton]
    exact hsms.first_mod.add_right _
  · rw [htoNat', hton, sum_prefixSums_append]
    exact hsms.second_mod.add (hsms.first_mod.add_right _)

theorem fold (hsms : Sums done count sum1 sum2) (hcnt : count ≤ 360) :
    Sums done 0 (foldSum sum1) (foldSum sum2) := by
  obtain ⟨-, hfst, hfir⟩ := checkedFoldSum_eq sum1
  obtain ⟨-, hsnd, hsec⟩ := checkedFoldSum_eq sum2
  have hle := hsms.first_le
  have hlt := sum2.toNat_lt
  refine ⟨?_, ?_, hfir.trans hsms.first_mod, hsec.trans hsms.second_mod⟩
  · omega
  · unfold secondBound
    omega

theorem checkedWords {tlen : Nat} (hsms : Sums done count sum1 sum2) (hcnt : count + tlen ≤ 360)
    {data : List Byte} (hlen : 2 * tlen ≤ data.length) :
    ∃ s1 s2, Fletcher.checkedWords tlen data sum1 sum2 = some (data.drop (2 * tlen), s1, s2) ∧
      fletcherWords tlen data sum1 sum2 = some (data.drop (2 * tlen), s1, s2) ∧
      Sums (done ++ words (data.take (2 * tlen))) (count + tlen) s1 s2 := by
  induction tlen generalizing data sum1 sum2 done count with
  | zero => exact ⟨sum1, sum2, rfl, rfl, by simpa [words] using hsms⟩
  | succ tlen ih =>
    match data with
    | [] | [_] =>
      simp only [length_cons, length_nil] at hlen
      omega
    | high :: low :: data =>
      have hwrd := toNat_word high low
      have hhgh := high.toNat_lt
      have hlow := low.toNat_lt
      obtain ⟨hfst, hsnd, hnxt⟩ := hsms.add (by omega)
        (show ((high.toUInt32 <<< 8) ||| low.toUInt32).toNat ≤ 65535 by omega)
      simp only [length_cons] at hlen
      have hdat : 2 * tlen ≤ data.length := by omega
      obtain ⟨s1, s2, hche, hpla, hrst⟩ := ih hnxt (by omega) hdat
      refine ⟨s1, s2, ?_, ?_, ?_⟩
      · rw [Fletcher.checkedWords, hfst]
        dsimp only [bind, Option.bind]
        rw [hsnd]
        exact hche
      · exact hpla
      · rw [hwrd, append_assoc, Nat.add_assoc, Nat.add_comm 1] at hrst
        exact hrst

theorem checkedBlocks {rounds len : Nat} (hrou : len ≤ rounds) (hsms : Sums done 0 sum1 sum2)
    {data : List Byte} (hlen : 2 * len ≤ data.length) :
    ∃ s1 s2, Fletcher.checkedBlocks rounds len data sum1 sum2 = some (data.drop (2 * len), s1, s2) ∧
      fletcherBlocks rounds len data sum1 sum2 = some (data.drop (2 * len), s1, s2) ∧
      Sums (done ++ words (data.take (2 * len))) 0 s1 s2 := by
  induction rounds generalizing len data sum1 sum2 done with
  | zero =>
    obtain rfl : len = 0 := by omega
    refine ⟨sum1, sum2, ?_, ?_, by simpa [words] using hsms⟩
    · rfl
    · rfl
  | succ rounds ih =>
    cases len with
    | zero =>
      refine ⟨sum1, sum2, ?_, ?_, by simpa [words] using hsms⟩
      · rfl
      · rfl
    | succ len =>
      rw [Fletcher.checkedBlocks, fletcherBlocks]
      have htln : (if len + 1 > 360 then 360 else len + 1) ≤ len + 1 ∧
          0 < (if len + 1 > 360 then 360 else len + 1) ∧
          (if len + 1 > 360 then 360 else len + 1) ≤ 360 := by
        split <;> omega
      generalize (if len + 1 > 360 then 360 else len + 1) = tlen at *
      obtain ⟨s1, s2, hche, hpla, hblo⟩ := @Sums.checkedWords done 0 sum1 sum2 tlen hsms
        (by omega) data (by omega)
      have hdat : 2 * (len + 1 - tlen) ≤ (data.drop (2 * tlen)).length := by
        rw [length_drop]
        omega
      obtain ⟨t1, t2, hche', hpla', hrst⟩ := ih (by omega) (hblo.fold (by omega)) hdat
      have hdrp : (data.drop (2 * tlen)).drop (2 * (len + 1 - tlen)) = data.drop (2 * (len + 1)) := by
        rw [drop_drop]
        congr 1
        omega
      have hwor : words (data.take (2 * tlen)) ++
          words ((data.drop (2 * tlen)).take (2 * (len + 1 - tlen))) =
          words (data.take (2 * (len + 1))) := by
        have hspl : 2 * (len + 1) = 2 * tlen + 2 * (len + 1 - tlen) := by omega
        rw [hspl, take_add, words_append]
        rw [length_take]
        omega
      rw [hdrp] at hche' hpla'
      rw [append_assoc, hwor] at hrst
      refine ⟨t1, t2, ?_, ?_, hrst⟩
      · rw [hche]
        dsimp only [bind, Option.bind]
        rw [(checkedFoldSum_eq s1).1]
        rw [(checkedFoldSum_eq s2).1]
        exact hche'
      · rw [hpla]
        exact hpla'

theorem checkedOdd (hsms : Sums done 0 sum1 sum2) (hrst : rest.length < 2) :
    ∃ s1 s2, Fletcher.checkedOdd rest sum1 sum2 = some (s1, s2) ∧
      oddSums rest sum1 sum2 = (s1, s2) ∧ Sums (done ++ words rest) 0 s1 s2 := by
  match rest with
  | [] => exact ⟨sum1, sum2, rfl, rfl, by simpa [words] using hsms⟩
  | [last] =>
    have hwrd := toNat_lastWord last
    have hlst := last.toNat_lt
    obtain ⟨hfst, hsnd, hnxt⟩ := hsms.add (by decide)
      (show (last.toUInt32 <<< 8).toNat ≤ 65535 by omega)
    refine ⟨_, _, ?_, rfl, ?_⟩
    · dsimp only [Fletcher.checkedOdd]
      rw [hfst]
      dsimp only [bind, Option.bind]
      rw [hsnd]
      rw [(checkedFoldSum_eq _).1]
      dsimp only
      rw [(checkedFoldSum_eq _).1]
    · rw [hwrd] at hnxt
      exact hnxt.fold (by decide)
  | _ :: _ :: _ =>
    simp only [length_cons] at hrst
    omega

theorem fold_lt (hsms : Sums done 0 sum1 sum2) :
    (foldSum sum1).toNat < 2 ^ 16 ∧ (foldSum sum2).toNat < 2 ^ 16 := by
  have hfst := hsms.first_le
  have hsnd := hsms.second_le
  have hfold1 := (checkedFoldSum_eq sum1).2.1
  have hfold2 := (checkedFoldSum_eq sum2).2.1
  unfold secondBound at hsnd
  omega

end Sums

theorem checksumFletcher32_eq (hne : data ≠ [])
    (hblc : fletcherBlocks (data.length / 2) (data.length / 2) data 0 0 = some (rest, sum1, sum2)) :
    checksumFletcher32 data = some ((foldSum (oddSums rest sum1 sum2).2 <<< 16) |||
      foldSum (oddSums rest sum1 sum2).1) := by
  unfold checksumFletcher32
  rw [if_neg hne]
  dsimp only [bind, Option.bind]
  rw [hblc]
  cases rest <;> rfl

/-- No addition overflows, and the halves of the checksum are the two sums modulo 65535. -/
theorem checksumFletcher32_exact {data : List Byte} (hne : data ≠ []) :
    ∃ sum1 sum2 : UInt32, checkedChecksum data = some ((sum2 <<< 16) ||| sum1) ∧
      checksumFletcher32 data = some ((sum2 <<< 16) ||| sum1) ∧
      sum1.toNat < 2 ^ 16 ∧ sum2.toNat < 2 ^ 16 ∧
      sum1.toNat ≡ (words data).sum [MOD 65535] ∧
      sum2.toNat ≡ (prefixSums (words data)).sum [MOD 65535] := by
  obtain ⟨s1, s2, hche, hpla, hblc⟩ :=
    @Sums.checkedBlocks [] 0 0 (data.length / 2) (data.length / 2) le_rfl Sums.zero data (by omega)
  have hrest : (data.drop (2 * (data.length / 2))).length < 2 := by
    rw [length_drop]
    omega
  obtain ⟨t1, t2, hodd, hodd', hall⟩ := hblc.checkedOdd hrest
  have hwor : words (data.take (2 * (data.length / 2))) ++ words (data.drop (2 * (data.length / 2))) =
      words data := by
    rw [← words_append, take_append_drop]
    rw [length_take]
    omega
  rw [nil_append, hwor] at hall
  have hfold := hall.fold (by decide)
  obtain ⟨hlt1, hlt2⟩ := hall.fold_lt
  refine ⟨foldSum t1, foldSum t2, ?_, ?_, hlt1, hlt2, hfold.first_mod, hfold.second_mod⟩
  · unfold checkedChecksum
    rw [if_neg hne]
    dsimp only [bind, Option.bind]
    rw [hche]
    dsimp only
    rw [hodd]
    dsimp only
    rw [(checkedFoldSum_eq t2).1]
    rw [(checkedFoldSum_eq t1).1]
  · rw [checksumFletcher32_eq hne hpla, hodd']

theorem checksumFletcher32_exact_three : [1, 2, 3] ≠ ([] : List Byte) ∧
    ∃ sum1 sum2 : UInt32, checkedChecksum [1, 2, 3] = some ((sum2 <<< 16) ||| sum1) ∧
      checksumFletcher32 [1, 2, 3] = some ((sum2 <<< 16) ||| sum1) ∧
      sum1.toNat < 2 ^ 16 ∧ sum2.toNat < 2 ^ 16 ∧
      sum1.toNat ≡ (words [1, 2, 3]).sum [MOD 65535] ∧
      sum2.toNat ≡ (prefixSums (words [1, 2, 3])).sum [MOD 65535] :=
  ⟨by decide, checksumFletcher32_exact (by decide)⟩

end Bes.Dmrpp.Fletcher
