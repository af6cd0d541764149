import Bes.Dmrpp.Array
import Bes.Dmrpp.ChunkMetadata

/-! The base64 coder of the DMR++ handler. Accumulators are natural numbers; the
decoder's is 32 bits wide and is never cleared between quanta. -/
namespace Bes.Dmrpp.Base64
open Dmrpp.Array Dmrpp.ChunkMetadata List Option

def encodeLookup : Text :=
  "ABCDEFGHIJKLMNOPQRSTUVWXYZabcdefghijklmnopqrstuvwxyz0123456789+/".toList

def padCharacter : Char := '='

/-- The character for the bits of `temp` under a mask. -/
def lookup (temp mask shift : Nat) : Char :=
  encodeLookup.getD ((temp &&& mask) >>> shift) padCharacter

def quantum (b0 b1 b2 : Byte) : Nat := (b0.toNat <<< 16) + (b1.toNat <<< 8) + b2.toNat

def encodeQuanta : Nat → List Byte → Option (Text × List Byte)
  | 0, cursor => some ([], cursor)
  | count + 1, b0 :: b1 :: b2 :: cursor => do
      let temp := quantum b0 b1 b2
      let (encoded, cursor) ← encodeQuanta count cursor
      some ([lookup temp 0x00FC0000 18, lookup temp 0x0003F000 12, lookup temp 0x00000FC0 6,
        lookup temp 0x0000003F 0] ++ encoded, cursor)
  | _ + 1, _ => none

def encodeRest : Nat → List Byte → Option Text
  | 1, b0 :: _ =>
      let temp := quantum b0 0 0
      some [lookup temp 0x00FC0000 18, lookup temp 0x0003F000 12, padCharacter, padCharacter]
  | 2, b0 :: b1 :: _ =>
      let temp := quantum b0 b1 0
      some [lookup temp 0x00FC0000 18, lookup temp 0x0003F000 12, lookup temp 0x00000FC0 6,
        padCharacter]
  | 0, _ => some []
  | _, _ => none

/-- The parameter is an `int32_t` while callers pass a `size_t`. -/
def sizeAsInt32 (size : Nat) : Int := (size : Int).bmod (2 ^ 32)

/-- The argument of `reserve`, before it is taken as an `int` and then as a `size_t`. -/
def reserved (size : Int) : Int := (size.tdiv 3 + if 0 < size.tmod 3 then 1 else 0) * 4

/-- No result where the argument of `reserve` overflows the `int`, or where it is negative and `reserve` throws
`std::length_error`. For a size of -1 or -2 no loop runs and no case of the switch applies. -/
def encode (cursor : List Byte) (size : Nat) : Option Text :=
  if reserved (sizeAsInt32 size) < 0 ∨ 2 ^ 31 ≤ reserved (sizeAsInt32 size) then none
  else if sizeAsInt32 size < 0 then some []
  else do
    let size := (sizeAsInt32 size).toNat
    let (encoded, cursor) ← encodeQuanta (size / 3) cursor
    let rest ← encodeRest (size % 3) cursor
    some (encoded ++ rest)

def sextet (c : Char) : Option Nat :=
  if 0x41 ≤ c.toNat ∧ c.toNat ≤ 0x5A then some (c.toNat - 0x41)
  else if 0x61 ≤ c.toNat ∧ c.toNat ≤ 0x7A then some (c.toNat - 0x47)
  else if 0x30 ≤ c.toNat ∧ c.toNat ≤ 0x39 then some (c.toNat + 0x04)
  else if c.toNat = 0x2B then some 0x3E
  else if c.toNat = 0x2F then some 0x3F
  else none

def byteAt (temp shift : Nat) : Byte := UInt8.ofNat ((temp >>> shift) &&& 0x000000FF)

/-- The two nested loops as one over the characters, with the position in the
quantum. A pad character ends the work. -/
def decodeLoop : Nat → List Char → Nat → List Byte → Except Exn (List Byte)
  | _, [], _, decodedBytes => .ok decodedBytes
  | quantumPosition, c :: cursor, temp, decodedBytes =>
      let temp := (temp <<< 6) % 2 ^ 32
      match sextet c with
      | some value =>
          let temp := temp ||| value
          if quantumPosition = 3 then
            decodeLoop 0 cursor temp
              (decodedBytes ++ [byteAt temp 16, byteAt temp 8, byteAt temp 0])
          else decodeLoop (quantumPosition + 1) cursor temp decodedBytes
      | none =>
          if c = padCharacter then
            match cursor.length + 1 with
            | 1 => .ok (decodedBytes ++ [byteAt temp 16, byteAt temp 8])
            | 2 => .ok (decodedBytes ++ [byteAt temp 10])
            | _ => .error (.runtimeError "Invalid Padding in Base 64!")
          else .error (.runtimeError "Non-Valid Character in Base 64!")

def decode (input : Text) : Except Exn (List Byte) :=
  if input.length % 4 ≠ 0 then .error (.runtimeError "Non-Valid base64!")
  else decodeLoop 0 input 0 []

/-! Masks and shifts as quotients and remainders. -/

theorem and_shiftRight (temp shift width : Nat) :
    (temp &&& ((2 ^ width - 1) <<< shift)) >>> shift = temp / 2 ^ shift % 2 ^ width := by
  rw [Nat.shiftRight_and_distrib, Nat.shiftLeft_shiftRight, Nat.and_two_pow_sub_one_eq_mod,
    Nat.shiftRight_eq_div_pow]

theorem sextet_encodeLookup (hval : value < 64) :
    sextet (encodeLookup.getD value padCharacter) = some value := by
  have hall : ∀ value : Fin 64,
      sextet (encodeLookup.getD value.val padCharacter) = some value.val := by
    decide +kernel
  exact hall ⟨value, hval⟩

theorem sextet_lookup (temp : Nat) : sextet (lookup temp 0x00FC0000 18) = some (temp / 2 ^ 18 % 64) ∧
      sextet (lookup temp 0x0003F000 12) = some (temp / 2 ^ 12 % 64) ∧
      sextet (lookup temp 0x00000FC0 6) = some (temp / 2 ^ 6 % 64) ∧
      sextet (lookup temp 0x0000003F 0) = some (temp % 64) := by
  have hloo : ∀ shift, sextet (lookup temp ((2 ^ 6 - 1) <<< shift) shift) =
      some (temp / 2 ^ shift % 64) := by
    intro shift
    unfold lookup
    rw [and_shiftRight]
    exact sextet_encodeLookup (Nat.mod_lt _ (by decide))
  refine ⟨hloo 18, hloo 12, hloo 6, ?_⟩
  have hzer := hloo 0
  rwa [pow_zero, Nat.div_one] at hzer

theorem shift_or (hval : value < 64) :
    ((temp <<< 6) % 2 ^ 32) ||| value = temp % 2 ^ 26 * 64 + value := by
  have hmod : (temp <<< 6) % 2 ^ 32 = (temp % 2 ^ 26) <<< 6 := by
    omega
  rw [hmod, ← Nat.shiftLeft_add_eq_or_of_lt hval, Nat.shiftLeft_eq]

theorem byteAt_eq (temp shift : Nat) : byteAt temp shift = UInt8.ofNat (temp / 2 ^ shift) := by
  unfold byteAt
  rw [Nat.shiftRight_eq_div_pow]
  have hmsk : (0x000000FF : Nat) = 2 ^ 8 - 1 := rfl
  rw [hmsk, Nat.and_two_pow_sub_one_eq_mod]
  apply UInt8.toNat_inj.mp
  simp

theorem quantum_eq (b0 b1 b2 : Byte) :
    quantum b0 b1 b2 = b0.toNat * 65536 + b1.toNat * 256 + b2.toNat := by
  simp [quantum, Nat.shiftLeft_eq]

def encoded : List Byte → Text
  | b0 :: b1 :: b2 :: rest =>
      [lookup (quantum b0 b1 b2) 0x00FC0000 18, lookup (quantum b0 b1 b2) 0x0003F000 12,
        lookup (quantum b0 b1 b2) 0x00000FC0 6, lookup (quantum b0 b1 b2) 0x0000003F 0] ++
      encoded rest
  | [b0, b1] =>
      [lookup (quantum b0 b1 0) 0x00FC0000 18, lookup (quantum b0 b1 0) 0x0003F000 12,
        lookup (quantum b0 b1 0) 0x00000FC0 6, padCharacter]
  | [b0] =>
      [lookup (quantum b0 0 0) 0x00FC0000 18, lookup (quantum b0 0 0) 0x0003F000 12,
        padCharacter, padCharacter]
  | [] => []

theorem length_encoded (bytes : List Byte) : (encoded bytes).length = 4 * ((bytes.length + 2) / 3) := by
  fun_induction encoded bytes with
  | case1 b0 b1 b2 rest ih =>
    simp only [length_append, length_cons, length_nil, ih]
    omega
  | case2 | case3 => simp
  | case4 => rfl

theorem encodeQuanta_encodeRest (hrst : rest < 3) (count : Nat) (hlen : 3 * count + rest ≤ cursor.length) :
    ((encodeQuanta count cursor).bind fun first =>
      (encodeRest rest first.2).bind fun last => some (first.1 ++ last)) =
      some (encoded (cursor.take (3 * count + rest))) := by
  induction count generalizing cursor with
  | zero =>
    match rest, cursor, hrst, hlen with
    | 0, _, _, _ => simp [encodeQuanta, encodeRest, encoded]
    | 1, b0 :: _, _, _ => simp [encodeQuanta, encodeRest, encoded]
    | 2, b0 :: b1 :: _, _, _ => simp [encodeQuanta, encodeRest, encoded]
  | succ count ih =>
    match cursor with
    | [] | [_] | [_, _] =>
      simp only [length_cons, length_nil] at hlen
      omega
    | b0 :: b1 :: b2 :: cursor =>
      have hsho : 3 * count + rest ≤ cursor.length := by
        simp only [length_cons] at hlen
        omega
      have htak : 3 * (count + 1) + rest = 3 * count + rest + 1 + 1 + 1 := by omega
      have htal := ih hsho
      rw [htak, take_succ_cons, take_succ_cons, take_succ_cons, encoded]
      rw [bind_eq_some_iff] at htal
      obtain ⟨first, hfst, hlst⟩ := htal
      rw [bind_eq_some_iff] at hlst
      obtain ⟨last, hrst, happ⟩ := hlst
      rw [Option.some.injEq] at happ
      simp [encodeQuanta, hfst, hrst, ← happ]

theorem encode_eq (hsize : (sizeAsInt32 size).toNat ≤ bytes.length) : encode bytes size =
      if reserved (sizeAsInt32 size) < 0 ∨ 2 ^ 31 ≤ reserved (sizeAsInt32 size) then none
      else some (encoded (bytes.take (sizeAsInt32 size).toNat)) := by
  unfold encode
  split
  · rfl
  · split
    next hnegative =>
      rw [Int.toNat_of_nonpos hnegative.le]
      rfl
    · have hsplit := Nat.div_add_mod (sizeAsInt32 size).toNat 3
      have heq := encodeQuanta_encodeRest (Nat.mod_lt (sizeAsInt32 size).toNat (by decide))
        ((sizeAsInt32 size).toNat / 3) (hsplit ▸ hsize)
      rw [hsplit] at heq
      exact heq

theorem decodeLoop_sextet {c : Char} (hpos : position ≠ 3)
    (hc : sextet c = some value) (hval : value < 64) (cursor : List Char) (temp : Nat)
    (decodedBytes : List Byte) : decodeLoop position (c :: cursor) temp decodedBytes =
      decodeLoop (position + 1) cursor (temp % 2 ^ 26 * 64 + value) decodedBytes := by
  rw [decodeLoop]
  simp only [hc, if_neg hpos, shift_or hval]

theorem decodeLoop_lastSextet {c : Char} (hc : sextet c = some value)
    (hval : value < 64) (cursor : List Char) (temp : Nat) (decodedBytes : List Byte) :
    decodeLoop 3 (c :: cursor) temp decodedBytes = decodeLoop 0 cursor (temp % 2 ^ 26 * 64 + value)
        (decodedBytes ++ [byteAt (temp % 2 ^ 26 * 64 + value) 16,
          byteAt (temp % 2 ^ 26 * 64 + value) 8, byteAt (temp % 2 ^ 26 * 64 + value) 0]) := by
  rw [decodeLoop]
  simp only [hc, if_true, shift_or hval]

theorem byteAt_eq_of_mod {b : Byte} (hmod : temp / 2 ^ shift % 256 = b.toNat) :
    byteAt temp shift = b := by
  rw [byteAt_eq]
  apply UInt8.toNat_inj.mp
  exact hmod

theorem decodeLoop_encoded (bytes : List Byte) (temp : Nat) (decodedBytes : List Byte) :
    decodeLoop 0 (encoded bytes) temp decodedBytes = .ok (decodedBytes ++ bytes) := by
  fun_induction encoded bytes generalizing temp decodedBytes with
  | case1 b0 b1 b2 rest ih =>
    obtain ⟨h0, h1, h2, h3⟩ := sextet_lookup (quantum b0 b1 b2)
    have hb0 := b0.toNat_lt
    have hb1 := b1.toNat_lt
    have hb2 := b2.toNat_lt
    rw [cons_append, cons_append, cons_append, cons_append, nil_append,
      decodeLoop_sextet (by decide) h0 (Nat.mod_lt _ (by decide)),
      decodeLoop_sextet (by decide) h1 (Nat.mod_lt _ (by decide)),
      decodeLoop_sextet (by decide) h2 (Nat.mod_lt _ (by decide)),
      decodeLoop_lastSextet h3 (Nat.mod_lt _ (by decide)), ih, quantum_eq]
    rw [byteAt_eq_of_mod (b := b0) (by omega), byteAt_eq_of_mod (b := b1) (by omega),
      byteAt_eq_of_mod (b := b2) (by omega)]
    simp
  | case2 b0 b1 =>
    obtain ⟨h0, h1, h2, _⟩ := sextet_lookup (quantum b0 b1 0)
    have hb0 := b0.toNat_lt
    have hb1 := b1.toNat_lt
    have hpad : sextet padCharacter = none := by decide
    rw [decodeLoop_sextet (by decide) h0 (Nat.mod_lt _ (by decide)),
      decodeLoop_sextet (by decide) h1 (Nat.mod_lt _ (by decide)),
      decodeLoop_sextet (by decide) h2 (Nat.mod_lt _ (by decide)), decodeLoop, quantum_eq]
    simp only [hpad, if_true, length_nil, zero_add, Nat.shiftLeft_eq]
    rw [byteAt_eq_of_mod (b := b0) (by simp; omega), byteAt_eq_of_mod (b := b1) (by simp; omega)]
  | case3 b0 =>
    obtain ⟨h0, h1, _, _⟩ := sextet_lookup (quantum b0 0 0)
    have hb0 := b0.toNat_lt
    have hpad : sextet padCharacter = none := by decide
    rw [decodeLoop_sextet (by decide) h0 (Nat.mod_lt _ (by decide)),
      decodeLoop_sextet (by decide) h1 (Nat.mod_lt _ (by decide)), decodeLoop, quantum_eq]
    simp only [hpad, if_true, length_singleton, Nat.shiftLeft_eq]
    rw [byteAt_eq_of_mod (b := b0) (by simp; omega)]
  | case4 =>
    rw [decodeLoop, append_nil]

theorem decode_encoded (bytes : List Byte) : decode (encoded bytes) = .ok bytes := by
  unfold decode
  rw [if_neg (by simp [length_encoded]), decodeLoop_encoded, nil_append]

theorem sizeAsInt32_eq (size : Nat) : sizeAsInt32 size =
      if (size : Int) % 4294967296 < 2147483648 then (size : Int) % 4294967296
      else (size : Int) % 4294967296 - 4294967296 :=
  rfl

theorem toNat_sizeAsInt32 (size : Nat) :
    (sizeAsInt32 size).toNat ≤ size ∧ ((sizeAsInt32 size).toNat = size ↔ size < 2 ^ 31) := by
  rw [sizeAsInt32_eq]
  split
  · omega
  · omega

theorem decode_encode (henc : encode bytes bytes.length = some text) :
    decode text = .ok (bytes.take (sizeAsInt32 bytes.length).toNat) := by
  rw [encode_eq (toNat_sizeAsInt32 bytes.length).1] at henc
  split at henc
  · cases henc
  · rw [← Option.some.inj henc]
    exact decode_encoded _

/-- `1610612733` bytes make `2 ^ 31 - 4` characters. -/
theorem reserved_fits_iff (hsize : size < 2 ^ 31) :
    ¬ (reserved (sizeAsInt32 size) < 0 ∨ 2 ^ 31 ≤ reserved (sizeAsInt32 size)) ↔ size ≤ 1610612733 := by
  have hint : sizeAsInt32 size = size := by
    rw [sizeAsInt32_eq]
    split <;> omega
  rw [hint, reserved, Int.tdiv_eq_ediv_of_nonneg (by omega), Int.tmod_eq_emod_of_nonneg (by omega)]
  split <;> omega

theorem encode_whole (hlen : bytes.length < 2 ^ 31) : encode bytes bytes.length =
      if bytes.length ≤ 1610612733 then some (encoded bytes) else none := by
  rw [encode_eq (toNat_sizeAsInt32 bytes.length).1, (toNat_sizeAsInt32 bytes.length).2.mpr hlen, take_length]
  split
  next hout =>
    rw [if_neg (mt (reserved_fits_iff hlen).mpr (not_not.mpr hout))]
  next hin =>
    rw [if_pos ((reserved_fits_iff hlen).mp hin)]

theorem encode_restores_iff (bytes : List Byte) :
    (∃ text, encode bytes bytes.length = some text ∧ decode text = .ok bytes) ↔
      bytes.length ≤ 1610612733 := by
  constructor
  · rintro ⟨text, henc, hdec⟩
    rw [decode_encode henc, Except.ok.injEq, take_eq_self_iff] at hdec
    have hlen := (toNat_sizeAsInt32 bytes.length).2.mp ((toNat_sizeAsInt32 bytes.length).1.antisymm hdec)
    rw [encode_whole hlen] at henc
    by_contra hlong
    rw [if_neg hlong] at henc
    cases henc
  · intro hlen
    refine ⟨encoded bytes, ?_, decode_encoded bytes⟩
    rw [encode_whole (by omega), if_pos hlen]

def RoundTrips (bytes : List Byte) : Prop :=
  ∃ text, encode bytes bytes.length = some text ∧ decode text = .ok bytes ∧
    text.length = 4 * ((bytes.length + 2) / 3) ∧
    ∀ other : List Byte, other.length < 2 ^ 31 → encode other other.length = some text → other = bytes

theorem encode_roundTrips_iff (bytes : List Byte) : RoundTrips bytes ↔ bytes.length ≤ 1610612733 := by
  rw [← encode_restores_iff]
  constructor
  · rintro ⟨text, henc, hdec, -⟩
    exact ⟨text, henc, hdec⟩
  · rintro ⟨text, henc, hdec⟩
    have hlen := (encode_restores_iff bytes).mp ⟨text, henc, hdec⟩
    refine ⟨text, henc, hdec, ?_, ?_⟩
    · rw [encode_whole (by omega), if_pos hlen] at henc
      rw [← Option.some.inj henc, length_encoded]
    · intro other hother heq
      have hback := decode_encode heq
      rw [(toNat_sizeAsInt32 other.length).2.mpr hother, take_length, hdec] at hback
      exact (Except.ok.inj hback).symm

/-- The argument of `reserve` is `2 ^ 31`. -/
theorem longBytes_not_roundTrips : encode (replicate 1610612734 0) 1610612734 = none ∧
    ¬ RoundTrips (replicate 1610612734 0) := by
  refine ⟨rfl, ?_⟩
  rintro ⟨text, henc, -⟩
  rw [length_replicate] at henc
  have hnone : encode (replicate 1610612734 0) 1610612734 = none := rfl
  rw [hnone] at henc
  cases henc

end Bes.Dmrpp.Base64
