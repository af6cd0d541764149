import Bes.Dmrpp.Base64

/-! Arrays in the COMPACT layout, whose values stand in the DMR++ document itself:
the writer in `DmrppArray::print_dap4` and the reader `DMZ::process_compact`. The
values of a libdap vector are its memory block, or its strings. -/
namespace Bes.Dmrpp.Compact
open Dmrpp.Array Dmrpp.ChunkMetadata List

inductive Values where
  | bytes (buf : List Byte)
  | strings (strs : List (List Byte))
deriving DecidableEq

structure ArrayPart where
  shape : List UInt64
  elemType : DapType
  elemWidth : UInt64
  readP : Bool := false
  values : Values := .bytes []
deriving DecidableEq

/-- A variable of the document; `array` is what a cast to `Array` gives. -/
structure Variable where
  common : DmrppCommon := {}
  array : Option ArrayPart := none
deriving DecidableEq

/-- How a call ends that does not return: an exception, an access outside an
object or an arithmetic conversion without a value, or a loop that goes on. -/
inductive Fault where
  | thrown (exn : Exn)
  | undefined
  | outOfFuel
deriving DecidableEq

def ArrayPart.length (array : ArrayPart) : Nat := (array.shape.map UInt64.toNat).prod

def IsNumeric : DapType → Bool
  | .dodsByte | .dodsChar | .dodsInt8 | .dodsUint8 | .dodsInt16 | .dodsUint16 | .dodsInt32
  | .dodsUint32 | .dodsInt64 | .dodsUint64 | .dodsEnum | .dodsFloat32 | .dodsFloat64 => true
  | _ => false

def IsString : DapType → Bool
  | .dodsStr | .dodsUrl => true
  | _ => false

/-- `Vector::val2buf` copies as many bytes, or strings, as the array has from the
address it is given. -/
def val2buf {α : Type} (count : Nat) (memory : List α) : Except Fault (List α) :=
  if count ≤ memory.length then .ok (memory.take count) else .error .undefined

/-- What `buf2val` hands out, the values being those of the element type. -/
def ArrayPart.Holds (array : ArrayPart) : Prop :=
  match array.values with
  | .bytes buf =>
      IsNumeric array.elemType ∧ buf.length = array.length * array.elemWidth.toNat
  | .strings strs => IsString array.elemType ∧ strs.length = array.length

/-- The text of one `dmrpp:compact` element. -/
def encodePiece (bytes : List Byte) : Except Fault Text :=
  (Base64.encode bytes bytes.length).elim (.error .undefined) .ok

/-- The texts of the `dmrpp:compact` elements that `print_dap4` writes: one for the
whole block of a numeric array, one per string otherwise. -/
def printCompact (array : ArrayPart) : Except Fault (List Text) :=
  if IsNumeric array.elemType then
    match array.values with
    | .bytes buf => (encodePiece buf).map ([·])
    | .strings _ => .error .undefined
  else if IsString array.elemType then
    match array.values with
    | .strings strs => strs.mapM encodePiece
    | .bytes _ => .error .undefined
  else .error (.thrown (.internalError "Vector::val2buf: bad type"))

/-- The switch of `process_compact` on the element type. -/
def compactValues (array : ArrayPart) (decoded : List Byte) : Except Fault Values :=
  if array.elemType = .dodsArray then
    .error (.thrown (.internalError
      "DMR++ document fail: An Array may not be the template for an Array."))
  else if IsNumeric array.elemType then
    (val2buf (array.length * array.elemWidth.toNat) decoded).map .bytes
  else if IsString array.elemType then
    -- the address passed on is that of one string object
    (val2buf array.length [decoded]).map .strings
  else
    .error (.thrown (.internalError
      "Unsupported COMPACT storage variable type in the drmpp handler."))

def processCompact (btp : Variable) (charData : Text) : Except Fault Variable := do
  let common := { btp.common with compact := true }
  let decoded ← (Base64.decode charData).mapError .thrown
  match btp.array with
  | none => throw (.thrown (.internalError
      "The dmrpp::compact element must be the child of an array variable"))
  | some array =>
      let values ← compactValues array decoded
      pure { common, array := some { array with values, readP := true } }

theorem val2buf_eq_ok_iff {count : Nat} :
    val2buf count memory = .ok values ↔ count ≤ memory.length ∧ memory.take count = values := by
  unfold val2buf
  split
  next hle =>
    simp [hle]
  next hlt =>
    simp [hlt]

theorem encode_of_encodePiece (henc : encodePiece bytes = .ok text) :
    Base64.encode bytes bytes.length = some text := by
  rw [encodePiece] at henc
  cases hcode : Base64.encode bytes bytes.length with
  | none =>
    rw [hcode] at henc
    cases henc
  | some code =>
    rw [hcode] at henc
    rw [Except.ok.inj henc]

theorem encodePiece_restores_iff (bytes : List Byte) :
    (∃ text, encodePiece bytes = .ok text ∧ Base64.decode text = .ok bytes) ↔
      bytes.length ≤ 1610612733 := by
  rw [← Base64.encode_restores_iff]
  constructor
  · rintro ⟨text, henc, hdec⟩
    exact ⟨text, encode_of_encodePiece henc, hdec⟩
  · rintro ⟨text, henc, hdec⟩
    refine ⟨text, ?_, hdec⟩
    rw [encodePiece, henc, Option.elim_some]

def Values.Restorable : Values → Prop
  | .bytes buf => buf.length ≤ 1610612733
  | .strings strs => strs.length = 1 ∧ ∀ str ∈ strs, str.length ≤ 1610612733

theorem not_isNumeric_of_isString (hstring : IsString type) : ¬ IsNumeric type := by
  revert hstring
  cases type <;> decide

theorem ne_dodsArray (helement : IsNumeric type ∨ IsString type) : type ≠ .dodsArray := by
  rintro rfl
  revert helement
  decide

theorem compactValues_numeric_iff (hnumeric : IsNumeric declared.elemType)
    (hlength : buf.length = declared.length * declared.elemWidth.toNat)
    (hshort : decoded.length ≤ buf.length) :
    compactValues declared decoded = .ok (.bytes buf) ↔ decoded = buf := by
  rw [compactValues, if_neg (ne_dodsArray (.inl hnumeric)), if_pos hnumeric, ← hlength]
  constructor
  · intro hmap
    cases hcopy : val2buf buf.length decoded with
    | error fault =>
      rw [hcopy] at hmap
      cases hmap
    | ok copied =>
      obtain ⟨hlong, htake⟩ := val2buf_eq_ok_iff.mp hcopy
      rw [hcopy] at hmap
      cases hmap
      rwa [take_of_length_le hshort] at htake
  · rintro rfl
    rw [val2buf_eq_ok_iff.mpr ⟨le_rfl, take_length⟩]
    rfl

theorem compactValues_strings_iff (hstring : IsString declared.elemType)
    (hlength : (str :: strs).length = declared.length) :
    compactValues declared decoded = .ok (.strings (str :: strs)) ↔ strs = [] ∧ decoded = str := by
  rw [compactValues, if_neg (ne_dodsArray (.inr hstring)), if_neg (not_isNumeric_of_isString hstring),
    if_pos hstring, ← hlength]
  constructor
  · intro hmap
    cases hcopy : val2buf (str :: strs).length [decoded] with
    | error fault =>
      rw [hcopy] at hmap
      cases hmap
    | ok copied =>
      obtain ⟨hlong, htake⟩ := val2buf_eq_ok_iff.mp hcopy
      rw [hcopy] at hmap
      cases hmap
      rw [length_singleton, length_cons] at hlong
      exact ⟨eq_nil_of_length_eq_zero (by omega), (cons.inj htake).1⟩
  · rintro ⟨rfl, rfl⟩
    rw [val2buf_eq_ok_iff.mpr ⟨le_rfl, take_length⟩]
    rfl

/-- What the texts that are written give back under the declaration of the same array. -/
def Restores (array : ArrayPart) (texts : List Text) : Prop :=
  ∃ text rest decoded, texts = text :: rest ∧ Base64.decode text = .ok decoded ∧
    ∀ declared : ArrayPart, declared.shape = array.shape → declared.elemType = array.elemType →
      declared.elemWidth = array.elemWidth →
      (compactValues declared decoded = .ok array.values ↔ array.values.Restorable)

theorem length_of_shape {declared array : ArrayPart} (hshape : declared.shape = array.shape) :
    declared.length = array.length := by
  rw [ArrayPart.length, hshape, ArrayPart.length]

theorem restores_numeric (hvalues : array.values = .bytes buf) (hholds : array.Holds)
    (hprint : printCompact array = .ok texts) : Restores array texts := by
  rw [ArrayPart.Holds, hvalues] at hholds
  rw [printCompact, if_pos hholds.1, hvalues] at hprint
  cases henc : encodePiece buf with
  | error fault =>
    simp only [henc] at hprint
    cases hprint
  | ok text =>
    simp only [henc] at hprint
    cases hprint
    have hdec := Base64.decode_encode (encode_of_encodePiece henc)
    refine ⟨text, [], _, rfl, hdec, ?_⟩
    intro declared hshape htype hwidth
    rw [hvalues, compactValues_numeric_iff (htype ▸ hholds.1) (by rw [length_of_shape hshape, hwidth, hholds.2])
      (by rw [length_take]; exact min_le_right _ _), Values.Restorable, ← encodePiece_restores_iff, henc]
    simp [hdec]

theorem restores_strings (hvalues : array.values = .strings (str :: strs)) (hholds : array.Holds)
    (hprint : printCompact array = .ok texts) : Restores array texts := by
  rw [ArrayPart.Holds, hvalues] at hholds
  rw [printCompact, if_neg (not_isNumeric_of_isString hholds.1), if_pos hholds.1, hvalues] at hprint
  simp only [mapM_cons] at hprint
  cases henc : encodePiece str with
  | error fault =>
    rw [henc] at hprint
    cases hprint
  | ok text =>
    rw [henc] at hprint
    cases hrest : strs.mapM encodePiece with
    | error fault =>
      rw [hrest] at hprint
      cases hprint
    | ok rest =>
      rw [hrest] at hprint
      cases hprint
      have hdec := Base64.decode_encode (encode_of_encodePiece henc)
      have hpiece := encodePiece_restores_iff str
      refine ⟨text, rest, _, rfl, hdec, ?_⟩
      intro declared hshape htype _
      rw [hvalues, compactValues_strings_iff (htype ▸ hholds.1) (by rw [length_of_shape hshape, hholds.2]),
        Values.Restorable]
      simp only [henc, Except.ok.injEq, exists_eq_left', hdec] at hpiece
      rw [hpiece]
      constructor
      · rintro ⟨rfl, hlen⟩
        exact ⟨rfl, by simpa using hlen⟩
      · rintro ⟨hone, hlen⟩
        exact ⟨eq_nil_of_length_eq_zero (by simpa using hone), hlen str mem_cons_self⟩

theorem printCompact_restores (hholds : array.Holds) (hpos : 0 < array.length)
    (hprint : printCompact array = .ok texts) : Restores array texts := by
  cases hvalues : array.values with
  | bytes buf => exact restores_numeric hvalues hholds hprint
  | strings strs =>
    cases strs with
    | nil =>
      rw [ArrayPart.Holds, hvalues] at hholds
      rw [← hholds.2] at hpos
      exact absurd hpos (by simp)
    | cons str strs => exact restores_strings hvalues hholds hprint

theorem printCompact_of_restorable (hholds : array.Holds) (hrestorable : array.values.Restorable) :
    ∃ texts, printCompact array = .ok texts := by
  unfold ArrayPart.Holds at hholds
  cases hvalues : array.values with
  | bytes buf =>
    rw [hvalues] at hholds hrestorable
    obtain ⟨text, henc, -⟩ := (encodePiece_restores_iff buf).mpr hrestorable
    refine ⟨[text], ?_⟩
    rw [printCompact, if_pos hholds.1, hvalues]
    simp only [henc]
    rfl
  | strings strs =>
    rw [hvalues] at hholds hrestorable
    obtain ⟨str, rfl⟩ := length_eq_one_iff.mp hrestorable.1
    obtain ⟨text, henc, -⟩ := (encodePiece_restores_iff str).mpr (hrestorable.2 str mem_cons_self)
    refine ⟨[text], ?_⟩
    rw [printCompact, if_neg (not_isNumeric_of_isString hholds.1), if_pos hholds.1, hvalues]
    simp only [mapM_cons, mapM_nil, henc]
    rfl

end Bes.Dmrpp.Compact
