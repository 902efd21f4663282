import Mathlib.Tactic.Ring
import Mathlib.Data.Nat.ModEq
import Mathlib.Data.Vector.Basic
import Mathlib.Data.List.TakeDrop

/-!
# Big-endian byte strings

Fixed-width big-endian encodings of natural numbers, most significant byte
first.  `BigEndian.encode width value` keeps the low `8 * width` bits of `value`;
`BigEndian.decode` reads a whole byte string back.
-/

namespace Ppose

abbrev Bytes := List UInt8

abbrev Block (length : ℕ) := List.Vector UInt8 length

namespace BigEndian

/-- The `width` big-endian bytes of `value`. -/
def encode : ℕ → ℕ → Bytes
  | 0, _ => []
  | width + 1, value => UInt8.ofNat (value / 256 ^ width) :: encode width value

def decode : Bytes → ℕ
  | [] => 0
  | byte :: rest => byte.toNat * 256 ^ rest.length + decode rest

@[simp]
theorem length_encode (width value : ℕ) : (encode width value).length = width := by
  induction width with
  | zero => rfl
  | succ width ih => simp [encode, ih]

theorem decode_encode (width value : ℕ) :
    decode (encode width value) = value % 256 ^ width := by
  induction width with
  | zero => simp [encode, decode, Nat.mod_one]
  | succ width ih =>
      rw [encode, decode, ih, length_encode, pow_succ, Nat.mod_mul]
      simp only [UInt8.toNat_ofNat']
      ring

theorem decode_encode_of_lt {width value : ℕ} (fits : value < 256 ^ width) :
    decode (encode width value) = value := by
  rw [decode_encode, Nat.mod_eq_of_lt fits]

@[simp]
theorem ofNat_decode_encode_uint16 (value : UInt16) :
    UInt16.ofNat (decode (encode 2 value.toNat)) = value := by
  rw [decode_encode_of_lt (by simpa using value.toNat_lt), UInt16.ofNat_toNat]

@[simp]
theorem ofNat_decode_encode_uint32 (value : UInt32) :
    UInt32.ofNat (decode (encode 4 value.toNat)) = value := by
  rw [decode_encode_of_lt (by simpa using value.toNat_lt), UInt32.ofNat_toNat]

@[simp]
theorem ofNat_decode_encode_uint64 (value : UInt64) :
    UInt64.ofNat (decode (encode 8 value.toNat)) = value := by
  rw [decode_encode_of_lt (by simpa using value.toNat_lt), UInt64.ofNat_toNat]

theorem encode_uint64_injective {left right : UInt64}
    (same : encode 8 left.toNat = encode 8 right.toNat) : left = right := by
  have decoded := congrArg (fun bytes => UInt64.ofNat (decode bytes)) same
  simpa only [ofNat_decode_encode_uint64] using decoded

/-- Multiples of `256 ^ width` lie above the encoded bytes. -/
theorem encode_add_mul (width value multiple : ℕ) :
    encode width (value + multiple * 256 ^ width) = encode width value := by
  induction width generalizing multiple with
  | zero => rfl
  | succ width ih =>
      have regrouped : value + multiple * 256 ^ (width + 1) =
          value + multiple * 256 * 256 ^ width := by ring
      have head : (value + multiple * 256 * 256 ^ width) / 256 ^ width =
          value / 256 ^ width + multiple * 256 :=
        Nat.add_mul_div_right _ _ (Nat.pow_pos (by decide))
      simp only [encode, regrouped, head, ih]
      congr 1
      apply UInt8.toNat_inj.mp
      simp

theorem decode_lt (bytes : Bytes) : decode bytes < 256 ^ bytes.length := by
  induction bytes with
  | nil => simp [decode]
  | cons byte rest ih =>
      have byteLe : byte.toNat + 1 ≤ 256 := byte.toNat_lt
      calc
        decode (byte :: rest) < byte.toNat * 256 ^ rest.length + 256 ^ rest.length :=
          Nat.add_lt_add_left ih _
        _ = (byte.toNat + 1) * 256 ^ rest.length := by ring
        _ ≤ 256 * 256 ^ rest.length := Nat.mul_le_mul_right _ byteLe
        _ = 256 ^ (byte :: rest).length := by
          rw [List.length_cons, pow_succ, Nat.mul_comm]

/-- Reading a byte string and writing it back at its own width changes nothing. -/
theorem encode_decode (bytes : Bytes) : encode bytes.length (decode bytes) = bytes := by
  induction bytes with
  | nil => rfl
  | cons byte rest ih =>
      have head : (decode rest + byte.toNat * 256 ^ rest.length) / 256 ^ rest.length =
          byte.toNat := by
        rw [Nat.add_mul_div_right _ _ (Nat.pow_pos (by decide)),
          Nat.div_eq_of_lt (decode_lt rest), zero_add]
      simp only [List.length_cons, decode, encode, Nat.add_comm (byte.toNat * _) _, head,
        UInt8.ofNat_toNat, encode_add_mul, ih]

theorem encode_decode_of_length {bytes : Bytes} {width : ℕ} (length : bytes.length = width) :
    encode width (decode bytes) = bytes := by
  subst length
  exact encode_decode bytes

theorem decode_lt_of_length {bytes : Bytes} {width : ℕ} (length : bytes.length = width) :
    decode bytes < 256 ^ width := by
  subst length
  exact decode_lt bytes

theorem encode_ofNat_decode_uint16 {bytes : Bytes} (length : bytes.length = 2) :
    encode 2 (UInt16.ofNat (decode bytes)).toNat = bytes := by
  have fits : decode bytes < 2 ^ 16 := decode_lt_of_length length
  rw [UInt16.toNat_ofNat_of_lt' fits, encode_decode_of_length length]

theorem encode_ofNat_decode_uint32 {bytes : Bytes} (length : bytes.length = 4) :
    encode 4 (UInt32.ofNat (decode bytes)).toNat = bytes := by
  have fits : decode bytes < 2 ^ 32 := decode_lt_of_length length
  rw [UInt32.toNat_ofNat_of_lt' fits, encode_decode_of_length length]

theorem encode_ofNat_decode_uint64 {bytes : Bytes} (length : bytes.length = 8) :
    encode 8 (UInt64.ofNat (decode bytes)).toNat = bytes := by
  have fits : decode bytes < 2 ^ 64 := decode_lt_of_length length
  rw [UInt64.toNat_ofNat_of_lt' fits, encode_decode_of_length length]

end BigEndian

/-- The bytes of `bytes` at offsets `lower ≤ offset < upper`. -/
def slice (bytes : Bytes) (lower upper : ℕ) : Bytes :=
  (bytes.drop lower).take (upper - lower)

theorem slice_append_of_length {before field after : Bytes} {lower upper : ℕ}
    (beforeLength : before.length = lower) (fieldLength : lower + field.length = upper) :
    slice (before ++ (field ++ after)) lower upper = field := by
  rw [slice, List.drop_left' beforeLength, List.take_left' (by omega)]

theorem length_slice {bytes : Bytes} {lower upper : ℕ} (present : upper ≤ bytes.length) :
    (slice bytes lower upper).length = upper - lower := by
  simp only [slice, List.length_take, List.length_drop]
  omega

theorem take_append_slice (bytes : Bytes) {lower upper : ℕ} (ordered : lower ≤ upper) :
    bytes.take lower ++ slice bytes lower upper = bytes.take upper := by
  rw [slice, ← List.take_add, Nat.add_sub_cancel' ordered]

theorem slice_succ {bytes : Bytes} {offset : ℕ} (present : offset < bytes.length) :
    slice bytes offset (offset + 1) = [bytes.getD offset 0] := by
  have byte : bytes.getD offset 0 = bytes[offset] := by
    simp [List.getElem?_eq_getElem present]
  rw [slice, List.drop_eq_getElem_cons present, byte, Nat.add_sub_cancel_left]
  rfl

/-- The byte array which starts at `lower`, where enough bytes are present. -/
def blockAt (length lower : ℕ) (bytes : Bytes) : Block length :=
  ⟨(bytes.drop lower).takeD length 0, List.takeD_length ..⟩

theorem blockAt_append {length lower : ℕ} {before : Bytes} (block : Block length) (after : Bytes)
    (beforeLength : before.length = lower) :
    blockAt length lower (before ++ (block.toList ++ after)) = block := by
  apply List.Vector.toList_injective
  change List.takeD length _ 0 = block.toList
  rw [List.drop_left' beforeLength, List.takeD_left' block.toList_length]

theorem toList_blockAt {length lower : ℕ} {bytes : Bytes}
    (present : lower + length ≤ bytes.length) :
    (blockAt length lower bytes).toList = slice bytes lower (lower + length) := by
  change List.takeD length _ 0 = _
  rw [slice, Nat.add_sub_cancel_left]
  apply List.takeD_eq_take
  rw [List.length_drop]
  omega

end Ppose
