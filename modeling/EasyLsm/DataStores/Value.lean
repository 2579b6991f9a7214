import Mathlib.Data.List.Basic
import EasyLsm.DataStores.Loggable

/-!
# Values

`Value` of `data_stores/value.rs` and its on-disk form: a tag byte, then the payload as a byte
vector. Decoding accepts any odd tag as a tombstone, replaces a malformed string by the empty
one, and takes the first eight bytes of an integer payload.
-/

namespace EasyLsm

open Lib

/-- `Value`. -/
inductive Value where
  | bytes (b : Bytes)
  | str (s : String)
  | int (i : Int64)
  | tombstone
  deriving DecidableEq

namespace Value

/-- `Value::WAL_ID_TOMBSTONE`. -/
def walIdTombstone : UInt8 := (1 : UInt8) <<< 0

/-- `Value::WAL_TYPE_BYTES`. -/
def walTypeBytes : UInt8 := (0 : UInt8) <<< 1

/-- `Value::WAL_TYPE_STR`. -/
def walTypeStr : UInt8 := (1 : UInt8) <<< 1

/-- `Value::WAL_TYPE_INT`. -/
def walTypeInt : UInt8 := (2 : UInt8) <<< 1

/-- `Value::SERIALIZED_HEADER_SIZE`: the tag (1) and the length (4). -/
def serializedHeaderSize : Nat := 5

/-- `Value::new`. -/
def new (bytes : Bytes) : Value := .bytes bytes

/-- The UTF-8 bytes of a string. -/
def strBytes (s : String) : Bytes := s.toByteArray.data.toList

/-- `String::from_utf8(bytes).unwrap_or_default()`. -/
def strOfBytes (bs : Bytes) : String := (String.fromUTF8? bs.toByteArray).getD ""

/-- The tag byte written before the payload. -/
def tag : Value → UInt8
  | .bytes _ => walTypeBytes
  | .str _ => walTypeStr
  | .int _ => walTypeInt
  | .tombstone => walIdTombstone

/-- The payload bytes. -/
def payload : Value → Bytes
  | .bytes b => b
  | .str s => strBytes s
  | .int i => leBytes 8 i.toUInt64.toNat
  | .tombstone => []

/-- The value of a tag and the payload that follows it. -/
def ofPayload (tagByte : UInt8) (valBytes : Bytes) : Except DbError Value :=
  let valType := tagByte &&& ~~~walIdTombstone
  if valType = walTypeBytes then .ok (.bytes valBytes)
  else if valType = walTypeStr then .ok (.str (strOfBytes valBytes))
  else if valType = walTypeInt then
    if 8 ≤ valBytes.length then .ok (.int (UInt64.ofNat (leNat (valBytes.take 8))).toInt64)
    else .error .manifestCorrupted
  else .error .manifestCorrupted

instance : Loggable Value where
  encode v := Loggable.encode v.tag ++ Loggable.encode v.payload
  decode r := do
    let (tagByte, r) ← Loggable.decode (α := UInt8) r
    if tagByte &&& walIdTombstone ≠ 0 then
      let (_, r) ← Loggable.decode (α := Bytes) r
      return (.tombstone, r)
    else
      let (valBytes, r) ← Loggable.decode (α := Bytes) r
      let v ← ofPayload tagByte valBytes
      return (v, r)

/-- The payload length is not narrowed. -/
def Fits (v : Value) : Prop := v.payload.length < 2 ^ 32

instance (v : Value) : Decidable v.Fits := inferInstanceAs (Decidable (_ < _))

@[simp] theorem strOfBytes_strBytes (s : String) : strOfBytes (strBytes s) = s := by
  have harray : (strBytes s).toByteArray = s.toByteArray := by
    apply ByteArray.ext
    apply Array.ext'
    simp [strBytes]
  simp [strOfBytes, harray, String.fromUTF8?, String.isValidUTF8, String.fromUTF8]

/-- Masking the tombstone bit keeps the tag of a value that is not a tombstone. -/
theorem tag_masked {v : Value} (h : v ≠ .tombstone) : v.tag &&& ~~~walIdTombstone = v.tag := by
  cases v with
  | bytes => exact (by decide : walTypeBytes &&& ~~~walIdTombstone = walTypeBytes)
  | str => exact (by decide : walTypeStr &&& ~~~walIdTombstone = walTypeStr)
  | int => exact (by decide : walTypeInt &&& ~~~walIdTombstone = walTypeInt)
  | tombstone => exact absurd rfl h

/-- Exactly the tombstone's tag has the tombstone bit. -/
theorem tag_tombstone_bit {v : Value} (h : v ≠ .tombstone) : v.tag &&& walIdTombstone = 0 := by
  cases v with
  | bytes => exact (by decide : walTypeBytes &&& walIdTombstone = 0)
  | str => exact (by decide : walTypeStr &&& walIdTombstone = 0)
  | int => exact (by decide : walTypeInt &&& walIdTombstone = 0)
  | tombstone => exact absurd rfl h

/-- The tag and payload of a value that is not a tombstone give the value back. -/
theorem ofPayload_tag_payload {v : Value} (h : v ≠ .tombstone) :
    ofPayload v.tag v.payload = .ok v := by
  have hstr : walTypeStr ≠ walTypeBytes := by decide
  have hint : walTypeInt ≠ walTypeBytes := by decide
  have hint' : walTypeInt ≠ walTypeStr := by decide
  simp only [ofPayload, tag_masked h]
  cases v with
  | bytes b => simp only [tag, payload, if_true]
  | str s => simp only [tag, payload, hstr, if_false, if_true, strOfBytes_strBytes]
  | int i =>
      have htake : (leBytes 8 i.toUInt64.toNat).take 8 = leBytes 8 i.toUInt64.toNat :=
        List.take_of_length_le (by simp)
      simp [tag, payload, hint, hint', htake, leNat_leBytes_of_lt (k := 8) i.toUInt64.toNat_lt]
  | tombstone => exact absurd rfl h

/-- A value whose payload is shorter than `2 ^ 32` bytes round-trips. -/
theorem roundTrips {v : Value} (h : v.Fits) : RoundTrips v := by
  refine (u8_roundTrips v.tag).bind (k := fun tagByte r =>
    if tagByte &&& walIdTombstone ≠ 0 then do
      let (_, r) ← Loggable.decode (α := Bytes) r
      return (.tombstone, r)
    else do
      let (valBytes, r) ← Loggable.decode (α := Bytes) r
      let v ← ofPayload tagByte valBytes
      return (v, r)) ?_
  have hpayload : RoundTrips v.payload := bytes_roundTrips h
  by_cases htomb : v = .tombstone
  · subst htomb
    exact hpayload.map (fun _ => Value.tombstone)
  · simp only [tag_tombstone_bit htomb, ne_eq, not_true, if_false]
    have hvalue : Decodes DbError.unexpectedEof
        (fun r => (ofPayload v.tag v.payload).bind fun w => .ok (w, r)) [] v := by
      rw [ofPayload_tag_payload htomb]
      exact Decodes.pure v
    have hbind := hpayload.bind (k := fun valBytes r =>
      (ofPayload v.tag valBytes).bind fun w => .ok (w, r)) hvalue
    rwa [List.append_nil] at hbind

/-- The encoding of a value has its header and its payload. -/
theorem length_encode (v : Value) :
    (Loggable.encode v).length = serializedHeaderSize + v.payload.length := by
  show (Loggable.encode v.tag ++ Loggable.encode v.payload).length = _
  rw [encode_bytes, List.length_append, List.length_append, length_leBytes]
  show 1 + (4 + _) = _
  simp only [serializedHeaderSize]
  omega

end Value

end EasyLsm
