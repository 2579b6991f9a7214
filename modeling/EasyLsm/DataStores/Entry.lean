import Mathlib.Data.List.Basic
import EasyLsm.DataStores.Key
import EasyLsm.DataStores.Value

/-!
# Entries

A key with its value, the unit that the log, the memtables and the table blocks all store. On
disk it is the key followed by the value.
-/

namespace EasyLsm

open Lib

/-- A version of a user key together with its value. -/
abbrev Entry := Key × Value

namespace Entry

/-- The key and then the value, as the log and the blocks write them. -/
def encode (e : Entry) : Bytes := Loggable.encode e.1 ++ Loggable.encode e.2

/-- Read a key and then a value. -/
def decode : Reader DbError Entry := fun r => do
  let (key, r) ← Loggable.decode (α := Key) r
  let (value, r) ← Loggable.decode (α := Value) r
  return ((key, value), r)

/-- Neither length field of the entry is narrowed. -/
def Fits (e : Entry) : Prop := e.1.Fits ∧ e.2.Fits

instance (e : Entry) : Decidable e.Fits := inferInstanceAs (Decidable (_ ∧ _))

/-- An entry with representable lengths is read back, and no proper prefix of it is read. -/
theorem decodes {e : Entry} (h : e.Fits) :
    Decodes DbError.unexpectedEof decode e.encode e :=
  (Key.roundTrips h.1).bind (k := fun key r => do
      let (value, r) ← Loggable.decode (α := Value) r
      return ((key, value), r))
    ((Value.roundTrips h.2).map (fun value => (e.1, value)))

/-- The length of an encoded entry. -/
theorem length_encode (e : Entry) :
    e.encode.length = Key.serializedHeaderSize + e.1.bytes.length +
      (Value.serializedHeaderSize + e.2.payload.length) := by
  rw [encode, List.length_append, Key.length_encode, Value.length_encode]

/-- No entry encodes to the empty string. -/
theorem encode_ne_nil (e : Entry) : e.encode ≠ [] := by
  rw [← List.length_pos_iff, length_encode, Key.serializedHeaderSize]
  omega

end Entry

end EasyLsm
