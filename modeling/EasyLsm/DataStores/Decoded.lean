import Mathlib.Data.List.Basic
import EasyLsm.DataStores.Wal

/-!
# What a decoder accepts

The decoders read lengths of 16 and 32 bits, so whatever they return has representable lengths,
also when the file holds something else than what was meant to be written. They consume at least
one byte. A record is therefore read back from the log exactly when its lengths are representable
(`Wal.next_encodeEntry_iff`).
-/

namespace EasyLsm

open Lib

section Except

variable {ε α β : Type}

/-- A sequence that succeeds: both parts do. -/
theorem bind_ok_iff {x : Except ε α} {f : α → Except ε β} {b : β} :
    (x >>= f) = .ok b ↔ ∃ a, x = .ok a ∧ f a = .ok b := by
  cases x with
  | error e => exact iff_of_false (fun h => by cases h) (fun ⟨_, h, _⟩ => by cases h)
  | ok a =>
      constructor
      · intro h
        exact ⟨a, rfl, h⟩
      · rintro ⟨a', ha, h⟩
        cases ha
        exact h

end Except

/-- Reading `n` bytes takes them from the input. -/
theorem readExact_eq_ok {n : Nat} {r bs rest : Bytes}
    (h : readExact DbError.unexpectedEof n r = .ok (bs, rest)) :
    bs.length = n ∧ r.length = n + rest.length := by
  unfold readExact at h
  split at h
  · rename_i hle
    cases h
    rw [List.length_take, List.length_drop]
    omega
  · cases h

/-- A number read from `k` bytes is below `256 ^ k`. -/
theorem leNat_lt (bs : Bytes) : leNat bs < 256 ^ bs.length := by
  induction bs with
  | nil => exact Nat.one_pos
  | cons b bs ih =>
      have hb := b.toNat_lt
      rw [leNat, List.length_cons, Nat.pow_succ]
      omega

theorem readLe_eq_ok {k n : Nat} {r rest : Bytes} (h : readLe k r = .ok (n, rest)) :
    n < 256 ^ k ∧ r.length = k + rest.length := by
  obtain ⟨⟨bs, r'⟩, hread, hn⟩ := bind_ok_iff.mp h
  obtain ⟨hlen, hr⟩ := readExact_eq_ok hread
  cases hn
  exact ⟨hlen ▸ leNat_lt bs, hr⟩

theorem decode_u16_eq_ok {n : UInt16} {r rest : Bytes} (h : Loggable.decode r = .ok (n, rest)) :
    r.length = 2 + rest.length := by
  obtain ⟨⟨m, r'⟩, hread, hn⟩ := bind_ok_iff.mp h
  have hlen := (readLe_eq_ok hread).2
  cases hn
  exact hlen

theorem decode_u32_eq_ok {n : UInt32} {r rest : Bytes} (h : Loggable.decode r = .ok (n, rest)) :
    r.length = 4 + rest.length := by
  obtain ⟨⟨m, r'⟩, hread, hn⟩ := bind_ok_iff.mp h
  have hlen := (readLe_eq_ok hread).2
  cases hn
  exact hlen

theorem decode_u64_eq_ok {n : UInt64} {r rest : Bytes} (h : Loggable.decode r = .ok (n, rest)) :
    r.length = 8 + rest.length := by
  obtain ⟨⟨m, r'⟩, hread, hn⟩ := bind_ok_iff.mp h
  have hlen := (readLe_eq_ok hread).2
  cases hn
  exact hlen

theorem decode_u8_eq_ok {n : UInt8} {r rest : Bytes} (h : Loggable.decode r = .ok (n, rest)) :
    r.length = 1 + rest.length := by
  obtain ⟨⟨bs, r'⟩, hread, hn⟩ := bind_ok_iff.mp h
  have hlen := (readExact_eq_ok hread).2
  cases hn
  exact hlen

/-- A vector of bytes has as many items as its length says. -/
theorem replicateR_u8_eq_ok {n : Nat} {r bs rest : Bytes}
    (h : replicateR (Loggable.decode (α := UInt8)) n r = .ok (bs, rest)) :
    bs.length = n ∧ r.length = n + rest.length := by
  induction n generalizing r bs with
  | zero =>
      cases h
      exact ⟨rfl, (Nat.zero_add _).symm⟩
  | succ n ih =>
      obtain ⟨⟨b, r'⟩, hb, h⟩ := bind_ok_iff.mp h
      obtain ⟨⟨bs', r''⟩, hbs, h⟩ := bind_ok_iff.mp h
      have hhead := decode_u8_eq_ok hb
      cases h
      obtain ⟨hlen, hr⟩ := ih hbs
      rw [List.length_cons]
      omega

theorem decode_bytes_eq_ok {r bs rest : Bytes} (h : Loggable.decode r = .ok (bs, rest)) :
    bs.length < 2 ^ 32 ∧ r.length = 4 + bs.length + rest.length := by
  obtain ⟨⟨len, r'⟩, hlen, h⟩ := bind_ok_iff.mp h
  have hfield := decode_u32_eq_ok hlen
  obtain ⟨hbs, hr⟩ := replicateR_u8_eq_ok h
  have hlt : len.toNat < 2 ^ 32 := len.toNat_lt
  omega

namespace Key

/-- A decoded key has a representable length. -/
theorem decode_eq_ok {k : Key} {r rest : Bytes} (h : Loggable.decode r = .ok (k, rest)) :
    k.Fits ∧ r.length = serializedHeaderSize + k.bytes.length + rest.length := by
  obtain ⟨⟨lsn, r'⟩, hlsn, h⟩ := bind_ok_iff.mp h
  obtain ⟨⟨keyLen, r''⟩, hlen, h⟩ := bind_ok_iff.mp h
  obtain ⟨⟨keyBytes, r'''⟩, hbytes, h⟩ := bind_ok_iff.mp h
  have hr := decode_u64_eq_ok hlsn
  have hr' := decode_u16_eq_ok hlen
  obtain ⟨hbs, hr''⟩ := readExact_eq_ok hbytes
  cases h
  have hlt : keyLen.toNat < 2 ^ 16 := keyLen.toNat_lt
  show keyBytes.length < 2 ^ 16 ∧ r.length = 10 + keyBytes.length + rest.length
  omega

end Key

namespace Value

/-- The string read from bytes has no more bytes than these. -/
theorem length_strBytes_strOfBytes_le (bs : Bytes) :
    (strBytes (strOfBytes bs)).length ≤ bs.length := by
  unfold strOfBytes
  cases hutf : String.fromUTF8? bs.toByteArray with
  | none => exact Nat.zero_le _
  | some s =>
      unfold String.fromUTF8? at hutf
      split at hutf
      · cases hutf
        have hlen : (strBytes (String.fromUTF8 bs.toByteArray ‹_›)).length =
            bs.toByteArray.data.size := rfl
        rw [Option.getD_some, hlen, List.data_toByteArray, List.size_toArray]
      · cases hutf

/-- The value of a payload has no longer payload than this one, or eight bytes. -/
theorem ofPayload_eq_ok {tagByte : UInt8} {bs : Bytes} {v : Value}
    (h : ofPayload tagByte bs = .ok v) : v.payload.length ≤ max bs.length 8 := by
  unfold ofPayload at h
  simp only at h
  split at h
  · cases h
    exact Nat.le_max_left _ _
  · split at h
    · cases h
      exact Nat.le_trans (length_strBytes_strOfBytes_le bs) (Nat.le_max_left _ _)
    · split at h
      · split at h
        · cases h
          rw [payload, length_leBytes]
          exact Nat.le_max_right _ _
        · cases h
      · cases h

/-- A decoded value has a payload of representable length. -/
theorem decode_eq_ok {v : Value} {r rest : Bytes} (h : Loggable.decode r = .ok (v, rest)) :
    v.Fits ∧ rest.length < r.length := by
  obtain ⟨⟨tagByte, r'⟩, htag, h⟩ := bind_ok_iff.mp h
  have hr := decode_u8_eq_ok htag
  simp only at h
  split at h
  · obtain ⟨⟨bs, r''⟩, hbs, h⟩ := bind_ok_iff.mp h
    have hr' := (decode_bytes_eq_ok hbs).2
    cases h
    simp only at hr hr' ⊢
    exact ⟨Nat.two_pow_pos 32, by omega⟩
  · obtain ⟨⟨bs, r''⟩, hbs, h⟩ := bind_ok_iff.mp h
    obtain ⟨v', hv, h⟩ := bind_ok_iff.mp h
    obtain ⟨hlt, hr'⟩ := decode_bytes_eq_ok hbs
    have hle := ofPayload_eq_ok hv
    cases h
    simp only at hr hr' hle ⊢
    refine ⟨?_, by omega⟩
    show v.payload.length < 2 ^ 32
    omega

end Value

namespace Entry

/-- A decoded entry has representable lengths and was longer than nothing. -/
theorem decode_eq_ok {e : Entry} {r rest : Bytes} (h : decode r = .ok (e, rest)) :
    e.Fits ∧ rest.length < r.length := by
  obtain ⟨⟨k, r'⟩, hk, h⟩ := bind_ok_iff.mp h
  obtain ⟨⟨v, r''⟩, hv, h⟩ := bind_ok_iff.mp h
  obtain ⟨hkey, hr⟩ := Key.decode_eq_ok hk
  obtain ⟨hvalue, hr'⟩ := Value.decode_eq_ok hv
  cases h
  exact ⟨⟨hkey, hvalue⟩, by omega⟩

end Entry

namespace Wal

variable {crc : Bytes → UInt32}

/-- An item of the iterator has representable lengths. -/
theorem next_eq_ok {r rest : Bytes} {e : Entry} (h : next crc r = some (.ok (e, rest))) :
    e.Fits := by
  unfold next at h
  split at h
  · cases h
  · cases h
  · split at h
    · cases h
    · cases h
    · rename_i key rKey hkey
      split at h
      · cases h
      · cases h
      · rename_i value rest' hvalue
        simp only at h
        split at h
        · cases h
        · cases h
          exact ⟨(Key.decode_eq_ok hkey).1, (Value.decode_eq_ok hvalue).1⟩

/-- A record is read back, and what follows it left to be read, exactly when no length of the
entry is narrowed. -/
theorem next_encodeEntry_iff (e : Entry) :
    (∀ rest, next crc (encodeEntry crc e ++ rest) = some (.ok (e, rest))) ↔ e.Fits := by
  constructor
  · intro h
    exact next_eq_ok (h [])
  · intro h rest
    exact next_encodeEntry h rest

end Wal

end EasyLsm
