import Mathlib.Data.List.Basic
import EasyLsm.Lib.Codec
import EasyLsm.Err

/-!
# The `Loggable` codecs of integers and vectors

The trait of `data_stores/mod.rs` and its implementations for the unsigned integers and for
`Vec<T>`. Encoding is total: it produces the bytes handed to the writer. `RoundTrips a` says
that `a` is read back whatever follows it and that every proper prefix of its encoding ends in
`UnexpectedEof`.
-/

namespace EasyLsm

open Lib

/-- The trait `Loggable`. -/
class Loggable (α : Type) where
  encode : α → Bytes
  decode : Reader DbError α

/-- The encoding of `a` reads back as `a` and no proper prefix of it decodes. -/
abbrev RoundTrips {α : Type} [Loggable α] (a : α) : Prop :=
  Decodes DbError.unexpectedEof Loggable.decode (Loggable.encode a) a

/-- Read `k` bytes as a little-endian number. -/
def readLe (k : Nat) : Reader DbError Nat := fun r => do
  let (buf, r) ← readExact DbError.unexpectedEof k r
  return (leNat buf, r)

/-- Reading as many bytes as there are gives them back. -/
theorem readExact_decodes (bs : Bytes) :
    Decodes DbError.unexpectedEof (readExact DbError.unexpectedEof bs.length) bs bs :=
  Decodes.readExact bs

/-- `readLe k` reads back a number below `256 ^ k`. -/
theorem readLe_decodes {k n : Nat} (h : n < 256 ^ k) :
    Decodes DbError.unexpectedEof (readLe k) (leBytes k n) n := by
  have hread := (readExact_decodes (leBytes k n)).map leNat
  rw [length_leBytes, leNat_leBytes_of_lt h] at hread
  exact hread

/-- `impl Loggable for u8`. -/
instance : Loggable UInt8 where
  encode n := [n]
  decode r := do
    let (buf, r) ← readExact DbError.unexpectedEof 1 r
    return (buf.headD 0, r)

/-- `impl Loggable for u16`. -/
instance : Loggable UInt16 where
  encode n := leBytes 2 n.toNat
  decode r := do
    let (n, r) ← readLe 2 r
    return (UInt16.ofNat n, r)

/-- `impl Loggable for u32`. -/
instance : Loggable UInt32 where
  encode n := leBytes 4 n.toNat
  decode r := do
    let (n, r) ← readLe 4 r
    return (UInt32.ofNat n, r)

/-- `impl Loggable for u64`. -/
instance : Loggable UInt64 where
  encode n := leBytes 8 n.toNat
  decode r := do
    let (n, r) ← readLe 8 r
    return (UInt64.ofNat n, r)

/-- `impl Loggable for Vec<T>`: a `u32` length (narrowed with `as`), then the items. -/
instance {α : Type} [Loggable α] : Loggable (List α) where
  encode v := Loggable.encode (UInt32.ofNat v.length) ++ v.flatMap Loggable.encode
  decode r := do
    let (len, r) ← Loggable.decode (α := UInt32) r
    replicateR Loggable.decode len.toNat r

theorem u8_roundTrips (n : UInt8) : RoundTrips n :=
  (readExact_decodes [n]).map (fun buf => buf.headD 0)

theorem u16_roundTrips (n : UInt16) : RoundTrips n := by
  have h := (readLe_decodes (k := 2) n.toNat_lt).map UInt16.ofNat
  rwa [UInt16.ofNat_toNat] at h

theorem u32_roundTrips (n : UInt32) : RoundTrips n := by
  have h := (readLe_decodes (k := 4) n.toNat_lt).map UInt32.ofNat
  rwa [UInt32.ofNat_toNat] at h

theorem u64_roundTrips (n : UInt64) : RoundTrips n := by
  have h := (readLe_decodes (k := 8) n.toNat_lt).map UInt64.ofNat
  rwa [UInt64.ofNat_toNat] at h

/-- A vector whose length fits the `u32` prefix round-trips when its items do. -/
theorem vec_roundTrips {α : Type} [Loggable α] {v : List α} (hlen : v.length < 2 ^ 32)
    (h : ∀ a ∈ v, RoundTrips a) : RoundTrips v := by
  have hitems := Decodes.replicate v h
  have hcount : (UInt32.ofNat v.length).toNat = v.length :=
    UInt32.toNat_ofNat_of_lt' hlen
  refine (u32_roundTrips (UInt32.ofNat v.length)).bind
    (k := fun len r => replicateR (Loggable.decode (α := α)) len.toNat r) ?_
  rwa [hcount]

/-- The items of a byte vector are its bytes. -/
theorem flatMap_encode_u8 (bs : Bytes) :
    bs.flatMap (Loggable.encode (α := UInt8)) = bs := by
  induction bs with
  | nil => rfl
  | cons b bs ih => rw [List.flatMap_cons, ih]; rfl

/-- A byte vector is its length followed by its bytes. -/
theorem encode_bytes (bs : Bytes) :
    Loggable.encode bs = leBytes 4 (bs.length % 2 ^ 32) ++ bs := by
  show Loggable.encode (α := UInt32) (UInt32.ofNat bs.length) ++
    bs.flatMap (Loggable.encode (α := UInt8)) = _
  rw [flatMap_encode_u8]
  rfl

/-- A byte vector shorter than `2 ^ 32` round-trips. -/
theorem bytes_roundTrips {bs : Bytes} (h : bs.length < 2 ^ 32) : RoundTrips bs :=
  vec_roundTrips h (fun b _ => u8_roundTrips b)

end EasyLsm
