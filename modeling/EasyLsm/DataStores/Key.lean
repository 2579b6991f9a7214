import Mathlib.Data.List.Basic
import Mathlib.Order.Defs.LinearOrder
import EasyLsm.DataStores.Loggable

/-!
# Keys

`Key` of `data_stores/key.rs`: user-key bytes with the log sequence number of a version. The
order is `Key::cmp`: bytes ascending, then LSN descending, so the newest version of a user key
comes first. It is a linear order, the versions of one user key are contiguous in it
(`Key.bytes_eq_of_between`), and `Key.cmp` is its comparison.
-/

namespace EasyLsm

open Lib

/-- `u64::MAX`. -/
def u64Max : UInt64 := UInt64.ofNat (2 ^ 64 - 1)

theorem le_u64Max (n : UInt64) : n ≤ u64Max :=
  UInt64.le_iff_toNat_le.mpr (Nat.le_of_lt_succ n.toNat_lt)

/-- `Key`: the LSN of a version and the user-key bytes. -/
structure Key where
  lsn : UInt64
  bytes : Bytes
  deriving DecidableEq, Repr

namespace Key

/-- `Key::SERIALIZED_HEADER_SIZE`: the LSN (8) and the length (2). -/
def serializedHeaderSize : Nat := 10

/-- `Key::new`. -/
def new (bytes : Bytes) (lsn : UInt64) : Key := ⟨lsn, bytes⟩

/-- `Key::update_lsn`. -/
def updateLsn (k : Key) (lsn : UInt64) : Key := { k with lsn := lsn }

/-- `Key::cmp`: by bytes ascending, then by LSN descending. -/
def cmp (a b : Key) : Ordering :=
  match compare a.bytes b.bytes with
  | .eq => compare b.lsn a.lsn
  | other => other

/-- Bytes compare equal exactly when they are equal. -/
theorem compare_bytes_eq {a b : Bytes} : compare a b = .eq ↔ a = b :=
  Std.LawfulEqCmp.compare_eq_iff_eq

/-- `cmp` is a lexicographic comparison. -/
theorem cmp_eq_compareLex :
    cmp = compareLex (compareOn Key.bytes) (fun a b => compare b.lsn a.lsn) := by
  funext a b
  simp only [cmp, compareLex, compareOn]
  cases compare a.bytes b.bytes <;> rfl

instance : Std.TransCmp cmp := by
  have hlsn : Std.TransCmp (fun a b : Key => compare b.lsn a.lsn) :=
    @Std.TransCmp.opposite _ (compareOn Key.lsn) _
  rw [cmp_eq_compareLex]
  exact inferInstance

/-- Comparing the other way round swaps the result. -/
theorem cmp_swap (a b : Key) : b.cmp a = (a.cmp b).swap := Std.OrientedCmp.eq_swap

/-- Keys compare equal exactly when bytes and LSN agree, as `Key::eq` does. -/
theorem cmp_eq_iff {a b : Key} : a.cmp b = .eq ↔ a = b := by
  rw [cmp_eq_compareLex, compareLex, compareOn, Ordering.then_eq_eq, compare_bytes_eq,
    Std.LawfulEqCmp.compare_eq_iff_eq]
  constructor
  · rintro ⟨hbytes, hlsn⟩
    cases a
    cases b
    simp_all
  · rintro rfl
    exact ⟨rfl, rfl⟩

instance : Ord Key := ⟨cmp⟩
instance : LE Key := ⟨fun a b => (a.cmp b).isLE⟩
instance : LT Key := ⟨fun a b => a.cmp b = .lt⟩
instance : DecidableLE Key := fun a b => inferInstanceAs (Decidable ((a.cmp b).isLE = true))
instance : DecidableLT Key := fun a b => inferInstanceAs (Decidable (a.cmp b = .lt))

/-- The order of `Key::cmp` is linear. -/
instance : LinearOrder Key where
  le_refl a := by
    show (a.cmp a).isLE
    rw [cmp_eq_iff.mpr rfl]
    rfl
  le_trans _ _ _ := Std.TransCmp.isLE_trans
  lt_iff_le_not_ge a b := by
    show a.cmp b = .lt ↔ (a.cmp b).isLE ∧ ¬ (b.cmp a).isLE
    rw [cmp_swap a b]
    cases a.cmp b <;> simp
  le_antisymm _ _ hab hba := cmp_eq_iff.mp (Std.OrientedCmp.isLE_antisymm hab hba)
  le_total a b := by
    show (a.cmp b).isLE ∨ (b.cmp a).isLE
    rw [cmp_swap a b]
    cases a.cmp b <;> simp
  toDecidableLE := inferInstance
  toDecidableLT := inferInstance
  toDecidableEq := inferInstance
  compare_eq_compareOfLessAndEq a b := by
    show a.cmp b = if a.cmp b = .lt then .lt else if a = b then .eq else .gt
    have heq : a = b ↔ a.cmp b = .eq := cmp_eq_iff.symm
    simp only [heq]
    cases a.cmp b <;> simp

/-- `<` spelled out: smaller bytes, or the same bytes and a larger LSN. -/
theorem lt_iff {a b : Key} :
    a < b ↔ compare a.bytes b.bytes = .lt ∨ (a.bytes = b.bytes ∧ b.lsn < a.lsn) := by
  show a.cmp b = .lt ↔ _
  rw [cmp_eq_compareLex, compareLex, compareOn, Ordering.then_eq_lt, compare_bytes_eq]
  rw [Std.compare_eq_lt (a := b.lsn)]

/-- `≤` spelled out: smaller bytes, or the same bytes and an LSN at least as large. -/
theorem le_iff {a b : Key} :
    a ≤ b ↔ compare a.bytes b.bytes = .lt ∨ (a.bytes = b.bytes ∧ b.lsn ≤ a.lsn) := by
  show (a.cmp b).isLE ↔ _
  rw [cmp_eq_compareLex, compareLex, compareOn]
  cases h : compare a.bytes b.bytes with
  | lt => simp
  | eq => simp [compare_bytes_eq.mp h, Std.isLE_compare]
  | gt =>
      have hne : a.bytes ≠ b.bytes := fun heq => by
        rw [compare_bytes_eq.mpr heq] at h
        cases h
      simp [hne]

/-- The bytes of keys in order are in order. -/
theorem bytes_isLE_of_le {a b : Key} (h : a ≤ b) : (compare a.bytes b.bytes).isLE := by
  rcases le_iff.mp h with hlt | ⟨heq, _⟩
  · simp [hlt]
  · simp [compare_bytes_eq.mpr heq]

/-- The versions of one user key are contiguous in the order. -/
theorem bytes_eq_of_between {a b c : Key} (hab : a ≤ b) (hbc : b ≤ c)
    (heq : a.bytes = c.bytes) : b.bytes = a.bytes := by
  have hba : (compare b.bytes a.bytes).isLE := heq ▸ bytes_isLE_of_le hbc
  exact compare_bytes_eq.mp
    (Std.OrientedCmp.isLE_antisymm hba (bytes_isLE_of_le hab))

/-- Among versions of one user key, the smaller key is the newer version. -/
theorem le_iff_of_bytes_eq {a b : Key} (h : a.bytes = b.bytes) : a ≤ b ↔ b.lsn ≤ a.lsn := by
  rw [le_iff, compare_bytes_eq.mpr h]
  simp [h]

/-! ## Codec -/

instance : Loggable Key where
  encode k :=
    Loggable.encode k.lsn ++ Loggable.encode (UInt16.ofNat k.bytes.length) ++ k.bytes
  decode r := do
    let (lsn, r) ← Loggable.decode (α := UInt64) r
    let (keyLen, r) ← Loggable.decode (α := UInt16) r
    let (keyBytes, r) ← readExact DbError.unexpectedEof keyLen.toNat r
    return (⟨lsn, keyBytes⟩, r)

/-- The length field of `k` is not narrowed. -/
def Fits (k : Key) : Prop := k.bytes.length < 2 ^ 16

instance (k : Key) : Decidable k.Fits := inferInstanceAs (Decidable (_ < _))

/-- A key of at most 65535 bytes round-trips. -/
theorem roundTrips {k : Key} (h : k.Fits) : RoundTrips k := by
  have hlen : (UInt16.ofNat k.bytes.length).toNat = k.bytes.length :=
    UInt16.toNat_ofNat_of_lt' h
  have hbytes := readExact_decodes k.bytes
  rw [← hlen] at hbytes
  show Decodes _ _ (_ ++ _ ++ _) _
  rw [List.append_assoc]
  exact (u64_roundTrips k.lsn).bind (k := fun lsn r => do
      let (keyLen, r) ← Loggable.decode (α := UInt16) r
      let (keyBytes, r) ← readExact DbError.unexpectedEof keyLen.toNat r
      return ((⟨lsn, keyBytes⟩ : Key), r))
    ((u16_roundTrips (UInt16.ofNat k.bytes.length)).bind (k := fun keyLen r => do
        let (keyBytes, r) ← readExact DbError.unexpectedEof keyLen.toNat r
        return ((⟨k.lsn, keyBytes⟩ : Key), r))
      (hbytes.map (fun keyBytes => (⟨k.lsn, keyBytes⟩ : Key))))

/-- The encoding of a key has its header and its bytes. -/
theorem length_encode (k : Key) :
    (Loggable.encode k).length = serializedHeaderSize + k.bytes.length := by
  show (leBytes 8 _ ++ leBytes 2 _ ++ k.bytes).length = _
  simp only [List.length_append, length_leBytes, serializedHeaderSize]

end Key

end EasyLsm
