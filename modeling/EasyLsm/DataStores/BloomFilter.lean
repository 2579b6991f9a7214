import Mathlib.Data.List.Basic
import EasyLsm.DataStores.Loggable

/-!
# Bloom filters

`BloomFilter` of `data_stores/bloom_filter.rs`: a bitmap of 64-bit words, and `k_num` bit indices
for each key, computed from two SipHash values. The hash function is a parameter, and so is
`bincode`, of which only the round trip of a filter matters. `no_false_negatives`: whatever the hash
function, a key that was set is found from then on, and no index is outside the bitmap.
-/

namespace EasyLsm

open Lib

/-- `BloomFilter`. -/
structure BloomFilter where
  bitmap : List UInt64
  bitmapBits : UInt64
  kNum : UInt32
  sipKeys : (UInt64 × UInt64) × (UInt64 × UInt64)
  deriving DecidableEq, Repr

namespace BloomFilter

/-- `BloomFilter::new(1000, 0.01)`, the only call in the code. The floating-point formulas give
9586 bits and 7 hashes. -/
def new : BloomFilter where
  bitmap := List.replicate 150 0
  bitmapBits := 9586
  kNum := 7
  sipKeys := ((0x5068486940525249, 0x1234567890ABCDEF), (0xFEDCBA0987654321, 0x1029384756102938))

/-- `BloomFilter::set_bit`. -/
def setBit (b : BloomFilter) (idx : UInt64) : BloomFilter :=
  let wordIdx := (idx / 64).toNat
  let bitIdx := idx % 64
  { b with bitmap := b.bitmap.modify wordIdx (· ||| (1 <<< bitIdx)) }

/-- `BloomFilter::get_bit`. -/
def getBit (b : BloomFilter) (idx : UInt64) : Bool :=
  let wordIdx := (idx / 64).toNat
  let bitIdx := idx % 64
  (b.bitmap.getD wordIdx 0 &&& (1 <<< bitIdx)) != 0

/-- The filter has bits, and a word for each 64 of them. -/
structure WellFormed (b : BloomFilter) : Prop where
  pos : 0 < b.bitmapBits.toNat
  words : b.bitmap.length = (b.bitmapBits.toNat + 63) / 64

theorem wellFormed_new : WellFormed new where
  pos := by decide
  words := List.length_replicate

section Hash

variable (sip : UInt64 × UInt64 → Bytes → UInt64)

/-- `BloomFilter::hash_kernel`: SipHash of the key under both pairs of keys. -/
def hashKernel (b : BloomFilter) (key : Bytes) : UInt64 × UInt64 :=
  (sip b.sipKeys.1 key, sip b.sipKeys.2 key)

/-- The bit indices of a key. -/
def indices (b : BloomFilter) (key : Bytes) : List UInt64 :=
  let (h1, h2) := b.hashKernel sip key
  (List.range b.kNum.toNat).map fun i => (h1 + UInt64.ofNat i * h2) % b.bitmapBits

/-- `BloomFilter::set`. -/
def set (b : BloomFilter) (key : Bytes) : BloomFilter := (b.indices sip key).foldl setBit b

/-- `BloomFilter::check`. -/
def check (b : BloomFilter) (key : Bytes) : Bool := (b.indices sip key).all b.getBit

/-- `set` for one key after the other. -/
def setAll (b : BloomFilter) (keys : List Bytes) : BloomFilter := keys.foldl (set sip) b

end Hash

/-! ## No false negatives -/

/-- Two filters with the same parameters, the second with all the bits of the first. -/
structure Extends (b c : BloomFilter) : Prop where
  bitmapBits : c.bitmapBits = b.bitmapBits
  kNum : c.kNum = b.kNum
  sipKeys : c.sipKeys = b.sipKeys
  words : c.bitmap.length = b.bitmap.length
  bits : ∀ idx, b.getBit idx = true → c.getBit idx = true

theorem Extends.refl (b : BloomFilter) : Extends b b :=
  ⟨rfl, rfl, rfl, rfl, fun _ h => h⟩

theorem Extends.trans {a b c : BloomFilter} (hab : Extends a b) (hbc : Extends b c) :
    Extends a c where
  bitmapBits := hbc.bitmapBits.trans hab.bitmapBits
  kNum := hbc.kNum.trans hab.kNum
  sipKeys := hbc.sipKeys.trans hab.sipKeys
  words := hbc.words.trans hab.words
  bits idx h := hbc.bits idx (hab.bits idx h)

/-- More bits keep a filter well formed. -/
theorem WellFormed.extends {b c : BloomFilter} (h : WellFormed b) (hbc : Extends b c) :
    WellFormed c where
  pos := by rw [hbc.bitmapBits]; exact h.pos
  words := by rw [hbc.words, hbc.bitmapBits]; exact h.words

/-- Setting bits in a word keeps the bits it has. -/
theorem or_and_ne_zero {w m n : UInt64} (h : w &&& n ≠ 0) : (w ||| m) &&& n ≠ 0 := by
  intro hzero
  refine h ?_
  have hdistrib : (w ||| m) &&& n = (w &&& n) ||| (m &&& n) := by
    rw [← UInt64.toBitVec_inj]
    ext i hi
    simp only [UInt64.toBitVec_and, UInt64.toBitVec_or, BitVec.getElem_and, BitVec.getElem_or,
      Bool.and_or_distrib_right]
  rw [hdistrib, UInt64.or_eq_zero_iff] at hzero
  exact hzero.1

/-- Setting bits in a word sets them. -/
theorem or_and_self (w m : UInt64) : (w ||| m) &&& m = m := by
  rw [← UInt64.toBitVec_inj]
  ext i hi
  simp only [UInt64.toBitVec_and, UInt64.toBitVec_or, BitVec.getElem_and, BitVec.getElem_or]
  cases m.toBitVec[i] <;> simp

/-- `set_bit` keeps the other bits. -/
theorem extends_setBit (b : BloomFilter) (idx : UInt64) : Extends b (b.setBit idx) where
  bitmapBits := rfl
  kNum := rfl
  sipKeys := rfl
  words := List.length_modify _ _ _
  bits j h := by
    simp only [getBit, setBit, bne_iff_ne, List.getD_eq_getElem?_getD,
      List.getElem?_modify] at h ⊢
    split
    · cases hword : b.bitmap[(j / 64).toNat]? with
      | none => rw [hword] at h; exact absurd (UInt64.zero_and) h
      | some w =>
          rw [hword] at h
          exact or_and_ne_zero h
    · simpa using h

/-- The mask of a bit is not zero. -/
theorem mask_ne_zero (idx : UInt64) : (1 : UInt64) <<< (idx % 64) ≠ 0 := by
  intro hzero
  have hlt : (idx % 64).toNat < 64 := by
    rw [UInt64.toNat_mod]
    exact Nat.mod_lt _ (by decide)
  have hall : ∀ i : Fin 64, (1 : UInt64) <<< (UInt64.ofNat i.val) ≠ 0 := by decide
  refine hall ⟨(idx % 64).toNat, hlt⟩ ?_
  rw [UInt64.ofNat_toNat]
  exact hzero

/-- `get_bit` reads what `set_bit` has written when the index is inside the bitmap. -/
theorem getBit_setBit {b : BloomFilter} {idx : UInt64}
    (h : (idx / 64).toNat < b.bitmap.length) : (b.setBit idx).getBit idx = true := by
  simp only [getBit, setBit, bne_iff_ne, List.getD_eq_getElem?_getD, List.getElem?_modify,
    if_true, List.getElem?_eq_getElem h, Option.map_eq_map, Option.map_some, Option.getD_some]
  rw [or_and_self]
  exact mask_ne_zero idx

/-- Setting several bits keeps the others and sets each of them. -/
theorem foldl_setBit {b : BloomFilter} (hb : WellFormed b) (idxs : List UInt64)
    (h : ∀ idx ∈ idxs, idx.toNat < b.bitmapBits.toNat) :
    Extends b (idxs.foldl setBit b) ∧ ∀ idx ∈ idxs, (idxs.foldl setBit b).getBit idx = true := by
  induction idxs generalizing b with
  | nil => exact ⟨Extends.refl b, fun _ h => absurd h List.not_mem_nil⟩
  | cons idx idxs ih =>
      have hstep := extends_setBit b idx
      have hrest := ih (hb.extends hstep) (fun j hj => h j (List.mem_cons_of_mem idx hj))
      refine ⟨hstep.trans hrest.1, fun j hj => ?_⟩
      rcases List.mem_cons.mp hj with rfl | hj
      · refine hrest.1.bits j (getBit_setBit ?_)
        have hlt := h j List.mem_cons_self
        rw [UInt64.toNat_div, hb.words]
        show j.toNat / 64 < (b.bitmapBits.toNat + 63) / 64
        omega
      · exact hrest.2 j hj

variable {sip : UInt64 × UInt64 → Bytes → UInt64}

/-- The indices of a key are inside the bitmap. -/
theorem indices_lt {b : BloomFilter} (hb : WellFormed b) {key : Bytes} {idx : UInt64}
    (h : idx ∈ b.indices sip key) : idx.toNat < b.bitmapBits.toNat := by
  obtain ⟨i, _, rfl⟩ := List.mem_map.mp h
  rw [UInt64.toNat_mod]
  exact Nat.mod_lt _ hb.pos

/-- Filters with the same parameters have the same indices. -/
theorem Extends.indices {b c : BloomFilter} (h : Extends b c) (key : Bytes) :
    c.indices sip key = b.indices sip key := by
  simp only [BloomFilter.indices, hashKernel, h.bitmapBits, h.kNum, h.sipKeys]

/-- A key stays in a filter that gets more bits. -/
theorem Extends.check {b c : BloomFilter} (h : Extends b c) {key : Bytes}
    (hkey : b.check sip key = true) : c.check sip key = true := by
  rw [BloomFilter.check, List.all_eq_true] at hkey ⊢
  intro idx hidx
  rw [h.indices] at hidx
  exact h.bits idx (hkey idx hidx)

/-- `set` keeps what is in the filter. -/
theorem extends_set {b : BloomFilter} (hb : WellFormed b) (key : Bytes) :
    Extends b (b.set sip key) :=
  (foldl_setBit hb _ (fun _ h => indices_lt hb h)).1

/-- A key is in the filter after it was set. -/
theorem check_set {b : BloomFilter} (hb : WellFormed b) (key : Bytes) :
    (b.set sip key).check sip key = true := by
  rw [BloomFilter.check, List.all_eq_true, (extends_set hb key).indices]
  exact (foldl_setBit hb _ (fun _ h => indices_lt hb h)).2

/-- `set` for several keys keeps what is in the filter. -/
theorem extends_setAll {b : BloomFilter} (hb : WellFormed b) (keys : List Bytes) :
    Extends b (b.setAll sip keys) := by
  induction keys generalizing b with
  | nil => exact Extends.refl b
  | cons key keys ih =>
      have hset : Extends b (b.set sip key) := extends_set hb key
      exact hset.trans (ih (hb.extends hset))

/-- Every key that was set is found. -/
theorem check_of_mem_setAll {b : BloomFilter} (hb : WellFormed b) {keys : List Bytes}
    {key : Bytes} (h : key ∈ keys) : (b.setAll sip keys).check sip key = true := by
  induction keys generalizing b with
  | nil => exact absurd h List.not_mem_nil
  | cons first keys ih =>
      have hset : WellFormed (b.set sip first) := hb.extends (extends_set hb first)
      rcases List.mem_cons.mp h with rfl | h
      · exact (extends_setAll hset keys).check (check_set hb key)
      · exact ih hset h

/-- Whatever was set, the indices of every key are bits of the filter and in the words of its
bitmap, and a key that was set is found at every later point. -/
theorem no_false_negatives (sip : UInt64 × UInt64 → Bytes → UInt64) (b : BloomFilter)
    (hb : WellFormed b) (keys : List Bytes) :
    (∀ key, ∀ idx ∈ (b.setAll sip keys).indices sip key,
      idx.toNat < (b.setAll sip keys).bitmapBits.toNat ∧
        (idx / 64).toNat < (b.setAll sip keys).bitmap.length) ∧
    ∀ key ∈ keys, ∀ later, (b.setAll sip (keys ++ later)).check sip key = true := by
  have hall : WellFormed (b.setAll sip keys) := hb.extends (extends_setAll hb keys)
  refine ⟨fun key idx hidx => ?_, fun key hkey later => ?_⟩
  · have hlt := indices_lt hall hidx
    refine ⟨hlt, ?_⟩
    rw [UInt64.toNat_div, hall.words]
    show idx.toNat / 64 < ((b.setAll sip keys).bitmapBits.toNat + 63) / 64
    omega
  · exact check_of_mem_setAll hb (List.mem_append_left later hkey)

theorem no_false_negatives_new :
    (∀ key, ∀ idx ∈ (new.setAll (fun k _ => k.1) [[97], []]).indices (fun k _ => k.1) key,
      idx.toNat < (new.setAll (fun k _ => k.1) [[97], []]).bitmapBits.toNat ∧
        (idx / 64).toNat < (new.setAll (fun k _ => k.1) [[97], []]).bitmap.length) ∧
    ∀ key ∈ [[97], []], ∀ later,
      (new.setAll (fun k _ => k.1) ([[97], []] ++ later)).check (fun k _ => k.1) key = true :=
  no_false_negatives (fun k _ => k.1) new wellFormed_new [[97], []]

end BloomFilter

/-! ## Serialization -/

/-- `bincode` on filters: what is serialized is deserialized, and the fields are written with
their fixed sizes, the vector behind its length. -/
structure Bincode where
  serialize : BloomFilter → Bytes
  deserialize : Bytes → Option BloomFilter
  roundTrip : ∀ b, deserialize (serialize b) = some b
  length_serialize : ∀ b, (serialize b).length = 8 + 8 * b.bitmap.length + 8 + 4 + 32

end EasyLsm
