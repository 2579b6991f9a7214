import Mathlib.Data.List.Basic
import EasyLsm.DataStores.Sstable
import EasyLsm.Lib.Crc32
import EasyLsm.Lib.SipHash

/-!
# The crates

What the table format takes from crates, spelled out: the CRC of `crc32fast`, the hash of a byte
slice under `SipHasher13`, and the fixed-width encoding of `bincode`. The format is proved for any
such functions; these are the ones that the database runs with.
-/

namespace EasyLsm

open Lib

namespace BloomFilter

/-- The fields behind the bitmap. -/
def serializeFields (b : BloomFilter) : Bytes :=
  leBytes 8 b.bitmapBits.toNat ++ (leBytes 4 b.kNum.toNat ++
    (leBytes 8 b.sipKeys.1.1.toNat ++ (leBytes 8 b.sipKeys.1.2.toNat ++
      (leBytes 8 b.sipKeys.2.1.toNat ++ leBytes 8 b.sipKeys.2.2.toNat))))

/-- `bincode::serialize`: a length and the words of the bitmap, then the other fields. -/
def serialize (b : BloomFilter) : Bytes :=
  leBytes 8 b.bitmap.length ++
    (b.bitmap.flatMap (fun w => leBytes 8 w.toNat) ++ b.serializeFields)

/-- The word at an offset. -/
def wordAt (bs : Bytes) (offset : Nat) : UInt64 := UInt64.ofNat (leNat ((bs.drop offset).take 8))

/-- The filter with a bitmap and the other fields. -/
def deserializeFields (bitmap : List UInt64) (fields : Bytes) : BloomFilter where
  bitmap := bitmap
  bitmapBits := wordAt fields 0
  kNum := UInt32.ofNat (leNat ((fields.drop 8).take 4))
  sipKeys := ((wordAt fields 12, wordAt fields 20), (wordAt fields 28, wordAt fields 36))

/-- `bincode::deserialize`. The number of words is what the other fields leave. -/
def deserialize (bs : Bytes) : Option BloomFilter :=
  if bs.length < 52 then none
  else
    let n := (bs.length - 52) / 8
    let bitmap := (List.range n).map fun i => wordAt (bs.drop 8) (8 * i)
    some (deserializeFields bitmap (bs.drop (8 + 8 * n)))

theorem length_flatMap_words (l : List UInt64) :
    (l.flatMap fun w => leBytes 8 w.toNat).length = 8 * l.length := by
  induction l with
  | nil => rfl
  | cons w l ih =>
      rw [List.flatMap_cons, List.length_append, length_leBytes, ih, List.length_cons]
      omega

theorem length_serialize (b : BloomFilter) :
    b.serialize.length = 8 + 8 * b.bitmap.length + 8 + 4 + 32 := by
  simp only [serialize, serializeFields, List.length_append, length_leBytes,
    length_flatMap_words]
  omega

/-- A word is read back. -/
theorem wordAt_append {before rest : Bytes} {offset : Nat} (w : UInt64)
    (h : before.length = offset) : wordAt (before ++ (leBytes 8 w.toNat ++ rest)) offset = w := by
  subst h
  have htake : (leBytes 8 w.toNat ++ rest).take 8 = leBytes 8 w.toNat := by
    have hleft := @List.take_left _ (leBytes 8 w.toNat) rest
    rwa [length_leBytes] at hleft
  rw [wordAt, List.drop_left, htake, leNat_leBytes_of_lt (k := 8) w.toNat_lt, UInt64.ofNat_toNat]

/-- The words of the bitmap are read back. -/
theorem words_append (l : List UInt64) (rest : Bytes) :
    ((List.range l.length).map fun i =>
      wordAt (l.flatMap (fun w => leBytes 8 w.toNat) ++ rest) (8 * i)) = l := by
  refine List.ext_getElem (by simp) fun i hi hi' => ?_
  rw [List.getElem_map, List.getElem_range]
  obtain ⟨before, after, hsplit, hlen⟩ : ∃ before after, l = before ++ l[i] :: after ∧
      before.length = i := by
    refine ⟨l.take i, l.drop (i + 1), ?_, by rw [List.length_take]; omega⟩
    rw [← List.drop_eq_getElem_cons hi', List.take_append_drop]
  have hbytes : l.flatMap (fun w => leBytes 8 w.toNat) ++ rest =
      before.flatMap (fun w => leBytes 8 w.toNat) ++ (leBytes 8 l[i].toNat ++
        (after.flatMap (fun w => leBytes 8 w.toNat) ++ rest)) := by
    conv_lhs => rw [hsplit]
    rw [List.flatMap_append, List.flatMap_cons, List.append_assoc, List.append_assoc]
  rw [hbytes]
  exact wordAt_append _ (by rw [length_flatMap_words, hlen])

/-- The fields behind the bitmap are read back. -/
theorem deserializeFields_serializeFields (b : BloomFilter) :
    deserializeFields b.bitmap b.serializeFields = b := by
  have hword : ∀ (before rest : Bytes) (offset : Nat) (w : UInt64), before.length = offset →
      wordAt (before ++ (leBytes 8 w.toNat ++ rest)) offset = w :=
    fun _ _ _ w h => wordAt_append w h
  have hbits := hword [] (leBytes 4 b.kNum.toNat ++ (leBytes 8 b.sipKeys.1.1.toNat ++
    (leBytes 8 b.sipKeys.1.2.toNat ++ (leBytes 8 b.sipKeys.2.1.toNat ++
      leBytes 8 b.sipKeys.2.2.toNat)))) 0 b.bitmapBits rfl
  have hkey0 := hword (leBytes 8 b.bitmapBits.toNat ++ leBytes 4 b.kNum.toNat)
    (leBytes 8 b.sipKeys.1.2.toNat ++ (leBytes 8 b.sipKeys.2.1.toNat ++
      leBytes 8 b.sipKeys.2.2.toNat)) 12 b.sipKeys.1.1 (by simp)
  have hkey1 := hword (leBytes 8 b.bitmapBits.toNat ++ (leBytes 4 b.kNum.toNat ++
      leBytes 8 b.sipKeys.1.1.toNat)) (leBytes 8 b.sipKeys.2.1.toNat ++
      leBytes 8 b.sipKeys.2.2.toNat) 20 b.sipKeys.1.2 (by simp)
  have hkey2 := hword (leBytes 8 b.bitmapBits.toNat ++ (leBytes 4 b.kNum.toNat ++
      (leBytes 8 b.sipKeys.1.1.toNat ++ leBytes 8 b.sipKeys.1.2.toNat)))
      (leBytes 8 b.sipKeys.2.2.toNat) 28 b.sipKeys.2.1 (by simp)
  have hkey3 := hword (leBytes 8 b.bitmapBits.toNat ++ (leBytes 4 b.kNum.toNat ++
      (leBytes 8 b.sipKeys.1.1.toNat ++ (leBytes 8 b.sipKeys.1.2.toNat ++
        leBytes 8 b.sipKeys.2.1.toNat)))) [] 36 b.sipKeys.2.2 (by simp)
  have hkNum : leNat ((b.serializeFields.drop 8).take 4) = b.kNum.toNat := by
    have hdrop : b.serializeFields.drop 8 = leBytes 4 b.kNum.toNat ++
        (leBytes 8 b.sipKeys.1.1.toNat ++ (leBytes 8 b.sipKeys.1.2.toNat ++
          (leBytes 8 b.sipKeys.2.1.toNat ++ leBytes 8 b.sipKeys.2.2.toNat))) :=
      List.drop_left' (length_leBytes 8 _)
    rw [hdrop, List.take_left' (length_leBytes 4 _),
      leNat_leBytes_of_lt (k := 4) b.kNum.toNat_lt]
  simp only [List.append_assoc, List.nil_append, List.append_nil] at hbits hkey0 hkey1 hkey2 hkey3
  simp only [deserializeFields, hkNum, UInt32.ofNat_toNat]
  simp only [serializeFields, hbits, hkey0, hkey1, hkey2, hkey3]

/-- A filter is read back. -/
theorem deserialize_serialize (b : BloomFilter) : deserialize b.serialize = some b := by
  have hlen := length_serialize b
  have hcount : (b.serialize.length - 52) / 8 = b.bitmap.length := by omega
  have hbody : b.serialize.drop 8 =
      b.bitmap.flatMap (fun w => leBytes 8 w.toNat) ++ b.serializeFields :=
    List.drop_left' (length_leBytes 8 _)
  have hfields : b.serialize.drop (8 + 8 * b.bitmap.length) = b.serializeFields := by
    rw [← List.drop_drop, hbody, List.drop_left' (length_flatMap_words b.bitmap)]
  unfold deserialize
  rw [if_neg (by omega)]
  simp only [hcount, hbody, hfields, words_append, deserializeFields_serializeFields]

end BloomFilter

/-- `SipHasher13` on a byte slice, which hashes the length first. -/
def sip13 (key : UInt64 × UInt64) (bs : Bytes) : UInt64 :=
  sipHash13 key (leBytes 8 bs.length ++ bs)

/-- The functions of the crates. -/
def crates : Crates where
  crc32 := crc32
  sip13 := sip13
  bincode := {
    serialize := BloomFilter.serialize
    deserialize := BloomFilter.deserialize
    roundTrip := BloomFilter.deserialize_serialize
    length_serialize := BloomFilter.length_serialize }

end EasyLsm
