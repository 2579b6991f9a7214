import Mathlib.Data.List.Basic
import Mathlib.Data.List.Pairwise
import EasyLsm.DataStores.Formats
import EasyLsm.DataStores.SstableRead

/-!
# Searching a table

`Sstable::search` asks the filter, finds the first block whose largest key is not below the
newest possible version of the key, and scans that block. For entries in key order this finds
the first entry with the key, wherever the versions of the key are cut into blocks.
-/

namespace EasyLsm

open Lib

/-- Entries in key order. -/
def KeyOrdered (es : List Entry) : Prop := es.Pairwise fun a b => a.1 ≤ b.1

instance (es : List Entry) : Decidable (KeyOrdered es) :=
  inferInstanceAs (Decidable (es.Pairwise _))

/-- The value of the first entry with a user key. -/
def firstValue (k : Bytes) (es : List Entry) : Option Value :=
  (es.find? fun e => e.1.bytes = k).map Prod.snd

/-- No entry has the key. -/
theorem firstValue_eq_none {k : Bytes} {es : List Entry} :
    firstValue k es = none ↔ ∀ e ∈ es, e.1.bytes ≠ k := by
  rw [firstValue, Option.map_eq_none_iff, List.find?_eq_none]
  simp

/-- The first entry with the key is in the first part that has one. -/
theorem firstValue_append (k : Bytes) (es es' : List Entry) :
    firstValue k (es ++ es') = (firstValue k es).or (firstValue k es') := by
  rw [firstValue, List.find?_append]
  cases hfind : es.find? fun e => e.1.bytes = k with
  | none => simp [firstValue, hfind]
  | some e => simp [firstValue, hfind]

/-- The element at the partition point is the first one that does not meet the predicate. -/
theorem getElem?_partitionPoint {α : Type} (pred : α → Bool) (l : List α) :
    l[partitionPoint pred l]? = (l.dropWhile pred).head? := by
  rw [partitionPoint]
  induction l with
  | nil => rfl
  | cons a l ih =>
      cases hp : pred a with
      | true =>
          rw [List.takeWhile_cons_of_pos hp, List.dropWhile_cons_of_pos hp, List.length_cons,
            List.getElem?_cons_succ, ih]
      | false =>
          have hneg : ¬ pred a = true := by rw [hp]; decide
          rw [List.takeWhile_cons_of_neg hneg, List.dropWhile_cons_of_neg hneg]
          rfl

/-- Behind a key with larger bytes there is no version of `k`. -/
theorem bytes_ne_of_gt {a b : Key} {k : Bytes} (hab : a ≤ b) (hgt : compare a.bytes k = .gt) :
    b.bytes ≠ k := by
  rintro rfl
  have hle := Key.bytes_isLE_of_le hab
  rw [hgt] at hle
  cases hle

/-- Before the newest possible version of `k` there is no version of `k`. -/
theorem bytes_ne_of_lt {a : Key} {k : Bytes} (h : a < Key.new k u64Max) : a.bytes ≠ k := by
  rintro rfl
  have hsame : (Key.new a.bytes u64Max).bytes = a.bytes := rfl
  have hle : Key.new a.bytes u64Max ≤ a := (Key.le_iff_of_bytes_eq hsame).mpr (le_u64Max _)
  exact absurd h (not_lt.mpr hle)

/-- A key that is not before the newest possible version of `k` is one of its versions or has
larger bytes. -/
theorem bytes_eq_or_gt {a : Key} {k : Bytes} (h : ¬ a < Key.new k u64Max) :
    a.bytes = k ∨ compare a.bytes k = .gt := by
  rcases Key.le_iff.mp (not_lt.mp h) with hlt | ⟨heq, _⟩
  · right
    have hswap : compare a.bytes k = (compare k a.bytes).swap := Std.OrientedCmp.eq_swap
    have hkey : compare k a.bytes = .lt := hlt
    rw [hswap, hkey]
    rfl
  · exact .inl heq.symm

variable {c : Crates}

/-- Scanning a block in key order finds the first entry with the key. -/
theorem scanBlock_encodeEntries {k : Bytes} {es : List Entry} (h : ∀ e ∈ es, e.Fits)
    (hsorted : KeyOrdered es) {fuel : Nat} (hfuel : es.length ≤ fuel) :
    Sstable.scanBlock k fuel (encodeEntries es) = .ok (firstValue k es) := by
  induction es generalizing fuel with
  | nil => cases fuel <;> rfl
  | cons e es ih =>
      obtain ⟨b, r, henc⟩ := List.exists_cons_of_ne_nil (Entry.encode_ne_nil e)
      obtain ⟨fuel, rfl⟩ : ∃ n, fuel = n + 1 := ⟨fuel - 1, by rw [List.length_cons] at hfuel; omega⟩
      have hfits := h e List.mem_cons_self
      have hsorted := List.pairwise_cons.mp hsorted
      have hkey := (Key.roundTrips hfits.1).reads (Loggable.encode e.2 ++ encodeEntries es)
      have hvalue := (Value.roundTrips hfits.2).reads (encodeEntries es)
      have hrest := ih (fun x hx => h x (List.mem_cons_of_mem e hx)) hsorted.2
        (Nat.le_of_succ_le_succ hfuel)
      rw [← List.append_assoc, show Loggable.encode e.1 ++ Loggable.encode e.2 = e.encode from rfl,
        henc] at hkey
      rw [encodeEntries, List.flatMap_cons, henc, ← encodeEntries, List.cons_append,
        Sstable.scanBlock]
      rw [List.cons_append] at hkey
      simp only [hkey, ok_bind, hvalue]
      by_cases heq : e.1.bytes = k
      · simp [heq, firstValue]
      · by_cases hgt : compare e.1.bytes k = .gt
        · have hnone : firstValue k (e :: es) = none := by
            rw [firstValue_eq_none]
            intro x hx
            rcases List.mem_cons.mp hx with rfl | hx
            · exact heq
            · exact bytes_ne_of_gt (hsorted.1 x hx) hgt
          simp only [heq, hgt, if_true, if_false, hnone]
        · simp only [heq, hgt, if_false, hrest, firstValue, List.find?_cons, decide_false]

/-- What `search` does with the first block that may hold the key. -/
def searchFound (c : Crates) (file : Bytes) (k : Bytes) :
    Option (Key × Key × UInt64) → Except DbError (Option Value)
  | none => .ok none
  | some (min, _, offset) =>
      if compare min.bytes k = .gt then .ok none
      else do
        let blockData ← Sstable.readBlockWithCrcAt c file offset
        Sstable.scanBlock k blockData.length blockData

/-- The search among blocks in a file finds the first entry with the key. -/
theorem searchFound_indexFrom {k : Bytes} {blocks : List (List Entry)} (before after : Bytes)
    (hne : ∀ b ∈ blocks, b ≠ []) (hfits : ∀ b ∈ blocks, ∀ e ∈ b, e.Fits)
    (hsize : ∀ b ∈ blocks, (encodeEntries b).length < 2 ^ 32)
    (hlen : before.length + (blocks.flatMap (blockBytes c)).length < 2 ^ 64)
    (hsorted : KeyOrdered blocks.flatten) :
    searchFound c (before ++ (blocks.flatMap (blockBytes c) ++ after)) k
      ((indexFrom c before.length blocks).dropWhile
        fun e => e.2.1 < Key.new k u64Max).head? = .ok (firstValue k blocks.flatten) := by
  induction blocks generalizing before with
  | nil => rfl
  | cons b blocks ih =>
      have hb : b ≠ [] := hne b List.mem_cons_self
      rw [List.flatten_cons] at hsorted ⊢
      obtain ⟨hsb, hsrest, hcross⟩ := List.pairwise_append.mp hsorted
      obtain ⟨first, tail, rfl⟩ := List.exists_cons_of_ne_nil hb
      have hfirst : (firstKey (first :: tail)).getD (Key.new [] 0) = first.1 := rfl
      have hlast : (lastKey (first :: tail)).getD (Key.new [] 0) =
          ((first :: tail).getLast hb).1 := by
        rw [lastKey, List.getLast?_eq_some_getLast hb]
        rfl
      have hlastMem := List.getLast_mem hb
      rw [List.flatMap_cons, List.length_append] at hlen
      rw [indexFrom, hfirst, hlast]
      by_cases hlt : ((first :: tail).getLast hb).1 < Key.new k u64Max
      · -- every entry of the block is before the newest possible version of the key
        have hmiss : firstValue k (first :: tail) = none := by
          rw [firstValue_eq_none]
          intro e he
          have hle : e.1 ≤ ((first :: tail).getLast hb).1 :=
            hsb.rel_getLast_of_rel_getLast_getLast he (le_refl _)
          exact bytes_ne_of_lt (lt_of_le_of_lt hle hlt)
        have hrest := ih (before ++ blockBytes c (first :: tail))
          (fun x hx => hne x (List.mem_cons_of_mem _ hx))
          (fun x hx => hfits x (List.mem_cons_of_mem _ hx))
          (fun x hx => hsize x (List.mem_cons_of_mem _ hx))
          (by rw [List.length_append]; omega) hsrest
        rw [List.length_append, List.append_assoc] at hrest
        rw [List.dropWhile_cons, if_pos (by simpa using hlt), List.flatMap_cons,
          List.append_assoc, hrest, firstValue_append, hmiss, Option.none_or]
      · rw [List.dropWhile_cons, if_neg (by simpa using hlt), List.head?_cons, searchFound]
        by_cases hgt : compare first.1.bytes k = .gt
        · -- the block starts behind the key, and so does everything after it
          rw [if_pos hgt]
          have hmiss : firstValue k (first :: tail ++ blocks.flatten) = none := by
            rw [firstValue_eq_none]
            intro e he
            have hle : first.1 ≤ e.1 := by
              rcases List.mem_cons.mp he with rfl | he
              · exact le_refl _
              · exact (List.pairwise_cons.mp hsorted).1 e he
            exact bytes_ne_of_gt hle hgt
          rw [hmiss]
        · rw [if_neg hgt, List.flatMap_cons, List.append_assoc]
          have hread := readBlockWithCrcAt_frame (c := c) before
            (blocks.flatMap (blockBytes c) ++ after) (hsize _ List.mem_cons_self) (by omega)
          have hscan : Sstable.scanBlock k (encodeEntries (first :: tail)).length
              (encodeEntries (first :: tail)) = .ok (firstValue k (first :: tail)) :=
            scanBlock_encodeEntries (hfits _ List.mem_cons_self) hsb
              (Decodes.length_le_flatMap (fun e _ => Entry.encode_ne_nil e))
          rw [show blockBytes c (first :: tail) = frame c (encodeEntries (first :: tail)) from rfl,
            hread, ok_bind, hscan, firstValue_append]
          cases hfound : firstValue k (first :: tail) with
          | some v => rw [Option.some_or]
          | none =>
              -- the last entry of the block is behind the key
              have hmiss : firstValue k blocks.flatten = none := by
                rw [firstValue_eq_none] at hfound ⊢
                intro e he
                rcases bytes_eq_or_gt hlt with heq | hbehind
                · exact absurd heq (hfound _ hlastMem)
                · exact bytes_ne_of_gt (hcross _ hlastMem e he) hbehind
              rw [hmiss, Option.none_or]

/-- A search of an opened table in key order finds the first entry with the key. -/
theorem search_openedTable {es : List Entry} (h : TableFits c es) (hsorted : KeyOrdered es)
    (id : UInt32) (k : Bytes) :
    (openedTable c id es).search c k = .ok (firstValue k es) := by
  have hlen := h.length_lt
  have hsearch : (openedTable c id es).search c k =
      if ¬ (tableBloom c es).check c.sip13 k then .ok none
      else searchFound c (writeTable c es).1 k ((indexFrom c 0 (tableBlocks es)).dropWhile
        fun e => e.2.1 < Key.new k u64Max).head? := by
    simp only [Sstable.search, openedTable, getElem?_partitionPoint]
    rfl
  rw [hsearch]
  split
  · rename_i hcheck
    -- the filter has every key of the table
    have hmiss : firstValue k es = none := by
      rw [firstValue_eq_none]
      rintro e he rfl
      exact hcheck (BloomFilter.check_of_mem_setAll BloomFilter.wellFormed_new
        (List.mem_map_of_mem he))
    rw [hmiss]
  · have hfound := searchFound_indexFrom (c := c) (k := k) []
      (frame c (tableIndex c es) ++ (frame c (c.bincode.serialize (tableBloom c es)) ++
        SstableWriter.footer c (UInt64.ofNat (tableBody c es).length)
          (UInt64.ofNat ((tableBody c es).length + (frame c (tableIndex c es)).length))))
      (fun b hb => ne_nil_of_mem_tableBlocks hb)
      (fun b hb e he => h.entries e (mem_of_mem_tableBlocks hb he)) h.blocks
      (by rw [List.length_nil, Nat.zero_add]; show (tableBody c es).length < 2 ^ 64; omega)
      (by rw [flatten_tableBlocks]; exact hsorted)
    rw [flatten_tableBlocks, List.nil_append] at hfound
    rw [(writeTable_eq es).1]
    exact hfound

/-- The first entry with the key is the one that is found. -/
theorem firstValue_of_first {k : Bytes} {before after : List Entry} {e : Entry}
    (hbefore : ∀ x ∈ before, x.1.bytes ≠ k) (he : e.1.bytes = k) :
    firstValue k (before ++ e :: after) = some e.2 := by
  have hnone : firstValue k before = none := firstValue_eq_none.mpr hbefore
  rw [firstValue_append, hnone, Option.none_or, firstValue,
    List.find?_cons_of_pos (by rw [decide_eq_true_eq]; exact he)]
  rfl

/-- Among ordered entries the first version of a key is the newest one. -/
theorem lsn_le_first {k : Bytes} {before after : List Entry} {e x : Entry}
    (hsorted : KeyOrdered (before ++ e :: after)) (hbefore : ∀ y ∈ before, y.1.bytes ≠ k)
    (he : e.1.bytes = k) (hx : x ∈ before ++ e :: after) (hxk : x.1.bytes = k) :
    x.1.lsn ≤ e.1.lsn := by
  rcases List.mem_append.mp hx with hx | hx
  · exact absurd hxk (hbefore x hx)
  · rcases List.mem_cons.mp hx with rfl | hx
    · exact UInt64.le_refl _
    · have hordered : e.1 ≤ x.1 :=
        (List.pairwise_cons.mp (List.pairwise_append.mp hsorted).2.1).1 x hx
      exact (Key.le_iff_of_bytes_eq (he.trans hxk.symm)).mp hordered

/-- Searching a table that was written finds the newest version of a key, and nothing exactly when
the table has no version of it. -/
theorem search_finds_newest (c : Crates) (id : UInt32) (es : List Entry) (hne : es ≠ [])
    (hfits : TableFits c es) (hsorted : KeyOrdered es) :
    ∃ sst, Sstable.new c id (writeTable c es).1 = .ok sst ∧ ∀ k,
      (sst.search c k = .ok none ↔ ∀ e ∈ es, e.1.bytes ≠ k) ∧
      ∀ before e after, es = before ++ e :: after → (∀ x ∈ before, x.1.bytes ≠ k) →
        e.1.bytes = k → sst.search c k = .ok (some e.2) ∧
          ∀ x ∈ es, x.1.bytes = k → x.1.lsn ≤ e.1.lsn := by
  refine ⟨openedTable c id es, new_writeTable hfits hne id, fun k => ?_⟩
  have hsearch := search_openedTable hfits hsorted id k
  rw [hsearch]
  refine ⟨?_, ?_⟩
  · rw [Except.ok.injEq]
    exact firstValue_eq_none
  · intro before e after hes hbefore he
    subst hes
    exact ⟨congrArg Except.ok (firstValue_of_first hbefore he),
      fun x hx hxk => lsn_le_first hsorted hbefore he hx hxk⟩

/-- Two versions of a key and another key. -/
def threeEntries : List Entry :=
  [(Key.new [97] 5, .tombstone), (Key.new [97] 2, .bytes [1]), (Key.new [98] 3, .bytes [2])]

theorem search_finds_newest_three :
    ∃ sst, Sstable.new crates 7 (writeTable crates threeEntries).1 = .ok sst ∧ ∀ k,
      (sst.search crates k = .ok none ↔ ∀ e ∈ threeEntries, e.1.bytes ≠ k) ∧
      ∀ before e after, threeEntries = before ++ e :: after → (∀ x ∈ before, x.1.bytes ≠ k) →
        e.1.bytes = k → sst.search crates k = .ok (some e.2) ∧
          ∀ x ∈ threeEntries, x.1.bytes = k → x.1.lsn ≤ e.1.lsn :=
  search_finds_newest crates 7 threeEntries (by decide) (by decide) (by decide)

end EasyLsm
