import Mathlib.Data.List.Basic
import EasyLsm.DataStores.Sstable

/-!
# What a table file consists of

`SstableWriter` decides block by block where to cut. `tableBlocks` is the list of blocks it makes
of a list of entries, and `writeTable_eq` gives the whole file and its metadata in terms of them.
-/

namespace EasyLsm

open Lib

/-- The data of a block. -/
def encodeEntries (es : List Entry) : Bytes := es.flatMap Entry.encode

/-- The smallest key of entries in key order. -/
def firstKey (es : List Entry) : Option Key := es.head?.map Prod.fst

/-- The largest key of entries in key order. -/
def lastKey (es : List Entry) : Option Key := es.getLast?.map Prod.fst

/-- The full blocks the writer cuts off, starting with the current block, and the block it is
left with. -/
def cutBlocks : List Entry → List Entry → List (List Entry) × List Entry
  | cur, [] => ([], cur)
  | cur, e :: es =>
      if blockSize ≤ (encodeEntries (cur ++ [e])).length then
        let (blocks, rest) := cutBlocks [] es
        ((cur ++ [e]) :: blocks, rest)
      else cutBlocks (cur ++ [e]) es

/-- The blocks of a table. -/
def tableBlocks (es : List Entry) : List (List Entry) :=
  if (cutBlocks [] es).2 = [] then (cutBlocks [] es).1
  else (cutBlocks [] es).1 ++ [(cutBlocks [] es).2]

variable (c : Crates)

/-- A block on disk. -/
def blockBytes (b : List Entry) : Bytes := frame c (encodeEntries b)

/-- The index entries of blocks that start at an offset. -/
def indexFrom : Nat → List (List Entry) → List (Key × Key × UInt64)
  | _, [] => []
  | offset, b :: blocks =>
      ((firstKey b).getD (Key.new [] 0), (lastKey b).getD (Key.new [] 0), UInt64.ofNat offset) ::
        indexFrom (offset + (blockBytes c b).length) blocks

/-- The data blocks of a table. -/
def tableBody (es : List Entry) : Bytes := (tableBlocks es).flatMap (blockBytes c)

/-- The index block of a table. -/
def tableIndex (es : List Entry) : Bytes :=
  indexData (firstKey es) (lastKey es) (indexFrom c 0 (tableBlocks es))

/-- The filter of a table. -/
def tableBloom (es : List Entry) : BloomFilter :=
  BloomFilter.new.setAll c.sip13 (es.map fun e => e.1.bytes)

/-- The writer after the full blocks `blocks` and the entries `cur` of the current one. -/
structure Layout (w : SstableWriter) (blocks : List (List Entry)) (cur : List Entry) : Prop where
  file : w.file = blocks.flatMap (blockBytes c)
  block : w.currentBlock = ⟨encodeEntries cur, firstKey cur, lastKey cur⟩
  index : w.indexEntries = indexFrom c 0 blocks
  bloom : w.bloomFilter = tableBloom c (blocks.flatten ++ cur)
  minKey : w.minKey = firstKey (blocks.flatten ++ cur)
  maxKey : w.maxKey = lastKey (blocks.flatten ++ cur)

variable {c}

theorem firstKey_concat (es : List Entry) (e : Entry) :
    firstKey (es ++ [e]) = if (firstKey es).isNone then some e.1 else firstKey es := by
  cases es <;> rfl

theorem lastKey_concat (es : List Entry) (e : Entry) : lastKey (es ++ [e]) = some e.1 := by
  rw [lastKey, List.getLast?_concat]
  rfl

theorem encodeEntries_concat (es : List Entry) (e : Entry) :
    encodeEntries (es ++ [e]) = encodeEntries es ++ e.encode := by
  simp only [encodeEntries, List.flatMap_append, List.flatMap_singleton]

/-- A block with entries has bytes. -/
theorem encodeEntries_eq_nil {es : List Entry} : encodeEntries es = [] ↔ es = [] := by
  cases es with
  | nil => exact iff_of_true rfl rfl
  | cons e es =>
      refine iff_of_false ?_ (List.cons_ne_nil e es)
      rw [encodeEntries, List.flatMap_cons]
      exact fun h => Entry.encode_ne_nil e (List.append_eq_nil_iff.mp h).1

/-- A framed block has bytes. -/
theorem frame_ne_nil (data : Bytes) : frame c data ≠ [] := by
  intro h
  have hlen := congrArg List.length (List.append_eq_nil_iff.mp h).1
  exact absurd hlen (by show (leBytes 4 _).length ≠ 0; rw [length_leBytes]; decide)

/-- The index of one more block. -/
theorem indexFrom_concat (offset : Nat) (blocks : List (List Entry)) (b : List Entry) :
    indexFrom c offset (blocks ++ [b]) = indexFrom c offset blocks ++
      [((firstKey b).getD (Key.new [] 0), (lastKey b).getD (Key.new [] 0),
        UInt64.ofNat (offset + (blocks.flatMap (blockBytes c)).length))] := by
  induction blocks generalizing offset with
  | nil => rfl
  | cons first blocks ih =>
      rw [List.cons_append, indexFrom, ih, indexFrom, List.cons_append, List.flatMap_cons,
        List.length_append, Nat.add_assoc]

/-- The filter of one more entry. -/
theorem tableBloom_concat (es : List Entry) (e : Entry) :
    tableBloom c (es ++ [e]) = (tableBloom c es).set c.sip13 e.1.bytes := by
  rw [tableBloom, List.map_append, BloomFilter.setAll, List.foldl_append]
  rfl

/-- A new writer has written nothing. -/
theorem layout_new : Layout c SstableWriter.new [] [] := ⟨rfl, rfl, rfl, rfl, rfl, rfl⟩

/-- Flushing the current block makes it a full one. -/
theorem Layout.flushBlock {w : SstableWriter} {blocks : List (List Entry)} {cur : List Entry}
    (h : Layout c w blocks cur) (hcur : cur ≠ []) :
    Layout c (w.flushBlock c) (blocks ++ [cur]) [] := by
  obtain ⟨e, es, rfl⟩ := List.exists_cons_of_ne_nil hcur
  obtain ⟨last, hlast⟩ : ∃ last, (e :: es).getLast? = some last :=
    ⟨_, List.getLast?_eq_some_getLast (List.cons_ne_nil e es)⟩
  have hdata : (encodeEntries (e :: es)).isEmpty = false := by
    rw [List.isEmpty_eq_false_iff]
    exact fun hnil => hcur (encodeEntries_eq_nil.mp hnil)
  have hframed : (frame c (encodeEntries (e :: es))).isEmpty = false := by
    rw [List.isEmpty_eq_false_iff]
    exact frame_ne_nil _
  have hmax : lastKey (e :: es) = some last.1 := by
    rw [lastKey, hlast]
    rfl
  have hmin : firstKey (e :: es) = some e.1 := rfl
  have hflush : w.flushBlock c = { w with
      file := w.file ++ blockBytes c (e :: es)
      currentBlock := BlockBuilder.new
      indexEntries := w.indexEntries ++ [(e.1, last.1, UInt64.ofNat w.file.length)] } := by
    simp only [SstableWriter.flushBlock, BlockBuilder.flush, h.block, hdata, hframed, hmin, hmax,
      blockBytes, Bool.false_eq_true, if_false]
  rw [hflush]
  refine ⟨?_, rfl, ?_, ?_, ?_, ?_⟩
  · rw [List.flatMap_append, List.flatMap_singleton, ← h.file]
  · rw [indexFrom_concat, ← h.index, hmin, hmax, h.file, Nat.zero_add]
    rfl
  · rw [List.flatten_append, List.flatten_singleton, List.append_nil]
    exact h.bloom
  · rw [List.flatten_append, List.flatten_singleton, List.append_nil]
    exact h.minKey
  · rw [List.flatten_append, List.flatten_singleton, List.append_nil]
    exact h.maxKey

/-- Writing an entry adds it to the current block, which is flushed when it is full. -/
theorem Layout.write {w : SstableWriter} {blocks : List (List Entry)} {cur : List Entry}
    (h : Layout c w blocks cur) (e : Entry) :
    if blockSize ≤ (encodeEntries (cur ++ [e])).length then
      Layout c (w.write c e.1 e.2) (blocks ++ [cur ++ [e]]) []
    else Layout c (w.write c e.1 e.2) blocks (cur ++ [e]) := by
  have hadd : Layout c { w with
      bloomFilter := w.bloomFilter.set c.sip13 e.1.bytes
      minKey := if w.minKey.isNone then some e.1 else w.minKey
      maxKey := some e.1
      currentBlock := w.currentBlock.add e.1 e.2 } blocks (cur ++ [e]) := by
    refine ⟨h.file, ?_, h.index, ?_, ?_, ?_⟩
    · rw [h.block, encodeEntries_concat, firstKey_concat, lastKey_concat]
      rfl
    · rw [← List.append_assoc, tableBloom_concat, h.bloom]
    · rw [← List.append_assoc, firstKey_concat, h.minKey]
    · rw [← List.append_assoc, lastKey_concat]
  have hfull : (w.currentBlock.add e.1 e.2).isFull =
      decide (blockSize ≤ (encodeEntries (cur ++ [e])).length) := by
    rw [BlockBuilder.isFull]
    exact congrArg (fun b => decide (blockSize ≤ b.buffer.length)) hadd.block
  split
  · rename_i hsize
    rw [SstableWriter.write]
    simp only [hfull, hsize, decide_true, if_true]
    exact hadd.flushBlock (by simp)
  · rename_i hsize
    rw [SstableWriter.write]
    simp only [hfull, hsize, decide_false, Bool.false_eq_true, if_false]
    exact hadd

/-- Writing entries cuts blocks as `cutBlocks` does. -/
theorem Layout.writeAll {w : SstableWriter} {blocks : List (List Entry)} {cur : List Entry}
    (h : Layout c w blocks cur) (es : List Entry) :
    Layout c (w.writeAll c es) (blocks ++ (cutBlocks cur es).1) (cutBlocks cur es).2 := by
  induction es generalizing w blocks cur with
  | nil =>
      rw [cutBlocks, List.append_nil]
      exact h
  | cons e es ih =>
      have hwrite := h.write e
      rw [cutBlocks]
      split
      · rename_i hsize
        rw [if_pos hsize] at hwrite
        have hrest := ih hwrite
        rw [List.append_assoc, List.singleton_append] at hrest
        exact hrest
      · rename_i hsize
        rw [if_neg hsize] at hwrite
        exact ih hwrite

/-- The blocks hold the entries. -/
theorem flatten_cutBlocks (cur es : List Entry) :
    (cutBlocks cur es).1.flatten ++ (cutBlocks cur es).2 = cur ++ es := by
  induction es generalizing cur with
  | nil => rw [cutBlocks, List.flatten_nil, List.nil_append, List.append_nil]
  | cons e es ih =>
      rw [cutBlocks]
      split
      · rw [List.flatten_cons, List.append_assoc, ih, List.nil_append, List.append_assoc,
          List.singleton_append]
      · rw [ih, List.append_assoc, List.singleton_append]

/-- The blocks of a table hold its entries in order. -/
theorem flatten_tableBlocks (es : List Entry) : (tableBlocks es).flatten = es := by
  have hflat := flatten_cutBlocks [] es
  rw [List.nil_append] at hflat
  rw [tableBlocks]
  split
  · rename_i hnil
    rwa [hnil, List.append_nil] at hflat
  · rw [List.flatten_append, List.flatten_singleton]
    exact hflat

/-- Full blocks are not empty. -/
theorem ne_nil_of_mem_cutBlocks {cur es b : List Entry} (h : b ∈ (cutBlocks cur es).1) :
    b ≠ [] := by
  induction es generalizing cur with
  | nil => exact absurd h List.not_mem_nil
  | cons e es ih =>
      rw [cutBlocks] at h
      split at h
      · rcases List.mem_cons.mp h with rfl | h
        · simp
        · exact ih h
      · exact ih h

/-- No block of a table is empty. -/
theorem ne_nil_of_mem_tableBlocks {es b : List Entry} (h : b ∈ tableBlocks es) : b ≠ [] := by
  rw [tableBlocks] at h
  split at h
  · exact ne_nil_of_mem_cutBlocks h
  · rename_i hne
    rcases List.mem_append.mp h with h | h
    · exact ne_nil_of_mem_cutBlocks h
    · rw [List.mem_singleton.mp h]
      exact hne

/-- The writer before it writes the index. -/
theorem layout_table (es : List Entry) :
    Layout c
      (let w := SstableWriter.new.writeAll c es
        if w.currentBlock.isEmpty then w else w.flushBlock c)
      (tableBlocks es) [] := by
  have hall := (layout_new (c := c)).writeAll es
  rw [List.nil_append] at hall
  have hempty : (SstableWriter.new.writeAll c es).currentBlock.isEmpty =
      decide ((cutBlocks [] es).2 = []) := by
    rw [BlockBuilder.isEmpty, hall.block]
    by_cases hnil : (cutBlocks [] es).2 = []
    · rw [hnil]
      rfl
    · rw [decide_eq_false hnil]
      exact List.isEmpty_eq_false_iff.mpr (fun h => hnil (encodeEntries_eq_nil.mp h))
  rw [tableBlocks]
  by_cases hnil : (cutBlocks [] es).2 = []
  · simp only [hempty, hnil, decide_true, if_true]
    rw [hnil] at hall
    exact hall
  · simp only [hempty, hnil, decide_false, Bool.false_eq_true, if_false]
    exact hall.flushBlock hnil

/-- The file and the metadata of a table. -/
theorem writeTable_eq (es : List Entry) :
    (writeTable c es).1 = tableBody c es ++ (frame c (tableIndex c es) ++
      (frame c (c.bincode.serialize (tableBloom c es)) ++
        SstableWriter.footer c (UInt64.ofNat (tableBody c es).length)
          (UInt64.ofNat ((tableBody c es).length + (frame c (tableIndex c es)).length)))) ∧
    (writeTable c es).2.minKey = (firstKey es).getD (Key.new [] 0) ∧
    (writeTable c es).2.maxKey = (lastKey es).getD (Key.new [] 0) := by
  have h := layout_table (c := c) es
  have hflat := flatten_tableBlocks es
  have hbloom := h.bloom
  have hmin := h.minKey
  have hmax := h.maxKey
  rw [List.append_nil, hflat] at hbloom hmin hmax
  simp only [writeTable, SstableWriter.finalize]
  simp only [h.file, h.index, hbloom, hmin, hmax]
  simp only [tableBody, tableIndex, List.length_append, List.append_assoc, and_self]

end EasyLsm
