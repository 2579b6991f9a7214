import Mathlib.Data.List.Basic
import EasyLsm.DataStores.SstableLayout

/-!
# Reading a table back

A table whose lengths are representable is opened and iterated: `new_writeTable` gives its first and
its last key back, and `iter_openedTable` its entries.
-/

namespace EasyLsm

open Lib

variable (c : Crates)

/-- No length field of the table is narrowed. -/
structure TableFits (es : List Entry) : Prop where
  entries : ∀ e ∈ es, e.Fits
  blocks : ∀ b ∈ tableBlocks es, (encodeEntries b).length < 2 ^ 32
  index : (tableIndex c es).length < 2 ^ 32

instance (es : List Entry) : Decidable (TableFits c es) :=
  decidable_of_iff ((∀ e ∈ es, e.Fits) ∧ (∀ b ∈ tableBlocks es, (encodeEntries b).length < 2 ^ 32) ∧
    (tableIndex c es).length < 2 ^ 32) ⟨fun h => ⟨h.1, h.2.1, h.2.2⟩, fun h => ⟨h.1, h.2, h.3⟩⟩

variable {c}

/-! ## Sizes -/

/-- A framed block has eight bytes more than its data. -/
theorem length_frame (data : Bytes) : (frame c data).length = 8 + data.length := by
  show (leBytes 4 _ ++ (leBytes 4 _ ++ data)).length = _
  simp only [List.length_append, length_leBytes]
  omega

/-- An index entry has at least 28 bytes. -/
theorem le_length_encodeIndexEntry (e : Key × Key × UInt64) :
    28 ≤ (encodeIndexEntry e).length := by
  rw [encodeIndexEntry, List.length_append, List.length_append, Key.length_encode,
    Key.length_encode]
  have hoffset : (Loggable.encode e.2.2).length = 8 := length_leBytes 8 _
  rw [hoffset, Key.serializedHeaderSize]
  omega

/-- The index block is at least 28 times as long as there are blocks. -/
theorem le_length_indexFrom (offset : Nat) (blocks : List (List Entry)) :
    28 * blocks.length ≤ ((indexFrom c offset blocks).flatMap encodeIndexEntry).length := by
  induction blocks generalizing offset with
  | nil => exact Nat.zero_le _
  | cons b blocks ih =>
      rw [indexFrom, List.flatMap_cons, List.length_append, List.length_cons]
      have hentry := le_length_encodeIndexEntry ((firstKey b).getD (Key.new [] 0),
        (lastKey b).getD (Key.new [] 0), UInt64.ofNat offset)
      have hrest := ih (offset + (blockBytes c b).length)
      omega

/-- Blocks of bounded size. -/
theorem length_flatMap_blockBytes {blocks : List (List Entry)}
    (h : ∀ b ∈ blocks, (encodeEntries b).length < 2 ^ 32) :
    (blocks.flatMap (blockBytes c)).length ≤ (2 ^ 32 + 8) * blocks.length := by
  induction blocks with
  | nil => exact Nat.zero_le _
  | cons b blocks ih =>
      rw [List.flatMap_cons, List.length_append, List.length_cons]
      have hb := h b List.mem_cons_self
      have hrest := ih (fun x hx => h x (List.mem_cons_of_mem b hx))
      have hframe : (blockBytes c b).length = 8 + (encodeEntries b).length := length_frame _
      omega

/-- The offsets of a table with representable lengths are representable. -/
theorem TableFits.length_lt {es : List Entry} (h : TableFits c es) :
    (tableBody c es).length + (frame c (tableIndex c es)).length < 2 ^ 62 := by
  have hbody := length_flatMap_blockBytes (c := c) h.blocks
  have hcount := le_length_indexFrom (c := c) 0 (tableBlocks es)
  have hindex := h.index
  have hlen : ((indexFrom c 0 (tableBlocks es)).flatMap encodeIndexEntry).length ≤
      (tableIndex c es).length := by
    unfold tableIndex indexData
    rw [List.length_append]
    exact Nat.le_add_left _ _
  rw [length_frame]
  rw [tableBody]
  omega

/-! ## Opening -/

/-- A framed block is read back at its offset. -/
theorem readBlockWithCrcAt_frame (before : Bytes) {data : Bytes} (after : Bytes)
    (hdata : data.length < 2 ^ 32)
    (hbefore : before.length < 2 ^ 64) :
    Sstable.readBlockWithCrcAt c (before ++ (frame c data ++ after))
      (UInt64.ofNat before.length) = .ok data := by
  have hoffset : (UInt64.ofNat before.length).toNat = before.length :=
    UInt64.toNat_ofNat_of_lt' hbefore
  have hlen : (UInt32.ofNat data.length).toNat = data.length := UInt32.toNat_ofNat_of_lt' hdata
  have hreadLen := (u32_roundTrips (UInt32.ofNat data.length)).reads
    (Loggable.encode (c.crc32 data) ++ (data ++ after))
  have hreadCrc := (u32_roundTrips (c.crc32 data)).reads (data ++ after)
  have hreadData := (readExact_decodes data).reads after
  rw [← hlen] at hreadData
  simp only [Sstable.readBlockWithCrcAt, hoffset, List.drop_left, frame, List.append_assoc,
    hreadLen, ok_bind, hreadCrc, hreadData, ne_eq, not_true, if_false]

/-- An index entry with representable keys is read back. -/
theorem decodeIndexEntry_decodes {e : Key × Key × UInt64} (hmin : e.1.Fits) (hmax : e.2.1.Fits) :
    Decodes DbError.unexpectedEof decodeIndexEntry (encodeIndexEntry e) e :=
  (Key.roundTrips hmin).bind (k := fun blockMin r => do
      let max ← Loggable.decode (α := Key) r
      let offset ← Loggable.decode (α := UInt64) max.2
      return ((blockMin, max.1, offset.1), offset.2))
    ((Key.roundTrips hmax).bind (k := fun blockMax r => do
        let offset ← Loggable.decode (α := UInt64) r
        return ((e.1, blockMax, offset.1), offset.2))
      ((u64_roundTrips e.2.2).map fun offset => (e.1, e.2.1, offset)))

/-- The first key of entries with representable keys is representable. -/
theorem firstKey_fits {es : List Entry} (h : ∀ e ∈ es, e.Fits) :
    ((firstKey es).getD (Key.new [] 0)).Fits := by
  cases es with
  | nil => exact Nat.two_pow_pos 16
  | cons e es => exact (h e List.mem_cons_self).1

/-- The last key of entries with representable keys is representable. -/
theorem lastKey_fits {es : List Entry} (h : ∀ e ∈ es, e.Fits) :
    ((lastKey es).getD (Key.new [] 0)).Fits := by
  cases hlast : es.getLast? with
  | none =>
      rw [lastKey, hlast]
      exact Nat.two_pow_pos 16
  | some e =>
      rw [lastKey, hlast]
      exact (h e (List.mem_of_getLast? hlast)).1

/-- The keys of the index are representable. -/
theorem indexFrom_fits {blocks : List (List Entry)} (h : ∀ b ∈ blocks, ∀ e ∈ b, e.Fits)
    (offset : Nat) : ∀ e ∈ indexFrom c offset blocks, e.1.Fits ∧ e.2.1.Fits := by
  induction blocks generalizing offset with
  | nil => exact fun e he => absurd he List.not_mem_nil
  | cons b blocks ih =>
      intro e he
      rw [indexFrom] at he
      rcases List.mem_cons.mp he with rfl | he
      · have hb := h b List.mem_cons_self
        exact ⟨firstKey_fits hb, lastKey_fits hb⟩
      · exact ih (fun x hx => h x (List.mem_cons_of_mem b hx)) _ e he

/-- The entries of a block are entries of the table. -/
theorem mem_of_mem_tableBlocks {es b : List Entry} {e : Entry} (hb : b ∈ tableBlocks es)
    (he : e ∈ b) : e ∈ es := by
  rw [← flatten_tableBlocks es]
  exact List.mem_flatten.mpr ⟨b, hb, he⟩

/-- What is open after a table with the given entries was opened. -/
def openedTable (c : Crates) (id : UInt32) (es : List Entry) : Sstable where
  id := id
  file := (writeTable c es).1
  index := indexFrom c 0 (tableBlocks es)
  bloomFilter := tableBloom c es
  minKey := (firstKey es).getD (Key.new [] 0)
  maxKey := (lastKey es).getD (Key.new [] 0)

/-- The filter block of a table is read back. -/
theorem readBloom_writeTable {es : List Entry} (h : TableFits c es) :
    Sstable.readBlockWithCrcAt c (writeTable c es).1 (UInt64.ofNat
      ((tableBody c es).length + (frame c (tableIndex c es)).length)) =
      .ok (c.bincode.serialize (tableBloom c es)) := by
  have hlen := h.length_lt
  have hbloom : (c.bincode.serialize (tableBloom c es)).length < 2 ^ 32 := by
    have hbits : BloomFilter.Extends BloomFilter.new (tableBloom c es) :=
      BloomFilter.extends_setAll BloomFilter.wellFormed_new _
    have hwords := hbits.words
    rw [c.bincode.length_serialize]
    rw [hwords, BloomFilter.new, List.length_replicate]
    decide
  rw [(writeTable_eq es).1, ← List.append_assoc, ← List.length_append]
  exact readBlockWithCrcAt_frame _ _ hbloom (by rw [List.length_append]; omega)

/-- The index block of a table is read back. -/
theorem readIndex_writeTable {es : List Entry} (h : TableFits c es) :
    Sstable.readBlockWithCrcAt c (writeTable c es).1 (UInt64.ofNat (tableBody c es).length) =
      .ok (tableIndex c es) := by
  have hlen := h.length_lt
  rw [(writeTable_eq es).1]
  exact readBlockWithCrcAt_frame _ _ h.index (by omega)

/-- The filter and the index of a table with entries are loaded. -/
theorem load_writeTable {es : List Entry} (h : TableFits c es) (hne : es ≠ []) (id : UInt32) :
    Sstable.load c id (writeTable c es).1 (UInt64.ofNat (tableBody c es).length) (UInt64.ofNat
      ((tableBody c es).length + (frame c (tableIndex c es)).length)) =
      .ok (openedTable c id es) := by
  obtain ⟨first, hfirst⟩ : ∃ first, firstKey es = some first := by
    cases es with
    | nil => exact absurd rfl hne
    | cons e es => exact ⟨e.1, rfl⟩
  obtain ⟨last, hlast⟩ : ∃ last, lastKey es = some last := by
    refine ⟨(es.getLast hne).1, ?_⟩
    rw [lastKey, List.getLast?_eq_some_getLast hne]
    rfl
  have hfits : ∀ e ∈ indexFrom c 0 (tableBlocks es), e.1.Fits ∧ e.2.1.Fits :=
    indexFrom_fits (fun b hb e he => h.entries e (mem_of_mem_tableBlocks hb he)) 0
  have hmin : first.Fits := by
    have hfit := firstKey_fits h.entries
    rwa [hfirst] at hfit
  have hmax : last.Fits := by
    have hfit := lastKey_fits h.entries
    rwa [hlast] at hfit
  have hbytes : ∀ e ∈ indexFrom c 0 (tableBlocks es), encodeIndexEntry e ≠ [] := by
    intro e _ hnil
    have hlen := le_length_encodeIndexEntry e
    rw [hnil] at hlen
    exact absurd hlen (by decide)
  have hindex := Decodes.all (fun e he => decodeIndexEntry_decodes (hfits e he).1 (hfits e he).2)
    hbytes (Decodes.length_le_flatMap hbytes)
  have hreadMin := (Key.roundTrips hmin).reads
    (Loggable.encode last ++ (indexFrom c 0 (tableBlocks es)).flatMap encodeIndexEntry)
  have hreadMax := (Key.roundTrips hmax).reads
    ((indexFrom c 0 (tableBlocks es)).flatMap encodeIndexEntry)
  have hdata : tableIndex c es = Loggable.encode first ++ (Loggable.encode last ++
      (indexFrom c 0 (tableBlocks es)).flatMap encodeIndexEntry) := by
    simp only [tableIndex, indexData, hfirst, hlast, List.append_assoc]
  rw [Sstable.load, readBloom_writeTable h]
  simp only [ok_bind, c.bincode.roundTrip]
  rw [readIndex_writeTable h, hdata]
  simp only [ok_bind, hreadMin, hreadMax, hindex]
  rw [openedTable, hfirst, hlast]
  rfl

/-- The footer has 24 bytes. -/
theorem length_footer (indexOffset bloomOffset : UInt64) :
    (SstableWriter.footer c indexOffset bloomOffset).length = 24 := by
  show ((leBytes 8 _ ++ leBytes 8 _) ++ (leBytes 4 _ ++ magicNumberBytes)).length = 24
  simp only [List.length_append, length_leBytes]
  rfl

/-- Opening reads the offsets from the footer. -/
theorem new_append_footer {before : Bytes} (id : UInt32) (indexOffset bloomOffset : UInt64) :
    Sstable.new c id (before ++ SstableWriter.footer c indexOffset bloomOffset) =
      Sstable.load c id (before ++ SstableWriter.footer c indexOffset bloomOffset) indexOffset
        bloomOffset := by
  have hlen := length_footer (c := c) indexOffset bloomOffset
  have hsize : ¬ (before ++ SstableWriter.footer c indexOffset bloomOffset).length < 24 := by
    rw [List.length_append]
    omega
  have hdrop : (before ++ SstableWriter.footer c indexOffset bloomOffset).drop
      ((before ++ SstableWriter.footer c indexOffset bloomOffset).length - 24) =
      SstableWriter.footer c indexOffset bloomOffset := by
    rw [List.length_append, hlen, Nat.add_sub_cancel, List.drop_left]
  have htake : (SstableWriter.footer c indexOffset bloomOffset).take 16 =
      Loggable.encode indexOffset ++ Loggable.encode bloomOffset := by
    have hoffsets : (Loggable.encode indexOffset ++ Loggable.encode bloomOffset).length = 16 := by
      show (leBytes 8 _ ++ leBytes 8 _).length = 16
      rw [List.length_append, length_leBytes, length_leBytes]
    rw [SstableWriter.footer, ← hoffsets, List.take_left]
  have hreadIndex := (u64_roundTrips indexOffset).reads (Loggable.encode bloomOffset ++
    (Loggable.encode (c.crc32 (Loggable.encode indexOffset ++ Loggable.encode bloomOffset)) ++
      magicNumberBytes))
  have hreadBloom := (u64_roundTrips bloomOffset).reads
    (Loggable.encode (c.crc32 (Loggable.encode indexOffset ++ Loggable.encode bloomOffset)) ++
      magicNumberBytes)
  have hreadCrc := (u32_roundTrips (c.crc32 (Loggable.encode indexOffset ++
    Loggable.encode bloomOffset))).reads magicNumberBytes
  have hfooter : SstableWriter.footer c indexOffset bloomOffset = Loggable.encode indexOffset ++
      (Loggable.encode bloomOffset ++ (Loggable.encode (c.crc32 (Loggable.encode indexOffset ++
        Loggable.encode bloomOffset)) ++ magicNumberBytes)) := by
    rw [SstableWriter.footer, List.append_assoc]
  simp only [Sstable.new, hsize, if_false, hdrop]
  rw [htake]
  rw [hfooter]
  simp only [hreadIndex, ok_bind, hreadBloom, hreadCrc, ne_eq, not_true, if_false]

/-- A table with entries and representable lengths is opened. -/
theorem new_writeTable {es : List Entry} (h : TableFits c es) (hne : es ≠ []) (id : UInt32) :
    Sstable.new c id (writeTable c es).1 = .ok (openedTable c id es) := by
  have hload := load_writeTable h hne id
  rw [(writeTable_eq es).1] at hload ⊢
  rw [← List.append_assoc, ← List.append_assoc, new_append_footer, List.append_assoc,
    List.append_assoc]
  exact hload

/-! ## Iterating -/

/-- Entries with representable lengths are read back from a block. -/
theorem decodeAll_encodeEntries {es : List Entry} (h : ∀ e ∈ es, e.Fits) :
    decodeAll Entry.decode (encodeEntries es).length (encodeEntries es) = .ok es :=
  Decodes.all (fun e he => Entry.decodes (h e he)) (fun e _ => Entry.encode_ne_nil e)
    (Decodes.length_le_flatMap (fun e _ => Entry.encode_ne_nil e))

/-- Blocks in a file are iterated one after the other. -/
theorem iterBlocks_indexFrom {blocks : List (List Entry)} (before after : Bytes)
    (hne : ∀ b ∈ blocks, b ≠ []) (hfits : ∀ b ∈ blocks, ∀ e ∈ b, e.Fits)
    (hsize : ∀ b ∈ blocks, (encodeEntries b).length < 2 ^ 32)
    (hlen : before.length + (blocks.flatMap (blockBytes c)).length < 2 ^ 64) :
    Sstable.iterBlocks c (before ++ (blocks.flatMap (blockBytes c) ++ after))
      (indexFrom c before.length blocks) = .ok blocks.flatten := by
  induction blocks generalizing before with
  | nil => rfl
  | cons b blocks ih =>
      have hb : b ≠ [] := hne b List.mem_cons_self
      have hread := readBlockWithCrcAt_frame (c := c) before
        (blocks.flatMap (blockBytes c) ++ after) (hsize b List.mem_cons_self) (by omega)
      have hnonempty : (encodeEntries b).isEmpty = false :=
        List.isEmpty_eq_false_iff.mpr (fun hnil => hb (encodeEntries_eq_nil.mp hnil))
      have hdecode := decodeAll_encodeEntries (hfits b List.mem_cons_self)
      rw [List.flatMap_cons, List.length_append] at hlen
      have hrest := ih (before ++ blockBytes c b)
        (fun x hx => hne x (List.mem_cons_of_mem b hx))
        (fun x hx => hfits x (List.mem_cons_of_mem b hx))
        (fun x hx => hsize x (List.mem_cons_of_mem b hx))
        (by rw [List.length_append]; omega)
      rw [List.length_append, List.append_assoc] at hrest
      rw [List.flatMap_cons, List.append_assoc, indexFrom, Sstable.iterBlocks]
      rw [show blockBytes c b = frame c (encodeEntries b) from rfl] at hrest ⊢
      rw [hread]
      simp only [ok_bind, hnonempty, Bool.false_eq_true, if_false, hdecode, hrest,
        List.flatten_cons]
      rfl

/-- Iterating an opened table gives its entries back. -/
theorem iter_openedTable {es : List Entry} (h : TableFits c es) (id : UInt32) :
    (openedTable c id es).iter c = .ok es := by
  have hlen := h.length_lt
  have hiter := iterBlocks_indexFrom (c := c) []
    (frame c (tableIndex c es) ++ (frame c (c.bincode.serialize (tableBloom c es)) ++
      SstableWriter.footer c (UInt64.ofNat (tableBody c es).length)
        (UInt64.ofNat ((tableBody c es).length + (frame c (tableIndex c es)).length))))
    (fun b hb => ne_nil_of_mem_tableBlocks hb)
    (fun b hb e he => h.entries e (mem_of_mem_tableBlocks hb he)) h.blocks
    (by rw [List.length_nil, Nat.zero_add]; show (tableBody c es).length < 2 ^ 64; omega)
  rw [flatten_tableBlocks, List.nil_append] at hiter
  rw [Sstable.iter]
  show Sstable.iterBlocks c (writeTable c es).1 (indexFrom c 0 (tableBlocks es)) = _
  rw [(writeTable_eq es).1]
  exact hiter

end EasyLsm
