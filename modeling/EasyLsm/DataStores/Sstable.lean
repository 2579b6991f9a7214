import Mathlib.Data.List.Basic
import EasyLsm.DataStores.BloomFilter
import EasyLsm.DataStores.Entry
import EasyLsm.DataStores.Manifest

/-!
# Tables

`Sstable`, `SstableWriter` and `SstableIterator` of `data_stores/sstable.rs`. A table file is a
sequence of data blocks, an index block with the smallest and the largest key of the table and
of every data block, a block with the Bloom filter, and a footer with the offsets of the last
two. Every block is framed by its length and its CRC. A file is the bytes written to it; that
every write succeeds is assumed here, and failures are steps of the machines that write tables.
-/

namespace EasyLsm

open Lib

/-- The functions of the crates that the table format rests on. -/
structure Crates where
  crc32 : Bytes → UInt32
  sip13 : UInt64 × UInt64 → Bytes → UInt64
  bincode : Bincode

/-- `BLOCK_SIZE`. -/
def blockSize : Nat := 4096

/-- `MAGIC_NUMBER_BYTES`. -/
def magicNumberBytes : Bytes := [0x41, 0x42, 0x43, 0x44]

variable (c : Crates)

/-- A block on disk: its length, its CRC and its data. -/
def frame (data : Bytes) : Bytes :=
  Loggable.encode (UInt32.ofNat data.length) ++ (Loggable.encode (c.crc32 data) ++ data)

/-! ## Writing -/

/-- `BlockBuilder`. -/
structure BlockBuilder where
  buffer : Bytes
  minKey : Option Key
  maxKey : Option Key

namespace BlockBuilder

/-- `BlockBuilder::new`. -/
def new : BlockBuilder := ⟨[], none, none⟩

/-- `BlockBuilder::add`. -/
def add (b : BlockBuilder) (key : Key) (value : Value) : BlockBuilder where
  buffer := b.buffer ++ (Loggable.encode key ++ Loggable.encode value)
  minKey := if b.minKey.isNone then some key else b.minKey
  maxKey := some key

/-- `BlockBuilder::is_full`. -/
def isFull (b : BlockBuilder) : Bool := blockSize ≤ b.buffer.length

/-- `BlockBuilder::is_empty`. -/
def isEmpty (b : BlockBuilder) : Bool := b.buffer.isEmpty

/-- `BlockBuilder::flush`: the framed block with its smallest and largest key, and the emptied
builder. -/
def flush (b : BlockBuilder) : (Bytes × Option Key × Option Key) × BlockBuilder :=
  if b.buffer.isEmpty then (([], none, none), b)
  else ((frame c b.buffer, b.minKey, b.maxKey), new)

end BlockBuilder

/-- `SstableWriter`. The file is what has been written to it. -/
structure SstableWriter where
  file : Bytes
  currentBlock : BlockBuilder
  indexEntries : List (Key × Key × UInt64)
  bloomFilter : BloomFilter
  minKey : Option Key
  maxKey : Option Key

/-- An entry of the index block: smallest key, largest key, offset. -/
def encodeIndexEntry (e : Key × Key × UInt64) : Bytes :=
  Loggable.encode e.1 ++ (Loggable.encode e.2.1 ++ Loggable.encode e.2.2)

/-- The data of the index block: the smallest and the largest key of the table when there is one,
and the entries. -/
def indexData (minKey maxKey : Option Key) (indexEntries : List (Key × Key × UInt64)) : Bytes :=
  (match minKey, maxKey with
    | some min, some max => Loggable.encode min ++ Loggable.encode max
    | _, _ => []) ++ indexEntries.flatMap encodeIndexEntry

namespace SstableWriter

/-- `SstableWriter::new`. -/
def new : SstableWriter := ⟨[], BlockBuilder.new, [], BloomFilter.new, none, none⟩

/-- `SstableWriter::flush_block`. -/
def flushBlock (w : SstableWriter) : SstableWriter :=
  let ((blockData, min, max), block) := w.currentBlock.flush c
  if blockData.isEmpty then { w with currentBlock := block }
  else
    let offset := UInt64.ofNat w.file.length
    { w with
      file := w.file ++ blockData
      currentBlock := block
      indexEntries :=
        match min, max with
        | some min, some max => w.indexEntries ++ [(min, max, offset)]
        | _, _ => w.indexEntries }

/-- `SstableWriter::write`. -/
def write (w : SstableWriter) (key : Key) (value : Value) : SstableWriter :=
  let w := { w with
    bloomFilter := w.bloomFilter.set c.sip13 key.bytes
    minKey := if w.minKey.isNone then some key else w.minKey
    maxKey := some key
    currentBlock := w.currentBlock.add key value }
  if w.currentBlock.isFull then w.flushBlock c else w

/-- `SstableWriter::current_size`. -/
def currentSize (w : SstableWriter) : Nat := w.file.length

/-- The footer: the offsets of the index block and of the filter block, their CRC and the magic
number. -/
def footer (indexOffset bloomOffset : UInt64) : Bytes :=
  let footerBuffer := Loggable.encode indexOffset ++ Loggable.encode bloomOffset
  footerBuffer ++ (Loggable.encode (c.crc32 footerBuffer) ++ magicNumberBytes)

/-- `SstableWriter::finalize`: the whole file and its metadata. -/
def finalize (w : SstableWriter) : Bytes × FileMetadata :=
  let w := if w.currentBlock.isEmpty then w else w.flushBlock c
  let indexOffset := UInt64.ofNat w.file.length
  let file := w.file ++ frame c (indexData w.minKey w.maxKey w.indexEntries)
  let bloomOffset := UInt64.ofNat file.length
  let file := file ++ frame c (c.bincode.serialize w.bloomFilter)
  let file := file ++ footer c indexOffset bloomOffset
  (file, {
    fileId := 0
    fileSize := UInt32.ofNat file.length
    minKey := w.minKey.getD (Key.new [] 0)
    maxKey := w.maxKey.getD (Key.new [] 0) })

/-- Write entries one after the other. -/
def writeAll (w : SstableWriter) (es : List Entry) : SstableWriter :=
  es.foldl (fun w e => w.write c e.1 e.2) w

end SstableWriter

/-- The file and the metadata of a table with the given entries. -/
def writeTable (es : List Entry) : Bytes × FileMetadata :=
  (SstableWriter.new.writeAll c es).finalize c

/-! ## Reading -/

/-- `Sstable`. -/
structure Sstable where
  id : UInt32
  file : Bytes
  index : List (Key × Key × UInt64)
  bloomFilter : BloomFilter
  minKey : Key
  maxKey : Key

/-- Read an entry of the index block. -/
def decodeIndexEntry : Reader DbError (Key × Key × UInt64) := fun r => do
  let (blockMin, r) ← Loggable.decode (α := Key) r
  let (blockMax, r) ← Loggable.decode (α := Key) r
  let (offset, r) ← Loggable.decode (α := UInt64) r
  return ((blockMin, blockMax, offset), r)

/-- `slice::partition_point` on a slice that is partitioned by the predicate: the number of
leading elements that meet it. -/
def partitionPoint {α : Type} (pred : α → Bool) (l : List α) : Nat := (l.takeWhile pred).length

namespace Sstable

/-- `Sstable::read_block_with_crc_at`. -/
def readBlockWithCrcAt (file : Bytes) (offset : UInt64) : Except DbError Bytes := do
  let (len, r) ← Loggable.decode (α := UInt32) (file.drop offset.toNat)
  let (storedCrc, r) ← Loggable.decode (α := UInt32) r
  let (data, _) ← readExact DbError.unexpectedEof len.toNat r
  if c.crc32 data ≠ storedCrc then .error .manifestCorrupted
  else .ok data

/-- The part of `Sstable::new` after the footer: the filter block and the index block. -/
def load (id : UInt32) (file : Bytes) (indexOffset bloomOffset : UInt64) :
    Except DbError Sstable := do
  let bloom ← readBlockWithCrcAt c file bloomOffset
  match c.bincode.deserialize bloom with
  | none => .error .manifestCorrupted
  | some bloomFilter =>
      let indexData ← readBlockWithCrcAt c file indexOffset
      let (minKey, r) ← Loggable.decode (α := Key) indexData
      let (maxKey, r) ← Loggable.decode (α := Key) r
      let index ← decodeAll decodeIndexEntry r.length r
      return { id, file, index, bloomFilter, minKey, maxKey }

/-- `Sstable::new` on a file with the given id and content. -/
def new (id : UInt32) (file : Bytes) : Except DbError Sstable := do
  if file.length < 24 then .error .manifestCorrupted
  else
    let footerBuf := file.drop (file.length - 24)
    let (indexOffset, r) ← Loggable.decode (α := UInt64) footerBuf
    let (bloomOffset, r) ← Loggable.decode (α := UInt64) r
    let (storedChecksum, magic) ← Loggable.decode (α := UInt32) r
    if magic ≠ magicNumberBytes then .error .manifestCorrupted
    else if c.crc32 (footerBuf.take 16) ≠ storedChecksum then .error .manifestCorrupted
    else load c id file indexOffset bloomOffset

/-- The scan of `Sstable::search_block` over the data of a block. -/
def scanBlock (keyBytes : Bytes) : Nat → Bytes → Except DbError (Option Value)
  | _, [] => .ok none
  | 0, _ :: _ => .ok none
  | fuel + 1, b :: r => do
      let (k, r) ← Loggable.decode (α := Key) (b :: r)
      let (v, r) ← Loggable.decode (α := Value) r
      if k.bytes = keyBytes then .ok (some v)
      else if compare k.bytes keyBytes = .gt then .ok none
      else scanBlock keyBytes fuel r

/-- `Sstable::search_block`. -/
def searchBlock (s : Sstable) (keyBytes : Bytes) (offset : UInt64) :
    Except DbError (Option Value) := do
  let blockData ← readBlockWithCrcAt c s.file offset
  scanBlock keyBytes blockData.length blockData

/-- `Sstable::search`. -/
def search (s : Sstable) (keyBytes : Bytes) : Except DbError (Option Value) :=
  if ¬ s.bloomFilter.check c.sip13 keyBytes then .ok none
  else
    let target := Key.new keyBytes u64Max
    match s.index[partitionPoint (fun e => e.2.1 < target) s.index]? with
    | none => .ok none
    | some (min, _, offset) =>
        if compare min.bytes keyBytes = .gt then .ok none
        else s.searchBlock c keyBytes offset

/-- The blocks that `SstableIterator` reads, in the order of the index. It ends at an empty
block, of which `BlockIterator::next` returns no item. -/
def iterBlocks (file : Bytes) : List (Key × Key × UInt64) → Except DbError (List Entry)
  | [] => .ok []
  | (_, _, offset) :: index => do
      let data ← readBlockWithCrcAt c file offset
      if data.isEmpty then .ok []
      else
        let es ← decodeAll Entry.decode data.length data
        let rest ← iterBlocks file index
        return es ++ rest

/-- `SstableIterator` run to its end or to its first error. -/
def iter (s : Sstable) : Except DbError (List Entry) := iterBlocks c s.file s.index

end Sstable

end EasyLsm
