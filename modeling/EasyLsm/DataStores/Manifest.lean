import Mathlib.Data.List.Basic
import EasyLsm.DataStores.Dir
import EasyLsm.DataStores.Key

/-!
# Manifests

`Manifest` of `data_stores/manifest.rs`: the listed WALs and levels, the transient counters, and the
file format. A manifest file is a header of six `u32` (magic number, checksum of the body, length of
the body, format version, two redundant counts) and a body with the WAL ids and the levels. The CRC
function is a parameter. `decode_encode`: a manifest is read back whatever follows it, and a part of
its file is never accepted.
-/

namespace EasyLsm

open Lib

/-- `FileMetadata`. -/
structure FileMetadata where
  fileId : UInt32
  fileSize : UInt32
  minKey : Key
  maxKey : Key
  deriving DecidableEq, Repr

/-- `impl Loggable for FileMetadata`. -/
instance : Loggable FileMetadata where
  encode f :=
    Loggable.encode f.fileId ++
      (Loggable.encode f.fileSize ++ (Loggable.encode f.minKey ++ Loggable.encode f.maxKey))
  decode r := do
    let (fileId, r) ← Loggable.decode (α := UInt32) r
    let (fileSize, r) ← Loggable.decode (α := UInt32) r
    let (minKey, r) ← Loggable.decode (α := Key) r
    let (maxKey, r) ← Loggable.decode (α := Key) r
    return (⟨fileId, fileSize, minKey, maxKey⟩, r)

namespace FileMetadata

/-- Neither key's length is narrowed. -/
def Fits (f : FileMetadata) : Prop := f.minKey.Fits ∧ f.maxKey.Fits

instance (f : FileMetadata) : Decidable f.Fits := inferInstanceAs (Decidable (_ ∧ _))

/-- Metadata with representable keys round-trips. -/
theorem roundTrips {f : FileMetadata} (h : f.Fits) : RoundTrips f :=
  (u32_roundTrips f.fileId).bind (k := fun fileId r => do
      let (fileSize, r) ← Loggable.decode (α := UInt32) r
      let (minKey, r) ← Loggable.decode (α := Key) r
      let (maxKey, r) ← Loggable.decode (α := Key) r
      return ((⟨fileId, fileSize, minKey, maxKey⟩ : FileMetadata), r))
    ((u32_roundTrips f.fileSize).bind (k := fun fileSize r => do
        let (minKey, r) ← Loggable.decode (α := Key) r
        let (maxKey, r) ← Loggable.decode (α := Key) r
        return ((⟨f.fileId, fileSize, minKey, maxKey⟩ : FileMetadata), r))
      ((Key.roundTrips h.1).bind (k := fun minKey r => do
          let (maxKey, r) ← Loggable.decode (α := Key) r
          return ((⟨f.fileId, f.fileSize, minKey, maxKey⟩ : FileMetadata), r))
        ((Key.roundTrips h.2).map
          (fun maxKey => (⟨f.fileId, f.fileSize, f.minKey, maxKey⟩ : FileMetadata)))))

end FileMetadata

/-- `Level`. -/
structure Level where
  files : List FileMetadata
  deriving DecidableEq, Repr

/-- `impl Loggable for Level`. -/
instance : Loggable Level where
  encode l := Loggable.encode l.files
  decode r := do
    let (files, r) ← Loggable.decode (α := List FileMetadata) r
    return (⟨files⟩, r)

/-- `Level::default`. -/
instance : Inhabited Level := ⟨⟨[]⟩⟩

/-- `Manifest`. -/
structure Manifest where
  wals : List UInt32
  levels : List Level
  nextWalId : UInt32
  nextSstableId : UInt32
  version : UInt32
  deriving DecidableEq, Repr

namespace Manifest

/-- `MANIFEST_MAGIC`. -/
def manifestMagic : UInt32 := 0x4D534C45

/-- `MANIFEST_FORMAT_VERSION`. -/
def manifestFormatVersion : UInt32 := 0

/-- `Manifest::new`. -/
def new (initialWalId : UInt32) : Manifest where
  wals := [initialWalId]
  levels := []
  nextWalId := initialWalId + 1
  nextSstableId := 0
  version := 0

/-- The ids of the listed tables, level by level. -/
def sstableIds (m : Manifest) : List UInt32 :=
  m.levels.flatMap fun level => level.files.map FileMetadata.fileId

/-- The body of a manifest file: the WAL ids and the levels. -/
def encodeBody (m : Manifest) : Bytes := Loggable.encode m.wals ++ Loggable.encode m.levels

variable (crc : Bytes → UInt32)

/-- `Manifest::encode`. -/
def encode (m : Manifest) : Bytes :=
  let bodyBuf := m.encodeBody
  Loggable.encode manifestMagic ++ (Loggable.encode (crc bodyBuf) ++
    (Loggable.encode (UInt32.ofNat bodyBuf.length) ++ (Loggable.encode manifestFormatVersion ++
      (Loggable.encode (UInt32.ofNat m.wals.length) ++
        (Loggable.encode (UInt32.ofNat m.levels.length) ++ bodyBuf)))))

/-- The last part of `Manifest::decode`: check the CRC and decode the body from the buffer. -/
def decodeBody (checksum : UInt32) (bodyBuf : Bytes) : Except DbError Manifest :=
  if crc bodyBuf ≠ checksum then .error .manifestCorrupted
  else do
    let (wals, r) ← Loggable.decode (α := List UInt32) bodyBuf
    let (levels, _) ← Loggable.decode (α := List Level) r
    return { wals, levels, nextWalId := 0, nextSstableId := 0, version := 0 }

/-- The second part of `Manifest::decode`: the redundant counts, then the body. -/
def decodeSized (checksum size : UInt32) : Reader DbError Manifest := fun r => do
  let (_numWals, r) ← Loggable.decode (α := UInt32) r
  let (_numLevels, r) ← Loggable.decode (α := UInt32) r
  let (bodyBuf, r) ← readExact DbError.unexpectedEof size.toNat r
  let m ← decodeBody crc checksum bodyBuf
  return (m, r)

/-- `Manifest::decode`. The counters are left for `try_open` to set. -/
def decode : Reader DbError Manifest := fun r => do
  let (magic, r) ← Loggable.decode (α := UInt32) r
  if magic ≠ manifestMagic then .error .manifestCorrupted
  else
    let (checksum, r) ← Loggable.decode (α := UInt32) r
    let (size, r) ← Loggable.decode (α := UInt32) r
    let (formatVersion, r) ← Loggable.decode (α := UInt32) r
    if formatVersion ≠ manifestFormatVersion then .error .manifestCorrupted
    else decodeSized crc checksum size r

/-- The largest of a list of ids, 0 when there is none. -/
def maxId (ids : List UInt32) : UInt32 := ids.foldr max 0

/-- `Manifest::try_open` on the content of the manifest file of a version: the counters continue
behind the largest ids listed. -/
def tryOpen (file : Bytes) (version : UInt32) : Except DbError Manifest := do
  let (m, _) ← decode crc file
  return { m with
    version
    nextWalId := maxId m.wals + 1
    nextSstableId := maxId m.sstableIds + 1 }

/-- The error `recover_or_init` reports for a manifest that cannot be opened. -/
def readError (dbDir : String) (version : UInt32) (e : DbError) : DbError :=
  .manifestReadError ("Failed to open manifest at \"" ++ dbDir ++ "/" ++
    (FileName.mf version).text ++ "\": " ++ e.display ++ ". Please delete this file and retry.")

/-- The manifest with the highest version in a directory. -/
def newestVersion (dir : Dir) : Option UInt32 :=
  match Dir.versions dir with
  | [] => none
  | versions => some (maxId versions)

/-- The existing case of `Manifest::recover_or_init`: `none` when there is no manifest file. -/
def recover (dbDir : String) (dir : Dir) : Option (Except DbError Manifest) :=
  (newestVersion dir).map fun version =>
    match tryOpen crc ((dir.read (.mf version)).getD []) version with
    | .ok m => .ok m
    | .error e => .error (readError dbDir version e)

/-! ## The file format -/

/-- The manifest can be written: no key length and no body length is narrowed. -/
def Fits (m : Manifest) : Prop :=
  (∀ level ∈ m.levels, ∀ f ∈ level.files, f.Fits) ∧ m.encodeBody.length < 2 ^ 32

instance (m : Manifest) : Decidable m.Fits := inferInstanceAs (Decidable (_ ∧ _))

/-- A vector is its length followed by its items. -/
theorem length_encode_vec {α : Type} [Loggable α] (v : List α) :
    (Loggable.encode v).length = 4 + (v.flatMap Loggable.encode).length := by
  show (leBytes 4 _ ++ v.flatMap Loggable.encode).length = _
  rw [List.length_append, length_leBytes]

/-- A vector of non-empty items is at least as long as the number of its items. -/
theorem length_le_encode_vec {α : Type} [Loggable α] {v : List α}
    (h : ∀ a ∈ v, 0 < (Loggable.encode a).length) : v.length ≤ (Loggable.encode v).length := by
  rw [length_encode_vec]
  have hitems : v.length ≤ (v.flatMap Loggable.encode).length := by
    induction v with
    | nil => simp
    | cons a v ih =>
        have hpos := h a (by simp)
        have hrest := ih (fun x hx => h x (by simp [hx]))
        simp only [List.flatMap_cons, List.length_append, List.length_cons]
        omega
  omega

/-- An item of a vector is no longer than the vector. -/
theorem length_encode_le_of_mem {α : Type} [Loggable α] {v : List α} {a : α} (h : a ∈ v) :
    (Loggable.encode a).length ≤ (Loggable.encode v).length := by
  rw [length_encode_vec]
  have hitem : (Loggable.encode a).length ≤ (v.flatMap Loggable.encode).length :=
    (List.sublist_flatten_of_mem (List.mem_map_of_mem h)).length_le
  omega

/-- The levels of a writable manifest round-trip. -/
theorem levels_roundTrip {m : Manifest} (h : m.Fits) : RoundTrips m.levels := by
  have hbody : (Loggable.encode m.wals).length + (Loggable.encode m.levels).length < 2 ^ 32 := by
    rw [← List.length_append]
    exact h.2
  have hlevel : ∀ level ∈ m.levels, RoundTrips level := by
    intro level hmem
    have hshort := length_encode_le_of_mem hmem
    have hfiles : level.files.length ≤ (Loggable.encode level.files).length :=
      length_le_encode_vec (fun f _ => by
        show 0 < (leBytes 4 _ ++ _).length
        simp)
    have hcount : level.files.length < 2 ^ 32 := by
      have heq : (Loggable.encode level).length = (Loggable.encode level.files).length := rfl
      omega
    exact (vec_roundTrips hcount (fun f hf => FileMetadata.roundTrips (h.1 level hmem f hf))).map
      (fun files => (⟨files⟩ : Level))
  have hcount : m.levels.length < 2 ^ 32 := by
    have hle := length_le_encode_vec (v := m.levels) (fun level _ => by
      show 0 < (Loggable.encode level.files).length
      rw [length_encode_vec]
      omega)
    omega
  exact vec_roundTrips hcount hlevel

/-- The WAL ids of a writable manifest round-trip. -/
theorem wals_roundTrip {m : Manifest} (h : m.Fits) : RoundTrips m.wals := by
  have hbody : (Loggable.encode m.wals).length + (Loggable.encode m.levels).length < 2 ^ 32 := by
    rw [← List.length_append]
    exact h.2
  have hle := length_le_encode_vec (v := m.wals) (fun id _ => by
    show 0 < (leBytes 4 _).length
    simp)
  exact vec_roundTrips (by omega) (fun id _ => u32_roundTrips id)

/-- What a manifest file keeps of a manifest. -/
def persisted (m : Manifest) : Manifest :=
  { wals := m.wals, levels := m.levels, nextWalId := 0, nextSstableId := 0, version := 0 }

variable {crc}

/-- The body is decoded back. -/
theorem decodeBody_encodeBody {m : Manifest} (h : m.Fits) :
    decodeBody crc (crc m.encodeBody) m.encodeBody = .ok m.persisted := by
  have hwals := (wals_roundTrip h).reads (Loggable.encode m.levels)
  have hlevels := (levels_roundTrip h).reads []
  rw [List.append_nil] at hlevels
  simp only [decodeBody, encodeBody, ne_eq, not_true, if_false, hwals, hlevels, ok_bind]
  rfl

/-- A writable manifest is read back from its encoding whatever follows, and no proper prefix of
the encoding is accepted. -/
theorem decodes {m : Manifest} (h : m.Fits) :
    Decodes DbError.unexpectedEof (decode crc) (m.encode crc) m.persisted := by
  have hsize : (UInt32.ofNat m.encodeBody.length).toNat = m.encodeBody.length :=
    UInt32.toNat_ofNat_of_lt' h.2
  have hbody : Decodes DbError.unexpectedEof (fun r =>
      readExact DbError.unexpectedEof (UInt32.ofNat m.encodeBody.length).toNat r >>= fun p =>
        decodeBody crc (crc m.encodeBody) p.1 >>= fun m => .ok (m, p.2))
      m.encodeBody m.persisted := by
    have hread := readExact_decodes m.encodeBody
    rw [← hsize] at hread
    have hvalue : Decodes DbError.unexpectedEof (fun r =>
        decodeBody crc (crc m.encodeBody) m.encodeBody >>= fun m => .ok (m, r))
        [] m.persisted := by
      rw [decodeBody_encodeBody h]
      exact Decodes.pure _
    have hbind := hread.bind (k := fun bodyBuf r =>
      decodeBody crc (crc m.encodeBody) bodyBuf >>= fun m => .ok (m, r)) hvalue
    rwa [List.append_nil] at hbind
  have hsized : Decodes DbError.unexpectedEof
      (decodeSized crc (crc m.encodeBody) (UInt32.ofNat m.encodeBody.length))
      (Loggable.encode (UInt32.ofNat m.wals.length) ++
        (Loggable.encode (UInt32.ofNat m.levels.length) ++ m.encodeBody)) m.persisted :=
    (u32_roundTrips _).bind (k := fun _ r => do
        let (_, r) ← Loggable.decode (α := UInt32) r
        let (bodyBuf, r) ← readExact DbError.unexpectedEof _ r
        let m ← decodeBody crc _ bodyBuf
        return (m, r))
      ((u32_roundTrips _).bind (k := fun _ r => do
          let (bodyBuf, r) ← readExact DbError.unexpectedEof _ r
          let m ← decodeBody crc _ bodyBuf
          return (m, r)) hbody)
  refine (u32_roundTrips manifestMagic).bind (k := fun magic r =>
    if magic ≠ manifestMagic then .error .manifestCorrupted
    else do
      let (checksum, r) ← Loggable.decode (α := UInt32) r
      let (size, r) ← Loggable.decode (α := UInt32) r
      let (formatVersion, r) ← Loggable.decode (α := UInt32) r
      if formatVersion ≠ manifestFormatVersion then .error .manifestCorrupted
      else decodeSized crc checksum size r) ?_
  simp only [ne_eq, not_true, if_false]
  refine (u32_roundTrips (crc m.encodeBody)).bind (k := fun checksum r => do
    let (size, r) ← Loggable.decode (α := UInt32) r
    let (formatVersion, r) ← Loggable.decode (α := UInt32) r
    if formatVersion ≠ manifestFormatVersion then .error .manifestCorrupted
    else decodeSized crc checksum size r) ?_
  refine (u32_roundTrips (UInt32.ofNat m.encodeBody.length)).bind (k := fun size r => do
    let (formatVersion, r) ← Loggable.decode (α := UInt32) r
    if formatVersion ≠ manifestFormatVersion then .error .manifestCorrupted
    else decodeSized crc (crc m.encodeBody) size r) ?_
  refine (u32_roundTrips manifestFormatVersion).bind (k := fun formatVersion r =>
    if formatVersion ≠ manifestFormatVersion then .error .manifestCorrupted
    else decodeSized crc (crc m.encodeBody) (UInt32.ofNat m.encodeBody.length) r) ?_
  simpa only [ne_eq, not_true, if_false] using hsized

/-- The WAL ids and the levels are read back from an encoding, whatever follows it, and neither
`decode` nor `try_open` accepts a proper prefix of it. -/
theorem decode_encode (crc : Bytes → UInt32) (m : Manifest) (h : m.Fits) :
    (∀ rest, ∃ m', decode crc (m.encode crc ++ rest) = .ok (m', rest) ∧ m'.wals = m.wals ∧
      m'.levels = m.levels) ∧
    ∀ p, p <+: m.encode crc → p ≠ m.encode crc →
      decode crc p = .error DbError.unexpectedEof ∧
        ∀ version, tryOpen crc p version = .error DbError.unexpectedEof := by
  have hdecodes := @decodes crc m h
  refine ⟨fun rest => ⟨m.persisted, hdecodes.reads rest, rfl, rfl⟩, fun p hp hne => ?_⟩
  have hstarves := hdecodes.starves p hp hne
  refine ⟨hstarves, fun version => ?_⟩
  rw [tryOpen, hstarves, error_bind]

/-- Three logs and a table. -/
def threeWals : Manifest where
  wals := [1, 2, 3]
  levels := [⟨[⟨99, 1024, Key.new [97] 100, Key.new [122] 200⟩]⟩]
  nextWalId := 2
  nextSstableId := 0
  version := 0

theorem decode_encode_three :
    (∀ rest, ∃ m', decode (fun _ => 7) (threeWals.encode (fun _ => 7) ++ rest) = .ok (m', rest) ∧
      m'.wals = threeWals.wals ∧ m'.levels = threeWals.levels) ∧
    ∀ p, p <+: threeWals.encode (fun _ => 7) → p ≠ threeWals.encode (fun _ => 7) →
      decode (fun _ => 7) p = .error DbError.unexpectedEof ∧
        ∀ version, tryOpen (fun _ => 7) p version = .error DbError.unexpectedEof :=
  decode_encode (fun _ => 7) threeWals (by decide)

/-! ## Recovery -/

/-- The largest id bounds every id. -/
theorem le_maxId {ids : List UInt32} {id : UInt32} (h : id ∈ ids) : id ≤ maxId ids := by
  induction ids with
  | nil => cases h
  | cons x ids ih =>
      rw [maxId, List.foldr_cons, ← maxId]
      show id ≤ if x ≤ maxId ids then maxId ids else x
      rcases List.mem_cons.mp h with rfl | hmem
      · split
        · assumption
        · exact UInt32.le_refl _
      · have hle := ih hmem
        split
        · exact hle
        · rename_i hx
          rw [UInt32.le_iff_toNat_le] at *
          omega

/-- The largest of a list with ids is one of them. -/
theorem maxId_mem {ids : List UInt32} (h : ids ≠ []) : maxId ids ∈ ids := by
  induction ids with
  | nil => exact absurd rfl h
  | cons x ids ih =>
      rw [maxId, List.foldr_cons, ← maxId]
      show (if x ≤ maxId ids then maxId ids else x) ∈ x :: ids
      by_cases hnil : ids = []
      · subst hnil
        have hzero : maxId [] = 0 := rfl
        split
        · rename_i hx
          rw [hzero] at hx ⊢
          have : x = 0 := by
            rw [UInt32.le_iff_toNat_le] at hx
            exact UInt32.toNat_inj.mp (Nat.le_zero.mp hx)
          simp [this]
        · simp
      · split
        · exact List.mem_cons_of_mem _ (ih hnil)
        · simp

/-- The newest version is the one no listed version exceeds. -/
theorem newestVersion_eq {dir : Dir} {v : UInt32} (hmem : v ∈ Dir.versions dir)
    (hmax : ∀ w ∈ Dir.versions dir, w ≤ v) : newestVersion dir = some v := by
  have hne : Dir.versions dir ≠ [] := List.ne_nil_of_mem hmem
  have heq : maxId (Dir.versions dir) = v := by
    have hge := le_maxId hmem
    have hle := hmax _ (maxId_mem hne)
    rw [UInt32.le_iff_toNat_le] at hge hle
    exact UInt32.toNat_inj.mp (Nat.le_antisymm hle hge)
  unfold newestVersion
  split
  · contradiction
  · rw [heq]

/-- Opening the file of a writable manifest gives its WALs and levels back. -/
theorem tryOpen_encode {m : Manifest} (h : m.Fits) (version : UInt32) :
    tryOpen crc (m.encode crc) version = .ok { m with
      version, nextWalId := maxId m.wals + 1, nextSstableId := maxId m.sstableIds + 1 } := by
  have hread := (@decodes crc m h).reads []
  rw [List.append_nil] at hread
  simp only [tryOpen, hread, ok_bind]
  rfl

end Manifest

end EasyLsm
