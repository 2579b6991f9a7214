import Mathlib.Data.List.Basic
import EasyLsm.DataStores.Entry

/-!
# The write-ahead log

`data_stores/wal.rs`: a log file is the magic number followed by records, each a CRC and an
entry. `WalIterator.next` ends the iteration when the input ends inside a record and reports an
error when a whole record has the wrong CRC. The CRC function is a parameter.

`Wal.write` goes through a `BufWriter`: a batch smaller than the free buffer space is buffered
and then flushed, a batch of at least the capacity goes straight to the file, and after a failed
flush the bytes the file did not take stay buffered. The budget is the number of bytes the file
takes during the call before an I/O error.
-/

namespace EasyLsm

open Lib

/-- `WAL_MAGIC`. -/
def walMagic : UInt32 := 0xCAFEBABE

namespace Wal

/-- The four bytes at the start of every log file. -/
def magicBytes : Bytes := leBytes 4 walMagic.toNat

variable (crc : Bytes → UInt32)

/-- `Wal::encode_entry`: the CRC of the encoded entry, then the entry. -/
def encodeEntry (e : Entry) : Bytes :=
  Loggable.encode (crc e.encode) ++ e.encode

/-- The records of a group of entries, one after the other. -/
def encodeGroup (es : List Entry) : Bytes := es.flatMap (encodeEntry crc)

/-- `Wal<Writable>::open` on a file with the given content: the content it leaves. -/
def openWritable (file : Bytes) : Except DbError Bytes := do
  if file.length = 0 then
    return magicBytes
  else
    let (magicBuf, _) ← readExact DbError.unexpectedEof 4 file
    if leNat magicBuf ≠ walMagic.toNat then
      throw (.dataCorrupted "Invalid WAL Magic in mutable WAL")
    return file

/-! ## Writing -/

/-- `BufWriter::new` allocates `DEFAULT_BUF_SIZE` bytes. -/
def bufCapacity : Nat := 8192

/-- An open log: the file, the bytes the `BufWriter` holds back, and how many bytes the file
still takes in the current call before an error (`none`: no error). -/
structure Writer where
  file : Bytes
  buf : Bytes
  budget : Option Nat
  deriving DecidableEq

namespace Writer

/-- Hand bytes to the file. The number is how many it took, which is all of them on success. -/
def toFile (w : Writer) (bytes : Bytes) : Except DbError Unit × Nat × Writer :=
  match w.budget with
  | none => (.ok (), bytes.length, { w with file := w.file ++ bytes })
  | some n =>
      if bytes.length ≤ n then
        (.ok (), bytes.length,
          { w with file := w.file ++ bytes, budget := some (n - bytes.length) })
      else
        (.error (.io (.other "write failed")), n,
          { w with file := w.file ++ bytes.take n, budget := some 0 })

/-- `BufWriter::flush_buf`: what the file took leaves the buffer, also on an error. -/
def flushBuf (w : Writer) : Except DbError Unit × Writer :=
  let (res, taken, w) := w.toFile w.buf
  (res, { w with buf := w.buf.drop taken })

/-- The first half of `BufWriter::write_all_cold`: flush when the bytes exceed the free space. -/
def makeRoom (w : Writer) (bytes : Bytes) : Except DbError Unit × Writer :=
  if bufCapacity - w.buf.length < bytes.length then w.flushBuf else (.ok (), w)

/-- `BufWriter::write_all`. -/
def writeAll (w : Writer) (bytes : Bytes) : Except DbError Unit × Writer :=
  if bytes.length < bufCapacity - w.buf.length then
    (.ok (), { w with buf := w.buf ++ bytes })
  else
    match w.makeRoom bytes with
    | (.error e, w) => (.error e, w)
    | (.ok (), w) =>
        if bufCapacity ≤ bytes.length then
          let (res, _, w) := w.toFile bytes
          (res, w)
        else
          (.ok (), { w with buf := w.buf ++ bytes })

/-- `File::sync_all`, the last call that can fail. -/
def syncAll (w : Writer) : Except DbError Unit :=
  match w.budget with
  | none => .ok ()
  | some _ => .error (.io (.other "sync failed"))

/-- `Wal::write`: buffer the bytes, flush them and sync the file. -/
def write (w : Writer) (bytes : Bytes) : Except DbError Unit × Writer :=
  match w.writeAll bytes with
  | (.error e, w) => (.error e, w)
  | (.ok (), w) =>
      match w.flushBuf with
      | (.error e, w) => (.error e, w)
      | (.ok (), w) => (w.syncAll, w)

/-- Of the bytes `todo`, the file took a prefix, and what is held back continues that prefix. -/
def Took (w : Writer) (todo : Bytes) (w' : Writer) : Prop :=
  ∃ n, w'.file = w.file ++ todo.take n ∧ w'.buf <+: todo.drop n

/-- The file takes a prefix of the bytes it is handed, and all of them on success. -/
theorem toFile_spec {w w' : Writer} {bytes : Bytes} {res : Except DbError Unit} {n : Nat}
    (h : w.toFile bytes = (res, n, w')) :
    w'.file = w.file ++ bytes.take n ∧ w'.buf = w.buf ∧ (res = .ok () → n = bytes.length) := by
  unfold toFile at h
  split at h
  · cases h
    exact ⟨by simp, rfl, fun _ => rfl⟩
  · split at h
    · cases h
      exact ⟨by simp, rfl, fun _ => rfl⟩
    · cases h
      exact ⟨rfl, rfl, fun hres => by cases hres⟩

/-- Flushing moves a prefix of the held-back bytes to the file, and all of them on success. -/
theorem flushBuf_spec {w w' : Writer} {res : Except DbError Unit} (h : w.flushBuf = (res, w')) :
    ∃ n, w'.file = w.file ++ w.buf.take n ∧ w'.buf = w.buf.drop n ∧
      (res = .ok () → n = w.buf.length) := by
  rcases hfile : w.toFile w.buf with ⟨res', n, mid⟩
  obtain ⟨hdata, hbuf, hok⟩ := toFile_spec hfile
  simp only [flushBuf, hfile, Prod.mk.injEq] at h
  obtain ⟨rfl, rfl⟩ := h
  refine ⟨n, hdata, ?_, hok⟩
  rw [hbuf]

/-- A successful `flush_buf` leaves nothing held back. -/
theorem flushBuf_ok {w w' : Writer} (h : w.flushBuf = (.ok (), w')) :
    w'.file = w.file ++ w.buf ∧ w'.buf = [] := by
  obtain ⟨n, hfile, hbuf, hok⟩ := flushBuf_spec h
  have hn := hok rfl
  subst hn
  exact ⟨by simpa using hfile, by simpa using hbuf⟩

/-- Moving a prefix of the held-back bytes to the file takes from any longer sequence. -/
theorem Took.of_flush {w w' : Writer} {n : Nat} (bytes : Bytes)
    (hfile : w'.file = w.file ++ w.buf.take n) (hbuf : w'.buf <+: w.buf.drop n ++ bytes) :
    Took w (w.buf ++ bytes) w' := by
  refine ⟨min n w.buf.length, ?_, ?_⟩
  · rw [hfile, List.take_append_of_le_length (Nat.min_le_right _ _), ← List.take_eq_take_min]
  · rw [List.drop_append_of_le_length (Nat.min_le_right _ _)]
    rcases Nat.le_total n w.buf.length with hle | hle
    · rwa [Nat.min_eq_left hle]
    · rw [Nat.min_eq_right hle]
      rwa [List.drop_of_length_le hle, ← List.drop_length (l := w.buf)] at hbuf

/-- Making room keeps the bytes in order and empties the buffer for a batch of the capacity. -/
theorem makeRoom_ok {w w' : Writer} {bytes : Bytes} (h : w.makeRoom bytes = (.ok (), w')) :
    (∃ n, w'.file = w.file ++ w.buf.take n ∧ w'.buf = w.buf.drop n) ∧
      (bufCapacity ≤ bytes.length → w'.file = w.file ++ w.buf ∧ w'.buf = []) := by
  unfold makeRoom at h
  split at h
  · obtain ⟨n, hfile, hbuf, _⟩ := flushBuf_spec h
    exact ⟨⟨n, hfile, hbuf⟩, fun _ => flushBuf_ok h⟩
  · rename_i hroom
    cases h
    refine ⟨⟨0, by simp, by simp⟩, fun hcap => ?_⟩
    have hempty : w.buf = [] := by
      rw [← List.length_eq_zero_iff]
      unfold bufCapacity at *
      omega
    exact ⟨by simp [hempty], hempty⟩

/-- `write_all` passes the held-back bytes and then the new ones on, in order; on success every
byte is in the file or held back. -/
theorem writeAll_spec {w w' : Writer} {bytes : Bytes} {res : Except DbError Unit}
    (h : w.writeAll bytes = (res, w')) :
    Took w (w.buf ++ bytes) w' ∧
      (res = .ok () → w'.file ++ w'.buf = w.file ++ (w.buf ++ bytes)) := by
  unfold writeAll at h
  split at h
  · cases h
    exact ⟨⟨0, by simp, by simp⟩, fun _ => rfl⟩
  · split at h
    · rename_i e mid hroom
      cases h
      unfold makeRoom at hroom
      split at hroom
      · obtain ⟨n, hfile, hbuf, _⟩ := flushBuf_spec hroom
        exact ⟨Took.of_flush bytes hfile (by simp [hbuf]), fun hres => by cases hres⟩
      · cases hroom
    · rename_i mid hroom
      obtain ⟨⟨n, hfile, hbuf⟩, hlarge⟩ := makeRoom_ok hroom
      split at h
      · -- a batch of at least the capacity goes straight to the file
        rename_i hcap
        obtain ⟨hmidFile, hmidBuf⟩ := hlarge hcap
        rcases hdirect : mid.toFile bytes with ⟨res', k, last⟩
        obtain ⟨hlast, hlastBuf, hok⟩ := toFile_spec hdirect
        simp only [hdirect, Prod.mk.injEq] at h
        obtain ⟨rfl, rfl⟩ := h
        refine ⟨⟨w.buf.length + k, ?_, ?_⟩, fun hres => ?_⟩
        · rw [hlast, hmidFile, List.append_assoc, List.take_length_add_append]
        · rw [hlastBuf, hmidBuf]
          exact List.nil_prefix
        · have hk := hok hres
          subst hk
          rw [hlast, hlastBuf, hmidFile, hmidBuf]
          simp
      · cases h
        refine ⟨Took.of_flush bytes hfile (by simp [hbuf]), fun _ => ?_⟩
        simp only [hfile, hbuf, List.append_assoc]
        rw [← List.append_assoc (w.buf.take n), List.take_append_drop]

/-- A `write` that returns `Ok` has put the held-back bytes and the new ones into the file. -/
theorem write_ok {w w' : Writer} {bytes : Bytes} (h : w.write bytes = (.ok (), w')) :
    w'.file = w.file ++ (w.buf ++ bytes) ∧ w'.buf = [] := by
  unfold write at h
  split at h
  · cases h
  · rename_i mid hall
    have hmid := (writeAll_spec hall).2 rfl
    split at h
    · cases h
    · rename_i last hflush
      obtain ⟨hfile, hbuf⟩ := flushBuf_ok hflush
      simp only [Prod.mk.injEq] at h
      obtain ⟨_, rfl⟩ := h
      exact ⟨by rw [hfile, hmid], hbuf⟩

/-- A `write` that returns `Err` has put a prefix of the held-back and the new bytes into the
file; what it still holds back continues that prefix. -/
theorem write_took {w w' : Writer} {bytes : Bytes} {res : Except DbError Unit}
    (h : w.write bytes = (res, w')) : Took w (w.buf ++ bytes) w' := by
  unfold write at h
  split at h
  · rename_i e mid hall
    simp only [Prod.mk.injEq] at h
    obtain ⟨_, rfl⟩ := h
    exact (writeAll_spec hall).1
  · rename_i mid hall
    obtain ⟨⟨n, hmidFile, hmidBuf⟩, hall⟩ := writeAll_spec hall
    have hflush : ∃ k, w'.file = mid.file ++ mid.buf.take k ∧ w'.buf = mid.buf.drop k := by
      split at h
      · rename_i e last hflush
        simp only [Prod.mk.injEq] at h
        obtain ⟨_, rfl⟩ := h
        obtain ⟨k, hfile, hbuf, _⟩ := flushBuf_spec hflush
        exact ⟨k, hfile, hbuf⟩
      · rename_i last hflush
        simp only [Prod.mk.injEq] at h
        obtain ⟨_, rfl⟩ := h
        obtain ⟨k, hfile, hbuf, _⟩ := flushBuf_spec hflush
        exact ⟨k, hfile, hbuf⟩
    obtain ⟨k, hfile, hbuf⟩ := hflush
    have hwhole : mid.file ++ mid.buf = w.file ++ (w.buf ++ bytes) := hall rfl
    -- nothing was dropped so far: `mid` holds back exactly what the file has not taken
    have hheld : mid.buf = (w.buf ++ bytes).drop n := by
      rw [hmidFile, List.append_assoc, List.append_cancel_left_eq] at hwhole
      rw [← List.append_cancel_left_eq ((w.buf ++ bytes).take n), hwhole, List.take_append_drop]
    refine ⟨n + k, ?_, ?_⟩
    · rw [hfile, hmidFile, hheld, List.append_assoc, List.take_add]
    · rw [hbuf, hheld, List.drop_drop]

end Writer

/-! ## Reading -/

/-- `Wal<ReadOnly>::try_iter` on a file: the bytes after the magic number. -/
def tryIter (file : Bytes) : Except DbError Bytes := do
  let (magicBuf, r) ← readExact DbError.unexpectedEof 4 file
  if leNat magicBuf ≠ walMagic.toNat then
    throw (.dataCorrupted "Invalid WAL Magic")
  return r

/-- `WalIterator::next`: no item when the input ends inside a record. -/
def next (r : Bytes) : Option (Except DbError (Entry × Bytes)) :=
  match Loggable.decode (α := UInt32) r with
  | .error (.io .unexpectedEof) => none
  | .error e => some (.error e)
  | .ok (storedCrc, r) =>
      match Loggable.decode (α := Key) r with
      | .error (.io .unexpectedEof) => none
      | .error e => some (.error e)
      | .ok (key, rKey) =>
          match Loggable.decode (α := Value) rKey with
          | .error (.io .unexpectedEof) => none
          | .error e => some (.error e)
          | .ok (value, rest) =>
              -- `CrcReader` hashed exactly the bytes the two decoders consumed
              let calculatedCrc := crc (r.take (r.length - rest.length))
              if calculatedCrc ≠ storedCrc then
                some (.error (.dataCorrupted "CRC mismatch"))
              else
                some (.ok ((key, value), rest))

/-- Iterate to the end or to the first error. -/
def collect : Nat → Bytes → Except DbError (List Entry)
  | 0, _ => .ok []
  | fuel + 1, r =>
      match next crc r with
      | none => .ok []
      | some (.error e) => .error e
      | some (.ok (e, rest)) => (collect fuel rest).map (e :: ·)

/-- Replay a log file as recovery does: every entry up to the end of the iteration. A record has
at least one byte, so the length of the file bounds the number of iterations. -/
def replay (file : Bytes) : Except DbError (List Entry) := do
  let r ← tryIter file
  collect crc (r.length + 1) r

variable {crc}

/-- A record is never empty. -/
theorem encodeEntry_ne_nil (e : Entry) : encodeEntry crc e ≠ [] := by
  simp [encodeEntry, Entry.encode_ne_nil]

/-- The iterator reads a whole record back, whatever follows. -/
theorem next_encodeEntry {e : Entry} (h : e.Fits) (rest : Bytes) :
    next crc (encodeEntry crc e ++ rest) = some (.ok (e, rest)) := by
  have hcrc := (u32_roundTrips (crc e.encode)).reads (e.encode ++ rest)
  have hkey : Loggable.decode (α := Key) (e.encode ++ rest) =
      .ok (e.1, Loggable.encode e.2 ++ rest) := by
    rw [Entry.encode, List.append_assoc]
    exact (Key.roundTrips h.1).reads (Loggable.encode e.2 ++ rest)
  have hvalue := (Value.roundTrips h.2).reads rest
  have hconsumed :
      (e.encode ++ rest).take ((e.encode ++ rest).length - rest.length) = e.encode := by
    simp
  rw [encodeEntry, List.append_assoc]
  simp only [next, hcrc, hkey, hvalue, hconsumed, ne_eq, not_true, if_false]

/-- The iteration ends inside a torn record, without an error. -/
theorem next_torn {e : Entry} (h : e.Fits) {p : Bytes} (hp : p <+: encodeEntry crc e)
    (hne : p ≠ encodeEntry crc e) : next crc p = none := by
  rcases prefix_append_cases hp with ⟨hpre, hproper⟩ | ⟨q, hq, rfl⟩
  · simp only [next, (u32_roundTrips (crc e.encode)).starves p hpre hproper]
  · have hqne : q ≠ e.encode := fun heq => hne (by rw [heq, encodeEntry])
    have hcrc := (u32_roundTrips (crc e.encode)).reads q
    simp only [next, hcrc]
    rcases prefix_append_cases hq with ⟨hpre, hproper⟩ | ⟨q', hq', rfl⟩
    · simp only [(Key.roundTrips h.1).starves q hpre hproper]
    · have hq'ne : q' ≠ Loggable.encode e.2 := fun heq => hqne (by rw [heq, Entry.encode])
      simp only [(Key.roundTrips h.1).reads q', (Value.roundTrips h.2).starves q' hq' hq'ne]

/-- A prefix of a sequence of records is whole records followed by a torn one or by nothing. -/
theorem prefix_encodeGroup {L : List Entry} {p : Bytes} (hp : p <+: encodeGroup crc L) :
    ∃ es t, es <+: L ∧ p = encodeGroup crc es ++ t ∧
      (t = [] ∨ ∃ e ∈ L, t <+: encodeEntry crc e ∧ t ≠ encodeEntry crc e) := by
  induction L generalizing p with
  | nil =>
      have hnil : p = [] := List.prefix_nil.mp hp
      exact ⟨[], [], List.nil_prefix, by simp [hnil, encodeGroup], .inl rfl⟩
  | cons e L ih =>
      rcases prefix_append_cases hp with ⟨hpre, hproper⟩ | ⟨q, hq, rfl⟩
      · exact ⟨[], p, List.nil_prefix, by simp [encodeGroup],
          .inr ⟨e, by simp, hpre, hproper⟩⟩
      · obtain ⟨es, t, hes, rfl, ht⟩ := ih hq
        refine ⟨e :: es, t, (List.prefix_cons_inj e).mpr hes, by simp [encodeGroup], ?_⟩
        rcases ht with rfl | ⟨x, hx, hxt⟩
        · exact .inl rfl
        · exact .inr ⟨x, by simp [hx], hxt⟩

/-- Records can be told apart: a sequence of records that is a byte prefix of another is a
prefix of it entry by entry. -/
theorem prefix_of_encodeGroup_prefix {es L : List Entry} (hes : ∀ e ∈ es, e.Fits)
    (hL : ∀ e ∈ L, e.Fits) (h : encodeGroup crc es <+: encodeGroup crc L) : es <+: L := by
  induction es generalizing L with
  | nil => exact List.nil_prefix
  | cons e es ih =>
      obtain ⟨suffix, hsuffix⟩ := h
      cases L with
      | nil =>
          simp [encodeGroup, encodeEntry_ne_nil] at hsuffix
      | cons x L =>
          simp only [encodeGroup, List.flatMap_cons, List.append_assoc] at hsuffix
          have hread := congrArg (next crc) hsuffix
          rw [next_encodeEntry (hes e (by simp)), next_encodeEntry (hL x (by simp))] at hread
          simp only [Option.some.injEq, Except.ok.injEq, Prod.mk.injEq] at hread
          obtain ⟨rfl, hrest⟩ := hread
          exact (List.prefix_cons_inj e).mpr
            (ih (fun y hy => hes y (by simp [hy])) (fun y hy => hL y (by simp [hy]))
              ⟨suffix, hrest⟩)

/-- Whole records followed by a torn one or by nothing are collected without an error. -/
theorem collect_encodeGroup {es : List Entry} {t : Bytes} (hes : ∀ e ∈ es, e.Fits)
    (ht : next crc t = none) {fuel : Nat} (hfuel : es.length < fuel) :
    collect crc fuel (encodeGroup crc es ++ t) = .ok es := by
  induction es generalizing fuel with
  | nil =>
      cases fuel with
      | zero => exact absurd hfuel (Nat.not_lt_zero _)
      | succ fuel => simp [collect, encodeGroup, ht]
  | cons e es ih =>
      cases fuel with
      | zero => exact absurd hfuel (Nat.not_lt_zero _)
      | succ fuel =>
          have hhead : next crc (encodeGroup crc (e :: es) ++ t) =
              some (.ok (e, encodeGroup crc es ++ t)) := by
            simp only [encodeGroup, List.flatMap_cons, List.append_assoc]
            exact next_encodeEntry (hes e (by simp)) _
          have hrest := ih (fun x hx => hes x (by simp [hx])) (Nat.lt_of_succ_lt_succ hfuel)
          simp only [collect, hhead, hrest, Except.map]

/-- A group has at least as many bytes as entries. -/
theorem length_le_length_encodeGroup (es : List Entry) :
    es.length ≤ (encodeGroup crc es).length := by
  induction es with
  | nil => simp
  | cons e es ih =>
      have hpos := List.length_pos_iff.mpr (@encodeEntry_ne_nil crc e)
      simp only [encodeGroup, List.flatMap_cons, List.length_append, List.length_cons] at ih ⊢
      omega

/-- The empty rest ends the iteration. -/
theorem next_nil : next crc [] = none := rfl

/-- The magic number is accepted and skipped. -/
theorem tryIter_magic (r : Bytes) : tryIter (magicBytes ++ r) = .ok r := by
  have hread := (readExact_decodes magicBytes).reads r
  have hlen : magicBytes.length = 4 := length_leBytes 4 _
  have hmagic : leNat magicBytes = walMagic.toNat :=
    leNat_leBytes_of_lt (k := 4) walMagic.toNat_lt
  rw [hlen] at hread
  simp only [tryIter, hread, ok_bind, hmagic, ne_eq, not_true, if_false]
  rfl

/-- Replaying whole records followed by a truncated sequence of records gives the former and a
prefix of the latter. -/
theorem replay_truncated {es L : List Entry} {u : Bytes} (hes : ∀ e ∈ es, e.Fits)
    (hL : ∀ e ∈ L, e.Fits) (hu : u <+: encodeGroup crc L) :
    ∃ es', es' <+: L ∧ replay crc (magicBytes ++ encodeGroup crc es ++ u) = .ok (es ++ es') := by
  obtain ⟨es', t, hes', rfl, ht⟩ := prefix_encodeGroup hu
  have hfits : ∀ e ∈ es ++ es', e.Fits := by
    intro e he
    rcases List.mem_append.mp he with he | he
    · exact hes e he
    · exact hL e (hes'.subset he)
  have hend : next crc t = none := by
    rcases ht with rfl | ⟨e, he, hpre, hne⟩
    · exact next_nil
    · exact next_torn (hL e he) hpre hne
  have hbytes : magicBytes ++ encodeGroup crc es ++ (encodeGroup crc es' ++ t) =
      magicBytes ++ (encodeGroup crc (es ++ es') ++ t) := by
    simp only [encodeGroup, List.flatMap_append, List.append_assoc]
  have hlen := @length_le_length_encodeGroup crc (es ++ es')
  refine ⟨es', hes', ?_⟩
  rw [hbytes]
  simp only [replay, tryIter_magic, ok_bind]
  refine collect_encodeGroup hfits hend (Nat.lt_succ_of_le (Nat.le_trans hlen ?_))
  rw [List.length_append]
  exact Nat.le_add_right _ _

/-! ## A truncated log -/

/-- The iteration returns these entries and ends. -/
inductive Yields (crc : Bytes → UInt32) : Bytes → List Entry → Prop where
  | done {r : Bytes} : next crc r = none → Yields crc r []
  | item {r rest : Bytes} {e : Entry} {es : List Entry} :
      next crc r = some (.ok (e, rest)) → Yields crc rest es → Yields crc r (e :: es)

theorem length_encodeGroup_cons (e : Entry) (es : List Entry) :
    (encodeGroup crc (e :: es)).length =
      (encodeEntry crc e).length + (encodeGroup crc es).length := by
  rw [encodeGroup, List.flatMap_cons, List.length_append]
  rfl

/-- Of records that are cut off somewhere the iteration returns the whole ones. -/
theorem yields_take {es : List Entry} (hfits : ∀ e ∈ es, e.Fits) (cut : Nat) :
    ∃ n, Yields crc ((encodeGroup crc es).take cut) (es.take n) ∧
      ∀ i < es.length, i < n ↔ (encodeGroup crc (es.take (i + 1))).length ≤ cut := by
  induction es generalizing cut with
  | nil => exact ⟨0, .done (by rw [encodeGroup, List.flatMap_nil, List.take_nil]; rfl), by simp⟩
  | cons e es ih =>
      have he : e.Fits := hfits e List.mem_cons_self
      have hgroup : encodeGroup crc (e :: es) = encodeEntry crc e ++ encodeGroup crc es := by
        rw [encodeGroup, List.flatMap_cons]
        rfl
      by_cases hwhole : (encodeEntry crc e).length ≤ cut
      · -- the first record is whole
        obtain ⟨n, hyields, hn⟩ := ih (fun x hx => hfits x (List.mem_cons_of_mem e hx))
          (cut - (encodeEntry crc e).length)
        refine ⟨n + 1, ?_, fun i hi => ?_⟩
        · rw [hgroup, List.take_append, List.take_of_length_le hwhole, List.take_succ_cons]
          exact .item (next_encodeEntry he _) hyields
        · rw [List.take_succ_cons, length_encodeGroup_cons]
          cases i with
          | zero =>
              rw [List.take_zero]
              show 0 < n + 1 ↔ (encodeEntry crc e).length + 0 ≤ cut
              omega
          | succ i =>
              have hrest := hn i (Nat.lt_of_succ_lt_succ hi)
              omega
      · refine ⟨0, ?_, fun i _ => ?_⟩
        · rw [hgroup, List.take_append_of_le_length (by omega)]
          refine .done (next_torn he (List.take_prefix _ _) fun heq => ?_)
          have hlen := congrArg List.length heq
          rw [List.length_take] at hlen
          omega
        · rw [List.take_succ_cons, length_encodeGroup_cons]
          omega

/-- A log that is cut off anywhere behind the magic number is replayed without an error, up to the
last entry that lies wholly before the cut. -/
theorem replay_cut (crc : Bytes → UInt32) (es : List Entry) (hfits : ∀ e ∈ es, e.Fits) (cut : Nat)
    (hcut : 4 ≤ cut) :
    ∃ r n, tryIter ((magicBytes ++ encodeGroup crc es).take cut) = .ok r ∧
      Yields crc r (es.take n) ∧
      ∀ i < es.length, i < n ↔ (magicBytes ++ encodeGroup crc (es.take (i + 1))).length ≤ cut := by
  have hmagic : magicBytes.length = 4 := length_leBytes 4 _
  obtain ⟨n, hyields, hn⟩ := @yields_take crc es hfits (cut - 4)
  refine ⟨(encodeGroup crc es).take (cut - 4), n, ?_, hyields, fun i hi => ?_⟩
  · rw [List.take_append, List.take_of_length_le (by omega), hmagic, tryIter_magic]
  · rw [List.length_append, hmagic, hn i hi]
    omega

theorem replay_cut_second_record : ∃ r n,
    tryIter ((magicBytes ++ encodeGroup (fun _ => 0) [(Key.new [97] 1, .bytes [1]),
      (Key.new [98] 2, .tombstone)]).take 30) = .ok r ∧
    Yields (fun _ => 0) r
      ([(Key.new [97] 1, .bytes [1]), (Key.new [98] 2, .tombstone)].take n) ∧
    ∀ i < 2, i < n ↔ (magicBytes ++ encodeGroup (fun _ => 0)
      (([(Key.new [97] 1, .bytes [1]), (Key.new [98] 2, .tombstone)] : List Entry).take
        (i + 1))).length ≤ 30 :=
  replay_cut (fun _ => 0) [(Key.new [97] 1, .bytes [1]), (Key.new [98] 2, .tombstone)] (by decide)
    30 (by decide)

/-! ## A log that ends inside a record -/

theorem encodeGroup_concat (es : List Entry) (e : Entry) :
    encodeGroup crc (es ++ [e]) = encodeGroup crc es ++ encodeEntry crc e := by
  rw [encodeGroup, encodeGroup, List.flatMap_append, List.flatMap_singleton]

/-- The file is the magic number, the records, and at most a part of another one. -/
structure Records (crc : Bytes → UInt32) (file : Bytes) (es : List Entry) : Prop where
  fits : ∀ e ∈ es, e.Fits
  rest : ∃ (e : Entry) (part : Bytes), e.Fits ∧ (part <+: encodeEntry crc e ∧
    part ≠ encodeEntry crc e) ∧ file = magicBytes ++ (encodeGroup crc es ++ part)

namespace Records

variable {file file' : Bytes} {es es' : List Entry}

theorem whole (hfits : ∀ e ∈ es, e.Fits) : Records crc (magicBytes ++ encodeGroup crc es) es where
  fits := hfits
  rest := by
    refine ⟨(Key.new [] 0, .tombstone), [], by decide, ⟨List.nil_prefix, ?_⟩, ?_⟩
    · exact fun hnil => encodeEntry_ne_nil _ hnil.symm
    · rw [List.append_nil]

theorem magic_prefix (h : Records crc file es) : magicBytes <+: file := by
  obtain ⟨_, _, _, _, _, rfl⟩ := h
  exact List.prefix_append _ _

theorem ne_nil (h : Records crc file es) : file ≠ [] := by
  rintro rfl
  exact absurd (List.prefix_nil.mp h.magic_prefix) (by decide)

/-- A log without records. -/
theorem magic : Records crc magicBytes [] := by
  have hwhole := @whole crc [] (by simp)
  rwa [encodeGroup, List.flatMap_nil, List.append_nil] at hwhole

/-- Replaying the file gives the records. -/
theorem replay (h : Records crc file es) : Wal.replay crc file = .ok es := by
  obtain ⟨hfits, e, part, he, ⟨hpart, hne⟩, rfl⟩ := h
  have hend : next crc part = none := next_torn he hpart hne
  have hlength := @length_le_length_encodeGroup crc es
  simp only [Wal.replay, tryIter_magic, ok_bind]
  refine collect_encodeGroup hfits hend (Nat.lt_succ_of_le (Nat.le_trans hlength ?_))
  rw [List.length_append]
  exact Nat.le_add_right _ _

theorem unique (h : Records crc file es) (h' : Records crc file es') : es' = es :=
  Except.ok.inj (h'.replay.symm.trans h.replay)

/-- The beginning of the file has the first records. -/
theorem of_prefix (h : Records crc file es) (hfile : file' <+: file)
    (hmagic : magicBytes <+: file') :
    ∃ es', es' <+: es ∧ Records crc file' es' := by
  obtain ⟨hfits, e, part, he, ⟨hpart, hne⟩, rfl⟩ := h
  obtain ⟨bytes, rfl⟩ := hmagic
  have hbytes := (List.prefix_append_right_inj _).mp hfile
  have hall : ∀ x ∈ es ++ [e], x.Fits := by
    intro x hx
    rcases List.mem_append.mp hx with hx | hx
    · exact hfits x hx
    · exact List.mem_singleton.mp hx ▸ he
  have hgroup : bytes <+: encodeGroup crc (es ++ [e]) := by
    rw [encodeGroup_concat]
    exact hbytes.trans ((List.prefix_append_right_inj _).mpr hpart)
  obtain ⟨es', rest, hes', rfl, hrest⟩ := prefix_encodeGroup hgroup
  have hrest : ∃ x : Entry, x.Fits ∧ rest <+: encodeEntry crc x ∧ rest ≠ encodeEntry crc x := by
    rcases hrest with rfl | ⟨x, hx, hrest⟩
    · exact ⟨e, he, List.nil_prefix, fun hnil => encodeEntry_ne_nil _ hnil.symm⟩
    · exact ⟨x, hall x hx, hrest⟩
  obtain ⟨x, hx, hrest⟩ := hrest
  refine ⟨es', ?_, fun y hy => hall y (hes'.subset hy), x, rest, hx, hrest, rfl⟩
  rcases List.prefix_concat_iff.mp hes' with rfl | hes'
  · -- the last record is not whole
    have hlong := hbytes.length_le
    have hshort : part.length < (encodeEntry crc e).length :=
      Nat.lt_of_le_of_ne hpart.length_le fun heq => hne (hpart.eq_of_length heq)
    rw [encodeGroup_concat] at hlong
    simp only [List.length_append] at hlong
    omega
  · exact hes'

/-- A record behind whole records. -/
theorem concat (h : Records crc (magicBytes ++ encodeGroup crc es) es) {e : Entry} (he : e.Fits) :
    Records crc (magicBytes ++ encodeGroup crc es ++ encodeEntry crc e) (es ++ [e]) := by
  rw [List.append_assoc, ← encodeGroup_concat]
  refine whole fun x hx => ?_
  rcases List.mem_append.mp hx with hx | hx
  · exact h.fits x hx
  · exact List.mem_singleton.mp hx ▸ he

end Records

end Wal

end EasyLsm
