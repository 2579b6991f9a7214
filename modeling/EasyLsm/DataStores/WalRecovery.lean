import Mathlib.Data.List.Basic
import EasyLsm.Lib.Crc32
import EasyLsm.Lib.Transition
import EasyLsm.DataStores.Wal

/-!
# Acknowledged writes of one log file

The life of a single log file as a transition system: writes of groups of entries, which may
fail after any number of bytes, crashes, which keep any prefix of the bytes since the last `Ok`,
drops of the writer, whose `BufWriter` flushes what it can of the bytes it holds back, and
recoveries, which replay the file and re-open it for appending as `recover_state` does.

Nothing truncates a torn record, so a write that starts behind one is parsed relative to the
length fields of that record and is lost. `acked_sublist_replay` says that this is the only way:
when every write starts at a record boundary and its entries have representable lengths, the
replay yields every acknowledged entry in order. The boundary counts the bytes that the
`BufWriter` still holds back, because the next write flushes them first.
-/

namespace EasyLsm.WalRecovery

open Lib Wal

/-- A log file, the length it had at the last `Ok`, what the open writer's buffer holds back
(`none`: no writer), and the entries of the writes that returned `Ok`. -/
structure LogFile where
  file : Bytes
  synced : Nat
  writer : Option Bytes
  acked : List Entry
  deriving DecidableEq

/-- What happens to a log file. -/
inductive Label where
  | write (group : List Entry) (budget : Option Nat)
  | crash (kept : Nat)
  | close (flushed : Nat)
  | recover

variable (crc : Bytes → UInt32)

/-- The write stage of a group: `Wal::write` of its encoded entries. -/
def writeGroup (s : LogFile) (held : Bytes) (group : List Entry) (budget : Option Nat) : LogFile :=
  let w : Writer := ⟨s.file, held, budget⟩
  match w.write (encodeGroup crc group) with
  | (.ok (), w) =>
      { file := w.file, synced := w.file.length, writer := some w.buf, acked := s.acked ++ group }
  | (.error _, w) => { s with file := w.file, writer := some w.buf }

/-- One step. A recovery goes through only if the replay and the re-opening succeed. -/
def step (s : LogFile) : Label → Option LogFile
  | .write group budget =>
      match s.writer with
      | some held => if group = [] then none else some (writeGroup crc s held group budget)
      | none => none
  | .crash kept => some { s with file := s.file.take (s.synced + kept), writer := none }
  | .close flushed =>
      match s.writer with
      | some held => some { s with file := s.file ++ held.take flushed, writer := none }
      | none => none
  | .recover =>
      match s.writer, replay crc s.file, openWritable s.file with
      | none, .ok _, .ok file => some { s with file, writer := some [] }
      | _, _, _ => none

/-- A new file after `Wal<Writable>::open` has returned. -/
def initial : LogFile := ⟨magicBytes, magicBytes.length, some [], []⟩

/-- The first `open` of a log file creates it with the magic number. -/
example : openWritable [] = .ok initial.file := rfl

/-- Replaying the file ends without an error and yields every acknowledged entry in order. -/
def Durable (s : LogFile) : Prop := ∃ es, replay crc s.file = .ok es ∧ s.acked.Sublist es

/-- The file together with the held-back bytes is the magic number and whole records. -/
def AtBoundary (s : LogFile) : Prop :=
  ∃ es : List Entry, (∀ e ∈ es, e.Fits) ∧
    s.file ++ s.writer.getD [] = magicBytes ++ encodeGroup crc es

/-- The condition on a step: a write starts at a record boundary, and the length fields of its
entries are not narrowed. -/
def WriteAtBoundary (s : LogFile) : Label → Prop
  | .write group _ => AtBoundary crc s ∧ ∀ e ∈ group, e.Fits
  | _ => True

/-- The invariant: durable records that contain the acknowledged ones, then the beginning of a
sequence of records that the held-back bytes continue. -/
structure Intact (s : LogFile) (durable pending : List Entry) (tail : Bytes) : Prop where
  acked : s.acked.Sublist durable
  durableFits : ∀ e ∈ durable, e.Fits
  pendingFits : ∀ e ∈ pending, e.Fits
  synced : s.synced = (magicBytes ++ encodeGroup crc durable).length
  file : s.file = magicBytes ++ encodeGroup crc durable ++ tail
  held : tail ++ s.writer.getD [] <+: encodeGroup crc pending

variable {crc}

/-- A new file is intact. -/
theorem intact_initial : Intact crc initial [] [] [] where
  acked := List.Sublist.refl []
  durableFits _ he := absurd he List.not_mem_nil
  pendingFits _ he := absurd he List.not_mem_nil
  synced := rfl
  file := rfl
  held := List.nil_prefix

/-- An intact file replays to the durable records and possibly more. -/
theorem Intact.durable {s : LogFile} {es pending : List Entry} {tail : Bytes}
    (h : Intact crc s es pending tail) : Durable crc s := by
  have htail : tail <+: encodeGroup crc pending :=
    (List.prefix_append tail _).trans h.held
  obtain ⟨es', _, hreplay⟩ := replay_truncated h.durableFits h.pendingFits htail
  refine ⟨es ++ es', ?_, h.acked.trans (List.sublist_append_left es es')⟩
  rw [h.file, hreplay]

/-- At a boundary the tail and the held-back bytes are themselves whole records. -/
theorem Intact.at_boundary {s : LogFile} {es pending : List Entry} {tail : Bytes}
    (h : Intact crc s es pending tail) (hb : AtBoundary crc s) :
    ∃ more : List Entry, (∀ e ∈ more, e.Fits) ∧
      tail ++ s.writer.getD [] = encodeGroup crc more := by
  obtain ⟨all, hall, hfile⟩ := hb
  have hbytes : encodeGroup crc es ++ (tail ++ s.writer.getD []) = encodeGroup crc all := by
    rw [h.file] at hfile
    simpa only [List.append_assoc, List.append_cancel_left_eq] using hfile
  obtain ⟨more, rfl⟩ := prefix_of_encodeGroup_prefix h.durableFits hall ⟨_, hbytes⟩
  refine ⟨more, fun e he => hall e (List.mem_append_right es he), ?_⟩
  simpa only [encodeGroup, List.flatMap_append, List.append_cancel_left_eq] using hbytes

/-- A write at a boundary keeps the file intact, whether it succeeds or fails. -/
theorem Intact.writeGroup {s : LogFile} {es pending group : List Entry} {tail held : Bytes}
    {budget : Option Nat} (h : Intact crc s es pending tail) (hheld : s.writer = some held)
    (hb : AtBoundary crc s) (hgroup : ∀ e ∈ group, e.Fits) :
    ∃ es pending tail, Intact crc (writeGroup crc s held group budget) es pending tail := by
  obtain ⟨more, hmore, hwhole⟩ := h.at_boundary hb
  rw [hheld, Option.getD_some] at hwhole
  have hnew : ∀ e ∈ more ++ group, e.Fits := by
    intro e he
    rcases List.mem_append.mp he with he | he
    · exact hmore e he
    · exact hgroup e he
  have hall : tail ++ (held ++ encodeGroup crc group) = encodeGroup crc (more ++ group) := by
    rw [← List.append_assoc, hwhole]
    simp only [encodeGroup, List.flatMap_append]
  rcases hwrite : Writer.write ⟨s.file, held, budget⟩ (encodeGroup crc group) with ⟨res, w⟩
  cases res with
  | ok =>
      simp only [WalRecovery.writeGroup, hwrite]
      obtain ⟨hfile, hbuf⟩ := Writer.write_ok hwrite
      have hbytes : w.file = magicBytes ++ encodeGroup crc (es ++ (more ++ group)) := by
        rw [hfile, h.file, List.append_assoc, hall]
        simp only [encodeGroup, List.flatMap_append, List.append_assoc]
      exact ⟨es ++ (more ++ group), [], [],
        { acked := h.acked.append (List.sublist_append_right more group)
          durableFits := fun e he => (List.mem_append.mp he).elim (h.durableFits e) (hnew e)
          pendingFits := fun _ he => absurd he List.not_mem_nil
          synced := by rw [hbytes]
          file := by simp only [hbytes, List.append_nil]
          held := by simp [hbuf] }⟩
  | error e =>
      simp only [WalRecovery.writeGroup, hwrite]
      obtain ⟨n, hfile, hbuf⟩ := Writer.write_took hwrite
      exact ⟨es, more ++ group, tail ++ (held ++ encodeGroup crc group).take n,
        { acked := h.acked
          durableFits := h.durableFits
          pendingFits := hnew
          synced := h.synced
          file := by simp only [hfile, h.file, List.append_assoc]
          held := by
            obtain ⟨rest, hrest⟩ := hbuf
            refine ⟨rest, ?_⟩
            simp only [Option.getD_some, List.append_assoc]
            rw [hrest, List.take_append_drop, hall] }⟩

/-- A crash keeps the file intact: the durable records are not cut. -/
theorem Intact.crash {s : LogFile} {es pending : List Entry} {tail : Bytes}
    (h : Intact crc s es pending tail) (kept : Nat) :
    Intact crc { s with file := s.file.take (s.synced + kept), writer := none } es pending
      (tail.take kept) where
  acked := h.acked
  durableFits := h.durableFits
  pendingFits := h.pendingFits
  synced := h.synced
  file := by rw [h.file, h.synced, List.take_length_add_append]
  held := by
    rw [Option.getD_none, List.append_nil]
    exact (List.take_prefix kept tail).trans ((List.prefix_append tail _).trans h.held)

/-- A drop of the writer keeps the file intact: what is flushed continues the tail. -/
theorem Intact.close {s : LogFile} {es pending : List Entry} {tail held : Bytes}
    (h : Intact crc s es pending tail) (hheld : s.writer = some held) (flushed : Nat) :
    Intact crc { s with file := s.file ++ held.take flushed, writer := none } es pending
      (tail ++ held.take flushed) where
  acked := h.acked
  durableFits := h.durableFits
  pendingFits := h.pendingFits
  synced := h.synced
  file := by rw [h.file, List.append_assoc]
  held := by
    have hwhole := h.held
    rw [hheld, Option.getD_some] at hwhole
    rw [Option.getD_none, List.append_nil]
    exact ((List.prefix_append_right_inj tail).mpr (List.take_prefix flushed held)).trans hwhole

/-- Opening an existing log with its magic number leaves the content alone. -/
theorem openWritable_magic (r : Bytes) :
    openWritable (magicBytes ++ r) = .ok (magicBytes ++ r) := by
  have hread := (readExact_decodes magicBytes).reads r
  have hlen : magicBytes.length = 4 := length_leBytes 4 _
  have hmagic : leNat magicBytes = walMagic.toNat := leNat_leBytes_of_lt (k := 4) walMagic.toNat_lt
  have hne : (magicBytes ++ r).length ≠ 0 := by
    rw [List.length_append]
    omega
  rw [hlen] at hread
  simp only [openWritable, hne, if_false, hread, ok_bind, hmagic, ne_eq, not_true]
  rfl

/-- A recovery keeps the file intact. -/
theorem Intact.recover {s s' : LogFile} {es pending : List Entry} {tail : Bytes}
    (h : Intact crc s es pending tail) (hs : step crc s .recover = some s') :
    Intact crc s' es pending tail := by
  have hopen : openWritable s.file = .ok s.file := by
    rw [h.file, List.append_assoc]
    exact openWritable_magic _
  simp only [step, hopen] at hs
  split at hs
  · rename_i hclosed _ hfile
    simp only [Except.ok.injEq] at hfile
    cases hs
    subst hfile
    exact { acked := h.acked, durableFits := h.durableFits, pendingFits := h.pendingFits,
            synced := h.synced, file := h.file,
            held := by simpa [hclosed] using h.held }
  · cases hs

/-- One step at a boundary keeps the file intact. -/
theorem Intact.step {s s' : LogFile} {l : Label}
    (h : ∃ es pending tail, Intact crc s es pending tail) (hl : WriteAtBoundary crc s l)
    (hs : step crc s l = some s') : ∃ es pending tail, Intact crc s' es pending tail := by
  obtain ⟨es, pending, tail, h⟩ := h
  cases l with
  | write group budget =>
      simp only [WalRecovery.step] at hs
      split at hs
      · rename_i held hheld
        split at hs
        · cases hs
        · cases hs
          exact h.writeGroup hheld hl.1 hl.2
      · cases hs
  | crash kept =>
      cases hs
      exact ⟨es, pending, tail.take kept, h.crash kept⟩
  | close flushed =>
      simp only [WalRecovery.step] at hs
      split at hs
      · rename_i held hheld
        cases hs
        exact ⟨es, pending, tail ++ held.take flushed, h.close hheld flushed⟩
      · cases hs
  | recover => exact ⟨es, pending, tail, h.recover hs⟩

/-- In every run whose writes start at a record boundary, the replay of the file yields every
acknowledged entry, in order and without an error. -/
theorem acked_sublist_replay {s : LogFile}
    (h : Reach (step crc) (· = initial) (WriteAtBoundary crc) s) : Durable crc s := by
  have hintact : ∃ es pending tail, Intact crc s es pending tail :=
    h.invariant (P := fun s => ∃ es pending tail, Intact crc s es pending tail)
      (by rintro s rfl; exact ⟨[], [], [], intact_initial⟩)
      (fun _ _ _ hi hl hs => Intact.step hi hl hs)
  obtain ⟨_, _, _, hi⟩ := hintact
  exact hi.durable

/-- An entry whose record is torn after the length field of its key. -/
def longEntry : Entry := (Key.new (List.replicate 24 0) 1, .bytes [1])

/-- A short entry. -/
def shortEntry : Entry := (Key.new [107] 2, .bytes [2])

/-- A short entry that is written later. -/
def laterEntry : Entry := (Key.new [108] 3, .bytes [3])

/-- Two acknowledged writes. Behind each of them a write fails after 14 bytes, and the crashes
keep nothing and five bytes of the torn records. -/
def survivedRun : List Label :=
  [.write [shortEntry] none, .write [longEntry] (some 14), .crash 0, .recover,
    .write [laterEntry] none, .write [longEntry] (some 14), .crash 5]

set_option maxRecDepth 6000 in
/-- After `survivedRun` both acknowledged entries are replayed. -/
theorem acked_sublist_replay_survived :
    ∃ s, run (step crc32) initial survivedRun = some s ∧ s.acked = [shortEntry, laterEntry] ∧
      Durable crc32 s := by
  have hlong : ∀ e ∈ [longEntry], e.Fits := by decide
  have hshort : ∀ e ∈ [shortEntry], e.Fits := by decide
  have hlater : ∀ e ∈ [laterEntry], e.Fits := by decide
  have hboth : ∀ e ∈ [shortEntry, laterEntry], e.Fits := by decide
  refine ⟨_, rfl, rfl, acked_sublist_replay ?_⟩
  have hstart : Reach (step crc32) (· = initial) (WriteAtBoundary crc32) initial := .start rfl
  have hwrite := hstart.next (l := Label.write [shortEntry] none) ⟨⟨[], by simp, rfl⟩, hshort⟩ rfl
  have hfailed := hwrite.next (l := Label.write [longEntry] (some 14))
    ⟨⟨[shortEntry], hshort, rfl⟩, hlong⟩ rfl
  have hcrash := hfailed.next (l := Label.crash 0) trivial rfl
  have hrecover := hcrash.next (l := Label.recover) trivial rfl
  have hagain := hrecover.next (l := Label.write [laterEntry] none)
    ⟨⟨[shortEntry], hshort, rfl⟩, hlater⟩ rfl
  have htorn := hagain.next (l := Label.write [longEntry] (some 14))
    ⟨⟨[shortEntry, laterEntry], hboth, rfl⟩, hlong⟩ rfl
  exact htorn.next (l := Label.crash 5) trivial rfl

/-- A failed write leaves 14 bytes of a record, the process crashes and recovers, and the next
write is acknowledged. -/
def tornRun : List Label :=
  [.write [longEntry] (some 14), .crash 14, .recover, .write [shortEntry] none]

set_option maxRecDepth 2000 in
/-- After `tornRun` the replay yields nothing although a write was acknowledged. -/
theorem acked_lost_behind_torn_record :
    ¬ ∀ s, Reach (step crc32) (· = initial) anyStep s → Durable crc32 s := by
  intro hall
  have hrun : ∃ s, run (step crc32) initial tornRun = some s ∧
      replay crc32 s.file = .ok [] ∧ s.acked = [shortEntry] := ⟨_, rfl, rfl, rfl⟩
  obtain ⟨s, hrun, hreplay, hacked⟩ := hrun
  obtain ⟨es, hes, hsub⟩ := hall s (Reach.of_run (.start rfl) hrun)
  rw [hreplay] at hes
  cases hes
  rw [hacked] at hsub
  cases hsub

end EasyLsm.WalRecovery
