import Mathlib.Data.List.Basic
import EasyLsm.DataStores.Decoded
import EasyLsm.Db.Atomic

/-!
# Accepted writes

A `put` that returns `Ok` has appended the record of its entry to the log, behind what the buffer
of the log still held back, and inserted the entry into the memtable (`inserted`). It does not look
at the lengths of the key and of the value, which the record keeps in 16 and 32 bits, so what it
has accepted is read back only when they are representable (`put_readable_iff`).
-/

namespace EasyLsm.Db

open Lib Lib.FileStore

variable {env : Env} {w w' : World}

/-- The bytes that the log file takes when a record is written to it. -/
def World.pendingBytes (env : Env) (w : World) (e : Entry) : Bytes :=
  w.current.mutableWal.buf ++ Wal.encodeEntry env.crates.crc32 e

/-- The state after an entry was written to the log and inserted into the memtable. -/
def inserted (env : Env) (w : World) (e : Entry) : World where
  dir := w.dir.append w.current.mutableWal.inode (w.pendingBytes env e)
  faults := w.faults.tail
  trace := w.trace ++ appendSteps w.dir w.current.mutableWal.inode (w.pendingBytes env e)
  manifest := w.manifest
  current := { w.current with
    mutableMemtable := w.current.mutableMemtable.recover e.1 e.2
    mutableWal := { w.current.mutableWal with buf := [] } }
  nextLsn := w.nextLsn + 1

/-- With a budget the last call, `sync_all`, fails. -/
theorem budget_of_write_ok {file buf bytes : Bytes} {budget : Option Nat} {writer : Wal.Writer}
    (h : Wal.Writer.write ⟨file, buf, budget⟩ bytes = (.ok (), writer)) : budget = none := by
  have hfile : ∀ (v : Wal.Writer) (bs : Bytes),
      (v.toFile bs).2.2.budget.isSome = v.budget.isSome := by
    intro v bs
    unfold Wal.Writer.toFile
    split
    · rfl
    · rename_i n hbudget
      split <;> rw [hbudget] <;> rfl
  have hflush : ∀ v : Wal.Writer, (v.flushBuf).2.budget.isSome = v.budget.isSome :=
    fun v => hfile v v.buf
  have hroom : ∀ (v : Wal.Writer) (bs : Bytes),
      (v.makeRoom bs).2.budget.isSome = v.budget.isSome := by
    intro v bs
    unfold Wal.Writer.makeRoom
    split
    · exact hflush v
    · rfl
  have hall : ∀ (v : Wal.Writer) (bs : Bytes),
      (v.writeAll bs).2.budget.isSome = v.budget.isSome := by
    intro v bs
    have hmade := hroom v bs
    unfold Wal.Writer.writeAll
    split
    · rfl
    · split
      · rename_i hrun
        rw [hrun] at hmade
        exact hmade
      · rename_i mid hrun
        rw [hrun] at hmade
        split
        · exact (hfile mid bs).trans hmade
        · exact hmade
  have hwritten := hall ⟨file, buf, budget⟩ bytes
  unfold Wal.Writer.write at h
  split at h
  · cases h
  · rename_i mid hrun
    rw [hrun] at hwritten
    have hflushed := hflush mid
    split at h
    · cases h
    · rename_i last hlast
      rw [hlast] at hflushed
      have hsync := congrArg Prod.fst h
      unfold Wal.Writer.syncAll at hsync
      split at hsync
      · rename_i hnone
        rw [← hflushed, hnone] at hwritten
        exact Option.isSome_eq_false_iff.mp hwritten.symm |> Option.isNone_iff_eq_none.mp
      · cases hsync

/-- Without a budget a write succeeds. -/
theorem write_of_none (file buf bytes : Bytes) :
    ∃ writer, Wal.Writer.write ⟨file, buf, none⟩ bytes = (.ok (), writer) := by
  have hall : ∃ file' buf', Wal.Writer.writeAll ⟨file, buf, none⟩ bytes =
      (.ok (), ⟨file', buf', none⟩) := by
    unfold Wal.Writer.writeAll Wal.Writer.makeRoom
    by_cases hroom : Wal.bufCapacity - buf.length < bytes.length
    · simp only [hroom, if_true, Wal.Writer.flushBuf, Wal.Writer.toFile]
      split
      · exact ⟨_, _, rfl⟩
      · split <;> exact ⟨_, _, rfl⟩
    · simp only [hroom, if_false, Wal.Writer.toFile]
      split
      · exact ⟨_, _, rfl⟩
      · split <;> exact ⟨_, _, rfl⟩
  obtain ⟨file', buf', hall⟩ := hall
  unfold Wal.Writer.write
  rw [hall]
  exact ⟨_, rfl⟩

/-- A write to the log that succeeds has no fault and leaves nothing in the buffer. -/
theorem walWrite_ok {wal : WalHandle} {bytes : Bytes} (h : wal.write bytes w = (.ok (), w')) :
    w.faults.headD none = none ∧ w' = { w with
      faults := w.faults.tail
      dir := w.dir.append wal.inode (wal.buf ++ bytes)
      trace := w.trace ++ appendSteps w.dir wal.inode (wal.buf ++ bytes)
      current := { w.current with mutableWal := { wal with buf := [] } } } := by
  unfold WalHandle.write at h
  simp only [Prog.bind_apply, nextFault_run, Prog.read] at h
  rcases hwrite : Wal.Writer.write ⟨w.dir.content wal.inode, wal.buf,
    (w.faults.headD none).map Fault.taken⟩ bytes with ⟨res, writer⟩
  simp only [hwrite, through, Prog.modify, Prog.ofExcept, Prod.mk.injEq] at h
  obtain ⟨rfl, rfl⟩ := h
  obtain ⟨hfile, hbuf⟩ := Wal.Writer.write_ok hwrite
  simp only at hfile
  rw [hfile, hbuf, List.drop_left, getLastD_appendSteps]
  refine ⟨?_, rfl⟩
  exact Option.map_eq_none_iff.mp (budget_of_write_ok hwrite)

/-- A write that succeeds has inserted its entry, and then rotated a full memtable. -/
theorem write_ok {key : Key} {val : Value} (h : write env key val w = (.ok (), w')) :
    let w₁ := inserted env w (key.updateLsn w.nextLsn, val)
    if env.maxMemtableSize ≤ w₁.current.mutableMemtable.size then
      rotateMemtable env w₁ = (.ok (), w')
    else w' = w₁ := by
  intro w₁
  change (w.current.mutableWal.write (Wal.encodeEntry env.crates.crc32
    (key.updateLsn w.nextLsn, val)) >>= fun _ => writeMemtable (key.updateLsn w.nextLsn, val) >>=
      fun _ => Prog.read (fun w => w.current.mutableMemtable.size) >>= fun size =>
        if env.maxMemtableSize ≤ size then rotateMemtable env else pure ())
    { w with nextLsn := w.nextLsn + 1 } = _ at h
  obtain ⟨_, w₂, hwrite, h⟩ := Prog.bind_eq_ok.mp h
  obtain ⟨_, rfl⟩ := walWrite_ok hwrite
  change (if env.maxMemtableSize ≤ w₁.current.mutableMemtable.size then rotateMemtable env
    else pure ()) w₁ = _ at h
  split at h
  · rename_i hfull
    rwa [if_pos hfull]
  · rename_i hroom
    rw [if_neg hroom]
    exact (congrArg Prod.snd h).symm

/-- A write without a fault inserts its entry, and then rotates a full memtable. -/
theorem write_run (env : Env) (key : Key) (val : Value) (hfault : w.faults.headD none = none) :
    let w₁ := inserted env w (key.updateLsn w.nextLsn, val)
    write env key val w = if env.maxMemtableSize ≤ w₁.current.mutableMemtable.size then
      rotateMemtable env w₁ else (.ok (), w₁) := by
  intro w₁
  have hwal : (w.current.mutableWal.write (Wal.encodeEntry env.crates.crc32
      (key.updateLsn w.nextLsn, val)) { w with nextLsn := w.nextLsn + 1 }).1 = .ok () := by
    unfold WalHandle.write
    simp only [Prog.bind_apply, nextFault_run, Prog.read, hfault, Option.map_none]
    obtain ⟨writer, hwriter⟩ := write_of_none (w.dir.content w.current.mutableWal.inode)
      w.current.mutableWal.buf (Wal.encodeEntry env.crates.crc32 (key.updateLsn w.nextLsn, val))
    simp only [hwriter]
    rfl
  rcases hwrite : w.current.mutableWal.write (Wal.encodeEntry env.crates.crc32
    (key.updateLsn w.nextLsn, val)) { w with nextLsn := w.nextLsn + 1 } with ⟨res, w₂⟩
  rw [hwrite] at hwal
  cases hwal
  show (w.current.mutableWal.write (Wal.encodeEntry env.crates.crc32
    (key.updateLsn w.nextLsn, val)) >>= fun _ => writeMemtable (key.updateLsn w.nextLsn, val) >>=
      fun _ => Prog.read (fun w => w.current.mutableMemtable.size) >>= fun size =>
        if env.maxMemtableSize ≤ size then rotateMemtable env else pure ())
    { w with nextLsn := w.nextLsn + 1 } = _
  rw [Prog.bind_apply, hwrite]
  obtain ⟨_, rfl⟩ := walWrite_ok hwrite
  show (if env.maxMemtableSize ≤ w₁.current.mutableMemtable.size then rotateMemtable env
    else pure ()) w₁ = _
  split <;> rfl

/-- A write without a fault that leaves room in the memtable succeeds. -/
theorem write_inserted {key : Key} {val : Value} (hfault : w.faults.headD none = none)
    (hroom : (inserted env w (key.updateLsn w.nextLsn, val)).current.mutableMemtable.size <
      env.maxMemtableSize) :
    write env key val w = (.ok (), inserted env w (key.updateLsn w.nextLsn, val)) := by
  rw [write_run env key val hfault, if_neg (Nat.not_le.mpr hroom)]

/-- What a `put` has accepted is in the log: some directory on the way has the record at the end of
the log file. -/
theorem put_appended {key : Bytes} {val : Value} (h : put env key val w = (.ok (), w')) :
    ∃ d ∈ w'.trace, d.content w.current.mutableWal.inode =
      w.dir.content w.current.mutableWal.inode ++ w.pendingBytes env
        (Key.new key w.nextLsn, val) := by
  let w₁ := inserted env w (Key.new key w.nextLsn, val)
  have hmem : w₁.dir ∈ w₁.trace := by
    refine List.mem_append_right _ (List.mem_map.mpr ⟨(w.pendingBytes env
      (Key.new key w.nextLsn, val)).length, List.mem_range.mpr (Nat.lt_succ_self _), ?_⟩)
    rw [List.take_length]
    rfl
  have hcontent : w₁.dir.content w.current.mutableWal.inode =
      w.dir.content w.current.mutableWal.inode ++
        w.pendingBytes env (Key.new key w.nextLsn, val) := content_setContent_self _ _ _
  have hwrite := write_ok h
  simp only at hwrite
  split at hwrite
  · have hrotated :=
      ((@rotateMemtable_spec env (fun _ => False) _ (by simp) (by simp)).ok rfl hwrite).1
    obtain ⟨w₂, w₃, newWal, faults, hquiet, _, hcommitted, _, _, _, rfl⟩ :=
      (hrotated.switched rfl).steps
    obtain ⟨dirs, htrace, _⟩ := hquiet.trace
    obtain ⟨w₄, hquiet', _, _, htrace'⟩ := hcommitted.rename
    obtain ⟨dirs', htrace'', _⟩ := hquiet'.trace
    refine ⟨w₁.dir, ?_, hcontent⟩
    show w₁.dir ∈ w₃.trace
    rw [htrace', htrace'', htrace]
    exact List.mem_append_left _ (List.mem_append_left _ (List.mem_append_left _ hmem))
  · rw [hwrite]
    exact ⟨w₁.dir, hmem, hcontent⟩

/-- The record of an accepted write is read back, with what follows it left to be read, exactly when
the length fields of the log can represent the key and the value. -/
theorem put_readable_iff (env : Env) (key : Bytes) (val : Value) (w w' : World)
    (h : put env key val w = (.ok (), w')) :
    let e : Entry := (Key.new key w.nextLsn, val)
    (∃ d ∈ w'.trace, d.content w.current.mutableWal.inode =
      w.dir.content w.current.mutableWal.inode ++ w.pendingBytes env e) ∧
    ((∀ rest, Wal.next env.crates.crc32 (Wal.encodeEntry env.crates.crc32 e ++ rest) =
        some (.ok (e, rest))) ↔ key.length < 2 ^ 16 ∧ val.payload.length < 2 ^ 32) :=
  ⟨put_appended h, Wal.next_encodeEntry_iff _⟩

theorem put_readable_iff_short :
    let env : Env := ⟨crates, "db", 4194304⟩
    let e : Entry := (Key.new [97] 1, .bytes [1])
    (∃ d ∈ (inserted env (pristine env) e).trace, d.content 0 =
      (pristine env).dir.content 0 ++ (pristine env).pendingBytes env e) ∧
    ((∀ rest, Wal.next crc32 (Wal.encodeEntry crc32 e ++ rest) = some (.ok (e, rest))) ↔
      [97].length < 2 ^ 16 ∧ (Value.bytes [1]).payload.length < 2 ^ 32) :=
  put_readable_iff ⟨crates, "db", 4194304⟩ [97] (.bytes [1]) (pristine ⟨crates, "db", 4194304⟩) _
    (write_inserted rfl (by decide))

/-- A key of 65536 bytes is accepted, and its record is not read back. -/
theorem put_long_key_unreadable : ¬ ∀ (env : Env) (key : Bytes) (val : Value) (w w' : World),
    put env key val w = (.ok (), w') →
    let e : Entry := (Key.new key w.nextLsn, val)
    ∀ rest, Wal.next env.crates.crc32 (Wal.encodeEntry env.crates.crc32 e ++ rest) =
      some (.ok (e, rest)) := by
  intro hall
  let env : Env := ⟨crates, "db", 4194304⟩
  obtain ⟨key, hlen⟩ : ∃ key : Bytes, key.length = 65536 :=
    ⟨List.replicate 65536 97, List.length_replicate⟩
  have hroom :
    (inserted env (pristine env) (Key.new key 1, .bytes [])).current.mutableMemtable.size <
      env.maxMemtableSize := by
    show 0 + (10 + key.length + 5 + 0) < 4194304
    omega
  have hput : put env key (.bytes []) (pristine env) = (.ok (), _) := write_inserted rfl hroom
  have hfits := (Wal.next_eq_ok (hall env key _ _ _ hput [])).1
  have hshort : key.length < 2 ^ 16 := hfits
  omega

end EasyLsm.Db
