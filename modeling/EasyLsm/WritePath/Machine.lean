import Mathlib.Data.List.Basic
import Mathlib.Logic.Function.Basic
import EasyLsm.DataStores.Memtable
import EasyLsm.Lib.Transition
import EasyLsm.Updates

/-!
# The write path as a transition system

Any number of writers go through the states of `write_req.rs`, with rotations in the memtable
stage and flushes by the background thread. One step is one access to shared data (the
`WriteSyncs` lock, a completion slot, the log file, `db_current`, the memtable, the manifest
lock) together with the local work before it. A guard that is dropped at the end of a Rust scope
is a step of its own, in Rust's drop order.

A writer is named by its request. Memtables are named by numbers, and a memtable is the list of
the entries inserted into it, in order. A log file is the list of the entries appended to it, and
an open log has a `BufWriter` besides, which holds back what a failed write did not get to the
file. The unit here is the entry: a record that is only partly in the file counts as held back, and
what a torn record does to the records behind it is the subject of `DataStores/WalRecovery`.
-/

namespace EasyLsm.WritePath

open Lib

/-- A write group after it has its ticket: its requests with the entries they carry, its ticket
and `batch_start_lsn`. -/
structure Batch where
  members : List (Nat × Entry)
  ticket : Nat
  lsn : Nat

/-- An open `Wal<Writable>`: the id of its file, and the number of the memtable it was put in place
with. A file that is opened twice has two `BufWriter`s. -/
structure WalHandle where
  id : UInt32
  mem : Nat
  deriving DecidableEq

/-- `DbVersion` with memtables named by numbers, and tables as the entries they hold. -/
abbrev Version := DbVersion Nat Nat WalHandle (List Entry)

/-- The states of `Writer`. The states of a leader carry what it owns: the group, the batch, and
in the memtable stage what it has loaded. -/
inductive Phase where
  | idle
  | waitingToBeQueued
  | seekingMembership
  | formingGroup (group rest : List Nat)
  | followerWaitingCompletion
  | leaderWaitingToWriteWal (group : List Nat)
  | leaderWritingWal (group : List Nat)
  | walTicket (b : Batch)
  | walLoaded (b : Batch) (wal : WalHandle)
  | walWritten (b : Batch)
  | walFailed (b : Batch) (e : DbError)
  | ticketFailed (b : Batch) (e : DbError)
  | groupFailed (rest : List (Nat × Entry)) (e : DbError)
  | leaderWaitingToWriteMemtable (b : Batch)
  | leaderWritingMemtable (b : Batch)
  | inserting (b : Batch) (mem : Nat) (rest : List (Nat × Entry))
  | inserted (b : Batch)
  | rotateCommit (b : Batch)
  | rotateOpen (b : Batch) (newWalId : UInt32)
  | rotateLoad (b : Batch) (newWal : UInt32)
  | rotateStore (b : Batch) (newWal : UInt32) (current : Version)
  | memtableDone (b : Batch)
  | leaderFinishingWrite (b : Batch) (rest : List (Nat × Entry))
  | rotateFailed (b : Batch) (rest : List (Nat × Entry)) (e : DbError)
  | rotateFailedTicket (b : Batch) (e : DbError)
  | done (result : Except DbError Unit)

/-- `CompletionVariant`. -/
inductive Completion where
  | follower
  | success (lsn : Nat)
  deriving DecidableEq

/-- `WriteSyncs`. The tickets are `usize` in the source and do not wrap here; comparing them modulo
`2 ^ 64` makes no difference while fewer than `2 ^ 64` of them are out
(`usize_ticket_eq_iff` in `Tickets`). -/
structure WriteSyncs where
  writeQueue : List Nat
  walBusy : Bool
  ticketToMem : Nat
  nextTicket : Nat
  nextLsn : Nat

/-- Where the background flush is. -/
inductive FlushPhase where
  | idle
  | writing (memtables : List Nat) (walsToDelete : List UInt32) (written : List (List Entry))
  | committed (tables : List (List Entry))
  | loaded (tables : List (List Entry)) (current : Version)

/-- The shared data and the state of every writer. The last six fields record the run: the
requests with their entries that were appended to a log, inserted into a memtable and
acknowledged, the tickets in the order in which their holders entered the memtable stage (newest
first), the contents of the flushed tables listed in the manifest, and the leaders between the
manifest commit and the end of a rotation. -/
structure Sys where
  syncs : WriteSyncs
  request : Nat → Bytes × Value
  slot : Nat → Option (Except DbError Completion)
  phase : Nat → Phase
  current : Version
  mems : Nat → List Entry
  nextMem : Nat
  walFile : UInt32 → List Entry
  buffered : WalHandle → List (Nat × Entry)
  manifest : Manifest
  flush : FlushPhase
  appended : List (Nat × Entry)
  inserted : List (Nat × Entry)
  acked : List (Nat × Entry)
  entered : List Nat
  tables : List (List Entry)
  rotators : List Nat

/-- A memtable by its number. -/
def Sys.memtable (s : Sys) (mem : Nat) : Memtable .mutable := Memtable.new.putBatch (s.mems mem)

/-- Move a writer to another state. -/
def Sys.goto (s : Sys) (r : Nat) (p : Phase) : Sys :=
  { s with phase := Function.update s.phase r p }

/-- Set a completion slot. -/
def Sys.complete (s : Sys) (r : Nat) (result : Option (Except DbError Completion)) : Sys :=
  { s with slot := Function.update s.slot r result }

/-- The entries of a group with the LSNs from `batch_start_lsn` on. -/
def stamp (request : Nat → Bytes × Value) (lsn : Nat) : List Nat → List (Nat × Entry)
  | [] => []
  | r :: group =>
      (r, Key.new (request r).1 (UInt64.ofNat lsn), (request r).2) :: stamp request (lsn + 1) group

/-- The LSNs of a stamped group. -/
theorem lsn_of_mem_stamp {request : Nat → Bytes × Value} {lsn : Nat} {group : List Nat}
    (hroom : lsn + group.length ≤ 2 ^ 64) {m : Nat × Entry} (hm : m ∈ stamp request lsn group) :
    lsn ≤ m.2.1.lsn.toNat ∧ m.2.1.lsn.toNat < lsn + group.length := by
  induction group generalizing lsn with
  | nil => exact absurd hm List.not_mem_nil
  | cons q group ih =>
      rw [List.length_cons] at hroom ⊢
      rcases List.mem_cons.mp hm with rfl | hm
      · have hfits : lsn < 2 ^ 64 := by omega
        have hlsn : (UInt64.ofNat lsn).toNat = lsn := UInt64.toNat_ofNat_of_lt' hfits
        simp only [Key.new, hlsn]
        omega
      · have hrest := ih (by omega) hm
        omega

/-- The LSNs of a stamped group increase. -/
theorem stamp_increasing {request : Nat → Bytes × Value} {lsn : Nat} {group : List Nat}
    (hroom : lsn + group.length ≤ 2 ^ 64) :
    (stamp request lsn group).Pairwise fun m n => m.2.1.lsn < n.2.1.lsn := by
  induction group generalizing lsn with
  | nil => exact List.Pairwise.nil
  | cons q group ih =>
      rw [List.length_cons] at hroom
      refine List.pairwise_cons.mpr ⟨fun m hm => ?_, ih (by omega)⟩
      have hfits : lsn < 2 ^ 64 := by omega
      have hlsn : (UInt64.ofNat lsn).toNat = lsn := UInt64.toNat_ofNat_of_lt' hfits
      have hrest := lsn_of_mem_stamp (by omega) hm
      refine UInt64.lt_iff_toNat_lt.mpr ?_
      simp only [Key.new, hlsn]
      omega

/-- How a `Wal::write` fails: of the entries that the `BufWriter` held back and those of the group
behind them, the first `written` ones get to the file, and of the others the `BufWriter` holds back
the first `kept` ones. -/
structure WalFault where
  written : Nat
  kept : Nat
  kind : ErrorKind

/-- Append the entries of requests to the file of a log, whose `BufWriter` then holds back
`kept`. -/
def Sys.appendWal (s : Sys) (wal : WalHandle) (members kept : List (Nat × Entry)) : Sys :=
  { s with
    walFile := Function.update s.walFile wal.id (s.walFile wal.id ++ members.map Prod.snd)
    buffered := Function.update s.buffered wal kept
    appended := s.appended ++ members }

/-- Insert the entry of a request into a memtable. -/
def Sys.insertEntry (s : Sys) (mem : Nat) (m : Nat × Entry) : Sys :=
  { s with
    mems := Function.update s.mems mem (s.mems mem ++ [m.2])
    inserted := s.inserted ++ [m] }

/-- Tell a member of a group that its write has succeeded. -/
def Sys.acknowledge (s : Sys) (m : Nat × Entry) (lsn : Nat) : Sys :=
  { s with acked := m :: s.acked }.complete m.1 (some (.ok (.success lsn)))

/-- `TicketGuard::drop`. -/
def Sys.dropTicketGuard (s : Sys) : Sys :=
  { s with syncs := { s.syncs with ticketToMem := s.syncs.ticketToMem + 1 } }

/-- `WalGuard::drop`. -/
def Sys.dropWalGuard (s : Sys) : Sys :=
  { s with syncs := { s.syncs with walBusy := false } }

/-- The steps of the writers and of the flush. A parameter says how an I/O call ends. `dropWal` is
the end of a log that was replaced: its `BufWriter` writes what it holds back when it is dropped,
and the first `written` entries get to the file. -/
inductive Label where
  | put (r : Nat) (bytes : Bytes) (value : Value)
  | queue (r : Nat)
  | checkCompletion (r : Nat)
  | checkFront (r : Nat)
  | markFollower (r : Nat)
  | acquireWal (r : Nat)
  | takeTicket (r : Nat)
  | loadWal (r : Nat)
  | writeWal (r : Nat) (fault : Option WalFault)
  | dropWalGuard (r : Nat)
  | dropWal (wal : WalHandle) (written : Nat)
  | enterMemtable (r : Nat)
  | loadMemtable (r : Nat)
  | insert (r : Nat)
  | checkSize (r : Nat)
  | commitRotation (r : Nat) (fault : Option DbError)
  | openRotation (r : Nat) (fault : Option DbError)
  | loadRotation (r : Nat)
  | storeRotation (r : Nat)
  | dropTicketGuard (r : Nat)
  | dropGroupGuard (r : Nat)
  | flushStart
  | flushWrite
  | flushCommit (newSstables : List FileMetadata)
  | flushLoad
  | flushStore
  | flushFail

variable (maxMemtableSize : Nat)

/-- The steps of one writer up to the log. -/
def stepQueue (s : Sys) : Label → Option Sys
  | .put r bytes value =>
      match s.phase r with
      | .idle =>
          some ({ s with request := Function.update s.request r (bytes, value) }.goto r
            .waitingToBeQueued)
      | _ => none
  | .queue r =>
      match s.phase r with
      | .waitingToBeQueued =>
          some ({ s with syncs := { s.syncs with
            writeQueue := s.syncs.writeQueue ++ [r] } }.goto r .seekingMembership)
      | _ => none
  | .checkCompletion r =>
      match s.phase r, s.slot r with
      | .seekingMembership, some (.ok .follower) =>
          some ((s.complete r none).goto r .followerWaitingCompletion)
      | .seekingMembership, some (.ok (.success _)) =>
          some ((s.complete r none).goto r (.done (.ok ())))
      | .seekingMembership, some (.error e) =>
          some ((s.complete r none).goto r (.done (.error e)))
      | .followerWaitingCompletion, some (.ok .follower) => some (s.complete r none)
      | .followerWaitingCompletion, some (.ok (.success _)) =>
          some ((s.complete r none).goto r (.done (.ok ())))
      | .followerWaitingCompletion, some (.error e) =>
          some ((s.complete r none).goto r (.done (.error e)))
      | _, _ => none
  | .checkFront r =>
      match s.phase r, s.syncs.writeQueue with
      | .seekingMembership, front :: rest =>
          if front = r then
            some ({ s with syncs := { s.syncs with writeQueue := [] } }.goto r
              (.formingGroup (front :: rest) (front :: rest)))
          else none
      | _, _ => none
  | .markFollower r =>
      match s.phase r with
      | .formingGroup group [] => some (s.goto r (.leaderWaitingToWriteWal group))
      | .formingGroup group (q :: rest) =>
          some ((s.complete q (some (.ok .follower))).goto r (.formingGroup group rest))
      | _ => none
  | _ => none

/-- The steps of a leader in the log stage, and the end of a log. -/
def stepWal (s : Sys) : Label → Option Sys
  | .acquireWal r =>
      match s.phase r with
      | .leaderWaitingToWriteWal group =>
          if s.syncs.walBusy then none
          else some ({ s with syncs := { s.syncs with walBusy := true } }.goto r
            (.leaderWritingWal group))
      | _ => none
  | .takeTicket r =>
      match s.phase r with
      | .leaderWritingWal group =>
          some ({ s with syncs := { s.syncs with
              nextTicket := s.syncs.nextTicket + 1
              nextLsn := s.syncs.nextLsn + group.length } }.goto r
            (.walTicket ⟨stamp s.request s.syncs.nextLsn group, s.syncs.nextTicket,
              s.syncs.nextLsn⟩))
      | _ => none
  | .loadWal r =>
      match s.phase r with
      | .walTicket b => some (s.goto r (.walLoaded b s.current.mutableWal))
      | _ => none
  | .writeWal r fault =>
      match s.phase r with
      | .walLoaded b wal =>
          -- what the `BufWriter` holds back goes to the file first
          let bytes := s.buffered wal ++ b.members
          match fault with
          | none => some ((s.appendWal wal bytes []).goto r (.walWritten b))
          | some ⟨written, kept, kind⟩ =>
              some ((s.appendWal wal (bytes.take written) ((bytes.drop written).take kept)).goto r
                (.walFailed b (.io kind)))
      | _ => none
  | .dropWalGuard r =>
      match s.phase r with
      | .walWritten b => some (s.dropWalGuard.goto r (.leaderWaitingToWriteMemtable b))
      | .walFailed b e => some (s.dropWalGuard.goto r (.ticketFailed b e))
      | _ => none
  | .dropWal wal written =>
      if s.current.mutableWal = wal then none
      else some (s.appendWal wal ((s.buffered wal).take written) [])
  | _ => none

/-- The steps of a leader in the memtable stage. -/
def stepMemtable (s : Sys) : Label → Option Sys
  | .enterMemtable r =>
      match s.phase r with
      | .leaderWaitingToWriteMemtable b =>
          if s.syncs.ticketToMem = b.ticket then
            some ({ s with entered := b.ticket :: s.entered }.goto r (.leaderWritingMemtable b))
          else none
      | _ => none
  | .loadMemtable r =>
      match s.phase r with
      | .leaderWritingMemtable b =>
          some (s.goto r (.inserting b s.current.mutableMemtable b.members))
      | _ => none
  | .insert r =>
      match s.phase r with
      | .inserting b mem (m :: rest) =>
          some ((s.insertEntry mem m).goto r (.inserting b mem rest))
      | .inserting b _ [] => some (s.goto r (.inserted b))
      | _ => none
  | .checkSize r =>
      match s.phase r with
      | .inserted b =>
          if maxMemtableSize ≤ (s.memtable s.current.mutableMemtable).size then
            some (s.goto r (.rotateCommit b))
          else some (s.goto r (.memtableDone b))
      | _ => none
  | .dropTicketGuard r =>
      match s.phase r with
      | .memtableDone b => some (s.dropTicketGuard.goto r (.leaderFinishingWrite b b.members))
      | .ticketFailed b e => some (s.dropTicketGuard.goto r (.groupFailed b.members e))
      | .rotateFailedTicket _ e => some (s.dropTicketGuard.goto r (.done (.error e)))
      | _ => none
  | .dropGroupGuard r =>
      match s.phase r with
      | .leaderFinishingWrite b (m :: rest) =>
          some ((s.acknowledge m b.lsn).goto r (.leaderFinishingWrite b rest))
      | .leaderFinishingWrite _ [] => some (s.goto r (.done (.ok ())))
      | .groupFailed (m :: rest) e =>
          some ((s.complete m.1 (some (.error .writerPanic))).goto r (.groupFailed rest e))
      | .groupFailed [] e => some (s.goto r (.done (.error e)))
      | .rotateFailed b (m :: rest) e =>
          -- `committed_lsn` is already set, so the members are told that they succeeded
          some ((s.acknowledge m b.lsn).goto r (.rotateFailed b rest e))
      | .rotateFailed b [] e => some (s.goto r (.rotateFailedTicket b e))
      | _ => none
  | _ => none

/-- The steps of `rotate_memtable`. -/
def stepRotate (s : Sys) : Label → Option Sys
  | .commitRotation r fault =>
      match s.phase r, fault with
      | .rotateCommit b, some e => some (s.goto r (.rotateFailed b b.members e))
      | .rotateCommit b, none =>
          match rotateMutator s.manifest with
          | .error e => some (s.goto r (.rotateFailed b b.members e))
          | .ok m =>
              match m.wals.getLast? with
              | none =>
                  some (s.goto r (.rotateFailed b b.members
                    (.dataCorrupted "No WALs after rotation")))
              | some newWalId =>
                  some ({ s with
                    manifest := { m with version := m.version + 1 }
                    rotators := r :: s.rotators }.goto r (.rotateOpen b newWalId))
      | _, _ => none
  | .openRotation r fault =>
      match s.phase r, fault with
      | .rotateOpen b newWalId, none => some (s.goto r (.rotateLoad b newWalId))
      | .rotateOpen b _, some e =>
          some ({ s with rotators := s.rotators.erase r }.goto r (.rotateFailed b b.members e))
      | _, _ => none
  | .loadRotation r =>
      match s.phase r with
      | .rotateLoad b newWal => some (s.goto r (.rotateStore b newWal s.current))
      | _ => none
  | .storeRotation r =>
      match s.phase r with
      | .rotateStore b newWal current =>
          some ({ s with
            current := rotateVersion id s.nextMem ⟨newWal, s.nextMem⟩ current
            mems := Function.update s.mems s.nextMem []
            nextMem := s.nextMem + 1
            rotators := s.rotators.erase r }.goto r (.memtableDone b))
      | _ => none
  | _ => none

/-- The steps of `flush_memtables`. -/
def stepFlush (s : Sys) : Label → Option Sys
  | .flushStart =>
      match s.flush with
      | .idle =>
          let memtables := s.current.frozenMemtables
          let walsToDelete := s.manifest.wals.take memtables.length
          if memtables = [] then none
          else if walsToDelete.length ≠ memtables.length then none
          else some { s with flush := .writing memtables walsToDelete [] }
      | _ => none
  | .flushWrite =>
      match s.flush with
      | .writing memtables walsToDelete written =>
          match memtables[written.length]? with
          | some mem =>
              let table := (s.memtable mem).freezeFromRef.iter
              some { s with flush := .writing memtables walsToDelete (written ++ [table]) }
          | none => none
      | _ => none
  | .flushCommit newSstables =>
      match s.flush with
      | .writing memtables walsToDelete written =>
          if written.length ≠ memtables.length ∨ newSstables.length ≠ memtables.length then none
          else
            match flushMutator newSstables walsToDelete s.manifest with
            | .error _ => some { s with flush := .idle }
            | .ok m =>
                some { s with
                  manifest := { m with version := m.version + 1 }
                  tables := s.tables ++ written
                  flush := .committed written }
      | _ => none
  | .flushLoad =>
      match s.flush with
      | .committed tables => some { s with flush := .loaded tables s.current }
      | _ => none
  | .flushStore =>
      match s.flush with
      | .loaded tables current =>
          some { s with current := flushVersion tables.length tables current, flush := .idle }
      | _ => none
  | .flushFail =>
      match s.flush with
      | .writing _ _ _ => some { s with flush := .idle }
      | _ => none
  | _ => none

/-- One step of the system. -/
def step (s : Sys) (l : Label) : Option Sys :=
  match l with
  | .put .. | .queue .. | .checkCompletion .. | .checkFront .. | .markFollower .. => stepQueue s l
  | .acquireWal .. | .takeTicket .. | .loadWal .. | .writeWal .. | .dropWalGuard ..
  | .dropWal .. => stepWal s l
  | .enterMemtable .. | .loadMemtable .. | .insert .. | .checkSize .. | .dropTicketGuard ..
  | .dropGroupGuard .. => stepMemtable maxMemtableSize s l
  | .commitRotation .. | .openRotation .. | .loadRotation .. | .storeRotation .. => stepRotate s l
  | .flushStart | .flushWrite | .flushCommit .. | .flushLoad | .flushStore | .flushFail =>
      stepFlush s l

/-- A step is one of the five kinds. -/
theorem step_cases {maxMemtableSize : Nat} {s s' : Sys} {l : Label}
    (hs : step maxMemtableSize s l = some s') :
    stepQueue s l = some s' ∨ stepWal s l = some s' ∨
      stepMemtable maxMemtableSize s l = some s' ∨ stepRotate s l = some s' ∨
      stepFlush s l = some s' := by
  cases l with
  | put | queue | checkCompletion | checkFront | markFollower => exact .inl hs
  | acquireWal | takeTicket | loadWal | writeWal | dropWalGuard | dropWal => exact .inr (.inl hs)
  | enterMemtable | loadMemtable | insert | checkSize | dropTicketGuard | dropGroupGuard =>
      exact .inr (.inr (.inl hs))
  | commitRotation | openRotation | loadRotation | storeRotation =>
      exact .inr (.inr (.inr (.inl hs)))
  | flushStart | flushWrite | flushCommit | flushLoad | flushStore | flushFail =>
      exact .inr (.inr (.inr (.inr hs)))

/-- The writer a step moves. -/
def Label.writer : Label → Option Nat
  | .put r _ _ | .queue r | .checkCompletion r | .checkFront r | .markFollower r
  | .acquireWal r | .takeTicket r | .loadWal r | .writeWal r _ | .dropWalGuard r
  | .enterMemtable r | .loadMemtable r | .insert r | .checkSize r
  | .commitRotation r _ | .openRotation r _ | .loadRotation r | .storeRotation r
  | .dropTicketGuard r | .dropGroupGuard r => some r
  | .dropWal _ _ | .flushStart | .flushWrite | .flushCommit _ | .flushLoad | .flushStore
  | .flushFail => none

/-- A step leaves the other writers where they are. -/
theorem phase_of_writer_ne {maxMemtableSize : Nat} {s s' : Sys} {l : Label} {q : Nat}
    (hs : step maxMemtableSize s l = some s') (hq : l.writer ≠ some q) :
    s'.phase q = s.phase q := by
  have hmove : ∀ (t : Sys) (r : Nat) (p : Phase), some r ≠ some q → (t.goto r p).phase q =
      t.phase q := fun t r p hr => Function.update_of_ne (fun h => hr (congrArg some h.symm)) _ _
  cases l <;> simp only [step, stepQueue, stepWal, stepMemtable, stepRotate, stepFlush] at hs <;>
    repeat' split at hs
  all_goals cases hs
  all_goals first | rfl | exact hmove _ _ _ hq

/-- A run leaves a writer that takes no part in it where it is. -/
theorem phase_of_run {maxMemtableSize : Nat} {s s' : Sys} {ls : List Label} {q : Nat}
    (hrun : run (step maxMemtableSize) s ls = some s') (hq : ∀ l ∈ ls, l.writer ≠ some q) :
    s'.phase q = s.phase q := by
  induction ls generalizing s with
  | nil => cases hrun; rfl
  | cons l ls ih =>
      simp only [run, Option.bind_eq_some_iff] at hrun
      obtain ⟨mid, hmid, hrest⟩ := hrun
      rw [ih hrest (fun m hm => hq m (List.mem_cons_of_mem l hm)),
        phase_of_writer_ne hmid (hq l List.mem_cons_self)]

/-- A state in which no write, rotation or flush is running: no tickets are out, every frozen
memtable and the mutable one has its own listed log, and what a memtable holds is in its log. -/
structure Start (s : Sys) : Prop where
  queue : s.syncs.writeQueue = []
  walFree : s.syncs.walBusy = false
  noTicket : s.syncs.ticketToMem = 0 ∧ s.syncs.nextTicket = 0
  phase : ∀ r, s.phase r = .idle
  slot : ∀ r, s.slot r = none
  flush : s.flush = .idle
  recorded : s.inserted = [] ∧ s.acked = [] ∧ s.entered = [] ∧ s.rotators = []
  aligned : s.manifest.wals.length = s.current.frozenMemtables.length + 1
  mutableWal : s.manifest.wals.getLast? = some s.current.mutableWal.id
  covered : ∀ (i mem : Nat) (wal : UInt32),
    (s.current.frozenMemtables ++ [s.current.mutableMemtable])[i]? = some mem →
    s.manifest.wals[i]? = some wal → ∀ e ∈ s.mems mem, e ∈ s.walFile wal
  distinct : (s.current.frozenMemtables ++ [s.current.mutableMemtable]).Nodup
  allocated : ∀ mem ∈ s.current.frozenMemtables ++ [s.current.mutableMemtable], mem < s.nextMem

/-- A new database. -/
def pristine : Sys where
  syncs := ⟨[], false, 0, 0, 1⟩
  request _ := ([], .tombstone)
  slot _ := none
  phase _ := .idle
  current := ⟨1, 0, [], ⟨0, 0⟩, []⟩
  mems _ := []
  nextMem := 1
  walFile _ := []
  buffered _ := []
  manifest := Manifest.new 0
  flush := .idle
  appended := []
  inserted := []
  acked := []
  entered := []
  tables := []
  rotators := []

theorem start_pristine : Start pristine where
  queue := rfl
  walFree := rfl
  noTicket := ⟨rfl, rfl⟩
  phase _ := rfl
  slot _ := rfl
  flush := rfl
  recorded := ⟨rfl, rfl, rfl, rfl⟩
  aligned := rfl
  mutableWal := rfl
  covered _ _ _ _ _ _ he := absurd he List.not_mem_nil
  distinct := List.nodup_singleton 0
  allocated mem h := by
    cases List.mem_singleton.mp h
    exact Nat.zero_lt_one

end EasyLsm.WritePath
