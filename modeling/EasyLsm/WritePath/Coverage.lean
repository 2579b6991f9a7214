import Mathlib.Data.List.Basic
import EasyLsm.WritePath.Machine

/-!
# Every memtable is covered by its own log

The log stage and the memtable stage load `db_current` on their own, and a rotation replaces
both the log and the memtable. `covered_of_undisturbed` says that the entries of every memtable
are in the log at its position of `manifest.wals`, and that no acknowledged write loses its last
durable copy, in every run in which

* a rotation publishes its version when no other leader is between the load of its log and the
  end of its inserts,
* a rotation or a flush stores a version built from the current one, and
* a rotation does not fail after its manifest commit.
-/

namespace EasyLsm.WritePath

open Lib

/-- The frozen memtables, oldest first, and then the mutable one. -/
def Sys.memtables (s : Sys) : List Nat :=
  s.current.frozenMemtables ++ [s.current.mutableMemtable]

/-- The entries a memtable holds. -/
def Sys.held (s : Sys) (mem : Nat) : List Entry := (s.memtable mem).store.entries

/-- The leader is between the manifest commit of its rotation and the end of the rotation. -/
def Phase.rotating : Phase → Prop
  | .rotateOpen _ _ | .rotateLoad _ _ | .rotateStore _ _ _ => True
  | _ => False

instance : DecidablePred Phase.rotating
  | .rotateOpen _ _ | .rotateLoad _ _ | .rotateStore _ _ _ => .isTrue trivial
  | .idle | .waitingToBeQueued | .seekingMembership | .formingGroup _ _
  | .followerWaitingCompletion | .leaderWaitingToWriteWal _ | .leaderWritingWal _ | .walTicket _
  | .walLoaded _ _ | .walWritten _ | .walFailed _ _ | .ticketFailed _ _ | .groupFailed _ _
  | .leaderWaitingToWriteMemtable _ | .leaderWritingMemtable _ | .inserting _ _ _ | .inserted _
  | .rotateCommit _ | .memtableDone _ | .leaderFinishingWrite _ _ | .rotateFailed _ _ _
  | .rotateFailedTicket _ _ | .done _ => .isFalse id

/-- The leader is between the load of its log and the end of its inserts. -/
def Phase.betweenLoads : Phase → Prop
  | .walLoaded _ _ | .walWritten _ | .leaderWaitingToWriteMemtable _
  | .leaderWritingMemtable _ | .inserting _ _ _ => True
  | _ => False

/-- How many memtables have their table listed in the manifest and are still in the version. -/
def FlushPhase.flushed : FlushPhase → Nat
  | .committed tables | .loaded tables _ => tables.length
  | _ => 0

/-- No rotation and no flush is between its manifest commit and its store. -/
def Quiet (s : Sys) : Prop := (∀ r, ¬ (s.phase r).rotating) ∧ s.flush.flushed = 0

/-- When no rotation and no flush is being published, every entry of the mutable memtable is in
the last listed log and every entry of a frozen memtable in the log at its position. In every
state, an acknowledged entry is in a listed log or in a flushed table. -/
structure Covered (s : Sys) : Prop where
  mutable : Quiet s → ∀ e ∈ s.held s.current.mutableMemtable,
    ∃ wal, s.manifest.wals.getLast? = some wal ∧ e ∈ s.walFile wal
  frozen : Quiet s → ∀ (i mem : Nat), s.current.frozenMemtables[i]? = some mem →
    ∀ e ∈ s.held mem, ∃ wal, s.manifest.wals[i]? = some wal ∧ e ∈ s.walFile wal
  durable : ∀ m ∈ s.acked,
    (∃ wal ∈ s.manifest.wals, m.2 ∈ s.walFile wal) ∨ ∃ table ∈ s.tables, m.2 ∈ table

/-- The condition on a step. -/
def Undisturbed (s : Sys) : Label → Prop
  | .storeRotation r => ∀ b newWal current, s.phase r = .rotateStore b newWal current →
      current = s.current ∧ ∀ q, q ≠ r → ¬ (s.phase q).betweenLoads
  | .openRotation _ fault => fault = none
  | .flushStore => ∀ tables current, s.flush = .loaded tables current → current = s.current
  | .takeTicket r => ∀ group, s.phase r = .leaderWritingWal group →
      s.syncs.nextLsn + group.length < 2 ^ 64
  | _ => True

/-! ## The invariant -/

/-- The listed logs and the memtables of the version, position by position. The last logs of
rotations that are not yet published have no memtable, and the first memtables of a flush that is
not yet published have no log. -/
structure Aligned (s : Sys) : Prop where
  length : s.manifest.wals.length + s.flush.flushed = s.memtables.length + s.rotators.length
  flushedLe : s.flush.flushed ≤ s.current.frozenMemtables.length
  pending : ∀ i, s.memtables.length - s.flush.flushed ≤ i → i < s.manifest.wals.length →
    s.manifest.wals[i]? = some s.manifest.nextWalId
  mutableWal : s.manifest.wals[s.current.frozenMemtables.length - s.flush.flushed]? =
    some s.current.mutableWal.id
  covered : ∀ (i mem : Nat) (wal : UInt32), s.memtables[s.flush.flushed + i]? = some mem →
    s.manifest.wals[i]? = some wal → ∀ e ∈ s.mems mem, e ∈ s.walFile wal
  distinct : s.memtables.Nodup
  allocated : ∀ mem ∈ s.memtables, mem < s.nextMem

/-- What a leader has loaded is current, and what it has written is in the current log. -/
def Active (s : Sys) : Phase → Prop
  | .walLoaded _ wal => wal = s.current.mutableWal
  | .walWritten b | .leaderWaitingToWriteMemtable b | .leaderWritingMemtable b =>
      ∀ m ∈ b.members, m.2 ∈ s.walFile s.current.mutableWal.id
  | .inserting _ mem rest =>
      mem = s.current.mutableMemtable ∧ ∀ m ∈ rest, m.2 ∈ s.walFile s.current.mutableWal.id
  | .rotateOpen _ wal | .rotateLoad _ wal | .rotateStore _ wal _ => wal = s.manifest.nextWalId
  | _ => True

/-- The flush works on the oldest frozen memtables and has written their entries. -/
def FlushOk (s : Sys) : FlushPhase → Prop
  | .writing memtables walsToDelete written =>
      memtables <+: s.current.frozenMemtables ∧ walsToDelete.length = memtables.length ∧
        ∀ (i : Nat) (table : List Entry), written[i]? = some table →
          ∃ mem, memtables[i]? = some mem ∧ table = s.held mem
  | _ => True

/-- The entries of a batch that are not yet in a memtable. -/
def Phase.pending : Phase → List (Nat × Entry)
  | .walTicket b | .walLoaded b _ | .walWritten b | .leaderWaitingToWriteMemtable b
  | .leaderWritingMemtable b => b.members
  | .inserting _ _ rest => rest
  | _ => []

/-- Entries with different LSNs. -/
def LsnNe (m n : Nat × Entry) : Prop := m.2.1.lsn ≠ n.2.1.lsn

/-- The LSNs of the entries that are not yet in a memtable are below the next one, and each is
different from every other LSN of the run. -/
structure Fresh (s : Sys) : Prop where
  below : ∀ r, ∀ m ∈ (s.phase r).pending, m.2.1.lsn.toNat < s.syncs.nextLsn
  insertedBelow : ∀ m ∈ s.inserted, m.2.1.lsn.toNat < s.syncs.nextLsn
  within : ∀ r, (s.phase r).pending.Pairwise LsnNe
  across : ∀ r q, r ≠ q → ∀ m ∈ (s.phase r).pending, ∀ n ∈ (s.phase q).pending, LsnNe m n
  inserted : ∀ r, ∀ m ∈ (s.phase r).pending, ∀ n ∈ s.inserted, LsnNe m n

/-- An entry is in a memtable that has its log, or in a flushed table. -/
def Safe (s : Sys) (e : Entry) : Prop :=
  (∃ i mem, s.memtables[s.flush.flushed + i]? = some mem ∧ e ∈ s.held mem) ∨
    ∃ table ∈ s.tables, e ∈ table

/-- Which entries of its batch a leader has inserted. -/
def SettledPhase (s : Sys) : Phase → Prop
  | .inserting b _ rest => ∀ m ∈ b.members, m ∈ rest ∨ m ∈ s.inserted
  | .inserted b | .rotateCommit b | .rotateOpen b _ | .rotateLoad b _ | .rotateStore b _ _
  | .memtableDone b => ∀ m ∈ b.members, m ∈ s.inserted
  | .leaderFinishingWrite _ rest | .rotateFailed _ rest _ => ∀ m ∈ rest, m ∈ s.inserted
  | _ => True

/-- The invariant. -/
structure Inv (s : Sys) : Prop where
  aligned : Aligned s
  active : ∀ r, Active s (s.phase r)
  rotators : ∀ r, r ∈ s.rotators ↔ (s.phase r).rotating
  rotatorsNodup : s.rotators.Nodup
  flush : FlushOk s s.flush
  fresh : Fresh s
  safe : ∀ m ∈ s.inserted, Safe s m.2
  acked : ∀ m ∈ s.acked, m ∈ s.inserted
  settled : ∀ r, SettledPhase s (s.phase r)

/-- What a memtable holds was inserted into it. -/
theorem mem_of_mem_held {s : Sys} {mem : Nat} {e : Entry} (h : e ∈ s.held mem) :
    e ∈ s.mems mem := Memtable.mem_of_mem_putBatch h

/-- A live memtable that is not flushed has a listed log. -/
theorem Aligned.wal_of_mem {s : Sys} (h : Aligned s) {i mem : Nat}
    (hmem : s.memtables[s.flush.flushed + i]? = some mem) :
    ∃ wal, s.manifest.wals[i]? = some wal ∧ ∀ e ∈ s.held mem, e ∈ s.walFile wal := by
  have hlen := h.length
  have hlt : s.flush.flushed + i < s.memtables.length := by
    by_contra hge
    rw [List.getElem?_eq_none (Nat.not_lt.mp hge)] at hmem
    cases hmem
  have hi : i < s.manifest.wals.length := by omega
  exact ⟨_, List.getElem?_eq_getElem hi,
    fun e he => h.covered i mem _ hmem (List.getElem?_eq_getElem hi) e (mem_of_mem_held he)⟩

/-- The number of memtables. -/
theorem length_memtables (s : Sys) :
    s.memtables.length = s.current.frozenMemtables.length + 1 := by
  simp [Sys.memtables]

/-- The invariant gives the claim. -/
theorem Inv.covered {s : Sys} (h : Inv s) : Covered s where
  mutable hquiet e he := by
    have hnone : s.rotators = [] := by
      rw [List.eq_nil_iff_forall_not_mem]
      exact fun r hr => hquiet.1 r ((h.rotators r).mp hr)
    have hlen := h.aligned.length
    rw [hnone, hquiet.2, length_memtables, List.length_nil] at hlen
    have hlast : s.memtables[s.flush.flushed + s.current.frozenMemtables.length]? =
        some s.current.mutableMemtable := by
      rw [hquiet.2, Nat.zero_add, Sys.memtables, List.getElem?_concat_length]
    obtain ⟨wal, hwal, hcov⟩ := h.aligned.wal_of_mem hlast
    refine ⟨wal, ?_, hcov e he⟩
    rw [List.getLast?_eq_getElem?, ← hwal]
    congr 1
    omega
  frozen hquiet i mem hmem e he := by
    have hlive : s.memtables[s.flush.flushed + i]? = some mem := by
      obtain ⟨hlt, _⟩ := List.getElem?_eq_some_iff.mp hmem
      rw [hquiet.2, Nat.zero_add, Sys.memtables, List.getElem?_append_left hlt, hmem]
    obtain ⟨wal, hwal, hcov⟩ := h.aligned.wal_of_mem hlive
    exact ⟨wal, hwal, hcov e he⟩
  durable m hm := by
    rcases h.safe m (h.acked m hm) with ⟨i, mem, hmem, hheld⟩ | htable
    · obtain ⟨wal, hwal, hcov⟩ := h.aligned.wal_of_mem hmem
      exact .inl ⟨wal, List.mem_of_getElem? hwal, hcov _ hheld⟩
    · exact .inr htable

/-! ## What one step preserves -/

/-- A property of the states of all writers survives the move of one writer. -/
theorem forall_update {P : Phase → Prop} {phase : Nat → Phase} {r : Nat} {p : Phase}
    (h : ∀ q, P (phase q)) (hp : P p) (q : Nat) : P (Function.update phase r p q) := by
  by_cases hq : q = r
  · subst hq
    rwa [Function.update_self]
  · rw [Function.update_of_ne hq]
    exact h q

/-- The leaders that rotate are the same when a writer moves that rotates as before. -/
theorem rotators_update {rotators : List Nat} {phase : Nat → Phase} {r : Nat} {p : Phase}
    (h : ∀ q, q ∈ rotators ↔ (phase q).rotating) (hrot : p.rotating ↔ (phase r).rotating)
    (q : Nat) :
    q ∈ rotators ↔ (Function.update phase r p q).rotating := by
  by_cases hq : q = r
  · subst hq
    rw [Function.update_self, h, hrot]
  · rw [Function.update_of_ne hq, h]

/-- Fewer pending entries stay fresh. -/
theorem Fresh.mono {s s' : Sys} (h : Fresh s) (hlsn : s'.syncs.nextLsn = s.syncs.nextLsn)
    (hinserted : s'.inserted = s.inserted)
    (hpending : ∀ q, (s'.phase q).pending.Sublist (s.phase q).pending) : Fresh s' where
  below r m hm := hlsn ▸ h.below r m ((hpending r).subset hm)
  insertedBelow m hm := hlsn ▸ h.insertedBelow m (hinserted ▸ hm)
  within r := (h.within r).sublist (hpending r)
  across r q hrq m hm n hn := h.across r q hrq m ((hpending r).subset hm) n ((hpending q).subset hn)
  inserted r m hm n hn := h.inserted r m ((hpending r).subset hm) n (hinserted ▸ hn)

/-- A writer moves and nothing but the locks, the requests and the slots changes. -/
theorem Inv.goto_of_fresh {s : Sys} (h : Inv s) {σ : WriteSyncs} {request : Nat → Bytes × Value}
    {slot : Nat → Option (Except DbError Completion)} {entered : List Nat} {r : Nat} {p : Phase}
    (hactive : Active s p) (hrot : p.rotating ↔ (s.phase r).rotating)
    (hfresh : Fresh ({ s with syncs := σ, request, slot, entered }.goto r p))
    (hsettled : SettledPhase s p) :
    Inv ({ s with syncs := σ, request, slot, entered }.goto r p) where
  aligned := ⟨h.aligned.length, h.aligned.flushedLe, h.aligned.pending, h.aligned.mutableWal,
    h.aligned.covered, h.aligned.distinct, h.aligned.allocated⟩
  active := forall_update h.active hactive
  rotators := rotators_update h.rotators hrot
  rotatorsNodup := h.rotatorsNodup
  flush := h.flush
  fresh := hfresh
  safe := h.safe
  acked := h.acked
  settled := forall_update h.settled hsettled

/-- The pending entries after a writer has moved. -/
theorem pending_update {phase : Nat → Phase} {r : Nat} {p : Phase}
    (hpending : p.pending.Sublist (phase r).pending) (q : Nat) :
    (Function.update phase r p q).pending.Sublist (phase q).pending := by
  by_cases hq : q = r
  · subst hq
    rwa [Function.update_self]
  · rw [Function.update_of_ne hq]

/-- A writer moves and gets no entries to insert. -/
theorem Inv.goto {s : Sys} (h : Inv s) {σ : WriteSyncs} {request : Nat → Bytes × Value}
    {slot : Nat → Option (Except DbError Completion)} {entered : List Nat} {r : Nat} {p : Phase}
    (hlsn : σ.nextLsn = s.syncs.nextLsn) (hactive : Active s p)
    (hrot : p.rotating ↔ (s.phase r).rotating)
    (hpending : p.pending.Sublist (s.phase r).pending) (hsettled : SettledPhase s p) :
    Inv ({ s with syncs := σ, request, slot, entered }.goto r p) :=
  h.goto_of_fresh hactive hrot (h.fresh.mono hlsn rfl (pending_update hpending)) hsettled

/-- Taking LSNs from the counter keeps all of them different. -/
theorem Fresh.takeTicket {s : Sys} (h : Fresh s) {r : Nat} {group : List Nat} {σ : WriteSyncs}
    {ticket lsn : Nat} (hphase : s.phase r = .leaderWritingWal group)
    (hroom : s.syncs.nextLsn + group.length < 2 ^ 64)
    (hlsn : σ.nextLsn = s.syncs.nextLsn + group.length) :
    Fresh ({ s with syncs := σ }.goto r
      (.walTicket ⟨stamp s.request s.syncs.nextLsn group, ticket, lsn⟩)) := by
  have hnew : ∀ m ∈ stamp s.request s.syncs.nextLsn group, s.syncs.nextLsn ≤ m.2.1.lsn.toNat :=
    fun m hm => (lsn_of_mem_stamp hroom.le hm).1
  have hpending : ∀ q, ∀ m ∈ (({ s with syncs := σ }.goto r
      (.walTicket ⟨stamp s.request s.syncs.nextLsn group, ticket, lsn⟩)).phase q).pending,
      (q = r ∧ m ∈ stamp s.request s.syncs.nextLsn group) ∨
        (q ≠ r ∧ m ∈ (s.phase q).pending) := by
    intro q m hm
    change m ∈ (Function.update s.phase r _ q).pending at hm
    by_cases hq : q = r
    · subst hq
      rw [Function.update_self] at hm
      exact .inl ⟨rfl, hm⟩
    · rw [Function.update_of_ne hq] at hm
      exact .inr ⟨hq, hm⟩
  have hne : ∀ m ∈ stamp s.request s.syncs.nextLsn group, ∀ n : Nat × Entry,
      n.2.1.lsn.toNat < s.syncs.nextLsn → LsnNe m n := by
    intro m hm n hn heq
    have hle := hnew m hm
    rw [heq] at hle
    omega
  constructor
  · intro q m hm
    show _ < σ.nextLsn
    rw [hlsn]
    rcases hpending q m hm with ⟨_, hm⟩ | ⟨_, hm⟩
    · exact (lsn_of_mem_stamp hroom.le hm).2
    · exact Nat.lt_add_right _ (h.below q m hm)
  · intro m hm
    show _ < σ.nextLsn
    rw [hlsn]
    exact Nat.lt_add_right _ (h.insertedBelow m hm)
  · exact forall_update (P := fun p => p.pending.Pairwise LsnNe) h.within
      ((stamp_increasing hroom.le).imp fun hlt => UInt64.ne_of_lt hlt)
  · intro q u hqu m hm n hn
    rcases hpending q m hm with ⟨hq, hm⟩ | ⟨hq, hm⟩ <;>
      rcases hpending u n hn with ⟨hu, hn⟩ | ⟨hu, hn⟩
    · exact absurd (hq.trans hu.symm) hqu
    · exact hne m hm n (h.below u n hn)
    · exact (hne n hn m (h.below q m hm)).symm
    · exact h.across q u hqu m hm n hn
  · intro q m hm n hn
    rcases hpending q m hm with ⟨_, hm⟩ | ⟨_, hm⟩
    · exact hne m hm n (h.insertedBelow n hn)
    · exact h.inserted q m hm n hn

/-- A log grows. -/
theorem Inv.appendWal {s : Sys} (h : Inv s) (wal : WalHandle) (members kept : List (Nat × Entry)) :
    Inv (s.appendWal wal members kept) := by
  have hgrow : ∀ w e, e ∈ s.walFile w → e ∈ (s.appendWal wal members kept).walFile w := by
    intro w e he
    show e ∈ Function.update s.walFile wal.id (s.walFile wal.id ++ members.map Prod.snd) w
    by_cases hw : w = wal.id
    · subst hw
      rw [Function.update_self]
      exact List.mem_append_left _ he
    · rwa [Function.update_of_ne hw]
  exact
    { aligned := ⟨h.aligned.length, h.aligned.flushedLe, h.aligned.pending, h.aligned.mutableWal,
        fun i mem w hmem hw e he => hgrow w e (h.aligned.covered i mem w hmem hw e he),
        h.aligned.distinct, h.aligned.allocated⟩
      active := fun q => by
        have hq := h.active q
        show Active (s.appendWal wal members kept) (s.phase q)
        cases hphase : s.phase q with
        | walWritten | leaderWaitingToWriteMemtable | leaderWritingMemtable =>
            rw [hphase] at hq
            exact fun m hm => hgrow _ _ (hq m hm)
        | inserting =>
            rw [hphase] at hq
            exact ⟨hq.1, fun m hm => hgrow _ _ (hq.2 m hm)⟩
        | _ => rw [hphase] at hq; exact hq
      rotators := h.rotators
      rotatorsNodup := h.rotatorsNodup
      flush := h.flush
      fresh := ⟨h.fresh.below, h.fresh.insertedBelow, h.fresh.within, h.fresh.across,
        h.fresh.inserted⟩
      safe := h.safe
      acked := h.acked
      settled := h.settled }

/-- What another memtable holds does not change by an insert. -/
theorem held_insertEntry_of_ne (s : Sys) {mem mem' : Nat} (h : mem' ≠ mem) (m : Nat × Entry) :
    (s.insertEntry mem m).held mem' = s.held mem' := by
  simp only [Sys.held, Sys.memtable, Sys.insertEntry, Function.update_of_ne h]

/-- What a memtable holds after an insert. -/
theorem mem_held_insertEntry (s : Sys) (mem : Nat) (m : Nat × Entry) (e : Entry) :
    e ∈ (s.insertEntry mem m).held mem ↔ e = m.2 ∨ (e ∈ s.held mem ∧ e.1 ≠ m.2.1) := by
  simp only [Sys.held, Sys.memtable, Sys.insertEntry, Function.update_self]
  rw [Memtable.putBatch_concat, Memtable.mem_recover]

/-- The position of the mutable memtable. -/
theorem Aligned.index_mutable {s : Sys} (h : Aligned s) {i : Nat}
    (hi : s.memtables[s.flush.flushed + i]? = some s.current.mutableMemtable) :
    i = s.current.frozenMemtables.length - s.flush.flushed := by
  have hlast : s.memtables[s.current.frozenMemtables.length]? =
      some s.current.mutableMemtable := by
    rw [Sys.memtables, List.getElem?_concat_length]
  obtain ⟨hlt, _⟩ := List.getElem?_eq_some_iff.mp hi
  have hsame := (List.getElem?_inj hlt h.distinct).mp (hi.trans hlast.symm)
  omega

/-- The mutable memtable is at that position. -/
theorem Aligned.mutable_index {s : Sys} (h : Aligned s) :
    s.memtables[s.flush.flushed + (s.current.frozenMemtables.length - s.flush.flushed)]? =
      some s.current.mutableMemtable := by
  have hle := h.flushedLe
  rw [show s.flush.flushed + (s.current.frozenMemtables.length - s.flush.flushed) =
    s.current.frozenMemtables.length by omega, Sys.memtables, List.getElem?_concat_length]

/-- The frozen memtables are not the mutable one. -/
theorem Aligned.frozen_ne {s : Sys} (h : Aligned s) {mem : Nat}
    (hmem : mem ∈ s.current.frozenMemtables) : mem ≠ s.current.mutableMemtable := by
  have hdistinct := h.distinct
  rw [Sys.memtables, List.nodup_append] at hdistinct
  exact hdistinct.2.2 mem hmem _ (List.mem_singleton.mpr rfl)

/-- More insertions keep what leaders have inserted. -/
theorem SettledPhase.mono {s s' : Sys} {p : Phase} (h : SettledPhase s p)
    (hsub : ∀ m ∈ s.inserted, m ∈ s'.inserted) : SettledPhase s' p := by
  cases p with
  | inserting => exact fun m hm => (h m hm).imp id (hsub m)
  | inserted | rotateCommit | rotateOpen | rotateLoad | rotateStore | memtableDone
  | leaderFinishingWrite | rotateFailed => exact fun m hm => hsub m (h m hm)
  | _ => exact trivial

section Insert

variable {s : Sys} {r mem : Nat} {b : Batch} {m : Nat × Entry} {rest : List (Nat × Entry)}

/-- The entry is pending. -/
theorem mem_pending (hphase : s.phase r = .inserting b mem (m :: rest)) :
    m ∈ (s.phase r).pending := by
  rw [hphase]
  exact List.mem_cons_self

/-- The other entries stay pending. -/
theorem pending_insert (hphase : s.phase r = .inserting b mem (m :: rest)) (q : Nat) :
    (Function.update s.phase r (.inserting b mem rest) q).pending.Sublist (s.phase q).pending := by
  refine pending_update ?_ q
  rw [hphase]
  exact List.sublist_cons_self m rest

/-- The entry is in the log at the position of the mutable memtable. -/
theorem Aligned.insert (h : Aligned s) (hactive : Active s (.inserting b mem (m :: rest))) :
    Aligned ((s.insertEntry mem m).goto r (.inserting b mem rest)) := by
  obtain ⟨hmem, hlogged⟩ := hactive
  refine ⟨h.length, h.flushedLe, h.pending, h.mutableWal, fun i mem' wal hi hwal e he => ?_,
    h.distinct, h.allocated⟩
  change e ∈ Function.update s.mems mem (s.mems mem ++ [m.2]) mem' at he
  by_cases hmm : mem' = mem
  · subst hmm
    rw [Function.update_self] at he
    rcases List.mem_append.mp he with he | he
    · exact h.covered i mem' wal hi hwal e he
    · rw [List.mem_singleton.mp he]
      have hindex := h.index_mutable (hmem ▸ hi)
      have hcurrent := h.mutableWal
      rw [← hindex] at hcurrent
      change s.manifest.wals[i]? = some wal at hwal
      rw [hcurrent] at hwal
      cases hwal
      exact hlogged m List.mem_cons_self
  · rw [Function.update_of_ne hmm] at he
    exact h.covered i mem' wal hi hwal e he

/-- The flush reads frozen memtables, and the insert goes to the mutable one. -/
theorem FlushOk.insert {f : FlushPhase} (h : FlushOk s f) (haligned : Aligned s)
    (hmem : mem = s.current.mutableMemtable) :
    FlushOk ((s.insertEntry mem m).goto r (.inserting b mem rest)) f := by
  cases f with
  | writing memtables walsToDelete written =>
      obtain ⟨hinit, hlen, hwritten⟩ := h
      refine ⟨hinit, hlen, fun i table hi => ?_⟩
      obtain ⟨mem', hmem', htable⟩ := hwritten i table hi
      refine ⟨mem', hmem', ?_⟩
      have hfrozen : mem' ∈ s.current.frozenMemtables :=
        hinit.subset (List.mem_of_getElem? hmem')
      show table = (s.insertEntry mem m).held mem'
      rw [held_insertEntry_of_ne s (hmem ▸ haligned.frozen_ne hfrozen)]
      exact htable
  | _ => exact trivial

/-- A pending entry that is inserted is different from those that are still pending. -/
theorem Fresh.insert (h : Fresh s) (hphase : s.phase r = .inserting b mem (m :: rest)) :
    Fresh ((s.insertEntry mem m).goto r (.inserting b mem rest)) := by
  have hmr := mem_pending hphase
  have hsub := pending_insert hphase
  constructor
  · exact fun q x hx => h.below q x ((hsub q).subset hx)
  · intro x hx
    rcases List.mem_append.mp hx with hx | hx
    · exact h.insertedBelow x hx
    · rw [List.mem_singleton.mp hx]
      exact h.below r m hmr
  · exact fun q => (h.within q).sublist (hsub q)
  · intro q u hqu x hx y hy
    exact h.across q u hqu x ((hsub q).subset hx) y ((hsub u).subset hy)
  · intro q x hx y hy
    rcases List.mem_append.mp hy with hy | hy
    · exact h.inserted q x ((hsub q).subset hx) y hy
    · rw [List.mem_singleton.mp hy]
      change x ∈ (Function.update s.phase r _ q).pending at hx
      by_cases hq : q = r
      · subst hq
        rw [Function.update_self] at hx
        have hwithin := h.within q
        rw [hphase] at hwithin
        exact ((List.pairwise_cons.mp hwithin).1 x hx).symm
      · rw [Function.update_of_ne hq] at hx
        exact h.across q r hq x hx m hmr

/-- An entry of another LSN stays where it is. -/
theorem Safe.insert {n : Nat × Entry} (h : Safe s n.2) (hne : LsnNe m n) :
    Safe ((s.insertEntry mem m).goto r (.inserting b mem rest)) n.2 := by
  rcases h with ⟨i, mem', hi, hheld⟩ | htable
  · refine .inl ⟨i, mem', hi, ?_⟩
    show n.2 ∈ (s.insertEntry mem m).held mem'
    by_cases hmm : mem' = mem
    · subst hmm
      have hkey : n.2.1 ≠ m.2.1 := fun heq => hne (congrArg Key.lsn heq).symm
      exact (mem_held_insertEntry s mem' m n.2).mpr (.inr ⟨hheld, hkey⟩)
    · rwa [held_insertEntry_of_ne s hmm]
  · exact .inr htable

/-- The leader has inserted one more entry of its batch. -/
theorem SettledPhase.insert (h : SettledPhase s (.inserting b mem (m :: rest))) :
    SettledPhase ((s.insertEntry mem m).goto r (.inserting b mem rest))
      (.inserting b mem rest) := by
  intro x hx
  rcases h x hx with hrest | hin
  · rcases List.mem_cons.mp hrest with rfl | hrest
    · exact .inr (List.mem_append_right s.inserted (List.mem_singleton.mpr rfl))
    · exact .inl hrest
  · exact .inr (List.mem_append_left [m] hin)

/-- A leader inserts the next entry of its batch. -/
theorem Inv.insert (h : Inv s) (hphase : s.phase r = .inserting b mem (m :: rest)) :
    Inv ((s.insertEntry mem m).goto r (.inserting b mem rest)) := by
  have hactive : Active s (.inserting b mem (m :: rest)) := hphase ▸ h.active r
  have hsettled : SettledPhase s (.inserting b mem (m :: rest)) := hphase ▸ h.settled r
  have hrot : (Phase.inserting b mem rest).rotating ↔ (s.phase r).rotating := by
    rw [hphase]
    exact Iff.rfl
  obtain ⟨hmem, hlogged⟩ := hactive
  exact
    { aligned := h.aligned.insert ⟨hmem, hlogged⟩
      active := forall_update h.active
        ⟨hmem, fun x hx => hlogged x (List.mem_cons_of_mem m hx)⟩
      rotators := rotators_update h.rotators hrot
      rotatorsNodup := h.rotatorsNodup
      flush := h.flush.insert h.aligned hmem
      fresh := h.fresh.insert hphase
      safe := fun x hx => by
        rcases List.mem_append.mp hx with hx | hx
        · exact (h.safe x hx).insert (h.fresh.inserted r m (mem_pending hphase) x hx)
        · rw [List.mem_singleton.mp hx]
          refine .inl ⟨_, mem, hmem ▸ h.aligned.mutable_index, ?_⟩
          exact (mem_held_insertEntry s mem m m.2).mpr (.inl rfl)
      acked := fun x hx => List.mem_append_left [m] (h.acked x hx)
      settled := forall_update
        (fun q => (h.settled q).mono fun x hx => List.mem_append_left [m] hx) hsettled.insert }

end Insert

/-- A member whose entry is inserted is told that it has succeeded. -/
theorem Inv.acknowledge {s : Sys} (h : Inv s) {m : Nat × Entry} (hm : m ∈ s.inserted)
    (lsn : Nat) : Inv (s.acknowledge m lsn) where
  aligned := ⟨h.aligned.length, h.aligned.flushedLe, h.aligned.pending, h.aligned.mutableWal,
    h.aligned.covered, h.aligned.distinct, h.aligned.allocated⟩
  active := h.active
  rotators := h.rotators
  rotatorsNodup := h.rotatorsNodup
  flush := h.flush
  fresh := ⟨h.fresh.below, h.fresh.insertedBelow, h.fresh.within, h.fresh.across,
    h.fresh.inserted⟩
  safe := h.safe
  acked x hx := by
    rcases List.mem_cons.mp hx with rfl | hx
    · exact hm
    · exact h.acked x hx
  settled := h.settled

/-! ## Rotations -/

/-- The next log id is listed by the manifest commit of a rotation. -/
theorem Inv.commitRotation {s : Sys} (h : Inv s) {r : Nat} {b : Batch} {version : UInt32}
    (hphase : s.phase r = .rotateCommit b) :
    Inv ({ s with
      manifest := { s.manifest with
        wals := s.manifest.wals ++ [s.manifest.nextWalId]
        version }
      rotators := r :: s.rotators }.goto r (.rotateOpen b s.manifest.nextWalId)) := by
  have hlen := h.aligned.length
  have hnotin : r ∉ s.rotators := by
    rw [h.rotators, hphase]
    exact id
  constructor
  · refine ⟨?_, h.aligned.flushedLe, ?_, ?_, ?_, h.aligned.distinct, h.aligned.allocated⟩
    · show (s.manifest.wals ++ [s.manifest.nextWalId]).length + s.flush.flushed =
        s.memtables.length + (r :: s.rotators).length
      rw [List.length_append, List.length_singleton, List.length_cons]
      omega
    · intro i hlo hhi
      show (s.manifest.wals ++ [s.manifest.nextWalId])[i]? = some s.manifest.nextWalId
      change i < (s.manifest.wals ++ [s.manifest.nextWalId]).length at hhi
      rw [List.length_append, List.length_singleton] at hhi
      by_cases hi : i < s.manifest.wals.length
      · rw [List.getElem?_append_left hi]
        exact h.aligned.pending i hlo hi
      · rw [show i = s.manifest.wals.length by omega, List.getElem?_concat_length]
    · obtain ⟨hlt, _⟩ := List.getElem?_eq_some_iff.mp h.aligned.mutableWal
      exact (List.getElem?_append_left hlt).trans h.aligned.mutableWal
    · intro i mem wal hi hwal
      obtain ⟨hlt, _⟩ := List.getElem?_eq_some_iff.mp hi
      change s.flush.flushed + i < s.memtables.length at hlt
      change (s.manifest.wals ++ [s.manifest.nextWalId])[i]? = some wal at hwal
      rw [List.getElem?_append_left (by omega)] at hwal
      exact h.aligned.covered i mem wal hi hwal
  · exact forall_update (fun q => h.active q) rfl
  · intro q
    show q ∈ r :: s.rotators ↔ (Function.update s.phase r _ q).rotating
    by_cases hq : q = r
    · subst hq
      rw [Function.update_self]
      exact iff_of_true List.mem_cons_self trivial
    · rw [Function.update_of_ne hq, List.mem_cons, ← h.rotators]
      exact ⟨fun h => h.resolve_left hq, .inr⟩
  · exact List.nodup_cons.mpr ⟨hnotin, h.rotatorsNodup⟩
  · exact h.flush
  · exact h.fresh.mono rfl rfl (pending_update (List.nil_sublist _))
  · exact h.safe
  · exact h.acked
  · have hsettled := h.settled r
    rw [hphase] at hsettled
    exact forall_update h.settled hsettled

/-- A memtable that is not the next one holds what it held. -/
theorem held_update_of_ne (s : Sys) {mem mem' : Nat} (h : mem' ≠ mem) (entries : List Entry) :
    { s with mems := Function.update s.mems mem entries }.held mem' = s.held mem' := by
  simp only [Sys.held, Sys.memtable, Function.update_of_ne h]

section StoreRotation

variable {s : Sys} {r : Nat} {b : Batch} {newWal : UInt32}

/-- The state behind the store of a rotation. -/
def Sys.storeRotation (s : Sys) (r : Nat) (b : Batch) (newWal : UInt32) : Sys :=
  { s with
    current := rotateVersion id s.nextMem ⟨newWal, s.nextMem⟩ s.current
    mems := Function.update s.mems s.nextMem []
    nextMem := s.nextMem + 1
    rotators := s.rotators.erase r }.goto r (.memtableDone b)

/-- The next memtable is none of those in place. -/
theorem Aligned.ne_nextMem (h : Aligned s) {mem : Nat} (hmem : mem ∈ s.memtables) :
    mem ≠ s.nextMem := Nat.ne_of_lt (h.allocated mem hmem)

/-- The new memtable gets the first log that has no memtable. -/
theorem Aligned.storeRotation (h : Aligned s) (hin : r ∈ s.rotators)
    (hnew : newWal = s.manifest.nextWalId) : Aligned (s.storeRotation r b newWal) := by
  have hlen := h.length
  have hflushed := h.flushedLe
  have hmemlen := length_memtables s
  have hrotators : s.rotators.length = (s.rotators.erase r).length + 1 := by
    have hpos := List.length_pos_of_mem hin
    rw [List.length_erase_of_mem hin]
    omega
  refine ⟨?_, ?_, fun i hlo hhi => ?_, ?_, fun i mem wal hi hwal e he => ?_, ?_, fun mem hmem => ?_⟩
  · show s.manifest.wals.length + s.flush.flushed =
      (s.memtables ++ [s.nextMem]).length + (s.rotators.erase r).length
    rw [List.length_append, List.length_singleton]
    omega
  · show s.flush.flushed ≤ (s.current.frozenMemtables ++ [_]).length
    rw [List.length_append]
    omega
  · change (s.memtables ++ [s.nextMem]).length - s.flush.flushed ≤ i at hlo
    rw [List.length_append] at hlo
    exact h.pending i (by omega) hhi
  · show s.manifest.wals[(s.current.frozenMemtables ++ [_]).length - s.flush.flushed]? =
      some newWal
    rw [hnew, List.length_append, List.length_singleton]
    exact h.pending _ (by omega) (by omega)
  · change (s.memtables ++ [s.nextMem])[s.flush.flushed + i]? = some mem at hi
    change e ∈ Function.update s.mems s.nextMem [] mem at he
    have hmem : mem ∈ s.memtables ++ [s.nextMem] := List.mem_of_getElem? hi
    rcases List.mem_append.mp hmem with hmem | hmem
    · have hlt : s.flush.flushed + i < s.memtables.length := by
        by_contra hge
        obtain ⟨hlt, hget⟩ := List.getElem?_eq_some_iff.mp hi
        rw [List.getElem_append_right (Nat.not_lt.mp hge), List.getElem_singleton] at hget
        exact h.ne_nextMem hmem hget.symm
      rw [List.getElem?_append_left hlt] at hi
      rw [Function.update_of_ne (h.ne_nextMem hmem)] at he
      exact h.covered i mem wal hi hwal e he
    · rw [List.mem_singleton.mp hmem, Function.update_self] at he
      exact absurd he List.not_mem_nil
  · show (s.memtables ++ [s.nextMem]).Nodup
    rw [List.nodup_append]
    refine ⟨h.distinct, List.nodup_singleton _, fun mem hmem x hx => ?_⟩
    rw [List.mem_singleton.mp hx]
    exact h.ne_nextMem hmem
  · change mem ∈ s.memtables ++ [s.nextMem] at hmem
    show mem < s.nextMem + 1
    rcases List.mem_append.mp hmem with hmem | hmem
    · exact Nat.lt_succ_of_lt (h.allocated mem hmem)
    · rw [List.mem_singleton.mp hmem]
      exact Nat.lt_succ_self _

/-- What a leader has loaded stays current when it is not between its loads. -/
theorem Active.storeRotation {p : Phase} (h : Active s p) (hnot : ¬ p.betweenLoads) :
    Active (s.storeRotation r b newWal) p := by
  cases p with
  | walLoaded | walWritten | leaderWaitingToWriteMemtable | leaderWritingMemtable | inserting =>
      exact absurd trivial hnot
  | rotateOpen | rotateLoad | rotateStore => exact h
  | _ => exact trivial

/-- The leader rotates no longer. -/
theorem Inv.rotators_erase (h : Inv s) {p : Phase} (hp : ¬ p.rotating) (q : Nat) :
    q ∈ s.rotators.erase r ↔ (Function.update s.phase r p q).rotating := by
  by_cases hq : q = r
  · subst hq
    rw [Function.update_self]
    exact iff_of_false h.rotatorsNodup.not_mem_erase hp
  · rw [Function.update_of_ne hq, List.mem_erase_of_ne hq, h.rotators]

/-- The flush works on memtables that were in place before. -/
theorem FlushOk.storeRotation {f : FlushPhase} (h : FlushOk s f) (haligned : Aligned s) :
    FlushOk (s.storeRotation r b newWal) f := by
  cases f with
  | writing memtables walsToDelete written =>
      obtain ⟨hinit, hlen, hwritten⟩ := h
      refine ⟨hinit.trans (List.prefix_append _ _), hlen, fun i table hi => ?_⟩
      obtain ⟨mem, hmem, htable⟩ := hwritten i table hi
      have hfrozen : mem ∈ s.current.frozenMemtables := hinit.subset (List.mem_of_getElem? hmem)
      have hold := haligned.ne_nextMem (List.mem_append_left _ hfrozen)
      exact ⟨mem, hmem, htable.trans (held_update_of_ne s hold []).symm⟩
  | _ => exact trivial

/-- Entries stay where they are. -/
theorem Safe.storeRotation {e : Entry} (h : Safe s e) (haligned : Aligned s) :
    Safe (s.storeRotation r b newWal) e := by
  rcases h with ⟨i, mem, hi, hheld⟩ | htable
  · refine .inl ⟨i, mem, ?_, ?_⟩
    · obtain ⟨hlt, _⟩ := List.getElem?_eq_some_iff.mp hi
      exact (List.getElem?_append_left hlt).trans hi
    · show e ∈ { s with mems := Function.update s.mems s.nextMem [] }.held mem
      rwa [held_update_of_ne s (haligned.ne_nextMem (List.mem_of_getElem? hi))]
  · exact .inr htable

/-- A rotation publishes a version built from the current one, and no other leader is between the
load of its log and the end of its inserts. -/
theorem Inv.storeRotation (h : Inv s) (hphase : s.phase r = .rotateStore b newWal s.current)
    (hothers : ∀ q, q ≠ r → ¬ (s.phase q).betweenLoads) : Inv (s.storeRotation r b newWal) := by
  have hnew : Active s (.rotateStore b newWal s.current) := hphase ▸ h.active r
  have hsettled : SettledPhase s (.rotateStore b newWal s.current) := hphase ▸ h.settled r
  have hin : r ∈ s.rotators := by
    rw [h.rotators, hphase]
    exact trivial
  exact
    { aligned := h.aligned.storeRotation hin hnew
      active := fun q => by
        show Active _ (Function.update s.phase r _ q)
        by_cases hq : q = r
        · subst hq
          rw [Function.update_self]
          exact trivial
        · rw [Function.update_of_ne hq]
          exact (h.active q).storeRotation (hothers q hq)
      rotators := h.rotators_erase id
      rotatorsNodup := h.rotatorsNodup.erase r
      flush := h.flush.storeRotation h.aligned
      fresh := h.fresh.mono rfl rfl (pending_update (List.nil_sublist _))
      safe := fun m hm => (h.safe m hm).storeRotation h.aligned
      acked := h.acked
      settled := forall_update h.settled hsettled }

end StoreRotation

/-! ## Flushes -/

/-- The flush moves before its commit. -/
theorem Inv.flushMove {s : Sys} (h : Inv s) {f : FlushPhase}
    (hflushed : f.flushed = s.flush.flushed)
    (hok : FlushOk s f) : Inv { s with flush := f } where
  aligned :=
    { length := by rw [hflushed]; exact h.aligned.length
      flushedLe := by rw [hflushed]; exact h.aligned.flushedLe
      pending := by rw [hflushed]; exact h.aligned.pending
      mutableWal := by rw [hflushed]; exact h.aligned.mutableWal
      covered := by rw [hflushed]; exact h.aligned.covered
      distinct := h.aligned.distinct
      allocated := h.aligned.allocated }
  active := h.active
  rotators := h.rotators
  rotatorsNodup := h.rotatorsNodup
  flush := hok
  fresh := ⟨h.fresh.below, h.fresh.insertedBelow, h.fresh.within, h.fresh.across,
    h.fresh.inserted⟩
  safe m hm := by
    rcases h.safe m hm with ⟨i, mem, hi, hheld⟩ | htable
    · exact .inl ⟨i, mem, by rw [hflushed]; exact hi, hheld⟩
    · exact .inr htable
  acked := h.acked
  settled := h.settled

/-- The state behind the manifest commit of a flush. -/
def Sys.commitFlush (s : Sys) (walsToDelete : List UInt32) (written : List (List Entry))
    (levels : List Level) (version : UInt32) : Sys :=
  { s with
    manifest := { s.manifest with
      levels
      wals := s.manifest.wals.drop walsToDelete.length
      version }
    tables := s.tables ++ written
    flush := .committed written }

section FlushCommit

variable {s : Sys} {memtables : List Nat} {walsToDelete : List UInt32} {written : List (List Entry)}
  {levels : List Level} {version : UInt32}

/-- What was in a flushed memtable is in a table now. -/
theorem Safe.commitFlush {e : Entry} (h : Safe s e) (hzero : s.flush.flushed = 0)
    (hok : FlushOk s (.writing memtables walsToDelete written))
    (hlen : written.length = memtables.length) :
    Safe (s.commitFlush walsToDelete written levels version) e := by
  obtain ⟨hinit, -, hwritten⟩ := hok
  rcases h with ⟨i, mem, hi, hheld⟩ | ⟨table, htable, he⟩
  · rw [hzero, Nat.zero_add] at hi
    by_cases hlt : i < memtables.length
    · have hfrozen : i < s.current.frozenMemtables.length :=
        Nat.lt_of_lt_of_le hlt hinit.length_le
      rw [Sys.memtables, List.getElem?_append_left hfrozen] at hi
      have hget : memtables[i]? = some mem := by
        rw [List.prefix_iff_getElem?] at hinit
        rw [← hi, hinit i hlt, List.getElem?_eq_getElem hlt]
      have hi' : i < written.length := by omega
      obtain ⟨mem', hmem', htable⟩ := hwritten i _ (List.getElem?_eq_getElem hi')
      rw [hget] at hmem'
      cases hmem'
      exact .inr ⟨_, List.mem_append_right _ (List.getElem_mem hi'), htable ▸ hheld⟩
    · refine .inl ⟨i - memtables.length, mem, ?_, hheld⟩
      show s.memtables[written.length + (i - memtables.length)]? = some mem
      rwa [show written.length + (i - memtables.length) = i by omega]
  · exact .inr ⟨table, List.mem_append_left _ htable, he⟩

/-- The logs of the other memtables move up. -/
theorem Aligned.commitFlush (h : Aligned s) (hzero : s.flush.flushed = 0)
    (hok : FlushOk s (.writing memtables walsToDelete written))
    (hlen : written.length = memtables.length)
    (hle : walsToDelete.length ≤ s.manifest.wals.length) :
    Aligned (s.commitFlush walsToDelete written levels version) := by
  obtain ⟨hinit, hwals, -⟩ := hok
  have hlength := h.length
  have hpending := h.pending
  have hcurrent := h.mutableWal
  have hcovered := h.covered
  have hfits := hinit.length_le
  have hmemlen := length_memtables s
  rw [hzero] at hlength hpending hcurrent hcovered
  refine ⟨?_, ?_, fun i hlo hhi => ?_, ?_, fun i mem wal hi hwal => ?_, h.distinct, h.allocated⟩
  · show (s.manifest.wals.drop walsToDelete.length).length + written.length =
      s.memtables.length + s.rotators.length
    rw [List.length_drop]
    omega
  · show written.length ≤ s.current.frozenMemtables.length
    omega
  · change s.memtables.length - written.length ≤ i at hlo
    change i < (s.manifest.wals.drop walsToDelete.length).length at hhi
    show (s.manifest.wals.drop walsToDelete.length)[i]? = some s.manifest.nextWalId
    rw [List.length_drop] at hhi
    rw [List.getElem?_drop]
    exact hpending _ (by omega) (by omega)
  · show (s.manifest.wals.drop walsToDelete.length)[
      s.current.frozenMemtables.length - written.length]? = some s.current.mutableWal.id
    rw [List.getElem?_drop]
    rw [show walsToDelete.length + (s.current.frozenMemtables.length - written.length) =
      s.current.frozenMemtables.length - 0 by omega]
    exact hcurrent
  · change s.memtables[written.length + i]? = some mem at hi
    change (s.manifest.wals.drop walsToDelete.length)[i]? = some wal at hwal
    rw [List.getElem?_drop, hwals, ← hlen] at hwal
    exact hcovered _ mem wal (by rwa [Nat.zero_add]) hwal

/-- The manifest commit of a flush drops the logs of the flushed memtables. -/
theorem Inv.flushCommit (h : Inv s) (hflush : s.flush = .writing memtables walsToDelete written)
    (hlen : written.length = memtables.length)
    (htake : s.manifest.wals.take walsToDelete.length = walsToDelete) :
    Inv (s.commitFlush walsToDelete written levels version) := by
  have hok := h.flush
  have hzero : s.flush.flushed = 0 := by rw [hflush]; rfl
  rw [hflush] at hok
  have hle : walsToDelete.length ≤ s.manifest.wals.length := by
    rw [← htake, List.length_take]
    exact Nat.min_le_right _ _
  exact {
    aligned := h.aligned.commitFlush hzero hok hlen hle
    active := by
      intro q
      have hactive := h.active q
      show Active _ (s.phase q)
      cases hp : s.phase q with
      | _ => rw [hp] at hactive; exact hactive
    rotators := h.rotators
    rotatorsNodup := h.rotatorsNodup
    flush := trivial
    fresh := ⟨h.fresh.below, h.fresh.insertedBelow, h.fresh.within, h.fresh.across,
      h.fresh.inserted⟩
    safe := fun m hm => (h.safe m hm).commitFlush hzero hok hlen
    acked := h.acked
    settled := h.settled }

end FlushCommit

/-- The flush stores a version built from the current one. -/
theorem Inv.flushStore {s : Sys} (h : Inv s) {tables : List (List Entry)} {current : Version}
    (hflush : s.flush = .loaded tables current) (hcurrent : current = s.current) :
    Inv { s with current := flushVersion tables.length tables current, flush := .idle } := by
  subst hcurrent
  have hflushed : s.flush.flushed = tables.length := by rw [hflush]; rfl
  have haligned := h.aligned
  have hle := haligned.flushedLe
  have hdrop : s.current.frozenMemtables.drop tables.length ++ [s.current.mutableMemtable] =
      s.memtables.drop tables.length := by
    rw [Sys.memtables, List.drop_append_of_le_length (by omega)]
  have hindex : ∀ i, (s.memtables.drop tables.length)[0 + i]? =
      s.memtables[s.flush.flushed + i]? := by
    intro i
    rw [Nat.zero_add, List.getElem?_drop, hflushed]
  have hsub : ∀ mem ∈ s.memtables.drop tables.length, mem ∈ s.memtables :=
    fun mem hmem => List.mem_of_mem_drop hmem
  constructor
  · refine ⟨?_, Nat.zero_le _, fun i hlo hhi => ?_, ?_, fun i mem wal hi hwal => ?_, ?_, ?_⟩
    · show s.manifest.wals.length + 0 =
        (s.current.frozenMemtables.drop tables.length ++ [s.current.mutableMemtable]).length +
          s.rotators.length
      have hlength := haligned.length
      have hmemlen := length_memtables s
      rw [hdrop, List.length_drop]
      omega
    · change (s.current.frozenMemtables.drop tables.length ++ [s.current.mutableMemtable]).length -
        0 ≤ i at hlo
      rw [hdrop, List.length_drop] at hlo
      exact haligned.pending i (by omega) hhi
    · show s.manifest.wals[(s.current.frozenMemtables.drop tables.length).length - 0]? =
        some s.current.mutableWal.id
      rw [List.length_drop, ← hflushed]
      exact haligned.mutableWal
    · change (s.current.frozenMemtables.drop tables.length ++ [s.current.mutableMemtable])[0 + i]? =
        some mem at hi
      rw [hdrop, hindex] at hi
      exact haligned.covered i mem wal hi hwal
    · show (s.current.frozenMemtables.drop tables.length ++ [s.current.mutableMemtable]).Nodup
      rw [hdrop]
      exact haligned.distinct.sublist (List.drop_sublist _ _)
    · intro mem hmem
      change mem ∈ s.current.frozenMemtables.drop tables.length ++
        [s.current.mutableMemtable] at hmem
      rw [hdrop] at hmem
      exact haligned.allocated mem (hsub mem hmem)
  · intro q
    have hactive := h.active q
    show Active _ (s.phase q)
    cases hp : s.phase q with
    | _ => rw [hp] at hactive; exact hactive
  · exact h.rotators
  · exact h.rotatorsNodup
  · exact trivial
  · exact ⟨h.fresh.below, h.fresh.insertedBelow, h.fresh.within, h.fresh.across,
      h.fresh.inserted⟩
  · intro m hm
    rcases h.safe m hm with ⟨i, mem, hi, hheld⟩ | htable
    · refine .inl ⟨i, mem, ?_, hheld⟩
      show (s.current.frozenMemtables.drop tables.length ++ [s.current.mutableMemtable])[0 + i]? =
        some mem
      rw [hdrop, hindex]
      exact hi
    · exact .inr htable
  · exact h.acked
  · exact h.settled

/-! ## Every step -/

/-- A completion slot changes. -/
theorem Inv.complete {s : Sys} (h : Inv s) (r : Nat)
    (result : Option (Except DbError Completion)) : Inv (s.complete r result) where
  aligned := ⟨h.aligned.length, h.aligned.flushedLe, h.aligned.pending, h.aligned.mutableWal,
    h.aligned.covered, h.aligned.distinct, h.aligned.allocated⟩
  active := h.active
  rotators := h.rotators
  rotatorsNodup := h.rotatorsNodup
  flush := h.flush
  fresh := ⟨h.fresh.below, h.fresh.insertedBelow, h.fresh.within, h.fresh.across,
    h.fresh.inserted⟩
  safe := h.safe
  acked := h.acked
  settled := h.settled

/-- The steps before the log keep the invariant. -/
theorem Inv.stepQueue {s s' : Sys} {l : Label} (h : Inv s)
    (hs : WritePath.stepQueue s l = some s') : Inv s' := by
  cases l with
  | put r bytes value =>
      simp only [WritePath.stepQueue] at hs
      split at hs <;> cases hs
      rename_i hphase
      exact h.goto rfl trivial (by rw [hphase]; exact Iff.rfl) (List.nil_sublist _) trivial
  | queue r =>
      simp only [WritePath.stepQueue] at hs
      split at hs <;> cases hs
      rename_i hphase
      exact h.goto rfl trivial (by rw [hphase]; exact Iff.rfl) (List.nil_sublist _) trivial
  | checkCompletion r =>
      simp only [WritePath.stepQueue] at hs
      split at hs <;> cases hs
      case h_4 => exact h.complete r none
      all_goals
        rename_i hphase _
        exact h.goto rfl trivial (by rw [hphase]; exact Iff.rfl) (List.nil_sublist _) trivial
  | checkFront r =>
      simp only [WritePath.stepQueue] at hs
      split at hs
      · rename_i hphase _
        split at hs <;> cases hs
        exact h.goto rfl trivial (by rw [hphase]; exact Iff.rfl) (List.nil_sublist _) trivial
      · cases hs
  | markFollower r =>
      simp only [WritePath.stepQueue] at hs
      split at hs <;> cases hs
      all_goals
        rename_i hphase
        exact h.goto rfl trivial (by rw [hphase]; exact Iff.rfl) (List.nil_sublist _) trivial
  | _ => cases hs

/-- The steps of the log stage keep the invariant. -/
theorem Inv.stepWal {s s' : Sys} {l : Label} (h : Inv s) (hok : Undisturbed s l)
    (hs : WritePath.stepWal s l = some s') : Inv s' := by
  cases l with
  | acquireWal r =>
      simp only [WritePath.stepWal] at hs
      split at hs
      · rename_i hphase
        split at hs <;> cases hs
        exact h.goto rfl trivial (by rw [hphase]; exact Iff.rfl) (List.nil_sublist _) trivial
      · cases hs
  | takeTicket r =>
      simp only [WritePath.stepWal] at hs
      split at hs <;> cases hs
      rename_i group hphase
      exact h.goto_of_fresh trivial (by rw [hphase]; exact Iff.rfl)
        (h.fresh.takeTicket hphase (hok group hphase) rfl) trivial
  | loadWal r =>
      simp only [WritePath.stepWal] at hs
      split at hs <;> cases hs
      rename_i hphase
      exact h.goto rfl rfl (by rw [hphase]; exact Iff.rfl)
        (by rw [hphase]; exact List.Sublist.refl _)
        trivial
  | writeWal r fault =>
      simp only [WritePath.stepWal] at hs
      split at hs
      · rename_i b wal hphase
        have hwal : wal = s.current.mutableWal := by
          have hactive := h.active r
          rwa [hphase] at hactive
        have hrot : ∀ members kept, ((s.appendWal wal members kept).phase r) = .walLoaded b wal :=
          fun _ _ => hphase
        split at hs <;> cases hs
        · refine (h.appendWal wal _ []).goto rfl (fun m hm => ?_)
            (by rw [hrot]; exact Iff.rfl) (by rw [hrot]; exact List.Sublist.refl _) trivial
          show m.2 ∈ Function.update s.walFile wal.id _ s.current.mutableWal.id
          rw [hwal, Function.update_self]
          exact List.mem_append_right _ (List.mem_map_of_mem (List.mem_append_right _ hm))
        · exact (h.appendWal wal _ _).goto rfl trivial (by rw [hrot]; exact Iff.rfl)
            (List.nil_sublist _) trivial
      · cases hs
  | dropWalGuard r =>
      simp only [WritePath.stepWal] at hs
      split at hs <;> cases hs
      · rename_i b hphase
        have hactive := h.active r
        rw [hphase] at hactive
        exact h.goto rfl hactive (by rw [hphase]; exact Iff.rfl)
          (by rw [hphase]; exact List.Sublist.refl _) trivial
      · rename_i hphase
        exact h.goto rfl trivial (by rw [hphase]; exact Iff.rfl) (List.nil_sublist _) trivial
  | dropWal wal written =>
      simp only [WritePath.stepWal] at hs
      split at hs <;> cases hs
      exact h.appendWal wal _ _
  | _ => cases hs

/-- The steps of the memtable stage keep the invariant. -/
theorem Inv.stepMemtable {maxMemtableSize : Nat} {s s' : Sys} {l : Label} (h : Inv s)
    (hs : WritePath.stepMemtable maxMemtableSize s l = some s') : Inv s' := by
  cases l with
  | enterMemtable r =>
      simp only [WritePath.stepMemtable] at hs
      split at hs
      · rename_i b hphase
        have hactive := h.active r
        rw [hphase] at hactive
        split at hs <;> cases hs
        exact h.goto rfl hactive (by rw [hphase]; exact Iff.rfl)
          (by rw [hphase]; exact List.Sublist.refl _) trivial
      · cases hs
  | loadMemtable r =>
      simp only [WritePath.stepMemtable] at hs
      split at hs <;> cases hs
      rename_i b hphase
      have hactive := h.active r
      rw [hphase] at hactive
      exact h.goto rfl ⟨rfl, hactive⟩ (by rw [hphase]; exact Iff.rfl)
        (by rw [hphase]; exact List.Sublist.refl _) (fun m hm => .inl hm)
  | insert r =>
      simp only [WritePath.stepMemtable] at hs
      split at hs <;> cases hs
      · rename_i hphase
        exact h.insert hphase
      · rename_i b mem hphase
        have hsettled := h.settled r
        rw [hphase] at hsettled
        exact h.goto rfl trivial (by rw [hphase]; exact Iff.rfl) (List.nil_sublist _)
          (fun m hm => (hsettled m hm).resolve_left List.not_mem_nil)
  | checkSize r =>
      simp only [WritePath.stepMemtable] at hs
      split at hs
      · rename_i b hphase
        have hsettled := h.settled r
        rw [hphase] at hsettled
        split at hs <;> cases hs <;>
          exact h.goto rfl trivial (by rw [hphase]; exact Iff.rfl) (List.nil_sublist _) hsettled
      · cases hs
  | dropTicketGuard r =>
      simp only [WritePath.stepMemtable] at hs
      split at hs <;> cases hs
      · rename_i b hphase
        have hsettled := h.settled r
        rw [hphase] at hsettled
        exact h.goto rfl trivial (by rw [hphase]; exact Iff.rfl) (List.nil_sublist _) hsettled
      all_goals
        rename_i hphase
        exact h.goto rfl trivial (by rw [hphase]; exact Iff.rfl) (List.nil_sublist _) trivial
  | dropGroupGuard r =>
      simp only [WritePath.stepMemtable] at hs
      split at hs <;> cases hs
      case h_1 b m rest hphase =>
        have hsettled := h.settled r
        rw [hphase] at hsettled
        have hack := h.acknowledge (hsettled m List.mem_cons_self) b.lsn
        have hsame : (s.acknowledge m b.lsn).phase r = .leaderFinishingWrite b (m :: rest) := hphase
        exact hack.goto rfl trivial (by rw [hsame]; exact Iff.rfl) (List.nil_sublist _)
          (fun n hn => hsettled n (List.mem_cons_of_mem m hn))
      case h_5 b m rest e hphase =>
        have hsettled := h.settled r
        rw [hphase] at hsettled
        have hack := h.acknowledge (hsettled m List.mem_cons_self) b.lsn
        have hsame : (s.acknowledge m b.lsn).phase r = .rotateFailed b (m :: rest) e := hphase
        exact hack.goto rfl trivial (by rw [hsame]; exact Iff.rfl) (List.nil_sublist _)
          (fun n hn => hsettled n (List.mem_cons_of_mem m hn))
      all_goals
        rename_i hphase
        exact h.goto rfl trivial (by rw [hphase]; exact Iff.rfl) (List.nil_sublist _) trivial
  | _ => cases hs

/-- A leader whose rotation does not reach its commit goes on to its clean-up. -/
theorem Inv.failRotation {s : Sys} (h : Inv s) {r : Nat} {b : Batch} (e : DbError)
    (hphase : s.phase r = .rotateCommit b) : Inv (s.goto r (.rotateFailed b b.members e)) := by
  have hsettled := h.settled r
  rw [hphase] at hsettled
  exact h.goto rfl trivial (by rw [hphase]; exact Iff.rfl) (List.nil_sublist _) hsettled

/-- The steps of a rotation keep the invariant. -/
theorem Inv.stepRotate {s s' : Sys} {l : Label} (h : Inv s) (hok : Undisturbed s l)
    (hs : WritePath.stepRotate s l = some s') : Inv s' := by
  cases l with
  | commitRotation r fault =>
      simp only [WritePath.stepRotate, rotateMutator, List.getLast?_concat] at hs
      split at hs <;> cases hs
      · rename_i hphase
        exact h.failRotation _ hphase
      · rename_i hphase
        exact h.commitRotation hphase
  | openRotation r fault =>
      have hnone : fault = none := hok
      subst hnone
      simp only [WritePath.stepRotate] at hs
      split at hs
      · rename_i hphase _
        cases hs
        have hactive := h.active r
        have hsettled := h.settled r
        rw [hphase] at hactive hsettled
        exact h.goto rfl hactive (by rw [hphase]; exact Iff.rfl) (List.nil_sublist _) hsettled
      · rename_i hfault
        cases hfault
      · cases hs
  | loadRotation r =>
      simp only [WritePath.stepRotate] at hs
      split at hs <;> cases hs
      rename_i hphase
      have hactive := h.active r
      have hsettled := h.settled r
      rw [hphase] at hactive hsettled
      exact h.goto rfl hactive (by rw [hphase]; exact Iff.rfl) (List.nil_sublist _) hsettled
  | storeRotation r =>
      simp only [WritePath.stepRotate] at hs
      split at hs <;> cases hs
      rename_i b newWal current hphase
      obtain ⟨rfl, hothers⟩ := hok b newWal current hphase
      exact h.storeRotation hphase hothers
  | _ => cases hs

/-- The steps of a flush keep the invariant. -/
theorem Inv.stepFlush {s s' : Sys} {l : Label} (h : Inv s) (hok : Undisturbed s l)
    (hs : WritePath.stepFlush s l = some s') : Inv s' := by
  cases l with
  | flushStart =>
      simp only [WritePath.stepFlush] at hs
      split at hs
      · rename_i hflush
        split at hs
        · cases hs
        · split at hs <;> cases hs
          rename_i hlen
          exact h.flushMove (by rw [hflush]; rfl)
            ⟨List.prefix_refl _, Decidable.not_not.mp hlen,
              fun i table hi => absurd hi (by simp)⟩
      · cases hs
  | flushWrite =>
      simp only [WritePath.stepFlush] at hs
      split at hs
      · rename_i memtables walsToDelete written hflush
        split at hs <;> cases hs
        rename_i mem hmem
        have hold := h.flush
        rw [hflush] at hold
        refine h.flushMove (by rw [hflush]; rfl) ⟨hold.1, hold.2.1, fun i table hi => ?_⟩
        by_cases hlt : i < written.length
        · rw [List.getElem?_append_left hlt] at hi
          exact hold.2.2 i table hi
        · obtain ⟨hbound, _⟩ := List.getElem?_eq_some_iff.mp hi
          rw [List.length_append, List.length_singleton] at hbound
          have hi' : i = written.length := by omega
          subst hi'
          rw [List.getElem?_concat_length] at hi
          cases hi
          exact ⟨mem, hmem, rfl⟩
      · cases hs
  | flushCommit newSstables =>
      simp only [WritePath.stepFlush] at hs
      split at hs
      · rename_i memtables walsToDelete written hflush
        split at hs
        · cases hs
        · rename_i hlen
          obtain ⟨levels, hfold⟩ := foldl_pushL0_eq newSstables s.manifest
          simp only [flushMutator, hfold] at hs
          by_cases htake : s.manifest.wals.take walsToDelete.length = walsToDelete
          · simp only [htake, ne_eq, not_true_eq_false, if_false, Option.some.injEq] at hs
            subst hs
            exact h.flushCommit hflush (by omega) htake
          · simp only [ne_eq, htake, not_false_eq_true, if_true, Option.some.injEq] at hs
            subst hs
            exact h.flushMove (by rw [hflush]; rfl) trivial
      · cases hs
  | flushLoad =>
      simp only [WritePath.stepFlush] at hs
      split at hs <;> cases hs
      rename_i hflush
      exact h.flushMove (by rw [hflush]; rfl) trivial
  | flushStore =>
      simp only [WritePath.stepFlush] at hs
      split at hs <;> cases hs
      rename_i tables current hflush
      exact h.flushStore hflush (hok tables current hflush)
  | flushFail =>
      simp only [WritePath.stepFlush] at hs
      split at hs <;> cases hs
      rename_i hflush
      exact h.flushMove (by rw [hflush]; rfl) trivial
  | _ => cases hs

/-- Every step that meets the condition keeps the invariant. -/
theorem Inv.step {maxMemtableSize : Nat} {s s' : Sys} {l : Label} (h : Inv s)
    (hok : Undisturbed s l) (hs : WritePath.step maxMemtableSize s l = some s') : Inv s' := by
  rcases step_cases hs with hs | hs | hs | hs | hs
  · exact h.stepQueue hs
  · exact h.stepWal hok hs
  · exact h.stepMemtable hs
  · exact h.stepRotate hok hs
  · exact h.stepFlush hok hs

/-- The invariant holds before any write. -/
theorem Start.inv {s : Sys} (h : Start s) : Inv s := by
  obtain ⟨hinserted, hacked, _, hrotators⟩ := h.recorded
  have hflushed : s.flush.flushed = 0 := by rw [h.flush]; rfl
  have hpending : ∀ r, (s.phase r).pending = [] := fun r => by rw [h.phase r]; rfl
  have hnone : ∀ r, ∀ m ∈ (s.phase r).pending, False := fun r m hm => by
    rw [hpending r] at hm
    exact absurd hm List.not_mem_nil
  constructor
  · refine ⟨?_, ?_, fun i hlo hhi => ?_, ?_, fun i mem wal hi => ?_, h.distinct, h.allocated⟩
    · rw [hflushed, hrotators, length_memtables, h.aligned]
      rfl
    · rw [hflushed]
      exact Nat.zero_le _
    · rw [hflushed, length_memtables] at hlo
      rw [h.aligned] at hhi
      omega
    · rw [hflushed, ← h.mutableWal, List.getLast?_eq_getElem?, h.aligned]
      rfl
    · rw [hflushed, Nat.zero_add] at hi
      exact h.covered i mem wal hi
  · exact fun r => by rw [h.phase r]; exact trivial
  · intro r
    rw [hrotators, h.phase r]
    exact iff_of_false List.not_mem_nil id
  · rw [hrotators]
    exact List.nodup_nil
  · rw [h.flush]
    exact trivial
  · refine ⟨fun r m hm => (hnone r m hm).elim, ?_, fun r => ?_, fun r _ _ m hm =>
      (hnone r m hm).elim, fun r m hm => (hnone r m hm).elim⟩
    · rw [hinserted]
      exact fun m hm => absurd hm List.not_mem_nil
    · rw [hpending r]
      exact List.Pairwise.nil
  · rw [hinserted]
    exact fun m hm => absurd hm List.not_mem_nil
  · rw [hacked]
    exact fun m hm => absurd hm List.not_mem_nil
  · exact fun r => by rw [h.phase r]; exact trivial

/-- Every memtable is covered by its own log in every run whose steps meet the condition. -/
theorem covered_of_undisturbed (maxMemtableSize : Nat) {s : Sys}
    (h : Reach (step maxMemtableSize) Start Undisturbed s) : Covered s :=
  (h.invariant (fun _ => Start.inv) (fun _ _ _ hinv hok hs => Inv.step hinv hok hs)).covered

/-- A writer puts an entry and leads its own group to the log stage. -/
def lead (r : Nat) (bytes : Bytes) (value : Value) : List Label :=
  [.put r bytes value, .queue r, .checkFront r, .markFollower r, .markFollower r, .acquireWal r]

/-- A leader with a ticket writes its log and inserts its entry. -/
def writeBoth (r : Nat) : List Label :=
  [.loadWal r, .writeWal r none, .dropWalGuard r, .enterMemtable r, .loadMemtable r, .insert r,
    .insert r, .checkSize r]

/-- A leader rotates the memtable up to the store of the version. -/
def rotate (r : Nat) : List Label := [.commitRotation r none, .openRotation r none, .loadRotation r]

/-- A leader ends its write. -/
def finish (r : Nat) : List Label := [.dropTicketGuard r, .dropGroupGuard r, .dropGroupGuard r]

/-- A flush of one memtable up to the store of the version. -/
def flushOne (table : FileMetadata) : List Label :=
  [.flushStart, .flushWrite, .flushCommit [table], .flushLoad]

/-- The metadata of the table flushed below. -/
def tableOne : FileMetadata where
  fileId := 0
  fileSize := 0
  minKey := Key.new [97] 1
  maxKey := Key.new [97] 1

/-- The labels of a write, a rotation and a flush one after the other. -/
def oneFlush : List Label :=
  lead 0 [97] (.bytes [1]) ++ (.takeTicket 0 :: writeBoth 0 ++ rotate 0) ++
    (.storeRotation 0 :: finish 0 ++ flushOne tableOne) ++ [.flushStore]

/-- The run `oneFlush` meets the condition. -/
theorem covered_one_flush : ∃ s, run (step 0) pristine oneFlush = some s ∧ Covered s := by
  have hlead : ∀ l ∈ lead 0 [97] (.bytes [1]), ∀ s, Undisturbed s l := by
    simp [lead, Undisturbed]
  have hrotate : ∀ l ∈ writeBoth 0 ++ rotate 0, ∀ s, Undisturbed s l := by
    simp [writeBoth, rotate, Undisturbed]
  have hflush : ∀ l ∈ finish 0 ++ flushOne tableOne, ∀ s, Undisturbed s l := by
    simp [finish, flushOne, Undisturbed]
  obtain ⟨s₁, hrun₁, hphase₁, hlsn₁⟩ : ∃ s, run (step 0) pristine (lead 0 [97] (.bytes [1])) =
      some s ∧ s.phase 0 = .leaderWritingWal [0] ∧ s.syncs.nextLsn = 1 := ⟨_, rfl, rfl, rfl⟩
  obtain ⟨s₂, hrun₂, hphase₂, hcurrent₂, hothers⟩ : ∃ s, run (step 0) pristine
      (lead 0 [97] (.bytes [1]) ++ (.takeTicket 0 :: writeBoth 0 ++ rotate 0)) = some s ∧
      s.phase 0 = .rotateStore ⟨[(0, Key.new [97] 1, .bytes [1])], 0, 1⟩ 1 pristine.current ∧
      s.current = pristine.current ∧ ∀ q, s.phase (q + 1) = .idle :=
    ⟨_, rfl, rfl, rfl, fun _ => rfl⟩
  obtain ⟨s₃, hrun₃, hloaded, hcurrent₃⟩ : ∃ s, run (step 0) pristine
      (lead 0 [97] (.bytes [1]) ++ (.takeTicket 0 :: writeBoth 0 ++ rotate 0) ++
        (.storeRotation 0 :: finish 0 ++ flushOne tableOne)) = some s ∧
      s.flush = .loaded [[(Key.new [97] 1, .bytes [1])]] ⟨1, 1, [0], ⟨1, 1⟩, []⟩ ∧
      s.current = ⟨1, 1, [0], ⟨1, 1⟩, []⟩ := ⟨_, rfl, rfl, rfl⟩
  obtain ⟨s₄, hrun₄⟩ : ∃ s, run (step 0) pristine oneFlush = some s := ⟨_, rfl⟩
  have hreach₁ : Reach (step 0) Start Undisturbed s₁ :=
    (Reach.start start_pristine).of_run_ok hlead hrun₁
  have hreach₂ : Reach (step 0) Start Undisturbed s₂ := by
    refine hreach₁.of_run_cons_ok ?_ hrotate (run_of_append hrun₁ hrun₂)
    intro group hgroup
    rw [hphase₁] at hgroup
    cases hgroup
    rw [hlsn₁]
    decide
  have hreach₃ : Reach (step 0) Start Undisturbed s₃ := by
    refine hreach₂.of_run_cons_ok ?_ hflush (run_of_append hrun₂ hrun₃)
    intro c w current hc
    rw [hphase₂] at hc
    cases hc
    refine ⟨hcurrent₂.symm, fun q hq => ?_⟩
    obtain ⟨q, rfl⟩ := Nat.exists_eq_succ_of_ne_zero hq
    rw [hothers]
    exact id
  refine ⟨s₄, hrun₄, covered_of_undisturbed 0 (hreach₃.of_run_cons_ok ?_
    (fun l hl => absurd hl List.not_mem_nil) (run_of_append hrun₃ hrun₄))⟩
  intro t current ht
  rw [hloaded] at ht
  cases ht
  exact hcurrent₃.symm

/-- Writer 1 has written the log of the first memtable when writer 0 rotates, and its entry goes
into the second memtable. The first memtable is flushed, and writer 1 rotates and is told that
its write has succeeded. -/
def overtaken : List Label :=
  lead 0 [97] (.bytes [1]) ++ [.takeTicket 0, .loadWal 0, .writeWal 0 none, .dropWalGuard 0] ++
  lead 1 [98] (.bytes [2]) ++ [.takeTicket 1, .loadWal 1, .writeWal 1 none, .dropWalGuard 1] ++
  [.enterMemtable 0, .loadMemtable 0, .insert 0, .insert 0, .checkSize 0] ++ rotate 0 ++
    [.storeRotation 0] ++ finish 0 ++
  [.enterMemtable 1, .loadMemtable 1, .insert 1, .insert 1] ++ flushOne tableOne ++
    [.flushStore] ++
  [.checkSize 1] ++ rotate 1 ++ [.storeRotation 1] ++ finish 1

/-- After `overtaken` no rotation or flush is being published, and the acknowledged entry of writer
1 is in a frozen memtable, but neither in a listed log nor in a table. -/
theorem acked_uncovered : ∃ s, Reach (step 0) Start anyStep s ∧ Quiet s ∧
    s.current.frozenMemtables = [1] ∧ ∃ m ∈ s.acked, m.2 ∈ s.held 1 ∧
      (∀ wal ∈ s.manifest.wals, m.2 ∉ s.walFile wal) ∧ ∀ table ∈ s.tables, m.2 ∉ table := by
  have hend : (run (step 0) pristine overtaken).map (fun s =>
      (s.manifest.wals, s.walFile 1, s.tables)) =
      some ([1, 1], [], [[(Key.new [97] 1, .bytes [1])]]) := by
    decide +kernel
  have hmems : (run (step 0) pristine overtaken).map (fun s =>
      (s.current.frozenMemtables, s.held 1)) =
      some ([1], [(Key.new [98] 2, .bytes [2])]) := by
    decide +kernel
  have hphases : (run (step 0) pristine overtaken).map (fun s =>
      (decide (s.phase 0).rotating, decide (s.phase 1).rotating, s.flush.flushed,
        s.acked.head?.map Prod.snd)) =
      some (false, false, 0, some (Key.new [98] 2, .bytes [2])) := by
    decide +kernel
  obtain ⟨s, hrun, hdata⟩ := Option.map_eq_some_iff.mp hend
  rw [hrun, Option.map_some, Option.some.injEq] at hphases hmems
  simp only [Prod.mk.injEq, decide_eq_false_iff_not, Option.map_eq_some_iff] at hphases hmems hdata
  obtain ⟨hwals, hlog, htables⟩ := hdata
  obtain ⟨hfrozen, hheld⟩ := hmems
  obtain ⟨hphase₀, hphase₁, hflush, m, hacked, hm⟩ := hphases
  have hothers : ∀ l ∈ overtaken, l.writer = none ∨ l.writer = some 0 ∨ l.writer = some 1 := by
    decide
  refine ⟨s, Reach.of_run (.start start_pristine) hrun, ⟨fun r => ?_, hflush⟩, hfrozen, m,
    List.mem_of_mem_head? hacked, ?_, ?_, ?_⟩
  · match r with
    | 0 => exact hphase₀
    | 1 => exact hphase₁
    | r + 2 =>
        rw [phase_of_run hrun fun l hl hr => ?_]
        · exact id
        · rcases hothers l hl with h | h | h <;> simp [h] at hr
  · rw [hheld, hm]
    exact List.mem_singleton.mpr rfl
  · rw [hwals]
    intro wal hwal
    rw [show wal = 1 by simpa using hwal, hlog]
    exact List.not_mem_nil
  · rw [htables, hm]
    intro table htable
    rw [List.mem_singleton.mp htable]
    decide

end EasyLsm.WritePath
