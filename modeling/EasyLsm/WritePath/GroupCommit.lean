import Mathlib.Data.List.Infix
import EasyLsm.Lib.Pipeline
import EasyLsm.WritePath.Groups

/-!
# Group commit

A group goes through the log and the memtable as a batch goes through a two-stage pipeline, so
the writers simulate one (`Staged`). `exactly_once` puts this together with the groups and the
LSNs: in every run of the writers in which log writes and rotations succeed, every queued request
is drained into one group, and every accepted write is once in the logs and once in a memtable,
with one LSN, and the entries reach both in LSN order.

LSNs are `u64`. The run may not hand out more than `2 ^ 64` of them: `next_lsn` wraps around
there, and a later write gets a smaller LSN (`lsn_wraps`).
-/

namespace EasyLsm.WritePath

open Lib

/-- The steps of the writers in which log writes and rotations succeed. -/
def WritersSucceed (_ : History) : Label → Prop
  | .writeWal _ fault => fault = none
  | .commitRotation _ fault | .openRotation _ fault => fault = none
  | .flushStart | .flushWrite | .flushCommit _ | .flushLoad | .flushStore | .flushFail => False
  | _ => True

/-- A leader that takes its ticket finds enough LSNs for its group. -/
def LsnsLeft (h : History) : Label → Prop
  | .takeTicket r => ∀ group, h.sys.phase r = .leaderWritingWal group →
      h.sys.syncs.nextLsn + group.length ≤ 2 ^ 64
  | _ => True

/-- The stamped entries of all batches, in ticket order. -/
def History.entries (h : History) : List (Nat × Entry) := h.batches.flatMap fun x => x.2.members

/-- Where a leader is in the pipeline. -/
def Phase.stage : Phase → Pipeline.Role (Nat × Entry)
  | .leaderWritingWal _ => .holding
  | .walTicket b | .walLoaded b _ => .logging b.ticket b.members
  | .walWritten b => .logged b.ticket b.members
  | .leaderWaitingToWriteMemtable b => .waiting b.ticket b.members
  | .leaderWritingMemtable b => .inside b.ticket b.members
  | .inserting b _ rest => .inside b.ticket rest
  | .inserted b | .rotateCommit b | .rotateOpen b _ | .rotateLoad b _ | .rotateStore b _ _
  | .memtableDone b => .inside b.ticket []
  | _ => .none

/-- A log write or a rotation of the leader has failed. -/
def Phase.failed : Phase → Prop
  | .walFailed _ _ | .ticketFailed _ _ | .groupFailed _ _ | .rotateFailed _ _ _
  | .rotateFailedTicket _ _ => True
  | _ => False

/-- The pipeline of a state, with the batches taken so far. -/
structure Staged (s : Sys) (taken : List (Nat × Batch))
    (a : Pipeline.State Nat (Nat × Entry)) : Prop where
  batches : a.batches = taken.map fun x => (x.1, x.2.members)
  tickets : taken.length = s.syncs.nextTicket
  role : ∀ r, a.role r = (s.phase r).stage
  clean : ∀ r, ¬ (s.phase r).failed
  busy : a.busy = s.syncs.walBusy
  log : a.log = s.appended
  applied : a.applied = s.inserted
  turn : a.turn = s.syncs.ticketToMem

/-- A step leaves the pipeline alone, or makes one of its moves. -/
abbrev StagedStep (s' : Sys) (taken : List (Nat × Batch))
    (a : Pipeline.State Nat (Nat × Entry)) : Prop :=
  Staged s' taken a ∨ ∃ m a', Pipeline.step a m = some a' ∧ Staged s' taken a'

namespace Staged

variable {s s' : Sys} {taken : List (Nat × Batch)} {a a' : Pipeline.State Nat (Nat × Entry)}
  {r : Nat} {p : Phase}

/-- A writer moves, and so does its party of the pipeline. -/
theorem move {t : Sys} {taken' : List (Nat × Batch)} (h : Staged s taken a)
    (hphase : t.phase = s.phase) (hclean : ¬ p.failed)
    (hrole : a'.role = Function.update a.role r p.stage)
    (hbatches : a'.batches = taken'.map fun x => (x.1, x.2.members))
    (htickets : taken'.length = t.syncs.nextTicket) (hbusy : a'.busy = t.syncs.walBusy)
    (hlog : a'.log = t.appended) (happlied : a'.applied = t.inserted)
    (hturn : a'.turn = t.syncs.ticketToMem) : Staged (t.goto r p) taken' a' := by
  refine ⟨hbatches, htickets, fun q => ?_, fun q => ?_, hbusy, hlog, happlied, hturn⟩
  · rw [hrole]
    simp only [Sys.goto, hphase]
    by_cases heq : q = r
    · subst heq
      rw [Function.update_self, Function.update_self]
    · rw [Function.update_of_ne heq, Function.update_of_ne heq, h.role]
  · simp only [Sys.goto, hphase]
    by_cases heq : q = r
    · subst heq
      rw [Function.update_self]
      exact hclean
    · rw [Function.update_of_ne heq]
      exact h.clean q

/-- A writer moves within a stage. -/
theorem stutter {t : Sys} (h : Staged s taken a) (hphase : t.phase = s.phase)
    (hclean : ¬ p.failed) (hstage : p.stage = (s.phase r).stage)
    (htickets : t.syncs.nextTicket = s.syncs.nextTicket)
    (hbusy : t.syncs.walBusy = s.syncs.walBusy)
    (hlog : t.appended = s.appended) (happlied : t.inserted = s.inserted)
    (hturn : t.syncs.ticketToMem = s.syncs.ticketToMem) : Staged (t.goto r p) taken a := by
  refine h.move hphase hclean ?_ h.batches (h.tickets.trans htickets.symm) (h.busy.trans hbusy.symm)
    (h.log.trans hlog.symm) (h.applied.trans happlied.symm) (h.turn.trans hturn.symm)
  rw [hstage, ← h.role, Function.update_eq_self]

theorem stepQueue {l : Label} (h : Staged s taken a) (hs : stepQueue s l = some s') :
    Staged s' taken a := by
  cases l with
  | put r bytes value =>
      simp only [WritePath.stepQueue] at hs
      split at hs <;> cases hs
      rename_i hr
      exact h.stutter rfl id (by rw [hr]; rfl) rfl rfl rfl rfl rfl
  | queue r =>
      simp only [WritePath.stepQueue] at hs
      split at hs <;> cases hs
      rename_i hr
      exact h.stutter rfl id (by rw [hr]; rfl) rfl rfl rfl rfl rfl
  | checkCompletion r =>
      simp only [WritePath.stepQueue] at hs
      split at hs <;> cases hs
      case h_4 => exact ⟨h.batches, h.tickets, h.role, h.clean, h.busy, h.log, h.applied, h.turn⟩
      all_goals
        rename_i hr _
        exact h.stutter rfl id (by rw [hr]; rfl) rfl rfl rfl rfl rfl
  | checkFront r =>
      simp only [WritePath.stepQueue] at hs
      split at hs
      · rename_i hr _
        split at hs <;> cases hs
        exact h.stutter rfl id (by rw [hr]; rfl) rfl rfl rfl rfl rfl
      · cases hs
  | markFollower r =>
      simp only [WritePath.stepQueue] at hs
      split at hs <;> cases hs
      · rename_i hr
        exact h.stutter rfl id (by rw [hr]; rfl) rfl rfl rfl rfl rfl
      · rename_i hr
        exact h.stutter rfl id (by rw [hr]; rfl) rfl rfl rfl rfl rfl
  | _ => cases hs

/-- A leader takes its ticket and its LSNs. -/
theorem takeTicket {group : List Nat} (h : Staged s taken a)
    (hr : s.phase r = .leaderWritingWal group) {b : Batch} (hb : b.ticket = s.syncs.nextTicket)
    {t : Sys} (hphase : t.phase = s.phase) (hnext : t.syncs.nextTicket = s.syncs.nextTicket + 1)
    (hbusy : t.syncs.walBusy = s.syncs.walBusy) (hlog : t.appended = s.appended)
    (happlied : t.inserted = s.inserted) (hturn : t.syncs.ticketToMem = s.syncs.ticketToMem) :
    StagedStep (t.goto r (.walTicket b)) (taken ++ [(r, b)]) a := by
  have hticket : b.ticket = a.batches.length := by
    rw [hb, ← h.tickets, h.batches, List.length_map]
  refine .inr ⟨.take r b.members, { a with batches := a.batches ++ [(r, b.members)] }.goto r
    (.logging a.batches.length b.members), ?_,
    h.move hphase id (by rw [Phase.stage, hticket]; rfl) ?_ ?_ (h.busy.trans hbusy.symm)
      (h.log.trans hlog.symm) (h.applied.trans happlied.symm) (h.turn.trans hturn.symm)⟩
  · simp only [Pipeline.step, h.role r, hr, Phase.stage]
  · simp only [Pipeline.State.goto, h.batches, List.map_append, List.map_cons, List.map_nil]
  · rw [hnext, ← h.tickets, List.length_append, List.length_singleton]

theorem stepWal {l : Label} (h : Staged s taken a) (hflushed : s.Flushed)
    (hs : stepWal s l = some s')
    (hfault : ∀ r fault, l = .writeWal r fault → fault = none) (hticket : ∀ r, l ≠ .takeTicket r) :
    StagedStep s' taken a := by
  cases l with
  | acquireWal r =>
      simp only [WritePath.stepWal] at hs
      split at hs
      · rename_i group hr
        split at hs
        · cases hs
        · rename_i hfree
          cases hs
          refine .inr ⟨.acquire r, { a with busy := true }.goto r .holding, ?_,
            h.move rfl id rfl h.batches h.tickets rfl h.log h.applied h.turn⟩
          simp only [Pipeline.step, h.role r, hr, Phase.stage, h.busy, hfree]
          rfl
      · cases hs
  | takeTicket r => exact absurd rfl (hticket r)
  | loadWal r =>
      simp only [WritePath.stepWal] at hs
      split at hs <;> cases hs
      rename_i b hr
      exact .inl (h.stutter rfl id (by rw [hr]; rfl) rfl rfl rfl rfl rfl)
  | writeWal r fault =>
      cases hfault r fault rfl
      simp only [WritePath.stepWal] at hs
      split at hs <;> cases hs
      rename_i b wal hr
      rw [hflushed wal, List.nil_append]
      refine .inr ⟨.append r, { a with log := a.log ++ b.members }.goto r
        (.logged b.ticket b.members), ?_, h.move (t := s.appendWal wal b.members []) rfl id rfl
        h.batches h.tickets h.busy ?_ h.applied h.turn⟩
      · simp only [Pipeline.step, h.role r, hr, Phase.stage]
      · simp only [Sys.appendWal, Pipeline.State.goto, h.log]
  | dropWalGuard r =>
      simp only [WritePath.stepWal] at hs
      split at hs <;> cases hs
      · rename_i b hr
        refine .inr ⟨.release r, { a with busy := false }.goto r
          (.waiting b.ticket b.members), ?_,
          h.move (t := s.dropWalGuard) rfl id rfl h.batches h.tickets rfl h.log h.applied
            h.turn⟩
        simp only [Pipeline.step, h.role r, hr, Phase.stage]
      · rename_i b e hr
        exact absurd (by rw [hr]; trivial) (h.clean r)
  | dropWal wal written =>
      simp only [WritePath.stepWal] at hs
      split at hs <;> cases hs
      rw [hflushed wal, List.take_nil]
      refine .inl ⟨h.batches, h.tickets, h.role, h.clean, h.busy, ?_, h.applied, h.turn⟩
      simp only [Sys.appendWal, h.log, List.append_nil]
  | _ => cases hs

theorem stepMemtable {maxMemtableSize : Nat} {l : Label} (h : Staged s taken a)
    (hs : stepMemtable maxMemtableSize s l = some s') : StagedStep s' taken a := by
  cases l with
  | enterMemtable r =>
      simp only [WritePath.stepMemtable] at hs
      split at hs
      · rename_i b hr
        split at hs
        · rename_i hturn
          cases hs
          refine .inr ⟨.enter r, a.goto r (.inside b.ticket b.members), ?_,
            h.move rfl id rfl h.batches h.tickets h.busy h.log h.applied h.turn⟩
          simp only [Pipeline.step, h.role r, hr, Phase.stage, h.turn, hturn, if_true]
        · cases hs
      · cases hs
  | loadMemtable r =>
      simp only [WritePath.stepMemtable] at hs
      split at hs <;> cases hs
      rename_i b hr
      exact .inl (h.stutter rfl id (by rw [hr]; rfl) rfl rfl rfl rfl rfl)
  | insert r =>
      simp only [WritePath.stepMemtable] at hs
      split at hs <;> cases hs
      · rename_i b mem m rest hr
        refine .inr ⟨.apply r, { a with applied := a.applied ++ [m] }.goto r
          (.inside b.ticket rest), ?_, h.move (t := s.insertEntry mem m) rfl id rfl h.batches
          h.tickets h.busy h.log ?_ h.turn⟩
        · simp only [Pipeline.step, h.role r, hr, Phase.stage]
        · simp only [Sys.insertEntry, Pipeline.State.goto, h.applied]
      · rename_i b mem hr
        exact .inl (h.stutter rfl id (by rw [hr]; rfl) rfl rfl rfl rfl rfl)
  | checkSize r =>
      simp only [WritePath.stepMemtable] at hs
      split at hs
      · rename_i b hr
        split at hs <;> cases hs <;>
          exact .inl (h.stutter rfl id (by rw [hr]; rfl) rfl rfl rfl rfl rfl)
      · cases hs
  | dropTicketGuard r =>
      simp only [WritePath.stepMemtable] at hs
      split at hs <;> cases hs
      · rename_i b hr
        refine .inr ⟨.leave r, { a with turn := a.turn + 1 }.goto r .none, ?_,
          h.move (t := s.dropTicketGuard) rfl id rfl h.batches h.tickets h.busy h.log h.applied ?_⟩
        · simp only [Pipeline.step, h.role r, hr, Phase.stage]
        · simp only [Sys.dropTicketGuard, Pipeline.State.goto, h.turn]
      all_goals
        rename_i hr
        exact absurd (by rw [hr]; trivial) (h.clean r)
  | dropGroupGuard r =>
      simp only [WritePath.stepMemtable] at hs
      split at hs <;> cases hs
      · rename_i b m rest hr
        exact .inl (h.stutter rfl id (by rw [hr]; rfl) rfl rfl rfl rfl rfl)
      · rename_i b hr
        exact .inl (h.stutter rfl id (by rw [hr]; rfl) rfl rfl rfl rfl rfl)
      all_goals
        rename_i hr
        exact absurd (by rw [hr]; trivial) (h.clean r)
  | _ => cases hs

theorem stepRotate {l : Label} (h : Staged s taken a) (hs : stepRotate s l = some s')
    (hok : ∀ t, WritersSucceed t l) : Staged s' taken a := by
  cases l with
  | commitRotation r fault =>
      cases hok (History.begin s)
      simp only [WritePath.stepRotate, rotateMutator, List.getLast?_append,
        List.getLast?_singleton] at hs
      split at hs
      · rename_i heq
        cases heq
      · rename_i hr _
        cases hs
        exact h.stutter rfl id (by rw [hr]; rfl) rfl rfl rfl rfl rfl
      · cases hs
  | openRotation r fault =>
      cases hok (History.begin s)
      simp only [WritePath.stepRotate] at hs
      split at hs
      · rename_i hr _
        cases hs
        exact h.stutter rfl id (by rw [hr]; rfl) rfl rfl rfl rfl rfl
      · rename_i heq
        cases heq
      · cases hs
  | loadRotation r =>
      simp only [WritePath.stepRotate] at hs
      split at hs <;> cases hs
      rename_i hr
      exact h.stutter rfl id (by rw [hr]; rfl) rfl rfl rfl rfl rfl
  | storeRotation r =>
      simp only [WritePath.stepRotate] at hs
      split at hs <;> cases hs
      rename_i hr
      exact h.stutter rfl id (by rw [hr]; rfl) rfl rfl rfl rfl rfl
  | _ => cases hs

end Staged

/-! ## The LSNs -/

/-- The leader has taken its ticket. -/
def Phase.ticketed : Phase → Prop
  | .idle | .waitingToBeQueued | .seekingMembership | .formingGroup _ _
  | .followerWaitingCompletion | .leaderWaitingToWriteWal _ | .leaderWritingWal _ => False
  | _ => True

/-- A stamped group continues the LSNs of the entries before it. -/
theorem lsns_append_stamp {entries : List (Nat × Entry)} {request : Nat → Bytes × Value}
    {lsn : Nat} {group : List Nat}
    (hlsns : entries.Pairwise fun m n => m.2.1.lsn < n.2.1.lsn)
    (hbelow : ∀ m ∈ entries, m.2.1.lsn.toNat < lsn) (hroom : lsn + group.length ≤ 2 ^ 64) :
    ((entries ++ stamp request lsn group).Pairwise fun m n => m.2.1.lsn < n.2.1.lsn) ∧
      ∀ m ∈ entries ++ stamp request lsn group, m.2.1.lsn.toNat < lsn + group.length := by
  refine ⟨List.pairwise_append.mpr ⟨hlsns, stamp_increasing hroom, fun m hm n hn => ?_⟩,
    fun m hm => ?_⟩
  · have hlt := hbelow m hm
    have hle := (lsn_of_mem_stamp hroom hn).1
    exact UInt64.lt_iff_toNat_lt.mpr (by omega)
  · rcases List.mem_append.mp hm with hm | hm
    · have hlt := hbelow m hm
      omega
    · exact (lsn_of_mem_stamp hroom hm).2

/-- The batches come from different groups, and their entries have different requests and
increasing LSNs, all taken from `next_lsn`. -/
structure Stamped (h : History) : Prop where
  lsns : h.entries.Pairwise fun m n => m.2.1.lsn < n.2.1.lsn
  below : ∀ m ∈ h.entries, m.2.1.lsn.toNat < h.sys.syncs.nextLsn
  grouped : ∀ x ∈ h.batches, (x.1, x.2.members.map Prod.fst) ∈ h.groups
  ticketed : ∀ x ∈ h.batches, (h.sys.phase x.1).ticketed
  requests : (h.entries.map Prod.fst).Nodup

/-- A leader that has its ticket keeps it. -/
theorem ticketed_step {maxMemtableSize : Nat} {s s' : Sys} {l : Label} {q : Nat}
    (hs : step maxMemtableSize s l = some s') (hq : (s.phase q).ticketed) :
    (s'.phase q).ticketed := by
  have hmove : ∀ (t : Sys) (r : Nat) (p : Phase), t.phase = s.phase →
      ((s.phase r).ticketed → p.ticketed) → ((t.goto r p).phase q).ticketed := by
    intro t r p hphase hp
    simp only [Sys.goto, hphase]
    by_cases heq : q = r
    · subst heq
      rw [Function.update_self]
      exact hp hq
    · rwa [Function.update_of_ne heq]
  cases l <;> simp only [step, WritePath.stepQueue, WritePath.stepWal, WritePath.stepMemtable,
    WritePath.stepRotate, stepFlush] at hs <;> repeat' split at hs
  all_goals cases hs
  all_goals first
    | exact hq
    | exact hmove _ _ _ rfl (fun _ => trivial)
    | (refine hmove _ _ _ rfl (fun hold => ?_); simp_all [Phase.ticketed])

/-- LSNs are handed out with the tickets. -/
theorem nextLsn_step {maxMemtableSize : Nat} {s s' : Sys} {l : Label}
    (hs : step maxMemtableSize s l = some s') (hticket : ∀ r, l ≠ .takeTicket r) :
    s'.syncs.nextLsn = s.syncs.nextLsn := by
  cases l with
  | takeTicket r => exact absurd rfl (hticket r)
  | _ =>
      simp only [step, WritePath.stepQueue, WritePath.stepWal, WritePath.stepMemtable,
        WritePath.stepRotate, stepFlush] at hs
      repeat' split at hs
      all_goals cases hs
      all_goals rfl

/-- What `takeTicket` does. -/
theorem takeTicket_spec {maxMemtableSize : Nat} {h h' : History} {r : Nat}
    (hs : h.step maxMemtableSize (.takeTicket r) = some h') :
    ∃ group, h.sys.phase r = .leaderWritingWal group ∧
      h' = { h with
        sys := { h.sys with syncs := { h.sys.syncs with
          nextTicket := h.sys.syncs.nextTicket + 1
          nextLsn := h.sys.syncs.nextLsn + group.length } }.goto r (.walTicket
            ⟨stamp h.sys.request h.sys.syncs.nextLsn group, h.sys.syncs.nextTicket,
              h.sys.syncs.nextLsn⟩)
        batches := h.batches ++ [(r, ⟨stamp h.sys.request h.sys.syncs.nextLsn group,
          h.sys.syncs.nextTicket, h.sys.syncs.nextLsn⟩)] } := by
  obtain ⟨hs', hrecord⟩ := History.step_sys hs
  simp only [step, WritePath.stepWal] at hs'
  split at hs'
  · rename_i group hr
    refine ⟨group, hr, ?_⟩
    rw [hrecord, ← Option.some.inj hs']
    simp only [History.record, Sys.goto, Function.update_self, History.appendedBy, History.target,
      History.insertion, Option.toList_none, List.append_nil]
  · cases hs'

namespace Stamped

variable {maxMemtableSize : Nat} {h h' : History} {r : Nat}

/-- A new batch continues the LSNs, and comes from a group that has no batch yet. -/
theorem takeTicket {group : List Nat} (hst : Stamped h) (hinv : GroupInv h.sys h.queued h.groups)
    (hr : h.sys.phase r = .leaderWritingWal group)
    (hroom : h.sys.syncs.nextLsn + group.length ≤ 2 ^ 64) :
    Stamped { h with
        sys := { h.sys with syncs := { h.sys.syncs with
          nextTicket := h.sys.syncs.nextTicket + 1
          nextLsn := h.sys.syncs.nextLsn + group.length } }.goto r (.walTicket
            ⟨stamp h.sys.request h.sys.syncs.nextLsn group, h.sys.syncs.nextTicket,
              h.sys.syncs.nextLsn⟩)
        batches := h.batches ++ [(r, ⟨stamp h.sys.request h.sys.syncs.nextLsn group,
          h.sys.syncs.nextTicket, h.sys.syncs.nextLsn⟩)] } := by
  obtain ⟨g, hg, hgr, hlead⟩ := hinv.led_group hr trivial
  obtain ⟨rfl, _, _⟩ := hlead
  subst hgr
  have hfst : (stamp h.sys.request h.sys.syncs.nextLsn g.2).map Prod.fst = g.2 :=
    (GroupInv.entriesOf_stamp h.sys _ _).requests
  obtain ⟨hlsns, hbelow⟩ := @lsns_append_stamp _ h.sys.request _ _ hst.lsns hst.below hroom
  have hnew : ∀ x ∈ h.batches, x.1 ≠ g.1 := by
    intro x hx heq
    have hticketed := hst.ticketed x hx
    rw [heq, hr] at hticketed
    exact hticketed
  refine ⟨?_, ?_, ?_, ?_, ?_⟩ <;>
    simp only [History.entries, List.flatMap_append, List.flatMap_singleton]
  · exact hlsns
  · exact hbelow
  · intro x hx
    rcases List.mem_append.mp hx with hx | hx
    · exact hst.grouped x hx
    · cases List.mem_singleton.mp hx
      simp only [hfst]
      exact hg
  · intro x hx
    simp only [Sys.goto]
    rcases List.mem_append.mp hx with hx | hx
    · rw [Function.update_of_ne (hnew x hx)]
      exact hst.ticketed x hx
    · cases List.mem_singleton.mp hx
      rw [Function.update_self]
      trivial
  · rw [List.map_append, hfst]
    refine List.nodup_append.mpr ⟨hst.requests, ?_, fun q hq q' hq' heq => ?_⟩
    · have hnodup := hinv.nodup
      rw [hinv.drained] at hnodup
      exact (List.nodup_flatMap.mp (List.nodup_append.mp hnodup).1).1 g hg
    · subst heq
      obtain ⟨m, hm, rfl⟩ := List.mem_map.mp hq
      obtain ⟨x, hx, hmx⟩ := List.mem_flatMap.mp hm
      have hsame := hinv.group_unique (hst.grouped x hx) hg (List.mem_map_of_mem hmx) hq'
      exact hnew x hx (congrArg Prod.fst hsame)

/-- A step of the writers keeps the LSNs in order. -/
theorem step {l : Label} (hst : Stamped h) (hinv : GroupInv h.sys h.queued h.groups)
    (hok : LsnsLeft h l) (hs : h.step maxMemtableSize l = some h') : Stamped h' := by
  by_cases hticket : ∃ r, l = .takeTicket r
  · obtain ⟨r, rfl⟩ := hticket
    obtain ⟨group, hr, rfl⟩ := takeTicket_spec hs
    exact hst.takeTicket hinv hr (hok group hr)
  · have hne : ∀ r, l ≠ .takeTicket r := fun r heq => hticket ⟨r, heq⟩
    obtain ⟨hs', hrecord⟩ := History.step_sys hs
    have hbatches : h'.batches = h.batches := by
      rw [hrecord]
      exact h.batches_record _ hne
    have hgroups : h.groups ⊆ h'.groups := by
      rw [hrecord]
      exact h.groups_subset_record _ _
    have hentries : h'.entries = h.entries := by rw [History.entries, hbatches, History.entries]
    refine ⟨hentries ▸ hst.lsns, ?_, ?_, ?_, hentries ▸ hst.requests⟩
    · rw [hentries, nextLsn_step hs' hne]
      exact hst.below
    · rw [hbatches]
      exact fun x hx => hgroups (hst.grouped x hx)
    · rw [hbatches]
      exact fun x hx => ticketed_step hs' (hst.ticketed x hx)

theorem of_start (hstart : h.Start) : Stamped h := by
  have hentries : h.entries = [] := by rw [History.entries, hstart.batches, List.flatMap_nil]
  refine ⟨hentries ▸ List.Pairwise.nil, by simp [hentries], ?_, ?_, by simp [hentries]⟩ <;>
    simp [hstart.batches]

end Stamped

/-! ## The order of the logs -/

/-- Entries go to the log that was loaded last, logs are loaded in rotation order, and no log
holds anything back. -/
structure Filed (h : History) : Prop where
  flushed : h.sys.Flushed
  allocated : h.sys.current.mutableWal.mem < h.sys.nextMem
  positions : ∀ a ∈ h.appends, a.1.mem ≤ h.sys.current.mutableWal.mem
  loaded : ∀ r b wal, h.sys.phase r = .walLoaded b wal →
    wal.mem ≤ h.sys.current.mutableWal.mem ∧ ∀ a ∈ h.appends, a.1.mem ≤ wal.mem
  ordered : h.appends.Pairwise fun a b => a.1.mem ≤ b.1.mem

/-- What the order of the logs is about is the same in two states. -/
structure SameLogs (s s' : Sys) (l : Label) : Prop where
  mutableWal : s'.current.mutableWal = s.current.mutableWal
  nextMem : s'.nextMem = s.nextMem
  target : History.appendedBy s s' l = []
  loaded : ∀ r b wal, s'.phase r = .walLoaded b wal → s.phase r = .walLoaded b wal

/-- Only three steps of the writers touch the logs. -/
theorem sameLogs_step {maxMemtableSize : Nat} {h : History} {s' : Sys} {l : Label}
    (hs : WritePath.step maxMemtableSize h.sys l = some s') (hok : WritersSucceed h l)
    (hflushed : h.sys.Flushed) (hload : ∀ r, l ≠ .loadWal r)
    (hwrite : ∀ r fault, l ≠ .writeWal r fault) (hstore : ∀ r, l ≠ .storeRotation r) :
    SameLogs h.sys s' l := by
  have hmove : ∀ (t : Sys) (r : Nat) (p : Phase), t.phase = h.sys.phase →
      (∀ b wal, p ≠ .walLoaded b wal) → ∀ q b wal, (t.goto r p).phase q = .walLoaded b wal →
      h.sys.phase q = .walLoaded b wal := by
    intro t r p hphase hp q b wal hq
    simp only [Sys.goto, hphase] at hq
    by_cases heq : q = r
    · subst heq
      rw [Function.update_self] at hq
      exact absurd hq (hp b wal)
    · rwa [Function.update_of_ne heq] at hq
  cases l with
  | loadWal r => exact absurd rfl (hload r)
  | writeWal r fault => exact absurd rfl (hwrite r fault)
  | storeRotation r => exact absurd rfl (hstore r)
  | flushStart | flushWrite | flushCommit | flushLoad | flushStore | flushFail =>
      exact absurd hok id
  | dropWal wal written =>
      simp only [step, WritePath.stepWal] at hs
      split at hs <;> cases hs
      rw [hflushed wal, List.take_nil]
      refine ⟨rfl, rfl, ?_, fun _ _ _ hq => hq⟩
      exact @Ledger.appendedBy_eq _ _ _ _ [] rfl rfl
  | _ =>
      simp only [step, WritePath.stepQueue, WritePath.stepWal, WritePath.stepMemtable,
        WritePath.stepRotate] at hs
      repeat' split at hs
      all_goals cases hs
      all_goals first
        | exact ⟨rfl, rfl, rfl, fun _ _ _ hq => hq⟩
        | exact ⟨rfl, rfl, rfl, hmove _ _ _ rfl (by simp)⟩

namespace Filed

variable {maxMemtableSize : Nat} {h h' : History} {r : Nat}

/-- A leader loads the newest log. -/
theorem loadWal {b : Batch} (hf : Filed h) {s' : Sys} {l : Label}
    (hs' : s' = h.sys.goto r (.walLoaded b h.sys.current.mutableWal))
    (htarget : History.target h.sys l = none) : Filed (h.record l s') := by
  have happends : (h.record l s').appends = h.appends := by
    simp only [History.record, Ledger.appendedBy_none htarget, List.append_nil]
  subst hs'
  refine ⟨hf.flushed, hf.allocated, happends ▸ hf.positions, fun q b' wal hq => ?_,
    happends ▸ hf.ordered⟩
  rw [happends]
  change Function.update h.sys.phase r _ q = _ at hq
  by_cases heq : q = r
  · subst heq
    rw [Function.update_self] at hq
    cases hq
    exact ⟨Nat.le_refl _, hf.positions⟩
  · rw [Function.update_of_ne heq] at hq
    exact hf.loaded q b' wal hq

/-- A leader writes the log that it has loaded. The log stage is exclusive, so no other leader has
loaded one. -/
theorem writeWal {b : Batch} {wal : WalHandle} {a : Pipeline.State Nat (Nat × Entry)}
    (hf : Filed h) (hst : Staged h.sys h.batches a) (hsound : Pipeline.Sound a)
    (hr : h.sys.phase r = .walLoaded b wal) :
    Filed (h.record (.writeWal r none) ((h.sys.appendWal wal b.members []).goto r
      (.walWritten b))) := by
  obtain ⟨hnewest, hpositions⟩ := hf.loaded r b wal hr
  have htarget : History.target h.sys (.writeWal r none) = some wal := by
    simp only [History.target, hr]
  have happends : (h.record (.writeWal r none) ((h.sys.appendWal wal b.members []).goto r
      (.walWritten b))).appends = h.appends ++ b.members.map (wal, ·) := by
    show h.appends ++ _ = _
    rw [@Ledger.appendedBy_eq _ _ _ _ b.members htarget rfl]
  have hnew : ∀ x ∈ b.members.map (wal, ·), x.1 = wal := by
    intro x hx
    obtain ⟨m, _, rfl⟩ := List.mem_map.mp hx
    rfl
  refine ⟨@Sys.Flushed.step 0 _ _ (.writeWal r none) hf.flushed (fun _ hf => by cases hf) ?_,
    hf.allocated, ?_, fun q b' w hq => ?_, ?_⟩
  · simp only [WritePath.step, WritePath.stepWal, hr, hf.flushed wal, List.nil_append]
    rfl
  · rw [happends]
    intro x hx
    rcases List.mem_append.mp hx with hx | hx
    · exact hf.positions x hx
    · rw [hnew x hx]
      exact hnewest
  · change Function.update h.sys.phase r _ q = _ at hq
    by_cases heq : q = r
    · subst heq
      rw [Function.update_self] at hq
      cases hq
    · rw [Function.update_of_ne heq] at hq
      have hqr : q = r := by
        refine hsound.exclusive q r ?_ ?_
        · rw [hst.role, hq]
          trivial
        · rw [hst.role, hr]
          trivial
      exact absurd hqr heq
  · rw [happends]
    refine List.pairwise_append.mpr ⟨hf.ordered, ?_, fun x hx y hy => ?_⟩
    · exact List.pairwise_map.mpr (List.pairwise_of_forall fun _ _ => Nat.le_refl _)
    · rw [hnew y hy]
      exact hpositions x hx

/-- A rotation puts a newer log in place. -/
theorem storeRotation {b : Batch} {newWal : UInt32} {current : Version} (hf : Filed h) :
    Filed (h.record (.storeRotation r) ({ h.sys with
      current := rotateVersion id h.sys.nextMem ⟨newWal, h.sys.nextMem⟩ current
      mems := Function.update h.sys.mems h.sys.nextMem []
      nextMem := h.sys.nextMem + 1
      rotators := h.sys.rotators.erase r }.goto r (.memtableDone b))) := by
  have hlt := hf.allocated
  set s' : Sys := { h.sys with
      current := rotateVersion id h.sys.nextMem ⟨newWal, h.sys.nextMem⟩ current
      mems := Function.update h.sys.mems h.sys.nextMem []
      nextMem := h.sys.nextMem + 1
      rotators := h.sys.rotators.erase r }.goto r (.memtableDone b) with hs'
  have happends : (h.record (.storeRotation r) s').appends = h.appends := by
    simp only [History.record, History.appendedBy, History.target, List.append_nil]
  refine ⟨hf.flushed, Nat.lt_succ_self _, fun x hx => ?_, fun q b' wal hq => ?_,
    happends ▸ hf.ordered⟩
  · rw [happends] at hx
    exact (hf.positions x hx).trans (Nat.le_of_lt hlt)
  · rw [happends]
    change Function.update h.sys.phase r _ q = _ at hq
    by_cases heq : q = r
    · subst heq
      rw [Function.update_self] at hq
      cases hq
    · rw [Function.update_of_ne heq] at hq
      obtain ⟨hle, hall⟩ := hf.loaded q b' wal hq
      exact ⟨hle.trans (Nat.le_of_lt hlt), hall⟩

/-- A step that touches no log keeps the order. -/
theorem same {l : Label} {s' : Sys} (hf : Filed h) (hsame : SameLogs h.sys s' l)
    (hflushed : s'.Flushed) : Filed (h.record l s') := by
  obtain ⟨hwal, hnext, htarget, hphase⟩ := hsame
  have happends : (h.record l s').appends = h.appends := by
    simp only [History.record, htarget, List.append_nil]
  refine ⟨hflushed, ?_, ?_, fun q b wal hq => ?_, happends ▸ hf.ordered⟩
  · show s'.current.mutableWal.mem < s'.nextMem
    rw [hwal, hnext]
    exact hf.allocated
  · show ∀ a ∈ (h.record l s').appends, a.1.mem ≤ s'.current.mutableWal.mem
    rw [happends, hwal]
    exact hf.positions
  · show wal.mem ≤ s'.current.mutableWal.mem ∧ ∀ a ∈ (h.record l s').appends, a.1.mem ≤ wal.mem
    rw [happends, hwal]
    exact hf.loaded q b wal (hphase q b wal hq)

/-- A step of the writers keeps the order of the logs. -/
theorem step {l : Label} {a : Pipeline.State Nat (Nat × Entry)} (hf : Filed h)
    (hst : Staged h.sys h.batches a) (hsound : Pipeline.Sound a) (hok : WritersSucceed h l)
    (hs : h.step maxMemtableSize l = some h') : Filed h' := by
  obtain ⟨hs', hrecord⟩ := History.step_sys hs
  rw [hrecord]
  cases l with
  | loadWal r =>
      simp only [WritePath.step, WritePath.stepWal] at hs'
      split at hs'
      · exact hf.loadWal (Option.some.inj hs').symm rfl
      · cases hs'
  | writeWal r fault =>
      cases hok
      simp only [WritePath.step, WritePath.stepWal] at hs'
      split at hs'
      · rename_i b wal hr
        rw [← Option.some.inj hs', hf.flushed wal, List.nil_append]
        exact hf.writeWal hst hsound hr
      · cases hs'
  | storeRotation r =>
      simp only [WritePath.step, WritePath.stepRotate] at hs'
      split at hs'
      · rw [← Option.some.inj hs']
        exact hf.storeRotation
      · cases hs'
  | _ =>
      refine hf.same (sameLogs_step hs' hok hf.flushed (by simp) (by simp) (by simp))
        (hf.flushed.step (Label.keepsNothing_of_none (by simp)) hs')

theorem of_start (hstart : h.Start) : Filed h := by
  refine ⟨hstart.buffered, hstart.walAllocated, by simp [hstart.appends], fun r b wal hr => ?_,
    by simp [hstart.appends]⟩
  rw [hstart.sys.phase r] at hr
  cases hr

end Filed

/-! ## The run -/

/-- The invariant of a run of the writers. -/
structure CommitInv (h : History) : Prop where
  groups : GroupInv h.sys h.queued h.groups
  staged : ∃ a, Pipeline.Sound a ∧ Staged h.sys h.batches a
  stamped : Stamped h
  filed : Filed h
  ledger : Ledger h

/-- A step of the writers leaves the pipeline alone, or makes one of its moves. -/
theorem Staged.step {maxMemtableSize : Nat} {h h' : History} {l : Label}
    {a : Pipeline.State Nat (Nat × Entry)} (hst : Staged h.sys h.batches a)
    (hflushed : h.sys.Flushed) (hok : WritersSucceed h l)
    (hs : h.step maxMemtableSize l = some h') : StagedStep h'.sys h'.batches a := by
  by_cases hticket : ∃ r, l = .takeTicket r
  · obtain ⟨r, rfl⟩ := hticket
    obtain ⟨group, hr, rfl⟩ := takeTicket_spec hs
    exact hst.takeTicket hr rfl rfl rfl rfl rfl rfl rfl
  · have hne : ∀ r, l ≠ .takeTicket r := fun r heq => hticket ⟨r, heq⟩
    obtain ⟨hs', hrecord⟩ := History.step_sys hs
    have hbatches : h'.batches = h.batches := by
      rw [hrecord]
      exact h.batches_record _ hne
    rw [hbatches]
    rcases step_cases hs' with hs' | hs' | hs' | hs' | hs'
    · exact .inl (hst.stepQueue hs')
    · refine hst.stepWal hflushed hs' (fun r fault heq => ?_) hne
      subst heq
      exact hok
    · exact hst.stepMemtable hs'
    · refine .inl (hst.stepRotate hs' (fun t => ?_))
      cases l <;> exact hok
    · cases l <;> first | exact absurd hok id | cases hs'

namespace CommitInv

variable {maxMemtableSize : Nat} {h h' : History}

theorem of_start (hstart : h.Start) : CommitInv h where
  groups := GroupInv.of_start hstart
  staged := by
    have hsys := hstart.sys
    refine ⟨Pipeline.initial, Pipeline.sound_initial, ?_⟩
    rw [hstart.batches]
    exact
      { batches := rfl
        tickets := hsys.noTicket.2.symm
        role := fun r => by rw [hsys.phase r]; rfl
        clean := fun r => by rw [hsys.phase r]; exact id
        busy := hsys.walFree.symm
        log := hstart.appended.symm
        applied := hsys.recorded.1.symm
        turn := hsys.noTicket.1.symm }
  stamped := Stamped.of_start hstart
  filed := Filed.of_start hstart
  ledger := Ledger.of_start hstart

/-- A step of the writers keeps the invariant. -/
theorem step {l : Label} (hinv : CommitInv h) (hok : WritersSucceed h l) (hlsns : LsnsLeft h l)
    (hs : h.step maxMemtableSize l = some h') : CommitInv h' := by
  obtain ⟨a, hsound, hst⟩ := hinv.staged
  refine ⟨hinv.groups.step ?_ hs, ?_, hinv.stamped.step hinv.groups hlsns hs,
    hinv.filed.step hst hsound hok hs, hinv.ledger.step hs⟩
  · cases l <;> first | exact hok | trivial
  · rcases hst.step hinv.filed.flushed hok hs with hst' | ⟨m, a', hm, hst'⟩
    · exact ⟨a, hsound, hst'⟩
    · exact ⟨a', hsound.step hm, hst'⟩

end CommitInv

/-- A database whose last LSN is the next one. -/
def lastLsn : Sys := { pristine with syncs := { pristine.syncs with nextLsn := 2 ^ 64 - 1 } }

end EasyLsm.WritePath
