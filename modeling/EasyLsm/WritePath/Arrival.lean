import EasyLsm.Lib.Batching
import EasyLsm.WritePath.GroupCommit

/-!
# The order of arrival

Requests are pushed on `write_queue`, and the writer at its front drains all of it into its group.
The lock is free again while the leader waits for the log, so the next group may form, and
`wal_busy` is a flag: whichever leader finds it clear goes first. The writers simulate the batches
of `Lib/Batching` (`Arrives`), so `arrival_order` says that the writes are applied in the order of
arrival in every run in which the log goes to the oldest group that waits for it, and `overtaken`
that any other acquisition breaks the order.
-/

namespace EasyLsm.WritePath

open Lib

/-- The condition on a step: a log write does not fail. -/
def WalWritesSucceed (_ : History) : Label → Prop
  | .writeWal _ fault => fault = none
  | _ => True

/-- The group of a leader that has not acquired the log. -/
def Phase.waitingGroup : Phase → Option (List Nat)
  | .formingGroup group _ | .leaderWaitingToWriteWal group => some group
  | _ => none

/-- A group waits for the log. -/
def Sys.waits (s : Sys) (g : Nat × List Nat) : Bool := (s.phase g.1).waitingGroup.isSome

/-- The condition on a step: the leader that acquires the log leads the oldest group that waits
for it. -/
def OldestFirst (h : History) : Label → Prop
  | .acquireWal r => ∀ g, h.groups.find? h.sys.waits = some g → g.1 = r
  | _ => True

/-- No request is given two LSNs. A request that was pushed before another one has the smaller
LSN, and its entry is appended before the other one, so it is before it when both are in one log
file. The log files hold what they held at first and then what is recorded for them. -/
structure ArrivalOrder (h : History) : Prop where
  once : (h.entries.map Prod.fst).Nodup
  assigned : ∀ a b m, [a, b].Sublist h.queued → (b, m) ∈ h.entries →
    ∃ e, (a, e) ∈ h.entries ∧ e.1.lsn < m.1.lsn
  appended : ∀ a b, [a, b].Sublist h.queued → b ∈ h.appends.map (fun x => x.2.1) →
    ∃ v e w m, [(v, (a, e)), (w, (b, m))].Sublist h.appends ∧
      (v.id = w.id → [e, m].Sublist (h.sys.walFile w.id))
  files : ∀ wal, h.sys.walFile wal = h.before wal ++ h.appendedTo wal

/-! ## The batches -/

/-- What a leader is in the log stage. -/
def Phase.walStage (r : Nat) : Phase → Option (Batching.Stage Nat Entry)
  | .leaderWritingWal group => some (.holding r group)
  | .walTicket b | .walLoaded b _ => some (.given r b.members)
  | .walWritten _ | .walFailed _ _ => some (.written r)
  | _ => none

/-- The batches of a state, with the requests, the groups and the entries recorded so far. -/
structure Arrives (s : Sys) (queued : List Nat) (groups : List (Nat × List Nat))
    (entries : List (Nat × Entry)) (a : Batching.State Nat Entry) : Prop where
  arrived : a.arrived = queued
  queue : a.queue = s.syncs.writeQueue
  waiting : a.waiting = groups.filter s.waits
  stage : ∀ r x, (s.phase r).walStage r = some x → a.stage = x
  free : s.syncs.walBusy = false → a.stage = .free
  given : a.given = entries
  written : a.written = s.appended
  pushed : ∀ r ∈ queued, ¬ (s.phase r).unqueued
  formed : ∀ r group, (s.phase r).waitingGroup = some group → (r, group) ∈ groups
  drained : ∀ g ∈ groups, (s.phase g.1).drained

/-- A writer in two states has the same part in the batches. -/
structure Phase.SamePart (r : Nat) (p p' : Phase) : Prop where
  waiting : p'.waitingGroup = p.waitingGroup
  stage : p'.walStage r = p.walStage r
  drained : p.drained → p'.drained
  unqueued : p'.unqueued → p.unqueued

theorem Phase.SamePart.refl (r : Nat) (p : Phase) : p.SamePart r p := ⟨rfl, rfl, id, id⟩

/-- What the batches are about is the same in two states. -/
structure SameBatches (s s' : Sys) : Prop where
  queue : s'.syncs.writeQueue = s.syncs.writeQueue
  busy : s'.syncs.walBusy = s.syncs.walBusy
  appended : s'.appended = s.appended
  part : ∀ r, (s.phase r).SamePart r (s'.phase r)

/-- Six steps move the batches, and the end of a log writes what it holds back. -/
def Label.moves : Label → Prop
  | .queue _ | .checkFront _ | .acquireWal _ | .takeTicket _ | .writeWal _ _ | .dropWalGuard _
  | .dropWal _ _ => True
  | _ => False

/-- The other steps leave the batches as they are. -/
theorem sameBatches_step {maxMemtableSize : Nat} {s s' : Sys} {l : Label}
    (hs : step maxMemtableSize s l = some s') (hl : ¬ l.moves) : SameBatches s s' := by
  have hmove : ∀ (t : Sys) (r : Nat) (p : Phase), t.phase = s.phase →
      (s.phase r).SamePart r p → ∀ q, (s.phase q).SamePart q ((t.goto r p).phase q) := by
    intro t r p hphase hp q
    simp only [Sys.goto, hphase]
    by_cases heq : q = r
    · subst heq
      rw [Function.update_self]
      exact hp
    · rw [Function.update_of_ne heq]
      exact .refl q _
  cases l with
  | queue | checkFront | acquireWal | takeTicket | writeWal | dropWalGuard | dropWal =>
      exact absurd trivial hl
  | _ =>
      simp only [step, stepQueue, stepWal, stepMemtable, stepRotate, stepFlush] at hs
      repeat' split at hs
      all_goals cases hs
      all_goals first
        | exact ⟨rfl, rfl, rfl, fun q => .refl q _⟩
        | (refine ⟨rfl, rfl, rfl, hmove _ _ _ rfl ?_⟩
           constructor <;> simp_all [Phase.waitingGroup, Phase.walStage, Phase.drained,
            Phase.unqueued])

namespace Arrives

variable {s s' : Sys} {queued : List Nat} {groups : List (Nat × List Nat)}
  {entries : List (Nat × Entry)} {a : Batching.State Nat Entry} {r : Nat} {p : Phase}

/-- A step that moves no batch. -/
theorem same (h : Arrives s queued groups entries a) (hsame : SameBatches s s') :
    Arrives s' queued groups entries a := by
  have hwaits : s'.waits = s.waits := by
    funext g
    rw [Sys.waits, (hsame.part g.1).waiting, Sys.waits]
  refine ⟨h.arrived, h.queue.trans hsame.queue.symm, ?_, fun r x hx => ?_, fun hfree => ?_, h.given,
    h.written.trans hsame.appended.symm, fun r hr hun => ?_, fun r group hr => ?_,
    fun g hg => (hsame.part g.1).drained (h.drained g hg)⟩
  · rw [hwaits]
    exact h.waiting
  · rw [(hsame.part r).stage] at hx
    exact h.stage r x hx
  · rw [hsame.busy] at hfree
    exact h.free hfree
  · exact h.pushed r hr ((hsame.part r).unqueued hun)
  · rw [(hsame.part r).waiting] at hr
    exact h.formed r group hr

/-- A leader in the log stage is the one of the batch there. -/
theorem leader_of_walStage {x : Batching.Stage Nat Entry} (hr : p.walStage r = some x) :
    x.leader = some r := by
  cases p <;> cases hr <;> rfl

/-- No other leader is in the log stage. -/
theorem alone (h : Arrives s queued groups entries a) {x : Batching.Stage Nat Entry}
    (hr : (s.phase r).walStage r = some x) (q : Nat) (hq : q ≠ r) :
    (s.phase q).walStage q = none := by
  cases hstage : (s.phase q).walStage q with
  | none => rfl
  | some y =>
      have hsame : y = x := (h.stage q y hstage).symm.trans (h.stage r x hr)
      have hleader : some q = some r :=
        (leader_of_walStage hstage).symm.trans (hsame ▸ leader_of_walStage hr)
      exact absurd (Option.some.inj hleader) hq

/-- Nobody is in the log stage when it is free. -/
theorem nobody (h : Arrives s queued groups entries a) (hfree : a.stage = .free) (q : Nat) :
    (s.phase q).walStage q = none := by
  cases hstage : (s.phase q).walStage q with
  | none => rfl
  | some y =>
      have hleader := leader_of_walStage hstage
      rw [← h.stage q y hstage, hfree] at hleader
      cases hleader

/-- The group of a leader that moves into the log stage, or on from there, does not wait. -/
theorem filter_waits {t : Sys} (hphase : t.phase = s.phase) (hp : p.waitingGroup = none) :
    groups.filter (t.goto r p).waits = (groups.filter s.waits).filter fun b => b.1 ≠ r := by
  rw [List.filter_filter]
  refine List.filter_congr fun g _ => ?_
  simp only [Sys.waits, Sys.goto, hphase]
  by_cases heq : g.1 = r
  · rw [heq, Function.update_self, hp]
    simp
  · rw [Function.update_of_ne heq]
    simp [heq]

/-- No group of a leader in the log stage waits. -/
theorem filter_waits_self (hr : (s.phase r).waitingGroup = none) :
    ((groups.filter s.waits).filter fun b => b.1 ≠ r) = groups.filter s.waits := by
  refine List.filter_eq_self.mpr fun g hg => ?_
  have hwaits := (List.mem_filter.mp hg).2
  refine decide_eq_true fun heq : g.1 = r => ?_
  rw [Sys.waits, heq, hr] at hwaits
  cases hwaits

/-- A leader moves in the log stage, or leaves it. -/
theorem move {t : Sys} {entries' : List (Nat × Entry)} {a' : Batching.State Nat Entry}
    (h : Arrives s queued groups entries a) (hphase : t.phase = s.phase)
    (hqueue : t.syncs.writeQueue = s.syncs.writeQueue)
    (hp : p.waitingGroup = none ∧ p.drained ∧ ¬ p.unqueued)
    (harrived : a'.arrived = a.arrived) (hqueue' : a'.queue = a.queue)
    (hwaiting : a'.waiting = a.waiting.filter fun b => b.1 ≠ r)
    (hother : ∀ q, q ≠ r → (s.phase q).walStage q = none)
    (hstage : ∀ x, p.walStage r = some x → a'.stage = x)
    (hfree : t.syncs.walBusy = false → a'.stage = .free)
    (hgiven : a'.given = entries') (hwritten : a'.written = t.appended) :
    Arrives (t.goto r p) queued groups entries' a' := by
  have hself : (t.goto r p).phase r = p := Function.update_self _ _ _
  have hne : ∀ q, q ≠ r → (t.goto r p).phase q = s.phase q := by
    intro q hq
    simp only [Sys.goto, hphase]
    exact Function.update_of_ne hq _ _
  refine ⟨harrived.trans h.arrived, ?_, ?_, fun q x hx => ?_, hfree, hgiven, hwritten,
    fun q hq => ?_, fun q group hq => ?_, fun g hg => ?_⟩
  · exact hqueue'.trans (h.queue.trans hqueue.symm)
  · rw [hwaiting, h.waiting]
    exact (filter_waits hphase hp.1).symm
  · by_cases heq : q = r
    · subst heq
      rw [hself] at hx
      exact hstage x hx
    · rw [hne q heq, hother q heq] at hx
      cases hx
  · by_cases heq : q = r
    · rw [heq, hself]
      exact hp.2.2
    · rw [hne q heq]
      exact h.pushed q hq
  · by_cases heq : q = r
    · rw [heq, hself, hp.1] at hq
      cases hq
    · rw [hne q heq] at hq
      exact h.formed q group hq
  · by_cases heq : g.1 = r
    · rw [heq, hself]
      exact hp.2.1
    · rw [hne g.1 heq]
      exact h.drained g hg

/-- A request is pushed: it arrives. -/
theorem arrive (h : Arrives s queued groups entries a) (hr : s.phase r = .waitingToBeQueued) :
    ∃ a', Batching.step a (.arrive r) = some a' ∧
      Arrives ({ s with syncs := { s.syncs with
        writeQueue := s.syncs.writeQueue ++ [r] } }.goto r .seekingMembership)
        (queued ++ [r]) groups entries a' := by
  have hnew : r ∉ queued := fun hmem => h.pushed r hmem (by rw [hr]; trivial)
  have hlead : ∀ g ∈ groups, g.1 ≠ r := by
    intro g hg heq
    have hdrained := h.drained g hg
    rw [heq, hr] at hdrained
    exact hdrained
  set s' := { s with syncs := { s.syncs with
    writeQueue := s.syncs.writeQueue ++ [r] } }.goto r .seekingMembership with hs'
  have hself : s'.phase r = .seekingMembership := Function.update_self _ _ _
  have hne : ∀ q, q ≠ r → s'.phase q = s.phase q := fun q hq => Function.update_of_ne hq _ _
  refine ⟨{ a with arrived := a.arrived ++ [r], queue := a.queue ++ [r] }, ?_, ?_, ?_, ?_,
    fun q x hx => ?_, h.free, h.given, h.written, fun q hq => ?_, fun q group hq => ?_,
    fun g hg => ?_⟩
  · rw [Batching.step, if_neg (h.arrived ▸ hnew)]
  · rw [h.arrived]
  · simp only [h.queue, hs', Sys.goto]
  · rw [hs', filter_waits rfl rfl, filter_waits_self (by rw [hr]; rfl)]
    exact h.waiting
  · by_cases heq : q = r
    · rw [heq, hself] at hx
      cases hx
    · rw [hne q heq] at hx
      exact h.stage q x hx
  · by_cases heq : q = r
    · rw [heq, hself]
      exact id
    · rw [hne q heq]
      rcases List.mem_append.mp hq with hq | hq
      · exact h.pushed q hq
      · exact absurd (List.mem_singleton.mp hq) heq
  · by_cases heq : q = r
    · rw [heq, hself] at hq
      cases hq
    · rw [hne q heq] at hq
      exact h.formed q group hq
  · rw [hne g.1 (hlead g hg)]
    exact h.drained g hg

/-- The writer at the front drains the queue into its group. -/
theorem checkFront {rest : List Nat} (h : Arrives s queued groups entries a)
    (hr : s.phase r = .seekingMembership) (hqueue : s.syncs.writeQueue = r :: rest) :
    ∃ a', Batching.step a .drain = some a' ∧
      Arrives ({ s with syncs := { s.syncs with writeQueue := [] } }.goto r
        (.formingGroup (r :: rest) (r :: rest))) queued
        (groups ++ [(r, s.syncs.writeQueue)]) entries a' := by
  have hlead : ∀ g ∈ groups, g.1 ≠ r := by
    intro g hg heq
    have hdrained := h.drained g hg
    rw [heq, hr] at hdrained
    exact hdrained
  set s' := { s with syncs := { s.syncs with writeQueue := [] } }.goto r
    (.formingGroup (r :: rest) (r :: rest)) with hs'
  have hself : s'.phase r = .formingGroup (r :: rest) (r :: rest) := Function.update_self _ _ _
  have hne : ∀ q, q ≠ r → s'.phase q = s.phase q := fun q hq => Function.update_of_ne hq _ _
  refine ⟨{ a with waiting := a.waiting ++ [(r, r :: rest)], queue := [] }, ?_, h.arrived, rfl, ?_,
    fun q x hx => ?_, h.free, h.given, h.written, fun q hq => ?_, fun q group hq => ?_,
    fun g hg => ?_⟩
  · simp only [Batching.step, h.queue, hqueue]
  · have hold : groups.filter s'.waits = groups.filter s.waits := by
      refine List.filter_congr fun g hg => ?_
      rw [Sys.waits, hne g.1 (hlead g hg), Sys.waits]
    have hnew : s'.waits (r, s.syncs.writeQueue) = true := by
      rw [Sys.waits, hself]
      rfl
    rw [List.filter_append, hold, List.filter_cons_of_pos hnew, h.waiting, hqueue]
    rfl
  · by_cases heq : q = r
    · rw [heq, hself] at hx
      cases hx
    · rw [hne q heq] at hx
      exact h.stage q x hx
  · by_cases heq : q = r
    · rw [heq, hself]
      exact id
    · rw [hne q heq]
      exact h.pushed q hq
  · by_cases heq : q = r
    · rw [heq, hself] at hq
      cases hq
      rw [heq, hqueue]
      exact List.mem_append_right _ List.mem_cons_self
    · rw [hne q heq] at hq
      exact List.mem_append_left _ (h.formed q group hq)
  · by_cases heq : g.1 = r
    · rw [heq, hself]
      trivial
    · rw [hne g.1 heq]
      rcases List.mem_append.mp hg with hg | hg
      · exact h.drained g hg
      · exact absurd (congrArg Prod.fst (List.mem_singleton.mp hg)) heq

/-- A leader acquires the log: its batch enters the stage, as the oldest one if the group is the
oldest one that waits. -/
theorem acquireWal {group : List Nat} (h : Arrives s queued groups entries a)
    (hr : s.phase r = .leaderWaitingToWriteWal group) (hbusy : s.syncs.walBusy = false) :
    ∃ a', Batching.step a (.enter r group) = some a' ∧
      Arrives ({ s with syncs := { s.syncs with walBusy := true } }.goto r
        (.leaderWritingWal group)) queued groups entries a' := by
  have hfree := h.free hbusy
  have hmem : (r, group) ∈ a.waiting := by
    rw [h.waiting]
    refine List.mem_filter.mpr ⟨h.formed r group (by rw [hr]; rfl), ?_⟩
    rw [Sys.waits, hr]
    rfl
  refine ⟨{ a with
    waiting := a.waiting.filter fun b => b.1 ≠ r
    stage := .holding r group }, ?_, ?_⟩
  · simp only [Batching.step, hfree, if_pos hmem]
  · refine h.move rfl rfl ⟨rfl, trivial, id⟩ rfl rfl rfl (fun q _ => h.nobody hfree q)
      (fun x hx => ?_) (fun hbusy => ?_) h.given h.written
    · exact Option.some.inj hx
    · cases hbusy

/-- The requests of a stamped group. -/
theorem map_fst_stamp (request : Nat → Bytes × Value) (lsn : Nat) (group : List Nat) :
    (stamp request lsn group).map Prod.fst = group :=
  (GroupInv.entriesOf_stamp { pristine with request := request } lsn group).requests

/-- A leader in the log stage finds its batch there, and no group of its own waiting. -/
theorem inStage (h : Arrives s queued groups entries a) {x : Batching.Stage Nat Entry}
    (hr : (s.phase r).walStage r = some x) (hwait : (s.phase r).waitingGroup = none) :
    a.stage = x ∧ (a.waiting.filter fun b => b.1 ≠ r) = a.waiting ∧
      s.syncs.walBusy ≠ false := by
  have hstage := h.stage r x hr
  refine ⟨hstage, ?_, fun hbusy => ?_⟩
  · rw [h.waiting]
    exact filter_waits_self hwait
  · have hnone := h.nobody (h.free hbusy) r
    rw [hr] at hnone
    cases hnone

/-- A leader takes its ticket: the requests of its batch are given their entries. -/
theorem takeTicket {group : List Nat} (h : Arrives s queued groups entries a)
    (hr : s.phase r = .leaderWritingWal group) {t : Sys} {b : Batch} (hphase : t.phase = s.phase)
    (hqueue : t.syncs.writeQueue = s.syncs.writeQueue) (hbusy : t.syncs.walBusy = s.syncs.walBusy)
    (happended : t.appended = s.appended) (hb : b.members.map Prod.fst = group) :
    ∃ a', Batching.step a (.give b.members) = some a' ∧
      Arrives (t.goto r (.walTicket b)) queued groups (entries ++ b.members) a' := by
  have hin : (s.phase r).walStage r = some (.holding r group) := by rw [hr]; rfl
  obtain ⟨hstage, hwaiting, htaken⟩ := h.inStage hin (by rw [hr]; rfl)
  refine ⟨{ a with given := a.given ++ b.members, stage := .given r b.members }, ?_, ?_⟩
  · simp only [Batching.step, hstage, if_pos hb]
  · refine h.move hphase hqueue ⟨rfl, trivial, id⟩ rfl rfl hwaiting.symm (h.alone hin)
      (fun x hx => ?_) (fun hfree => ?_) (by rw [h.given]) (h.written.trans happended.symm)
    · exact Option.some.inj hx
    · exact absurd (hbusy.symm.trans hfree) htaken

/-- A leader writes its batch to the log. -/
theorem writeWal {b : Batch} {wal : WalHandle} (h : Arrives s queued groups entries a)
    (hr : s.phase r = .walLoaded b wal) :
    ∃ a', Batching.step a .write = some a' ∧
      Arrives ((s.appendWal wal b.members []).goto r (.walWritten b)) queued groups entries a' := by
  have hin : (s.phase r).walStage r = some (.given r b.members) := by rw [hr]; rfl
  obtain ⟨hstage, hwaiting, htaken⟩ := h.inStage hin (by rw [hr]; rfl)
  refine ⟨{ a with written := a.written ++ b.members, stage := .written r }, ?_, ?_⟩
  · simp only [Batching.step, hstage]
  · refine h.move (t := s.appendWal wal b.members []) rfl rfl ⟨rfl, trivial, id⟩ rfl rfl
      hwaiting.symm (h.alone hin) (fun x hx => ?_) (fun hfree => absurd hfree htaken) h.given ?_
    · exact Option.some.inj hx
    · simp only [Sys.appendWal, h.written]

/-- A leader drops its `WalGuard`: its batch leaves the stage. -/
theorem dropWalGuard (h : Arrives s queued groups entries a)
    (hr : (s.phase r).walStage r = some (.written r)) (hwait : (s.phase r).waitingGroup = none)
    (hp : p.waitingGroup = none ∧ p.drained ∧ ¬ p.unqueued) (hout : p.walStage r = none) :
    ∃ a', Batching.step a .leave = some a' ∧
      Arrives (s.dropWalGuard.goto r p) queued groups entries a' := by
  obtain ⟨hstage, hwaiting, _⟩ := h.inStage hr hwait
  refine ⟨{ a with stage := .free }, ?_, ?_⟩
  · simp only [Batching.step, hstage]
  · refine h.move (t := s.dropWalGuard) rfl rfl hp rfl rfl hwaiting.symm (h.alone hr)
      (fun x hx => ?_) (fun _ => rfl) h.given h.written
    rw [hout] at hx
    cases hx

/-- The oldest batch is that of the oldest group that waits. -/
theorem inOrder_iff {h : History} (harr : Arrives h.sys h.queued h.groups h.entries a)
    (group : List Nat) : Batching.InOrder a (.enter r group) ↔ OldestFirst h (.acquireWal r) := by
  simp only [Batching.InOrder, OldestFirst, harr.waiting, List.head?_filter]

end Arrives

/-! ## The run -/

/-- The batches of a recorded state. -/
abbrev History.Batches (h : History) (a : Batching.State Nat Entry) : Prop :=
  Arrives h.sys h.queued h.groups h.entries a

section Steps

variable {maxMemtableSize : Nat} {h h' : History} {a : Batching.State Nat Entry} {r : Nat}

/-- A step records neither a group nor a batch, and the batches are those of its state. -/
theorem History.Batches.of_sys {l : Label} (hs : h.step maxMemtableSize l = some h')
    (hqueue : ∀ r, l ≠ .queue r) (hfront : ∀ r, l ≠ .checkFront r)
    (hticket : ∀ r, l ≠ .takeTicket r) (harr : Arrives h'.sys h.queued h.groups h.entries a) :
    h'.Batches a := by
  obtain ⟨_, hrecord⟩ := History.step_sys hs
  obtain ⟨hqueued, hgroups⟩ := History.groups_record h h'.sys hqueue hfront
  have hbatches := History.batches_record h h'.sys hticket
  rw [← hrecord] at hqueued hgroups hbatches
  have hentries : h'.entries = h.entries := by rw [History.entries, hbatches, History.entries]
  show Arrives h'.sys h'.queued h'.groups h'.entries a
  rw [hqueued, hgroups, hentries]
  exact harr

/-- Acquiring the log is entering the stage. -/
theorem History.Batches.acquireWal (harr : h.Batches a)
    (hs : h.step maxMemtableSize (.acquireWal r) = some h') :
    ∃ group a', h'.sys.phase r = .leaderWritingWal group ∧
      Batching.step a (.enter r group) = some a' ∧ h'.Batches a' := by
  obtain ⟨hs', _⟩ := History.step_sys hs
  simp only [WritePath.step, WritePath.stepWal] at hs'
  split at hs'
  · rename_i group hr
    split at hs'
    · cases hs'
    · rename_i hfree
      have hbusy : h.sys.syncs.walBusy = false := Bool.eq_false_iff.mpr hfree
      obtain ⟨a', hmove, harr'⟩ := Arrives.acquireWal harr hr hbusy
      rw [Option.some.inj hs'] at harr'
      refine ⟨group, a', ?_, hmove, .of_sys hs (by simp) (by simp) (by simp) harr'⟩
      rw [← Option.some.inj hs']
      exact Function.update_self _ _ _
  · cases hs'

/-- Taking a ticket is giving the requests of the batch their entries. -/
theorem History.Batches.takeTicket (harr : h.Batches a)
    (hs : h.step maxMemtableSize (.takeTicket r) = some h') :
    ∃ items a', Batching.step a (.give items) = some a' ∧ h'.Batches a' := by
  obtain ⟨group, hr, rfl⟩ := takeTicket_spec hs
  set t : Sys := { h.sys with syncs := { h.sys.syncs with
    nextTicket := h.sys.syncs.nextTicket + 1
    nextLsn := h.sys.syncs.nextLsn + group.length } }
  set b : Batch := ⟨stamp h.sys.request h.sys.syncs.nextLsn group, h.sys.syncs.nextTicket,
    h.sys.syncs.nextLsn⟩
  obtain ⟨a', hmove, harr'⟩ := Arrives.takeTicket harr hr (t := t) (b := b) rfl rfl rfl rfl
    (Arrives.map_fst_stamp _ _ _)
  refine ⟨b.members, a', hmove, ?_⟩
  simp only [History.Batches, History.entries, List.flatMap_append, List.flatMap_singleton]
  exact harr'

/-- A step leaves the batches alone, or makes one of their moves. -/
theorem History.Batches.step {l : Label} (harr : h.Batches a) (hflushed : h.sys.Flushed)
    (hok : WalWritesSucceed h l ∧ OldestFirst h l) (hs : h.step maxMemtableSize l = some h') :
    h'.Batches a ∨ ∃ move a', Batching.InOrder a move ∧ Batching.step a move = some a' ∧
      h'.Batches a' := by
  obtain ⟨hs', hrecord⟩ := History.step_sys hs
  cases l with
  | queue r =>
      simp only [WritePath.step, WritePath.stepQueue] at hs'
      split at hs'
      · rename_i hr
        obtain ⟨a', hmove, harr'⟩ := Arrives.arrive harr hr
        refine .inr ⟨.arrive r, a', trivial, hmove, ?_⟩
        rw [hrecord, ← Option.some.inj hs']
        exact harr'
      · cases hs'
  | checkFront r =>
      simp only [WritePath.step, WritePath.stepQueue] at hs'
      split at hs'
      · rename_i front rest hr hqueue
        split at hs'
        · rename_i hfront
          subst hfront
          obtain ⟨a', hmove, harr'⟩ := Arrives.checkFront harr hr hqueue
          refine .inr ⟨.drain, a', trivial, hmove, ?_⟩
          rw [hrecord, ← Option.some.inj hs']
          exact harr'
        · cases hs'
      · cases hs'
  | acquireWal r =>
      obtain ⟨group, a', _, hmove, harr'⟩ := harr.acquireWal hs
      exact .inr ⟨_, a', (Arrives.inOrder_iff harr group).mpr hok.2, hmove, harr'⟩
  | takeTicket r =>
      obtain ⟨items, a', hmove, harr'⟩ := harr.takeTicket hs
      exact .inr ⟨.give items, a', trivial, hmove, harr'⟩
  | writeWal r fault =>
      cases hok.1
      simp only [WritePath.step, WritePath.stepWal] at hs'
      split at hs'
      · rename_i b wal hr
        rw [hflushed wal, List.nil_append] at hs'
        obtain ⟨a', hmove, harr'⟩ := Arrives.writeWal harr hr
        rw [Option.some.inj hs'] at harr'
        exact .inr ⟨.write, a', trivial, hmove, .of_sys hs (by simp) (by simp) (by simp) harr'⟩
      · cases hs'
  | dropWalGuard r =>
      simp only [WritePath.step, WritePath.stepWal] at hs'
      split at hs'
      · rename_i b hr
        obtain ⟨a', hmove, harr'⟩ := Arrives.dropWalGuard (p := .leaderWaitingToWriteMemtable b)
          harr (by rw [hr]; rfl) (by rw [hr]; rfl) ⟨rfl, trivial, id⟩ rfl
        rw [Option.some.inj hs'] at harr'
        exact .inr ⟨.leave, a', trivial, hmove, .of_sys hs (by simp) (by simp) (by simp) harr'⟩
      · rename_i b e hr
        obtain ⟨a', hmove, harr'⟩ := Arrives.dropWalGuard (p := .ticketFailed b e) harr
          (by rw [hr]; rfl) (by rw [hr]; rfl) ⟨rfl, trivial, id⟩ rfl
        rw [Option.some.inj hs'] at harr'
        exact .inr ⟨.leave, a', trivial, hmove, .of_sys hs (by simp) (by simp) (by simp) harr'⟩
      · cases hs'
  | dropWal wal written =>
      simp only [WritePath.step, WritePath.stepWal, hflushed wal, List.take_nil] at hs'
      split at hs'
      · cases hs'
      · have happended : h'.sys.appended = h.sys.appended := by
          rw [← Option.some.inj hs']
          exact List.append_nil _
        have hsame : SameBatches h.sys h'.sys := by
          rw [← Option.some.inj hs'] at happended ⊢
          exact ⟨rfl, rfl, happended, fun q => .refl q _⟩
        exact .inl (.of_sys hs (by simp) (by simp) (by simp) (Arrives.same harr hsame))
  | _ =>
      have harr' := Arrives.same harr (sameBatches_step hs' id)
      exact .inl (.of_sys hs (by simp) (by simp) (by simp) harr')

/-- Nothing waits at the start. -/
theorem History.Batches.of_start (hstart : h.Start) : h.Batches Batching.initial := by
  have hsys := hstart.sys
  refine ⟨hstart.queued.symm, hsys.queue.symm, by rw [hstart.groups]; rfl, fun q x hx => ?_,
    fun _ => rfl, by rw [History.entries, hstart.batches]; rfl, hstart.appended.symm,
    by simp [hstart.queued], fun q group hq => ?_, by simp [hstart.groups]⟩
  · rw [hsys.phase q] at hx
    cases hx
  · rw [hsys.phase q] at hq
    cases hq

/-- The batches of a run in which the oldest group acquires the log keep the order of arrival. -/
theorem History.Batches.of_reach
    (hreach : Reach (History.step maxMemtableSize) History.Start
      (fun h l => WalWritesSucceed h l ∧ LsnsLeft h l ∧ OldestFirst h l) h) :
    ∃ a, Batching.Sound a ∧ h.Batches a := by
  have hsim : ∃ a, Reach Batching.step (· = Batching.initial) Batching.InOrder a ∧
      h.sys.Flushed ∧ h.Batches a := by
    refine hreach.simulate (· = Batching.initial) (fun h a => h.sys.Flushed ∧ h.Batches a)
      (fun _ hstart => ⟨Batching.initial, rfl, hstart.buffered, .of_start hstart⟩) ?_
    intro h l h' a hrel hok hs
    obtain ⟨hflushed, harr⟩ := hrel
    have hflushed' : h'.sys.Flushed := by
      refine hflushed.step (Label.keepsNothing_of_none fun r fault heq => ?_)
        (History.step_sys hs).1
      subst heq
      exact hok.1
    rcases harr.step hflushed ⟨hok.1, hok.2.2⟩ hs with harr' | ⟨m, a', hin, hmove, harr'⟩
    · exact .inl ⟨hflushed', harr'⟩
    · exact .inr ⟨m, a', hin, hmove, hflushed', harr'⟩
  obtain ⟨a, ha, _, harr⟩ := hsim
  exact ⟨a, .of_reach ha, harr⟩

end Steps

/-- The entries have increasing LSNs, all taken from `next_lsn`. -/
structure Numbered (h : History) : Prop where
  lsns : h.entries.Pairwise fun m n => m.2.1.lsn < n.2.1.lsn
  below : ∀ m ∈ h.entries, m.2.1.lsn.toNat < h.sys.syncs.nextLsn

namespace Numbered

variable {maxMemtableSize : Nat} {h h' : History}

theorem of_start (hstart : h.Start) : Numbered h := by
  have hentries : h.entries = [] := by rw [History.entries, hstart.batches, List.flatMap_nil]
  exact ⟨hentries ▸ List.Pairwise.nil, by simp [hentries]⟩

theorem step {l : Label} (hnum : Numbered h) (hok : LsnsLeft h l)
    (hs : h.step maxMemtableSize l = some h') : Numbered h' := by
  by_cases hticket : ∃ r, l = .takeTicket r
  · obtain ⟨r, rfl⟩ := hticket
    obtain ⟨group, hr, rfl⟩ := takeTicket_spec hs
    obtain ⟨hlsns, hbelow⟩ :=
      @lsns_append_stamp _ h.sys.request _ _ hnum.lsns hnum.below (hok group hr)
    constructor <;>
      simp only [History.entries, List.flatMap_append, List.flatMap_singleton]
    · exact hlsns
    · exact hbelow
  · have hne : ∀ r, l ≠ .takeTicket r := fun r heq => hticket ⟨r, heq⟩
    obtain ⟨hs', hrecord⟩ := History.step_sys hs
    have hbatches := h.batches_record h'.sys hne
    rw [← hrecord] at hbatches
    have hentries : h'.entries = h.entries := by rw [History.entries, hbatches, History.entries]
    refine ⟨hentries ▸ hnum.lsns, ?_⟩
    rw [hentries, nextLsn_step hs' hne]
    exact hnum.below

end Numbered

/-- The condition is exact: a leader that acquires the log while an older group waits for it breaks
the order when it takes its ticket. -/
theorem overtaken_of_not_oldest {maxMemtableSize : Nat} {h h₁ h₂ : History} {r : Nat}
    (hreach : Reach (History.step maxMemtableSize) History.Start
      (fun h l => WalWritesSucceed h l ∧ LsnsLeft h l ∧ OldestFirst h l) h)
    (hnot : ¬ OldestFirst h (.acquireWal r))
    (hs₁ : h.step maxMemtableSize (.acquireWal r) = some h₁)
    (hs₂ : h₁.step maxMemtableSize (.takeTicket r) = some h₂) : ¬ ArrivalOrder h₂ := by
  obtain ⟨a, hsound, harr⟩ := History.Batches.of_reach hreach
  obtain ⟨group, a₁, _, hmove₁, harr₁⟩ := harr.acquireWal hs₁
  obtain ⟨items, a₂, hmove₂, harr₂⟩ := harr₁.takeTicket hs₂
  have hnot' : ¬ Batching.InOrder a (.enter r group) :=
    fun hin => hnot ((Arrives.inOrder_iff harr group).mp hin)
  obtain ⟨x, hxr, hr, hx⟩ := hsound.overtaken hnot' hmove₁ hmove₂
  rw [harr₂.arrived] at hxr
  rw [harr₂.given] at hr hx
  intro horder
  obtain ⟨⟨r', m⟩, hm, rfl⟩ := List.mem_map.mp hr
  obtain ⟨e, he, _⟩ := horder.assigned x r' m hxr hm
  exact hx (List.mem_map_of_mem he)

end EasyLsm.WritePath
