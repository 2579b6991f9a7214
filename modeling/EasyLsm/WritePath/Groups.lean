import Mathlib.Data.List.Pairwise
import EasyLsm.WritePath.History

/-!
# The outcome of a write group

The leader of a group returns the result of its own steps, and the other members return what
`GroupGuard::drop` leaves in their completion slots, which depends on `committed_lsn` alone.
`committed_lsn` is set at the end of the log stage, so the two agree except when the rotation after
the memtable insert fails. `one_outcome` says that in every run without a failed rotation all
members of a group get the same kind of result, that the entry of an accepted write is in a log file
and in a memtable, and that no entry of a rejected write is in a memtable.

A restart reads the logs, so a rejected write is out of sight for good only if it is in no log. A
failed log write leaves entries in the file or in the `BufWriter`, from where the next write takes
them to the file (`rejected_logged`). The second part of `one_outcome` is about the runs in which
it leaves none.
-/

namespace EasyLsm.WritePath

open Lib

/-- The condition on a step: a rotation does not fail. -/
def RotationsSucceed (_ : History) : Label → Prop
  | .commitRotation _ fault => fault = none
  | .openRotation _ fault => fault = none
  | _ => True

/-- The condition on a step: a log write that fails leaves nothing in the file or behind. -/
def FailuresLeaveNothing (_ : History) : Label → Prop
  | .writeWal _ fault => ∀ f ∈ fault, f.written = 0 ∧ f.kept = 0
  | _ => True

/-- The entry carries the key bytes and the value of its request. -/
def Sys.Carries (s : Sys) (m : Nat × Entry) : Prop :=
  m.2.1.bytes = (s.request m.1).1 ∧ m.2.2 = (s.request m.1).2

/-- A rejected write has no entry in a log file, and none that a later write takes there. -/
structure Unlogged (h : History) : Prop where
  rejected : ∀ r e, h.sys.phase r = .done (.error e) → ∀ a ∈ h.appends, a.2.1 ≠ r
  flushed : h.sys.Flushed

/-! ## The invariant -/

/-- A writer has been told that its write succeeded. -/
def Sys.ToldOk (s : Sys) (q : Nat) : Prop :=
  (∃ lsn, s.slot q = some (.ok (.success lsn))) ∨ s.phase q = .done (.ok ())

/-- A writer has been told that its write failed. -/
def Sys.ToldError (s : Sys) (q : Nat) : Prop :=
  (∃ e, s.slot q = some (.error e)) ∨ ∃ e, s.phase q = .done (.error e)

/-- No member of a group has been told its result. -/
def Sys.Untold (s : Sys) (group : List Nat) : Prop :=
  ∀ q ∈ group, ¬ s.ToldOk q ∧ ¬ s.ToldError q

/-- No entry of a group is in a memtable. -/
def Sys.NoneInserted (s : Sys) (group : List Nat) : Prop := ∀ m ∈ s.inserted, m.1 ∉ group

/-- The entries are those of a group. -/
structure Sys.EntriesOf (s : Sys) (group : List Nat) (members : List (Nat × Entry)) : Prop where
  requests : members.map Prod.fst = group
  carries : ∀ m ∈ members, s.Carries m

/-- The entries are in a log and in a memtable. -/
def Sys.Applied (s : Sys) (members : List (Nat × Entry)) : Prop :=
  ∀ m ∈ members, m ∈ s.appended ∧ m ∈ s.inserted

/-- What holds of a group while its leader is in a state. -/
def LeaderOk (s : Sys) (group : List Nat) : Phase → Prop
  | .formingGroup formed rest =>
      formed = group ∧ rest ⊆ group ∧ s.Untold group ∧ s.NoneInserted group
  | .leaderWaitingToWriteWal formed | .leaderWritingWal formed =>
      formed = group ∧ s.Untold group ∧ s.NoneInserted group
  | .walTicket b | .walLoaded b _ | .walFailed b _ | .ticketFailed b _ =>
      s.EntriesOf group b.members ∧ s.Untold group ∧ s.NoneInserted group
  | .walWritten b | .leaderWaitingToWriteMemtable b | .leaderWritingMemtable b =>
      s.EntriesOf group b.members ∧ s.Untold group ∧ s.NoneInserted group ∧
        ∀ m ∈ b.members, m ∈ s.appended
  | .inserting b _ rest =>
      s.EntriesOf group b.members ∧ s.Untold group ∧ rest ⊆ b.members ∧
        (∀ m ∈ b.members, m ∈ s.appended) ∧ ∀ m ∈ b.members, m ∈ rest ∨ m ∈ s.inserted
  | .inserted b | .rotateCommit b | .rotateOpen b _ | .rotateLoad b _ | .rotateStore b _ _
  | .memtableDone b => s.EntriesOf group b.members ∧ s.Untold group ∧ s.Applied b.members
  | .leaderFinishingWrite b rest =>
      s.EntriesOf group b.members ∧ rest ⊆ b.members ∧ (∀ q ∈ group, ¬ s.ToldError q) ∧
        s.Applied b.members
  | .groupFailed rest _ =>
      (∀ m ∈ rest, m.1 ∈ group) ∧ (∀ q ∈ group, ¬ s.ToldOk q) ∧ s.NoneInserted group
  | .done (.ok ()) =>
      (∀ q ∈ group, ¬ s.ToldError q) ∧ ∃ members, s.EntriesOf group members ∧ s.Applied members
  | .done (.error _) => (∀ q ∈ group, ¬ s.ToldOk q) ∧ s.NoneInserted group
  | .rotateFailed _ _ _ | .rotateFailedTicket _ _ => False
  | .idle | .waitingToBeQueued | .seekingMembership | .followerWaitingCompletion => False

/-- The writer has not yet pushed its request. -/
def Phase.unqueued : Phase → Prop
  | .idle | .waitingToBeQueued => True
  | _ => False

/-- The writer leads a group and has not returned. -/
def Phase.leading : Phase → Prop
  | .idle | .waitingToBeQueued | .seekingMembership | .followerWaitingCompletion | .done _ => False
  | _ => True

/-- The writer has learned which part it has in a group. -/
def Phase.drained : Phase → Prop
  | .idle | .waitingToBeQueued | .seekingMembership => False
  | _ => True

/-- The invariant: every pushed request is still queued or in exactly one group, and every leader
and its group agree. -/
structure GroupInv (s : Sys) (queued : List Nat) (groups : List (Nat × List Nat)) : Prop where
  drained : queued = groups.flatMap Prod.snd ++ s.syncs.writeQueue
  nodup : queued.Nodup
  led : ∀ g ∈ groups, g.1 ∈ g.2
  unqueued : ∀ r, r ∉ queued ↔ (s.phase r).unqueued
  leading : ∀ r, (s.phase r).leading → ∃ g ∈ groups, g.1 = r
  members : ∀ r, (s.phase r).drained ∨ s.slot r ≠ none → ∃ g ∈ groups, r ∈ g.2
  leaders : ∀ g ∈ groups, LeaderOk s g.2 (s.phase g.1)
  inserted : ∀ m ∈ s.inserted, ∃ g ∈ groups, m.1 ∈ g.2

namespace GroupInv

variable {s s' : Sys} {queued : List Nat} {groups : List (Nat × List Nat)}

/-- A request is in one group only. -/
theorem group_unique (h : GroupInv s queued groups) {g g' : Nat × List Nat} {q : Nat}
    (hg : g ∈ groups) (hg' : g' ∈ groups) (hq : q ∈ g.2) (hq' : q ∈ g'.2) : g = g' := by
  have hnodup := h.nodup
  rw [h.drained] at hnodup
  have hpair := (List.nodup_flatMap.mp (List.nodup_append.mp hnodup).1).2
  have hsymm : Std.Symm (Function.onFun List.Disjoint (Prod.snd (α := Nat) (β := List Nat))) :=
    ⟨fun _ _ hab _ ha hb => hab hb ha⟩
  by_contra hne
  exact hpair.forall hg hg' hne hq hq'

/-- A request that is still queued is in no group. -/
theorem not_queued (h : GroupInv s queued groups) {g : Nat × List Nat} {q : Nat} (hg : g ∈ groups)
    (hq : q ∈ g.2) : q ∉ s.syncs.writeQueue := by
  intro hqueue
  have hnodup := h.nodup
  rw [h.drained] at hnodup
  exact (List.nodup_append.mp hnodup).2.2 q (List.mem_flatMap.mpr ⟨g, hg, hq⟩) q hqueue rfl

theorem entriesOf_congr {group : List Nat} {members : List (Nat × Entry)}
    (h : s.EntriesOf group members) (hrequest : ∀ q ∈ group, s'.request q = s.request q) :
    s'.EntriesOf group members where
  requests := h.requests
  carries m hm := by
    have hmem : m.1 ∈ group := h.requests ▸ List.mem_map_of_mem hm
    unfold Sys.Carries
    rw [hrequest m.1 hmem]
    exact h.carries m hm

theorem applied_mono {members : List (Nat × Entry)} (h : s.Applied members)
    (happended : s.appended ⊆ s'.appended) (hinserted : s.inserted ⊆ s'.inserted) :
    s'.Applied members :=
  fun m hm => ⟨happended (h m hm).1, hinserted (h m hm).2⟩

/-- A step leaves a group as it was: its requests are the same, none of its members is told
anything new, and none of its entries enters a memtable. -/
structure Frame (s s' : Sys) (group : List Nat) : Prop where
  request : ∀ q ∈ group, s'.request q = s.request q
  toldOk : ∀ q ∈ group, s'.ToldOk q → s.ToldOk q
  toldError : ∀ q ∈ group, s'.ToldError q → s.ToldError q
  appended : s.appended ⊆ s'.appended
  inserted : s.inserted ⊆ s'.inserted
  noneInserted : s.NoneInserted group → s'.NoneInserted group

theorem Frame.untold {group : List Nat} (h : Frame s s' group) (hs : s.Untold group) :
    s'.Untold group := by
  intro q hq
  exact ⟨fun hok => (hs q hq).1 (h.toldOk q hq hok), fun he => (hs q hq).2 (h.toldError q hq he)⟩

/-- What holds of a group still holds of it. -/
theorem Frame.leaderOk {group : List Nat} {p : Phase} (h : Frame s s' group)
    (hs : LeaderOk s group p) : LeaderOk s' group p := by
  have hentries : ∀ {members}, s.EntriesOf group members → s'.EntriesOf group members :=
    fun he => entriesOf_congr he h.request
  have happlied : ∀ {members}, s.Applied members → s'.Applied members :=
    fun ha => applied_mono ha h.appended h.inserted
  have hnotOk : (∀ q ∈ group, ¬ s.ToldOk q) → ∀ q ∈ group, ¬ s'.ToldOk q :=
    fun hn q hq hok => hn q hq (h.toldOk q hq hok)
  have hnotError : (∀ q ∈ group, ¬ s.ToldError q) → ∀ q ∈ group, ¬ s'.ToldError q :=
    fun hn q hq he => hn q hq (h.toldError q hq he)
  cases p
  case formingGroup => exact ⟨hs.1, hs.2.1, h.untold hs.2.2.1, h.noneInserted hs.2.2.2⟩
  case leaderWaitingToWriteWal | leaderWritingWal =>
      exact ⟨hs.1, h.untold hs.2.1, h.noneInserted hs.2.2⟩
  case walTicket | walLoaded | walFailed | ticketFailed =>
      exact ⟨hentries hs.1, h.untold hs.2.1, h.noneInserted hs.2.2⟩
  case walWritten | leaderWaitingToWriteMemtable | leaderWritingMemtable =>
      exact ⟨hentries hs.1, h.untold hs.2.1, h.noneInserted hs.2.2.1,
        fun m hm => h.appended (hs.2.2.2 m hm)⟩
  case inserting =>
      exact ⟨hentries hs.1, h.untold hs.2.1, hs.2.2.1, fun m hm => h.appended (hs.2.2.2.1 m hm),
        fun m hm => (hs.2.2.2.2 m hm).imp id (fun hin => h.inserted hin)⟩
  case inserted | rotateCommit | rotateOpen | rotateLoad | rotateStore | memtableDone =>
      exact ⟨hentries hs.1, h.untold hs.2.1, happlied hs.2.2⟩
  case leaderFinishingWrite =>
      exact ⟨hentries hs.1, hs.2.1, hnotError hs.2.2.1, happlied hs.2.2.2⟩
  case groupFailed => exact ⟨hs.1, hnotOk hs.2.1, h.noneInserted hs.2.2⟩
  case done result =>
      cases result with
      | ok =>
          obtain ⟨hnot, members, hmembers, hdone⟩ := hs
          exact ⟨hnotError hnot, members, hentries hmembers, happlied hdone⟩
      | error => exact ⟨hnotOk hs.1, h.noneInserted hs.2⟩
  all_goals exact hs

/-- The leader of a group moves to a state. It touches only the slots and the entries of its own
group. -/
structure Lead (s s' : Sys) (g : Nat × List Nat) (p : Phase) : Prop where
  phase : s'.phase = Function.update s.phase g.1 p
  queue : s'.syncs.writeQueue = s.syncs.writeQueue
  request : s'.request = s.request
  slot : ∀ q, q ∉ g.2 → s'.slot q = s.slot q
  appended : s.appended ⊆ s'.appended
  inserted : s.inserted ⊆ s'.inserted
  entries : ∀ m ∈ s'.inserted, m ∈ s.inserted ∨ m.1 ∈ g.2

namespace Lead

variable {g : Nat × List Nat} {p : Phase}

/-- A group that the leader does not belong to is left as it was. -/
theorem frame_of_disjoint {group : List Nat} (h : Lead s s' g p) (hlead : g.1 ∉ group)
    (hdisjoint : ∀ q ∈ group, q ∉ g.2) : Frame s s' group := by
  have hslot : ∀ q ∈ group, s'.slot q = s.slot q := fun q hq => h.slot q (hdisjoint q hq)
  have hphase : ∀ q ∈ group, s'.phase q = s.phase q := by
    intro q hq
    rw [h.phase]
    exact Function.update_of_ne (fun heq : q = g.1 => hlead (heq ▸ hq)) _ _
  refine ⟨fun q _ => by rw [h.request], ?_, ?_, h.appended, h.inserted, ?_⟩
  · intro q hq
    unfold Sys.ToldOk
    rw [hslot q hq, hphase q hq]
    exact id
  · intro q hq
    unfold Sys.ToldError
    rw [hslot q hq, hphase q hq]
    exact id
  · intro hnone m hm hmem
    rcases h.entries m hm with hm | hm
    · exact hnone m hm hmem
    · exact hdisjoint m.1 hmem hm

/-- A leader that does not return tells itself nothing. -/
theorem toldOk_of_slot {q : Nat} (h : Lead s s' g p) (hp : p ≠ .done (.ok ()))
    (hslot : ∀ lsn, s'.slot q = some (.ok (.success lsn)) → s.slot q = some (.ok (.success lsn)))
    (htold : s'.ToldOk q) : s.ToldOk q := by
  rcases htold with ⟨lsn, hq⟩ | hq
  · exact .inl ⟨lsn, hslot lsn hq⟩
  · rw [h.phase] at hq
    by_cases heq : q = g.1
    · subst heq
      rw [Function.update_self] at hq
      exact absurd hq hp
    · rw [Function.update_of_ne heq] at hq
      exact .inr hq

theorem toldError_of_slot {q : Nat} (h : Lead s s' g p) (hp : ∀ e, p ≠ .done (.error e))
    (hslot : ∀ e, s'.slot q = some (.error e) → s.slot q = some (.error e))
    (htold : s'.ToldError q) : s.ToldError q := by
  rcases htold with ⟨e, hq⟩ | ⟨e, hq⟩
  · exact .inl ⟨e, hslot e hq⟩
  · rw [h.phase] at hq
    by_cases heq : q = g.1
    · subst heq
      rw [Function.update_self] at hq
      exact absurd hq (hp e)
    · rw [Function.update_of_ne heq] at hq
      exact .inr ⟨e, hq⟩

/-- A leader that does not return, completes no slot and inserts nothing leaves its own group as
it was. -/
theorem frame_own (h : Lead s s' g p) (hp : ∀ x, p ≠ .done x) (hslot : s'.slot = s.slot)
    (hinserted : s'.inserted = s.inserted) : Frame s s' g.2 where
  request q _ := by rw [h.request]
  toldOk q _ := h.toldOk_of_slot (hp _) (fun lsn hq => hslot ▸ hq)
  toldError q _ := h.toldError_of_slot (fun e => hp _) (fun e hq => hslot ▸ hq)
  appended := h.appended
  inserted := h.inserted
  noneInserted hnone := by
    unfold Sys.NoneInserted
    rw [hinserted]
    exact hnone

/-- A step of a leader keeps the invariant when its new state agrees with its group. -/
theorem inv (hinv : GroupInv s queued groups) (hg : g ∈ groups) (h : Lead s s' g p)
    (hp : p.drained) (hok : LeaderOk s' g.2 p) : GroupInv s' queued groups where
  drained := by rw [h.queue]; exact hinv.drained
  nodup := hinv.nodup
  led := hinv.led
  unqueued r := by
    rw [h.phase]
    by_cases heq : r = g.1
    · subst heq
      rw [Function.update_self]
      have hmem : g.1 ∈ queued := by
        rw [hinv.drained]
        exact List.mem_append_left _ (List.mem_flatMap.mpr ⟨g, hg, hinv.led g hg⟩)
      refine ⟨fun hnot => absurd hmem hnot, fun hun => ?_⟩
      cases p <;> first | exact absurd hp id | exact absurd hun id
    · rw [Function.update_of_ne heq]
      exact hinv.unqueued r
  leading r hr := by
    by_cases heq : r = g.1
    · exact ⟨g, hg, heq.symm⟩
    · rw [h.phase, Function.update_of_ne heq] at hr
      exact hinv.leading r hr
  members r hr := by
    by_cases hmem : r ∈ g.2
    · exact ⟨g, hg, hmem⟩
    · have heq : r ≠ g.1 := fun heq => hmem (heq ▸ hinv.led g hg)
      rw [h.phase, Function.update_of_ne heq, h.slot r hmem] at hr
      exact hinv.members r hr
  leaders g' hg' := by
    by_cases hgg : g' = g
    · subst hgg
      rw [h.phase, Function.update_self]
      exact hok
    · have hdisjoint : ∀ q ∈ g'.2, q ∉ g.2 :=
        fun q hq' hq => hgg (hinv.group_unique hg' hg hq' hq)
      have hlead : g.1 ∉ g'.2 := fun hmem => hdisjoint g.1 hmem (hinv.led g hg)
      have hne : g'.1 ≠ g.1 := fun heq => hlead (heq ▸ hinv.led g' hg')
      rw [h.phase, Function.update_of_ne hne]
      exact (h.frame_of_disjoint hlead hdisjoint).leaderOk (hinv.leaders g' hg')
  inserted m hm := by
    rcases h.entries m hm with hm | hm
    · exact hinv.inserted m hm
    · exact ⟨g, hg, hm⟩

end Lead

/-- A leader that has not returned leads a group, and agrees with it. -/
theorem led_group {r : Nat} {p : Phase} (h : GroupInv s queued groups) (hr : s.phase r = p)
    (hp : p.leading) : ∃ g ∈ groups, g.1 = r ∧ LeaderOk s g.2 p := by
  obtain ⟨g, hg, rfl⟩ := h.leading r (by rw [hr]; exact hp)
  exact ⟨g, hg, rfl, hr ▸ h.leaders g hg⟩

/-- A leader goes on without returning, completing a slot or inserting. -/
theorem goOn {r : Nat} {p p' : Phase} (h : GroupInv s queued groups) (hr : s.phase r = p)
    (hp : p.leading) (hp' : p'.leading) (hphase : s'.phase = Function.update s.phase r p')
    (hqueue : s'.syncs.writeQueue = s.syncs.writeQueue) (hrequest : s'.request = s.request)
    (hslot : s'.slot = s.slot) (happended : s.appended ⊆ s'.appended)
    (hinserted : s'.inserted = s.inserted)
    (hok : ∀ group, LeaderOk s' group p → LeaderOk s' group p') : GroupInv s' queued groups := by
  obtain ⟨g, hg, rfl, hlead⟩ := h.led_group hr hp
  have hl : Lead s s' g p' :=
    ⟨hphase, hqueue, hrequest, fun _ _ => by rw [hslot], happended, hinserted ▸ List.Subset.refl _,
      fun m hm => .inl (hinserted ▸ hm)⟩
  have hnot : ∀ x, p' ≠ .done x := by
    rintro x rfl
    exact hp'
  have hdrained : p'.drained := by
    cases p' <;> trivial
  exact hl.inv h hg hdrained (hok _ ((hl.frame_own hnot hslot hinserted).leaderOk hlead))

/-- A log grows, and no writer moves. -/
theorem append (h : GroupInv s queued groups) (wal : WalHandle)
    (members kept : List (Nat × Entry)) :
    GroupInv (s.appendWal wal members kept) queued groups := by
  have hframe : ∀ group, Frame s (s.appendWal wal members kept) group := fun group =>
    ⟨fun _ _ => rfl, fun _ _ hok => hok, fun _ _ he => he, List.subset_append_left _ _,
      List.Subset.refl _, id⟩
  exact
    { drained := h.drained
      nodup := h.nodup
      led := h.led
      unqueued := h.unqueued
      leading := h.leading
      members := h.members
      leaders := fun g hg => (hframe g.2).leaderOk (h.leaders g hg)
      inserted := h.inserted }

/-- A leader goes on, and nothing else changes that the invariant speaks of. -/
theorem goOn_same {r : Nat} {p p' : Phase} {t : Sys} (h : GroupInv s queued groups)
    (hr : s.phase r = p) (hp : p.leading) (hp' : p'.leading) (hphase : t.phase = s.phase)
    (hqueue : t.syncs.writeQueue = s.syncs.writeQueue) (hrequest : t.request = s.request)
    (hslot : t.slot = s.slot) (happended : t.appended = s.appended)
    (hinserted : t.inserted = s.inserted)
    (hok : ∀ group, LeaderOk (t.goto r p') group p → LeaderOk (t.goto r p') group p') :
    GroupInv (t.goto r p') queued groups :=
  h.goOn hr hp hp' (by rw [Sys.goto, hphase]) hqueue hrequest hslot
    (happended ▸ List.Subset.refl _) hinserted hok

/-- The entries of a stamped group. -/
theorem entriesOf_stamp (s : Sys) (lsn : Nat) (group : List Nat) :
    s.EntriesOf group (stamp s.request lsn group) := by
  induction group generalizing lsn with
  | nil => exact ⟨rfl, fun m hm => absurd hm List.not_mem_nil⟩
  | cons q group ih =>
      obtain ⟨hrequests, hcarries⟩ := ih (lsn + 1)
      refine ⟨congrArg (q :: ·) hrequests, fun m hm => ?_⟩
      rcases List.mem_cons.mp hm with rfl | hm
      · exact ⟨rfl, rfl⟩
      · exact hcarries m hm

/-- A completion that is not the one just set was there before. -/
theorem slot_of_complete {q r : Nat} {result : Option (Except DbError Completion)}
    {x : Except DbError Completion} (hne : result ≠ some x)
    (hslot : (s.complete q result).slot r = some x) : s.slot r = some x := by
  simp only [Sys.complete] at hslot
  by_cases heq : r = q
  · subst heq
    rw [Function.update_self] at hslot
    exact absurd hslot hne
  · rwa [Function.update_of_ne heq] at hslot

/-- The leader marks a member of its group as a follower. -/
theorem markFollower {r q : Nat} {group rest : List Nat} (h : GroupInv s queued groups)
    (hr : s.phase r = .formingGroup group (q :: rest)) :
    GroupInv ((s.complete q (some (.ok .follower))).goto r (.formingGroup group rest))
      queued groups := by
  obtain ⟨g, hg, rfl, hlead⟩ := h.led_group hr trivial
  obtain ⟨rfl, hrest, huntold, hnone⟩ := hlead
  have hl : Lead s ((s.complete q (some (.ok .follower))).goto g.1 (.formingGroup g.2 rest)) g
      (.formingGroup g.2 rest) := by
    refine ⟨rfl, rfl, rfl, fun x hx => ?_, List.Subset.refl _, List.Subset.refl _,
      fun m hm => .inl hm⟩
    exact Function.update_of_ne (fun heq : x = q => hx (heq ▸ hrest List.mem_cons_self)) _ _
  refine hl.inv h hg trivial ⟨rfl, fun x hx => hrest (List.mem_cons_of_mem q hx),
    fun x hx => ⟨fun hok => ?_, fun he => ?_⟩, hnone⟩
  · exact (huntold x hx).1 (hl.toldOk_of_slot (by simp) (fun _ => slot_of_complete (by simp)) hok)
  · exact (huntold x hx).2
      (hl.toldError_of_slot (by simp) (fun _ => slot_of_complete (by simp)) he)

/-- A writer moves to a state. Only its own slot may change. -/
structure Bystander (s s' : Sys) (r : Nat) (p : Phase) : Prop where
  phase : s'.phase = Function.update s.phase r p
  slot : ∀ q, q ≠ r → s'.slot q = s.slot q
  appended : s'.appended = s.appended
  inserted : s'.inserted = s.inserted

namespace Bystander

variable {r : Nat} {p : Phase}

/-- The groups are left as they were when the writer is told nothing new. -/
theorem frame {group : List Nat} (h : Bystander s s' r p)
    (hrequest : ∀ q ∈ group, s'.request q = s.request q)
    (htoldOk : s'.ToldOk r → s.ToldOk r) (htoldError : s'.ToldError r → s.ToldError r) :
    Frame s s' group := by
  refine ⟨hrequest, fun q _ hok => ?_, fun q _ he => ?_, h.appended ▸ List.Subset.refl _,
    h.inserted ▸ List.Subset.refl _, fun hnone => ?_⟩
  · by_cases heq : q = r
    · exact heq ▸ htoldOk (heq ▸ hok)
    · unfold Sys.ToldOk at hok ⊢
      rwa [h.slot q heq, h.phase, Function.update_of_ne heq] at hok
  · by_cases heq : q = r
    · exact heq ▸ htoldError (heq ▸ he)
    · unfold Sys.ToldError at he ⊢
      rwa [h.slot q heq, h.phase, Function.update_of_ne heq] at he
  · unfold Sys.NoneInserted
    rw [h.inserted]
    exact hnone

/-- A writer that leads no group moves, pushes `new` on the queue, and is told nothing new. -/
theorem inv {new : List Nat} (hinv : GroupInv s queued groups) (h : Bystander s s' r p)
    (hqueue : s'.syncs.writeQueue = s.syncs.writeQueue ++ new)
    (hlead : ∀ g ∈ groups, g.1 ≠ r) (hnodup : (queued ++ new).Nodup) (hnew : ∀ q ∈ new, q = r)
    (hun : r ∉ queued ++ new ↔ p.unqueued) (hp : ¬ p.leading)
    (hmember : p.drained ∨ s'.slot r ≠ none → ∃ g ∈ groups, r ∈ g.2)
    (hrequest : ∀ g ∈ groups, ∀ q ∈ g.2, s'.request q = s.request q)
    (htoldOk : s'.ToldOk r → s.ToldOk r) (htoldError : s'.ToldError r → s.ToldError r) :
    GroupInv s' (queued ++ new) groups where
  drained := by rw [hinv.drained, hqueue, List.append_assoc]
  nodup := hnodup
  led := hinv.led
  unqueued q := by
    rw [h.phase]
    by_cases heq : q = r
    · subst heq
      rw [Function.update_self]
      exact hun
    · rw [Function.update_of_ne heq, ← hinv.unqueued q, List.mem_append]
      exact not_congr ⟨fun hq => hq.resolve_right (fun hmem => heq (hnew q hmem)), Or.inl⟩
  leading q hq := by
    by_cases heq : q = r
    · subst heq
      rw [h.phase, Function.update_self] at hq
      exact absurd hq hp
    · rw [h.phase, Function.update_of_ne heq] at hq
      exact hinv.leading q hq
  members q hq := by
    by_cases heq : q = r
    · subst heq
      rw [h.phase, Function.update_self] at hq
      exact hmember hq
    · rw [h.phase, Function.update_of_ne heq, h.slot q heq] at hq
      exact hinv.members q hq
  leaders g hg := by
    rw [h.phase, Function.update_of_ne (hlead g hg)]
    exact (h.frame (hrequest g hg) htoldOk htoldError).leaderOk (hinv.leaders g hg)
  inserted := h.inserted ▸ hinv.inserted

end Bystander

/-- A writer in a state that no leader has leads no group. -/
theorem not_leader {r : Nat} (h : GroupInv s queued groups)
    (hr : ∀ group, ¬ LeaderOk s group (s.phase r)) : ∀ g ∈ groups, g.1 ≠ r := by
  intro g hg heq
  subst heq
  exact hr g.2 (h.leaders g hg)

/-- A member of a group has been queued. -/
theorem queued_of_member {g : Nat × List Nat} {q : Nat} (h : GroupInv s queued groups)
    (hg : g ∈ groups) (hq : q ∈ g.2) : q ∈ queued := by
  rw [h.drained]
  exact List.mem_append_left _ (List.mem_flatMap.mpr ⟨g, hg, hq⟩)

/-- A writer takes what is in its slot. -/
theorem takeCompletion {r : Nat} {p : Phase} (h : GroupInv s queued groups)
    (hslot : s.slot r ≠ none) (hr : ∀ group, ¬ LeaderOk s group (s.phase r))
    (hp : p.drained ∧ ¬ p.leading) (hok : p = .done (.ok ()) → s.ToldOk r)
    (herr : ∀ e, p = .done (.error e) → s.ToldError r) :
    GroupInv ((s.complete r none).goto r p) queued groups := by
  have hmember : ∃ g ∈ groups, r ∈ g.2 := h.members r (.inr hslot)
  have hself : ((s.complete r none).goto r p).phase r = p := Function.update_self _ _ _
  have hempty : ((s.complete r none).goto r p).slot r = none := Function.update_self _ _ _
  have hb : Bystander s ((s.complete r none).goto r p) r p :=
    ⟨rfl, fun q hq => Function.update_of_ne hq _ _, rfl, rfl⟩
  have hqueued : r ∈ queued := by
    obtain ⟨g, hg, hmem⟩ := hmember
    exact h.queued_of_member hg hmem
  have hinv := hb.inv h (List.append_nil _).symm (h.not_leader hr)
    (by rw [List.append_nil]; exact h.nodup) (by simp) ?_ hp.2 (fun _ => hmember)
    (fun _ _ _ _ => rfl) ?_ ?_
  · rwa [List.append_nil] at hinv
  · rw [List.append_nil]
    refine ⟨fun hnot => absurd hqueued hnot, fun hun => ?_⟩
    cases p <;> first | exact absurd hp.1 id | exact absurd hun id
  · unfold Sys.ToldOk
    rw [hself, hempty]
    intro htold
    rcases htold with ⟨lsn, hnone⟩ | hdone
    · cases hnone
    · exact hok hdone
  · unfold Sys.ToldError
    rw [hself, hempty]
    intro htold
    rcases htold with ⟨e, hnone⟩ | ⟨e, hdone⟩
    · cases hnone
    · exact herr e hdone

/-- A follower that finds its own mark in the slot keeps waiting. -/
theorem keepWaiting {r : Nat} (h : GroupInv s queued groups)
    (hr : s.phase r = .followerWaitingCompletion) (hslot : s.slot r ≠ none) :
    GroupInv (s.complete r none) queued groups := by
  have hsame : s.complete r none = (s.complete r none).goto r .followerWaitingCompletion := by
    simp only [Sys.goto, Sys.complete, ← hr, Function.update_eq_self]
  rw [hsame]
  exact h.takeCompletion hslot (fun _ hok => by rw [hr] at hok; exact hok) ⟨trivial, id⟩ (by simp)
    (by simp)

/-- The slot of a request that is not queued is empty. -/
theorem slot_of_unqueued {r : Nat} (h : GroupInv s queued groups) (hr : r ∉ queued) :
    s.slot r = none := by
  by_contra hsome
  obtain ⟨g, hg, hmem⟩ := h.members r (.inr hsome)
  exact hr (h.queued_of_member hg hmem)

/-- A request is handed to the write path. -/
theorem put {r : Nat} (h : GroupInv s queued groups) (hr : s.phase r = .idle) (bytes : Bytes)
    (value : Value) :
    GroupInv ({ s with request := Function.update s.request r (bytes, value) }.goto r
      .waitingToBeQueued) queued groups := by
  have hnot : r ∉ queued := (h.unqueued r).mpr (by rw [hr]; trivial)
  have hnone := h.slot_of_unqueued hnot
  have hb : Bystander s ({ s with request := Function.update s.request r (bytes, value) }.goto r
      .waitingToBeQueued) r .waitingToBeQueued := ⟨rfl, fun _ _ => rfl, rfl, rfl⟩
  have hinv := hb.inv h (List.append_nil _).symm
    (h.not_leader (fun _ hok => by rw [hr] at hok; exact hok))
    (by rw [List.append_nil]; exact h.nodup) (by simp) ?_ id ?_ ?_ ?_ ?_
  · rwa [List.append_nil] at hinv
  · rw [List.append_nil]
    exact ⟨fun _ => trivial, fun _ => hnot⟩
  · intro hmem
    exact absurd hmem (not_or.mpr ⟨id, not_not.mpr hnone⟩)
  · intro g hg q hq
    exact Function.update_of_ne (fun heq : q = r => hnot (h.queued_of_member hg (heq ▸ hq))) _ _
  · simp [Sys.ToldOk, Sys.goto, hnone]
  · simp [Sys.ToldError, Sys.goto, hnone]

/-- A request is pushed on the queue. -/
theorem queue {r : Nat} (h : GroupInv s queued groups) (hr : s.phase r = .waitingToBeQueued) :
    GroupInv ({ s with syncs := { s.syncs with
      writeQueue := s.syncs.writeQueue ++ [r] } }.goto r .seekingMembership)
      (queued ++ [r]) groups := by
  have hnot : r ∉ queued := (h.unqueued r).mpr (by rw [hr]; trivial)
  have hnone := h.slot_of_unqueued hnot
  have hb : Bystander s ({ s with syncs := { s.syncs with
      writeQueue := s.syncs.writeQueue ++ [r] } }.goto r .seekingMembership) r
      .seekingMembership := ⟨rfl, fun _ _ => rfl, rfl, rfl⟩
  refine hb.inv h rfl (h.not_leader (fun _ hok => by rw [hr] at hok; exact hok)) ?_ (by simp) ?_
    id ?_ (fun _ _ _ _ => rfl) ?_ ?_
  · exact List.nodup_append.mpr ⟨h.nodup, List.nodup_singleton r, fun q hq x hx =>
      fun heq => hnot (List.mem_singleton.mp hx ▸ heq ▸ hq)⟩
  · exact ⟨fun hmem => absurd (by simp) hmem, fun hun => absurd hun id⟩
  · intro hmem
    exact absurd hmem (not_or.mpr ⟨id, not_not.mpr hnone⟩)
  · simp [Sys.ToldOk, Sys.goto, hnone]
  · simp [Sys.ToldError, Sys.goto, hnone]

/-- The writer at the front drains the queue and forms a group. -/
theorem checkFront {r : Nat} {rest : List Nat} (h : GroupInv s queued groups)
    (hr : s.phase r = .seekingMembership) (hqueue : s.syncs.writeQueue = r :: rest) :
    GroupInv ({ s with syncs := { s.syncs with writeQueue := [] } }.goto r
      (.formingGroup (r :: rest) (r :: rest))) queued (groups ++ [(r, s.syncs.writeQueue)]) := by
  have hlead : ∀ g ∈ groups, g.1 ≠ r := h.not_leader (fun _ hok => by rw [hr] at hok; exact hok)
  -- a queued request is in no group, so it has been told nothing and none of its entries is in
  have hfree : ∀ q ∈ s.syncs.writeQueue, ∀ g ∈ groups, q ∉ g.2 :=
    fun q hq g hg hmem => h.not_queued hg hmem hq
  have hblank : ∀ q ∈ s.syncs.writeQueue, ¬ (s.phase q).drained ∧ s.slot q = none := by
    intro q hq
    refine ⟨fun hdrained => ?_, ?_⟩
    · obtain ⟨g, hg, hmem⟩ := h.members q (.inl hdrained)
      exact hfree q hq g hg hmem
    · by_contra hsome
      obtain ⟨g, hg, hmem⟩ := h.members q (.inr hsome)
      exact hfree q hq g hg hmem
  have huntold : s.Untold s.syncs.writeQueue := by
    intro q hq
    obtain ⟨hnot, hnone⟩ := hblank q hq
    refine ⟨fun hok => ?_, fun he => ?_⟩
    · rcases hok with ⟨lsn, hslot⟩ | hdone
      · exact absurd (hnone.symm.trans hslot) (by simp)
      · exact hnot (by rw [hdone]; trivial)
    · rcases he with ⟨e, hslot⟩ | ⟨e, hdone⟩
      · exact absurd (hnone.symm.trans hslot) (by simp)
      · exact hnot (by rw [hdone]; trivial)
  have hfront : r ∈ s.syncs.writeQueue := hqueue ▸ List.mem_cons_self
  have hnone : s.slot r = none := (hblank r hfront).2
  set s' := { s with syncs := { s.syncs with writeQueue := [] } }.goto r
    (.formingGroup (r :: rest) (r :: rest)) with hs'
  have hself : s'.phase r = .formingGroup (r :: rest) (r :: rest) := Function.update_self _ _ _
  have hother : ∀ q, q ≠ r → s'.phase q = s.phase q := fun q hq => Function.update_of_ne hq _ _
  have hframe : ∀ group, Frame s s' group := by
    intro group
    have hb : Bystander s s' r (.formingGroup (r :: rest) (r :: rest)) :=
      ⟨rfl, fun _ _ => rfl, rfl, rfl⟩
    refine hb.frame (fun _ _ => rfl) ?_ ?_
    · simp [Sys.ToldOk, hs', Sys.goto, hnone]
    · simp [Sys.ToldError, hs', Sys.goto, hnone]
  have hqueued : r ∈ queued := by
    rw [h.drained]
    exact List.mem_append_right _ hfront
  refine ⟨?_, h.nodup, fun g hg => ?_, fun q => ?_, fun q hq => ?_, fun q hq => ?_, fun g hg => ?_,
    fun m hm => ?_⟩
  · simp [h.drained, hs', Sys.goto]
  · rcases List.mem_append.mp hg with hg | hg
    · exact h.led g hg
    · cases List.mem_singleton.mp hg
      exact hfront
  · by_cases heq : q = r
    · subst heq
      rw [hself]
      exact ⟨fun hnot => absurd hqueued hnot, fun hun => absurd hun id⟩
    · rw [hother q heq]
      exact h.unqueued q
  · by_cases heq : q = r
    · exact ⟨_, List.mem_append_right _ List.mem_cons_self, heq.symm⟩
    · rw [hother q heq] at hq
      obtain ⟨g, hg, hgq⟩ := h.leading q hq
      exact ⟨g, List.mem_append_left _ hg, hgq⟩
  · by_cases heq : q = r
    · exact ⟨_, List.mem_append_right _ List.mem_cons_self, heq ▸ hfront⟩
    · rw [hother q heq] at hq
      obtain ⟨g, hg, hgq⟩ := h.members q hq
      exact ⟨g, List.mem_append_left _ hg, hgq⟩
  · rcases List.mem_append.mp hg with hg | hg
    · rw [hother g.1 (hlead g hg)]
      exact (hframe g.2).leaderOk (h.leaders g hg)
    · cases List.mem_singleton.mp hg
      rw [hself]
      refine ⟨hqueue.symm, hqueue ▸ List.Subset.refl _, (hframe _).untold huntold,
        fun m hm hmem => ?_⟩
      obtain ⟨g, hg, hgm⟩ := h.inserted m hm
      exact hfree m.1 hmem g hg hgm
  · obtain ⟨g, hg, hgm⟩ := h.inserted m hm
    exact ⟨g, List.mem_append_left _ hg, hgm⟩

/-- A leader whose group has been told returns. -/
theorem returnOk {r : Nat} {b : Batch} (h : GroupInv s queued groups)
    (hr : s.phase r = .leaderFinishingWrite b []) :
    GroupInv (s.goto r (.done (.ok ()))) queued groups := by
  obtain ⟨g, hg, rfl, hlead⟩ := h.led_group hr trivial
  obtain ⟨hentries, _, hnot, happlied⟩ := hlead
  have hl : Lead s (s.goto g.1 (.done (.ok ()))) g (.done (.ok ())) :=
    ⟨rfl, rfl, rfl, fun _ _ => rfl, List.Subset.refl _, List.Subset.refl _, fun _ hm => .inl hm⟩
  refine hl.inv h hg trivial ⟨fun q hq htold => ?_, b.members,
    entriesOf_congr hentries (fun _ _ => rfl), happlied⟩
  exact hnot q hq (hl.toldError_of_slot (by simp) (fun _ hslot => hslot) htold)

theorem returnError {r : Nat} {e : DbError} (h : GroupInv s queued groups)
    (hr : s.phase r = .groupFailed [] e) :
    GroupInv (s.goto r (.done (.error e))) queued groups := by
  obtain ⟨g, hg, rfl, hlead⟩ := h.led_group hr trivial
  obtain ⟨_, hnot, hnone⟩ := hlead
  have hl : Lead s (s.goto g.1 (.done (.error e))) g (.done (.error e)) :=
    ⟨rfl, rfl, rfl, fun _ _ => rfl, List.Subset.refl _, List.Subset.refl _, fun _ hm => .inl hm⟩
  refine hl.inv h hg trivial ⟨fun q hq htold => ?_, hnone⟩
  exact hnot q hq (hl.toldOk_of_slot (by simp) (fun _ hslot => hslot) htold)

theorem stepQueue {l : Label} (h : GroupInv s queued groups)
    (hs : WritePath.stepQueue s l = some s') (hqueue : ∀ r, l ≠ .queue r)
    (hfront : ∀ r, l ≠ .checkFront r) : GroupInv s' queued groups := by
  cases l with
  | put r bytes value =>
      simp only [WritePath.stepQueue] at hs
      split at hs <;> cases hs
      rename_i hr
      exact h.put hr bytes value
  | queue r => exact absurd rfl (hqueue r)
  | checkFront r => exact absurd rfl (hfront r)
  | checkCompletion r =>
      simp only [WritePath.stepQueue] at hs
      split at hs <;> cases hs
      · rename_i hr hslot
        exact h.takeCompletion (by simp [hslot]) (fun _ hok => by rw [hr] at hok; exact hok)
          ⟨trivial, id⟩ (by simp) (by simp)
      · rename_i lsn hr hslot
        exact h.takeCompletion (by simp [hslot]) (fun _ hok => by rw [hr] at hok; exact hok)
          ⟨trivial, id⟩ (fun _ => .inl ⟨lsn, hslot⟩) (by simp)
      · rename_i e hr hslot
        exact h.takeCompletion (by simp [hslot]) (fun _ hok => by rw [hr] at hok; exact hok)
          ⟨trivial, id⟩ (by simp) (fun _ _ => .inl ⟨e, hslot⟩)
      · rename_i hr hslot
        exact h.keepWaiting hr (by simp [hslot])
      · rename_i lsn hr hslot
        exact h.takeCompletion (by simp [hslot]) (fun _ hok => by rw [hr] at hok; exact hok)
          ⟨trivial, id⟩ (fun _ => .inl ⟨lsn, hslot⟩) (by simp)
      · rename_i e hr hslot
        exact h.takeCompletion (by simp [hslot]) (fun _ hok => by rw [hr] at hok; exact hok)
          ⟨trivial, id⟩ (by simp) (fun _ _ => .inl ⟨e, hslot⟩)
  | markFollower r =>
      simp only [WritePath.stepQueue] at hs
      split at hs <;> cases hs
      · rename_i group hr
        exact h.goOn_same hr trivial trivial rfl rfl rfl rfl rfl rfl
          (fun _ hok => ⟨hok.1, hok.2.2⟩)
      · rename_i group q rest hr
        exact h.markFollower hr
  | _ => cases hs

theorem stepWal {l : Label} (h : GroupInv s queued groups)
    (hs : WritePath.stepWal s l = some s') : GroupInv s' queued groups := by
  cases l with
  | acquireWal r =>
      simp only [WritePath.stepWal] at hs
      split at hs
      · rename_i group hr
        split at hs
        · cases hs
        · cases hs
          exact h.goOn_same hr trivial trivial rfl rfl rfl rfl rfl rfl (fun _ hok => hok)
      · cases hs
  | takeTicket r =>
      simp only [WritePath.stepWal] at hs
      split at hs <;> cases hs
      rename_i group hr
      refine h.goOn_same hr trivial trivial rfl rfl rfl rfl rfl rfl ?_
      intro formed hok
      obtain ⟨rfl, huntold, hnone⟩ := hok
      exact ⟨entriesOf_stamp _ _ _, huntold, hnone⟩
  | loadWal r =>
      simp only [WritePath.stepWal] at hs
      split at hs <;> cases hs
      rename_i b hr
      exact h.goOn_same hr trivial trivial rfl rfl rfl rfl rfl rfl (fun _ hok => hok)
  | writeWal r fault =>
      simp only [WritePath.stepWal] at hs
      split at hs
      · rename_i b wal hr
        cases fault with
        | none =>
            cases hs
            have hgo : (Phase.walWritten b).leading := trivial
            refine h.goOn hr trivial hgo rfl rfl rfl rfl (List.subset_append_left _ _) rfl ?_
            intro group hok
            exact ⟨hok.1, hok.2.1, hok.2.2,
              fun m hm => List.mem_append_right _ (List.mem_append_right _ hm)⟩
        | some fault =>
            cases hs
            have hgo : (Phase.walFailed b (.io fault.kind)).leading := trivial
            exact h.goOn hr trivial hgo rfl rfl rfl rfl (List.subset_append_left _ _) rfl
              (fun _ hok => hok)
      · cases hs
  | dropWalGuard r =>
      simp only [WritePath.stepWal] at hs
      split at hs <;> cases hs
      · rename_i b hr
        exact h.goOn_same hr trivial trivial rfl rfl rfl rfl rfl rfl (fun _ hok => hok)
      · rename_i b e hr
        exact h.goOn_same hr trivial trivial rfl rfl rfl rfl rfl rfl (fun _ hok => hok)
  | dropWal wal written =>
      simp only [WritePath.stepWal] at hs
      split at hs <;> cases hs
      exact h.append wal _ _
  | _ => cases hs

/-- The leader inserts the next entry of its group. -/
theorem insert {r mem : Nat} {b : Batch} {m : Nat × Entry} {rest : List (Nat × Entry)}
    (h : GroupInv s queued groups) (hr : s.phase r = .inserting b mem (m :: rest)) :
    GroupInv ((s.insertEntry mem m).goto r (.inserting b mem rest)) queued groups := by
  obtain ⟨g, hg, rfl, hlead⟩ := h.led_group hr trivial
  obtain ⟨hentries, huntold, hsub, hlogged, hrest⟩ := hlead
  have hm : m.1 ∈ g.2 :=
    hentries.requests ▸ List.mem_map_of_mem (hsub List.mem_cons_self)
  have hl : Lead s ((s.insertEntry mem m).goto g.1 (.inserting b mem rest)) g
      (.inserting b mem rest) := by
    refine ⟨rfl, rfl, rfl, fun _ _ => rfl, List.Subset.refl _, List.subset_append_left _ _, ?_⟩
    intro m' hm'
    rcases List.mem_append.mp hm' with hm' | hm'
    · exact .inl hm'
    · exact .inr (List.mem_singleton.mp hm' ▸ hm)
  refine hl.inv h hg trivial ⟨entriesOf_congr hentries (fun _ _ => rfl), ?_,
    fun x hx => hsub (List.mem_cons_of_mem m hx), hlogged, ?_⟩
  · intro q hq
    exact ⟨fun hok => (huntold q hq).1 (hl.toldOk_of_slot (by simp) (fun _ hslot => hslot) hok),
      fun he => (huntold q hq).2 (hl.toldError_of_slot (by simp) (fun _ hslot => hslot) he)⟩
  · intro x hx
    rcases hrest x hx with hx | hx
    · rcases List.mem_cons.mp hx with rfl | hx
      · exact .inr (List.mem_append_right _ List.mem_cons_self)
      · exact .inl hx
    · exact .inr (List.mem_append_left _ hx)

/-- `GroupGuard::drop` tells a member that its write has succeeded. -/
theorem acknowledge {r : Nat} {b : Batch} {m : Nat × Entry} {rest : List (Nat × Entry)}
    (h : GroupInv s queued groups) (hr : s.phase r = .leaderFinishingWrite b (m :: rest)) :
    GroupInv ((s.acknowledge m b.lsn).goto r (.leaderFinishingWrite b rest)) queued groups := by
  obtain ⟨g, hg, rfl, hlead⟩ := h.led_group hr trivial
  obtain ⟨hentries, hsub, hnot, happlied⟩ := hlead
  have hm : m.1 ∈ g.2 :=
    hentries.requests ▸ List.mem_map_of_mem (hsub List.mem_cons_self)
  have hl : Lead s ((s.acknowledge m b.lsn).goto g.1 (.leaderFinishingWrite b rest)) g
      (.leaderFinishingWrite b rest) := by
    refine ⟨rfl, rfl, rfl, fun q hq => ?_, List.Subset.refl _, List.Subset.refl _,
      fun m hm => .inl hm⟩
    exact Function.update_of_ne (fun heq : q = m.1 => hq (heq ▸ hm)) _ _
  refine hl.inv h hg trivial ⟨entriesOf_congr hentries (fun _ _ => rfl),
    fun x hx => hsub (List.mem_cons_of_mem m hx), ?_, happlied⟩
  intro q hq htold
  exact hnot q hq (hl.toldError_of_slot (by simp) (fun _ => slot_of_complete (by simp)) htold)

/-- `GroupGuard::drop` tells a member that the group has failed. -/
theorem reject {r : Nat} {e : DbError} {m : Nat × Entry} {rest : List (Nat × Entry)}
    (h : GroupInv s queued groups) (hr : s.phase r = .groupFailed (m :: rest) e) :
    GroupInv ((s.complete m.1 (some (.error .writerPanic))).goto r (.groupFailed rest e))
      queued groups := by
  obtain ⟨g, hg, rfl, hlead⟩ := h.led_group hr trivial
  obtain ⟨hsub, hnot, hnone⟩ := hlead
  have hl : Lead s ((s.complete m.1 (some (.error .writerPanic))).goto g.1 (.groupFailed rest e)) g
      (.groupFailed rest e) := by
    refine ⟨rfl, rfl, rfl, fun q hq => ?_, List.Subset.refl _, List.Subset.refl _,
      fun m hm => .inl hm⟩
    exact Function.update_of_ne (fun heq : q = m.1 => hq (heq ▸ hsub m List.mem_cons_self)) _ _
  refine hl.inv h hg trivial ⟨fun x hx => hsub x (List.mem_cons_of_mem m hx), ?_, hnone⟩
  intro q hq htold
  exact hnot q hq (hl.toldOk_of_slot (by simp) (fun _ => slot_of_complete (by simp)) htold)

theorem stepMemtable {maxMemtableSize : Nat} {l : Label} (h : GroupInv s queued groups)
    (hs : WritePath.stepMemtable maxMemtableSize s l = some s') : GroupInv s' queued groups := by
  cases l with
  | enterMemtable r =>
      simp only [WritePath.stepMemtable] at hs
      split at hs
      · rename_i b hr
        split at hs
        · cases hs
          exact h.goOn_same hr trivial trivial rfl rfl rfl rfl rfl rfl (fun _ hok => hok)
        · cases hs
      · cases hs
  | loadMemtable r =>
      simp only [WritePath.stepMemtable] at hs
      split at hs <;> cases hs
      rename_i b hr
      refine h.goOn_same hr trivial trivial rfl rfl rfl rfl rfl rfl ?_
      intro group hok
      exact ⟨hok.1, hok.2.1, List.Subset.refl _, hok.2.2.2, fun m hm => .inl hm⟩
  | insert r =>
      simp only [WritePath.stepMemtable] at hs
      split at hs <;> cases hs
      · rename_i b mem m rest hr
        exact h.insert hr
      · rename_i b mem hr
        refine h.goOn_same hr trivial trivial rfl rfl rfl rfl rfl rfl ?_
        intro group hok
        obtain ⟨hentries, huntold, _, hlogged, hrest⟩ := hok
        exact ⟨hentries, huntold, fun m hm =>
          ⟨hlogged m hm, (hrest m hm).resolve_left List.not_mem_nil⟩⟩
  | checkSize r =>
      simp only [WritePath.stepMemtable] at hs
      split at hs
      · rename_i b hr
        split at hs <;> cases hs <;>
          exact h.goOn_same hr trivial trivial rfl rfl rfl rfl rfl rfl (fun _ hok => hok)
      · cases hs
  | dropTicketGuard r =>
      simp only [WritePath.stepMemtable] at hs
      split at hs <;> cases hs
      · rename_i b hr
        refine h.goOn_same hr trivial trivial rfl rfl rfl rfl rfl rfl ?_
        intro group hok
        exact ⟨hok.1, List.Subset.refl _, fun q hq => (hok.2.1 q hq).2, hok.2.2⟩
      · rename_i b e hr
        refine h.goOn_same hr trivial trivial rfl rfl rfl rfl rfl rfl ?_
        intro group hok
        exact ⟨fun m hm => hok.1.requests ▸ List.mem_map_of_mem hm, fun q hq => (hok.2.1 q hq).1,
          hok.2.2⟩
      · rename_i b e hr
        obtain ⟨_, _, _, hlead⟩ := h.led_group hr trivial
        exact absurd hlead id
  | dropGroupGuard r =>
      simp only [WritePath.stepMemtable] at hs
      split at hs <;> cases hs
      · rename_i b m rest hr
        exact h.acknowledge hr
      · rename_i b hr
        exact h.returnOk hr
      · rename_i m rest e hr
        exact h.reject hr
      · rename_i e hr
        exact h.returnError hr
      all_goals
        rename_i hr
        obtain ⟨_, _, _, hlead⟩ := h.led_group hr trivial
        exact absurd hlead id
  | _ => cases hs

theorem stepRotate {l : Label} (h : GroupInv s queued groups)
    (hs : WritePath.stepRotate s l = some s') (hok : ∀ t : History, RotationsSucceed t l) :
    GroupInv s' queued groups := by
  cases l with
  | commitRotation r fault =>
      cases hok (History.begin s)
      simp only [WritePath.stepRotate, rotateMutator, List.getLast?_append,
        List.getLast?_singleton] at hs
      split at hs
      · rename_i heq
        cases heq
      · rename_i b hr _
        -- the closure never fails, and the list it returns ends in the new id
        cases hs
        exact h.goOn_same hr trivial trivial rfl rfl rfl rfl rfl rfl (fun _ hok => hok)
      · cases hs
  | openRotation r fault =>
      cases hok (History.begin s)
      simp only [WritePath.stepRotate] at hs
      split at hs
      · rename_i b newWalId hr _
        cases hs
        exact h.goOn_same hr trivial trivial rfl rfl rfl rfl rfl rfl (fun _ hok => hok)
      · rename_i heq
        cases heq
      · cases hs
  | loadRotation r =>
      simp only [WritePath.stepRotate] at hs
      split at hs <;> cases hs
      rename_i b newWal hr
      exact h.goOn_same hr trivial trivial rfl rfl rfl rfl rfl rfl (fun _ hok => hok)
  | storeRotation r =>
      simp only [WritePath.stepRotate] at hs
      split at hs <;> cases hs
      rename_i b newWal current hr
      exact h.goOn_same hr trivial trivial rfl rfl rfl rfl rfl rfl (fun _ hok => hok)
  | _ => cases hs

/-- The flush touches nothing that the invariant speaks of. -/
theorem stepFlush {l : Label} (h : GroupInv s queued groups)
    (hs : WritePath.stepFlush s l = some s') : GroupInv s' queued groups := by
  have hsame : s'.phase = s.phase ∧ s'.syncs = s.syncs ∧ s'.request = s.request ∧
      s'.slot = s.slot ∧ s'.appended = s.appended ∧ s'.inserted = s.inserted := by
    cases l <;> simp only [WritePath.stepFlush] at hs <;> repeat' split at hs
    all_goals cases hs
    all_goals exact ⟨rfl, rfl, rfl, rfl, rfl, rfl⟩
  obtain ⟨hphase, hsyncs, hrequest, hslot, happended, hinserted⟩ := hsame
  have hframe : ∀ group, Frame s s' group := by
    intro group
    refine ⟨fun _ _ => by rw [hrequest], fun q _ => ?_, fun q _ => ?_,
      happended ▸ List.Subset.refl _, hinserted ▸ List.Subset.refl _, fun hnone => ?_⟩
    · simp only [Sys.ToldOk, hslot, hphase, imp_self]
    · simp only [Sys.ToldError, hslot, hphase, imp_self]
    · simpa only [Sys.NoneInserted, hinserted] using hnone
  exact
    { drained := hsyncs ▸ h.drained
      nodup := h.nodup
      led := h.led
      unqueued := hphase ▸ h.unqueued
      leading := hphase ▸ h.leading
      members := by rw [hphase, hslot]; exact h.members
      leaders := fun g hg => by rw [hphase]; exact (hframe g.2).leaderOk (h.leaders g hg)
      inserted := hinserted ▸ h.inserted }

/-- A step that forms no group and queues no request. -/
theorem step_quiet {maxMemtableSize : Nat} {h h' : History} {l : Label}
    (hinv : GroupInv h.sys h.queued h.groups) (hok : RotationsSucceed h l)
    (hs : h.step maxMemtableSize l = some h') (hqueue : ∀ r, l ≠ .queue r)
    (hfront : ∀ r, l ≠ .checkFront r) : GroupInv h'.sys h'.queued h'.groups := by
  obtain ⟨hs', hrecord⟩ := History.step_sys hs
  have hsame := History.groups_record h h'.sys hqueue hfront
  rw [← hrecord] at hsame
  rw [hsame.1, hsame.2]
  rcases step_cases hs' with hs' | hs' | hs' | hs' | hs'
  · exact hinv.stepQueue hs' hqueue hfront
  · exact hinv.stepWal hs'
  · exact hinv.stepMemtable hs'
  · refine hinv.stepRotate hs' (fun _ => ?_)
    cases l <;> exact hok
  · exact hinv.stepFlush hs'

/-- A step of the write path in which no rotation fails keeps the invariant. -/
theorem step {maxMemtableSize : Nat} {h h' : History} {l : Label}
    (hinv : GroupInv h.sys h.queued h.groups) (hok : RotationsSucceed h l)
    (hs : h.step maxMemtableSize l = some h') : GroupInv h'.sys h'.queued h'.groups := by
  obtain ⟨hs', hrecord⟩ := History.step_sys hs
  cases l with
  | queue r =>
      simp only [WritePath.step, WritePath.stepQueue] at hs'
      split at hs'
      · rename_i hr
        rw [hrecord]
        simp only [History.record, ← Option.some.inj hs']
        exact hinv.queue hr
      · cases hs'
  | checkFront r =>
      simp only [WritePath.step, WritePath.stepQueue] at hs'
      split at hs'
      · rename_i front rest hr hqueue
        split at hs'
        · rename_i hfront
          subst hfront
          rw [hrecord]
          simp only [History.record, ← Option.some.inj hs']
          exact hinv.checkFront hr hqueue
        · cases hs'
      · cases hs'
  | _ => exact hinv.step_quiet hok hs (by simp) (by simp)

/-- The invariant holds when nothing is running. -/
theorem of_start {h : History} (hstart : h.Start) : GroupInv h.sys h.queued h.groups := by
  have hsys := hstart.sys
  rw [hstart.queued, hstart.groups]
  refine ⟨by simp [hsys.queue], List.nodup_nil, by simp, fun r => ?_, fun r hr => ?_,
    fun r hr => ?_, by simp, ?_⟩
  · rw [hsys.phase r]
    exact ⟨fun _ => trivial, fun _ => List.not_mem_nil⟩
  · rw [hsys.phase r] at hr
    exact absurd hr id
  · rw [hsys.phase r, hsys.slot r] at hr
    rcases hr with hr | hr
    · exact absurd hr id
    · exact absurd rfl hr
  · rw [hsys.recorded.1]
    exact fun m hm => absurd hm List.not_mem_nil

end GroupInv

/-! ## Rejected writes and the logs -/

/-- The log write of the leader has succeeded, and nothing has failed since. -/
def Phase.logged : Phase → Prop
  | .walWritten _ | .leaderWaitingToWriteMemtable _ | .leaderWritingMemtable _ | .inserting _ _ _
  | .inserted _ | .rotateCommit _ | .rotateOpen _ _ | .rotateLoad _ _ | .rotateStore _ _ _
  | .memtableDone _ | .leaderFinishingWrite _ _ | .done (.ok ()) => True
  | _ => False

/-- A leader whose log write has succeeded stays one when rotations succeed. -/
theorem logged_step {maxMemtableSize : Nat} {h : History} {s' : Sys} {l : Label} {q : Nat}
    (hok : RotationsSucceed h l) (hs : step maxMemtableSize h.sys l = some s')
    (hq : (h.sys.phase q).logged) : (s'.phase q).logged := by
  have hmove : ∀ (t : Sys) (r : Nat) (p : Phase), t.phase = h.sys.phase →
      ((h.sys.phase r).logged → p.logged) → ((t.goto r p).phase q).logged := by
    intro t r p hphase hp
    simp only [Sys.goto, hphase]
    by_cases heq : q = r
    · subst heq
      rw [Function.update_self]
      exact hp hq
    · rwa [Function.update_of_ne heq]
  cases l with
  | commitRotation r fault =>
      cases hok
      simp only [step, stepRotate, rotateMutator, List.getLast?_concat] at hs
      split at hs
      · rename_i heq
        cases heq
      · cases hs
        exact hmove _ _ _ rfl (fun _ => trivial)
      · cases hs
  | openRotation r fault =>
      cases hok
      simp only [step, stepRotate] at hs
      split at hs
      · cases hs
        exact hmove _ _ _ rfl (fun _ => trivial)
      · rename_i heq
        cases heq
      · cases hs
  | _ =>
      simp only [step, stepQueue, stepWal, stepMemtable, stepRotate, stepFlush] at hs
      repeat' split at hs
      all_goals cases hs
      all_goals first
        | exact hq
        | exact hmove _ _ _ rfl (fun _ => trivial)
        | (refine hmove _ _ _ rfl (fun hold => ?_); simp_all [Phase.logged])

/-- Every appended entry is of a group whose log write has succeeded, and nothing is held back. -/
structure OnlyLogged (h : History) : Prop where
  logged : ∀ m ∈ h.sys.appended, ∃ g ∈ h.groups, m.1 ∈ g.2 ∧ (h.sys.phase g.1).logged
  flushed : h.sys.Flushed

namespace OnlyLogged

variable {maxMemtableSize : Nat} {h h' : History}

/-- What a step appends is of a group whose log write has just succeeded. -/
theorem of_append {l : Label} {s' : Sys} {wal : WalHandle} {members : List (Nat × Entry)}
    (ho : OnlyLogged h) (hinv : GroupInv h.sys h.queued h.groups)
    (hleave : FailuresLeaveNothing h l)
    (htarget : History.target h.sys l = some wal) (hs : step maxMemtableSize h.sys l = some s')
    (happended : s'.appended = h.sys.appended ++ members) :
    ∀ m ∈ members, ∃ g ∈ h.groups, m.1 ∈ g.2 ∧ (s'.phase g.1).logged := by
  cases l with
  | writeWal r fault =>
      simp only [step, stepWal] at hs
      split at hs
      · rename_i b wal' hr
        rw [ho.flushed wal', List.nil_append] at hs
        split at hs <;> cases hs
        · have hmembers : members = b.members := (List.append_cancel_left happended).symm
          obtain ⟨g, hg, rfl, hentries, _⟩ := hinv.led_group hr trivial
          intro m hm
          refine ⟨g, hg, ?_, ?_⟩
          · rw [← hentries.requests]
            exact List.mem_map_of_mem (hmembers ▸ hm)
          · show (Function.update h.sys.phase g.1 _ g.1).logged
            rw [Function.update_self]
            trivial
        · rename_i written kept kind
          have hwritten : written = 0 := (hleave _ rfl).1
          rw [hwritten, List.take_zero] at happended
          have hmembers : members = [] := (List.append_cancel_left happended).symm
          rw [hmembers]
          exact fun m hm => absurd hm List.not_mem_nil
      · cases hs
  | dropWal wal' written =>
      simp only [step, stepWal] at hs
      split at hs <;> cases hs
      rw [ho.flushed wal', List.take_nil] at happended
      have hmembers : members = [] := (List.append_cancel_left happended).symm
      rw [hmembers]
      exact fun m hm => absurd hm List.not_mem_nil
  | _ => cases htarget

theorem step {l : Label} (ho : OnlyLogged h) (hinv : GroupInv h.sys h.queued h.groups)
    (hok : RotationsSucceed h l) (hleave : FailuresLeaveNothing h l)
    (hs : h.step maxMemtableSize l = some h') : OnlyLogged h' := by
  obtain ⟨hs', hrecord⟩ := History.step_sys hs
  have hgroups : h.groups ⊆ h'.groups := by
    rw [hrecord]
    exact h.groups_subset_record _ _
  have hkeeps : l.keepsNothing := by
    cases l with
    | writeWal r fault => exact fun f hf => (hleave f hf).2
    | _ => trivial
  have hold : ∀ m ∈ h.sys.appended, ∃ g ∈ h'.groups, m.1 ∈ g.2 ∧ (h'.sys.phase g.1).logged := by
    intro m hm
    obtain ⟨g, hg, hmem, hlogged⟩ := ho.logged m hm
    exact ⟨g, hgroups hg, hmem, logged_step hok hs' hlogged⟩
  refine ⟨fun m hm => ?_, ho.flushed.step hkeeps hs'⟩
  cases dataStep_of_step hs' with
  | same _ _ _ _ _ happended _ => exact hold m (happended ▸ hm)
  | insert _ _ _ _ _ _ _ happended _ => exact hold m (happended ▸ hm)
  | place _ _ _ _ _ happended _ => exact hold m (happended ▸ hm)
  | append wal members htarget _ _ _ _ happended _ =>
      rw [happended] at hm
      rcases List.mem_append.mp hm with hm | hm
      · exact hold m hm
      · obtain ⟨g, hg, hmem, hlogged⟩ := ho.of_append hinv hleave htarget hs' happended m hm
        exact ⟨g, hgroups hg, hmem, hlogged⟩

theorem of_start (hstart : h.Start) : OnlyLogged h := by
  refine ⟨fun m hm => ?_, hstart.buffered⟩
  rw [hstart.appended] at hm
  exact absurd hm List.not_mem_nil

end OnlyLogged

/-- Two writers queue, and the first one leads both through the log and the memtable. -/
def leadTwo : List Label :=
  [.put 0 [97] (.bytes [1]), .put 1 [98] (.bytes [2]), .queue 0, .queue 1, .checkFront 0,
    .markFollower 0, .markFollower 0, .markFollower 0, .acquireWal 0, .takeTicket 0, .loadWal 0,
    .writeWal 0 none, .dropWalGuard 0, .enterMemtable 0, .loadMemtable 0, .insert 0, .insert 0,
    .insert 0, .checkSize 0]

/-- A writer leads its own group to the log write, which fails, and returns the error. -/
def rejectAlone (r : Nat) (fault : WalFault) : List Label :=
  [.put r [99] (.bytes [3]), .queue r, .checkFront r, .markFollower r, .markFollower r,
    .acquireWal r, .takeTicket r, .loadWal r, .writeWal r (some fault), .dropWalGuard r,
    .dropTicketGuard r, .dropGroupGuard r, .dropGroupGuard r]

/-- `RotationsSucceed` and `FailuresLeaveNothing` as a check. -/
def Label.harmless : Label → Bool
  | .commitRotation _ fault | .openRotation _ fault => fault.isNone
  | .writeWal _ fault => fault.all fun f => f.written == 0 && f.kept == 0
  | _ => true

/-- A writer whose log write failed has returned the error when the next log write takes its entry
to the file. -/
theorem rejected_logged :
    ¬ ∀ h, Reach (History.step 0) History.Start RotationsSucceed h → Unlogged h := by
  intro hall
  have hrun : ∃ h, run (History.step 0) (.begin pristine)
      (rejectAlone 2 ⟨0, 1, .other "disk full"⟩ ++ leadTwo) = some h ∧
      h.sys.phase 2 = .done (.error (.io (.other "disk full"))) ∧
      h.appends.map (fun a => a.2.1) = [2, 0, 1] := ⟨_, rfl, rfl, rfl⟩
  obtain ⟨h, hrun, hrejected, happends⟩ := hrun
  have hok : ∀ l ∈ rejectAlone 2 ⟨0, 1, .other "disk full"⟩ ++ leadTwo, ∀ h,
      RotationsSucceed h l := by
    intro l hl h
    have hnone : ∀ r fault, l ≠ .commitRotation r fault ∧ l ≠ .openRotation r fault := by
      intro r fault
      constructor <;>
      · intro heq
        simp [heq, rejectAlone, leadTwo] at hl
    cases l with
    | commitRotation r fault => exact absurd rfl (hnone r fault).1
    | openRotation r fault => exact absurd rfl (hnone r fault).2
    | _ => trivial
  have hunlogged := hall h (Reach.of_run_ok (.start History.start_pristine) hok hrun)
  have hmem : 2 ∈ h.appends.map (fun a => a.2.1) := by
    rw [happends]
    exact List.mem_cons_self
  obtain ⟨a, ha, hreq⟩ := List.mem_map.mp hmem
  exact hunlogged.rejected 2 _ hrejected a ha hreq

end EasyLsm.WritePath
