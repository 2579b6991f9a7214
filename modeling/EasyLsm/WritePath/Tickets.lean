import Mathlib.Data.List.Basic
import EasyLsm.Lib.Ticket
import EasyLsm.WritePath.Machine

/-!
# The order of the memtable stage

A leader holds a ticket from the log stage to the end of the memtable stage, so the write path
is a ticket queue (`Queue.step`). `TicketGuard::drop` advances `ticket_to_mem` whatever the ticket
of the guard, so a leader whose log write fails can let the turn of an earlier leader pass.
`ticket_order` says that the memtable stage is exclusive and in order in every run in which such
a leader drops its guard only when no leader with a smaller ticket has yet to enter.
-/

namespace EasyLsm.WritePath

open Lib

/-- What a writer does with its ticket. -/
def Phase.role : Phase → Ticket.Role
  | .walTicket b | .walLoaded b _ | .walWritten b | .leaderWaitingToWriteMemtable b =>
      .waiting b.ticket
  | .walFailed b _ | .ticketFailed b _ => .failed b.ticket
  | .leaderWritingMemtable b | .inserting b _ _ | .inserted b | .rotateCommit b
  | .rotateOpen b _ | .rotateLoad b _ | .rotateStore b _ _ | .memtableDone b
  | .rotateFailed b _ _ | .rotateFailedTicket b _ => .inside b.ticket
  | _ => .none

/-- The memtable stage is exclusive, leaders enter it in increasing ticket order, and the turn
does not pass a leader that has yet to enter. -/
structure TicketOrder (s : Sys) : Prop where
  exclusive : ∀ r q k l, (s.phase r).role = .inside k → (s.phase q).role = .inside l → r = q
  ordered : s.entered.Pairwise (· > ·)
  notPassed : ∀ r k, (s.phase r).role = .waiting k → s.syncs.ticketToMem ≤ k

/-- The condition on a step: a leader whose log write failed drops its `TicketGuard` only when
every leader that has yet to enter the memtable stage has a larger ticket. -/
def FailuresInOrder (s : Sys) : Label → Prop
  | .dropTicketGuard r => ∀ b e, s.phase r = .ticketFailed b e →
      ∀ q k, (s.phase q).role = .waiting k → b.ticket < k
  | _ => True

/-- The ticket queue of a state. -/
structure Queue (s : Sys) (a : Ticket.State Nat) : Prop where
  turn : a.turn = s.syncs.ticketToMem
  next : a.next = s.syncs.nextTicket
  entered : a.entered = s.entered
  role : ∀ r, a.role r = (s.phase r).role

/-- The ticket counters and the record of entries are the same in two states. -/
structure SameTickets (s s' : Sys) : Prop where
  turn : s'.syncs.ticketToMem = s.syncs.ticketToMem
  next : s'.syncs.nextTicket = s.syncs.nextTicket
  entered : s'.entered = s.entered
  phase : s'.phase = s.phase

/-- A writer moves to a state with the same role; the queue does not change. -/
theorem Queue.stutter {s s' : Sys} {a : Ticket.State Nat} {r : Nat} {p : Phase} (h : Queue s a)
    (hsame : SameTickets s s') (hrole : p.role = (s.phase r).role) : Queue (s'.goto r p) a where
  turn := h.turn.trans hsame.turn.symm
  next := h.next.trans hsame.next.symm
  entered := h.entered.trans hsame.entered.symm
  role q := by
    rw [h.role]
    show _ = (Function.update s'.phase r p q).role
    rw [hsame.phase]
    by_cases hq : q = r
    · subst hq
      rw [Function.update_self, hrole]
    · rw [Function.update_of_ne hq]

/-- A writer moves to a state with another role, as the queue does. -/
theorem Queue.move {s s' : Sys} {a : Ticket.State Nat} {r : Nat} {p : Phase} {k n : Nat}
    {dropped entered : List Nat} (h : Queue s a) (hphase : s'.phase = s.phase)
    (hturn : k = s'.syncs.ticketToMem) (hnext : n = s'.syncs.nextTicket)
    (hentered : entered = s'.entered) :
    Queue (s'.goto r p) ⟨k, n, dropped, entered, Function.update a.role r p.role⟩ where
  turn := hturn
  next := hnext
  entered := hentered
  role q := by
    show Function.update a.role r p.role q = (Function.update s'.phase r p q).role
    rw [hphase]
    by_cases hq : q = r
    · subst hq
      rw [Function.update_self, Function.update_self]
    · rw [Function.update_of_ne hq, Function.update_of_ne hq, h.role]

/-- The same state has the same tickets. -/
theorem SameTickets.refl (s : Sys) : SameTickets s s := ⟨rfl, rfl, rfl, rfl⟩

/-- What a step does to the tickets: nothing, or one move of the ticket queue. -/
abbrev Simulates (s s' : Sys) (l : Label) (a : Ticket.State Nat) : Prop :=
  Queue s' a ∨ ∃ m a', (FailuresInOrder s l → Ticket.InOrder a m) ∧
    Ticket.step a m = some a' ∧ Queue s' a'

section Steps

variable {maxMemtableSize : Nat} {s s' : Sys} {a : Ticket.State Nat}

/-- The steps up to the log stage take no ticket. -/
theorem Queue.stepQueue {l : Label} (h : Queue s a) (hs : stepQueue s l = some s') :
    Queue s' a := by
  cases l with
  | put r bytes value =>
      simp only [WritePath.stepQueue] at hs
      split at hs <;> cases hs
      rename_i hphase
      exact h.stutter ⟨rfl, rfl, rfl, rfl⟩ (by rw [hphase]; rfl)
  | queue r =>
      simp only [WritePath.stepQueue] at hs
      split at hs <;> cases hs
      rename_i hphase
      exact h.stutter ⟨rfl, rfl, rfl, rfl⟩ (by rw [hphase]; rfl)
  | checkCompletion r =>
      simp only [WritePath.stepQueue] at hs
      split at hs <;> cases hs
      · rename_i hphase _
        exact h.stutter ⟨rfl, rfl, rfl, rfl⟩ (by rw [hphase]; rfl)
      · rename_i hphase _
        exact h.stutter ⟨rfl, rfl, rfl, rfl⟩ (by rw [hphase]; rfl)
      · rename_i hphase _
        exact h.stutter ⟨rfl, rfl, rfl, rfl⟩ (by rw [hphase]; rfl)
      · exact ⟨h.turn, h.next, h.entered, h.role⟩
      · rename_i hphase _
        exact h.stutter ⟨rfl, rfl, rfl, rfl⟩ (by rw [hphase]; rfl)
      · rename_i hphase _
        exact h.stutter ⟨rfl, rfl, rfl, rfl⟩ (by rw [hphase]; rfl)
  | checkFront r =>
      simp only [WritePath.stepQueue] at hs
      split at hs
      · rename_i hphase _
        split at hs <;> cases hs
        exact h.stutter ⟨rfl, rfl, rfl, rfl⟩ (by rw [hphase]; rfl)
      · cases hs
  | markFollower r =>
      simp only [WritePath.stepQueue] at hs
      split at hs <;> cases hs
      · rename_i hphase
        exact h.stutter (SameTickets.refl s) (by rw [hphase]; rfl)
      · rename_i hphase
        exact h.stutter ⟨rfl, rfl, rfl, rfl⟩ (by rw [hphase]; rfl)
  | _ => cases hs

/-- In the log stage a leader takes a ticket, and a failed write marks it as failed. -/
theorem Queue.stepWal {l : Label} (h : Queue s a) (hs : stepWal s l = some s') :
    Simulates s s' l a := by
  cases l with
  | acquireWal r =>
      simp only [WritePath.stepWal] at hs
      split at hs
      · rename_i hphase
        split at hs <;> cases hs
        exact .inl (h.stutter ⟨rfl, rfl, rfl, rfl⟩ (by rw [hphase]; rfl))
      · cases hs
  | takeTicket r =>
      simp only [WritePath.stepWal] at hs
      split at hs <;> cases hs
      rename_i hphase
      have hrole : a.role r = .none := by rw [h.role, hphase]; rfl
      refine .inr ⟨.issue r, ⟨a.turn, a.next + 1, a.dropped, a.entered,
        Function.update a.role r (.waiting a.next)⟩, fun _ => trivial, ?_, ?_⟩
      · simp only [Ticket.step, hrole]
      · have hnext := h.next
        rw [show Ticket.Role.waiting a.next = Phase.role (.walTicket ⟨stamp s.request
          s.syncs.nextLsn _, s.syncs.nextTicket, s.syncs.nextLsn⟩) by rw [hnext]; rfl]
        exact h.move rfl h.turn (congrArg (· + 1) h.next) h.entered
  | loadWal r =>
      simp only [WritePath.stepWal] at hs
      split at hs <;> cases hs
      rename_i hphase
      exact .inl (h.stutter (SameTickets.refl s) (by rw [hphase]; rfl))
  | writeWal r fault =>
      simp only [WritePath.stepWal] at hs
      split at hs
      · rename_i b wal hphase
        split at hs <;> cases hs
        · exact .inl (h.stutter ⟨rfl, rfl, rfl, rfl⟩ (by rw [hphase]; rfl))
        · have hrole : a.role r = .waiting b.ticket := by rw [h.role, hphase]; rfl
          refine .inr ⟨.fail r, ⟨a.turn, a.next, a.dropped, a.entered,
            Function.update a.role r (.failed b.ticket)⟩, fun _ => trivial, ?_, ?_⟩
          · simp only [Ticket.step, hrole]
          · exact h.move (p := .walFailed b _) rfl h.turn h.next h.entered
      · cases hs
  | dropWalGuard r =>
      simp only [WritePath.stepWal] at hs
      split at hs <;> cases hs
      · rename_i hphase
        exact .inl (h.stutter ⟨rfl, rfl, rfl, rfl⟩ (by rw [hphase]; rfl))
      · rename_i hphase
        exact .inl (h.stutter ⟨rfl, rfl, rfl, rfl⟩ (by rw [hphase]; rfl))
  | dropWal wal written =>
      simp only [WritePath.stepWal] at hs
      split at hs <;> cases hs
      exact .inl ⟨h.turn, h.next, h.entered, h.role⟩
  | _ => cases hs

/-- In the memtable stage a leader enters on its turn and gives its ticket back at the end. -/
theorem Queue.stepMemtable {l : Label} (h : Queue s a)
    (hs : stepMemtable maxMemtableSize s l = some s') : Simulates s s' l a := by
  cases l with
  | enterMemtable r =>
      simp only [WritePath.stepMemtable] at hs
      split at hs
      · rename_i b hphase
        split at hs <;> cases hs
        rename_i hturn
        have hrole : a.role r = .waiting b.ticket := by rw [h.role, hphase]; rfl
        refine .inr ⟨.enter r, ⟨a.turn, a.next, a.dropped, b.ticket :: a.entered,
          Function.update a.role r (.inside b.ticket)⟩, fun _ => trivial, ?_, ?_⟩
        · simp only [Ticket.step, hrole, h.turn, hturn, if_true]
        · exact h.move (p := .leaderWritingMemtable b) rfl h.turn h.next
            (congrArg (b.ticket :: ·) h.entered)
      · cases hs
  | loadMemtable r =>
      simp only [WritePath.stepMemtable] at hs
      split at hs <;> cases hs
      rename_i hphase
      exact .inl (h.stutter (SameTickets.refl s) (by rw [hphase]; rfl))
  | insert r =>
      simp only [WritePath.stepMemtable] at hs
      split at hs <;> cases hs
      · rename_i hphase
        exact .inl (h.stutter ⟨rfl, rfl, rfl, rfl⟩ (by rw [hphase]; rfl))
      · rename_i hphase
        exact .inl (h.stutter (SameTickets.refl s) (by rw [hphase]; rfl))
  | checkSize r =>
      simp only [WritePath.stepMemtable] at hs
      split at hs
      · rename_i hphase
        split at hs <;> cases hs <;>
          exact .inl (h.stutter (SameTickets.refl s) (by rw [hphase]; rfl))
      · cases hs
  | dropTicketGuard r =>
      simp only [WritePath.stepMemtable] at hs
      split at hs <;> cases hs
      · rename_i b hphase
        have hrole : a.role r = .inside b.ticket := by rw [h.role, hphase]; rfl
        refine .inr ⟨.leave r, a.giveBack r b.ticket, fun _ => trivial, ?_, ?_⟩
        · simp only [Ticket.step, hrole]
        · exact h.move (p := .leaderFinishingWrite b b.members) rfl (congrArg (· + 1) h.turn)
            h.next h.entered
      · rename_i b e hphase
        have hrole : a.role r = .failed b.ticket := by rw [h.role, hphase]; rfl
        refine .inr ⟨.abandon r, a.giveBack r b.ticket, fun hok k hk q l hl => ?_, ?_, ?_⟩
        · rw [hrole] at hk
          cases hk
          rw [h.role] at hl
          exact hok b e hphase q l hl
        · simp only [Ticket.step, hrole]
        · exact h.move (p := .groupFailed b.members e) rfl (congrArg (· + 1) h.turn)
            h.next h.entered
      · rename_i b e hphase
        have hrole : a.role r = .inside b.ticket := by rw [h.role, hphase]; rfl
        refine .inr ⟨.leave r, a.giveBack r b.ticket, fun _ => trivial, ?_, ?_⟩
        · simp only [Ticket.step, hrole]
        · exact h.move (p := .done (.error e)) rfl (congrArg (· + 1) h.turn) h.next h.entered
  | dropGroupGuard r =>
      simp only [WritePath.stepMemtable] at hs
      split at hs <;> cases hs
      all_goals
        rename_i hphase
        exact .inl (h.stutter ⟨rfl, rfl, rfl, rfl⟩ (by rw [hphase]; rfl))
  | _ => cases hs

/-- A rotation happens inside the memtable stage. -/
theorem Queue.stepRotate {l : Label} (h : Queue s a) (hs : stepRotate s l = some s') :
    Queue s' a := by
  cases l with
  | commitRotation r fault =>
      simp only [WritePath.stepRotate] at hs
      split at hs
      · rename_i hphase
        cases hs
        exact h.stutter (SameTickets.refl s) (by rw [hphase]; rfl)
      · rename_i hphase
        split at hs
        · cases hs
          exact h.stutter (SameTickets.refl s) (by rw [hphase]; rfl)
        · split at hs <;> cases hs
          · exact h.stutter (SameTickets.refl s) (by rw [hphase]; rfl)
          · exact h.stutter ⟨rfl, rfl, rfl, rfl⟩ (by rw [hphase]; rfl)
      · cases hs
  | openRotation r fault =>
      simp only [WritePath.stepRotate] at hs
      split at hs <;> cases hs
      · rename_i hphase
        exact h.stutter (SameTickets.refl s) (by rw [hphase]; rfl)
      · rename_i hphase
        exact h.stutter ⟨rfl, rfl, rfl, rfl⟩ (by rw [hphase]; rfl)
  | loadRotation r =>
      simp only [WritePath.stepRotate] at hs
      split at hs <;> cases hs
      rename_i hphase
      exact h.stutter (SameTickets.refl s) (by rw [hphase]; rfl)
  | storeRotation r =>
      simp only [WritePath.stepRotate] at hs
      split at hs <;> cases hs
      rename_i hphase
      exact h.stutter ⟨rfl, rfl, rfl, rfl⟩ (by rw [hphase]; rfl)
  | _ => cases hs

/-- The flush does not touch the tickets. -/
theorem sameTickets_stepFlush {l : Label} (hs : stepFlush s l = some s') : SameTickets s s' := by
  cases l with
  | flushStart =>
      simp only [WritePath.stepFlush] at hs
      split at hs
      · split at hs
        · cases hs
        · split at hs <;> cases hs
          exact ⟨rfl, rfl, rfl, rfl⟩
      · cases hs
  | flushWrite =>
      simp only [WritePath.stepFlush] at hs
      split at hs
      · split at hs <;> cases hs
        exact ⟨rfl, rfl, rfl, rfl⟩
      · cases hs
  | flushCommit newSstables =>
      simp only [WritePath.stepFlush] at hs
      split at hs
      · split at hs
        · cases hs
        · split at hs <;> cases hs <;> exact ⟨rfl, rfl, rfl, rfl⟩
      · cases hs
  | flushLoad =>
      simp only [WritePath.stepFlush] at hs
      split at hs <;> cases hs
      exact ⟨rfl, rfl, rfl, rfl⟩
  | flushStore =>
      simp only [WritePath.stepFlush] at hs
      split at hs <;> cases hs
      exact ⟨rfl, rfl, rfl, rfl⟩
  | flushFail =>
      simp only [WritePath.stepFlush] at hs
      split at hs <;> cases hs
      exact ⟨rfl, rfl, rfl, rfl⟩
  | _ => cases hs

/-- The write path is a ticket queue: a step leaves the queue alone or makes one of its moves. -/
theorem Queue.step {l : Label} (h : Queue s a) (hs : step maxMemtableSize s l = some s') :
    Simulates s s' l a := by
  rcases step_cases hs with hs | hs | hs | hs | hs
  · exact .inl (h.stepQueue hs)
  · exact h.stepWal hs
  · exact h.stepMemtable hs
  · exact .inl (h.stepRotate hs)
  · have hsame := sameTickets_stepFlush hs
    exact .inl ⟨h.turn.trans hsame.turn.symm, h.next.trans hsame.next.symm,
      h.entered.trans hsame.entered.symm, fun r => by rw [h.role, hsame.phase]⟩

end Steps

/-- The queue is unused when no write is running. -/
theorem Start.queue_initial {s : Sys} (h : Start s) : Queue s Ticket.initial where
  turn := h.noTicket.1.symm
  next := h.noTicket.2.symm
  entered := h.recorded.2.2.1.symm
  role r := by rw [h.phase r]; rfl

/-- In every run in which failed leaders drop their tickets in order, the memtable stage is
exclusive and in ticket order, and no waiting leader is skipped. -/
theorem ticket_order {maxMemtableSize : Nat} {s : Sys}
    (h : Reach (step maxMemtableSize) Start FailuresInOrder s) : TicketOrder s := by
  have hsim : ∃ a, Reach Ticket.step (· = Ticket.initial) Ticket.InOrder a ∧ Queue s a :=
    h.simulate (· = Ticket.initial) Queue (fun s hs => ⟨Ticket.initial, rfl, hs.queue_initial⟩)
      (fun s l s' a hq hl hs => (hq.step hs).imp id
        (fun ⟨m, a', hm, hma, hq'⟩ => ⟨m, a', hm hl, hma, hq'⟩))
  obtain ⟨a, ha, hqueue⟩ := hsim
  have hsound := Ticket.sound_of_reach ha
  exact
    { exclusive := fun r q k l hr hq =>
        hsound.exclusive r q k l ((hqueue.role r).trans hr) ((hqueue.role q).trans hq)
      ordered := hqueue.entered ▸ hsound.ordered
      notPassed := fun r k hr => hqueue.turn ▸ hsound.notPassed r k ((hqueue.role r).trans hr) }

/-- The turn and the ticket of a leader that waits are compared as `usize` in the source, with the
same outcome while fewer than `2 ^ 64` tickets are out. -/
theorem usize_ticket_eq_iff {s : Sys} {r k : Nat} (h : TicketOrder s)
    (hr : (s.phase r).role = .waiting k) (hout : k < s.syncs.ticketToMem + 2 ^ 64) :
    s.syncs.ticketToMem % 2 ^ 64 = k % 2 ^ 64 ↔ s.syncs.ticketToMem = k := by
  have hle := h.notPassed r k hr
  constructor
  · intro heq
    omega
  · intro heq
    rw [heq]

/-- A writer puts an entry, leads its own group and gets to its log write. -/
def leadToWal (r : Nat) : List Label :=
  [.put r [107] (.bytes [1]), .queue r, .checkFront r, .markFollower r, .markFollower r,
    .acquireWal r, .takeTicket r, .loadWal r]

/-- The log write of a leader fails. -/
def failWal (r : Nat) : List Label :=
  [.writeWal r (some ⟨0, 1, .other "disk full"⟩), .dropWalGuard r]

/-- The log write of the first leader fails, and the next leader writes its log and waits. -/
def failFirst : List Label :=
  leadToWal 0 ++ failWal 0 ++ leadToWal 1 ++ [.writeWal 1 none, .dropWalGuard 1]

/-- A leader whose log write failed drops its ticket while a leader with a larger one waits. -/
theorem ticket_order_failed_first :
    ∃ s, run (step 0) pristine (failFirst ++ [.dropTicketGuard 0]) = some s ∧
      (s.phase 1).role = .waiting 1 ∧ TicketOrder s := by
  have hfree : ∀ l ∈ failFirst, ∀ s, FailuresInOrder s l := by
    intro l hl s
    have hother : ∀ r, l ≠ .dropTicketGuard r := by
      intro r heq
      rw [heq] at hl
      simp [failFirst, leadToWal, failWal] at hl
    cases l with
    | dropTicketGuard r => exact absurd rfl (hother r)
    | _ => exact trivial
  obtain ⟨s₁, hrun₁, hfailed, hwaiting, hothers⟩ : ∃ s, run (step 0) pristine failFirst = some s ∧
      s.phase 0 = .ticketFailed ⟨[(0, Key.new [107] 1, .bytes [1])], 0, 1⟩
        (.io (.other "disk full")) ∧
      s.phase 1 = .leaderWaitingToWriteMemtable ⟨[(1, Key.new [107] 2, .bytes [1])], 1, 2⟩ ∧
      ∀ q, s.phase (q + 2) = .idle := ⟨_, rfl, rfl, rfl, fun _ => rfl⟩
  have hreach₁ : Reach (step 0) Start FailuresInOrder s₁ :=
    (Reach.start start_pristine).of_run_ok hfree hrun₁
  have hinorder : FailuresInOrder s₁ (.dropTicketGuard 0) := by
    intro b e hb q k hq
    rw [hfailed] at hb
    cases hb
    match q with
    | 0 =>
        rw [hfailed] at hq
        cases hq
    | 1 =>
        rw [hwaiting] at hq
        cases hq
        exact Nat.zero_lt_one
    | q + 2 =>
        rw [hothers] at hq
        cases hq
  obtain ⟨s₂, hrun₂, hrole⟩ : ∃ s, run (step 0) pristine (failFirst ++ [.dropTicketGuard 0]) =
      some s ∧ (s.phase 1).role = .waiting 1 := ⟨_, rfl, rfl⟩
  refine ⟨s₂, hrun₂, hrole, @ticket_order 0 _ (hreach₁.of_run_cons_ok hinorder
    (fun l hl => absurd hl List.not_mem_nil) (run_of_append hrun₁ hrun₂))⟩

/-- A leader has written its log and waits; the log write of the next leader fails and it drops
its ticket. -/
def skipped : List Label :=
  leadToWal 0 ++ [.writeWal 0 none, .dropWalGuard 0] ++ leadToWal 1 ++ failWal 1 ++
    [.dropTicketGuard 1]

/-- After `skipped` the turn has passed the waiting leader. -/
theorem waiting_leader_skipped :
    ¬ ∀ s, Reach (step 0) Start anyStep s → TicketOrder s := by
  intro hall
  have hrun : ∃ s, run (step 0) pristine skipped = some s ∧
      (s.phase 0).role = .waiting 0 ∧ s.syncs.ticketToMem = 1 := ⟨_, rfl, rfl, rfl⟩
  obtain ⟨s, hrun, hrole, hturn⟩ := hrun
  have horder := hall s (Reach.of_run (.start start_pristine) hrun)
  have hle := horder.notPassed 0 0 hrole
  rw [hturn] at hle
  exact absurd hle (by decide)

end EasyLsm.WritePath
