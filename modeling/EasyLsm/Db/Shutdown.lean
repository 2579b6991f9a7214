import Mathlib.Data.List.Basic
import EasyLsm.Db.Run
import EasyLsm.Lib.Transition

/-!
# Shutting down

`Db::drop` and the loop of the compaction thread as a transition system. The thread loads the flag
and looks for work with the manifest lock held, and its wait releases the lock and blocks in one
step; `drop` takes no lock, so its steps fall anywhere in between. A notification reaches the thread
only when it is blocked.

`shutdown_seen`: the thread is not left blocked as long as `drop` does not notify between the load
of the flag and the wait. When it does, the notification is lost (`shutdown_missed`).
-/

namespace EasyLsm.Db

open Lib

namespace Shutdown

/-- Who holds the manifest lock: the compaction thread, or a thread that uses the database. -/
inductive Holder where
  | compaction
  | user
  deriving DecidableEq

/-- Where the compaction thread is. -/
inductive Thread where
  | locking
  | checking
  | looking
  | working (task : Structural)
  | waiting
  | notified
  | finished

/-- Where `Db::drop` is. It does not begin while the database is in use. -/
inductive Dropping where
  | inUse
  | stored
  | notified
  | joining
  | joined
  deriving DecidableEq

/-- The flag, the manifest and its lock, the compaction thread and `Db::drop`. -/
structure Sys where
  shutdown : Bool
  manifest : Manifest
  lock : Option Holder
  thread : Thread
  dropping : Dropping

/-- The steps of the compaction thread, of the threads that use the database, and of `Db::drop`. -/
inductive Label where
  | acquire
  | load
  | look
  | update (m : Manifest)
  | finish
  | wakeUp
  | userAcquire
  | userRelease (m : Manifest)
  | notifyOne
  | store
  | notifyAll
  | join
  | joined

/-- A notification ends the wait, when there is one. -/
def Thread.notify : Thread → Thread
  | waiting => notified
  | thread => thread

/-- One step; `none` when it is not possible. -/
def step (s : Sys) : Label → Option Sys
  | .acquire =>
      match s.thread, s.lock with
      | .locking, none | .notified, none =>
          some { s with thread := .checking, lock := some .compaction }
      | _, _ => none
  | .load =>
      match s.thread with
      | .checking =>
          if s.shutdown then some { s with thread := .finished, lock := none }
          else some { s with thread := .looking }
      | _ => none
  | .look =>
      match s.thread with
      | .looking =>
          match dueTask s.manifest with
          | some task => some { s with thread := .working task, lock := none }
          | none => some { s with thread := .waiting, lock := none }
      | _ => none
  -- a locked section of a task, which leaves some manifest behind
  | .update m =>
      match s.thread, s.lock with
      | .working _, none => some { s with manifest := m }
      | _, _ => none
  | .finish =>
      match s.thread with
      | .working _ => some { s with thread := .locking }
      | _ => none
  -- a wait may also end without a notification
  | .wakeUp =>
      match s.thread with
      | .waiting => some { s with thread := .notified }
      | _ => none
  | .userAcquire =>
      match s.dropping, s.lock with
      | .inUse, none => some { s with lock := some .user }
      | _, _ => none
  | .userRelease m =>
      match s.lock with
      | some .user => some { s with manifest := m, lock := none }
      | _ => none
  | .notifyOne =>
      match s.dropping with
      | .inUse => some { s with thread := s.thread.notify }
      | _ => none
  | .store =>
      match s.dropping with
      | .inUse =>
          if s.lock = some .user then none else some
            { s with shutdown := true, dropping := .stored }
      | _ => none
  | .notifyAll =>
      match s.dropping with
      | .stored => some { s with thread := s.thread.notify, dropping := .notified }
      | _ => none
  | .join =>
      match s.dropping with
      | .notified => some { s with dropping := .joining }
      | _ => none
  | .joined =>
      match s.dropping, s.thread with
      | .joining, .finished => some { s with dropping := .joined }
      | _, _ => none

/-- The compaction thread has been spawned, and the database is in use. -/
structure Start (s : Sys) : Prop where
  shutdown : s.shutdown = false
  lock : s.lock = none
  thread : s.thread = .locking
  dropping : s.dropping = .inUse

/-- `drop` waits for a thread that is blocked and will not be notified. -/
def Missed (s : Sys) : Prop := s.dropping = .joining ∧ s.thread = .waiting

/-- The thread has found the flag not set and no work, and is about to wait. -/
def AboutToWait (s : Sys) : Prop := s.thread = .looking ∧ dueTask s.manifest = none

/-- `drop` does not notify while the thread is about to wait. -/
def InTime (s : Sys) (l : Label) : Prop := l = .notifyAll → ¬ AboutToWait s

/-- `drop` has notified. -/
def Dropping.hasNotified : Dropping → Bool
  | inUse | stored => false
  | notified | joining | joined => true

/-- The flag is set as soon as `drop` has begun, which is when no one uses the database any more.
The thread holds the lock from the check of the flag to the wait, and it neither waits nor is about
to once `drop` has notified. -/
structure Inv (s : Sys) : Prop where
  shutdown : s.shutdown = decide (s.dropping ≠ .inUse)
  used : s.lock = some .user → s.dropping = .inUse
  holds : s.thread = .checking ∨ s.thread = .looking → s.lock = some .compaction
  heard : s.dropping.hasNotified → s.thread ≠ .waiting ∧ ¬ AboutToWait s

theorem Inv.start {s : Sys} (h : Start s) : Inv s where
  shutdown := by rw [h.shutdown, h.dropping]; rfl
  used _ := h.dropping
  holds := by rw [h.thread]; simp
  heard := by rw [h.dropping]; simp [Dropping.hasNotified]

/-- A thread that has been notified does not wait, and the others do what they did. -/
theorem Thread.notify_ne_waiting (thread : Thread) : thread.notify ≠ .waiting := by
  cases thread <;> simp [Thread.notify]

theorem Thread.notify_eq_checking {thread : Thread} : thread.notify = .checking ↔
    thread = .checking := by
  cases thread <;> simp [Thread.notify]

theorem Thread.notify_eq_looking {thread : Thread} : thread.notify = .looking ↔
    thread = .looking := by
  cases thread <;> simp [Thread.notify]

/-- The thread goes on, and the lock does not go to a user of the database. -/
theorem Inv.threadMoves {s : Sys} (h : Inv s) {thread : Thread} {lock : Option Holder}
    (hlock : lock = some .user → s.lock = some .user)
    (hholds : thread = .checking ∨ thread = .looking → lock = some .compaction)
    (hheard : s.dropping.hasNotified → thread ≠ .waiting ∧
      ¬ (thread = .looking ∧ dueTask s.manifest = none)) : Inv { s with thread, lock } :=
  ⟨h.shutdown, fun hheld => h.used (hlock hheld), hholds, hheard⟩

/-- The manifest changes while the thread is neither at the flag nor at the manifest. -/
theorem Inv.manifestMoves {s : Sys} (h : Inv s) {m : Manifest} {lock : Option Holder}
    (hout : ¬ (s.thread = .checking ∨ s.thread = .looking))
    (hlock : lock = some .user → s.lock = some .user) :
    Inv { s with manifest := m, lock } where
  shutdown := h.shutdown
  used hheld := h.used (hlock hheld)
  holds hat := absurd hat hout
  heard hnotified := ⟨(h.heard hnotified).1, fun hwait => hout (.inr hwait.1)⟩

/-- The thread is notified. -/
theorem Inv.notify {s : Sys} (h : Inv s) : Inv { s with thread := s.thread.notify } where
  shutdown := h.shutdown
  used := h.used
  holds hat := h.holds (hat.imp Thread.notify_eq_checking.mp Thread.notify_eq_looking.mp)
  heard hnotified := by
    refine ⟨Thread.notify_ne_waiting _, fun hwait => ?_⟩
    exact (h.heard hnotified).2 ⟨Thread.notify_eq_looking.mp hwait.1, hwait.2⟩

/-- `drop` goes on after it has begun. It may only get to notify when the thread neither waits nor
is about to. -/
theorem Inv.dropMoves {s : Sys} (h : Inv s) {dropping : Dropping} (hbegun : s.dropping ≠ .inUse)
    (hbegun' : dropping ≠ .inUse)
    (hheard : dropping.hasNotified → s.thread ≠ .waiting ∧ ¬ AboutToWait s) :
    Inv { s with dropping } where
  shutdown := by
    rw [h.shutdown]
    simp [hbegun, hbegun']
  used hheld := absurd (h.used hheld) hbegun
  holds := h.holds
  heard := hheard

/-- The thread looks at the flag: when it is not set, `drop` has not begun. -/
theorem Inv.load {s s' : Sys} (h : Inv s) (hstep : step s .load = some s') : Inv s' := by
  simp only [Shutdown.step] at hstep
  split at hstep
  · rename_i hthread
    split at hstep <;> cases hstep
    · exact h.threadMoves (by simp) (by simp) fun _ => ⟨by simp, by simp⟩
    · rename_i hflag
      have huse : s.dropping = .inUse := by simpa [hflag] using h.shutdown
      refine h.threadMoves id (fun _ => h.holds (.inl hthread)) fun hnotified => ?_
      simp [huse, Dropping.hasNotified] at hnotified
  · cases hstep

/-- The thread looks for work, and waits when there is none. -/
theorem Inv.look {s s' : Sys} (h : Inv s) (hstep : step s .look = some s') : Inv s' := by
  simp only [Shutdown.step] at hstep
  split at hstep
  · rename_i hthread
    split at hstep <;> cases hstep
    · exact h.threadMoves (by simp) (by simp) fun _ => ⟨by simp, by simp⟩
    · rename_i hnone
      exact h.threadMoves (by simp) (by simp) fun hnotified =>
        absurd ⟨hthread, hnone⟩ (h.heard hnotified).2
  · cases hstep

/-- A user of the database takes the lock. -/
theorem Inv.userAcquire {s s' : Sys} (h : Inv s) (hstep : step s .userAcquire = some s') :
    Inv s' := by
  simp only [Shutdown.step] at hstep
  split at hstep
  · rename_i huse hlock
    cases hstep
    refine ⟨h.shutdown, fun _ => huse, fun hat => ?_, h.heard⟩
    have hheld := h.holds hat
    rw [hlock] at hheld
    cases hheld
  · cases hstep

/-- A user of the database, who has the lock that the thread then does not hold, gives it back. -/
theorem Inv.userRelease {s s' : Sys} {m : Manifest} (h : Inv s)
    (hstep : step s (.userRelease m) = some s') : Inv s' := by
  simp only [Shutdown.step] at hstep
  split at hstep
  · rename_i hlock
    cases hstep
    refine h.manifestMoves (fun hat => ?_) (by simp)
    rw [h.holds hat] at hlock
    cases hlock
  · cases hstep

/-- `drop` sets the flag, when no one uses the database. -/
theorem Inv.store {s s' : Sys} (h : Inv s) (hstep : step s .store = some s') : Inv s' := by
  simp only [Shutdown.step] at hstep
  split at hstep
  · split at hstep <;> cases hstep
    rename_i hfree
    exact ⟨rfl, fun hlock => absurd hlock hfree, h.holds, by simp [Dropping.hasNotified]⟩
  · cases hstep

/-- `drop` notifies a thread that is not about to wait. -/
theorem Inv.notifyAll {s s' : Sys} (h : Inv s) (hwait : ¬ AboutToWait s)
    (hstep : step s .notifyAll = some s') : Inv s' := by
  simp only [Shutdown.step] at hstep
  split at hstep
  · rename_i hstored
    cases hstep
    refine h.notify.dropMoves (by simp [hstored]) (by simp) fun _ =>
      ⟨Thread.notify_ne_waiting _, fun hwait' => ?_⟩
    exact hwait ⟨Thread.notify_eq_looking.mp hwait'.1, hwait'.2⟩
  · cases hstep

/-- A step in time keeps the invariant. -/
theorem Inv.step {s s' : Sys} {l : Label} (h : Inv s) (htime : InTime s l)
    (hstep : step s l = some s') : Inv s' := by
  cases l with
  | acquire =>
      simp only [Shutdown.step] at hstep
      split at hstep <;> cases hstep
      · exact h.threadMoves (by simp) (fun _ => rfl) fun _ => ⟨by simp, by simp⟩
      · exact h.threadMoves (by simp) (fun _ => rfl) fun _ => ⟨by simp, by simp⟩
  | load => exact h.load hstep
  | look => exact h.look hstep
  | update m =>
      simp only [Shutdown.step] at hstep
      split at hstep
      · rename_i task hthread hlock
        cases hstep
        exact h.manifestMoves (by simp [hthread]) id
      · cases hstep
  | finish =>
      simp only [Shutdown.step] at hstep
      split at hstep <;> cases hstep
      exact h.threadMoves id (by simp) fun _ => ⟨by simp, by simp⟩
  | wakeUp =>
      simp only [Shutdown.step] at hstep
      split at hstep <;> cases hstep
      exact h.threadMoves id (by simp) fun _ => ⟨by simp, by simp⟩
  | userAcquire => exact h.userAcquire hstep
  | userRelease m => exact h.userRelease hstep
  | notifyOne =>
      simp only [Shutdown.step] at hstep
      split at hstep
      · cases hstep
        exact h.notify
      · cases hstep
  | store => exact h.store hstep
  | notifyAll => exact h.notifyAll (htime rfl) hstep
  | join =>
      simp only [Shutdown.step] at hstep
      split at hstep
      · rename_i hnotified
        cases hstep
        exact h.dropMoves (by simp [hnotified]) (by simp) fun _ => h.heard (by rw [hnotified]; rfl)
      · cases hstep
  | joined =>
      simp only [Shutdown.step] at hstep
      split at hstep
      · rename_i hjoining hfinished
        cases hstep
        exact h.dropMoves (by simp [hjoining]) (by simp) fun _ => h.heard (by rw [hjoining]; rfl)
      · cases hstep

/-- A thread that `drop` waits for is not left blocked, as long as `drop` does not notify between
the load of the flag and the wait. -/
theorem shutdown_seen {s : Sys} (h : Reach step Start InTime s) : ¬ Missed s := by
  have hinv := h.invariant (fun _ => Inv.start) fun _ _ _ => Inv.step
  rintro ⟨hjoining, hwaiting⟩
  exact (hinv.heard (by rw [hjoining]; rfl)).1 hwaiting

/-- The state in which the thread has been spawned. -/
def spawned : Sys := ⟨false, Manifest.new 0, none, .locking, .inUse⟩

theorem start_spawned {ok : Sys → Label → Prop} : Reach step Start ok spawned :=
  .start ⟨rfl, rfl, rfl, rfl⟩

/-- The thread waits, and is notified: it will find the flag set. -/
theorem shutdown_seen_waiting : ¬ Missed ⟨true, Manifest.new 0, none, .notified, .joining⟩ := by
  have hwaits : Reach step Start InTime ⟨false, Manifest.new 0, none, .waiting, .inUse⟩ :=
    start_spawned.of_run_ok (fun l (hl : l ∈ [.acquire, .load, .look]) s htime => by
      subst htime
      simp at hl) rfl
  have hstored := hwaits.next (l := .store) (fun htime => by cases htime) rfl
  have hnotified := hstored.next (l := .notifyAll) (fun _ hwait => by cases hwait.1) rfl
  exact shutdown_seen (hnotified.next (l := .join) (fun htime => by cases htime) rfl)

/-- `drop` may set the flag and notify after the thread has looked at the flag. -/
theorem shutdown_missed : ¬ ∀ s, Reach step Start anyStep s → ¬ Missed s := by
  intro hall
  refine hall ⟨true, Manifest.new 0, none, .waiting, .joining⟩ ?_ ⟨rfl, rfl⟩
  have hrun : Lib.run step spawned [.acquire, .load, .store, .notifyAll, .look, .join] =
      some ⟨true, Manifest.new 0, none, .waiting, .joining⟩ := rfl
  exact start_spawned.of_run hrun

/-- Whenever `drop` notifies while the thread is about to wait, the notification is lost. -/
theorem missed_of_aboutToWait {s s' : Sys} (hwait : AboutToWait s)
    (hstep : step s .notifyAll = some s') :
    ∃ s'', Lib.run step s' [.look, .join] = some s'' ∧ Missed s'' := by
  obtain ⟨hlooking, hnone⟩ := hwait
  simp only [step] at hstep
  split at hstep
  · cases hstep
    have hthread : s.thread.notify = .looking := Thread.notify_eq_looking.mpr hlooking
    refine ⟨⟨s.shutdown, s.manifest, none, .waiting, .joining⟩, ?_, rfl, rfl⟩
    simp [Lib.run, step, hthread, hnone]
  · cases hstep

/-- And then nothing can happen any more, but a wait that ends without a notification. -/
theorem Missed.stuck {s s' : Sys} {l : Label} (h : Missed s) (hinv : Inv s)
    (hstep : step s l = some s') : l = .wakeUp := by
  obtain ⟨hjoining, hwaiting⟩ := h
  have hfree : s.lock ≠ some .user := by
    intro hlock
    rw [hinv.used hlock] at hjoining
    cases hjoining
  cases l with
  | userRelease m =>
      rw [step] at hstep
      split at hstep
      · exact absurd ‹_› hfree
      · cases hstep
  | _ => simp [step, hjoining, hwaiting] at hstep ⊢

end Shutdown

end EasyLsm.Db
