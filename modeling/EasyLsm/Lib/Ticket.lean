import Mathlib.Data.List.Basic
import Mathlib.Data.List.Nodup
import Mathlib.Data.List.Perm.Subperm
import Mathlib.Data.List.Range
import Mathlib.Logic.Function.Basic
import EasyLsm.Lib.Transition

/-!
# Ticket queues

A ticket queue for a critical section: holders take increasing tickets, a holder enters when the
turn equals its ticket, and whoever gives a ticket back advances the turn, whatever the ticket.
A holder may also fail while it waits and give its ticket back without having entered.

`Sound` is the discipline this is for: at most one holder is inside, holders enter in ticket
order, and the turn does not pass a waiting holder. It holds in every run in which a failed
holder gives its ticket back only when no holder of a smaller ticket is waiting.
-/

namespace EasyLsm.Lib.Ticket

variable {T : Type}

/-- What a thread does with its ticket. -/
inductive Role where
  | none
  | waiting (ticket : Nat)
  | inside (ticket : Nat)
  | failed (ticket : Nat)
  deriving DecidableEq, Repr

/-- The ticket a thread holds. -/
def Role.held : Role → Option Nat
  | .none => Option.none
  | .waiting k | .inside k | .failed k => some k

/-- A ticket queue. `dropped` are the tickets given back, `entered` the tickets of those who have
entered, newest first. -/
structure State (T : Type) where
  turn : Nat
  next : Nat
  dropped : List Nat
  entered : List Nat
  role : T → Role

/-- What a thread can do. -/
inductive Move (T : Type) where
  | issue (t : T)
  | enter (t : T)
  | leave (t : T)
  | fail (t : T)
  | abandon (t : T)

section Moves

variable [DecidableEq T]

/-- Give a ticket back. -/
def State.giveBack (s : State T) (t : T) (k : Nat) : State T :=
  { s with turn := s.turn + 1, dropped := k :: s.dropped, role := Function.update s.role t .none }

/-- One move; `none` when the thread cannot make it. -/
def step (s : State T) : Move T → Option (State T)
  | .issue t =>
      match s.role t with
      | .none => some
          { s with next := s.next + 1, role := Function.update s.role t (.waiting s.next) }
      | _ => Option.none
  | .enter t =>
      match s.role t with
      | .waiting k =>
          if s.turn = k then
            some { s with entered := k :: s.entered, role := Function.update s.role t (.inside k) }
          else Option.none
      | _ => Option.none
  | .leave t =>
      match s.role t with
      | .inside k => some (s.giveBack t k)
      | _ => Option.none
  | .fail t =>
      match s.role t with
      | .waiting k => some { s with role := Function.update s.role t (.failed k) }
      | _ => Option.none
  | .abandon t =>
      match s.role t with
      | .failed k => some (s.giveBack t k)
      | _ => Option.none

end Moves

/-- The condition on a move: a failed holder gives its ticket back only when every waiting holder
has a larger one. -/
def InOrder (s : State T) : Move T → Prop
  | .abandon t => ∀ k, s.role t = .failed k → ∀ u l, s.role u = .waiting l → k < l
  | _ => True

/-- The discipline of the queue. -/
structure Sound (s : State T) : Prop where
  exclusive : ∀ t u k l, s.role t = .inside k → s.role u = .inside l → t = u
  ordered : s.entered.Pairwise (· > ·)
  notPassed : ∀ t k, s.role t = .waiting k → s.turn ≤ k

/-- The invariant. -/
structure Inv (s : State T) : Prop where
  turn : s.turn = s.dropped.length
  nodup : s.dropped.Nodup
  droppedLt : ∀ d ∈ s.dropped, d < s.next
  heldLt : ∀ t k, (s.role t).held = some k → k < s.next
  heldNotDropped : ∀ t k, (s.role t).held = some k → k ∉ s.dropped
  heldDistinct : ∀ t u k, (s.role t).held = some k → (s.role u).held = some k → t = u
  waiting : ∀ t k, s.role t = .waiting k → ∀ d ∈ s.dropped, d < k
  inside : ∀ t k, s.role t = .inside k → ∀ i < k, i ∈ s.dropped
  ordered : s.entered.Pairwise (· > ·)
  entered : ∀ e ∈ s.entered, e ∈ s.dropped ∨ ∃ t, s.role t = .inside e

/-- Distinct numbers below `n` are at most `n`. -/
theorem length_le_of_nodup {l : List Nat} {n : Nat} (hnodup : l.Nodup) (hlt : ∀ d ∈ l, d < n) :
    l.length ≤ n := by
  have hsub : l ⊆ List.range n := fun d hd => List.mem_range.mpr (hlt d hd)
  simpa using (List.subperm_of_subset hnodup hsub).length_le

/-- Distinct numbers below `n` that miss one of them are fewer than `n`. -/
theorem length_lt_of_not_mem {l : List Nat} {n e : Nat} (hnodup : l.Nodup)
    (hlt : ∀ d ∈ l, d < n) (he : e < n) (hmiss : e ∉ l) : l.length < n := by
  have hcons : (e :: l).Nodup := List.nodup_cons.mpr ⟨hmiss, hnodup⟩
  have hall : ∀ d ∈ e :: l, d < n := by
    intro d hd
    rcases List.mem_cons.mp hd with rfl | hd
    · exact he
    · exact hlt d hd
  exact Nat.lt_of_succ_le (length_le_of_nodup hcons hall)

namespace Inv

variable {s : State T}

/-- A holder whose turn it is finds every smaller ticket given back. -/
theorem all_dropped (h : Inv s) {t : T} (hwait : s.role t = .waiting s.turn) :
    ∀ i < s.turn, i ∈ s.dropped := by
  intro i hi
  by_contra hmiss
  have hlt := length_lt_of_not_mem h.nodup (h.waiting t _ hwait) hi hmiss
  rw [← h.turn] at hlt
  exact absurd hlt (Nat.lt_irrefl _)

/-- Nobody is inside when it is the turn of a waiting holder. -/
theorem nobody_inside (h : Inv s) {t u : T} {k : Nat} (hwait : s.role t = .waiting s.turn) :
    s.role u ≠ .inside k := by
  intro hin
  have hheld : (s.role u).held = some k := by rw [hin]; rfl
  rcases Nat.lt_trichotomy k s.turn with hlt | rfl | hgt
  · exact h.heldNotDropped u k hheld (h.all_dropped hwait k hlt)
  · have htu := h.heldDistinct t u s.turn (by rw [hwait]; rfl) hheld
    subst htu
    rw [hwait] at hin
    cases hin
  · exact h.heldNotDropped t s.turn (by rw [hwait]; rfl) (h.inside u k hin _ hgt)

/-- Waiting holders have larger tickets than the one inside. -/
theorem inside_lt_waiting (h : Inv s) {t u : T} {k l : Nat} (hin : s.role t = .inside k)
    (hwait : s.role u = .waiting l) : k < l := by
  have hk : (s.role t).held = some k := by rw [hin]; rfl
  have hl : (s.role u).held = some l := by rw [hwait]; rfl
  rcases Nat.lt_trichotomy k l with hlt | rfl | hgt
  · exact hlt
  · have htu := h.heldDistinct t u k hk hl
    subst htu
    rw [hin] at hwait
    cases hwait
  · exact absurd (h.inside t k hin l hgt) (h.heldNotDropped u l hl)

/-- The invariant gives the discipline. -/
theorem sound (h : Inv s) : Sound s where
  exclusive t u k l ht hu := by
    have hk : (s.role t).held = some k := by rw [ht]; rfl
    have hl : (s.role u).held = some l := by rw [hu]; rfl
    rcases Nat.lt_trichotomy k l with hlt | rfl | hgt
    · exact absurd (h.inside u l hu k hlt) (h.heldNotDropped t k hk)
    · exact h.heldDistinct t u k hk hl
    · exact absurd (h.inside t k ht l hgt) (h.heldNotDropped u l hl)
  ordered := h.ordered
  notPassed t k ht := by
    rw [h.turn]
    exact length_le_of_nodup h.nodup (h.waiting t k ht)

variable [DecidableEq T]

/-- A holder takes the next ticket. -/
theorem issue (h : Inv s) (t : T) (hnone : s.role t = .none) :
    Inv { s with next := s.next + 1, role := Function.update s.role t (.waiting s.next) } where
  turn := h.turn
  nodup := h.nodup
  droppedLt d hd := Nat.lt_succ_of_lt (h.droppedLt d hd)
  heldLt u k hk := by
    show k < s.next + 1
    by_cases hu : u = t
    · subst hu
      simp only [Function.update_self, Role.held, Option.some.injEq] at hk
      omega
    · simp only [Function.update_of_ne hu] at hk
      exact Nat.lt_succ_of_lt (h.heldLt u k hk)
  heldNotDropped u k hk := by
    by_cases hu : u = t
    · subst hu
      simp only [Function.update_self, Role.held, Option.some.injEq] at hk
      intro hd
      have := h.droppedLt k hd
      omega
    · simp only [Function.update_of_ne hu] at hk
      exact h.heldNotDropped u k hk
  heldDistinct u w k hu hw := by
    by_cases hut : u = t <;> by_cases hwt : w = t
    · exact hut.trans hwt.symm
    · subst hut
      simp only [Function.update_self, Function.update_of_ne hwt, Role.held,
        Option.some.injEq] at hu hw
      have := h.heldLt w k hw
      omega
    · subst hwt
      simp only [Function.update_self, Function.update_of_ne hut, Role.held,
        Option.some.injEq] at hu hw
      have := h.heldLt u k hu
      omega
    · simp only [Function.update_of_ne hut, Function.update_of_ne hwt] at hu hw
      exact h.heldDistinct u w k hu hw
  waiting u k hk d hd := by
    by_cases hu : u = t
    · subst hu
      simp only [Function.update_self, Role.waiting.injEq] at hk
      exact hk ▸ h.droppedLt d hd
    · simp only [Function.update_of_ne hu] at hk
      exact h.waiting u k hk d hd
  inside u k hk := by
    by_cases hu : u = t
    · subst hu
      simp at hk
    · simp only [Function.update_of_ne hu] at hk
      exact h.inside u k hk
  ordered := h.ordered
  entered e he := by
    refine (h.entered e he).imp id ?_
    rintro ⟨u, hu⟩
    have hut : u ≠ t := by
      rintro rfl
      rw [hnone] at hu
      cases hu
    exact ⟨u, by simpa [Function.update_of_ne hut] using hu⟩

/-- A thread changes its role and keeps its ticket, without entering. -/
theorem fail (h : Inv s) {t : T} {k : Nat} (hwait : s.role t = .waiting k) :
    Inv { s with role := Function.update s.role t (.failed k) } := by
  have hheld : ∀ u, (Function.update s.role t (.failed k) u).held = (s.role u).held := by
    intro u
    by_cases hu : u = t
    · subst hu
      rw [Function.update_self, hwait]
      rfl
    · rw [Function.update_of_ne hu]
  have hother : ∀ u, (∀ l, Function.update s.role t (.failed k) u ≠ .failed l) →
      Function.update s.role t (.failed k) u = s.role u := by
    intro u hu
    by_cases hut : u = t
    · subst hut
      exact absurd (Function.update_self u _ s.role) (hu k)
    · exact Function.update_of_ne hut _ _
  exact
    { turn := h.turn
      nodup := h.nodup
      droppedLt := h.droppedLt
      heldLt := fun u l hl => h.heldLt u l (hheld u ▸ hl)
      heldNotDropped := fun u l hl => h.heldNotDropped u l (hheld u ▸ hl)
      heldDistinct := fun u w l hu hw => h.heldDistinct u w l (hheld u ▸ hu) (hheld w ▸ hw)
      waiting := fun u l hl => by
        have hl : Function.update s.role t (.failed k) u = .waiting l := hl
        exact h.waiting u l (hother u (by rw [hl]; nofun) ▸ hl)
      inside := fun u l hl => by
        have hl : Function.update s.role t (.failed k) u = .inside l := hl
        exact h.inside u l (hother u (by rw [hl]; nofun) ▸ hl)
      ordered := h.ordered
      entered := fun e he => by
        refine (h.entered e he).imp id ?_
        rintro ⟨u, hu⟩
        have hut : u ≠ t := by
          rintro rfl
          rw [hwait] at hu
          cases hu
        exact ⟨u, by simpa [Function.update_of_ne hut] using hu⟩ }

/-- A holder enters when it is its turn. -/
theorem enter (h : Inv s) {t : T} (hwait : s.role t = .waiting s.turn) :
    Inv { s with
      entered := s.turn :: s.entered, role := Function.update s.role t (.inside s.turn) } := by
  have hheld : ∀ u, (Function.update s.role t (.inside s.turn) u).held = (s.role u).held := by
    intro u
    by_cases hu : u = t
    · subst hu
      rw [Function.update_self, hwait]
      rfl
    · rw [Function.update_of_ne hu]
  exact
    { turn := h.turn
      nodup := h.nodup
      droppedLt := h.droppedLt
      heldLt := fun u l hl => h.heldLt u l (hheld u ▸ hl)
      heldNotDropped := fun u l hl => h.heldNotDropped u l (hheld u ▸ hl)
      heldDistinct := fun u w l hu hw => h.heldDistinct u w l (hheld u ▸ hu) (hheld w ▸ hw)
      waiting := fun u l hl => by
        by_cases hu : u = t
        · subst hu
          simp at hl
        · simp only [Function.update_of_ne hu] at hl
          exact h.waiting u l hl
      inside := fun u l hl => by
        by_cases hu : u = t
        · subst hu
          simp only [Function.update_self, Role.inside.injEq] at hl
          exact hl ▸ h.all_dropped hwait
        · simp only [Function.update_of_ne hu] at hl
          exact h.inside u l hl
      ordered := by
        refine List.pairwise_cons.mpr ⟨fun e he => ?_, h.ordered⟩
        rcases h.entered e he with hd | ⟨u, hu⟩
        · exact h.waiting t _ hwait e hd
        · exact absurd hu (h.nobody_inside hwait)
      entered := fun e he => by
        rcases List.mem_cons.mp he with rfl | he
        · exact .inr ⟨t, by simp⟩
        · refine (h.entered e he).imp id ?_
          rintro ⟨u, hu⟩
          exact absurd hu (h.nobody_inside hwait) }

/-- A ticket smaller than every waiting one is given back. -/
theorem giveBack (h : Inv s) {t : T} {k : Nat} (hheld : (s.role t).held = some k)
    (hwaiting : ∀ u l, s.role u = .waiting l → u ≠ t → k < l) : Inv (s.giveBack t k) := by
  have hback : ∀ u r, (s.giveBack t k).role u = r → r ≠ .none → u ≠ t ∧ s.role u = r := by
    intro u r hu hr
    by_cases hut : u = t
    · subst hut
      exact absurd (hu.symm.trans (Function.update_self u _ s.role)) hr
    · exact ⟨hut, (Function.update_of_ne hut _ _).symm.trans hu⟩
  have hother : ∀ u l, ((s.giveBack t k).role u).held = some l →
      u ≠ t ∧ (s.role u).held = some l := by
    intro u l hl
    obtain ⟨hut, hrole⟩ := hback u _ rfl (fun hnone => by rw [hnone] at hl; cases hl)
    exact ⟨hut, by rw [hrole]; exact hl⟩
  exact
    { turn := by simp only [State.giveBack, List.length_cons, h.turn]
      nodup := List.nodup_cons.mpr ⟨h.heldNotDropped t k hheld, h.nodup⟩
      droppedLt := fun d hd => by
        rcases List.mem_cons.mp hd with hdk | hd
        · exact hdk ▸ h.heldLt t k hheld
        · exact h.droppedLt d hd
      heldLt := fun u l hl => h.heldLt u l (hother u l hl).2
      heldNotDropped := fun u l hl hd => by
        obtain ⟨hut, hl⟩ := hother u l hl
        rcases List.mem_cons.mp hd with hlk | hd
        · exact hut (h.heldDistinct u t l hl (hlk ▸ hheld))
        · exact h.heldNotDropped u l hl hd
      heldDistinct := fun u w l hu hw =>
        h.heldDistinct u w l (hother u l hu).2 (hother w l hw).2
      waiting := fun u l hl d hd => by
        obtain ⟨hut, hl⟩ := hback u (.waiting l) hl nofun
        rcases List.mem_cons.mp hd with hdk | hd
        · exact hdk ▸ hwaiting u l hl hut
        · exact h.waiting u l hl d hd
      inside := fun u l hl i hi =>
        List.mem_cons_of_mem k (h.inside u l (hback u (.inside l) hl nofun).2 i hi)
      ordered := h.ordered
      entered := fun e he => by
        rcases h.entered e he with hd | ⟨u, hu⟩
        · exact .inl (List.mem_cons_of_mem k hd)
        · by_cases hut : u = t
          · subst hut
            rw [hu] at hheld
            exact .inl (Option.some.inj hheld ▸ List.mem_cons_self)
          · exact .inr ⟨u, (Function.update_of_ne hut _ _).trans hu⟩ }

/-- One permitted move keeps the invariant. -/
theorem step {s' : State T} {m : Move T} (h : Inv s) (hm : InOrder s m)
    (hs : Ticket.step s m = some s') : Inv s' := by
  cases m with
  | issue t =>
      simp only [Ticket.step] at hs
      split at hs <;> cases hs
      exact h.issue t ‹_›
  | enter t =>
      simp only [Ticket.step] at hs
      split at hs
      · rename_i k hwait
        split at hs <;> cases hs
        rename_i hturn
        subst hturn
        exact h.enter hwait
      · cases hs
  | leave t =>
      simp only [Ticket.step] at hs
      split at hs <;> cases hs
      rename_i k hin
      exact h.giveBack (by rw [hin]; rfl) (fun u l hu _ => h.inside_lt_waiting hin hu)
  | fail t =>
      simp only [Ticket.step] at hs
      split at hs <;> cases hs
      exact h.fail ‹_›
  | abandon t =>
      simp only [Ticket.step] at hs
      split at hs <;> cases hs
      rename_i k hfail
      exact h.giveBack (by rw [hfail]; rfl) (fun u l hu _ => hm k hfail u l hu)

end Inv

/-- A queue that nobody has used. -/
def initial : State T := ⟨0, 0, [], [], fun _ => .none⟩

/-- The unused queue satisfies the invariant. -/
theorem inv_initial : Inv (initial (T := T)) := by
  constructor <;> simp [initial, Role.held]

/-- In every run that gives tickets back in order, the discipline holds. -/
theorem sound_of_reach [DecidableEq T] {s : State T} (h : Reach step (· = initial) InOrder s) :
    Sound s :=
  (h.invariant (P := Inv) (by rintro s rfl; exact inv_initial)
    (fun _ _ _ hi hm hs => hi.step hm hs)).sound

end EasyLsm.Lib.Ticket
