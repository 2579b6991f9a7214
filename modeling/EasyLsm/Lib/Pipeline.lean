import Mathlib.Data.List.Basic
import Mathlib.Data.List.Infix
import Mathlib.Logic.Function.Basic
import EasyLsm.Lib.Transition

/-!
# Two-stage pipelines

Parties apply batches of items in two stages. The first stage is exclusive: a party acquires it,
takes the next ticket for its batch, logs the whole batch and releases the stage. The second stage
is entered when the turn equals the ticket; the items are applied there one by one, and leaving it
advances the turn. Two parties may be in different stages at once.

`Sound` is what the pipeline is for: the log is the batches in ticket order, less the batch that
is about to be logged, and the applied items are the batches before the turn, with what the party
inside has applied so far. It holds at the beginning, and every step keeps it (`Sound.step`).
-/

namespace EasyLsm.Lib.Pipeline

variable {T α : Type}

/-- What a party does. `holding`, `logging` and `logged` are in the first stage, `inside` is in the
second one with the items it has yet to apply. -/
inductive Role (α : Type) where
  | none
  | holding
  | logging (ticket : Nat) (items : List α)
  | logged (ticket : Nat) (items : List α)
  | waiting (ticket : Nat) (items : List α)
  | inside (ticket : Nat) (rest : List α)

/-- The party is in the first stage. -/
def Role.first : Role α → Prop
  | .holding | .logging _ _ | .logged _ _ => True
  | _ => False

/-- The ticket a party holds. -/
def Role.ticket : Role α → Option Nat
  | .logging k _ | .logged k _ | .waiting k _ | .inside k _ => some k
  | _ => Option.none

/-- A pipeline: the batches in ticket order with the parties that brought them, what was logged
and applied, and the turn of the second stage. -/
structure State (T α : Type) where
  batches : List (T × List α)
  role : T → Role α
  busy : Bool
  log : List α
  applied : List α
  turn : Nat

/-- An empty pipeline. -/
def initial : State T α := ⟨[], fun _ => .none, false, [], [], 0⟩

/-- What a party can do. -/
inductive Move (T α : Type) where
  | acquire (t : T)
  | take (t : T) (items : List α)
  | append (t : T)
  | release (t : T)
  | enter (t : T)
  | apply (t : T)
  | leave (t : T)

section Moves

variable [DecidableEq T]

/-- Give a party another role. -/
def State.goto (s : State T α) (t : T) (role : Role α) : State T α :=
  { s with role := Function.update s.role t role }

/-- One move; `none` when the party cannot make it. -/
def step (s : State T α) : Move T α → Option (State T α)
  | .acquire t =>
      match s.role t with
      | .none => if s.busy then Option.none else some ({ s with busy := true }.goto t .holding)
      | _ => Option.none
  | .take t items =>
      match s.role t with
      | .holding =>
          some ({ s with batches := s.batches ++ [(t, items)] }.goto t
            (.logging s.batches.length items))
      | _ => Option.none
  | .append t =>
      match s.role t with
      | .logging k items => some ({ s with log := s.log ++ items }.goto t (.logged k items))
      | _ => Option.none
  | .release t =>
      match s.role t with
      | .logged k items => some ({ s with busy := false }.goto t (.waiting k items))
      | _ => Option.none
  | .enter t =>
      match s.role t with
      | .waiting k items => if s.turn = k then some (s.goto t (.inside k items)) else Option.none
      | _ => Option.none
  | .apply t =>
      match s.role t with
      | .inside k (x :: rest) =>
          some ({ s with applied := s.applied ++ [x] }.goto t (.inside k rest))
      | _ => Option.none
  | .leave t =>
      match s.role t with
      | .inside _ [] => some ({ s with turn := s.turn + 1 }.goto t .none)
      | _ => Option.none

end Moves

/-- The items of batches, in order. -/
def items (batches : List (T × List α)) : List α := batches.flatMap Prod.snd

@[simp]
theorem items_append (l m : List (T × List α)) : items (l ++ m) = items l ++ items m :=
  List.flatMap_append

@[simp]
theorem items_singleton (t : T) (xs : List α) : items [(t, xs)] = xs := List.flatMap_singleton _ _

/-- What holds of a party while it has a role. -/
def RoleOk (s : State T α) (t : T) : Role α → Prop
  | .none => True
  | .holding => s.busy = true
  | .logging k xs => s.busy = true ∧ s.batches[k]? = some (t, xs) ∧ s.log ++ xs = items s.batches ∧
      s.turn ≤ k
  | .logged k xs => s.busy = true ∧ s.batches[k]? = some (t, xs) ∧ s.turn ≤ k
  | .waiting k xs => s.batches[k]? = some (t, xs) ∧ s.turn ≤ k
  | .inside k rest => k = s.turn ∧ (∃ xs, s.batches[k]? = some (t, xs)) ∧
      s.applied ++ rest = items (s.batches.take (k + 1))

/-- The invariant. -/
structure Sound (s : State T α) : Prop where
  role : ∀ t, RoleOk s t (s.role t)
  exclusive : ∀ t u, (s.role t).first → (s.role u).first → t = u
  turn : s.turn ≤ s.batches.length
  log : (∀ t k xs, s.role t ≠ .logging k xs) → s.log = items s.batches
  applied : (∀ t k rest, s.role t ≠ .inside k rest) → s.applied = items (s.batches.take s.turn)

theorem sound_initial : Sound (initial : State T α) where
  role _ := trivial
  exclusive _ _ ht := absurd ht id
  turn := Nat.le_refl 0
  log _ := rfl
  applied _ := rfl

namespace Sound

section Roles

variable {s : State T α}

/-- Parties with one ticket are one party. -/
theorem ticket_unique (h : Sound s) {t u : T} {k : Nat} (ht : (s.role t).ticket = some k)
    (hu : (s.role u).ticket = some k) : t = u := by
  have hbrought : ∀ v, (s.role v).ticket = some k → ∃ xs, s.batches[k]? = some (v, xs) := by
    intro v hv
    have hok := h.role v
    cases hrole : s.role v <;> rw [hrole] at hv hok <;> cases hv
    case logging xs => exact ⟨xs, hok.2.1⟩
    case logged xs => exact ⟨xs, hok.2.1⟩
    case waiting xs => exact ⟨xs, hok.1⟩
    case inside rest => exact hok.2.1
  obtain ⟨xs, ht⟩ := hbrought t ht
  obtain ⟨ys, hu⟩ := hbrought u hu
  rw [ht] at hu
  exact congrArg Prod.fst (Option.some.inj hu)

/-- At most one party is in the second stage. -/
theorem inside_unique (h : Sound s) {t u : T} {k l : Nat} {xs ys : List α}
    (ht : s.role t = .inside k xs) (hu : s.role u = .inside l ys) : t = u := by
  have hk := h.role t
  have hl := h.role u
  rw [ht] at hk
  rw [hu] at hl
  exact h.ticket_unique (k := s.turn) (by rw [ht, ← hk.1]; rfl) (by rw [hu, ← hl.1]; rfl)

/-- The first stage is busy while a party is in it. -/
theorem busy_of_first (h : Sound s) {t : T} (ht : (s.role t).first) : s.busy = true := by
  have hok := h.role t
  cases hrole : s.role t <;> rw [hrole] at ht hok
  case holding => exact hok
  case logging => exact hok.1
  case logged => exact hok.1
  all_goals exact absurd ht id

/-- A party that is not in the first stage while `t` is. -/
theorem not_first (h : Sound s) {t u : T} (ht : (s.role t).first) (hne : u ≠ t) :
    ¬ (s.role u).first := fun hu => hne (h.exclusive u t hu ht)

end Roles

section Moves

variable [DecidableEq T] {s s' m : State T α} {t : T} {role : Role α}

/-- The move of a party keeps what holds of every party. -/
theorem role_goto (hself : RoleOk (m.goto t role) t role)
    (hother : ∀ u, u ≠ t → RoleOk (m.goto t role) u (m.role u)) :
    ∀ u, RoleOk (m.goto t role) u ((m.goto t role).role u) := by
  intro u
  simp only [State.goto]
  by_cases heq : u = t
  · subst heq
    rw [Function.update_self]
    exact hself
  · rw [Function.update_of_ne heq]
    exact hother u heq

/-- The first stage stays exclusive when the party that moves was in it or it was free. -/
theorem exclusive_goto (h : Sound s) (hm : m.role = s.role)
    (hfirst : role.first → (s.role t).first ∨ s.busy = false) :
    ∀ u v, ((m.goto t role).role u).first → ((m.goto t role).role v).first → u = v := by
  have hwas : ∀ u, ((m.goto t role).role u).first → u = t ∧ role.first ∨ (s.role u).first := by
    intro u hu
    simp only [State.goto, hm] at hu
    by_cases heq : u = t
    · subst heq
      rw [Function.update_self] at hu
      exact .inl ⟨rfl, hu⟩
    · rw [Function.update_of_ne heq] at hu
      exact .inr hu
  have hmove : role.first → ∀ v, (s.role v).first → t = v := by
    intro hrole v hv
    rcases hfirst hrole with ht | hfree
    · exact h.exclusive t v ht hv
    · exact absurd (h.busy_of_first hv) (by simp [hfree])
  intro u v hu hv
  rcases hwas u hu with ⟨rfl, hrole⟩ | hu'
  · rcases hwas v hv with ⟨rfl, _⟩ | hv'
    · rfl
    · exact hmove hrole v hv'
  · rcases hwas v hv with ⟨rfl, hrole⟩ | hv'
    · exact (hmove hrole u hu').symm
    · exact h.exclusive u v hu' hv'

/-- Nobody had the role before when nobody has it now and the party that moves did not. -/
theorem ne_of_goto {r : Role α} (hm : m.role = s.role) (ht : s.role t ≠ r)
    (h : ∀ u, (m.goto t role).role u ≠ r) : ∀ u, s.role u ≠ r := by
  intro u
  by_cases heq : u = t
  · exact heq ▸ ht
  · have hu := h u
    simp only [State.goto, hm] at hu
    rwa [Function.update_of_ne heq] at hu

theorem acquire (h : Sound s) (ht : s.role t = .none) (hfree : s.busy = false) :
    Sound ({ s with busy := true }.goto t .holding) where
  role := by
    refine role_goto rfl (fun u _ => ?_)
    have hok := h.role u
    cases hrole : s.role u <;> rw [hrole] at hok
    case none => trivial
    case holding => rfl
    case waiting | inside => exact hok
    all_goals exact ⟨rfl, hok.2⟩
  exclusive := h.exclusive_goto rfl (fun _ => .inr hfree)
  turn := h.turn
  log hnone := h.log fun u k xs =>
    ne_of_goto rfl (by rw [ht]; simp) (fun v => hnone v k xs) u
  applied hnone := h.applied fun u k rest =>
    ne_of_goto rfl (by rw [ht]; simp) (fun v => hnone v k rest) u

theorem take (h : Sound s) (ht : s.role t = .holding) (xs : List α) :
    Sound ({ s with batches := s.batches ++ [(t, xs)] }.goto t (.logging s.batches.length xs)) where
  role := by
    have hbusy := h.role t
    rw [ht] at hbusy
    have hfirst : (s.role t).first := by
      rw [ht]
      trivial
    have hold : ∀ {k : Nat} {x : T × List α}, s.batches[k]? = some x →
        (s.batches ++ [(t, xs)])[k]? = some x := by
      intro k x hx
      rw [List.getElem?_append_left (List.getElem?_eq_some_iff.mp hx).1, hx]
    refine role_goto ⟨hbusy, by simp [State.goto], ?_, h.turn⟩ (fun u hu => ?_)
    · have hlog : s.log = items s.batches := by
        refine h.log (fun u k ys hu => ?_)
        have heq : u = t := h.exclusive u t (by rw [hu]; trivial) hfirst
        subst heq
        rw [ht] at hu
        cases hu
      simp [State.goto, hlog]
    · have hok := h.role u
      have hout := h.not_first hfirst hu
      cases hrole : s.role u <;> rw [hrole] at hok hout
      case none => trivial
      case waiting => exact ⟨hold hok.1, hok.2⟩
      case inside k rest =>
          obtain ⟨hk, ⟨ys, hys⟩, happlied⟩ := hok
          have hlt := (List.getElem?_eq_some_iff.mp hys).1
          refine ⟨hk, ⟨ys, hold hys⟩, ?_⟩
          simp only [State.goto]
          rw [List.take_append_of_le_length hlt]
          exact happlied
      all_goals exact absurd trivial hout
  exclusive := h.exclusive_goto rfl (fun _ => .inl (by rw [ht]; trivial))
  turn := by
    simp only [State.goto, List.length_append]
    exact Nat.le_add_right_of_le h.turn
  log hnone := absurd (Function.update_self t _ s.role) (hnone t s.batches.length xs)
  applied hnone := by
    simp only [State.goto]
    rw [List.take_append_of_le_length h.turn]
    exact h.applied fun u k rest => ne_of_goto rfl (by rw [ht]; simp) (fun v => hnone v k rest) u

theorem append (h : Sound s) {k : Nat} {xs : List α} (ht : s.role t = .logging k xs) :
    Sound ({ s with log := s.log ++ xs }.goto t (.logged k xs)) := by
  have hown := h.role t
  rw [ht] at hown
  obtain ⟨hbusy, hbatch, hlog, hturn⟩ := hown
  have hfirst : (s.role t).first := by
    rw [ht]
    trivial
  refine ⟨role_goto ⟨hbusy, hbatch, hturn⟩ (fun u hu => ?_),
    h.exclusive_goto rfl (fun _ => .inl hfirst), h.turn, fun _ => hlog, fun hnone => ?_⟩
  · have hok := h.role u
    have hout := h.not_first hfirst hu
    cases hrole : s.role u <;> rw [hrole] at hok hout
    case none | waiting | inside => exact hok
    all_goals exact absurd trivial hout
  · exact h.applied fun u k rest => ne_of_goto rfl (by rw [ht]; simp) (fun v => hnone v k rest) u

theorem release (h : Sound s) {k : Nat} {xs : List α} (ht : s.role t = .logged k xs) :
    Sound ({ s with busy := false }.goto t (.waiting k xs)) := by
  have hown := h.role t
  rw [ht] at hown
  have hfirst : (s.role t).first := by
    rw [ht]
    trivial
  refine ⟨role_goto hown.2 (fun u hu => ?_), h.exclusive_goto rfl (fun hfirst => absurd hfirst id),
    h.turn, fun hnone => ?_, fun hnone => ?_⟩
  · have hok := h.role u
    have hout := h.not_first hfirst hu
    cases hrole : s.role u <;> rw [hrole] at hok hout
    case none | waiting | inside => exact hok
    all_goals exact absurd trivial hout
  · exact h.log fun u k xs => ne_of_goto rfl (by rw [ht]; simp) (fun v => hnone v k xs) u
  · exact h.applied fun u k rest => ne_of_goto rfl (by rw [ht]; simp) (fun v => hnone v k rest) u

theorem enter (h : Sound s) {xs : List α} (ht : s.role t = .waiting s.turn xs) :
    Sound (s.goto t (.inside s.turn xs)) := by
  have hown := h.role t
  rw [ht] at hown
  have hbatch := hown.1
  have hempty : ∀ u k rest, s.role u ≠ .inside k rest := by
    intro u k rest hu
    have hok := h.role u
    rw [hu] at hok
    have heq : u = t := h.ticket_unique (k := s.turn) (by rw [hu, ← hok.1]; rfl) (by rw [ht]; rfl)
    rw [heq, ht] at hu
    cases hu
  refine ⟨role_goto ⟨rfl, ⟨xs, hbatch⟩, ?_⟩ (fun u _ => ?_),
    h.exclusive_goto rfl (fun hfirst => absurd hfirst id), h.turn, fun hnone => ?_, fun hnone => ?_⟩
  · simp only [State.goto, List.take_add_one, hbatch, Option.toList_some, items_append,
      items_singleton, h.applied hempty]
  · have hok := h.role u
    cases hrole : s.role u <;> rw [hrole] at hok <;> exact hok
  · exact h.log fun u k xs => ne_of_goto rfl (by rw [ht]; simp) (fun v => hnone v k xs) u
  · exact absurd (Function.update_self t _ s.role) (hnone t s.turn xs)

theorem apply (h : Sound s) {k : Nat} {x : α} {rest : List α}
    (ht : s.role t = .inside k (x :: rest)) :
    Sound ({ s with applied := s.applied ++ [x] }.goto t (.inside k rest)) := by
  have hown := h.role t
  rw [ht] at hown
  obtain ⟨hk, hbatch, happlied⟩ := hown
  refine ⟨role_goto ⟨hk, hbatch, ?_⟩ (fun u hu => ?_),
    h.exclusive_goto rfl (fun hfirst => absurd hfirst id), h.turn, fun hnone => ?_, fun hnone => ?_⟩
  · simp only [State.goto, List.append_assoc, List.cons_append, List.nil_append]
    exact happlied
  · have hok := h.role u
    cases hrole : s.role u <;> rw [hrole] at hok
    case inside => exact absurd (h.inside_unique hrole ht) hu
    all_goals exact hok
  · exact h.log fun u k xs => ne_of_goto rfl (by rw [ht]; simp) (fun v => hnone v k xs) u
  · exact absurd (Function.update_self t _ s.role) (hnone t k rest)

theorem leave (h : Sound s) {k : Nat} (ht : s.role t = .inside k []) :
    Sound ({ s with turn := s.turn + 1 }.goto t .none) := by
  have hown := h.role t
  rw [ht] at hown
  obtain ⟨hk, ⟨xs, hbatch⟩, happlied⟩ := hown
  subst hk
  rw [List.append_nil] at happlied
  have hlt := (List.getElem?_eq_some_iff.mp hbatch).1
  -- the turn is the ticket of `t`, so no other party holds it
  have hpast : ∀ u l, u ≠ t → (s.role u).ticket = some l → s.turn ≤ l → s.turn + 1 ≤ l := by
    intro u l hu hl hle
    rcases Nat.lt_or_eq_of_le hle with hlt | heq
    · exact hlt
    · exact absurd (h.ticket_unique (heq ▸ hl) (by rw [ht]; rfl)) hu
  refine ⟨role_goto trivial (fun u hu => ?_),
    h.exclusive_goto rfl (fun hfirst => absurd hfirst id), hlt, fun hnone => ?_, fun _ => happlied⟩
  · have hok := h.role u
    have hturn := hpast u
    cases hrole : s.role u <;> rw [hrole] at hok hturn
    case none => trivial
    case holding => exact hok
    case logging l _ => exact ⟨hok.1, hok.2.1, hok.2.2.1, hturn l hu rfl hok.2.2.2⟩
    case logged l _ => exact ⟨hok.1, hok.2.1, hturn l hu rfl hok.2.2⟩
    case waiting l _ => exact ⟨hok.1, hturn l hu rfl hok.2⟩
    case inside => exact absurd (h.inside_unique hrole ht) hu
  · exact h.log fun u k xs => ne_of_goto rfl (by rw [ht]; simp) (fun v => hnone v k xs) u

/-- Every move keeps the invariant. -/
theorem step {move : Move T α} (h : Sound s) (hs : step s move = some s') : Sound s' := by
  cases move with
  | acquire t =>
      simp only [Pipeline.step] at hs
      split at hs
      · rename_i ht
        split at hs
        · cases hs
        · rename_i hfree
          cases hs
          exact h.acquire ht (Bool.eq_false_iff.mpr hfree)
      · cases hs
  | take t xs =>
      simp only [Pipeline.step] at hs
      split at hs <;> cases hs
      rename_i ht
      exact h.take ht xs
  | append t =>
      simp only [Pipeline.step] at hs
      split at hs <;> cases hs
      rename_i ht
      exact h.append ht
  | release t =>
      simp only [Pipeline.step] at hs
      split at hs <;> cases hs
      rename_i ht
      exact h.release ht
  | enter t =>
      simp only [Pipeline.step] at hs
      split at hs
      · rename_i k xs ht
        split at hs <;> cases hs
        rename_i heq
        subst heq
        exact h.enter ht
      · cases hs
  | apply t =>
      simp only [Pipeline.step] at hs
      split at hs <;> cases hs
      rename_i ht
      exact h.apply ht
  | leave t =>
      simp only [Pipeline.step] at hs
      split at hs <;> cases hs
      rename_i ht
      exact h.leave ht

end Moves

end Sound

end EasyLsm.Lib.Pipeline
