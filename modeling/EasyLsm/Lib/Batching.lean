import Mathlib.Data.List.Basic
import Mathlib.Data.List.Nodup
import EasyLsm.Lib.Transition

/-!
# Batches in front of an exclusive stage

Parties arrive one by one and queue up. The party at the head of the queue drains it and leads all
of it as one batch. Batches wait for an exclusive stage, in which each party of the batch is given
an item and the items are then written. Nothing says which waiting batch enters next.

`Sound` is what holds when the batches enter in the order in which they were drained: the parties
are given their items, and the items are written, in the order of arrival. `overtaken` says that
the condition is exact: a batch that enters before an earlier one breaks the order as soon as its
parties are given their items.
-/

namespace EasyLsm.Lib.Batching

variable {T α : Type}

/-- The exclusive stage with the leader of the batch that is in it. -/
inductive Stage (T α : Type) where
  | free
  | holding (leader : T) (batch : List T)
  | given (leader : T) (items : List (T × α))
  | written (leader : T)

/-- The parties in the order of their arrival, those in the queue, the batches that wait, oldest
first, and the items given and written so far. -/
structure State (T α : Type) where
  arrived : List T
  queue : List T
  waiting : List (T × List T)
  stage : Stage T α
  given : List (T × α)
  written : List (T × α)

/-- Nobody has arrived. -/
def initial : State T α := ⟨[], [], [], .free, [], []⟩

/-- What can happen. -/
inductive Move (T α : Type) where
  | arrive (t : T)
  | drain
  | enter (leader : T) (batch : List T)
  | give (items : List (T × α))
  | write
  | leave

/-- One move; `none` when it cannot be made. -/
def step [DecidableEq T] (s : State T α) : Move T α → Option (State T α)
  | .arrive t =>
      if t ∈ s.arrived then none
      else some { s with arrived := s.arrived ++ [t], queue := s.queue ++ [t] }
  | .drain =>
      match s.queue with
      | [] => none
      | t :: rest => some { s with waiting := s.waiting ++ [(t, t :: rest)], queue := [] }
  | .enter t batch =>
      match s.stage with
      | .free =>
          if (t, batch) ∈ s.waiting then
            some { s with
              waiting := s.waiting.filter fun b => b.1 ≠ t
              stage := .holding t batch }
          else none
      | _ => none
  | .give items =>
      match s.stage with
      | .holding t batch =>
          if items.map Prod.fst = batch then
            some { s with given := s.given ++ items, stage := .given t items }
          else none
      | _ => none
  | .write =>
      match s.stage with
      | .given t items => some { s with written := s.written ++ items, stage := .written t }
      | _ => none
  | .leave =>
      match s.stage with
      | .written _ => some { s with stage := .free }
      | _ => none

/-- The condition on a move: the oldest waiting batch enters. -/
def InOrder (s : State T α) : Move T α → Prop
  | .enter t _ => ∀ b, s.waiting.head? = some b → b.1 = t
  | _ => True

/-- The leader of the batch in the stage. -/
def Stage.leader : Stage T α → Option T
  | .free => none
  | .holding t _ | .given t _ | .written t => some t

/-- The parties in the stage that have not been given an item. -/
def Stage.parties : Stage T α → List T
  | .holding _ batch => batch
  | _ => []

/-- The items in the stage that have not been written. -/
def Stage.unwritten : Stage T α → List (T × α)
  | .given _ items => items
  | _ => []

/-- Parties are given their items, and items are written, in the order of arrival. -/
structure Sound (s : State T α) : Prop where
  nodup : s.arrived.Nodup
  led : ∀ b ∈ s.waiting, b.1 ∈ b.2
  arrived : s.arrived = s.given.map Prod.fst ++ s.stage.parties ++ s.waiting.flatMap Prod.snd ++
    s.queue
  given : s.given = s.written ++ s.stage.unwritten

theorem sound_initial : Sound (initial : State T α) where
  nodup := List.nodup_nil
  led _ hb := absurd hb List.not_mem_nil
  arrived := rfl
  given := rfl

namespace Sound

variable {s s' : State T α}

/-- The parties of the waiting batches are different. -/
theorem nodup_waiting (h : Sound s) : (s.waiting.flatMap Prod.snd).Nodup := by
  have hnodup := h.nodup
  rw [h.arrived] at hnodup
  exact (List.nodup_append.mp (List.nodup_append.mp hnodup).1).2.1

theorem arrive {t : T} (h : Sound s) (ht : t ∉ s.arrived) :
    Sound { s with arrived := s.arrived ++ [t], queue := s.queue ++ [t] } where
  nodup := by
    rw [List.nodup_append]
    exact ⟨h.nodup, List.nodup_singleton t, fun x hx y hy heq =>
      ht (List.mem_singleton.mp hy ▸ heq ▸ hx)⟩
  led := h.led
  arrived := by rw [h.arrived, List.append_assoc]
  given := h.given

theorem drain {t : T} {rest : List T} (h : Sound s) (hqueue : s.queue = t :: rest) :
    Sound { s with waiting := s.waiting ++ [(t, t :: rest)], queue := [] } where
  nodup := h.nodup
  led b hb := by
    rcases List.mem_append.mp hb with hb | hb
    · exact h.led b hb
    · cases List.mem_singleton.mp hb
      exact List.mem_cons_self
  arrived := by
    rw [h.arrived, hqueue, List.flatMap_append, List.flatMap_singleton, List.append_nil]
    simp only [List.append_assoc]
  given := h.given

theorem give {t : T} {items : List (T × α)} (h : Sound s)
    (hstage : s.stage = .holding t (items.map Prod.fst)) :
    Sound { s with given := s.given ++ items, stage := .given t items } where
  nodup := h.nodup
  led := h.led
  arrived := by
    rw [h.arrived, hstage, List.map_append]
    simp only [Stage.parties, List.append_nil]
  given := by
    rw [h.given, hstage]
    simp only [Stage.unwritten, List.append_nil]

theorem write {t : T} {items : List (T × α)} (h : Sound s) (hstage : s.stage = .given t items) :
    Sound { s with written := s.written ++ items, stage := .written t } where
  nodup := h.nodup
  led := h.led
  arrived := by rw [h.arrived, hstage]; rfl
  given := by
    rw [h.given, hstage]
    simp only [Stage.unwritten, List.append_nil]

theorem leave {t : T} (h : Sound s) (hstage : s.stage = .written t) :
    Sound { s with stage := .free } where
  nodup := h.nodup
  led := h.led
  arrived := by rw [h.arrived, hstage]; rfl
  given := by rw [h.given, hstage]; rfl

section Moves

variable [DecidableEq T]

/-- When the oldest batch leaves the waiting ones, the others stay. -/
theorem filter_waiting (h : Sound s) {b : T × List T} {rest : List (T × List T)}
    (hwaiting : s.waiting = b :: rest) : (s.waiting.filter fun c => c.1 ≠ b.1) = rest := by
  have hnodup := h.nodup_waiting
  rw [hwaiting, List.flatMap_cons] at hnodup
  have hlead : b.1 ∈ b.2 := h.led b (hwaiting ▸ List.mem_cons_self)
  have hother : ∀ c ∈ rest, c.1 ≠ b.1 := by
    intro c hc heq
    have hmem : c.1 ∈ c.2 := h.led c (hwaiting ▸ List.mem_cons_of_mem b hc)
    have hrest : c.1 ∈ rest.flatMap Prod.snd := List.mem_flatMap.mpr ⟨c, hc, hmem⟩
    exact (List.nodup_append.mp hnodup).2.2 b.1 hlead c.1 hrest heq.symm
  rw [hwaiting, List.filter_cons_of_neg (by simp)]
  exact List.filter_eq_self.mpr fun c hc => decide_eq_true (hother c hc)

theorem enter {t : T} {batch : List T} (h : Sound s) (hfree : s.stage = .free)
    (hmem : (t, batch) ∈ s.waiting) (horder : ∀ b, s.waiting.head? = some b → b.1 = t) :
    Sound { s with
      waiting := s.waiting.filter fun b => b.1 ≠ t
      stage := .holding t batch } := by
  obtain ⟨b, rest, hwaiting⟩ := List.exists_cons_of_ne_nil (List.ne_nil_of_mem hmem)
  have hb : b.1 = t := horder b (by rw [hwaiting, List.head?_cons])
  subst hb
  have hrest := h.filter_waiting hwaiting
  have hbatch : b.2 = batch := by
    rw [hwaiting] at hmem
    rcases List.mem_cons.mp hmem with heq | hin
    · rw [← heq]
    · rw [← hrest, List.mem_filter] at hin
      exact absurd rfl (of_decide_eq_true hin.2 : b.1 ≠ b.1)
  refine ⟨h.nodup, fun c hc => h.led c (List.mem_filter.mp hc).1, ?_, ?_⟩
  · show s.arrived = s.given.map Prod.fst ++ batch ++
      (s.waiting.filter fun c => c.1 ≠ b.1).flatMap Prod.snd ++ s.queue
    rw [hrest, h.arrived, hfree, hwaiting, List.flatMap_cons, hbatch]
    simp only [Stage.parties, List.append_assoc, List.nil_append]
  · rw [h.given, hfree]
    rfl

/-- A move in order keeps the order of arrival. -/
theorem step {move : Move T α} (h : Sound s) (hok : InOrder s move)
    (hs : step s move = some s') : Sound s' := by
  cases move with
  | arrive t =>
      simp only [Batching.step] at hs
      split at hs <;> cases hs
      rename_i ht
      exact h.arrive ht
  | drain =>
      simp only [Batching.step] at hs
      split at hs <;> cases hs
      rename_i hqueue
      exact h.drain hqueue
  | enter t batch =>
      simp only [Batching.step] at hs
      split at hs
      · rename_i hfree
        split at hs <;> cases hs
        rename_i hmem
        exact h.enter hfree hmem hok
      · cases hs
  | give items =>
      simp only [Batching.step] at hs
      split at hs
      · rename_i hstage
        split at hs <;> cases hs
        rename_i hitems
        subst hitems
        exact h.give hstage
      · cases hs
  | write =>
      simp only [Batching.step] at hs
      split at hs <;> cases hs
      rename_i hstage
      exact h.write hstage
  | leave =>
      simp only [Batching.step] at hs
      split at hs <;> cases hs
      rename_i hstage
      exact h.leave hstage

/-- The order of arrival is kept in every run in which the oldest batch always enters. -/
theorem of_reach (h : Reach Batching.step (· = initial) InOrder s) : Sound s :=
  h.invariant (fun _ hinit => hinit ▸ sound_initial)
    (fun _ _ _ hsound hok hs => hsound.step hok hs)

/-- A batch that enters before an older one overtakes it: when its parties are given their items,
a party that arrived before its leader has none. -/
theorem overtaken {s₁ s₂ : State T α} {t : T} {batch : List T} {items : List (T × α)} (h : Sound s)
    (hnot : ¬ InOrder s (.enter t batch)) (hs₁ : Batching.step s (.enter t batch) = some s₁)
    (hs₂ : Batching.step s₁ (.give items) = some s₂) :
    ∃ a, [a, t].Sublist s₂.arrived ∧ t ∈ s₂.given.map Prod.fst ∧
      a ∉ s₂.given.map Prod.fst := by
  simp only [Batching.step] at hs₁
  split at hs₁
  · rename_i hfree
    split at hs₁ <;> cases hs₁
    rename_i hmem
    simp only [Batching.step] at hs₂
    split at hs₂ <;> cases hs₂
    rename_i hitems
    subst hitems
    have hfirst : ∃ b rest, s.waiting = b :: rest ∧ b.1 ≠ t := by
      cases hwaiting : s.waiting with
      | nil => exact absurd (hwaiting ▸ hmem) List.not_mem_nil
      | cons b rest =>
          refine ⟨b, rest, rfl, fun heq => hnot fun c hc => ?_⟩
          rw [hwaiting, List.head?_cons] at hc
          exact Option.some.inj hc ▸ heq
    obtain ⟨b, rest, hwaiting, hne⟩ := hfirst
    have harrived : s.arrived =
        s.given.map Prod.fst ++ (b.2 ++ (rest.flatMap Prod.snd ++ s.queue)) := by
      rw [h.arrived, hfree, hwaiting, List.flatMap_cons]
      simp only [Stage.parties, List.append_nil, List.append_assoc]
    have hrest : (t, items.map Prod.fst) ∈ rest := by
      rw [hwaiting] at hmem
      rcases List.mem_cons.mp hmem with heq | hin
      · exact absurd (congrArg Prod.fst heq).symm hne
      · exact hin
    have hleader : b.1 ∈ b.2 := h.led b (hwaiting ▸ List.mem_cons_self)
    have hmember : t ∈ items.map Prod.fst := h.led _ hmem
    have hlater : ∀ q ∈ items.map Prod.fst, q ∈ rest.flatMap Prod.snd ++ s.queue :=
      fun q hq => List.mem_append_left _ (List.mem_flatMap.mpr ⟨_, hrest, hq⟩)
    refine ⟨b.1, ?_, ?_, ?_⟩
    · show [b.1, t].Sublist s.arrived
      have hpair := (List.singleton_sublist.mpr hleader).append
        (List.singleton_sublist.mpr (hlater t hmember))
      rw [harrived]
      exact hpair.trans (List.sublist_append_right _ _)
    · show t ∈ (s.given ++ items).map Prod.fst
      rw [List.map_append]
      exact List.mem_append_right _ hmember
    · show b.1 ∉ (s.given ++ items).map Prod.fst
      have hnodup := h.nodup
      rw [harrived] at hnodup
      obtain ⟨_, hbehind, hbefore⟩ := List.nodup_append.mp hnodup
      rw [List.map_append, List.mem_append]
      intro hin
      rcases hin with hin | hin
      · exact hbefore b.1 hin b.1 (List.mem_append_left _ hleader) rfl
      · exact (List.nodup_append.mp hbehind).2.2 b.1 hleader b.1 (hlater b.1 hin) rfl
  · cases hs₁

end Moves

end Sound

end EasyLsm.Lib.Batching
