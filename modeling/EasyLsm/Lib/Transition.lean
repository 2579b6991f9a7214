import Mathlib.Data.List.Basic

/-!
# Labelled transition systems

A system is a partial step function `step : σ → ι → Option σ` on states `σ` and labels `ι`, and
a set of initial states. `Reach step init ok` is the set of states reached by runs all of whose
steps meet the condition `ok`, which constrains the label and the state before the step. With
the condition `anyStep` it is plain reachability. An invariant is proved once, by
`Reach.invariant`, from what one step preserves.
-/

namespace EasyLsm.Lib

variable {σ ι : Type}

/-- The condition that every step meets. -/
def anyStep : σ → ι → Prop := fun _ _ => True

/-- The states reached from `init` by steps that all meet the condition `ok`. -/
inductive Reach (step : σ → ι → Option σ) (init : σ → Prop) (ok : σ → ι → Prop) : σ → Prop where
  | start {s : σ} : init s → Reach step init ok s
  | next {s s' : σ} {l : ι} :
      Reach step init ok s → ok s l → step s l = some s' → Reach step init ok s'

/-- Run a list of labels, stopping at the first one that is not enabled. -/
def run (step : σ → ι → Option σ) : σ → List ι → Option σ
  | s, [] => some s
  | s, l :: ls => (step s l).bind (run step · ls)

variable {step : σ → ι → Option σ} {init : σ → Prop} {ok : σ → ι → Prop}

/-- The rest of a run continues from the state its first part ends in. -/
theorem run_of_append {s t u : σ} {ls ms : List ι} (hleft : run step s ls = some t)
    (hrun : run step s (ls ++ ms) = some u) : run step t ms = some u := by
  induction ls generalizing s with
  | nil => cases hleft; exact hrun
  | cons l ls ih =>
      simp only [run, List.cons_append, Option.bind_eq_some_iff] at hleft hrun
      obtain ⟨mid, hmid, hleft⟩ := hleft
      obtain ⟨mid', hmid', hrun⟩ := hrun
      rw [hmid] at hmid'
      cases hmid'
      exact ih hleft hrun

namespace Reach

/-- What holds initially and is preserved by every permitted step holds of every state reached. -/
theorem invariant {P : σ → Prop} (hinit : ∀ s, init s → P s)
    (hstep : ∀ s l s', P s → ok s l → step s l = some s' → P s')
    {s : σ} (h : Reach step init ok s) : P s := by
  induction h with
  | start h => exact hinit _ h
  | next _ hok hs ih => exact hstep _ _ _ ih hok hs

/-- A weaker condition permits more runs. -/
theorem mono {ok' : σ → ι → Prop} (himp : ∀ s l, ok s l → ok' s l) {s : σ}
    (h : Reach step init ok s) : Reach step init ok' s := by
  induction h with
  | start h => exact .start h
  | next _ hok hs ih => exact ih.next (himp _ _ hok) hs

/-- The end of a run from a reached state is reached when its labels are permitted everywhere. -/
theorem of_run_ok {s s' : σ} {ls : List ι} (h : Reach step init ok s)
    (hok : ∀ l ∈ ls, ∀ s, ok s l) (hrun : run step s ls = some s') : Reach step init ok s' := by
  induction ls generalizing s with
  | nil => cases hrun; exact h
  | cons l ls ih =>
      simp only [run, Option.bind_eq_some_iff] at hrun
      obtain ⟨mid, hmid, hrest⟩ := hrun
      exact ih (h.next (hok l (by simp) s) hmid) (fun x hx => hok x (by simp [hx])) hrest

/-- A run whose first label is permitted where it starts and the others everywhere. -/
theorem of_run_cons_ok {s s' : σ} {l : ι} {ls : List ι} (h : Reach step init ok s) (hl : ok s l)
    (hok : ∀ l ∈ ls, ∀ s, ok s l) (hrun : run step s (l :: ls) = some s') :
    Reach step init ok s' := by
  simp only [run, Option.bind_eq_some_iff] at hrun
  obtain ⟨mid, hmid, hrest⟩ := hrun
  exact (h.next hl hmid).of_run_ok hok hrest

/-- The end of a run from a reached state is reached when every step passes a check that permits
it. -/
theorem of_run_checked {check : σ → ι → Bool} (hcheck : ∀ s l, check s l = true → ok s l) {s s' : σ}
    {ls : List ι} (h : Reach step init ok s)
    (hrun : run (fun s l => if check s l then step s l else none) s ls = some s') :
    Reach step init ok s' := by
  induction ls generalizing s with
  | nil => cases hrun; exact h
  | cons l ls ih =>
      simp only [run, Option.bind_eq_some_iff] at hrun
      obtain ⟨mid, hmid, hrest⟩ := hrun
      split at hmid
      · rename_i hpass
        exact ih (h.next (hcheck s l hpass) hmid) hrest
      · cases hmid

/-- The end of a run from a reached state is reached when every step is permitted. -/
theorem of_run {s s' : σ} {ls : List ι} (h : Reach step init anyStep s)
    (hrun : run step s ls = some s') : Reach step init anyStep s' :=
  h.of_run_ok (fun _ _ _ => trivial) hrun

/-- A simulation: when every permitted step keeps the relation to the abstract state or follows a
permitted abstract step, every state reached is related to a reached abstract state. -/
theorem simulate {α κ : Type} {astep : α → κ → Option α} {aok : α → κ → Prop}
    (ainit : α → Prop) (R : σ → α → Prop) (hinit : ∀ s, init s → ∃ a, ainit a ∧ R s a)
    (hstep : ∀ s l s' a, R s a → ok s l → step s l = some s' →
      R s' a ∨ ∃ m a', aok a m ∧ astep a m = some a' ∧ R s' a')
    {s : σ} (h : Reach step init ok s) : ∃ a, Reach astep ainit aok a ∧ R s a := by
  induction h with
  | start h =>
      obtain ⟨a, ha, hR⟩ := hinit _ h
      exact ⟨a, .start ha, hR⟩
  | next _ hok hs ih =>
      obtain ⟨a, ha, hR⟩ := ih
      rcases hstep _ _ _ a hR hok hs with hR | ⟨m, a', hm, hma, hR⟩
      · exact ⟨a, ha, hR⟩
      · exact ⟨a', ha.next hm hma, hR⟩

end Reach

end EasyLsm.Lib
