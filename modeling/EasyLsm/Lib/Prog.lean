import Mathlib.Data.List.Basic

/-!
# Programs with state and failure

A program over a state `σ` returns a value or an error, and in both cases a state: what it did
before it failed stays done. `Prog.Spec P x Q E` says that from a state that meets `P` the program
ends in `Q`, or in `E` when it fails. The rules follow the operations, and a loop over a list is
proved with an invariant (`Spec.forEach`).
-/

namespace EasyLsm.Lib

/-- A program over `σ` with errors in `ε`. -/
def Prog (σ ε α : Type) : Type := σ → Except ε α × σ

namespace Prog

variable {σ ε α β : Type}

/-- Return a value. -/
protected def pure (a : α) : Prog σ ε α := fun s => (.ok a, s)

/-- Run a program, and on success the next one. -/
protected def bind (x : Prog σ ε α) (f : α → Prog σ ε β) : Prog σ ε β := fun s =>
  match x s with
  | (.ok a, s) => f a s
  | (.error e, s) => (.error e, s)

instance : Monad (Prog σ ε) where
  pure := Prog.pure
  bind := Prog.bind

/-- Fail. -/
def fail (e : ε) : Prog σ ε α := fun s => (.error e, s)

/-- Look at the state. -/
def read (f : σ → α) : Prog σ ε α := fun s => (.ok (f s), s)

/-- Change the state. -/
def modify (f : σ → σ) : Prog σ ε Unit := fun s => (.ok (), f s)

/-- Return a result that was computed before. -/
def ofExcept (x : Except ε α) : Prog σ ε α := fun s => (x, s)

/-- Run a program and hand its result on, whether it failed or not. -/
def attempt (x : Prog σ ε α) : Prog σ ε (Except ε α) := fun s => (.ok (x s).1, (x s).2)

/-- Run a program, and change the error when it fails. -/
def mapError (g : ε → ε) (x : Prog σ ε α) : Prog σ ε α := fun s =>
  match x s with
  | (.ok a, s) => (.ok a, s)
  | (.error e, s) => (.error (g e), s)

/-- Run a program for every element of a list, in order, up to the first failure. -/
def forEach (f : α → Prog σ ε β) : List α → Prog σ ε (List β)
  | [] => pure []
  | a :: as => do
      let b ← f a
      let bs ← forEach f as
      return b :: bs

theorem bind_apply (x : Prog σ ε α) (f : α → Prog σ ε β) (s : σ) :
    (x >>= f) s = match x s with
      | (.ok a, s) => f a s
      | (.error e, s) => (.error e, s) := rfl

/-- A composition that succeeds: both parts do. -/
theorem bind_eq_ok {x : Prog σ ε α} {f : α → Prog σ ε β} {s s' : σ} {b : β} :
    (x >>= f) s = (.ok b, s') ↔ ∃ a mid, x s = (.ok a, mid) ∧ f a mid = (.ok b, s') := by
  rw [bind_apply]
  rcases hx : x s with ⟨_ | a, mid⟩
  · constructor
    · intro h
      cases h
    · rintro ⟨a, _, hrun, _⟩
      cases hrun
  · constructor
    · intro h
      exact ⟨a, mid, rfl, h⟩
    · rintro ⟨a', _, hrun, hf⟩
      cases hrun
      exact hf

/-- A composition that fails: the first part does, or the second after it. -/
theorem bind_eq_error {x : Prog σ ε α} {f : α → Prog σ ε β} {s s' : σ} {e : ε} :
    (x >>= f) s = (.error e, s') ↔
      x s = (.error e, s') ∨ ∃ a mid, x s = (.ok a, mid) ∧ f a mid = (.error e, s') := by
  rw [bind_apply]
  rcases hx : x s with ⟨e' | a, mid⟩
  · constructor
    · intro h
      cases h
      exact .inl rfl
    · rintro (h | ⟨a, _, hrun, _⟩)
      · cases h
        rfl
      · cases hrun
  · constructor
    · intro h
      exact .inr ⟨a, mid, rfl, h⟩
    · rintro (h | ⟨a', _, hrun, hf⟩)
      · cases h
      · cases hrun
        exact hf

/-- From a state that meets `P`, the program ends in `Q`, or in `E` when it fails. -/
def Spec (P : σ → Prop) (x : Prog σ ε α) (Q : α → σ → Prop) (E : ε → σ → Prop) : Prop :=
  ∀ s, P s → match x s with
    | (.ok a, s') => Q a s'
    | (.error e, s') => E e s'

namespace Spec

variable {P : σ → Prop} {Q : α → σ → Prop} {R : β → σ → Prop} {E : ε → σ → Prop}

/-- What a successful run ends in. -/
theorem ok {x : Prog σ ε α} {s s' : σ} {a : α} (h : Spec P x Q E) (hs : P s)
    (hrun : x s = (.ok a, s')) : Q a s' := by
  have hq := h s hs
  rwa [hrun] at hq

/-- What a failed run ends in. -/
theorem error {x : Prog σ ε α} {s s' : σ} {e : ε} (h : Spec P x Q E) (hs : P s)
    (hrun : x s = (.error e, s')) : E e s' := by
  have he := h s hs
  rwa [hrun] at he

theorem pure {a : α} (h : ∀ s, P s → Q a s) : Spec P (Pure.pure a) Q E := fun s hs => h s hs

theorem fail {e : ε} (h : ∀ s, P s → E e s) : Spec P (Prog.fail e) Q E := fun s hs => h s hs

theorem read {f : σ → α} (h : ∀ s, P s → Q (f s) s) : Spec P (Prog.read f) Q E :=
  fun s hs => h s hs

theorem modify {f : σ → σ} {R : Unit → σ → Prop} (h : ∀ s, P s → R () (f s)) :
    Spec P (Prog.modify f) R E := fun s hs => h s hs

theorem ofExcept {x : Except ε α} (hok : ∀ a s, x = .ok a → P s → Q a s)
    (herror : ∀ e s, x = .error e → P s → E e s) : Spec P (Prog.ofExcept x) Q E := by
  intro s hs
  cases x with
  | ok a => exact hok a s rfl hs
  | error e => exact herror e s rfl hs

theorem bind {x : Prog σ ε α} {f : α → Prog σ ε β} (hx : Spec P x Q E)
    (hf : ∀ a, Spec (Q a) (f a) R E) : Spec P (x >>= f) R E := by
  intro s hs
  have hmid := hx s hs
  rw [bind_apply]
  rcases hrun : x s with ⟨e | a, mid⟩ <;> rw [hrun] at hmid
  · exact hmid
  · exact hf a mid hmid

theorem attempt {x : Prog σ ε α} {R : Except ε α → σ → Prop}
    (h : Spec P x (fun a => R (.ok a)) (fun e => R (.error e))) : Spec P (x.attempt) R E := by
  intro s hs
  have hmid := h s hs
  show R (x s).1 (x s).2
  rcases hrun : x s with ⟨e | a, mid⟩ <;> rw [hrun] at hmid <;> exact hmid

theorem mapError {x : Prog σ ε α} {g : ε → ε} (h : Spec P x Q (fun e => E (g e))) :
    Spec P (x.mapError g) Q E := by
  intro s hs
  have hmid := h s hs
  unfold Prog.mapError
  rcases hrun : x s with ⟨e | a, mid⟩ <;> rw [hrun] at hmid <;> exact hmid

/-- Strengthen what is assumed, weaken what is concluded. -/
theorem weaken {P' : σ → Prop} {Q' : α → σ → Prop} {E' : ε → σ → Prop} {x : Prog σ ε α}
    (h : Spec P x Q E) (hP : ∀ s, P' s → P s) (hQ : ∀ a s, Q a s → Q' a s)
    (hE : ∀ e s, E e s → E' e s) : Spec P' x Q' E' := by
  intro s hs
  have hmid := h s (hP s hs)
  rcases hrun : x s with ⟨e | a, mid⟩ <;> rw [hrun] at hmid
  · exact hE e mid hmid
  · exact hQ a mid hmid

/-- Two specifications of one program. -/
theorem and {Q' : α → σ → Prop} {E' : ε → σ → Prop} {x : Prog σ ε α} (h : Spec P x Q E)
    (h' : Spec P x Q' E') :
    Spec P x (fun a s => Q a s ∧ Q' a s) (fun e s => E e s ∧ E' e s) := by
  intro s hs
  have hq := h s hs
  have hq' := h' s hs
  rcases hrun : x s with ⟨e | a, s'⟩ <;> rw [hrun] at hq hq' <;> exact ⟨hq, hq'⟩

/-- It is enough to look at one state at a time. -/
theorem of_forall {x : Prog σ ε α} (h : ∀ s, P s → Spec (· = s) x Q E) : Spec P x Q E :=
  fun s hs => h s hs s rfl

/-- A composition whose second part is looked at one state at a time. -/
theorem bind_forall {x : Prog σ ε α} {f : α → Prog σ ε β} (hx : Spec P x Q E)
    (hf : ∀ a s, Q a s → Spec (· = s) (f a) R E) : Spec P (x >>= f) R E :=
  hx.bind fun a => of_forall (hf a)

/-- A choice by a condition. -/
theorem ite {c : Prop} [Decidable c] {x y : Prog σ ε α} (hx : c → Spec P x Q E)
    (hy : ¬ c → Spec P y Q E) : Spec P (if c then x else y) Q E := by
  split
  · rename_i hc
    exact hx hc
  · rename_i hc
    exact hy hc

/-- The loop rule. The invariant speaks of the elements done so far and of their results. -/
theorem forEach {f : α → Prog σ ε β} {I : List α → List β → σ → Prop} {l : List α}
    (hstep : ∀ done bs a rest, l = done ++ a :: rest →
      Spec (I done bs) (f a) (fun b => I (done ++ [a]) (bs ++ [b])) E) :
    Spec (I [] []) (Prog.forEach f l) (fun bs => I l bs) E := by
  have hloop : ∀ rest done bs, l = done ++ rest →
      Spec (I done bs) (Prog.forEach f rest) (fun cs => I l (bs ++ cs)) E := by
    intro rest
    induction rest with
    | nil =>
        intro done bs hl
        refine Spec.pure (fun s hs => ?_)
        rw [List.append_nil] at hl ⊢
        exact hl ▸ hs
    | cons a rest ih =>
        intro done bs hl
        refine Spec.bind (hstep done bs a rest hl) (fun b => ?_)
        refine Spec.bind (ih (done ++ [a]) (bs ++ [b]) (by simp [hl])) (fun cs => ?_)
        refine Spec.pure (fun s hs => ?_)
        simpa using hs
  simpa using hloop l [] [] rfl

/-- The loop rule for an invariant on the state only. -/
theorem forEach_const {f : α → Prog σ ε β} {l : List α}
    (hstep : ∀ a ∈ l, Spec P (f a) (fun _ => P) E) :
    Spec P (Prog.forEach f l) (fun _ => P) E :=
  forEach (I := fun _ _ => P) fun done _ a rest hl => hstep a (by simp [hl])

/-- The loop rule for an invariant on the state and a relation between elements and results. -/
theorem forEach_related {f : α → Prog σ ε β} {R : α → β → Prop} {l : List α}
    (hstep : ∀ a ∈ l, Spec P (f a) (fun b s => R a b ∧ P s) E) :
    Spec P (Prog.forEach f l) (fun bs s => List.Forall₂ R l bs ∧ P s) E := by
  induction l with
  | nil => exact Spec.pure fun s hs => ⟨.nil, hs⟩
  | cons a l ih =>
      refine Spec.bind (hstep a List.mem_cons_self) fun b => of_forall fun s hs => ?_
      refine Spec.bind (Q := fun bs s => List.Forall₂ R l bs ∧ P s) ?_ fun bs =>
        Spec.pure fun s' hs' => ⟨.cons hs.1 hs'.1, hs'.2⟩
      exact (ih fun a' ha' => hstep a' (List.mem_cons_of_mem a ha')).weaken
        (fun s' hs' => hs' ▸ hs.2) (fun _ _ h => h) fun _ _ h => h

end Spec

end Prog

end EasyLsm.Lib
