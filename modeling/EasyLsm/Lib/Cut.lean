import Mathlib.Data.List.Basic
import Mathlib.Data.List.Induction

/-!
# Cutting a list into pieces

A list is cut from left to right into pieces: when the current piece is full, another one begins.
`cut full l` are the pieces. They are not empty, and together they are the list.
-/

namespace EasyLsm.Lib.Cut

variable {α : Type}

/-- The finished pieces together with the current one, when that has begun. -/
def close (s : List (List α) × List α) : List (List α) :=
  if s.2.isEmpty then s.1 else s.1 ++ [s.2]

/-- Add an element to the current piece, or begin another one when it is full. -/
def step (full : List α → Bool) (s : List (List α) × List α) (a : α) :
    List (List α) × List α :=
  if s.2.isEmpty || full s.2 then (close s, [a]) else (s.1, s.2 ++ [a])

/-- The pieces of a list. -/
def cut (full : List α → Bool) (l : List α) : List (List α) := close (l.foldl (step full) ([], []))

variable {full : List α → Bool}

theorem flatten_close (s : List (List α) × List α) : (close s).flatten = s.1.flatten ++ s.2 := by
  unfold close
  split
  · rename_i hnil
    rw [List.isEmpty_iff.mp hnil, List.append_nil]
  · rw [List.flatten_append, List.flatten_singleton]

theorem flatten_step (s : List (List α) × List α) (a : α) :
    (step full s a).1.flatten ++ (step full s a).2 = s.1.flatten ++ s.2 ++ [a] := by
  unfold step
  split
  · rw [flatten_close]
  · rw [List.append_assoc]

theorem step_ne_nil (s : List (List α) × List α) (a : α) : (step full s a).2 ≠ [] := by
  unfold step
  split <;> simp

/-- The pieces are the list. -/
theorem flatten_cut (full : List α → Bool) (l : List α) : (cut full l).flatten = l := by
  unfold cut
  rw [flatten_close]
  induction l using List.reverseRecOn with
  | nil => rfl
  | append_singleton l a ih => rw [List.foldl_concat, flatten_step, ih]

theorem close_ne_nil {s : List (List α) × List α} (h : ∀ p ∈ s.1, p ≠ []) :
    ∀ p ∈ close s, p ≠ [] := by
  unfold close
  split
  · exact h
  · rename_i hcur
    intro p hp
    rcases List.mem_append.mp hp with hp | hp
    · exact h p hp
    · rw [List.mem_singleton.mp hp]
      exact fun hnil => hcur (List.isEmpty_iff.mpr hnil)

theorem step_fst_ne_nil {s : List (List α) × List α} (h : ∀ p ∈ s.1, p ≠ []) (a : α) :
    ∀ p ∈ (step full s a).1, p ≠ [] := by
  unfold step
  split
  · exact close_ne_nil h
  · exact h

/-- No piece is empty. -/
theorem ne_nil_of_mem_cut {l p : List α} (h : p ∈ cut full l) : p ≠ [] := by
  have hdone : ∀ p ∈ (l.foldl (step full) ([], [])).1, p ≠ [] := by
    clear h
    induction l using List.reverseRecOn with
    | nil => exact fun p hp => absurd hp List.not_mem_nil
    | append_singleton l a ih =>
        rw [List.foldl_concat]
        exact step_fst_ne_nil ih a
  exact close_ne_nil hdone p h

theorem length_close_step (s : List (List α) × List α) (a : α) :
    (close s).length ≤ (close (step full s a)).length := by
  have hclose : ∀ s : List (List α) × List α, s.2 ≠ [] → (close s).length = s.1.length + 1 := by
    intro s hs
    rw [close, if_neg fun hnil => hs (List.isEmpty_iff.mp hnil), List.length_append,
      List.length_singleton]
  rw [hclose _ (step_ne_nil s a)]
  unfold step
  split
  · exact Nat.le_succ _
  · rename_i hopen
    exact Nat.le_of_eq (hclose s fun hnil => hopen (by rw [hnil]; rfl))

/-- More elements, no fewer pieces. -/
theorem length_cut_le (full : List α → Bool) (l rest : List α) :
    (cut full l).length ≤ (cut full (l ++ rest)).length := by
  induction rest using List.reverseRecOn with
  | nil => exact Nat.le_of_eq (by rw [List.append_nil])
  | append_singleton rest a ih =>
      rw [← List.append_assoc]
      refine Nat.le_trans ih ?_
      unfold cut
      rw [List.foldl_concat]
      exact length_close_step _ a

/-- When every piece is full, the pieces are the single elements. -/
theorem cut_of_full (h : ∀ p, full p = true) (l : List α) : cut full l = l.map fun a => [a] := by
  have hclose : ∀ s a, close (step full s a) = close s ++ [[a]] := by
    intro s a
    rw [step, h, Bool.or_true, if_pos rfl]
    rfl
  unfold cut
  induction l using List.reverseRecOn with
  | nil => rfl
  | append_singleton l a ih =>
      rw [List.foldl_concat, hclose, ih, List.map_append, List.map_singleton]

end EasyLsm.Lib.Cut
