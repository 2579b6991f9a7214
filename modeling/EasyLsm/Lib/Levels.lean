import Mathlib.Data.List.Perm.Basic
import Mathlib.Data.List.Sort
import Mathlib.Algebra.Order.Group.Multiset
import Mathlib.Tactic.Abel

/-!
# Levels of runs

A tree of levels holds a list of runs in every level. `push` adds runs to level 0, and `replace`
takes runs out of a level and the next one and puts new runs, in order, into the latter. Both are
described level by level (`get_push`, `get_replace`) and as a whole, up to the order of the runs
(`flatten_push`, `flatten_replace`), and both commute with a function on the runs.
-/

namespace EasyLsm.Lib.Levels

variable {α β : Type}

/-- The runs of a level, none behind the last level. -/
def get (levels : List (List α)) (i : Nat) : List α := levels[i]?.getD []

/-- Add empty levels until there are at least `n`. -/
def padTo (n : Nat) (levels : List (List α)) : List (List α) :=
  levels ++ List.replicate (n - levels.length) []

/-- Add runs to level 0, which is created when there is no level. -/
def push (new : List α) (levels : List (List α)) : List (List α) :=
  (if levels.isEmpty then [[]] else levels).modify 0 (· ++ new)

/-- Take runs out of a level and of the next one, and put new ones into the latter. -/
def replace (gone gone' : α → Bool) (le : α → α → Prop) [DecidableRel le] (source : Nat)
    (new : List α) (levels : List (List α)) : List (List α) :=
  (((padTo (source + 2) levels).modify source (List.filter fun a => !gone a)).modify (source + 1)
    (List.filter fun a => !gone' a)).modify (source + 1)
      fun level => (level ++ new).insertionSort le

/-! ## Level by level -/

theorem mem_flatten_iff {levels : List (List α)} {a : α} :
    a ∈ levels.flatten ↔ ∃ i, a ∈ get levels i := by
  rw [List.mem_flatten]
  constructor
  · rintro ⟨level, hlevel, ha⟩
    obtain ⟨i, hi⟩ := List.mem_iff_getElem?.mp hlevel
    exact ⟨i, by rw [get, hi]; exact ha⟩
  · rintro ⟨i, ha⟩
    cases hi : levels[i]? with
    | none =>
        rw [get, hi] at ha
        cases ha
    | some level =>
        rw [get, hi] at ha
        exact ⟨level, List.mem_of_getElem? hi, ha⟩

/-- The runs of a level that is there. -/
theorem get_eq_getElem {levels : List (List α)} {i : Nat} (h : i < levels.length) :
    get levels i = levels[i] := by
  rw [get, List.getElem?_eq_getElem h, Option.getD_some]

/-- A level that has a run is there. -/
theorem lt_length_of_mem {levels : List (List α)} {i : Nat} {a : α} (h : a ∈ get levels i) :
    i < levels.length := by
  by_contra hge
  rw [get, List.getElem?_eq_none (Nat.not_lt.mp hge)] at h
  cases h

/-- What the runs have, level by level. -/
theorem flatMap_flatten (f : α → List β) (levels : List (List α)) :
    levels.flatten.flatMap f = (levels.map fun level => level.flatMap f).flatten := by
  rw [List.flatMap_def, List.map_flatten, List.flatten_flatten, List.map_map]
  rfl

@[simp] theorem get_map (f : α → β) (levels : List (List α)) (i : Nat) :
    get (levels.map (List.map f)) i = (get levels i).map f := by
  unfold get
  rw [List.getElem?_map]
  cases levels[i]? <;> rfl

@[simp] theorem get_padTo (n : Nat) (levels : List (List α)) (i : Nat) :
    get (padTo n levels) i = get levels i := by
  unfold get padTo
  rcases Nat.lt_or_ge i levels.length with hlt | hge
  · rw [List.getElem?_append_left hlt]
  · rw [List.getElem?_append_right hge, List.getElem?_eq_none hge, List.getElem?_replicate]
    split <;> rfl

/-- A level that is there is changed. -/
theorem get_modify_self {levels : List (List α)} {i : Nat} (h : i < levels.length)
    (f : List α → List α) : get (levels.modify i f) i = f (get levels i) := by
  unfold get
  rw [List.getElem?_modify_eq, List.getElem?_eq_getElem h]
  rfl

theorem get_modify_of_ne (levels : List (List α)) {i j : Nat} (h : i ≠ j)
    (f : List α → List α) : get (levels.modify i f) j = get levels j := by
  unfold get
  rw [List.getElem?_modify_ne _ _ h]

theorem get_push (new : List α) (levels : List (List α)) (i : Nat) :
    get (push new levels) i = if i = 0 then get levels 0 ++ new else get levels i := by
  have hsame : ∀ {j}, j ≠ 0 → get (if levels.isEmpty then [[]] else levels) j = get levels j := by
    intro j hj
    obtain ⟨j, rfl⟩ := Nat.exists_eq_succ_of_ne_zero hj
    cases levels <;> rfl
  unfold push
  by_cases hi : i = 0
  · subst hi
    rw [if_pos rfl]
    cases levels <;> rfl
  · rw [if_neg hi, get_modify_of_ne _ (Ne.symm hi), hsame hi]

theorem length_padTo (n : Nat) (levels : List (List α)) : n ≤ (padTo n levels).length := by
  unfold padTo
  rw [List.length_append, List.length_replicate]
  omega

theorem get_replace (gone gone' : α → Bool) (le : α → α → Prop) [DecidableRel le] (source : Nat)
    (new : List α) (levels : List (List α)) (i : Nat) :
    get (replace gone gone' le source new levels) i =
      if i = source then (get levels source).filter fun a => !gone a
      else if i = source + 1 then
        (((get levels (source + 1)).filter fun a => !gone' a) ++ new).insertionSort le
      else get levels i := by
  have hlen := length_padTo (source + 2) levels
  unfold replace
  by_cases hsource : i = source
  · subst hsource
    rw [if_pos rfl, get_modify_of_ne _ (Nat.succ_ne_self i),
      get_modify_of_ne _ (Nat.succ_ne_self i),
      get_modify_self (by omega), get_padTo]
  · rw [if_neg hsource]
    by_cases htarget : i = source + 1
    · subst htarget
      rw [if_pos rfl, get_modify_self (by simp only [List.length_modify]; omega),
        get_modify_self (by simp only [List.length_modify]; omega),
        get_modify_of_ne _ (Nat.succ_ne_self source).symm, get_padTo]
    · rw [if_neg htarget, get_modify_of_ne _ (Ne.symm htarget),
        get_modify_of_ne _ (Ne.symm htarget),
        get_modify_of_ne _ (Ne.symm hsource), get_padTo]

/-! ## As a whole -/

theorem flatten_padTo (n : Nat) (levels : List (List α)) :
    (padTo n levels).flatten = levels.flatten := by
  simp [padTo]

/-- What one level loses or gains, the whole does. -/
theorem flatten_modify {levels : List (List α)} {i : Nat} (h : i < levels.length)
    (f : List α → List α) :
    ((levels.modify i f).flatten ++ get levels i).Perm (levels.flatten ++ f (get levels i)) := by
  induction levels generalizing i with
  | nil => exact absurd h (Nat.not_lt_zero i)
  | cons level levels ih =>
      cases i with
      | zero =>
          show ((f level ++ levels.flatten) ++ level).Perm ((level ++ levels.flatten) ++ f level)
          rw [← Multiset.coe_eq_coe]
          simp only [← Multiset.coe_add]
          abel
      | succ i =>
          have hrest := ih (Nat.lt_of_succ_lt_succ h)
          show ((level ++ (levels.modify i f).flatten) ++ get levels i).Perm
            ((level ++ levels.flatten) ++ f (get levels i))
          rw [List.append_assoc, List.append_assoc]
          exact hrest.append_left level

theorem flatten_push (new : List α) (levels : List (List α)) :
    (push new levels).flatten.Perm (levels.flatten ++ new) := by
  cases levels with
  | nil =>
      show (([] ++ new) ++ []).Perm ([] ++ new)
      rw [List.append_nil]
  | cons level levels =>
      show ((level ++ new) ++ levels.flatten).Perm ((level ++ levels.flatten) ++ new)
      rw [← Multiset.coe_eq_coe]
      simp only [← Multiset.coe_add]
      abel

/-- What is taken out and what is left are the whole. -/
theorem filter_perm (gone : α → Bool) (l : List α) :
    ((l.filter fun a => !gone a) ++ l.filter gone).Perm l :=
  List.perm_append_comm.trans (List.filter_append_perm gone l)

/-- Taking runs out of a level. -/
theorem flatten_modify_filter {levels : List (List α)} {i : Nat} (h : i < levels.length)
    (gone : α → Bool) :
    ((levels.modify i (List.filter fun a => !gone a)).flatten ++ (get levels i).filter gone).Perm
      levels.flatten := by
  have hmodify := flatten_modify h (List.filter fun a => !gone a)
  refine (List.perm_append_right_iff ((get levels i).filter fun a => !gone a)).mp ?_
  refine List.Perm.trans ?_ hmodify
  rw [List.append_assoc]
  exact (List.perm_append_comm.trans (filter_perm gone _)).append_left _

/-- Putting runs into a level, in order. -/
theorem flatten_modify_extend {levels : List (List α)} {i : Nat} (h : i < levels.length)
    (le : α → α → Prop) [DecidableRel le] (new : List α) :
    (levels.modify i fun level => (level ++ new).insertionSort le).flatten.Perm
      (levels.flatten ++ new) := by
  have hmodify := flatten_modify h fun level => (level ++ new).insertionSort le
  refine (List.perm_append_right_iff (get levels i)).mp (hmodify.trans ?_)
  rw [List.append_assoc]
  exact ((List.perm_insertionSort le _).trans List.perm_append_comm).append_left _

theorem flatten_replace (gone gone' : α → Bool) (le : α → α → Prop) [DecidableRel le]
    (source : Nat) (new : List α) (levels : List (List α)) :
    ((replace gone gone' le source new levels).flatten ++
      ((get levels source).filter gone ++ (get levels (source + 1)).filter gone')).Perm
      (levels.flatten ++ new) := by
  have hlen := length_padTo (source + 2) levels
  have hsource := @flatten_modify_filter α (padTo (source + 2) levels) source (by omega) gone
  have htarget := @flatten_modify_filter α ((padTo (source + 2) levels).modify source
    (List.filter fun a => !gone a)) (source + 1) (by rw [List.length_modify]; omega) gone'
  have hnew := @flatten_modify_extend α (((padTo (source + 2) levels).modify source
    (List.filter fun a => !gone a)).modify (source + 1) (List.filter fun a => !gone' a))
    (source + 1) (by rw [List.length_modify, List.length_modify]; omega) le _ new
  rw [get_padTo, flatten_padTo] at hsource
  rw [get_modify_of_ne _ (Nat.succ_ne_self source).symm, get_padTo] at htarget
  rw [← Multiset.coe_eq_coe] at hsource htarget hnew ⊢
  simp only [← Multiset.coe_add] at hsource htarget hnew ⊢
  unfold replace
  rw [hnew, ← hsource, ← htarget]
  abel

/-! ## A function on the runs -/

theorem map_push (f : α → β) (new : List α) (levels : List (List α)) :
    (push new levels).map (List.map f) = push (new.map f) (levels.map (List.map f)) := by
  cases levels with
  | nil => simp [push]
  | cons level levels => simp [push]

/-- Changing a level and then mapping. -/
theorem map_modify {f : α → β} {g : List α → List α} {g' : List β → List β}
    (levels : List (List α)) (i : Nat) (h : (g (get levels i)).map f = g' ((get levels i).map f)) :
    (levels.modify i g).map (List.map f) = (levels.map (List.map f)).modify i g' := by
  induction levels generalizing i with
  | nil => simp
  | cons level levels ih =>
      cases i with
      | zero => exact congrArg (· :: levels.map (List.map f)) h
      | succ i => exact congrArg (level.map f :: ·) (ih i h)

theorem map_replace (f : α → β) {gone gone' : α → Bool} {goneB goneB' : β → Bool}
    {le : α → α → Prop} [DecidableRel le] {leB : β → β → Prop} [DecidableRel leB]
    (hgone : ∀ a, goneB (f a) = gone a) (hgone' : ∀ a, goneB' (f a) = gone' a)
    (hle : ∀ a b, le a b ↔ leB (f a) (f b)) (source : Nat) (new : List α)
    (levels : List (List α)) :
    (replace gone gone' le source new levels).map (List.map f) =
      replace goneB goneB' leB source (new.map f) (levels.map (List.map f)) := by
  have hfilter : ∀ {p : α → Bool} {q : β → Bool}, (∀ a, q (f a) = p a) → ∀ l : List α,
      (l.filter fun a => !p a).map f = (l.map f).filter fun b => !q b := by
    intro p q hpq l
    rw [List.filter_map]
    exact congrArg (List.map f) (List.filter_congr fun a _ => by simp [hpq])
  have hpad : (padTo (source + 2) levels).map (List.map f) =
      padTo (source + 2) (levels.map (List.map f)) := by simp [padTo]
  unfold replace
  rw [@map_modify _ _ _ _ (fun level => (level ++ new.map f).insertionSort leB),
    @map_modify _ _ _ _ (List.filter fun b => !goneB' b),
    @map_modify _ _ _ _ (List.filter fun b => !goneB b), hpad]
  · exact hfilter hgone _
  · exact hfilter hgone' _
  · rw [List.map_insertionSort le leB f _ fun a _ b _ => hle a b, List.map_append]

end EasyLsm.Lib.Levels
