import Mathlib.Algebra.GroupWithZero.Nat
import Mathlib.Data.List.Perm.Basic
import Mathlib.Data.List.Sort
import Mathlib.Order.Basic

/-!
# Merging iterators with a heap

A merge iterator over iterators `S`, each with a step that returns the next pair, an error or
nothing. The heap holds the next pair of every iterator that has one, with the position of the
iterator it came from; a step takes a smallest pair from the heap and refills it from the same
iterator.

`Yields step mayFail s l` says that an iterator returns the pairs of `l` and ends; when `mayFail`
holds it may also stop with an error on the way. A merge of iterators that yield sorted lists
returns a smallest one of all the pairs that remain, or an error of one of them (`Inv.next`).
-/

namespace EasyLsm.Lib.Merge

variable {S κ ν ε : Type}

/-- A pair in the heap. -/
structure Item (κ ν : Type) where
  key : κ
  value : ν
  iterIdx : Nat

/-- The pair of an item. -/
def Item.pair (x : Item κ ν) : κ × ν := (x.key, x.value)

/-- A merge iterator. -/
structure State (S κ ν : Type) where
  heap : List (Item κ ν)
  iters : List S

/-- `step s` is what an iterator returns, and the iterator after that. -/
abbrev Step (S κ ν ε : Type) := S → Option (Except ε (κ × ν)) × S

/-- The iterator returns the pairs of a list and ends, or fails on the way. -/
inductive Yields (step : Step S κ ν ε) (mayFail : Prop) : S → List (κ × ν) → Prop where
  | done {s s' : S} : step s = (none, s') → Yields step mayFail s []
  | item {s s' : S} {a : κ × ν} {l : List (κ × ν)} :
      step s = (some (.ok a), s') → Yields step mayFail s' l → Yields step mayFail s (a :: l)
  | fail {s s' : S} {e : ε} {l : List (κ × ν)} :
      mayFail → step s = (some (.error e), s') → Yields step mayFail s l

section Heap

variable [LinearOrder κ]

/-- Take an item with a smallest key from the heap. Of several with the same key the first one is
taken, where a binary heap promises no order. The results below speak of any smallest one
(`popMin_spec`). -/
def popMin : List (Item κ ν) → Option (Item κ ν × List (Item κ ν))
  | [] => none
  | x :: xs =>
      match popMin xs with
      | none => some (x, [])
      | some (y, ys) => if x.key ≤ y.key then some (x, xs) else some (y, x :: ys)

theorem popMin_eq_none {heap : List (Item κ ν)} : popMin heap = none ↔ heap = [] := by
  cases heap with
  | nil => exact iff_of_true rfl rfl
  | cons x xs =>
      refine iff_of_false ?_ (List.cons_ne_nil x xs)
      unfold popMin
      split
      · simp
      · split <;> simp

/-- The item taken is a smallest one, and the others stay. -/
theorem popMin_spec {heap rest : List (Item κ ν)} {x : Item κ ν}
    (h : popMin heap = some (x, rest)) :
    (x :: rest).Perm heap ∧ ∀ y ∈ heap, x.key ≤ y.key := by
  induction heap generalizing x rest with
  | nil => cases h
  | cons z zs ih =>
      unfold popMin at h
      split at h
      · rename_i hnone
        cases h
        rw [popMin_eq_none.mp hnone]
        exact ⟨List.Perm.refl _, by simp⟩
      · rename_i y ys hpop
        obtain ⟨hperm, hmin⟩ := ih hpop
        split at h
        · rename_i hle
          cases h
          refine ⟨List.Perm.refl _, fun u hu => ?_⟩
          rcases List.mem_cons.mp hu with rfl | hu
          · exact le_refl _
          · exact le_trans hle (hmin u hu)
        · rename_i hgt
          cases h
          refine ⟨(List.Perm.swap z x ys).trans (hperm.cons z), fun u hu => ?_⟩
          rcases List.mem_cons.mp hu with rfl | hu
          · exact le_of_lt (lt_of_not_ge hgt)
          · exact hmin u hu

/-- Ask every iterator for its first pair. -/
def fill (step : Step S κ ν ε) : Nat → List S → Except ε (List (Item κ ν) × List S)
  | _, [] => .ok ([], [])
  | i, it :: its =>
      match step it with
      | (some (.error e), _) => .error e
      | (some (.ok (key, value)), it) =>
          (fill step (i + 1) its).map fun r => (⟨key, value, i⟩ :: r.1, it :: r.2)
      | (none, it) => (fill step (i + 1) its).map fun r => (r.1, it :: r.2)

/-- A merge iterator over iterators. -/
def new (step : Step S κ ν ε) (iters : List S) : Except ε (State S κ ν) :=
  (fill step 0 iters).map fun r => ⟨r.1, r.2⟩

/-- The next pair. -/
def next (step : Step S κ ν ε) (m : State S κ ν) : Option (Except ε (κ × ν)) × State S κ ν :=
  match popMin m.heap with
  | none => (none, m)
  | some (item, heap) =>
      match m.iters[item.iterIdx]? with
      | none => (some (.ok item.pair), { m with heap })
      | some it =>
          match step it with
          | (some (.ok (key, value)), it) =>
              (some (.ok item.pair),
                ⟨⟨key, value, item.iterIdx⟩ :: heap, m.iters.set item.iterIdx it⟩)
          | (some (.error e), it) => (some (.error e), ⟨heap, m.iters.set item.iterIdx it⟩)
          | (none, it) => (some (.ok item.pair), ⟨heap, m.iters.set item.iterIdx it⟩)

/-- A step of the merge is decided by the steps of its iterators. -/
theorem next_congr {step step' : Step S κ ν ε} {m : State S κ ν}
    (h : ∀ it ∈ m.iters, step' it = step it) : next step' m = next step m := by
  unfold next
  split
  · rfl
  · split
    · rfl
    · rename_i it hit
      rw [h it (List.mem_of_getElem? hit)]

/-! ## The iterators of a merge -/

omit [LinearOrder κ] in
/-- What the steps of the iterators keep holds of all the iterators of a new merge. -/
theorem new_iters {step : Step S κ ν ε} {P : S → Prop}
    (hstep : ∀ {s r s'}, step s = (r, s') → P s → P s') {iters : List S}
    (hiters : ∀ it ∈ iters, P it) {m : State S κ ν} (h : new step iters = .ok m) :
    ∀ it ∈ m.iters, P it := by
  have hfill : ∀ (iters : List S) (i : Nat) heap iters',
      (∀ it ∈ iters, P it) → fill step i iters = .ok (heap, iters') → ∀ it ∈ iters', P it := by
    intro iters
    induction iters with
    | nil =>
        intro i heap iters' _ h
        cases h
        exact fun it hit => absurd hit List.not_mem_nil
    | cons it its ih =>
        intro i heap iters' hall h
        have hrest : ∀ {it' heap' its'}, P it' → fill step (i + 1) its = .ok (heap', its') →
            ∀ x ∈ it' :: its', P x := by
          intro it' heap' its' hit' hrun x hx
          rcases List.mem_cons.mp hx with rfl | hx
          · exact hit'
          · exact ih (i + 1) heap' its' (fun y hy => hall y (List.mem_cons_of_mem it hy)) hrun x hx
        unfold fill at h
        split at h
        · cases h
        · rename_i key value it' hit
          cases hrun : fill step (i + 1) its with
          | error e =>
              rw [hrun] at h
              cases h
          | ok r =>
              rw [hrun] at h
              cases h
              exact hrest (hstep hit (hall it List.mem_cons_self)) hrun
        · rename_i it' hit
          cases hrun : fill step (i + 1) its with
          | error e =>
              rw [hrun] at h
              cases h
          | ok r =>
              rw [hrun] at h
              cases h
              exact hrest (hstep hit (hall it List.mem_cons_self)) hrun
  unfold new at h
  cases hrun : fill step 0 iters with
  | error e =>
      rw [hrun] at h
      cases h
  | ok r =>
      rw [hrun] at h
      cases h
      exact hfill iters 0 r.1 r.2 hiters hrun

/-- What the steps of the iterators keep, a step of the merge keeps. -/
theorem next_iters {step : Step S κ ν ε} {P : S → Prop}
    (hstep : ∀ {s r s'}, step s = (r, s') → P s → P s') {m m' : State S κ ν}
    {r : Option (Except ε (κ × ν))} (h : next step m = (r, m')) (hiters : ∀ it ∈ m.iters, P it) :
    ∀ it ∈ m'.iters, P it := by
  have hset : ∀ {i it it' r}, m.iters[i]? = some it → step it = (r, it') →
      ∀ x ∈ m.iters.set i it', P x := by
    intro i it it' r hit hrun x hx
    rcases List.mem_or_eq_of_mem_set hx with hx | rfl
    · exact hiters x hx
    · exact hstep hrun (hiters it (List.mem_of_getElem? hit))
  unfold next at h
  split at h
  · cases h
    exact hiters
  · split at h
    · cases h
      exact hiters
    · rename_i it hit
      split at h <;> rename_i hrun <;> cases h <;> exact hset hit hrun

/-! ## Termination -/

/-- The size of a merge, for a size of its iterators. -/
def State.size (size : S → Nat) (m : State S κ ν) : Nat :=
  (m.iters.map size).sum + m.heap.length

omit [LinearOrder κ] in
/-- Replacing an iterator changes the sum by the difference of the two. -/
theorem sum_map_set (size : S → Nat) {iters : List S} {i : Nat} {it : S} (it' : S)
    (h : iters[i]? = some it) :
    ((iters.set i it').map size).sum + size it = (iters.map size).sum + size it' := by
  induction iters generalizing i with
  | nil => cases h
  | cons head iters ih =>
      cases i with
      | zero =>
          cases h
          simp only [List.set_cons_zero, List.map_cons, List.sum_cons]
          omega
      | succ i =>
          have hrest := ih h
          simp only [List.set_cons_succ, List.map_cons, List.sum_cons]
          omega

/-- A merge of iterators that get smaller gets smaller with every pair it returns. -/
theorem size_next_lt {step : Step S κ ν ε} {size : S → Nat}
    (hitem : ∀ {s a s'}, step s = (some (.ok a), s') → size s' < size s)
    (hdone : ∀ {s s'}, step s = (none, s') → size s' ≤ size s) {m m' : State S κ ν} {a : κ × ν}
    (h : next step m = (some (.ok a), m')) : m'.size size < m.size size := by
  unfold next at h
  split at h
  · cases h
  · rename_i item heap hpop
    have hheap : heap.length + 1 = m.heap.length := (popMin_spec hpop).1.length_eq
    unfold State.size
    split at h
    · cases h
      show (m.iters.map size).sum + heap.length < _
      omega
    · rename_i it hit
      split at h
      · rename_i key value it' hstep
        have hset := sum_map_set size it' hit
        have hlt := hitem hstep
        cases h
        show ((m.iters.set item.iterIdx it').map size).sum + (heap.length + 1) < _
        omega
      · cases h
      · rename_i it' hstep
        have hset := sum_map_set size it' hit
        have hle := hdone hstep
        cases h
        show ((m.iters.set item.iterIdx it').map size).sum + heap.length < _
        omega

/-! ## What a merge returns -/

/-- The pairs that remain: the items in the heap, each with what its iterator has yet to return. -/
def remaining (pending : List (Item κ ν × List (κ × ν))) : List (κ × ν) :=
  pending.flatMap fun p => p.1.pair :: p.2

/-- The invariant: the heap holds the items of `pending`, each of another iterator, and an item is
followed by the larger pairs that its iterator has yet to return. -/
structure Inv (step : Step S κ ν ε) (mayFail : Prop) (m : State S κ ν)
    (pending : List (Item κ ν × List (κ × ν))) : Prop where
  heap : m.heap.Perm (pending.map Prod.fst)
  index : (pending.map fun p => p.1.iterIdx).Nodup
  tails : ∀ p ∈ pending, (∃ it, m.iters[p.1.iterIdx]? = some it ∧ Yields step mayFail it p.2) ∧
    (p.1.pair :: p.2).Pairwise fun a b => a.1 ≤ b.1

variable {step : Step S κ ν ε} {mayFail : Prop}

omit [LinearOrder κ] in
theorem remaining_perm {p q : List (Item κ ν × List (κ × ν))} (h : p.Perm q) :
    (remaining p).Perm (remaining q) := h.flatMap_right _

/-- The order of the pending items does not matter. -/
theorem Inv.perm {m : State S κ ν} {p q : List (Item κ ν × List (κ × ν))}
    (h : Inv step mayFail m p) (hpq : p.Perm q) : Inv step mayFail m q where
  heap := h.heap.trans (hpq.map _)
  index := (hpq.map _).nodup_iff.mp h.index
  tails x hx := h.tails x (hpq.mem_iff.mpr hx)

/-- The invariant at the start: every iterator yields a sorted list. -/
theorem fill_spec {iters : List S} {lists : List (List (κ × ν))}
    (h : List.Forall₂ (Yields step mayFail) iters lists)
    (hsorted : ∀ l ∈ lists, l.Pairwise fun a b => a.1 ≤ b.1) (i : Nat) (before : List S)
    (hbefore : before.length = i) :
    (∃ heap iters' pending, fill step i iters = .ok (heap, iters') ∧
      Inv step mayFail ⟨heap, before ++ iters'⟩ pending ∧ (∀ p ∈ pending, i ≤ p.1.iterIdx) ∧
      (remaining pending).Perm lists.flatten) ∨
    (mayFail ∧ ∃ e, fill step i iters = .error e) := by
  induction h generalizing i before with
  | nil => exact .inl ⟨[], [], [], rfl, ⟨List.Perm.refl _, List.nodup_nil, by simp⟩, by simp,
      List.Perm.refl _⟩
  | @cons it l its ls hyields _ ih =>
      have hrest : ∀ it', (∃ heap iters' pending, fill step (i + 1) its = .ok (heap, iters') ∧
          Inv step mayFail ⟨heap, before ++ it' :: iters'⟩ pending ∧
          (∀ p ∈ pending, i + 1 ≤ p.1.iterIdx) ∧ (remaining pending).Perm ls.flatten) ∨
          (mayFail ∧ ∃ e, fill step (i + 1) its = .error e) := by
        intro it'
        rcases ih (fun x hx => hsorted x (List.mem_cons_of_mem l hx)) (i + 1) (before ++ [it'])
          (by simp [hbefore]) with ⟨heap, iters', pending, hfill, hinv, hrest⟩ | hfail
        · rw [List.append_assoc, List.singleton_append] at hinv
          exact .inl ⟨heap, iters', pending, hfill, hinv, hrest⟩
        · exact .inr hfail
      have hl := hsorted l List.mem_cons_self
      cases hyields with
      | @done _ it' hstep =>
          rcases hrest it' with ⟨heap, iters', pending, hfill, hinv, hidx, hperm⟩ | ⟨hmay, e, hfill⟩
          · refine .inl ⟨heap, it' :: iters', pending, ?_, hinv,
              fun p hp => Nat.le_of_succ_le (hidx p hp), by simpa using hperm⟩
            simp only [fill, hstep, hfill, Except.map]
          · exact .inr ⟨hmay, e, by simp only [fill, hstep, hfill, Except.map]⟩
      | @item _ it' a l hstep hyields =>
          rcases hrest it' with ⟨heap, iters', pending, hfill, hinv, hidx, hperm⟩ | ⟨hmay, e, hfill⟩
          · refine .inl ⟨⟨a.1, a.2, i⟩ :: heap, it' :: iters', (⟨a.1, a.2, i⟩, l) :: pending, ?_,
              ?_, ?_, ?_⟩
            · simp only [fill, hstep, hfill, Except.map]
            · refine ⟨hinv.heap.cons _, List.nodup_cons.mpr ⟨?_, hinv.index⟩, fun p hp => ?_⟩
              · intro hmem
                obtain ⟨p, hp, heq⟩ := List.mem_map.mp hmem
                have hle := hidx p hp
                simp only at heq
                omega
              · rcases List.mem_cons.mp hp with rfl | hp
                · refine ⟨⟨it', ?_, hyields⟩, hl⟩
                  simp [← hbefore]
                · exact hinv.tails p hp
            · intro p hp
              rcases List.mem_cons.mp hp with rfl | hp
              · exact Nat.le_refl _
              · exact Nat.le_of_succ_le (hidx p hp)
            · simpa [remaining, Item.pair] using (hperm.append_left l).cons a
          · exact .inr ⟨hmay, e, by simp only [fill, hstep, hfill, Except.map]⟩
      | @fail _ it' e _ hmay hstep => exact .inr ⟨hmay, e, by simp only [fill, hstep]⟩

/-- A merge of iterators that yield sorted lists begins with all their pairs remaining. -/
theorem new_spec {iters : List S} {lists : List (List (κ × ν))}
    (h : List.Forall₂ (Yields step mayFail) iters lists)
    (hsorted : ∀ l ∈ lists, l.Pairwise fun a b => a.1 ≤ b.1) :
    (∃ m pending, new step iters = .ok m ∧ Inv step mayFail m pending ∧
      (remaining pending).Perm lists.flatten) ∨ (mayFail ∧ ∃ e, new step iters = .error e) := by
  rcases fill_spec h hsorted 0 [] rfl with ⟨heap, iters', pending, hfill, hinv, _, hperm⟩ |
    ⟨hmay, e, hfill⟩
  · exact .inl ⟨⟨heap, iters'⟩, pending, by simp only [new, hfill, Except.map], hinv, hperm⟩
  · exact .inr ⟨hmay, e, by simp only [new, hfill, Except.map]⟩

/-- Nothing remains, or the next pair is a smallest one of those that remain, or an iterator
fails. -/
theorem Inv.next {m : State S κ ν} {pending : List (Item κ ν × List (κ × ν))}
    (h : Inv step mayFail m pending) :
    (remaining pending = [] ∧ next step m = (none, m)) ∨
    (∃ a m' pending', next step m = (some (.ok a), m') ∧ Inv step mayFail m' pending' ∧
      (a :: remaining pending').Perm (remaining pending) ∧ ∀ x ∈ remaining pending, a.1 ≤ x.1) ∨
    (mayFail ∧ ∃ e m', next step m = (some (.error e), m')) := by
  cases hpop : popMin m.heap with
  | none =>
      have hheap : m.heap = [] := popMin_eq_none.mp hpop
      have hempty : pending = [] := by
        have hperm := h.heap
        rw [hheap] at hperm
        exact List.map_eq_nil_iff.mp hperm.nil_eq.symm
      refine .inl ⟨by rw [hempty]; rfl, ?_⟩
      simp only [Merge.next, hpop]
  | some r =>
      obtain ⟨item, heap⟩ := r
      obtain ⟨hperm, hmin⟩ := popMin_spec hpop
      -- the item popped is pending; put it in front
      have hitem : item ∈ pending.map Prod.fst :=
        h.heap.mem_iff.mp (hperm.mem_iff.mp List.mem_cons_self)
      obtain ⟨⟨item', tail⟩, hmem, rfl⟩ := List.mem_map.mp hitem
      obtain ⟨pre, post, rfl⟩ := List.append_of_mem hmem
      have hfront : (pre ++ (item', tail) :: post).Perm ((item', tail) :: (pre ++ post)) :=
        List.perm_middle
      have hinv := h.perm hfront
      obtain ⟨⟨it, hit, hyields⟩, hsorted⟩ := hinv.tails _ List.mem_cons_self
      have hheap : heap.Perm ((pre ++ post).map Prod.fst) :=
        (hperm.trans hinv.heap).cons_inv
      obtain ⟨hfresh, hindex⟩ := List.nodup_cons.mp hinv.index
      have hlt : item'.iterIdx < m.iters.length := (List.getElem?_eq_some_iff.mp hit).1
      -- the other iterators are where they were
      have htails : ∀ it', ∀ p ∈ pre ++ post,
          (∃ it, (m.iters.set item'.iterIdx it')[p.1.iterIdx]? = some it ∧
            Yields step mayFail it p.2) ∧
            (p.1.pair :: p.2).Pairwise fun a b => a.1 ≤ b.1 := by
        intro it' p hp
        have hne : item'.iterIdx ≠ p.1.iterIdx :=
          fun heq => hfresh (List.mem_map.mpr ⟨p, hp, heq.symm⟩)
        rw [List.getElem?_set_ne hne]
        exact hinv.tails p (List.mem_cons_of_mem _ hp)
      have hsmallest : ∀ x ∈ remaining (pre ++ (item', tail) :: post), item'.pair.1 ≤ x.1 := by
        intro x hx
        obtain ⟨p, hp, hxp⟩ := List.mem_flatMap.mp hx
        have hhead : item'.key ≤ p.1.key :=
          hmin p.1 (h.heap.mem_iff.mpr (List.mem_map_of_mem hp))
        rcases List.mem_cons.mp hxp with rfl | hxp
        · exact hhead
        · exact le_trans hhead ((List.pairwise_cons.mp (h.tails p hp).2).1 x hxp)
      cases hyields with
      | @done _ it' hstep =>
          refine .inr (.inl ⟨item'.pair, ⟨heap, m.iters.set item'.iterIdx it'⟩, pre ++ post, ?_,
            ⟨hheap, hindex, htails it'⟩, ?_, hsmallest⟩)
          · simp only [Merge.next, hpop, hit, hstep]
          · exact (remaining_perm hfront).symm
      | @item _ it' a tail hstep hyields =>
          refine .inr (.inl ⟨item'.pair,
            ⟨⟨a.1, a.2, item'.iterIdx⟩ :: heap, m.iters.set item'.iterIdx it'⟩,
            (⟨a.1, a.2, item'.iterIdx⟩, tail) :: (pre ++ post), ?_,
            ⟨hheap.cons _, List.nodup_cons.mpr ⟨hfresh, hindex⟩, fun p hp => ?_⟩, ?_, hsmallest⟩)
          · simp only [Merge.next, hpop, hit, hstep]
          · rcases List.mem_cons.mp hp with rfl | hp
            · refine ⟨⟨it', ?_, hyields⟩, (List.pairwise_cons.mp hsorted).2⟩
              rw [List.getElem?_set_self hlt]
            · exact htails it' p hp
          · exact (remaining_perm hfront).symm
      | @fail _ it' e _ hmay hstep =>
          refine .inr (.inr ⟨hmay, e, ⟨heap, m.iters.set item'.iterIdx it'⟩, ?_⟩)
          simp only [Merge.next, hpop, hit, hstep]

/-- A merge of iterators that do not fail returns all the pairs that remain, smallest first. -/
theorem Inv.yields {m : State S κ ν} {pending : List (Item κ ν × List (κ × ν))}
    (h : Inv step False m pending) :
    ∃ out, Yields (Merge.next step) False m out ∧ out.Perm (remaining pending) ∧
      out.Pairwise fun a b => a.1 ≤ b.1 := by
  -- by induction on the number of pairs that remain
  generalize hcount : (remaining pending).length = count
  induction count generalizing m pending with
  | zero =>
      have hnil : remaining pending = [] := List.length_eq_zero_iff.mp hcount
      rcases h.next with ⟨_, hnext⟩ | ⟨a, m', pending', _, _, hperm, _⟩ | ⟨hfalse, _⟩
      · exact ⟨[], .done hnext, by rw [hnil], List.Pairwise.nil⟩
      · rw [hnil] at hperm
        exact absurd hperm.symm.nil_eq.symm (List.cons_ne_nil _ _)
      · exact hfalse.elim
  | succ count ih =>
      rcases h.next with ⟨hnil, _⟩ | ⟨a, m', pending', hnext, hinv, hperm, hmin⟩ | ⟨hfalse, _⟩
      · rw [hnil] at hcount
        cases hcount
      · have hlen : (remaining pending').length = count := by
          have hlen := hperm.length_eq
          rw [List.length_cons] at hlen
          omega
        obtain ⟨out, hyields, hout, hsorted⟩ := ih hinv hlen
        refine ⟨a :: out, .item hnext hyields, (hout.cons a).trans hperm,
          List.pairwise_cons.mpr ⟨fun x hx => ?_, hsorted⟩⟩
        exact hmin x (hperm.mem_iff.mp (List.mem_cons_of_mem a (hout.mem_iff.mp hx)))
      · exact hfalse.elim

/-! ## Merges of other iterators -/

omit [LinearOrder κ] in
/-- The iterator has returned the pairs of a list. -/
inductive Returns (step : Step S κ ν ε) (s : S) : List (κ × ν) → S → Prop where
  | start : Returns step s [] s
  | item {l : List (κ × ν)} {s' s'' : S} {a : κ × ν} :
      Returns step s l s' → step s' = (some (.ok a), s'') → Returns step s (l ++ [a]) s''

variable {T : Type} {step' : Step T κ ν ε}

omit [LinearOrder κ] in
/-- Iterators of the second kind do what related ones of the first kind do, as long as these do not
fail. -/
structure Follows (step : Step S κ ν ε) (step' : Step T κ ν ε) (R : S → T → Prop) : Prop where
  none : ∀ {s s' t}, R s t → step s = (none, s') → ∃ t', step' t = (none, t') ∧ R s' t'
  item : ∀ {s a s' t}, R s t → step s = (some (.ok a), s') →
    ∃ t', step' t = (some (.ok a), t') ∧ R s' t'

omit [LinearOrder κ] in
/-- Merges with the same heap over related iterators. -/
structure Alike (R : S → T → Prop) (m : State S κ ν) (m' : State T κ ν) : Prop where
  heap : m'.heap = m.heap
  iters : List.Forall₂ R m.iters m'.iters

variable {R : S → T → Prop}

omit [LinearOrder κ] in
/-- Filling the heap from related iterators. -/
theorem fill_follows (hR : Follows step step' R) {iters : List S} {iters' : List T}
    (h : List.Forall₂ R iters iters') {i : Nat} {heap : List (Item κ ν)} {after : List S}
    (hfill : fill step i iters = .ok (heap, after)) :
    ∃ after', fill step' i iters' = .ok (heap, after') ∧ List.Forall₂ R after after' := by
  induction h generalizing i heap after with
  | nil =>
      cases hfill
      exact ⟨[], rfl, .nil⟩
  | @cons s t its its' hst _ ih =>
      unfold fill at hfill
      split at hfill
      · cases hfill
      · rename_i key value s' hstep
        obtain ⟨t', hstep', hst'⟩ := hR.item hst hstep
        cases hrun : fill step (i + 1) its with
        | error e =>
            rw [hrun] at hfill
            cases hfill
        | ok r =>
            rw [hrun] at hfill
            cases hfill
            obtain ⟨after', hafter, hall⟩ := ih hrun
            exact ⟨t' :: after', by simp only [fill, hstep', hafter, Except.map], .cons hst' hall⟩
      · rename_i s' hstep
        obtain ⟨t', hstep', hst'⟩ := hR.none hst hstep
        cases hrun : fill step (i + 1) its with
        | error e =>
            rw [hrun] at hfill
            cases hfill
        | ok r =>
            rw [hrun] at hfill
            cases hfill
            obtain ⟨after', hafter, hall⟩ := ih hrun
            exact ⟨t' :: after', by simp only [fill, hstep', hafter, Except.map], .cons hst' hall⟩

omit [LinearOrder κ] in
/-- A new merge of related iterators. -/
theorem new_follows (hR : Follows step step' R) {iters : List S} {iters' : List T}
    (h : List.Forall₂ R iters iters') {m : State S κ ν} (hnew : new step iters = .ok m) :
    ∃ m', new step' iters' = .ok m' ∧ Alike R m m' := by
  unfold new at hnew
  cases hrun : fill step 0 iters with
  | error e =>
      rw [hrun] at hnew
      cases hnew
  | ok r =>
      rw [hrun] at hnew
      cases hnew
      obtain ⟨after', hafter, hall⟩ := fill_follows hR h hrun
      exact ⟨⟨r.1, after'⟩, by simp only [new, hafter, Except.map], rfl, hall⟩

omit [LinearOrder κ] in
/-- Related iterators at a position are replaced by related ones. -/
theorem forall₂_set {ss : List S} {ts : List T} (h : List.Forall₂ R ss ts) (i : Nat) {s : S} {t : T}
    (hst : R s t) : List.Forall₂ R (ss.set i s) (ts.set i t) := by
  induction h generalizing i with
  | nil => exact .nil
  | cons hfirst hrest ih =>
      cases i with
      | zero => exact .cons hst hrest
      | succ i => exact .cons hfirst (ih i)

omit [LinearOrder κ] in
/-- Related lists have related elements at a position. -/
theorem forall₂_getElem? {ss : List S} {ts : List T} (h : List.Forall₂ R ss ts) (i : Nat) :
    (ss[i]? = none ∧ ts[i]? = none) ∨ ∃ s t, ss[i]? = some s ∧ ts[i]? = some t ∧ R s t := by
  induction h generalizing i with
  | nil => exact .inl ⟨rfl, rfl⟩
  | @cons s t _ _ hfirst _ ih =>
      cases i with
      | zero => exact .inr ⟨s, t, rfl, rfl, hfirst⟩
      | succ i => exact ih i

/-- A merge does what a merge of related iterators does, as long as that one does not fail. -/
theorem follows_next (hR : Follows step step' R) :
    Follows (Merge.next step) (Merge.next step') (Alike R) := by
  constructor
  · intro m m₁ m' hm hnext
    unfold Merge.next at hnext ⊢
    rw [hm.heap]
    cases hpop : popMin m.heap with
    | none =>
        rw [hpop] at hnext
        cases hnext
        exact ⟨m', rfl, hm⟩
    | some r =>
        rw [hpop] at hnext
        simp only at hnext
        split at hnext
        · cases hnext
        · split at hnext <;> cases hnext
  · intro m a m₁ m' hm hnext
    unfold Merge.next at hnext ⊢
    rw [hm.heap]
    cases hpop : popMin m.heap with
    | none =>
        rw [hpop] at hnext
        cases hnext
    | some r =>
        rw [hpop] at hnext
        simp only at hnext ⊢
        rcases forall₂_getElem? hm.iters r.1.iterIdx with ⟨hs, ht⟩ | ⟨s, t, hs, ht, hst⟩
        · rw [hs] at hnext
          rw [ht]
          cases hnext
          exact ⟨_, rfl, rfl, hm.iters⟩
        · rw [hs] at hnext
          rw [ht]
          simp only at hnext ⊢
          split at hnext
          · rename_i key value s' hstep
            obtain ⟨t', hstep', hst'⟩ := hR.item hst hstep
            rw [hstep']
            cases hnext
            exact ⟨_, rfl, rfl, forall₂_set hm.iters _ hst'⟩
          · cases hnext
          · rename_i s' hstep
            obtain ⟨t', hstep', hst'⟩ := hR.none hst hstep
            rw [hstep']
            cases hnext
            exact ⟨_, rfl, rfl, forall₂_set hm.iters _ hst'⟩

end Heap

end EasyLsm.Lib.Merge
