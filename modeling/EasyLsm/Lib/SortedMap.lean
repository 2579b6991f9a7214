import Mathlib.Data.List.Basic
import Mathlib.Data.List.Sort
import Mathlib.Order.Defs.LinearOrder

/-!
# Sorted maps

A map kept as the list of its entries in strictly increasing key order, with insertion that
replaces the entry of an equal key and with inclusive range scans. The order of the entries is
a field of the structure.
-/

namespace EasyLsm.Lib

variable {K V : Type} [LinearOrder K]

/-- Insert into a list of entries in key order, replacing the entry of an equal key. -/
def insertEntry (k : K) (v : V) : List (K × V) → List (K × V)
  | [] => [(k, v)]
  | (k', v') :: rest =>
      if k < k' then (k, v) :: (k', v') :: rest
      else if k = k' then (k, v) :: rest
      else (k', v') :: insertEntry k v rest

/-- What `insertEntry` leaves in the list: the new entry, and the others with another key. -/
theorem mem_insertEntry {k : K} {v : V} {l : List (K × V)}
    (h : l.Pairwise (fun a b => a.1 < b.1)) (e : K × V) :
    e ∈ insertEntry k v l ↔ e = (k, v) ∨ (e ∈ l ∧ e.1 ≠ k) := by
  induction l with
  | nil => simp [insertEntry]
  | cons head rest ih =>
      obtain ⟨k', v'⟩ := head
      rw [List.pairwise_cons] at h
      have hrest : ∀ x ∈ rest, k' < x.1 := h.1
      simp only [insertEntry]
      split
      · rename_i hlt
        have hne : ∀ x ∈ (k', v') :: rest, x.1 ≠ k := by
          rintro x hx rfl
          rcases List.mem_cons.mp hx with rfl | hx
          · exact lt_irrefl _ hlt
          · exact lt_irrefl _ (hlt.trans (hrest x hx))
        simp only [List.mem_cons]
        constructor
        · rintro (rfl | hx)
          · exact .inl rfl
          · exact .inr ⟨hx, hne e (List.mem_cons.mpr hx)⟩
        · rintro (rfl | ⟨hx, _⟩)
          · exact .inl rfl
          · exact .inr hx
      · split
        · rename_i heq
          subst heq
          have hne : ∀ x ∈ rest, x.1 ≠ k := fun x hx hxk => lt_irrefl _ (hxk ▸ hrest x hx)
          simp only [List.mem_cons]
          constructor
          · rintro (rfl | hx)
            · exact .inl rfl
            · exact .inr ⟨.inr hx, hne e hx⟩
          · rintro (rfl | ⟨rfl | hx, hk⟩)
            · exact .inl rfl
            · exact absurd rfl hk
            · exact .inr hx
        · rename_i hlt heq
          simp only [List.mem_cons, ih h.2]
          constructor
          · rintro (rfl | rfl | ⟨hx, hk⟩)
            · exact .inr ⟨.inl rfl, fun h => heq h.symm⟩
            · exact .inl rfl
            · exact .inr ⟨.inr hx, hk⟩
          · rintro (rfl | ⟨rfl | hx, hk⟩)
            · exact .inr (.inl rfl)
            · exact .inl rfl
            · exact .inr (.inr ⟨hx, hk⟩)

/-- Insertion keeps the key order. -/
theorem insertEntry_sorted {k : K} {v : V} {l : List (K × V)}
    (h : l.Pairwise (fun a b => a.1 < b.1)) :
    (insertEntry k v l).Pairwise (fun a b => a.1 < b.1) := by
  induction l with
  | nil => simp [insertEntry]
  | cons head rest ih =>
      obtain ⟨k', v'⟩ := head
      have hcons := List.pairwise_cons.mp h
      simp only [insertEntry]
      split
      · rename_i hlt
        refine List.pairwise_cons.mpr ⟨fun x hx => ?_, h⟩
        rcases List.mem_cons.mp hx with rfl | hx
        · exact hlt
        · exact hlt.trans (hcons.1 x hx)
      · split
        · rename_i heq
          subst heq
          exact List.pairwise_cons.mpr ⟨hcons.1, hcons.2⟩
        · rename_i hlt heq
          refine List.pairwise_cons.mpr ⟨fun x hx => ?_, ih hcons.2⟩
          rcases (mem_insertEntry hcons.2 x).mp hx with rfl | ⟨hx, _⟩
          · exact lt_of_le_of_ne (not_lt.mp hlt) (fun h => heq h.symm)
          · exact hcons.1 x hx

/-- A map as its entries in strictly increasing key order. -/
structure SortedMap (K V : Type) [LinearOrder K] where
  entries : List (K × V)
  sorted : entries.Pairwise (fun a b => a.1 < b.1)

namespace SortedMap

/-- The map without entries. -/
def empty : SortedMap K V := ⟨[], List.Pairwise.nil⟩

/-- Insert an entry, replacing the one with an equal key. -/
def insert (m : SortedMap K V) (k : K) (v : V) : SortedMap K V :=
  ⟨insertEntry k v m.entries, insertEntry_sorted m.sorted⟩

/-- The entries whose key lies between `lo` and `hi`, both included, in key order. -/
def range (m : SortedMap K V) (lo hi : K) : List (K × V) :=
  m.entries.filter (fun e => lo ≤ e.1 ∧ e.1 ≤ hi)

@[simp] theorem entries_empty : (empty : SortedMap K V).entries = [] := rfl

/-- The entries after an insertion. -/
theorem mem_insert {m : SortedMap K V} {k : K} {v : V} {e : K × V} :
    e ∈ (m.insert k v).entries ↔ e = (k, v) ∨ (e ∈ m.entries ∧ e.1 ≠ k) :=
  mem_insertEntry m.sorted e

end SortedMap

end EasyLsm.Lib
