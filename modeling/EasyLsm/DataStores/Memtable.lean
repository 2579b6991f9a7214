import Mathlib.Data.List.Basic
import Mathlib.Data.List.Nodup
import EasyLsm.Lib.SortedMap
import EasyLsm.DataStores.Entry

/-!
# Memtables

`Memtable` of `data_stores/memtable.rs`: a `SkipMap` from keys to values with a running size.
Because the key order puts the newest version of a user key first, `Memtable::get` scans the range
from `(k, u64::MAX)` to `(k, 0)` and takes the first entry. A tombstone is reported like an absent
key. `get_newest`: what it takes is the newest version that was inserted, in whatever order.
-/

namespace EasyLsm

open Lib

/-- The type states of a memtable. -/
inductive MemState where
  | mutable
  | immutable
  deriving DecidableEq, Repr

/-- `Memtable<State>`. -/
structure Memtable (st : MemState) where
  store : SortedMap Key Value
  sizeBytes : Nat

namespace Memtable

variable {st : MemState}

/-- `Memtable::new`. -/
def new : Memtable .mutable := ⟨.empty, 0⟩

/-- `Memtable::recover`: count the entry's size and insert it. -/
def recover (m : Memtable .mutable) (key : Key) (value : Value) : Memtable .mutable where
  store := m.store.insert key value
  sizeBytes := m.sizeBytes + (Key.serializedHeaderSize + key.bytes.length +
    Value.serializedHeaderSize + value.payload.length)

/-- `Memtable::put_batch`: the requests' entries in order. -/
def putBatch (m : Memtable .mutable) (reqs : List Entry) : Memtable .mutable :=
  reqs.foldl (fun m e => m.recover e.1 e.2) m

/-- `Memtable::size`. -/
def size (m : Memtable .mutable) : Nat := m.sizeBytes

/-- `Memtable::freeze`. -/
def freeze (m : Memtable .mutable) : Memtable .immutable := ⟨m.store, m.sizeBytes⟩

/-- `Memtable::freeze_from_ref`. -/
def freezeFromRef (m : Memtable .mutable) : Memtable .immutable := ⟨m.store, m.sizeBytes⟩

/-- `Memtable::iter`. -/
def iter (m : Memtable .immutable) : List Entry := m.store.entries

/-- `Memtable::get`: the first entry between `(k, u64::MAX)` and `(k, 0)`. -/
def get (m : Memtable st) (keyBytes : Bytes) : Option Value :=
  let start := Key.new keyBytes u64Max
  let «end» := Key.new keyBytes 0
  match (m.store.range start «end»).head? with
  | some entry =>
      match entry.2 with
      | .tombstone => none
      | val => some val
  | none => none

/-- The versions of `k` in a memtable, newest first. -/
def versions (m : Memtable st) (k : Bytes) : List Entry :=
  m.store.entries.filter (fun e => e.1.bytes = k)

/-- A key lies between `(k, u64::MAX)` and `(k, 0)` exactly when its bytes are `k`. -/
theorem between_iff {k : Bytes} {key : Key} :
    Key.new k u64Max ≤ key ∧ key ≤ Key.new k 0 ↔ key.bytes = k := by
  constructor
  · rintro ⟨hlo, hhi⟩
    exact Key.bytes_eq_of_between hlo hhi rfl
  · rintro rfl
    have hlo : (Key.new key.bytes u64Max).bytes = key.bytes := rfl
    have hhi : key.bytes = (Key.new key.bytes 0).bytes := rfl
    exact ⟨(Key.le_iff_of_bytes_eq hlo).mpr (le_u64Max _),
      (Key.le_iff_of_bytes_eq hhi).mpr UInt64.zero_le⟩

/-- The range scan of `get` finds exactly the versions of the key. -/
theorem range_eq_versions (m : Memtable st) (k : Bytes) :
    m.store.range (Key.new k u64Max) (Key.new k 0) = m.versions k := by
  unfold SortedMap.range versions
  congr 1
  funext e
  exact decide_eq_decide.mpr between_iff

/-- `get` reports the newest version, and a tombstone like an absent key. -/
theorem get_eq (m : Memtable st) (k : Bytes) :
    m.get k = ((m.versions k).head?.map Prod.snd).filter (· ≠ .tombstone) := by
  simp only [get, range_eq_versions]
  cases (m.versions k).head? with
  | none => rfl
  | some entry =>
      obtain ⟨key, value⟩ := entry
      cases value <;> rfl

/-- The entries after `recover`: the new one, and the others with another key. -/
theorem mem_recover {m : Memtable .mutable} {key : Key} {value : Value} {e : Entry} :
    e ∈ (m.recover key value).store.entries ↔
      e = (key, value) ∨ (e ∈ m.store.entries ∧ e.1 ≠ key) :=
  SortedMap.mem_insert

/-- A memtable holds an entry once. -/
theorem nodup_entries (m : Memtable st) : m.store.entries.Nodup := by
  refine m.store.sorted.imp fun {a b} hlt heq => ?_
  rw [heq] at hlt
  exact lt_irrefl _ hlt

/-- A batch is inserted entry by entry. -/
theorem putBatch_concat (m : Memtable .mutable) (reqs : List Entry) (e : Entry) :
    m.putBatch (reqs ++ [e]) = (m.putBatch reqs).recover e.1 e.2 := by
  rw [putBatch, List.foldl_append]
  rfl

/-- A memtable holds only what was inserted into it. -/
theorem mem_of_mem_putBatch {reqs : List Entry} {e : Entry}
    (h : e ∈ (new.putBatch reqs).store.entries) : e ∈ reqs := by
  induction reqs using List.reverseRecOn with
  | nil => exact absurd h List.not_mem_nil
  | append_singleton reqs x ih =>
      rw [putBatch_concat, mem_recover] at h
      rcases h with rfl | ⟨h, _⟩
      · exact List.mem_append_right reqs (List.mem_singleton.mpr rfl)
      · exact List.mem_append_left [x] (ih h)

@[simp] theorem store_freezeFromRef (m : Memtable .mutable) :
    m.freezeFromRef.store = m.store := rfl

@[simp] theorem versions_freezeFromRef (m : Memtable .mutable) (k : Bytes) :
    m.freezeFromRef.versions k = m.versions k := rfl

/-! ## Any order of insertions -/

/-- A call that inserts entries. -/
inductive Insertion where
  | recover (key : Key) (value : Value)
  | putBatch (reqs : List Entry)

/-- The entries that a call inserts. -/
def Insertion.entries : Insertion → List Entry
  | recover key value => [(key, value)]
  | putBatch reqs => reqs

/-- Run a call. -/
def Insertion.run (m : Memtable .mutable) : Insertion → Memtable .mutable
  | recover key value => m.recover key value
  | putBatch reqs => m.putBatch reqs

/-- Run calls on a new memtable. -/
def insertAll (calls : List Insertion) : Memtable .mutable := calls.foldl Insertion.run new

/-- The version of `k` with the highest LSN, the last one of several with that LSN. -/
def newestVersion (k : Bytes) (es : List Entry) : Option Entry :=
  es.foldl (fun newest e =>
    if e.1.bytes = k ∧ newest.all (fun n => n.1.lsn ≤ e.1.lsn) then some e else newest) none

/-- What `get` reports of the newest version. -/
def reported (newest : Option Entry) : Option Value := (newest.map Prod.snd).filter (· ≠ .tombstone)

/-- Calls insert their entries one after the other. -/
theorem insertAll_eq (calls : List Insertion) :
    insertAll calls = new.putBatch (calls.flatMap Insertion.entries) := by
  have hrun : ∀ (m : Memtable .mutable) (call : Insertion),
      call.run m = m.putBatch call.entries := by
    intro m call
    cases call <;> rfl
  have hall : ∀ m : Memtable .mutable,
      calls.foldl Insertion.run m = m.putBatch (calls.flatMap Insertion.entries) := by
    induction calls with
    | nil => exact fun m => rfl
    | cons call calls ih =>
        intro m
        rw [List.foldl_cons, ih, hrun, List.flatMap_cons]
        exact (List.foldl_append ..).symm
  exact hall new

theorem newestVersion_concat (k : Bytes) (es : List Entry) (e : Entry) :
    newestVersion k (es ++ [e]) =
      if e.1.bytes = k ∧ (newestVersion k es).all (fun n => n.1.lsn ≤ e.1.lsn) then some e
      else newestVersion k es := by
  rw [newestVersion, List.foldl_concat]
  rfl

/-- The version of a key with the highest LSN is the first one. -/
theorem head?_versions {m : Memtable st} {k : Bytes} {e : Entry} (he : e ∈ m.store.entries)
    (hk : e.1.bytes = k) (hmax : ∀ x ∈ m.store.entries, x.1.bytes = k → x.1.lsn ≤ e.1.lsn) :
    (m.versions k).head? = some e := by
  have hmem : e ∈ m.versions k := List.mem_filter.mpr ⟨he, decide_eq_true hk⟩
  have hsorted : (m.versions k).Pairwise fun a b => a.1 < b.1 :=
    m.store.sorted.sublist List.filter_sublist
  cases hversions : m.versions k with
  | nil =>
      rw [hversions] at hmem
      cases hmem
  | cons first rest =>
      rw [hversions] at hmem hsorted
      rcases List.mem_cons.mp hmem with rfl | hrest
      · rfl
      · -- the first entry would be a newer version
        have hfirst : first ∈ m.versions k := hversions ▸ List.mem_cons_self
        obtain ⟨hfirst, hbytes⟩ := List.mem_filter.mp hfirst
        have hbytes : first.1.bytes = k := of_decide_eq_true hbytes
        have hlt : first.1 < e.1 := (List.pairwise_cons.mp hsorted).1 e hrest
        have hle : e.1 ≤ first.1 :=
          (Key.le_iff_of_bytes_eq (hk.trans hbytes.symm)).mpr (hmax first hfirst hbytes)
        exact absurd hlt (not_lt.mpr hle)

/-- The newest version of the inserted entries is the first one in the memtable. -/
theorem head?_versions_putBatch (k : Bytes) (es : List Entry) :
    ((new.putBatch es).versions k).head? = newestVersion k es := by
  induction es using List.reverseRecOn with
  | nil => rfl
  | append_singleton es e ih =>
      rw [putBatch_concat, newestVersion_concat]
      have hmem := @mem_recover (new.putBatch es) e.1 e.2
      -- the entries of before that have the key
      have hold : ∀ {x}, newestVersion k es = some x →
          (x ∈ (new.putBatch es).store.entries ∧ x.1.bytes = k) ∧
          ∀ y ∈ (new.putBatch es).store.entries, y.1.bytes = k → y.1.lsn ≤ x.1.lsn := by
        intro x hx
        rw [← ih] at hx
        obtain ⟨rest, hversions⟩ : ∃ rest, (new.putBatch es).versions k = x :: rest :=
          ⟨_, List.eq_cons_of_mem_head? hx⟩
        have hfirst : x ∈ (new.putBatch es).versions k := hversions ▸ List.mem_cons_self
        obtain ⟨hin, hbytes⟩ := List.mem_filter.mp hfirst
        have hbytes : x.1.bytes = k := of_decide_eq_true hbytes
        refine ⟨⟨hin, hbytes⟩, fun y hy hyk => ?_⟩
        have hyv : y ∈ x :: rest := hversions ▸ List.mem_filter.mpr ⟨hy, decide_eq_true hyk⟩
        rcases List.mem_cons.mp hyv with rfl | hrest
        · exact UInt64.le_refl _
        · have hsorted : (x :: rest).Pairwise fun a b => a.1 < b.1 :=
            hversions ▸ (new.putBatch es).store.sorted.sublist List.filter_sublist
          have hlt := (List.pairwise_cons.mp hsorted).1 y hrest
          exact (Key.le_iff_of_bytes_eq (hbytes.trans hyk.symm)).mp (le_of_lt hlt)
      have hnone : newestVersion k es = none →
          ∀ y ∈ (new.putBatch es).store.entries, y.1.bytes ≠ k := by
        intro hx y hy hyk
        rw [← ih, List.head?_eq_none_iff] at hx
        have hyv : y ∈ (new.putBatch es).versions k := List.mem_filter.mpr ⟨hy, decide_eq_true hyk⟩
        rw [hx] at hyv
        cases hyv
      split
      · -- the new entry is the newest
        rename_i hnewer
        obtain ⟨hk, hall⟩ := hnewer
        refine head?_versions (hmem.mpr (.inl rfl)) hk fun y hy hyk => ?_
        rcases hmem.mp hy with rfl | ⟨hy, _⟩
        · exact UInt64.le_refl _
        · cases hx : newestVersion k es with
          | none => exact absurd hyk (hnone hx y hy)
          | some x =>
              rw [hx] at hall
              exact UInt64.le_trans ((hold hx).2 y hy hyk) (of_decide_eq_true hall)
      · rename_i hother
        cases hx : newestVersion k es with
        | none =>
            have hne : e.1.bytes ≠ k := fun hk => hother ⟨hk, by rw [hx]; rfl⟩
            rw [List.head?_eq_none_iff, versions, List.filter_eq_nil_iff]
            intro y hy
            rw [decide_eq_true_eq]
            rcases hmem.mp hy with rfl | ⟨hy, _⟩
            · exact hne
            · exact hnone hx y hy
        | some x =>
            obtain ⟨⟨hin, hbytes⟩, hmax⟩ := hold hx
            have hless : e.1.bytes = k → e.1.lsn < x.1.lsn := by
              intro hk
              refine UInt64.not_le.mp fun hle => hother ⟨hk, ?_⟩
              rw [hx]
              exact decide_eq_true hle
            refine head?_versions (hmem.mpr (.inr ⟨hin, fun heq => ?_⟩)) hbytes fun y hy hyk => ?_
            · have hlt := hless (by rw [← heq, hbytes])
              rw [heq] at hlt
              exact absurd hlt (UInt64.lt_irrefl _)
            · rcases hmem.mp hy with rfl | ⟨hy, _⟩
              · exact UInt64.le_of_lt (hless hyk)
              · exact hmax y hy hyk

/-- Entries with different keys are all there. -/
theorem mem_putBatch {es : List Entry} (h : (es.map Prod.fst).Nodup) {e : Entry} :
    e ∈ (new.putBatch es).store.entries ↔ e ∈ es := by
  induction es using List.reverseRecOn with
  | nil => exact iff_of_false List.not_mem_nil List.not_mem_nil
  | append_singleton es x ih =>
      rw [List.map_append, List.nodup_append] at h
      obtain ⟨hnodup, _, hother⟩ := h
      have hne : e ∈ es → e.1 ≠ x.1 :=
        fun he => hother e.1 (List.mem_map_of_mem he) x.1 (List.mem_singleton_self _)
      rw [putBatch_concat, mem_recover, ih hnodup, List.mem_append, List.mem_singleton]
      constructor
      · rintro (rfl | ⟨he, _⟩)
        · exact .inr rfl
        · exact .inl he
      · rintro (he | rfl)
        · exact .inr ⟨he, hne he⟩
        · exact .inl rfl

/-- Entries with different keys can be inserted in any order. -/
theorem store_putBatch_perm {es es' : List Entry} (h : (es.map Prod.fst).Nodup)
    (hperm : es'.Perm es) : (new.putBatch es').store.entries = (new.putBatch es).store.entries := by
  have hsame : (new.putBatch es').store.entries.Perm (new.putBatch es).store.entries := by
    refine (List.perm_ext_iff_of_nodup (nodup_entries _) (nodup_entries _)).mpr fun e => ?_
    rw [mem_putBatch h, mem_putBatch ((hperm.map Prod.fst).nodup_iff.mpr h), hperm.mem_iff]
  refine hsame.eq_of_pairwise (fun a b _ _ hab hba => ?_) (new.putBatch es').store.sorted
    (new.putBatch es).store.sorted
  exact absurd hab (lt_asymm hba)

/-- After any sequence of insertions `get` returns the value of the newest version of a key, also
from a frozen memtable. When no two entries have the same key bytes and LSN, the order of the
insertions does not matter. -/
theorem get_newest (calls : List Insertion) :
    (∀ k, (insertAll calls).get k =
        reported (newestVersion k (calls.flatMap Insertion.entries)) ∧
      (insertAll calls).freeze.get k = (insertAll calls).get k ∧
      (insertAll calls).freezeFromRef.get k = (insertAll calls).get k) ∧
    (((calls.flatMap Insertion.entries).map Prod.fst).Nodup → ∀ calls' : List Insertion,
      (calls'.flatMap Insertion.entries).Perm (calls.flatMap Insertion.entries) →
      ∀ k, (insertAll calls').get k = (insertAll calls).get k) := by
  refine ⟨fun k => ⟨?_, rfl, rfl⟩, fun hnodup calls' hperm k => ?_⟩
  · rw [insertAll_eq, get_eq, head?_versions_putBatch]
    rfl
  · have hentries := store_putBatch_perm hnodup hperm
    rw [insertAll_eq, insertAll_eq, get_eq, get_eq, versions, versions, hentries]

theorem get_newest_two : ∀ k,
    (insertAll [.putBatch [(Key.new [97] 2, .tombstone)],
        .recover (Key.new [97] 1) (.int 5)]).get k =
      (insertAll [.recover (Key.new [97] 1) (.int 5),
        .putBatch [(Key.new [97] 2, .tombstone)]]).get k :=
  (get_newest [.recover (Key.new [97] 1) (.int 5),
    .putBatch [(Key.new [97] 2, .tombstone)]]).2 (by decide) _ (List.Perm.swap _ _ _)

/-- A prefix of a key, another value under the same LSN, and a deleted key. -/
example : (insertAll [.recover (Key.new [97] 1) (.int 5), .recover (Key.new [97, 0] 9) (.int 6),
    .recover (Key.new [97] 1) (.int 7), .recover (Key.new [] 3) .tombstone]).get [97] =
      some (.int 7) := by
  decide

end Memtable

end EasyLsm
