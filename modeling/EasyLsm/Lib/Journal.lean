import Mathlib.Data.List.Induction
import Mathlib.Logic.Function.Basic
import Mathlib.Order.Basic
import EasyLsm.Lib.Versions

/-!
# Journals

Memories with numbered logs. What is written goes into the active memory and behind its log. A
rotation freezes the memory and goes on with an empty one and the log of the next number, a flush
stores what the frozen memories hold and drops their logs, and a restart fills the memories from the
logs and takes the sequence number behind the last record of the active log.

Nothing makes a rotation advance the next number. `Aligned`, every memory has a log of its own and
holds what is in it, is kept by a rotation exactly when the next number is above those in use, and
`Sequenced`, the sequence numbers increase, is kept by a restart exactly when the active log has a
record or there is none at all.
-/

namespace EasyLsm.Lib

open Versions Versioned

/-- A memory into which versions are inserted. -/
class Buffer (M : Type) (E : outParam Type) {κ : outParam Type} [Versioned E κ] where
  empty : M
  insert : M → E → M
  entries : M → List E
  entries_empty : entries empty = []
  of_mem_insert {m : M} {e x : E} : x ∈ entries (insert m e) → x = e ∨ x ∈ entries m
  mem_insert {m : M} {e x : E} : x = e ∨ x ∈ entries m ∧ seq x ≠ seq e → x ∈ entries (insert m e)

/-- The frozen memories and the active one, each with the number of its log, the logs, what was
stored, and the counters. -/
structure Journal (Id M E : Type) where
  old : List Id
  frozen : List M
  active : Id
  memory : M
  log : Id → List E
  stored : List E
  next : Id
  seq : Nat

namespace Journal

open Buffer

variable {Id M E κ : Type} [LinearOrder Id] [Versioned E κ] [Buffer M E] {j : Journal Id M E}
  {writes : List E}

/-- The memory that is filled from a log. -/
def replay (es : List E) : M := es.foldl insert empty

/-- The sequence number of the last record, 0 when there is none. -/
def lastSeq (es : List E) : Nat := (es.getLast?.map Versioned.seq).getD 0

/-- The numbers of all logs. -/
def ids (j : Journal Id M E) : List Id := j.old ++ [j.active]

/-- All memories. -/
def memories (j : Journal Id M E) : List M := j.frozen ++ [j.memory]

/-! ## Steps -/

/-- An element is written. -/
def write (j : Journal Id M E) (e : E) : Journal Id M E :=
  { j with
    memory := insert j.memory e
    log := Function.update j.log j.active (j.log j.active ++ [e])
    seq := j.seq + 1 }

/-- The active memory is frozen. A log that exists is continued. -/
def rotate (j : Journal Id M E) : Journal Id M E :=
  { j with
    old := j.ids
    frozen := j.memories
    active := j.next
    memory := empty
    log := if j.next ∈ j.ids then j.log else Function.update j.log j.next [] }

/-- The frozen memories are stored. -/
def flush (j : Journal Id M E) : Journal Id M E :=
  { j with old := [], frozen := [], stored := j.stored ++ j.frozen.flatMap entries }

/-- The memories are filled from the logs, and the counters are set. -/
def restart (j : Journal Id M E) (next : Id) : Journal Id M E :=
  { j with
    frozen := j.old.map fun i => replay (j.log i)
    memory := replay (j.log j.active)
    next
    seq := lastSeq (j.log j.active) + 1 }

/-- The empty journal. -/
def initial (active next : Id) : Journal Id M E where
  old := []
  frozen := []
  active := active
  memory := empty
  log := fun _ => []
  stored := []
  next := next
  seq := 1

theorem log_rotate_of_mem (h : j.next ∈ j.ids) : j.rotate.log = j.log := if_pos h

theorem log_rotate_of_free (h : j.next ∉ j.ids) :
    j.rotate.log = Function.update j.log j.next [] := if_neg h

/-! ## The numbers of the logs -/

/-- There is a log for every memory, and no number is above the active one, or that one above the
next. -/
structure Bounded (j : Journal Id M E) : Prop where
  length : j.old.length = j.frozen.length
  old : ∀ i ∈ j.old, i ≤ j.active
  active : j.active ≤ j.next

/-- All numbers are below the next one. -/
def Below (j : Journal Id M E) : Prop := ∀ i ∈ j.ids, i < j.next

omit [LinearOrder Id] [Versioned E κ] [Buffer M E] in
theorem mem_ids {i : Id} : i ∈ j.ids ↔ i ∈ j.old ∨ i = j.active := by
  rw [ids, List.mem_append, List.mem_singleton]

omit [LinearOrder Id] in
theorem active_mem (j : Journal Id M E) : j.active ∈ j.ids := mem_ids.mpr (.inr rfl)

omit [LinearOrder Id] [Versioned E κ] [Buffer M E] in
theorem mem_memories {m : M} : m ∈ j.memories ↔ m ∈ j.frozen ∨ m = j.memory := by
  rw [memories, List.mem_append, List.mem_singleton]

namespace Bounded

theorem le_active (h : j.Bounded) {i : Id} (hi : i ∈ j.ids) : i ≤ j.active := by
  rcases mem_ids.mp hi with hi | rfl
  · exact h.old i hi
  · exact le_refl _

/-- The next number is in use only as the active one. -/
theorem next_mem_iff (h : j.Bounded) : j.next ∈ j.ids ↔ j.next = j.active := by
  constructor
  · exact fun hmem => le_antisymm (h.le_active hmem) h.active
  · exact fun heq => heq ▸ j.active_mem

theorem below_iff (h : j.Bounded) : j.Below ↔ j.next ∉ j.ids := by
  constructor
  · exact fun hbelow hmem => lt_irrefl _ (hbelow _ hmem)
  · intro hmem i hi
    refine lt_of_le_of_lt (h.le_active hi) (lt_of_le_of_ne h.active fun heq => ?_)
    exact hmem (heq ▸ j.active_mem)

theorem write (h : j.Bounded) (e : E) : (j.write e).Bounded := ⟨h.length, h.old, h.active⟩

theorem rotate (h : j.Bounded) : j.rotate.Bounded where
  length := by
    show (j.old ++ [j.active]).length = (j.frozen ++ [j.memory]).length
    rw [List.length_append, List.length_append, h.length]
    rfl
  old i hi := le_trans (h.le_active hi) h.active
  active := le_refl _

theorem flush (h : j.Bounded) : j.flush.Bounded :=
  ⟨rfl, fun _ hi => absurd hi List.not_mem_nil, h.active⟩

theorem restart (h : j.Bounded) {next : Id} (hnext : ∀ i ∈ j.ids, i < next) :
    (j.restart next).Bounded := ⟨(List.length_map _).symm, h.old, le_of_lt (hnext _ j.active_mem)⟩

end Bounded

/-- After a rotation the next number is in use. -/
theorem not_below_rotate (j : Journal Id M E) : ¬ j.rotate.Below :=
  fun h => lt_irrefl _ (h _ j.rotate.active_mem)

theorem below_flush_iff (h : j.Bounded) : j.flush.Below ↔ j.Below := by
  constructor
  · exact fun hbelow i hi => lt_of_le_of_lt (h.le_active hi) (hbelow _ j.flush.active_mem)
  · intro hbelow i hi
    rcases mem_ids.mp hi with hi | rfl
    · exact absurd hi List.not_mem_nil
    · exact hbelow _ j.active_mem

/-! ## Memories and their logs -/

/-- The numbers increase, and every memory holds what is in its log. -/
structure Aligned (j : Journal Id M E) : Prop where
  increasing : j.ids.Pairwise (· < ·)
  memories : j.memories = j.ids.map fun i => replay (j.log i)

theorem replay_concat (es : List E) (e : E) : (replay (es ++ [e]) : M) = insert (replay es) e := by
  rw [replay, List.foldl_append]
  rfl

namespace Aligned

theorem initial {active next : Id} : (initial active next : Journal Id M E).Aligned :=
  ⟨List.pairwise_singleton _ _, rfl⟩

/-- The logs of the frozen memories are not the active one. -/
theorem ne_active (h : j.Aligned) {i : Id} (hi : i ∈ j.old) : i ≠ j.active :=
  ne_of_lt ((List.pairwise_append.mp h.increasing).2.2 i hi _ (List.mem_singleton_self _))

/-- Memory by memory. -/
theorem memories_iff (h : j.Bounded) : j.memories = (j.ids.map fun i => replay (j.log i)) ↔
    j.frozen = (j.old.map fun i => replay (j.log i)) ∧ j.memory = replay (j.log j.active) := by
  unfold Journal.memories ids
  rw [List.map_append]
  constructor
  · intro heq
    obtain ⟨hfrozen, hmemory⟩ := List.append_inj heq (by rw [List.length_map, h.length])
    exact ⟨hfrozen, List.head_eq_of_cons_eq hmemory⟩
  · rintro ⟨hfrozen, hmemory⟩
    rw [← hfrozen, hmemory]
    rfl

theorem write (h : j.Aligned) (hbounded : j.Bounded) (e : E) : (j.write e).Aligned := by
  obtain ⟨hfrozen, hmemory⟩ := (memories_iff hbounded).mp h.memories
  refine ⟨h.increasing, (memories_iff (hbounded.write e)).mpr ⟨hfrozen.trans ?_, ?_⟩⟩
  · refine List.map_congr_left fun i hi => ?_
    show replay (j.log i) = replay (Function.update j.log j.active _ i)
    rw [Function.update_of_ne (h.ne_active hi)]
  · show insert j.memory e =
      replay (Function.update j.log j.active (j.log j.active ++ [e]) j.active)
    rw [Function.update_self, replay_concat, hmemory]

/-- The numbers increase behind a rotation only when the next one is above them. -/
theorem below_of_increasing (h : j.rotate.ids.Pairwise (· < ·)) : j.Below :=
  fun i hi => (List.pairwise_append.mp h).2.2 i hi _ (List.mem_singleton_self _)

/-- A rotation to a free number keeps the memories aligned. -/
theorem rotate (h : j.Aligned) (hbounded : j.Bounded) (hbelow : j.Below) : j.rotate.Aligned := by
  have hlog := log_rotate_of_free (hbounded.below_iff.mp hbelow)
  refine ⟨?_, (memories_iff hbounded.rotate).mpr ⟨h.memories.trans ?_, ?_⟩⟩
  · refine List.pairwise_append.mpr ⟨h.increasing, List.pairwise_singleton _ _, fun i hi k hk => ?_⟩
    rw [List.mem_singleton.mp hk]
    exact hbelow i hi
  · refine List.map_congr_left fun i hi => ?_
    rw [hlog, Function.update_of_ne (ne_of_lt (hbelow i hi))]
  · show empty = replay (j.rotate.log j.next)
    rw [hlog, Function.update_self]
    rfl

theorem flush (h : j.Aligned) (hbounded : j.Bounded) : j.flush.Aligned :=
  ⟨List.pairwise_singleton _ _, (memories_iff hbounded.flush).mpr
    ⟨rfl, ((memories_iff hbounded).mp h.memories).2⟩⟩

theorem restart (h : j.Aligned) (next : Id) : (j.restart next).Aligned := by
  refine ⟨h.increasing, ?_⟩
  show _ = (j.old ++ [j.active]).map _
  rw [List.map_append]
  rfl

end Aligned

/-! ## Sequence numbers -/

/-- The element is in a log or stored. -/
def Recorded (j : Journal Id M E) (e : E) : Prop := (∃ i ∈ j.ids, e ∈ j.log i) ∨ e ∈ j.stored

/-- The active log has a record, or there is none at all. -/
def LastRecorded (j : Journal Id M E) : Prop := j.log j.active ≠ [] ∨ ∀ e, ¬ j.Recorded e

/-- What was written is recorded, with increasing sequence numbers below the next one. -/
structure Sequenced (j : Journal Id M E) (writes : List E) : Prop where
  pos : 0 < j.seq
  recorded : ∀ e, j.Recorded e → 0 < Versioned.seq e ∧ Versioned.seq e < j.seq
  logs : ∀ i ∈ j.ids, (j.log i).Pairwise fun a b => Versioned.seq a < Versioned.seq b
  last : ∀ e, (j.log j.active).getLast? = some e → Versioned.seq e + 1 = j.seq
  frozen : ∀ m ∈ j.frozen, ∀ e ∈ entries m, ∃ i ∈ j.ids, e ∈ j.log i
  memory : ∀ e ∈ entries j.memory, e ∈ j.log j.active
  kept : ∀ e ∈ writes, (∃ m ∈ j.memories, e ∈ entries m) ∨ e ∈ j.stored
  increasing : writes.Pairwise fun a b => Versioned.seq a < Versioned.seq b

/-- What is replayed was in the log. -/
theorem mem_of_mem_replay {es : List E} {e : E} (h : e ∈ entries (replay es : M)) : e ∈ es := by
  induction es using List.reverseRecOn with
  | nil =>
      rw [show (replay [] : M) = empty from rfl, entries_empty] at h
      cases h
  | append_singleton es x ih =>
      rw [replay_concat] at h
      rcases of_mem_insert h with rfl | h
      · exact List.mem_append_right es (List.mem_singleton_self e)
      · exact List.mem_append_left [x] (ih h)

/-- Records with different sequence numbers are all replayed. -/
theorem mem_replay {es : List E} (h : es.Pairwise fun a b => Versioned.seq a < Versioned.seq b)
    {e : E}
    (he : e ∈ es) : e ∈ entries (replay es : M) := by
  induction es using List.reverseRecOn with
  | nil => cases he
  | append_singleton es x ih =>
      obtain ⟨hes, _, hlast⟩ := List.pairwise_append.mp h
      rw [replay_concat]
      refine mem_insert ?_
      rcases List.mem_append.mp he with he | he
      · exact .inr ⟨ih hes he, ne_of_lt (hlast e he x (List.mem_singleton_self x))⟩
      · exact .inl (List.mem_singleton.mp he)

namespace Sequenced

section

omit [LinearOrder Id]

theorem initial {active next : Id} : (initial active next : Journal Id M E).Sequenced [] where
  pos := Nat.one_pos
  recorded e he := by
    rcases he with ⟨_, _, he⟩ | he <;> exact absurd he List.not_mem_nil
  logs _ _ := .nil
  last _ he := by cases he
  frozen _ hm := absurd hm List.not_mem_nil
  memory e he := by
    rw [show (Journal.initial active next : Journal Id M E).memory = empty from rfl,
      entries_empty] at he
    exact absurd he List.not_mem_nil
  kept _ he := absurd he List.not_mem_nil
  increasing := .nil

/-- What a memory holds is recorded. -/
theorem recorded_of_mem (h : j.Sequenced writes) {m : M} (hm : m ∈ j.memories) {e : E}
    (he : e ∈ entries m) : j.Recorded e := by
  rcases mem_memories.mp hm with hm | rfl
  · exact .inl (h.frozen m hm e he)
  · exact .inl ⟨j.active, j.active_mem, h.memory e he⟩

/-- What was written is recorded. -/
theorem recorded_write (h : j.Sequenced writes) {e : E} (he : e ∈ writes) : j.Recorded e := by
  rcases h.kept e he with ⟨m, hm, he⟩ | he
  · exact h.recorded_of_mem hm he
  · exact .inr he

/-- A flush stores what the frozen memories hold. -/
theorem flush (h : j.Sequenced writes) : j.flush.Sequenced writes := by
  have hids : ∀ {i}, i ∈ j.flush.ids → i ∈ j.ids := by
    intro i hi
    rcases mem_ids.mp hi with hi | rfl
    · exact absurd hi List.not_mem_nil
    · exact j.active_mem
  refine ⟨h.pos, fun x hx => ?_, fun i hi => h.logs i (hids hi), h.last,
    fun _ hm => absurd hm List.not_mem_nil, h.memory, fun x hx => ?_, h.increasing⟩
  · refine h.recorded x ?_
    rcases hx with ⟨i, hi, hx⟩ | hx
    · exact .inl ⟨i, hids hi, hx⟩
    · rcases List.mem_append.mp hx with hx | hx
      · exact .inr hx
      · obtain ⟨m, hm, hx⟩ := List.mem_flatMap.mp hx
        exact h.recorded_of_mem (mem_memories.mpr (.inl hm)) hx
  · rcases h.kept x hx with ⟨m, hm, hxm⟩ | hx
    · rcases mem_memories.mp hm with hm | rfl
      · exact .inr (List.mem_append_right _ (List.mem_flatMap.mpr ⟨m, hm, hxm⟩))
      · exact .inl ⟨j.memory, mem_memories.mpr (.inr rfl), hxm⟩
    · exact .inr (List.mem_append_left _ hx)

/-- The sequence number that a restart takes is above what is recorded exactly when the last log has
a record, or there is none. -/
theorem lastSeq_iff (h : j.Sequenced writes) :
    (∀ e, j.Recorded e → Versioned.seq e < lastSeq (j.log j.active) + 1) ↔ j.LastRecorded := by
  constructor
  · intro hless
    by_contra hnot
    obtain ⟨hnil, hrecorded⟩ := not_or.mp hnot
    have hzero : lastSeq (j.log j.active) = 0 := by
      rw [not_not.mp hnil]
      rfl
    refine hrecorded fun e he => ?_
    have hlt := hless e he
    have hpos := (h.recorded e he).1
    omega
  · intro hlast e he
    rcases hlast with hne | hnone
    · have hseq := h.last _ (List.getLast?_eq_some_getLast hne)
      have hless := (h.recorded e he).2
      have heq : lastSeq (j.log j.active) = Versioned.seq ((j.log j.active).getLast hne) := by
        rw [lastSeq, List.getLast?_eq_some_getLast hne]
        rfl
      omega
    · exact absurd he (hnone e)

/-- A restart fills the memories again. -/
theorem restart (h : j.Sequenced writes) (hlast : j.LastRecorded) (next : Id) :
    (j.restart next).Sequenced writes := by
  have hreplayed : ∀ {i e}, i ∈ j.ids → e ∈ j.log i →
      ∃ m ∈ (j.restart next).memories, e ∈ entries m := by
    intro i e hi he
    have hmem := mem_replay (M := M) (h.logs i hi) he
    refine ⟨_, mem_memories.mpr ?_, hmem⟩
    rcases mem_ids.mp hi with hi | rfl
    · exact .inl (List.mem_map_of_mem hi)
    · exact .inr rfl
  refine ⟨Nat.succ_pos _, fun e he => ⟨(h.recorded e he).1, h.lastSeq_iff.mpr hlast e he⟩, h.logs,
    fun e he => ?_,
    fun m hm e he => ?_, fun e he => mem_of_mem_replay he, fun e he => ?_, h.increasing⟩
  · have he : (j.log j.active).getLast? = some e := he
    show _ = lastSeq (j.log j.active) + 1
    rw [lastSeq, he]
    rfl
  · obtain ⟨i, hi, rfl⟩ := List.mem_map.mp hm
    exact ⟨i, mem_ids.mpr (.inl hi), mem_of_mem_replay he⟩
  · rcases h.recorded_write he with ⟨i, hi, he⟩ | he
    · exact .inl (hreplayed hi he)
    · exact .inr he

end

/-- An element is written with the next sequence number. -/
theorem write (h : j.Sequenced writes) {e : E} (he : Versioned.seq e = j.seq) :
    (j.write e).Sequenced (writes ++ [e]) := by
  have hlog : ∀ {i x}, x ∈ (j.write e).log i → x ∈ j.log i ∨ i = j.active ∧ x = e := by
    intro i x hx
    by_cases hi : i = j.active
    · subst hi
      have hx : x ∈ Function.update j.log j.active (j.log j.active ++ [e]) j.active := hx
      rw [Function.update_self, List.mem_append, List.mem_singleton] at hx
      exact hx.imp_right fun hx => ⟨rfl, hx⟩
    · have hx : x ∈ Function.update j.log j.active (j.log j.active ++ [e]) i := hx
      rw [Function.update_of_ne hi] at hx
      exact .inl hx
  have hsub : ∀ {i x}, x ∈ j.log i → x ∈ (j.write e).log i := by
    intro i x hx
    show x ∈ Function.update j.log j.active (j.log j.active ++ [e]) i
    by_cases hi : i = j.active
    · subst hi
      rw [Function.update_self]
      exact List.mem_append_left _ hx
    · rwa [Function.update_of_ne hi]
  have hactive : (j.write e).log j.active = j.log j.active ++ [e] := Function.update_self ..
  have hold : ∀ x, j.Recorded x → Versioned.seq x < j.seq := fun x hx => (h.recorded x hx).2
  have hpos := h.pos
  refine ⟨Nat.succ_pos _, fun x hx => ?_, fun i hi => ?_, fun x hx => ?_, fun m hm x hx => ?_,
    fun x hx => ?_, fun x hx => ?_, ?_⟩
  · show 0 < Versioned.seq x ∧ Versioned.seq x < j.seq + 1
    have hcases : j.Recorded x ∨ x = e := by
      rcases hx with ⟨i, hi, hx⟩ | hx
      · rcases hlog hx with hx | ⟨_, rfl⟩
        · exact .inl (.inl ⟨i, hi, hx⟩)
        · exact .inr rfl
      · exact .inl (.inr hx)
    rcases hcases with hx | rfl
    · have hless := h.recorded x hx
      omega
    · omega
  · by_cases heq : i = j.active
    · subst heq
      rw [hactive]
      refine List.pairwise_append.mpr
        ⟨h.logs _ hi, List.pairwise_singleton _ _, fun a ha b hb => ?_⟩
      rw [List.mem_singleton.mp hb, he]
      exact hold a (.inl ⟨_, hi, ha⟩)
    · show (Function.update j.log j.active (j.log j.active ++ [e]) i).Pairwise _
      rw [Function.update_of_ne heq]
      exact h.logs i hi
  · have hx : ((j.write e).log j.active).getLast? = some x := hx
    rw [hactive, List.getLast?_concat] at hx
    rw [← Option.some.inj hx, he]
    rfl
  · obtain ⟨i, hi, hx⟩ := h.frozen m hm x hx
    exact ⟨i, hi, hsub hx⟩
  · show x ∈ (j.write e).log j.active
    rw [hactive, List.mem_append, List.mem_singleton]
    exact (of_mem_insert hx).symm.imp_left (h.memory x)
  · rcases List.mem_append.mp hx with hx | hx
    · refine (h.kept x hx).imp_left fun ⟨m, hm, hxm⟩ => ?_
      rcases mem_memories.mp hm with hm | rfl
      · exact ⟨m, mem_memories.mpr (.inl hm), hxm⟩
      · refine ⟨insert j.memory e, mem_memories.mpr (.inr rfl), mem_insert (.inr ⟨hxm, ?_⟩)⟩
        rw [he]
        exact ne_of_lt (hold x (h.recorded_write hx))
    · rw [List.mem_singleton.mp hx]
      exact .inl ⟨insert j.memory e, mem_memories.mpr (.inr rfl), mem_insert (.inl rfl)⟩
  · refine List.pairwise_append.mpr ⟨h.increasing, List.pairwise_singleton _ _, fun a ha b hb => ?_⟩
    rw [List.mem_singleton.mp hb, he]
    exact hold a (h.recorded_write ha)

/-- A rotation writes to no log. -/
theorem rotate (h : j.Sequenced writes) (hbounded : j.Bounded) : j.rotate.Sequenced writes := by
  have hnext : (j.rotate.log j.next = [] ∧ j.next ∉ j.ids) ∨ j.next = j.active := by
    by_cases hmem : j.next ∈ j.ids
    · exact .inr (hbounded.next_mem_iff.mp hmem)
    · exact .inl ⟨by rw [log_rotate_of_free hmem, Function.update_self], hmem⟩
  have hsame : ∀ i ∈ j.ids, j.rotate.log i = j.log i := by
    intro i hi
    by_cases hmem : j.next ∈ j.ids
    · rw [log_rotate_of_mem hmem]
    · rw [log_rotate_of_free hmem, Function.update_of_ne]
      rintro rfl
      exact hmem hi
  have hlog : ∀ i ∈ j.rotate.ids, i ∈ j.ids ∧ j.rotate.log i = j.log i ∨ j.rotate.log i = [] := by
    intro i hi
    rcases mem_ids.mp hi with hi | rfl
    · exact .inl ⟨hi, hsame i hi⟩
    · rcases hnext with ⟨hnil, _⟩ | heq
      · exact .inr hnil
      · have hactive : j.rotate.active ∈ j.ids := mem_ids.mpr (.inr heq)
        exact .inl ⟨hactive, hsame _ hactive⟩
  refine ⟨h.pos, fun x hx => h.recorded x ?_, fun i hi => ?_, fun x hx => ?_, fun m hm x hx => ?_,
    fun x hx => ?_, fun x hx => ?_, h.increasing⟩
  · refine hx.imp_left fun ⟨i, hi, hx⟩ => ?_
    rcases hlog i hi with ⟨hi, heq⟩ | hnil
    · exact ⟨i, hi, heq ▸ hx⟩
    · rw [hnil] at hx
      cases hx
  · rcases hlog i hi with ⟨hi, heq⟩ | hnil
    · rw [heq]
      exact h.logs i hi
    · rw [hnil]
      exact .nil
  · rcases hnext with ⟨hnil, _⟩ | heq
    · rw [show j.rotate.log j.rotate.active = [] from hnil] at hx
      cases hx
    · refine h.last x ?_
      rw [← hsame _ j.active_mem, ← heq]
      exact hx
  · have hx : ∃ i ∈ j.ids, x ∈ j.log i := by
      rcases mem_memories.mp hm with hm | rfl
      · exact h.frozen m hm x hx
      · exact ⟨j.active, j.active_mem, h.memory x hx⟩
    obtain ⟨i, hi, hx⟩ := hx
    exact ⟨i, mem_ids.mpr (.inl hi), (hsame i hi).symm ▸ hx⟩
  · rw [show j.rotate.memory = empty from rfl, entries_empty] at hx
    cases hx
  · refine (h.kept x hx).imp_left fun ⟨m, hm, hxm⟩ => ⟨m, mem_memories.mpr (.inl hm), hxm⟩

end Sequenced

/-! ## What is recorded -/

theorem recorded_write {e x : E} (h : (j.write e).Recorded x) : j.Recorded x ∨ x = e := by
  rcases h with ⟨i, hi, hx⟩ | hx
  · have hx : x ∈ Function.update j.log j.active (j.log j.active ++ [e]) i := hx
    by_cases heq : i = j.active
    · subst heq
      rw [Function.update_self, List.mem_append, List.mem_singleton] at hx
      exact hx.imp_left fun hx => .inl ⟨_, hi, hx⟩
    · rw [Function.update_of_ne heq] at hx
      exact .inl (.inl ⟨i, hi, hx⟩)
  · exact .inl (.inr hx)

omit [LinearOrder Id] in
/-- A flush stores what was in the logs. -/
theorem recorded_flush (h : j.Sequenced writes) {x : E} (hx : j.flush.Recorded x) :
    j.Recorded x := by
  rcases hx with ⟨i, hi, hx⟩ | hx
  · rcases mem_ids.mp hi with hi | rfl
    · exact absurd hi List.not_mem_nil
    · exact .inl ⟨_, j.active_mem, hx⟩
  · rcases List.mem_append.mp hx with hx | hx
    · exact .inr hx
    · obtain ⟨m, hm, hx⟩ := List.mem_flatMap.mp hx
      exact h.recorded_of_mem (mem_memories.mpr (.inl hm)) hx

/-- A rotation records nothing. -/
theorem recorded_rotate {x : E} (h : j.rotate.Recorded x) : j.Recorded x := by
  refine h.imp_left fun ⟨i, hi, hx⟩ => ?_
  by_cases hmem : j.next ∈ j.ids
  · rw [log_rotate_of_mem hmem] at hx
    rcases mem_ids.mp hi with hi | rfl
    · exact ⟨i, hi, hx⟩
    · exact ⟨j.next, hmem, hx⟩
  · rw [log_rotate_of_free hmem] at hx
    by_cases heq : i = j.next
    · rw [heq, Function.update_self] at hx
      cases hx
    · rw [Function.update_of_ne heq] at hx
      exact ⟨i, (mem_ids.mp hi).resolve_right heq, hx⟩

end Journal

end EasyLsm.Lib
