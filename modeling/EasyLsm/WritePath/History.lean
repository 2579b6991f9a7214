import Mathlib.Data.List.Basic
import EasyLsm.WritePath.Machine

/-!
# The write path with a record of its groups

The state of the write path does not keep the groups that were formed, the batches they became,
or whose entry each entry of a log or a memtable is. `History` is the state with a record of these,
and `History.step` is the step of the write path that keeps the record. A record restricts nothing:
every step of the write path is a step here (`step_of_sys`), and the states of the recorded runs are
the states of the runs (`sys_of_reach`, `reach_of_sys`). In every run the record agrees with the
data: `Ledger` says that the log files and the memtables hold what they held at the start and then,
in order, the entries recorded for them.
-/

namespace EasyLsm.WritePath

open Lib

/-- The write path and its record: the requests in the order they were pushed on `write_queue`,
the groups with their leaders, the batches with their leaders in ticket order, the entries
appended to the logs and inserted into the memtables, in order, each with its log or memtable.
`before` and `memBefore` are what the log files held when the record began, and what the memtables
held then or when they were put in place. -/
structure History where
  sys : Sys
  queued : List Nat
  groups : List (Nat × List Nat)
  batches : List (Nat × Batch)
  appends : List (WalHandle × (Nat × Entry))
  inserts : List (Nat × (Nat × Entry))
  before : UInt32 → List Entry
  memBefore : Nat → List Entry

namespace History

/-- The log whose file a step appends to. -/
def target (s : Sys) : Label → Option WalHandle
  | .writeWal r _ =>
      match s.phase r with
      | .walLoaded _ wal => some wal
      | _ => none
  | .dropWal wal _ => some wal
  | _ => none

/-- The entry a step inserts, with its memtable. -/
def insertion (s : Sys) : Label → Option (Nat × (Nat × Entry))
  | .insert r =>
      match s.phase r with
      | .inserting _ mem (m :: _) => some (mem, m)
      | _ => none
  | _ => none

/-- The entries a step from `s` to `s'` appends, with their log. -/
def appendedBy (s s' : Sys) (l : Label) : List (WalHandle × (Nat × Entry)) :=
  match target s l with
  | some wal => (s'.appended.drop s.appended.length).map (wal, ·)
  | none => []

/-- Keep the record of a step from `h` to `s'`. -/
def record (h : History) (l : Label) (s' : Sys) : History where
  sys := s'
  queued :=
    match l with
    | .queue r => h.queued ++ [r]
    | _ => h.queued
  groups :=
    match l with
    | .checkFront r => h.groups ++ [(r, h.sys.syncs.writeQueue)]
    | _ => h.groups
  batches :=
    match l with
    | .takeTicket r =>
        match s'.phase r with
        | .walTicket b => h.batches ++ [(r, b)]
        | _ => h.batches
    | _ => h.batches
  appends := h.appends ++ appendedBy h.sys s' l
  inserts := h.inserts ++ (insertion h.sys l).toList
  before := h.before
  memBefore :=
    match l with
    | .storeRotation _ => Function.update h.memBefore h.sys.nextMem []
    | _ => h.memBefore

/-- One step of the write path, recorded. -/
def step (maxMemtableSize : Nat) (h : History) (l : Label) : Option History :=
  (WritePath.step maxMemtableSize h.sys l).map (h.record l)

/-- A record begins when nothing is running, and no `BufWriter` holds anything back. -/
structure Start (h : History) : Prop where
  sys : WritePath.Start h.sys
  appended : h.sys.appended = []
  buffered : ∀ wal, h.sys.buffered wal = []
  walAllocated : h.sys.current.mutableWal.mem < h.sys.nextMem
  queued : h.queued = []
  groups : h.groups = []
  batches : h.batches = []
  appends : h.appends = []
  inserts : h.inserts = []
  before : h.before = h.sys.walFile
  memBefore : h.memBefore = h.sys.mems

/-- The record of a state in which nothing has happened. -/
def begin (s : Sys) : History := ⟨s, [], [], [], [], [], s.walFile, s.mems⟩

theorem start_begin {s : Sys} (h : WritePath.Start s) (happended : s.appended = [])
    (hbuffered : ∀ wal, s.buffered wal = []) (hwal : s.current.mutableWal.mem < s.nextMem) :
    Start (begin s) :=
  ⟨h, happended, hbuffered, hwal, rfl, rfl, rfl, rfl, rfl, rfl, rfl⟩

/-- The record of a new database. -/
theorem start_pristine : Start (begin pristine) :=
  start_begin WritePath.start_pristine rfl (fun _ => rfl) Nat.zero_lt_one

/-- Groups are recorded when a request is queued and when the queue is drained. -/
theorem groups_record (h : History) {l : Label} (s' : Sys) (hqueue : ∀ r, l ≠ .queue r)
    (hfront : ∀ r, l ≠ .checkFront r) :
    (h.record l s').queued = h.queued ∧ (h.record l s').groups = h.groups := by
  cases l with
  | queue r => exact absurd rfl (hqueue r)
  | checkFront r => exact absurd rfl (hfront r)
  | _ => exact ⟨rfl, rfl⟩

/-- Groups are only added. -/
theorem groups_subset_record (h : History) (l : Label) (s' : Sys) :
    h.groups ⊆ (h.record l s').groups := by
  cases l with
  | checkFront r => exact List.subset_append_left _ _
  | _ => exact List.Subset.refl _

/-- Batches are recorded when a ticket is taken. -/
theorem batches_record (h : History) {l : Label} (s' : Sys) (hticket : ∀ r, l ≠ .takeTicket r) :
    (h.record l s').batches = h.batches := by
  cases l with
  | takeTicket r => exact absurd rfl (hticket r)
  | _ => rfl

variable {maxMemtableSize : Nat}

/-- A recorded step is a step. -/
theorem step_sys {h h' : History} {l : Label} (hs : h.step maxMemtableSize l = some h') :
    WritePath.step maxMemtableSize h.sys l = some h'.sys ∧ h' = h.record l h'.sys := by
  simp only [step, Option.map_eq_some_iff] at hs
  obtain ⟨s', hs', rfl⟩ := hs
  exact ⟨hs', rfl⟩

/-- Every step of the write path can be recorded. -/
theorem step_of_sys {h : History} {l : Label} {s' : Sys}
    (hs : WritePath.step maxMemtableSize h.sys l = some s') :
    h.step maxMemtableSize l = some (h.record l s') := by
  rw [step, hs, Option.map_some]

/-- The states of the recorded runs are states of the runs. -/
theorem sys_of_reach {ok : Sys → Label → Prop} {h : History}
    (hreach : Reach (step maxMemtableSize) Start (fun h l => ok h.sys l) h) :
    Reach (WritePath.step maxMemtableSize) WritePath.Start ok h.sys := by
  induction hreach with
  | start hstart => exact .start hstart.sys
  | next _ hok hs ih => exact ih.next hok (step_sys hs).1

/-- Every run can be recorded. -/
theorem reach_of_sys {init : Sys → Prop} {ok : Sys → Label → Prop} {s : Sys}
    (hinit : ∀ s, init s → Start (begin s))
    (hreach : Reach (WritePath.step maxMemtableSize) init ok s) :
    ∃ h, Reach (step maxMemtableSize) Start (fun h l => ok h.sys l) h ∧ h.sys = s := by
  induction hreach with
  | start hstart => exact ⟨begin _, .start (hinit _ hstart), rfl⟩
  | next _ hok hs ih =>
      obtain ⟨h, hreach, rfl⟩ := ih
      exact ⟨_, hreach.next hok (step_of_sys hs), rfl⟩

/-! ## The record and the data -/

/-- The entries that the record says were appended to a log file, in order. -/
def appendedTo (h : History) (wal : UInt32) : List Entry :=
  (h.appends.filter fun a => a.1.id = wal).map fun a => a.2.2

/-- The entries that the record says were inserted into a memtable, in order. -/
def insertedInto (h : History) (mem : Nat) : List Entry :=
  (h.inserts.filter fun a => a.1 = mem).map fun a => a.2.2

end History

/-- What a step does to the log files and the memtables: nothing; it appends entries to a log file;
it inserts an entry into a memtable; or it puts an empty memtable in place. -/
inductive DataStep (s s' : Sys) (l : Label) : Prop where
  | same (htarget : History.target s l = none) (hinsertion : History.insertion s l = none)
      (hstore : ∀ r, l ≠ .storeRotation r) (hfile : s'.walFile = s.walFile)
      (hmems : s'.mems = s.mems) (happended : s'.appended = s.appended)
      (hinserted : s'.inserted = s.inserted)
  | append (wal : WalHandle) (members : List (Nat × Entry))
      (htarget : History.target s l = some wal) (hinsertion : History.insertion s l = none)
      (hstore : ∀ r, l ≠ .storeRotation r)
      (hfile : s'.walFile = Function.update s.walFile wal.id
        (s.walFile wal.id ++ members.map Prod.snd))
      (hmems : s'.mems = s.mems) (happended : s'.appended = s.appended ++ members)
      (hinserted : s'.inserted = s.inserted)
  | insert (mem : Nat) (m : Nat × Entry) (htarget : History.target s l = none)
      (hinsertion : History.insertion s l = some (mem, m)) (hstore : ∀ r, l ≠ .storeRotation r)
      (hfile : s'.walFile = s.walFile)
      (hmems : s'.mems = Function.update s.mems mem (s.mems mem ++ [m.2]))
      (happended : s'.appended = s.appended) (hinserted : s'.inserted = s.inserted ++ [m])
  | place (htarget : History.target s l = none) (hinsertion : History.insertion s l = none)
      (hstore : ∃ r, l = .storeRotation r) (hfile : s'.walFile = s.walFile)
      (hmems : s'.mems = Function.update s.mems s.nextMem [])
      (happended : s'.appended = s.appended) (hinserted : s'.inserted = s.inserted)

/-- Every step does one of these. -/
theorem dataStep_of_step {maxMemtableSize : Nat} {s s' : Sys} {l : Label}
    (hs : step maxMemtableSize s l = some s') : DataStep s s' l := by
  cases l with
  | writeWal r fault =>
      simp only [step, stepWal] at hs
      split at hs
      · rename_i b wal hr
        have htarget : History.target s (.writeWal r fault) = some wal := by
          simp only [History.target, hr]
        split at hs <;> cases hs
        · exact .append wal _ htarget rfl (fun _ h => by cases h) rfl rfl rfl rfl
        · exact .append wal _ htarget rfl (fun _ h => by cases h) rfl rfl rfl rfl
      · cases hs
  | dropWal wal written =>
      simp only [step, stepWal] at hs
      split at hs <;> cases hs
      exact .append wal _ rfl rfl (fun _ h => by cases h) rfl rfl rfl rfl
  | insert r =>
      simp only [step, stepMemtable] at hs
      split at hs <;> cases hs
      · rename_i b mem m rest hr
        have hinsertion : History.insertion s (.insert r) = some (mem, m) := by
          simp only [History.insertion, hr]
        exact .insert mem m rfl hinsertion (fun _ h => by cases h) rfl rfl rfl rfl
      · rename_i b mem hr
        have hinsertion : History.insertion s (.insert r) = none := by
          simp only [History.insertion, hr]
        exact .same rfl hinsertion (fun _ h => by cases h) rfl rfl rfl rfl
  | storeRotation r =>
      simp only [step, stepRotate] at hs
      split at hs <;> cases hs
      exact .place rfl rfl ⟨r, rfl⟩ rfl rfl rfl rfl
  | _ =>
      simp only [step, stepQueue, stepWal, stepMemtable, stepRotate, stepFlush] at hs
      repeat' split at hs
      all_goals cases hs
      all_goals exact .same rfl rfl (fun _ h => by cases h) rfl rfl rfl rfl

/-- No `BufWriter` holds anything back. -/
def Sys.Flushed (s : Sys) : Prop := ∀ wal, s.buffered wal = []

/-- A log write that fails leaves nothing in its `BufWriter`. -/
def Label.keepsNothing : Label → Prop
  | .writeWal _ fault => ∀ f ∈ fault, f.kept = 0
  | _ => True

/-- A log write that does not fail leaves nothing. -/
theorem Label.keepsNothing_of_none {l : Label}
    (hl : ∀ r fault, l = .writeWal r fault → fault = none) : l.keepsNothing := by
  cases l with
  | writeWal r fault =>
      cases hl r fault rfl
      exact fun f hf => by cases hf
  | _ => trivial

/-- Nothing is held back when no log write that fails leaves anything. -/
theorem Sys.Flushed.step {maxMemtableSize : Nat} {s s' : Sys} {l : Label} (h : s.Flushed)
    (hl : l.keepsNothing) (hs : WritePath.step maxMemtableSize s l = some s') : s'.Flushed := by
  have hupdate : ∀ wal, Function.update s.buffered wal [] = s.buffered := fun wal => by
    rw [← h wal, Function.update_eq_self]
  cases l with
  | writeWal r fault =>
      simp only [WritePath.step, stepWal] at hs
      split at hs
      · rename_i b wal hr
        split at hs <;> cases hs
        · intro w
          show Function.update s.buffered wal [] w = []
          rw [hupdate]
          exact h w
        · rename_i written kept kind
          have hkept : kept = 0 := hl _ rfl
          intro w
          show Function.update s.buffered wal _ w = []
          rw [hkept, List.take_zero, hupdate]
          exact h w
      · cases hs
  | dropWal wal written =>
      simp only [WritePath.step, stepWal] at hs
      split at hs <;> cases hs
      intro w
      show Function.update s.buffered wal [] w = []
      rw [hupdate]
      exact h w
  | _ =>
      simp only [WritePath.step, stepQueue, stepWal, stepMemtable, stepRotate, stepFlush] at hs
      repeat' split at hs
      all_goals cases hs
      all_goals exact h

/-- Memtables get the numbers below the next one. -/
structure Placed (s : Sys) : Prop where
  current : s.current.mutableMemtable < s.nextMem
  inserting : ∀ r b mem rest, s.phase r = .inserting b mem rest → mem < s.nextMem
  flush : ∀ tables current, s.flush = .loaded tables current →
    current.mutableMemtable < s.nextMem

namespace Placed

variable {maxMemtableSize : Nat} {s s' : Sys}

/-- A writer moves, and no version is put in place. -/
theorem move {t : Sys} {r : Nat} {p : Phase} (h : Placed s) (hphase : t.phase = s.phase)
    (hcurrent : t.current = s.current) (hnext : t.nextMem = s.nextMem) (hflush : t.flush = s.flush)
    (hp : ∀ b mem rest, p = .inserting b mem rest → mem < s.nextMem) : Placed (t.goto r p) := by
  refine ⟨?_, fun q b mem rest hq => ?_, fun tables current ht => ?_⟩
  · show t.current.mutableMemtable < t.nextMem
    rw [hcurrent, hnext]
    exact h.current
  · show mem < t.nextMem
    rw [hnext]
    simp only [Sys.goto, hphase] at hq
    by_cases heq : q = r
    · subst heq
      rw [Function.update_self] at hq
      exact hp b mem rest hq
    · rw [Function.update_of_ne heq] at hq
      exact h.inserting q b mem rest hq
  · show current.mutableMemtable < t.nextMem
    rw [hnext]
    exact h.flush tables current (hflush ▸ ht)

theorem storeRotation {r : Nat} {b : Batch} {newWal : UInt32} {current : Version} (h : Placed s) :
    Placed ({ s with
      current := rotateVersion id s.nextMem ⟨newWal, s.nextMem⟩ current
      mems := Function.update s.mems s.nextMem []
      nextMem := s.nextMem + 1
      rotators := s.rotators.erase r }.goto r (.memtableDone b)) := by
  refine ⟨Nat.lt_succ_self _, fun q b' mem rest hq => ?_, fun tables current' ht => ?_⟩
  · simp only [Sys.goto] at hq
    by_cases heq : q = r
    · subst heq
      rw [Function.update_self] at hq
      cases hq
    · rw [Function.update_of_ne heq] at hq
      exact Nat.lt_succ_of_lt (h.inserting q b' mem rest hq)
  · exact Nat.lt_succ_of_lt (h.flush tables current' ht)

/-- A step of the flush uses the numbers of the versions it has loaded. -/
theorem stepFlush {l : Label} (h : Placed s) (hs : stepFlush s l = some s') : Placed s' := by
  cases l with
  | flushLoad =>
      simp only [WritePath.stepFlush] at hs
      split at hs <;> cases hs
      refine ⟨h.current, h.inserting, fun tables current ht => ?_⟩
      cases ht
      exact h.current
  | flushStore =>
      simp only [WritePath.stepFlush] at hs
      split at hs <;> cases hs
      rename_i tables current hflush
      refine ⟨?_, h.inserting, fun tables' current' ht => by cases ht⟩
      show current.mutableMemtable < s.nextMem
      exact h.flush tables current hflush
  | flushStart | flushWrite | flushCommit | flushFail =>
      simp only [WritePath.stepFlush] at hs
      repeat' split at hs
      all_goals cases hs
      all_goals exact ⟨h.current, h.inserting, fun _ _ ht => by cases ht⟩
  | _ => cases hs

theorem step {l : Label} (h : Placed s) (hs : step maxMemtableSize s l = some s') : Placed s' := by
  cases l with
  | flushStart | flushWrite | flushCommit | flushLoad | flushStore | flushFail =>
      simp only [WritePath.step] at hs
      exact h.stepFlush hs
  | storeRotation r =>
      simp only [WritePath.step, stepRotate] at hs
      split at hs <;> cases hs
      exact h.storeRotation
  | loadMemtable r =>
      simp only [WritePath.step, stepMemtable] at hs
      split at hs <;> cases hs
      refine h.move rfl rfl rfl rfl fun b mem rest hp => ?_
      cases hp
      exact h.current
  | insert r =>
      simp only [WritePath.step, stepMemtable] at hs
      split at hs <;> cases hs
      · rename_i b mem m rest hr
        refine h.move (t := s.insertEntry mem m) rfl rfl rfl rfl fun b' mem' rest' hp => ?_
        cases hp
        exact h.inserting r _ _ _ hr
      · exact h.move rfl rfl rfl rfl (fun _ _ _ hp => by cases hp)
  | _ =>
      simp only [WritePath.step, stepQueue, stepWal, stepMemtable, stepRotate] at hs
      repeat' split at hs
      all_goals cases hs
      all_goals first
        | exact ⟨h.current, h.inserting, h.flush⟩
        | exact h.move rfl rfl rfl rfl (fun _ _ _ hp => by cases hp)

theorem of_start (hstart : Start s) : Placed s := by
  refine ⟨hstart.allocated _ (List.mem_append_right _ (List.mem_singleton.mpr rfl)),
    fun r b mem rest hr => ?_, fun tables current ht => ?_⟩
  · rw [hstart.phase r] at hr
    cases hr
  · rw [hstart.flush] at ht
    cases ht

/-- An insertion goes to a memtable that is in place. -/
theorem insertion_lt {l : Label} {mem : Nat} {m : Nat × Entry} (h : Placed s)
    (hinsertion : History.insertion s l = some (mem, m)) : mem < s.nextMem := by
  cases l with
  | insert r =>
      simp only [History.insertion] at hinsertion
      split at hinsertion <;> cases hinsertion
      rename_i hr
      exact h.inserting r _ _ _ hr
  | _ => cases hinsertion

/-- Numbers are handed out in increasing order. -/
theorem nextMem_le {l : Label} (hs : WritePath.step maxMemtableSize s l = some s') :
    s.nextMem ≤ s'.nextMem := by
  cases l with
  | storeRotation r =>
      simp only [WritePath.step, stepRotate] at hs
      split at hs <;> cases hs
      exact Nat.le_succ _
  | _ =>
      simp only [WritePath.step, stepQueue, stepWal, stepMemtable, stepRotate,
        WritePath.stepFlush] at hs
      repeat' split at hs
      all_goals cases hs
      all_goals exact Nat.le_refl _

end Placed

/-- The record agrees with the data. -/
structure Ledger (h : History) : Prop where
  placed : Placed h.sys
  appended : h.appends.map Prod.snd = h.sys.appended
  files : ∀ wal, h.sys.walFile wal = h.before wal ++ h.appendedTo wal
  inserted : h.inserts.map Prod.snd = h.sys.inserted
  below : ∀ a ∈ h.inserts, a.1 < h.sys.nextMem
  memtables : ∀ mem, h.sys.mems mem = h.memBefore mem ++ h.insertedInto mem

namespace Ledger

variable {maxMemtableSize : Nat} {h h' : History}

/-- The entries a step appends are those it adds to the list of all appended entries. -/
theorem appendedBy_eq {s s' : Sys} {l : Label} {wal : WalHandle} {members : List (Nat × Entry)}
    (htarget : History.target s l = some wal) (happended : s'.appended = s.appended ++ members) :
    History.appendedBy s s' l = members.map (wal, ·) := by
  simp only [History.appendedBy, htarget, happended, List.drop_left]

theorem appendedBy_none {s s' : Sys} {l : Label} (htarget : History.target s l = none) :
    History.appendedBy s s' l = [] := by
  simp only [History.appendedBy, htarget]

/-- What memtables held before is recorded when one is put in place. -/
theorem memBefore_record {l : Label} (hstore : ∀ r, l ≠ .storeRotation r) (s' : Sys) :
    (h.record l s').memBefore = h.memBefore := by
  cases l with
  | storeRotation r => exact absurd rfl (hstore r)
  | _ => rfl

/-- A log file grows by the entries recorded for it. -/
theorem files_append (hl : Ledger h) {l : Label} {s' : Sys} {wal : WalHandle}
    {members : List (Nat × Entry)}
    (hrecord : (h.record l s').appends = h.appends ++ members.map (wal, ·))
    (hfile : s'.walFile = Function.update h.sys.walFile wal.id
      (h.sys.walFile wal.id ++ members.map Prod.snd)) (id : UInt32) :
    s'.walFile id = h.before id ++ (h.record l s').appendedTo id := by
  rw [hfile, History.appendedTo, hrecord, List.filter_append, List.map_append, ← List.append_assoc,
    show (h.appends.filter fun a => a.1.id = id).map (fun a => a.2.2) = h.appendedTo id from rfl,
    ← hl.files id]
  by_cases heq : id = wal.id
  · subst heq
    have hall : (members.map (wal, ·)).filter (fun a => a.1.id = wal.id) = members.map
        (wal, ·) := by
      refine List.filter_eq_self.mpr fun a ha => ?_
      obtain ⟨m, _, rfl⟩ := List.mem_map.mp ha
      exact decide_eq_true rfl
    rw [Function.update_self, hall, List.map_map]
    rfl
  · rw [Function.update_of_ne heq, List.filter_eq_nil_iff.mpr, List.map_nil, List.append_nil]
    intro a ha
    obtain ⟨m, _, rfl⟩ := List.mem_map.mp ha
    simpa using fun hid => heq hid.symm

/-- A memtable grows by the entry recorded for it. -/
theorem memtables_insert (hl : Ledger h) {l : Label} {s' : Sys} {mem : Nat} {m : Nat × Entry}
    (hrecord : (h.record l s').inserts = h.inserts ++ [(mem, m)])
    (hmems : s'.mems = Function.update h.sys.mems mem (h.sys.mems mem ++ [m.2])) (mem' : Nat) :
    s'.mems mem' = h.memBefore mem' ++ (h.record l s').insertedInto mem' := by
  rw [hmems, History.insertedInto, hrecord, List.filter_append, List.map_append,
    ← List.append_assoc,
    show (h.inserts.filter fun a => a.1 = mem').map (fun a => a.2.2) = h.insertedInto mem' from rfl,
    ← hl.memtables mem']
  by_cases heq : mem' = mem
  · subst heq
    simp
  · have hne : mem ≠ mem' := fun h => heq h.symm
    simp [Function.update_of_ne heq, hne]

/-- A memtable that is put in place is empty, and nothing is recorded for it. -/
theorem memtables_place (hl : Ledger h) {s' : Sys} {r : Nat}
    (hrecord : (h.record (.storeRotation r) s').inserts = h.inserts)
    (hmems : s'.mems = Function.update h.sys.mems h.sys.nextMem []) (mem : Nat) :
    s'.mems mem = (h.record (.storeRotation r) s').memBefore mem ++
      (h.record (.storeRotation r) s').insertedInto mem := by
  show s'.mems mem = Function.update h.memBefore h.sys.nextMem [] mem ++ _
  rw [hmems, History.insertedInto, hrecord]
  by_cases heq : mem = h.sys.nextMem
  · subst heq
    have hnone : h.inserts.filter (fun a => a.1 = h.sys.nextMem) = [] := by
      refine List.filter_eq_nil_iff.mpr fun a ha => ?_
      simpa using Nat.ne_of_lt (hl.below a ha)
    rw [Function.update_self, Function.update_self, hnone]
    rfl
  · rw [Function.update_of_ne heq, Function.update_of_ne heq]
    exact hl.memtables mem

/-- Every step keeps the record in agreement with the data. -/
theorem step {l : Label} (hl : Ledger h) (hs : h.step maxMemtableSize l = some h') : Ledger h' := by
  obtain ⟨hs', hrecord⟩ := History.step_sys hs
  have hplaced := hl.placed.step hs'
  have hnext := Placed.nextMem_le hs'
  generalize h'.sys = s' at hs' hrecord hplaced hnext
  subst hrecord
  have hbelow : ∀ a ∈ h.inserts, a.1 < s'.nextMem :=
    fun a ha => Nat.lt_of_lt_of_le (hl.below a ha) hnext
  cases dataStep_of_step hs' with
  | same htarget hinsertion hstore hfile hmems happended hinserted =>
      have happends : (h.record l s').appends = h.appends := by
        simp only [History.record, appendedBy_none htarget, List.append_nil]
      have hinserts : (h.record l s').inserts = h.inserts := by
        simp only [History.record, hinsertion, Option.toList_none, List.append_nil]
      refine ⟨hplaced, ?_, fun wal => ?_, ?_, hinserts ▸ hbelow, fun mem => ?_⟩
      · rw [happends, hl.appended]
        exact happended.symm
      · rw [History.appendedTo, happends]
        exact (congrFun hfile wal).trans (hl.files wal)
      · rw [hinserts, hl.inserted]
        exact hinserted.symm
      · rw [memBefore_record hstore, History.insertedInto, hinserts]
        exact (congrFun hmems mem).trans (hl.memtables mem)
  | append wal members htarget hinsertion hstore hfile hmems happended hinserted =>
      have happends : (h.record l s').appends = h.appends ++ members.map (wal, ·) := by
        simp only [History.record, appendedBy_eq htarget happended]
      have hinserts : (h.record l s').inserts = h.inserts := by
        simp only [History.record, hinsertion, Option.toList_none, List.append_nil]
      refine ⟨hplaced, ?_, hl.files_append happends hfile, ?_, hinserts ▸ hbelow, fun mem => ?_⟩
      · show _ = s'.appended
        rw [happends, List.map_append, hl.appended, List.map_map, happended]
        exact congrArg (h.sys.appended ++ ·) (List.map_id members)
      · rw [hinserts, hl.inserted]
        exact hinserted.symm
      · rw [memBefore_record hstore, History.insertedInto, hinserts]
        exact (congrFun hmems mem).trans (hl.memtables mem)
  | insert mem m htarget hinsertion hstore hfile hmems happended hinserted =>
      have happends : (h.record l s').appends = h.appends := by
        simp only [History.record, appendedBy_none htarget, List.append_nil]
      have hinserts : (h.record l s').inserts = h.inserts ++ [(mem, m)] := by
        simp only [History.record, hinsertion, Option.toList_some]
      refine ⟨hplaced, ?_, fun wal => ?_, ?_, fun a ha => ?_, fun mem' => ?_⟩
      · rw [happends, hl.appended]
        exact happended.symm
      · rw [History.appendedTo, happends]
        exact (congrFun hfile wal).trans (hl.files wal)
      · rw [hinserts, List.map_append, hl.inserted]
        exact hinserted.symm
      · rw [hinserts] at ha
        rcases List.mem_append.mp ha with ha | ha
        · exact hbelow a ha
        · rw [List.mem_singleton.mp ha]
          exact Nat.lt_of_lt_of_le (hl.placed.insertion_lt hinsertion) hnext
      · rw [memBefore_record hstore]
        exact hl.memtables_insert hinserts hmems mem'
  | place htarget hinsertion hstore hfile hmems happended hinserted =>
      obtain ⟨r, rfl⟩ := hstore
      have happends : (h.record (.storeRotation r) s').appends = h.appends := by
        simp only [History.record, appendedBy_none htarget, List.append_nil]
      have hinserts : (h.record (.storeRotation r) s').inserts = h.inserts := by
        simp only [History.record, hinsertion, Option.toList_none, List.append_nil]
      refine ⟨hplaced, ?_, fun wal => ?_, ?_, hinserts ▸ hbelow, hl.memtables_place hinserts hmems⟩
      · rw [happends, hl.appended]
        exact happended.symm
      · rw [History.appendedTo, happends]
        exact (congrFun hfile wal).trans (hl.files wal)
      · rw [hinserts, hl.inserted]
        exact hinserted.symm

theorem of_start (hstart : h.Start) : Ledger h := by
  refine ⟨.of_start hstart.sys, ?_, fun wal => ?_, ?_, ?_, fun mem => ?_⟩
  · rw [hstart.appends, hstart.appended, List.map_nil]
  · rw [History.appendedTo, hstart.appends, hstart.before]
    simp
  · rw [hstart.inserts, hstart.sys.recorded.1, List.map_nil]
  · rw [hstart.inserts]
    exact fun a ha => absurd ha List.not_mem_nil
  · rw [History.insertedInto, hstart.inserts, hstart.memBefore]
    simp

/-- In every run the record agrees with the data. -/
theorem of_reach {ok : History → Label → Prop}
    (hreach : Reach (History.step maxMemtableSize) History.Start ok h) : Ledger h :=
  hreach.invariant (fun _ => of_start) (fun _ _ _ hl _ hs => hl.step hs)

end Ledger

end EasyLsm.WritePath
