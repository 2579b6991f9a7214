import Mathlib.Data.List.Basic
import EasyLsm.Db.Descent

/-!
# What `get` returns

`get` asks the mutable memtable, the frozen ones from the newest to the oldest, and the tables level
by level, and it stops at the first value. `get_returns_newest`: that is the value of the last write
as long as a flush leaves no user key in two tables of level 0, where the older table is asked
first, and the calls of `compact_ln` leave shallower levels newer. `get_deleted`: a memtable reports
a tombstone like an absent key and a table reports it like a value, so a deleted key is absent only
while no frozen memtable has a value for it and no table has it at all.
-/

namespace EasyLsm.Db

open Lib Lib.FileStore Lib.Versions

variable {env : Env} {w w' : World} {shelf shelf' : List (List (OpenTable env.crates))}
  {writes : List Entry} {k : Bytes}

/-- Whatever I/O calls fail, a `get` returns the value unless one of them does. -/
def Gets (env : Env) (w : World) (k : Bytes) (value : Option Value) : Prop :=
  ∀ faults, Prog.Spec (· = { w with faults }) (get env k) (fun r _ => r = value)
    (fun _ _ => faults ≠ [])

/-- The value of the last write of a key. -/
def lastValue (k : Bytes) (writes : List Entry) : Option Value := firstValue k writes.reverse

/-- The entries in the order in which they are asked. -/
def searchOrder (env : Env) (w : World) : List Entry :=
  (memtableRuns w.current).reverse.flatten ++
    (fileLists w.manifest).flatten.flatMap (fileEntries env w)

/-- A `put` has a value. -/
def PutsValue : Command → Prop
  | .put _ value => value ≠ .tombstone
  | _ => True

/-- A flush leaves no user key in two tables of level 0. -/
def FlushesApart (env : Env) (w : World) : Command → Prop
  | .structural .flushMemtables => ((levelFiles w.manifest 0).map (fileEntries env w) ++
      w.current.frozenMemtables.map Memtable.iter).Pairwise Apart
  | _ => True

/-- The commands that keep the newest version of a key the first that is asked. -/
def KeepsOrder (env : Env) (w : World) (command : Command) : Prop :=
  TakesAlone env w command ∧ FlushesApart env w command

/-- The commands behind which `get` returns the newest value. -/
def ReadAllowed (env : Env) (w : World) (command : Command) : Prop :=
  Room env w command ∧ PutsValue command ∧ KeepsOrder env w command

/-- What was written meets what is allowed to be written. -/
theorem Session.forall_written {allowed : World → Command → Prop} {P : Entry → Prop}
    (h : Session env allowed w writes)
    (hallowed : ∀ w command, allowed w command → ∀ e ∈ command.written w, P e) :
    ∀ e ∈ writes, P e := by
  induction h with
  | start => exact fun e he => absurd he List.not_mem_nil
  | step command _ hallow _ ih =>
      intro e he
      rcases List.mem_append.mp he with he | he
      · exact ih e he
      · exact hallowed _ _ hallow e he

/-! ## The search -/

/-- A memtable has the first entry with the key, but reports no tombstone. -/
theorem get_eq_firstValue {st : MemState} (m : Memtable st) (k : Bytes) :
    m.get k = (firstValue k m.store.entries).filter (· ≠ .tombstone) := by
  rw [m.get_eq, Memtable.versions, List.head?_filter]
  rfl

/-- Tables are asked one after the other. -/
theorem searchTables_reads {w₀ : World} {ts : List (OpenTable env.crates)}
    (hfiled : ∀ t ∈ ts, t.Filed w₀.dir) (k : Bytes) :
    Prog.Spec (Reads w₀) (searchTables env k (ts.map OpenTable.handle))
      (fun r _ => r = firstValue k (ts.flatMap OpenTable.entries)) (fun _ => Faulty w₀) := by
  induction ts with
  | nil => exact Prog.Spec.pure fun _ _ => rfl
  | cons t ts ih =>
      rw [List.map_cons, List.flatMap_cons, firstValue_append]
      refine Prog.Spec.bind_forall (t.search (hfiled t List.mem_cons_self) k) fun r w hw => ?_
      obtain ⟨hr, hreads⟩ := hw
      rw [← hr]
      cases r with
      | some value => exact Prog.Spec.pure fun _ _ => rfl
      | none =>
          rw [Option.none_or]
          exact (ih fun u hu => hfiled u (List.mem_cons_of_mem t hu)).weaken
            (fun _ h => h ▸ hreads) (fun _ _ h => h) fun _ _ h => h

/-- What is found: a value in the mutable memtable, in a frozen one, or anything in a table. -/
def found (w : World) (shelf : List (List (OpenTable env.crates))) (k : Bytes) : Option Value :=
  (w.current.mutableMemtable.get k).or
    ((w.current.frozenMemtables.reverse.findSome? (·.get k)).or
      (firstValue k (shelf.flatten.flatMap OpenTable.entries)))

/-- `get` returns what is found, and nothing else. -/
theorem gets_iff (h : Shelved env w shelf) {value : Option Value} :
    Gets env w k value ↔ found w shelf k = value := by
  have hspec : ∀ faults, Prog.Spec (· = { w with faults }) (get env k)
      (fun r _ => r = found w shelf k) (fun _ _ => faults ≠ []) := by
    intro faults
    refine Prog.Spec.bind_forall (Q := fun v w' => v = w.current ∧ w' = { w with faults })
      (Prog.Spec.read fun _ hw => ⟨hw ▸ rfl, hw⟩) fun v w' hw => ?_
    obtain ⟨rfl, rfl⟩ := hw
    unfold found
    cases w.current.mutableMemtable.get k with
    | some value => exact Prog.Spec.pure fun _ _ => rfl
    | none =>
        rw [Option.none_or]
        cases w.current.frozenMemtables.reverse.findSome? (·.get k) with
        | some value => exact Prog.Spec.pure fun _ _ => rfl
        | none =>
            rw [Option.none_or, h.presented, ← List.map_flatten]
            have hsearch := @searchTables_reads env { w with faults } shelf.flatten h.filed k
            exact hsearch.weaken (fun _ hw => hw ▸ Reads.refl _) (fun _ _ hr => hr)
              fun _ _ hfaulty => hfaulty.2
  constructor
  · intro hgets
    -- without a fault the value is returned
    rcases hrun : get env k { w with faults := [] } with ⟨e | r, w'⟩
    · exact absurd rfl ((hspec []).error rfl hrun)
    · exact ((hspec []).ok rfl hrun).symm.trans ((hgets []).ok rfl hrun)
  · rintro rfl faults
    exact hspec faults

/-! ## The order of the search -/

/-- In key order the newest version of a key comes first. -/
theorem newestFirst_of_keyOrdered {es : List Entry} (h : KeyOrdered es) : NewestFirst es :=
  h.imp fun hle heq => UInt64.le_iff_toNat_le.mp ((Key.le_iff_of_bytes_eq heq).mp hle)

theorem searchOrder_eq (h : Shelved env w shelf) : searchOrder env w =
    (memtableRuns w.current).reverse.flatten ++ shelf.flatten.flatMap OpenTable.entries := by
  have htables : (fileLists w.manifest).flatten.flatMap (fileEntries env w) =
      shelf.flatten.flatMap OpenTable.entries := by
    rw [h.listed, ← List.map_flatten, List.flatMap_map]
    exact List.flatMap_congr fun t ht => h.fileEntries_meta ht
  rw [searchOrder, htables]

/-- What is asked is what is stored. -/
theorem searchOrder_perm (h : Shelved env w shelf) :
    (searchOrder env w).Perm (storedEntries w shelf) := by
  rw [searchOrder_eq h, storedEntries]
  exact (List.reverse_perm _).flatten.append_right _

/-- Without tombstones the first entry with the key is found. -/
theorem found_eq_firstValue (h : Shelved env w shelf)
    (hvalues : ∀ e ∈ storedEntries w shelf, e.2 ≠ .tombstone) (k : Bytes) :
    found w shelf k = firstValue k (searchOrder env w) := by
  have hget : ∀ {st} (m : Memtable st), m.store.entries ∈ memtableRuns w.current →
      m.get k = firstValue k m.store.entries := by
    intro st m hm
    rw [get_eq_firstValue]
    cases hfirst : firstValue k m.store.entries with
    | none => rfl
    | some value =>
        obtain ⟨e, he, rfl⟩ := Option.map_eq_some_iff.mp hfirst
        have hvalue :=
          hvalues e (mem_storedEntries.mpr (.inl ⟨_, hm, List.mem_of_find?_eq_some he⟩))
        simpa [Option.filter] using hvalue
  have hfrozen : ∀ ms : List (Memtable .immutable),
      (∀ m ∈ ms, m.store.entries ∈ memtableRuns w.current) →
      ms.findSome? (·.get k) = firstValue k (ms.flatMap Memtable.iter) := by
    intro ms hms
    induction ms with
    | nil => rfl
    | cons m ms ih =>
        rw [List.findSome?_cons, List.flatMap_cons, firstValue_append,
          hget m (hms m List.mem_cons_self),
          ih fun m' hm' => hms m' (List.mem_cons_of_mem m hm')]
        show _ = (firstValue k m.store.entries).or _
        cases firstValue k m.store.entries <;> rfl
  have hmem : ∀ m ∈ w.current.frozenMemtables.reverse, m.store.entries ∈ memtableRuns w.current :=
    fun m hm => List.mem_append_left _
      (List.mem_map_of_mem (f := Memtable.iter) (List.mem_reverse.mp hm))
  have hruns : (memtableRuns w.current).reverse.flatten = w.current.mutableMemtable.store.entries ++
      w.current.frozenMemtables.reverse.flatMap Memtable.iter := by
    rw [memtableRuns, List.reverse_append, List.reverse_singleton, List.singleton_append,
      List.flatten_cons, ← List.map_reverse, List.flatMap_def]
  rw [searchOrder_eq h, hruns, List.append_assoc, firstValue_append, firstValue_append, found,
    hget _ (List.mem_append_right _ (List.mem_singleton_self _)), hfrozen _ hmem]

/-- No two tables of level 0 have a user key in common. -/
def Level0Apart {c : Crates} (shelf : List (List (OpenTable c))) : Prop :=
  (Levels.get shelf 0).Pairwise fun t u => Apart t.entries u.entries

namespace Arranged

/-- The stored versions of a key have different LSNs. -/
theorem seq_ne (h : Arranged env w shelf writes) : (storedEntries w shelf).Pairwise fun a b =>
    Versioned.key a = Versioned.key b → Versioned.seq a ≠ Versioned.seq b := by
  refine (List.pairwise_map.mp h.nodup).imp fun {a b} hne heq hseq => hne ?_
  have hlsn : a.1.lsn = b.1.lsn := UInt64.toNat_inj.mp hseq
  refine le_antisymm ((Key.le_iff_of_bytes_eq heq).mpr ?_)
    ((Key.le_iff_of_bytes_eq heq.symm).mpr ?_)
  · exact UInt64.le_of_eq hlsn.symm
  · exact UInt64.le_of_eq hlsn

/-- A version of a key is determined by its LSN. -/
theorem unique (h : Arranged env w shelf writes) : ∀ a ∈ storedEntries w shelf,
    ∀ b ∈ storedEntries w shelf, Versioned.key a = Versioned.key b →
      Versioned.seq a = Versioned.seq b → a = b := by
  have hsymm : Std.Symm fun a b : Entry =>
      Versioned.key a = Versioned.key b → Versioned.seq a ≠ Versioned.seq b :=
    ⟨fun _ _ hne heq hseq => hne heq.symm hseq.symm⟩
  intro a ha b hb heq hseq
  by_contra hne
  exact h.seq_ne.forall ha hb hne heq hseq

/-- The writes from the last to the first. -/
theorem newestFirst_writes (h : Arranged env w shelf writes) : NewestFirst writes.reverse :=
  List.pairwise_reverse.mpr (h.increasing.imp fun {a b} hlt _ =>
    le_of_lt (show a.1.lsn.toNat < b.1.lsn.toNat from UInt64.lt_iff_toNat_lt.mp hlt))

/-- The memtables, the newest first. -/
theorem newestFirst_memtables (h : Arranged env w shelf writes) :
    NewestFirst (memtableRuns w.current).reverse.flatten := by
  refine newestFirst_flatten (fun es hes => ?_) (List.pairwise_reverse.mpr h.memtables)
  have hsorted : ∀ {st} (m : Memtable st), NewestFirst m.store.entries :=
    fun m => newestFirst_of_keyOrdered (m.store.sorted.imp le_of_lt)
  rcases List.mem_append.mp (List.mem_reverse.mp hes) with hes | hes
  · obtain ⟨m, _, rfl⟩ := List.mem_map.mp hes
    exact hsorted m
  · rw [List.mem_singleton.mp hes]
    exact hsorted _

/-- The newest version of a key is asked first exactly when shallower levels are newer and the
tables of level 0 have no user key in common. -/
theorem newestFirst_iff (h : Arranged env w shelf writes) (hordered : LevelsOrdered shelf) :
    NewestFirst (searchOrder env w) ↔ Descending OpenTable.entries shelf ∧ Level0Apart shelf := by
  rw [searchOrder_eq h.layout.shelved]
  constructor
  · intro hfirst
    obtain ⟨_, htables, _⟩ := List.pairwise_append.mp hfirst
    refine ⟨.of_newestFirst htables (List.pairwise_append.mp h.seq_ne).2.1, ?_⟩
    have hlevel0 : (Levels.get shelf 0).Sublist shelf.flatten := by
      cases shelf with
      | nil => exact List.nil_sublist _
      | cons level shelf => exact List.sublist_append_left _ _
    rw [List.flatMap_def] at htables
    have hpairs := (List.pairwise_map.mp (List.pairwise_flatten.mp htables).2).sublist hlevel0
    refine (hpairs.and h.level0).imp fun {t u} htu a ha b hb heq => ?_
    -- the older table would have the newer version
    exact absurd (htu.2 a ha b hb heq) (Nat.not_lt.mpr (htu.1 a ha b hb heq))
  · intro ⟨hdescending, hapart⟩
    refine List.pairwise_append.mpr ⟨h.newestFirst_memtables, ?_, fun b hb a ha heq => ?_⟩
    · refine hdescending.newestFirst fun i => ?_
      by_cases hi : i = 0
      · subst hi
        rw [List.flatMap_def]
        refine newestFirst_flatten (fun es hes => ?_)
          (List.pairwise_map.mpr (hapart.imp fun htu => htu.symm.older))
        obtain ⟨t, _, rfl⟩ := List.mem_map.mp hes
        exact newestFirst_of_keyOrdered t.ordered
      · refine newestFirst_of_keyOrdered ?_
        rw [List.flatMap_def]
        refine List.pairwise_flatten.mpr ⟨fun es hes => ?_, List.pairwise_map.mpr ?_⟩
        · obtain ⟨t, _, rfl⟩ := List.mem_map.mp hes
          exact t.ordered
        · refine (hordered i (Nat.pos_of_ne_zero hi)).imp fun {t u} htu a ha b hb => ?_
          exact le_of_lt (lt_of_le_of_lt (t.key_bounds ha).2
            (lt_of_lt_of_le htu (u.key_bounds hb).1))
    · obtain ⟨es, hes, hb⟩ := List.mem_flatten.mp hb
      obtain ⟨t, ht, ha⟩ := List.mem_flatMap.mp ha
      exact le_of_lt (h.tables t ht es (List.mem_reverse.mp hes) a ha b hb heq.symm)

/-- A command keeps the tables of level 0 apart exactly when a flush leaves no user key in two of
them. -/
theorem level0Apart_step_iff (h : Arranged env w shelf writes) (hapart : Level0Apart shelf)
    {command : Command} (houtcome : Outcome env w shelf command w' shelf') :
    Level0Apart shelf' ↔ FlushesApart env w command := by
  have hlevel : (levelFiles w.manifest 0).map (fileEntries env w) =
      (Levels.get shelf 0).map OpenTable.entries := by
    rw [h.layout.shelved.levelFiles, List.map_map]
    exact List.map_congr_left fun t ht => h.layout.shelved.fileEntries_meta (Shelved.mem_flatten ht)
  cases houtcome with
  | put | putRotated | rotated => exact iff_of_true hapart trivial
  | notFlushed hempty =>
      refine iff_of_true hapart ?_
      show List.Pairwise Apart _
      rw [hlevel, hempty, List.map_nil, List.append_nil]
      exact List.pairwise_map.mpr hapart
  | flushed _ hentries =>
      show _ ↔ List.Pairwise Apart _
      rw [hlevel, ← hentries, ← List.map_append, List.pairwise_map, Level0Apart, Levels.get_push,
        if_pos rfl]
  | @notCompacted k => cases k <;> exact iff_of_true hapart trivial
  | @compacted k s _ _ _ _ new =>
      have hafter := hapart.sublist (s.replace_level0 new shelf)
      cases k <;> exact iff_of_true hafter trivial

end Arranged

/-- As long as no flush leaves a user key in two tables of level 0, and behind level 0 only tables
are compacted that have no key in common with the rest of their level, `get` returns the value of
the last `put`. The first command that does otherwise puts an older version before a newer one. -/
theorem get_returns_newest (env : Env) (w : World) (writes : List Entry)
    (h : Session env (ReadAllowed env) w writes) :
    (∀ k, Gets env w k (lastValue k writes)) ∧ NewestFirst (searchOrder env w) ∧
    ∀ command w', Room env w command → command.run env w = (.ok (), w') →
      (NewestFirst (searchOrder env w') ↔ KeepsOrder env w command) := by
  obtain ⟨shelf, harranged, ⟨hdescending, hapart⟩, hordered⟩ := h.invariant
    (P := fun _ shelf => (Descending OpenTable.entries shelf ∧ Level0Apart shelf) ∧
      LevelsOrdered shelf)
    (fun _ _ hallowed => hallowed.1)
    (fun _ _ => ⟨⟨fun _ _ _ _ ha => absurd ha List.not_mem_nil, .nil⟩, fun _ _ => .nil⟩)
    fun harranged hinv hallowed houtcome _ =>
      ⟨⟨harranged.descending_step hinv.1.1 hallowed.2.2.1 houtcome,
        (harranged.level0Apart_step_iff hinv.1.2 houtcome).mpr hallowed.2.2.2⟩,
        harranged.levelsOrdered_step hinv.2 houtcome⟩
  have hfirst := (harranged.newestFirst_iff hordered).mpr ⟨hdescending, hapart⟩
  have hshelved := harranged.layout.shelved
  refine ⟨fun k => (gets_iff hshelved).mpr ?_, hfirst, fun command w' hroom hrun => ?_⟩
  · have hvalues : ∀ e ∈ writes, e.2 ≠ .tombstone :=
      h.forall_written fun w command hallowed e he => by
      cases command with
      | put key value =>
          rw [List.mem_singleton.mp he]
          exact hallowed.2.1
      | structural op => cases he
    rw [found_eq_firstValue hshelved fun e he => hvalues e (harranged.stored.mem_iff.mp he)]
    have hperm := (searchOrder_perm hshelved).trans
      (harranged.stored.trans (List.reverse_perm writes).symm)
    have hsame :=
      hfirst.find?_eq k harranged.newestFirst_writes hperm fun a ha b hb => harranged.unique a
      ((searchOrder_perm hshelved).mem_iff.mp ha) b ((searchOrder_perm hshelved).mem_iff.mp hb)
    exact congrArg (Option.map Prod.snd) hsame
  · obtain ⟨shelf', houtcome, hlayout⟩ := harranged.layout.step hroom hrun
    have harranged' := harranged.step hroom houtcome hlayout
    rw [harranged'.newestFirst_iff (harranged.levelsOrdered_step hordered houtcome),
      harranged.descending_step_iff hordered hdescending houtcome,
      harranged.level0Apart_step_iff hapart houtcome]
    rfl

/-- Both versions of a key are in one table. -/
theorem get_returns_newest_flushed : ∃ w, levelFiles w.manifest 0 ≠ [] ∧
    Gets defaultEnv w [97] (some (.bytes [2])) := by
  obtain ⟨w, t, hsession, hshelved, _⟩ :=
    @exists_flushed (ReadAllowed defaultEnv) [97] _ (.inl rfl) rfl
    (fun _ _ _ hroom hvalue => ⟨hroom, hvalue, trivial, trivial⟩)
    (fun _ => ⟨trivial, trivial, trivial, trivial⟩)
    fun hroom => ⟨hroom, trivial, trivial, List.pairwise_singleton _ _⟩
  refine ⟨w, ?_, (get_returns_newest defaultEnv w _ hsession).1 [97]⟩
  rw [hshelved.levelFiles]
  exact List.cons_ne_nil _ _

/-- A new database after two puts of one key, each followed by a rotation. -/
def twoFrozenVersions : World :=
  (rotateMemtable defaultEnv (put defaultEnv [97] (.bytes [2])
    (rotateMemtable defaultEnv (put defaultEnv [97] (.bytes [1])
      (pristine defaultEnv)).2).2).2).2

/-- A key is put twice, with a rotation behind each `put`. A flush writes the older version to the
first table of level 0 and the newer one to the second, and `get` asks the first one. -/
theorem get_returns_older : ¬ ∀ (env : Env) (w : World) (writes : List Entry),
    Session env (fun w command => Room env w command ∧ PutsValue command) w writes →
    ∀ k, Gets env w k (lastValue k writes) := by
  intro hall
  have hstart : Session defaultEnv (fun w command => Room defaultEnv w command ∧ PutsValue command)
      (pristine defaultEnv) [] := .start [] []
  have hfirst := hstart.step (.put [97] (.bytes [1]))
    ⟨show (1 : UInt64).toNat + 1 < 2 ^ 64 by decide, show Value.bytes [1] ≠ .tombstone by decide⟩
    (run_of_ok rfl)
  have hrotated := hfirst.step (.structural .rotateMemtable) ⟨trivial, trivial⟩ (run_of_ok rfl)
  have hsecond := hrotated.step (.put [97] (.bytes [2]))
    ⟨show (2 : UInt64).toNat + 1 < 2 ^ 64 by decide, show Value.bytes [2] ≠ .tombstone by decide⟩
    (run_of_ok rfl)
  have hsession :
    Session defaultEnv (fun w command => Room defaultEnv w command ∧ PutsValue command)
      twoFrozenVersions [olderVersion, newerVersion] :=
    hsecond.step (.structural .rotateMemtable) ⟨trivial, trivial⟩ (run_of_ok rfl)
  have hfrozen : twoFrozenVersions.current.frozenMemtables =
      [((Memtable.new).putBatch [olderVersion]).freeze,
        ((Memtable.new).putBatch [newerVersion]).freeze] := rfl
  have hids : twoFrozenVersions.manifest.sstableIds = [] := rfl
  have hfits : FlushFits defaultEnv.crates twoFrozenVersions := by
    constructor <;> rw [hfrozen] <;> decide
  have hfresh : ∀ t ∈ flushTables defaultEnv.crates twoFrozenVersions,
      t.meta'.fileId ∉ twoFrozenVersions.manifest.sstableIds := by
    intro t _
    rw [hids]
    exact List.not_mem_nil
  have hrun := flush_run hfits rfl (by decide +kernel) (by rw [hfrozen]; decide)
  have hshelved : Shelved defaultEnv twoFrozenVersions [] := ⟨rfl, rfl, by simp, List.nodup_nil⟩
  obtain ⟨new, w₁, hs, hentries, _, hdone, hflushed⟩ :=
    hshelved.flushed hfits hfresh (by rw [hfrozen]; decide) hrun
  have hgets := hall defaultEnv _ _ (hsession.step (.structural .flushMemtables)
    ⟨⟨hfits, hfresh⟩, trivial⟩ hrun) [97]
  -- the older version is in the first table
  have htables : (Levels.push new ([] : List (List (OpenTable defaultEnv.crates)))).flatten = new :=
    List.append_nil new
  have hfound : found (flushMemtables defaultEnv twoFrozenVersions).2 (Levels.push new []) [97] =
      some (.bytes [1]) := by
    rw [found, hdone.current, htables, List.flatMap_def, hentries, hfrozen]
    rfl
  rw [gets_iff hflushed, hfound] at hgets
  exact absurd hgets (by decide)

/-! ## Deleted keys -/

/-- The newest version of the key in a frozen memtable is not a value, and no table has the key. -/
structure Gone (env : Env) (w : World) (k : Bytes) : Prop where
  frozen : ∀ m ∈ w.current.frozenMemtables, ∀ value, firstValue k m.iter = some value →
    value = .tombstone
  tables : ∀ f ∈ (fileLists w.manifest).flatten, ∀ e ∈ fileEntries env w f, e.1.bytes ≠ k

/-- A memtable reports nothing when its newest version of the key is not a value. -/
theorem get_eq_none {st : MemState} {m : Memtable st} :
    m.get k = none ↔ ∀ value, firstValue k m.store.entries = some value → value = .tombstone := by
  rw [get_eq_firstValue, Option.filter_eq_none_iff]
  simp only [decide_eq_true_eq, not_not]

/-- Nothing is found when neither a memtable has a value nor a table has the key. -/
theorem found_eq_none_iff (h : Shelved env w shelf) :
    found w shelf k = none ↔ w.current.mutableMemtable.get k = none ∧ Gone env w k := by
  have htables : firstValue k (shelf.flatten.flatMap OpenTable.entries) = none ↔
      ∀ f ∈ (fileLists w.manifest).flatten, ∀ e ∈ fileEntries env w f, e.1.bytes ≠ k := by
    rw [firstValue_eq_none, h.listed, ← List.map_flatten, List.forall_mem_map]
    constructor
    · intro hall t ht e he
      rw [h.fileEntries_meta ht] at he
      exact hall e (List.mem_flatMap.mpr ⟨t, ht, he⟩)
    · intro hall e he
      obtain ⟨t, ht, he⟩ := List.mem_flatMap.mp he
      exact hall t ht e (h.fileEntries_meta ht ▸ he)
  have hfrozen : w.current.frozenMemtables.reverse.findSome? (·.get k) = none ↔
      ∀ m ∈ w.current.frozenMemtables, ∀ value, firstValue k m.iter = some value →
        value = .tombstone := by
    rw [List.findSome?_eq_none_iff]
    simp only [List.mem_reverse]
    exact forall₂_congr fun m _ => get_eq_none
  rw [found, Option.or_eq_none_iff, Option.or_eq_none_iff, htables, hfrozen]
  exact and_congr_right fun _ => ⟨fun ⟨hf, ht⟩ => ⟨hf, ht⟩, fun ⟨hf, ht⟩ => ⟨hf, ht⟩⟩

/-- The mutable memtable reports nothing for a key whose last write was a tombstone. -/
theorem Arranged.get_deleted_mutable (h : Arranged env w shelf writes)
    (hdeleted : lastValue k writes = some .tombstone) :
    w.current.mutableMemtable.get k = none := by
  rw [get_eq_none]
  intro value hvalue
  obtain ⟨last, hlast, htombstone⟩ := Option.map_eq_some_iff.mp hdeleted
  obtain ⟨e, he, rfl⟩ := Option.map_eq_some_iff.mp hvalue
  have hek : e.1.bytes = k := by simpa using List.find?_some he
  have hlastk : last.1.bytes = k := by simpa using List.find?_some hlast
  let mem := w.current.mutableMemtable.store.entries
  have hmem : mem ∈ memtableRuns w.current := List.mem_append_right _ (List.mem_singleton_self _)
  have hein : e ∈ storedEntries w shelf :=
    mem_storedEntries.mpr (.inl ⟨mem, hmem, List.mem_of_find?_eq_some he⟩)
  have hlastin : last ∈ storedEntries w shelf :=
    h.stored.mem_iff.mpr (List.mem_reverse.mp (List.mem_of_find?_eq_some hlast))
  -- no version is newer than the last write
  have hwrites : NewestFirst writes.reverse := h.newestFirst_writes
  have hle : Versioned.seq e ≤ Versioned.seq last :=
    hwrites.find? hlast (List.mem_reverse.mpr (h.stored.mem_iff.mp hein)) hek
  have hge : Versioned.seq last ≤ Versioned.seq e := by
    rcases mem_storedEntries.mp hlastin with ⟨es, hes, hin⟩ | ⟨t, ht, hin⟩
    · rcases List.mem_append.mp hes with hes | hes
      · exact le_of_lt ((List.pairwise_append.mp h.memtables).2.2 es hes mem
          (List.mem_singleton_self _) last hin e (List.mem_of_find?_eq_some he)
          (hlastk.trans hek.symm))
      · have hsorted : NewestFirst mem :=
          newestFirst_of_keyOrdered (w.current.mutableMemtable.store.sorted.imp le_of_lt)
        rw [List.mem_singleton.mp hes] at hin
        exact hsorted.find? he hin hlastk
    · exact le_of_lt (h.tables t ht mem hmem last hin e (List.mem_of_find?_eq_some he)
        (hlastk.trans hek.symm))
  rw [h.unique e hein last hlastin (hek.trans hlastk.symm) (Nat.le_antisymm hle hge)]
  exact htombstone

/-- In a session, `get` returns nothing for a key that was deleted exactly when no frozen memtable
has a value as its newest version of the key and no table has the key. -/
theorem get_deleted (env : Env) (w : World) (writes : List Entry) (k : Bytes)
    (h : Session env (Room env) w writes) (hdeleted : lastValue k writes = some .tombstone) :
    Gets env w k none ↔ Gone env w k := by
  obtain ⟨shelf, harranged, _⟩ := h.invariant (P := fun _ _ => True) (fun _ _ hroom => hroom)
    (fun _ _ => trivial) fun _ _ _ _ _ => trivial
  rw [gets_iff harranged.layout.shelved, found_eq_none_iff harranged.layout.shelved]
  exact and_iff_right (harranged.get_deleted_mutable hdeleted)

/-- A new database after a `put` and a `del` of its key. -/
def deletedAtOnce : World :=
  (del defaultEnv [97] (put defaultEnv [97] (.bytes [1]) (pristine defaultEnv)).2).2

theorem get_deleted_at_once : Gets defaultEnv deletedAtOnce [97] none := by
  have hstart : Session defaultEnv (Room defaultEnv) (pristine defaultEnv) [] := .start [] []
  have hput := hstart.step (.put [97] (.bytes [1])) (show (1 : UInt64).toNat + 1 < 2 ^ 64 by decide)
    (run_of_ok rfl)
  have hdel : Session defaultEnv (Room defaultEnv) deletedAtOnce
      [olderVersion, (Key.new [97] 2, .tombstone)] :=
    hput.step (.put [97] .tombstone) (show (2 : UInt64).toNat + 1 < 2 ^ 64 by decide)
      (run_of_ok rfl)
  exact (get_deleted defaultEnv deletedAtOnce _ [97] hdel rfl).mpr
    ⟨fun m hm => absurd hm List.not_mem_nil, fun f hf => absurd hf List.not_mem_nil⟩

/-- A key is put, the memtable is rotated, and the key is deleted. `get` goes on behind the
tombstone and finds the value in the frozen memtable. -/
theorem get_returns_deleted : ¬ ∀ (env : Env) (w : World) (writes : List Entry) (k : Bytes),
    Session env (Room env) w writes → lastValue k writes = some .tombstone → Gets env w k none := by
  intro hall
  have hstart : Session defaultEnv (Room defaultEnv) (pristine defaultEnv) [] := .start [] []
  have hput := hstart.step (.put [97] (.bytes [1])) (show (1 : UInt64).toNat + 1 < 2 ^ 64 by decide)
    (run_of_ok rfl)
  have hrotated : Session defaultEnv (Room defaultEnv) oneFrozen [olderVersion] :=
    hput.step (.structural .rotateMemtable) trivial (run_of_ok rfl)
  have hdel := hrotated.step (.put [97] .tombstone)
    (show (2 : UInt64).toNat + 1 < 2 ^ 64 by decide) (run_of_ok rfl)
  have hgets := hall defaultEnv _ _ [97] hdel rfl
  have hshelved : Shelved defaultEnv (put defaultEnv [97] .tombstone oneFrozen).2 [] :=
    ⟨rfl, rfl, by simp, List.nodup_nil⟩
  have hfound : found (put defaultEnv [97] .tombstone oneFrozen).2
      ([] : List (List (OpenTable defaultEnv.crates))) [97] = some (.bytes [1]) := rfl
  exact absurd (hfound.symm.trans ((gets_iff hshelved).mp hgets)) (by decide)

end EasyLsm.Db
